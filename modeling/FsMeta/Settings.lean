import FsMeta.Journal.SyncPolicy

set_option autoImplicit false

namespace FsMeta

inductive LogFormat where
  | pretty
  | json
  deriving Repr, DecidableEq, Inhabited

-- No data directory means that the store lives in memory.
structure Settings where
  dataDirectory : Option String := none
  sync : SyncPolicy := .everyEntries 100
  listenAddress : String := "127.0.0.1:8089"
  timeoutMillis : Nat := 10000
  logLevel : String := "info,nsmeta=debug"
  logFormat : LogFormat := .pretty
  deriving Repr, DecidableEq

-- The name of the format in any case; everything else is the format for people.
def LogFormat.ofName (name : String) : LogFormat :=
  if name.map Char.toLower = "json" then .json else .pretty

def LogFormat.title : LogFormat → String
  | .pretty => "Pretty"
  | .json => "Json"

namespace Settings

def inMemory (settings : Settings) : Settings := { settings with dataDirectory := none }

-- Zero stands for no limit.
def requestTimeout? (settings : Settings) : Option Nat :=
  if settings.timeoutMillis = 0 then none else some settings.timeoutMillis

end Settings

end FsMeta
