import FsMeta.Bytes

set_option autoImplicit false

namespace FsMeta

structure Version where
  commitTime : UInt64
  value : Option Bytes
  deriving Repr, DecidableEq

namespace Version

def valueAt (time : UInt64) (versions : List Version) : Option Bytes :=
  (versions.find? (·.commitTime ≤ time)).bind Version.value

def pruned (horizon : UInt64) : List Version → List Version
  | [] => []
  | version :: older =>
    if version.commitTime ≤ horizon then [version] else version :: pruned horizon older

-- Whether every reader at or after the horizon finds the key deleted.
def gone (horizon : UInt64) : List Version → Bool
  | [version] => version.value.isNone && version.commitTime ≤ horizon
  | _ => false

def isLive (versions : List Version) : Bool := (versions.head?.bind Version.value).isSome

end Version

end FsMeta
