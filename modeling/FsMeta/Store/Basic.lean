import FsMeta.Journal.Log
import FsMeta.Store.Version
import FsMeta.Table

set_option autoImplicit false

namespace FsMeta

structure Store where
  clock : UInt64 := 0
  reserved : UInt64 := 0
  history : Table (List Version) := .empty
  active : List UInt64 := []
  journal : Option Journal.Log := none
  deriving Inhabited

namespace Store

def keyCount (store : Store) : Nat :=
  (store.history.entries.filter fun (_, versions) => Version.isLive versions).length

def versionCount (store : Store) : Nat :=
  (store.history.entries.flatMap fun (_, versions) => versions).length

def activeCount (store : Store) : Nat := store.active.length

def isDurable (store : Store) : Bool := store.journal.isSome

def visibleAt (store : Store) (time : UInt64) : Table Bytes :=
  store.history.filterMap fun _ versions => Version.valueAt time versions

def sync (store : Store) : Except Error Unit × Store :=
  match store.journal with
  | none => (.ok (), store)
  | some log =>
    let (result, log) := log.sync
    (result, { store with journal := some log })

def close (store : Store) : Option Journal.Medium := store.journal.map Journal.Log.close

-- Nobody reads while entries are replayed, so each key keeps its last version only.
def replayOperation (commitTime : UInt64) (history : Table (List Version)) :
    Journal.Operation → Table (List Version)
  | .put key value => history.insert key [{ commitTime, value := some value }]
  | .delete key => history.erase key

def replayEntry (history : Table (List Version)) (entry : Journal.Entry) : Table (List Version) :=
  entry.operations.foldl (replayOperation entry.commitTime) history

def ofEntries (entries : List Journal.Entry) : Store :=
  let clock := entries.foldl (fun clock entry => max clock entry.commitTime) 0
  { clock, reserved := clock, history := entries.foldl replayEntry .empty }

end Store

end FsMeta
