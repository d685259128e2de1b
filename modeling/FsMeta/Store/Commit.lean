import FsMeta.Store.Transaction
import FsMeta.Text.Escaped

set_option autoImplicit false

namespace FsMeta

namespace Store

def timestampWindow : Nat := 1000

def release (store : Store) (snapshot : UInt64) : Store :=
  { store with active := store.active.erase snapshot }

-- The first written key, in their order, that was committed after the snapshot, and when.
def overtaken? (store : Store) (tx : Transaction) : Option (Bytes × UInt64) :=
  tx.writes.entries.findSome? fun (key, _) => do
    let versions ← store.history.find? key
    let latest ← versions.head?
    if tx.snapshot < latest.commitTime then some (key, latest.commitTime) else none

def overtaken (key : Bytes) (commitTime snapshot : UInt64) : Error :=
  .conflict s!"key {Escaped.text key} was committed at {commitTime} after snapshot {snapshot}"

def operation : Bytes × Option Bytes → Journal.Operation
  | (key, some value) => .put key value
  | (key, none) => .delete key

def log (store : Store) (commitTime : UInt64) (operations : List Journal.Operation) :
    Except Error Unit × Store :=
  match store.journal with
  | none => (.ok (), store)
  | some journal =>
    let (result, journal) := journal.append commitTime operations
    (discard result, { store with journal := some journal })

-- The oldest snapshot that someone else still reads at.
def horizon (store : Store) (snapshot commitTime : UInt64) : UInt64 :=
  ((store.active.erase snapshot).min?).getD commitTime

def recorded (horizon commitTime : UInt64) (value : Option Bytes)
    (versions : Option (List Version)) : Option (List Version) :=
  let kept := Version.pruned horizon ({ commitTime, value } :: versions.getD [])
  if Version.gone horizon kept then none else some kept

def record (store : Store) (horizon commitTime : UInt64)
    (writes : List (Bytes × Option Bytes)) : Store :=
  { store with
    history := writes.foldl
      (fun history (key, value) => history.alter key (recorded horizon commitTime value))
      store.history }

def apply (store : Store) (tx : Transaction) : Except Error Unit × Store :=
  match store.overtaken? tx with
  | some (key, commitTime) => (.error (overtaken key commitTime tx.snapshot), store)
  | none =>
    let commitTime := store.clock + 1
    let writes := tx.writes.entries
    match { store with clock := commitTime }.log commitTime (writes.map operation) with
    | (.error error, store) => (.error error, store)
    | (.ok (), store) =>
      (.ok (), store.record (store.horizon tx.snapshot commitTime) commitTime writes)

/-- The clock moves on even if the timestamp is refused. A journal learns of a whole window of
timestamps before the first of them is handed out, so a restart begins above all of them. -/
def timestamp (store : Store) : Except Error UInt64 × Store :=
  let now := store.clock + 1
  let store := { store with clock := now }
  if store.journal.isNone || now ≤ store.reserved then (.ok now, store)
  else
    let mark := UInt64.ofNat (min (now.toNat + timestampWindow) (UInt64.size - 1))
    match store.log mark [] with
    | (.ok (), store) => (.ok now, { store with reserved := mark })
    | (.error error, store) => (.error error, store)

end Store

namespace Transaction

def finish (tx : Transaction) (store : Store) : Transaction × Store :=
  ({ tx with writes := .empty, finished := true },
    if tx.finished then store else store.release tx.snapshot)

/-- A transaction is over after its commit, whether that succeeds or not. -/
def commit (tx : Transaction) (store : Store) : Except Error Unit × Transaction × Store :=
  if tx.finished then (.error closed, tx, store)
  else if tx.writes.entries.isEmpty then (.ok (), tx.finish store)
  else
    let (result, store) := store.apply tx
    (result, tx.finish store)

end Transaction

end FsMeta
