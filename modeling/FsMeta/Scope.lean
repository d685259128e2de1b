import FsMeta.Fault
import FsMeta.Interrupts
import FsMeta.Key
import FsMeta.Record.Layout
import FsMeta.Store.Commit

set_option autoImplicit false

namespace FsMeta

/-- What a scope reads from. Storage that is loose gives the pairs beyond the end of a range too. -/
structure Storage where
  store : Store
  loose : Bool := false

structure Scope where
  tx : Transaction
  interrupts : Interrupts
  schedule : Schedule := []

abbrev Scoped := ReaderT Storage (ExceptT Error (StateM Scope))

namespace Scoped

def run {α : Type} (action : Scoped α) (storage : Storage) (scope : Scope) :
    Except Error α × Scope :=
  action storage scope

def check : Scoped Unit := do
  let scope ← get
  let (result, interrupts) := scope.interrupts.check
  set { scope with interrupts }
  result

def attempt (call : Call) : Scoped Unit := do
  let scope ← get
  let (result, schedule) := scope.schedule.attempt call
  set { scope with schedule }
  result

def update (change : Transaction → Except Error Transaction) : Scoped Unit := do
  let scope ← get
  let tx ← change scope.tx
  set { scope with tx }

def fetch (key : Bytes) : Scoped (Option Bytes) := do
  check
  attempt .get
  let storage ← read
  let scope ← get
  scope.tx.get storage.store key

def find? (α : Type) [Record α] (key : Bytes) : Scoped (Option α) := do
  match ← fetch key with
  | none => pure none
  | some bytes => some <$> Record.decode bytes

def find (α : Type) [Record α] (key : Bytes) : Scoped α := do
  match ← find? α key with
  | none => throw (.notFound (Key.describe key))
  | some value => pure value

def contains (key : Bytes) : Scoped Bool := Option.isSome <$> fetch key

def write (key value : Bytes) : Scoped Unit := do
  check
  attempt .set
  update (·.set key value)

def put {α : Type} [Record α] (key : Bytes) (value : α) : Scoped Unit :=
  write key (Record.encode value)

def delete (key : Bytes) : Scoped Unit := do
  check
  attempt .delete
  update (·.delete key)

def gather (scanned : Bytes) : List (Bytes × Bytes) → Scoped (List (Bytes × Bytes))
  | [] => pure []
  | (key, value) :: rest => do
    check
    if scanned.isPrefixOf key then
      attempt .next
      return (key, value) :: (← gather scanned rest)
    else pure []

def scan (scanned : Bytes) : Scoped (List (Bytes × Bytes)) := do
  check
  attempt .iterate
  let storage ← read
  let scope ← get
  let stop := if storage.loose then none else Bytes.above? scanned
  gather scanned (← scope.tx.iterate storage.store scanned stop)

-- A bound for walks over records: how many keys the scope can see.
def visibleCount : Scoped Nat := do
  let storage ← read
  let scope ← get
  pure (scope.tx.view storage.store).size

end Scoped

end FsMeta
