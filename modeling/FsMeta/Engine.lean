import FsMeta.Scope

set_option autoImplicit false

namespace FsMeta

structure Engine where
  storage : Storage
  schedule : Schedule := []

namespace Engine

def ofStore (store : Store) : Engine := { storage := { store } }

def withStore (engine : Engine) (store : Store) : Engine :=
  { engine with storage := { engine.storage with store } }

def withSchedule (engine : Engine) (schedule : Schedule) : Engine := { engine with schedule }

def attempt (engine : Engine) (call : Call) : Except Error Unit × Engine :=
  let (result, schedule) := engine.schedule.attempt call
  (result, engine.withSchedule schedule)

def begin (engine : Engine) (interrupts : Interrupts) : Except Error Scope × Engine :=
  match interrupts.check with
  | (.error error, _) => (.error error, engine)
  | (.ok (), interrupts) =>
    match engine.attempt .begin with
    | (.error error, engine) => (.error error, engine)
    | (.ok (), engine) =>
      let (tx, store) := Transaction.begin engine.storage.store
      (.ok { tx, interrupts }, engine.withStore store)

def step {α : Type} (engine : Engine) (scope : Scope) (action : Scoped α) :
    Except Error α × Scope × Engine :=
  let (result, scope) := action.run engine.storage { scope with schedule := engine.schedule }
  (result, scope, engine.withSchedule scope.schedule)

def abandon (engine : Engine) (tx : Transaction) : Engine :=
  engine.withStore (tx.finish engine.storage.store).2

/-- A rollback that fails below does not reach the store, but the transaction is given up. -/
def rollback (engine : Engine) (tx : Transaction) : Except Error Unit × Engine :=
  let (result, engine) := engine.attempt .rollback
  (result, engine.abandon tx)

def drop (engine : Engine) (tx : Transaction) : Engine := (engine.rollback tx).2

def commit (engine : Engine) (scope : Scope) : Except Error Unit × Engine :=
  match scope.interrupts.state with
  | .error error =>
    match engine.rollback scope.tx with
    | (.error failure, engine) => (.error failure, engine)
    | (.ok (), engine) => (.error error, engine)
  | .ok () =>
    match engine.attempt .commit with
    | (.error failure, engine) => (.error failure, engine.abandon scope.tx)
    | (.ok (), engine) =>
      let (result, _, store) := scope.tx.commit engine.storage.store
      (result, engine.withStore store)

def run {α : Type} (engine : Engine) (interrupts : Interrupts) (action : Scoped α) :
    Except Error α × Engine :=
  match engine.begin interrupts with
  | (.error error, engine) => (.error error, engine)
  | (.ok scope, engine) =>
    match engine.step scope action with
    | (.error error, scope, engine) => (.error error, engine.drop scope.tx)
    | (.ok value, scope, engine) =>
      let (result, engine) := engine.commit scope
      (result.map fun _ => value, engine)

def timestamp (engine : Engine) : Except Error UInt64 × Engine :=
  match engine.attempt .timestamp with
  | (.error error, engine) => (.error error, engine)
  | (.ok (), engine) =>
    let (result, store) := engine.storage.store.timestamp
    (result, engine.withStore store)

end Engine

end FsMeta
