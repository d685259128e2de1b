import FsMeta.Engine
import FsMeta.Proofs.Scope

set_option autoImplicit false

namespace FsMeta.Engine

variable {α : Type}

theorem begin_cases (engine : Engine) (interrupts : Interrupts) :
    (∃ error, (engine.begin interrupts).1 = .error error ∧
      (engine.begin interrupts).2.storage.store = engine.storage.store) ∨
    ∃ later, (engine.begin interrupts).1 = .ok
        { tx := (Transaction.begin engine.storage.store).1, interrupts := later } ∧
      (engine.begin interrupts).2.storage.store = (Transaction.begin engine.storage.store).2 := by
  have checked : interrupts.check = (interrupts.check.1, interrupts.check.2) := rfl
  have tried : engine.attempt .begin = ((engine.attempt .begin).1, (engine.attempt .begin).2) := rfl
  rw [begin, checked, tried]
  cases interrupts.check.1 with
  | error error => exact .inl ⟨error, rfl, rfl⟩
  | ok _ =>
    cases (engine.attempt .begin).1 with
    | error error => exact .inl ⟨error, rfl, rfl⟩
    | ok _ => exact .inr ⟨_, rfl, rfl⟩

theorem commit_cases (engine : Engine) (scope : Scope) :
    (∃ error, (engine.commit scope).1 = .error error ∧
      (engine.commit scope).2.storage.store = (scope.tx.finish engine.storage.store).2) ∨
    (engine.commit scope).1 = (scope.tx.commit engine.storage.store).1 ∧
      (engine.commit scope).2.storage.store = (scope.tx.commit engine.storage.store).2.2 := by
  have rolled : engine.rollback scope.tx = ((engine.rollback scope.tx).1, (engine.rollback scope.tx).2) := rfl
  have tried : engine.attempt .commit = ((engine.attempt .commit).1, (engine.attempt .commit).2) := rfl
  rw [commit, rolled, tried]
  cases scope.interrupts.state with
  | error error =>
    left
    cases (engine.rollback scope.tx).1 with
    | error failure => exact ⟨failure, rfl, rfl⟩
    | ok _ => exact ⟨error, rfl, rfl⟩
  | ok _ =>
    cases (engine.attempt .commit).1 with
    | error failure => exact .inl ⟨failure, rfl, rfl⟩
    | ok _ => exact .inr ⟨rfl, rfl⟩

theorem timestamp_cases (engine : Engine) :
    engine.timestamp.2.storage.store = engine.storage.store ∨
      engine.timestamp.2.storage.store = engine.storage.store.timestamp.2 := by
  have tried : engine.attempt .timestamp =
      ((engine.attempt .timestamp).1, (engine.attempt .timestamp).2) := rfl
  rw [timestamp, tried]
  cases (engine.attempt .timestamp).1 with
  | error error => exact .inl rfl
  | ok _ => exact .inr rfl

theorem store_step (engine : Engine) (scope : Scope) (action : Scoped α) :
    (engine.step scope action).2.2.storage.store = engine.storage.store := rfl

theorem step_ensures {base : Contents} {engine : Engine} {scope : Scope} {action : Scoped α}
    {post : α → Writes → Prop}
    (snapshot : engine.storage.store.readAt scope.tx.snapshot = base)
    (unfinished : scope.tx.finished = false)
    (ensures : Scoped.Ensures base action scope.tx.writes post) :
    ∃ written, (engine.step scope action).2.1.tx = { scope.tx with writes := written } ∧
      ∀ value, (engine.step scope action).1 = .ok value → post value written :=
  ensures engine.storage { scope with schedule := engine.schedule } ⟨snapshot, rfl, unfinished⟩

end FsMeta.Engine
