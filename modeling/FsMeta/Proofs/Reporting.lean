import FsMeta.Engine
import FsMeta.Proofs.Scope

set_option autoImplicit false

namespace FsMeta

def firstFailure : List (Except Error Unit) → Except Error Unit
  | [] => .ok ()
  | .error error :: _ => .error error
  | .ok () :: rest => firstFailure rest

theorem firstFailure_singleton (step : Except Error Unit) : firstFailure [step] = step := by
  cases step <;> rfl

namespace Engine

variable {α : Type}

def closing (engine : Engine) (scope : Scope) : List (Except Error Unit) :=
  [scope.interrupts.state, (engine.attempt .commit).1, (scope.tx.commit engine.storage.store).1]

def starting (engine : Engine) (interrupts : Interrupts) : Engine × Scope :=
  let engine := (engine.attempt .begin).2
  let (tx, store) := Transaction.begin engine.storage.store
  (engine.withStore store, { tx, interrupts := interrupts.check.2 })

def acting (engine : Engine) (interrupts : Interrupts) (action : Scoped α) :
    Except Error α × Scope × Engine :=
  (engine.starting interrupts).1.step (engine.starting interrupts).2 action

def steps (engine : Engine) (interrupts : Interrupts) (action : Scoped α) : List (Except Error Unit) :=
  let (result, scope, later) := engine.acting interrupts action
  interrupts.state :: (engine.attempt .begin).1 :: discard result :: later.closing scope

/-- The commit finds its request cancelled and rolls back, and the rollback fails with something else. -/
structure Masks (engine : Engine) (scope : Scope) : Prop where
  fired : scope.interrupts.state ≠ .ok ()
  failed : (engine.attempt .rollback).1 ≠ .ok ()
  differs : (engine.attempt .rollback).1 ≠ scope.interrupts.state

structure RunMasks (engine : Engine) (interrupts : Interrupts) (action : Scoped α) : Prop where
  checked : interrupts.state = .ok ()
  begun : (engine.attempt .begin).1 = .ok ()
  acted : discard (engine.acting interrupts action).1 = .ok ()
  masks : (engine.acting interrupts action).2.2.Masks (engine.acting interrupts action).2.1

/-- What is reported is the first failure, unless it is masked: then it is what the rollback came to, in place
of a cancellation. -/
structure Reports (reported : Except Error Unit) (steps : List (Except Error Unit)) (rolled : Except Error Unit)
    (masked : Prop) : Prop where
  first : ¬ masked → reported = firstFailure steps
  rollback : masked → reported = rolled
  differs : masked → rolled ≠ firstFailure steps
  cancelled : masked → ∃ error, firstFailure steps = .error error ∧ error.kind = .cancelled

theorem Reports.eq_iff {reported rolled : Except Error Unit} {steps : List (Except Error Unit)} {masked : Prop}
    (reports : Reports reported steps rolled masked) : reported = firstFailure steps ↔ ¬ masked :=
  ⟨fun same masked => reports.differs masked ((reports.rollback masked).symm.trans same), reports.first⟩

theorem Reports.of_not {reported rolled : Except Error Unit} {steps : List (Except Error Unit)} {masked : Prop}
    (clear : ¬ masked) (same : reported = firstFailure steps) : Reports reported steps rolled masked :=
  ⟨fun _ => same, fun masked => absurd masked clear, fun masked => absurd masked clear,
    fun masked => absurd masked clear⟩

theorem commit_reports (engine : Engine) (scope : Scope) :
    Reports (engine.commit scope).1 (engine.closing scope) (engine.attempt .rollback).1 (engine.Masks scope) := by
  have rolled : engine.rollback scope.tx = ((engine.attempt .rollback).1, (engine.rollback scope.tx).2) := rfl
  have tried : engine.attempt .commit = ((engine.attempt .commit).1, (engine.attempt .commit).2) := rfl
  rw [commit, closing, rolled, tried]
  cases fired : scope.interrupts.state with
  | error error =>
    cases failed : (engine.attempt .rollback).1 with
    | ok _ => exact .of_not (fun masks => masks.failed failed) rfl
    | error failure =>
      by_cases same : failure = error
      · subst same
        exact .of_not (fun masks => masks.differs (failed.trans fired.symm)) rfl
      · have differs : (.error failure : Except Error Unit) ≠ .error error := fun equal =>
          same (Except.error.inj equal)
        have masks : engine.Masks scope := ⟨by simp [fired], by simp [failed], by rwa [failed, fired]⟩
        exact ⟨fun clear => absurd masks clear, fun _ => rfl, fun _ => differs,
          fun _ => ⟨error, rfl, Interrupts.kind_of_state fired⟩⟩
  | ok _ =>
    refine .of_not (fun masks => masks.fired fired) ?_
    cases (engine.attempt .commit).1 with
    | error failure => rfl
    | ok _ =>
      change (scope.tx.commit engine.storage.store).1 = firstFailure [(scope.tx.commit engine.storage.store).1]
      cases (scope.tx.commit engine.storage.store).1 <;> rfl

-- What a rollback comes to after the action failed is not looked at.
theorem run_eq (engine : Engine) (interrupts : Interrupts) (action : Scoped α) :
    discard (engine.run interrupts action).1 =
      firstFailure [interrupts.state, (engine.attempt .begin).1, discard (engine.acting interrupts action).1,
        ((engine.acting interrupts action).2.2.commit (engine.acting interrupts action).2.1).1] := by
  have checked : interrupts.check = (interrupts.state, interrupts.check.2) := rfl
  have tried : engine.attempt .begin = ((engine.attempt .begin).1, (engine.attempt .begin).2) := rfl
  rw [run, begin, checked, tried]
  cases interrupts.state with
  | error error => rfl
  | ok _ =>
    cases (engine.attempt .begin).1 with
    | error error => rfl
    | ok _ =>
      rcases acted : engine.acting interrupts action with ⟨result, scope, later⟩
      have stepped : (engine.starting interrupts).1.step (engine.starting interrupts).2 action =
          (result, scope, later) := acted
      rw [starting] at stepped
      simp only [stepped]
      cases result with
      | error error => rfl
      | ok value =>
        rcases closed : later.commit scope with ⟨_ | _, final⟩ <;> simp only [closed] <;> rfl

theorem run_reports (engine : Engine) (interrupts : Interrupts) (action : Scoped α) :
    Reports (discard (engine.run interrupts action).1) (engine.steps interrupts action)
      ((engine.acting interrupts action).2.2.attempt .rollback).1 (engine.RunMasks interrupts action) := by
  have reports := (engine.acting interrupts action).2.2.commit_reports (engine.acting interrupts action).2.1
  rw [run_eq]
  change Reports _ (interrupts.state :: (engine.attempt .begin).1 :: discard (engine.acting interrupts action).1 ::
    (engine.acting interrupts action).2.2.closing (engine.acting interrupts action).2.1) _ _
  by_cases reached : interrupts.state = .ok () ∧ (engine.attempt .begin).1 = .ok () ∧
      discard (engine.acting interrupts action).1 = .ok ()
  · obtain ⟨checked, begun, acted⟩ := reached
    rw [checked, begun, acted]
    simp only [firstFailure, firstFailure_singleton]
    exact ⟨fun clear => reports.first fun masks => clear ⟨checked, begun, acted, masks⟩,
      fun masked => reports.rollback masked.masks, fun masked => reports.differs masked.masks,
      fun masked => reports.cancelled masked.masks⟩
  · refine .of_not (fun masked => reached ⟨masked.checked, masked.begun, masked.acted⟩) ?_
    cases checked : interrupts.state with
    | error error => rfl
    | ok _ =>
      cases begun : (engine.attempt .begin).1 with
      | error error => rfl
      | ok _ =>
        cases acted : discard (engine.acting interrupts action).1 with
        | error error => rfl
        | ok _ => exact absurd ⟨checked, begun, acted⟩ reached

/-- A rollback that fails is reported in place of the cancellation that it follows. -/
theorem reports_first_failure_iff (engine : Engine) :
    (∀ scope,
      ((engine.commit scope).1 = firstFailure (engine.closing scope) ↔ ¬ engine.Masks scope) ∧
      (engine.Masks scope → (engine.commit scope).1 = (engine.attempt .rollback).1 ∧
        ∃ error, firstFailure (engine.closing scope) = .error error ∧ error.kind = .cancelled)) ∧
    ∀ interrupts (action : Scoped α),
      (discard (engine.run interrupts action).1 = firstFailure (engine.steps interrupts action) ↔
        ¬ engine.RunMasks interrupts action) ∧
      (engine.RunMasks interrupts action →
        discard (engine.run interrupts action).1 = ((engine.acting interrupts action).2.2.attempt .rollback).1 ∧
          ∃ error, firstFailure (engine.steps interrupts action) = .error error ∧ error.kind = .cancelled) := by
  constructor
  · intro scope
    have reports := engine.commit_reports scope
    exact ⟨reports.eq_iff, fun masked => ⟨reports.rollback masked, reports.cancelled masked⟩⟩
  · intro interrupts action
    have reports := engine.run_reports interrupts action
    exact ⟨reports.eq_iff, fun masked => ⟨reports.rollback masked, reports.cancelled masked⟩⟩

-- The action fails with a conflict that its storage reports, and so does the rollback, with another.
theorem reports_first_failure_iff_missing :
    let engine : Engine :=
      { storage := { store := {} }
        schedule := [⟨.get, 0, .conflict "leader has moved"⟩, ⟨.rollback, 0, .notFound "transaction 3"⟩] }
    (engine.run .never (Scoped.fetch [7])).1 = .error (.conflict "leader has moved") ∧
      discard (engine.run .never (Scoped.fetch [7])).1 = firstFailure (engine.steps .never (Scoped.fetch [7])) := by
  intro engine
  have clear : ¬ engine.RunMasks .never (Scoped.fetch [7]) := by
    intro masked
    cases masked.acted
  exact ⟨rfl, ((reports_first_failure_iff engine).2 _ _).1.2 clear⟩

-- Cancelled while its action runs, over a storage that then fails to roll back: what the caller hears of
-- is an internal error.
theorem run_masks_cancellation :
    let failure : Error := .storage "injected rollback failure"
    let engine : Engine := { storage := { store := {} }, schedule := [⟨.rollback, 0, failure⟩] }
    let interrupts : Interrupts := { cancellation := .after 1 }
    let scope := (engine.starting interrupts).2
    firstFailure (engine.steps interrupts (pure ())) = .error (.cancelled "request cancelled") ∧
      (engine.run interrupts (pure ())).1 = .error failure ∧
      firstFailure (engine.closing scope) = .error (.cancelled "request cancelled") ∧
      (engine.commit scope).1 = .error failure ∧ failure.kind = .internal :=
  ⟨rfl, rfl, rfl, rfl, rfl⟩

end Engine

end FsMeta
