import FsMeta.Proofs.Service.Confined
import FsMeta.Proofs.Yielding

set_option autoImplicit false

namespace FsMeta

namespace Scoped

variable {α β : Type} {one two : Contents}

structure Undisturbed (storage : Storage) (scope : Scope) (base : Contents) : Prop where
  opens : Opens storage scope base .empty
  interrupts : scope.interrupts = .never
  schedule : scope.schedule = []

def Indifferent (one two : Contents) (action : Scoped α) : Prop :=
  ∀ storage scope other scope', Undisturbed storage scope one → Undisturbed other scope' two →
    ∃ result, action.run storage scope = (result, scope) ∧ action.run other scope' = (result, scope')

namespace Undisturbed

variable {storage : Storage} {scope : Scope} {base : Contents} (undisturbed : Undisturbed storage scope base)
include undisturbed

theorem calm : Calm scope := ⟨undisturbed.interrupts, undisturbed.schedule⟩

theorem run_yields {action : Scoped α} {post : Except Error α → Prop}
    (yields : Yields base action .empty fun result later => post result ∧ later = .empty) :
    ∃ result, action.run storage scope = (result, scope) ∧ post result :=
  yields.exists_run undisturbed.opens undisturbed.calm

theorem run_fetch (key : Bytes) : (Scoped.fetch key).run storage scope = (.ok (base key), scope) := by
  rw [undisturbed.opens.run_fetch undisturbed.calm, Contents.write_empty]

theorem run_scan (scanned : Bytes) : ∃ pairs, (Scoped.scan scanned).run storage scope = (.ok pairs, scope) ∧
    Gathers base scanned pairs := by
  have ran := undisturbed.opens.run_scan undisturbed.calm scanned
  rwa [Contents.write_empty] at ran

theorem run_find? [Record α] {key : Key} {value : α} (held : base.Holds key value) :
    (Scoped.find? α key.bytes).run storage scope = (.ok (some value), scope) := by
  obtain ⟨bytes, stored, decoded⟩ := held
  rw [undisturbed.opens.run_find? undisturbed.calm, Contents.write_empty, stored, Option.elim_some, decoded]
  rfl

end Undisturbed

namespace Indifferent

theorem pure (value : α) : Indifferent one two (Pure.pure value) :=
  fun _ _ _ _ _ _ => ⟨.ok value, rfl, rfl⟩

theorem throw (error : Error) : Indifferent one two (throw error : Scoped α) :=
  fun _ _ _ _ _ _ => ⟨.error error, rfl, rfl⟩

theorem lift (outcome : Except Error α) : Indifferent one two (liftM outcome : Scoped α) :=
  fun _ _ _ _ _ _ => ⟨outcome, rfl, rfl⟩

theorem bind {action : Scoped α} {next : α → Scoped β} {post : α → Writes → Prop}
    (indifferent : Indifferent one two action) (ensures : Ensures one action .empty post)
    (continues : ∀ value written, post value written → Indifferent one two (next value)) :
    Indifferent one two (action >>= next) := by
  intro storage scope other scope' here there
  obtain ⟨result, ran, also⟩ := indifferent storage scope other scope' here there
  cases result with
  | error error => exact ⟨.error error, run_bind_error ran, run_bind_error also⟩
  | ok value =>
    obtain ⟨written, _, holds⟩ := ensures storage scope here.opens
    rw [run_bind_ok ran, run_bind_ok also]
    exact continues value written (holds value (congrArg Prod.fst ran)) storage scope other scope' here there

theorem require {outcome : Except Error α} {next : α → Scoped β}
    (continues : ∀ value, Indifferent one two (next value)) :
    Indifferent one two (liftM outcome >>= next) :=
  bind (lift outcome) (.lift fun _ _ => trivial) fun value _ (_ : True) => continues value

theorem fetch {key : Bytes} (same : one key = two key) : Indifferent one two (Scoped.fetch key) := by
  intro storage scope other scope' here there
  refine ⟨.ok (one key), here.run_fetch key, ?_⟩
  rw [same]
  exact there.run_fetch key

theorem find? (α : Type) [Record α] {key : Bytes} (same : one key = two key) :
    Indifferent one two (Scoped.find? α key) := by
  refine bind (fetch same) (.fetch trivial) fun value _ (_ : True) => ?_
  cases value with
  | none => exact pure _
  | some bytes =>
    dsimp only
    rw [map_eq_pure_bind]
    exact require fun _ => pure _

theorem find [Record α] {key : Key} {value : α} (held : one.Holds key value) (also : two.Holds key value) :
    Indifferent one two (Scoped.find α key.bytes) := by
  intro storage scope other scope' here there
  exact ⟨.ok value, run_bind_ok (here.run_find? held), run_bind_ok (there.run_find? also)⟩

theorem scan {scanned : Bytes} (same : ∀ key, scanned.isPrefixOf key = true → one key = two key) :
    Indifferent one two (Scoped.scan scanned) := by
  intro storage scope other scope' here there
  obtain ⟨pairs, ran, ascending, members⟩ := here.run_scan scanned
  obtain ⟨again, also, ascends, listed⟩ := there.run_scan scanned
  have equal : again = pairs := by
    refine Table.eq_of_ascending ascends ascending fun ⟨key, value⟩ => ?_
    rw [listed, members]
    exact and_congr_left fun begins => by rw [same key begins]
  rw [equal] at also
  exact ⟨.ok pairs, ran, also⟩

theorem mapM {step : α → Scoped β} {elements : List α} (only : ∀ element, Only Anything (step element))
    (same : ∀ element ∈ elements, Indifferent one two (step element)) :
    Indifferent one two (elements.mapM step) := by
  induction elements with
  | nil => exact pure _
  | cons element rest ih =>
    obtain ⟨first, others⟩ := List.forall_mem_cons.1 same
    rw [List.mapM_cons]
    refine bind first ((only element).confined one .empty) fun _ _ _ => ?_
    exact bind (ih others) ((Only.mapM rest only).confined one .empty) fun _ _ _ => pure _

end Indifferent

end Scoped

namespace Engine

def calm (engine : Engine) : Engine := engine.withSchedule []

def begun (engine : Engine) : Engine := engine.calm.withStore (Transaction.begin engine.storage.store).2

def opening (engine : Engine) : Scope := { tx := (Transaction.begin engine.storage.store).1, interrupts := .never }

variable {α : Type} {engine other : Engine} {action : Scoped α}

theorem undisturbed_begun (engine : Engine) :
    Scoped.Undisturbed engine.begun.storage engine.opening engine.storage.store.committed :=
  ⟨⟨rfl, rfl, rfl⟩, rfl, rfl⟩

theorem run_calm {result : Except Error α}
    (ran : action.run engine.begun.storage engine.opening = (result, engine.opening)) :
    (engine.calm.run .never action).1 = result := by
  have started : engine.calm.begin .never = (.ok engine.opening, engine.begun) := rfl
  have stepped : engine.begun.step engine.opening action = (result, engine.opening, engine.begun) := by
    have same : engine.begun.step engine.opening action = ((action.run engine.begun.storage engine.opening).1,
      (action.run engine.begun.storage engine.opening).2,
      engine.begun.withSchedule (action.run engine.begun.storage engine.opening).2.schedule) := rfl
    rw [same, ran]
    rfl
  have accepted : (engine.opening.tx.commit engine.begun.storage.store).1 = .ok () :=
    Transaction.commit_of_isEmpty rfl rfl _
  have committed : (engine.begun.commit engine.opening).1 = .ok () := accepted
  cases result with
  | error error => simp only [run, started, stepped]
  | ok value =>
    simp only [run, started, stepped, committed]
    rfl

theorem run_same
    (indifferent : Scoped.Indifferent engine.storage.store.committed other.storage.store.committed action) :
    (engine.calm.run .never action).1 = (other.calm.run .never action).1 := by
  obtain ⟨result, ran, also⟩ := indifferent _ _ _ _ (undisturbed_begun engine) (undisturbed_begun other)
  rw [run_calm ran, run_calm also]

theorem run_calm_yields {post : Except Error α → Prop} (yields : Scoped.Yields engine.storage.store.committed action
    .empty fun result later => post result ∧ later = .empty) : post (engine.calm.run .never action).1 := by
  obtain ⟨result, ran, holds⟩ := (undisturbed_begun engine).run_yields yields
  rwa [run_calm ran]

end Engine

end FsMeta
