import FsMeta.Proofs.Refusing
import FsMeta.Proofs.Yielding

set_option autoImplicit false

namespace FsMeta

def Scope.Disturbed (scope : Scope) (error : Error) : Prop :=
  error.kind = .cancelled ∨ error ∈ scope.schedule.errors

abbrev Lister := Bytes → Option Bytes → Except Error (List (Bytes × Bytes))

/-- Every range is listed. What lies behind its stop may be listed too. -/
def Lister.Sound (lister : Lister) (seen : Contents) : Prop :=
  ∀ start stop, ∃ listed, lister start stop = .ok listed ∧ Listing seen start stop listed

def Storage.lister (storage : Storage) (tx : Transaction) : Lister :=
  fun start stop => tx.iterate storage.store start (if storage.loose then none else stop)

theorem Storage.lister_sound (storage : Storage) {tx : Transaction} (unfinished : tx.finished = false) :
    (storage.lister tx).Sound (tx.reads storage.store) :=
  fun start stop => tx.iterate_listing unfinished storage.store start stop storage.loose

namespace Scoped

variable {α β : Type} {storage : Storage} {scope : Scope} {seen : Contents} {lister : Lister} {scanned : Bytes}

def scanBy (lister : Lister) (scanned : Bytes) : Scoped (List (Bytes × Bytes)) := do
  check
  attempt .iterate
  gather scanned (← lister scanned (Bytes.above? scanned))

-- Neither the check nor the attempt changes the transaction that is listed.
theorem run_scan_eq_scanBy (storage : Storage) (scope : Scope) (scanned : Bytes) :
    (scan scanned).run storage scope = (scanBy (storage.lister scope.tx) scanned).run storage scope := by
  rcases checked : check.run storage scope with ⟨error | _, between⟩
  · rw [scan, scanBy, run_bind_error checked, run_bind_error checked]
  · rw [scan, scanBy, run_bind_ok checked, run_bind_ok checked]
    have same : between.tx = scope.tx := by simpa [checked] using Reads.check.stays storage scope
    rcases attempted : (attempt .iterate).run storage between with ⟨error | _, later⟩
    · rw [run_bind_error attempted, run_bind_error attempted]
    · rw [run_bind_ok attempted, run_bind_ok attempted]
      have kept : later.tx = scope.tx := by simpa [attempted, same] using (Reads.attempt .iterate).stays storage between
      rw [← kept]
      rfl

structure Unfailing (action : Scoped α) : Prop where
  reads : Reads action
  stops : ∀ storage scope error, (action.run storage scope).1 = .error error → scope.Disturbed error

namespace Unfailing

theorem pure (value : α) : Unfailing (Pure.pure value) where
  reads := .pure value
  stops := by
    rintro _ _ _ ⟨⟩

theorem lift {outcome : Except Error α} (succeeds : ∃ value, outcome = .ok value) : Unfailing (liftM outcome) where
  reads := .lift outcome
  stops := by
    obtain ⟨value, rfl⟩ := succeeds
    rintro _ _ _ ⟨⟩

theorem check : Unfailing Scoped.check where
  reads := .check
  stops _ _ _ fired := .inl (Interrupts.kind_of_state fired)

theorem attempt (call : Call) : Unfailing (Scoped.attempt call) where
  reads := .attempt call
  stops := by
    intro _ scope error failed
    rcases scope.schedule.attempt_cases call with passed | ⟨fault, scheduled, given⟩
    · cases passed.symm.trans failed
    · cases given.symm.trans failed
      exact .inr scheduled

theorem bind {action : Scoped α} {next : α → Scoped β} (unfailing : Unfailing action)
    (continues : ∀ value, Unfailing (next value)) : Unfailing (action >>= next) where
  reads := .bind unfailing.reads fun value => (continues value).reads
  stops := by
    intro storage scope error failed
    have spends := unfailing.reads.spends storage scope
    rw [Spends] at spends
    rcases ran : action.run storage scope with ⟨refused | value, between⟩ <;> rw [ran] at spends
    · rw [run_bind_error ran] at failed
      cases failed
      exact unfailing.stops storage scope error (by rw [ran])
    · rw [run_bind_ok ran] at failed
      exact ((continues value).stops storage between error failed).imp id fun scheduled => spends scheduled

theorem gather (scanned : Bytes) (listed : List (Bytes × Bytes)) : Unfailing (Scoped.gather scanned listed) := by
  induction listed with
  | nil => exact pure _
  | cons pair rest ih =>
    refine bind check fun _ => ?_
    split
    · exact bind (attempt _) fun _ => bind ih fun _ => pure _
    · exact pure _

theorem scanBy (sound : lister.Sound seen) (scanned : Bytes) : Unfailing (Scoped.scanBy lister scanned) := by
  obtain ⟨listed, same, _⟩ := sound scanned scanned.above?
  exact bind check fun _ => bind (attempt _) fun _ => bind (lift ⟨listed, same⟩) fun _ => gather _ _

end Unfailing

theorem Ensures.scanBy {base : Contents} {writes : Writes} (sound : lister.Sound seen) :
    Ensures base (Scoped.scanBy lister scanned) writes fun pairs _ => Gathers seen scanned pairs := by
  obtain ⟨listed, same, listing⟩ := sound scanned scanned.above?
  refine bind (check (bind (attempt (bind (lift fun _ given => ?_)))))
  cases given.symm.trans same
  exact gather listing.gathers

theorem Yields.scanBy {base : Contents} {writes : Writes} (sound : lister.Sound seen) :
    Yields base (Scoped.scanBy lister scanned) writes fun result later =>
      (∃ pairs, result = .ok pairs) ∧ later = writes := by
  obtain ⟨listed, same, _⟩ := sound scanned scanned.above?
  refine bind (check (bind (attempt (require (fun _ refused => ?_) fun _ _ => gather ⟨⟨_, rfl⟩, rfl⟩))))
  cases refused.symm.trans same

structure Answers (storage : Storage) (scope : Scope) (action : Scoped (List (Bytes × Bytes))) (seen : Contents)
    (scanned : Bytes) : Prop where
  gathers : ∀ pairs, (action.run storage scope).1 = .ok pairs → Gathers seen scanned pairs
  unfailing : ∀ error, (action.run storage scope).1 = .error error → scope.Disturbed error
  answered : Calm scope → ∃ pairs, action.run storage scope = (.ok pairs, scope)

theorem scanBy_answers (unfinished : scope.tx.finished = false) (sound : lister.Sound seen) (scanned : Bytes) :
    Answers storage scope (scanBy lister scanned) seen scanned := by
  have opens : Opens storage scope (storage.store.readAt scope.tx.snapshot) scope.tx.writes := ⟨rfl, rfl, unfinished⟩
  constructor
  · obtain ⟨_, _, holds⟩ := Ensures.scanBy sound storage scope opens
    exact holds
  · exact (Unfailing.scanBy sound scanned).stops storage scope
  · intro calm
    obtain ⟨_, stays, ⟨pairs, answered⟩, rfl⟩ := Yields.scanBy sound storage scope opens calm
    exact ⟨pairs, Prod.ext answered stays⟩

theorem scans_exactly (storage : Storage) (scope : Scope) (unfinished : scope.tx.finished = false)
    (scanned : Bytes) :
    (∀ key, scanned ≤ key →
      ((∀ stop, scanned.above? = some stop → key < stop) ↔ scanned.isPrefixOf key = true)) ∧
    Answers storage scope (scan scanned) (scope.tx.reads storage.store) scanned ∧
    ∀ seen (lister : Lister), lister.Sound seen →
      Answers storage scope (scanBy lister scanned) seen scanned := by
  refine ⟨fun key reached => Bytes.lt_above?_iff reached, ?_, fun _ _ sound => scanBy_answers unfinished sound scanned⟩
  have answers : Answers storage scope (scanBy (storage.lister scope.tx) scanned)
      (scope.tx.reads storage.store) scanned :=
    scanBy_answers unfinished (storage.lister_sound unfinished) scanned
  have same := run_scan_eq_scanBy storage scope scanned
  exact ⟨same ▸ answers.gathers, same ▸ answers.unfailing, same ▸ answers.answered⟩

-- There is no bound above this prefix. One key under it was deleted, and one was written.
def brim : Storage :=
  { store := .ofEntries [⟨1, 1, 0, [.put [0xff] [1], .put [0xff, 0xff] [2], .put [0xff, 0xff, 0] [3]]⟩]
    loose := true }

def brimming : Scope :=
  { tx := { snapshot := 1, writes := (Table.empty.insert [0xff, 0xff, 7] (some [4])).insert [0xff, 0xff, 0] none }
    interrupts := .never }

theorem scans_exactly_brim : brimming.tx.finished = false ∧ Bytes.above? [0xff, 0xff] = none ∧
    Gathers (brimming.tx.reads brim.store) [0xff, 0xff] [([0xff, 0xff], [2]), ([0xff, 0xff, 7], [4])] := by
  obtain ⟨_, answers, _⟩ := scans_exactly brim brimming rfl [0xff, 0xff]
  exact ⟨rfl, by decide, answers.gathers _ (by decide)⟩

end Scoped

end FsMeta
