import FsMeta.Proofs.Journal.Failing
import FsMeta.Proofs.Store.Commits

set_option autoImplicit false

namespace FsMeta

open Journal

theorem Store.logged_of_journal {store : Store} {log : Log} (kept : store.journal = some log)
    (tx : Transaction) :
    let appended := log.append (store.clock + 1) (tx.writes.entries.map operation)
    store.logged tx =
      (discard appended.1, { store with clock := store.clock + 1, journal := some appended.2 }) := by
  rw [logged, Store.log]
  simp only [kept]

namespace Journal.Log

/-- A call that fails is recovered only if its frame was written whole and the sync failed, or if the file could not
be opened for the cut and the rest of the frame was written later. -/
theorem failed_append_leaves {first : File} {log : Log} (reached : log.Reached first)
    (left : log.nextLsn ≠ 0) :
    (∀ commitTime operations error, (log.append commitTime operations).1 = .error error →
      let later := (log.append commitTime operations).2
      (¬ log.Stores commitTime operations →
        later.medium.file = log.medium.file ∨ later.Refuses) ∧
      (first.Clean → ∃ entries, log.medium.file.entries = .ok entries ∧
        log.Aftermath entries commitTime operations error later)) ∧
    (first.Clean → ∀ (store : Store) (tx : Transaction) (error : Error), store.journal = some log →
      (tx.commit store).1 = .error error →
      let commitTime := store.clock + 1
      let operations := tx.writes.entries.map Store.operation
      (tx.commit store).2.2.history = store.history ∧
      ∃ later, (tx.commit store).2.2.journal = some later ∧
      ∃ entries, log.medium.file.entries = .ok entries ∧
        (later = log ∧ later.Settles entries ∨ log.Aftermath entries commitTime operations error later)) := by
  constructor
  · intro commitTime operations error failed
    constructor
    · intro unstored
      obtain ⟨_, kept⟩ := reached.level.append commitTime operations
      exact (kept unstored).imp id refuses_of_broken
    · intro clean
      obtain ⟨frames, keeps⟩ := reached.exists_keeps clean
      exact ⟨_, keeps.entries, keeps.append_failed left failed⟩
  · intro clean store tx error journal failed
    obtain ⟨frames, keeps⟩ := reached.exists_keeps clean
    cases unfinished : tx.finished with
    | true =>
      rw [Transaction.commit_finished unfinished]
      exact ⟨rfl, log, journal, _, keeps.entries, .inl ⟨rfl, keeps.settles⟩⟩
    | false =>
      rcases Transaction.commit_cases unfinished store with
        ⟨_, ended⟩ | ⟨_, _, _, ended⟩ | ⟨_, _, refused, ended⟩ | ⟨_, _, _, ended⟩
      · rw [ended] at failed
        cases failed
      · rw [ended]
        exact ⟨rfl, log, journal, _, keeps.entries, .inl ⟨rfl, keeps.settles⟩⟩
      · rw [ended] at failed ⊢
        cases failed
        rw [Store.logged_of_journal journal] at refused ⊢
        exact ⟨rfl, _, rfl, _, keeps.entries, .inr (keeps.append_failed left (error_of_map refused))⟩
      · rw [ended] at failed
        cases failed

def one : Entry := ⟨1, 1, 0, [.put [1] [10]]⟩

-- A log behind one entry. Ten bytes of the next frame fit.
def cramped (refusals : Refusals) : Log :=
  ofMedium .everyWrite { file := .regular one.image, limit := some 80, refusals }

-- These bytes cannot be cut off, and then the file cannot even be opened for that.
theorem failed_append_leaves_torn :
    let uncut := cramped { cut := some .invalidArgument }
    let unopened := cramped { clone := some (.other "Too many open files (os error 24)") }
    let failed := unopened.entry 2 [.put [2] [20]]
    (uncut.nextLsn ≠ 0 ∧ (uncut.append 2 [.put [2] [20]]).1 = .error (.io .tooLarge) ∧
      (uncut.append 2 [.put [2] [20]]).2.Continues [one]) ∧
    (unopened.append 2 [.put [2] [20]]).1 = .error (.io .tooLarge) ∧
      (unopened.append 2 [.put [2] [20]]).2.Suspends [one] failed := by
  intro uncut unopened failed
  have clean : (File.regular one.image).Clean :=
    ⟨.regular one.image, [one], ⟨1, 0, 1, false⟩, by decide +kernel⟩
  have found : (File.regular one.image).entries = .ok [one] := by decide +kernel
  have unstored {log : Log} (full : (log.medium.append (log.entry 2 [.put [2] [20]]).image).2 = some .tooLarge) :
      ¬ log.Stores 2 [.put [2] [20]] := by
    rintro ⟨_, bytes, framed, written⟩
    rw [((Entry.frame_eq_ok_iff _ bytes).1 framed).2, full] at written
    cases written
  have left : uncut.nextLsn ≠ 0 := by decide +kernel
  have refused : (uncut.append 2 [.put [2] [20]]).1 = .error (.io .tooLarge) := by decide +kernel
  have stopped : (unopened.append 2 [.put [2] [20]]).1 = .error (.io .tooLarge) := by decide +kernel
  obtain ⟨calls, _⟩ := failed_append_leaves (.opened .everyWrite rfl : uncut.Reached (.regular one.image)) left
  obtain ⟨_, recovered, aftermath⟩ := (calls 2 [.put [2] [20]] _ refused).2 clean
  obtain ⟨calls, _⟩ := failed_append_leaves (.opened .everyWrite rfl : unopened.Reached (.regular one.image)) left
  obtain ⟨_, again, suspended⟩ := (calls 2 [.put [2] [20]] _ stopped).2 clean
  cases recovered.symm.trans found
  cases again.symm.trans found
  refine ⟨⟨left, refused, ?_⟩, stopped, ?_⟩
  · exact (aftermath.settles (unstored (by decide +kernel))).continues (by decide +kernel)
  · exact (suspended.suspends (unstored (by decide +kernel)) rfl (by decide +kernel)).2

-- The sync fails: the entry is recovered although its call failed. Then the write fails and the file cannot be
-- opened for the cut: the entry is recovered once the log has been closed.
theorem failed_append_found :
    let fault : IoFault := .other "Input/output error (os error 5)"
    let log := ofMedium .everyWrite { file := .regular [], refusals := { sync := some fault } }
    let unsynced := log.append 1 [.put [1] [10]]
    let full := ofMedium .everyWrite { file := .regular [], limit := some 10, refusals := { clone := some fault } }
    let stopped := full.append 1 [.put [1] [10]]
    (log.medium.file.entries = .ok [] ∧ unsynced.1 = .error (.io fault) ∧
      unsynced.2.medium.file.entries = .ok [one]) ∧
    full.medium.file.entries = .ok [] ∧ stopped.1 = .error (.io .tooLarge) ∧
      stopped.2.medium.file.entries = .ok [] ∧ (stopped.2.onto none {}).close.file.entries = .ok [one] := by
  decide +kernel

end Journal.Log

end FsMeta
