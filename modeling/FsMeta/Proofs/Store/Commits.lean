import FsMeta.Proofs.Store.Contents

set_option autoImplicit false

namespace FsMeta

theorem lt_add_one {clock : UInt64} (forward : clock ≤ clock + 1) : clock < clock + 1 := by
  grind

theorem error_of_map {α β : Type} {result : Except Error α} {f : α → β} {error : Error}
    (failed : result.map f = .error error) : result = .error error := by
  cases result with
  | ok _ => cases failed
  | error _ => cases failed; rfl

namespace Journal.Log

theorem syncIfDue_error_kind {log : Log} {error : Error} (failed : log.syncIfDue.1 = .error error) :
    error.kind ≠ .conflict := by
  simp only [syncIfDue, sync] at failed
  split at failed
  · split at failed
    · cases failed; simp [Error.kind]
    · split at failed
      · cases failed
      · cases failed; simp [Error.kind]
  · cases failed

-- The journal has troubles of its own, but conflicts are not among them.
theorem append_error_kind {log : Log} {commitTime : UInt64} {operations : List Operation}
    {error : Error} (failed : (log.append commitTime operations).1 = .error error) :
    error.kind ≠ .conflict := by
  simp only [append] at failed
  split at failed
  · cases failed; simp [stopped, Error.kind]
  · split at failed
    · rename_i refused
      simp only [Entry.frame] at refused
      split at refused
      · cases refused; cases failed; simp [Error.kind]
      · cases refused
    · simp only [appendFrame] at failed
      split at failed
      · cases failed; simp [Error.kind]
      · exact syncIfDue_error_kind (error_of_map failed)

end Journal.Log

namespace Store

open Version

def journalLength (store : Store) : Nat :=
  (store.journal.map fun log => log.medium.file.length).getD 0

def logged (store : Store) (tx : Transaction) : Except Error Unit × Store :=
  { store with clock := store.clock + 1 }.log (store.clock + 1) (tx.writes.entries.map operation)

theorem log_frame (store : Store) (commitTime : UInt64) (operations : List Journal.Operation) :
    (store.log commitTime operations).2 =
      { store with journal := (store.log commitTime operations).2.journal } := by
  simp only [log]
  cases store.journal <;> rfl

theorem log_error_kind {store : Store} {commitTime : UInt64} {operations : List Journal.Operation}
    {error : Error} (failed : (store.log commitTime operations).1 = .error error) :
    error.kind ≠ .conflict := by
  simp only [log] at failed
  split at failed
  · cases failed
  · exact Journal.Log.append_error_kind (error_of_map failed)

theorem overtaken?_eq_none_iff (store : Store) (tx : Transaction) :
    store.overtaken? tx = none ↔
      ∀ key value, tx.writes.find? key = some value →
        overtakes tx.snapshot (store.versions key) = false := by
  simp only [overtaken?, List.findSome?_eq_none_iff, Prod.forall, Table.mem_entries_iff]
  refine forall_congr' fun key => forall_congr' fun value => imp_congr_right fun _ => ?_
  rw [versions, overtakes]
  cases store.history.find? key with
  | none => simp
  | some versions => cases versions <;> simp

theorem apply_cases (store : Store) (tx : Transaction) :
    (∃ key time, store.overtaken? tx = some (key, time) ∧
      store.apply tx = (.error (overtaken key time tx.snapshot), store)) ∨
    (store.overtaken? tx = none ∧ ∃ error, (store.logged tx).1 = .error error ∧
      store.apply tx = (.error error, (store.logged tx).2)) ∨
    (store.overtaken? tx = none ∧ (store.logged tx).1 = .ok () ∧
      store.apply tx = (.ok (), (store.logged tx).2.record
        (store.horizon tx.snapshot (store.clock + 1)) (store.clock + 1) tx.writes.entries)) := by
  cases conflict : store.overtaken? tx with
  | some found => exact .inl ⟨found.1, found.2, rfl, by simp only [apply, conflict]⟩
  | none =>
    right
    cases result : (store.logged tx).1 with
    | error error =>
      have ended : store.logged tx = (.error error, (store.logged tx).2) := Prod.ext result rfl
      refine .inl ⟨rfl, error, rfl, ?_⟩
      rw [logged] at ended
      rw [apply, conflict, logged]
      simp only
      rw [ended]
    | ok _ =>
      have ended : store.logged tx = (.ok (), (store.logged tx).2) := Prod.ext result rfl
      refine .inr ⟨rfl, rfl, ?_⟩
      rw [logged] at ended
      rw [apply, conflict, logged]
      simp only
      rw [ended]
      simp only [horizon]
      rw [log_frame]

theorem logged_frame (store : Store) (tx : Transaction) :
    (store.logged tx).2 =
      { store with clock := store.clock + 1, journal := (store.logged tx).2.journal } :=
  log_frame _ _ _

/-- The last timestamp that may be handed out without another entry in the journal. -/
def mark (store : Store) : UInt64 :=
  UInt64.ofNat (min ((store.clock + 1).toNat + timestampWindow) (UInt64.size - 1))

def marked (store : Store) : Except Error Unit × Store :=
  { store with clock := store.clock + 1 }.log store.mark []

theorem timestamp_cases (store : Store) :
    ((store.journal = none ∨ store.clock + 1 ≤ store.reserved) ∧
      store.timestamp = (.ok (store.clock + 1), { store with clock := store.clock + 1 })) ∨
    (store.reserved < store.clock + 1 ∧ store.marked.1 = .ok () ∧
      store.timestamp = (.ok (store.clock + 1), { store.marked.2 with reserved := store.mark })) ∨
    (store.reserved < store.clock + 1 ∧ ∃ error, store.marked.1 = .error error ∧
      store.timestamp = (.error error, store.marked.2)) := by
  by_cases within : (store.journal.isNone || store.clock + 1 ≤ store.reserved) = true
  · left
    refine ⟨by simpa using within, ?_⟩
    simp only [timestamp, within, if_true]
  · right
    have beyond : store.reserved < store.clock + 1 := by
      simp only [Bool.or_eq_true, decide_eq_true_eq, not_or] at within
      exact UInt64.not_le.1 within.2
    cases result : store.marked.1 with
    | ok _ =>
      have ended : store.marked = (.ok (), store.marked.2) := Prod.ext result rfl
      refine .inl ⟨beyond, rfl, ?_⟩
      rw [marked, mark] at ended
      simp only [timestamp, within]
      rw [ended]
      rfl
    | error error =>
      have ended : store.marked = (.error error, store.marked.2) := Prod.ext result rfl
      refine .inr ⟨beyond, error, rfl, ?_⟩
      rw [marked, mark] at ended
      simp only [timestamp, within]
      rw [ended]
      rfl

theorem marked_frame (store : Store) :
    store.marked.2 = { store with clock := store.clock + 1, journal := store.marked.2.journal } :=
  log_frame _ _ _

theorem clock_timestamp (store : Store) : store.timestamp.2.clock = store.clock + 1 := by
  rcases timestamp_cases store with ⟨_, ended⟩ | ⟨_, _, ended⟩ | ⟨_, _, _, ended⟩
  · rw [ended]
  all_goals rw [ended, marked_frame]

theorem timestamp_frame (store : Store) :
    store.timestamp.2.history = store.history ∧ store.timestamp.2.active = store.active := by
  rcases timestamp_cases store with ⟨_, ended⟩ | ⟨_, _, ended⟩ | ⟨_, _, _, ended⟩
  · rw [ended]
    exact ⟨rfl, rfl⟩
  all_goals
    rw [ended, marked_frame]
    exact ⟨rfl, rfl⟩

end Store

namespace Transaction

def published (tx : Transaction) (store : Store) : List Writes :=
  match (tx.commit store).1 with
  | .ok () => [tx.writes]
  | .error _ => []

theorem finish_of_open {tx : Transaction} (unfinished : tx.finished = false) (store : Store) :
    tx.finish store =
      ({ tx with writes := .empty, finished := true }, store.release tx.snapshot) := by
  simp [finish, unfinished]

theorem clock_finish (tx : Transaction) (store : Store) : (tx.finish store).2.clock = store.clock := by
  rw [finish]
  split <;> rfl

theorem commit_finished {tx : Transaction} (finished : tx.finished = true) (store : Store) :
    tx.commit store = (.error closed, tx, store) := by
  simp [commit, finished]

theorem commit_cases {tx : Transaction} (unfinished : tx.finished = false) (store : Store) :
    let settled : Transaction := { tx with writes := .empty, finished := true }
    (tx.writes.entries.isEmpty ∧ tx.commit store = (.ok (), settled, store.release tx.snapshot)) ∨
    (∃ key time, store.overtaken? tx = some (key, time) ∧
      tx.commit store =
        (.error (Store.overtaken key time tx.snapshot), settled, store.release tx.snapshot)) ∨
    (store.overtaken? tx = none ∧ ∃ error, (store.logged tx).1 = .error error ∧
      tx.commit store = (.error error, settled, (store.logged tx).2.release tx.snapshot)) ∨
    (store.overtaken? tx = none ∧ tx.writes.entries.isEmpty = false ∧
      (store.logged tx).1 = .ok () ∧
      tx.commit store = (.ok (), settled,
        ((store.logged tx).2.record (store.horizon tx.snapshot (store.clock + 1))
          (store.clock + 1) tx.writes.entries).release tx.snapshot)) := by
  cases bare : tx.writes.entries.isEmpty with
  | true => exact .inl ⟨rfl, by simp [commit, unfinished, bare, finish_of_open]⟩
  | false =>
    have ended : tx.commit store = ((store.apply tx).1, tx.finish (store.apply tx).2) := by
      simp [commit, unfinished, bare]
    rw [finish_of_open unfinished] at ended
    right
    rcases Store.apply_cases store tx with
      ⟨key, time, found, applied⟩ | ⟨found, error, failed, applied⟩ | ⟨found, stored, applied⟩
    · exact .inl ⟨key, time, found, by rw [ended, applied]⟩
    · exact .inr (.inl ⟨found, error, failed, by rw [ended, applied]⟩)
    · exact .inr (.inr ⟨found, rfl, stored, by rw [ended, applied]⟩)

theorem commit_tx {tx : Transaction} (unfinished : tx.finished = false) (store : Store) :
    (tx.commit store).2.1 = { tx with writes := .empty, finished := true } := by
  rcases commit_cases unfinished store with
    ⟨_, ended⟩ | ⟨_, _, _, ended⟩ | ⟨_, _, _, ended⟩ | ⟨_, _, _, ended⟩
  all_goals rw [ended]

theorem commit_tx_finished {tx : Transaction} (unfinished : tx.finished = false) (store : Store) :
    (tx.commit store).2.1.finished = true := by
  rw [commit_tx unfinished]

theorem clock_commit (tx : Transaction) (store : Store) :
    (tx.commit store).2.2.clock = store.clock ∨ (tx.commit store).2.2.clock = store.clock + 1 := by
  cases unfinished : tx.finished with
  | true =>
    rw [commit_finished unfinished]
    exact .inl rfl
  | false =>
    have moved : (store.logged tx).2.clock = store.clock + 1 := by rw [Store.logged_frame]
    rcases commit_cases unfinished store with
      ⟨_, ended⟩ | ⟨_, _, _, ended⟩ | ⟨_, _, _, ended⟩ | ⟨_, _, _, ended⟩
    · exact .inl (by rw [ended]; rfl)
    · exact .inl (by rw [ended]; rfl)
    · exact .inr (by rw [ended]; exact moved)
    · exact .inr (by rw [ended]; exact moved)

theorem clear_of_commit {tx : Transaction} (unfinished : tx.finished = false) {store : Store}
    (committed : (tx.commit store).1 = .ok ()) : store.overtaken? tx = none := by
  rcases commit_cases unfinished store with
    ⟨bare, _⟩ | ⟨_, _, _, ended⟩ | ⟨found, _⟩ | ⟨found, _⟩
  · simp [Store.overtaken?_eq_none_iff, Table.find?_eq_none_of_isEmpty bare]
  · rw [ended] at committed
    cases committed
  · exact found
  · exact found

theorem commit_conflict_iff {tx : Transaction} (unfinished : tx.finished = false) (store : Store) :
    (∃ error, (tx.commit store).1 = .error error ∧ error.kind = .conflict) ↔
      store.overtaken? tx ≠ none := by
  rcases commit_cases unfinished store with
    ⟨bare, ended⟩ | ⟨key, time, found, ended⟩ | ⟨found, error, failed, ended⟩ | ⟨found, _, _, ended⟩
  · have clear : store.overtaken? tx = none := by
      simp [Store.overtaken?_eq_none_iff, Table.find?_eq_none_of_isEmpty bare]
    simp [ended, clear]
  · simp [ended, found, Store.overtaken, Error.kind]
  · have kind : error.kind ≠ .conflict := Store.log_error_kind failed
    simp [ended, found, kind]
  · simp [ended, found]

theorem commit_of_isEmpty {tx : Transaction} (unfinished : tx.finished = false)
    (bare : tx.writes.entries.isEmpty) (store : Store) : (tx.commit store).1 = .ok () := by
  simp [commit, unfinished, bare]

theorem commit_of_logged {tx : Transaction} (unfinished : tx.finished = false) {store : Store}
    (clear : store.overtaken? tx = none) (logged : (store.logged tx).1 = .ok ()) :
    (tx.commit store).1 = .ok () := by
  rcases commit_cases unfinished store with
    ⟨_, ended⟩ | ⟨key, time, found, _⟩ | ⟨_, error, failed, _⟩ | ⟨_, _, _, ended⟩
  · rw [ended]
  · rw [clear] at found
    cases found
  · rw [logged] at failed
    cases failed
  · rw [ended]

theorem conflict_keeps {tx : Transaction} (unfinished : tx.finished = false) {store : Store}
    (conflict : ∃ error, (tx.commit store).1 = .error error ∧ error.kind = .conflict) :
    (∀ time, (tx.commit store).2.2.readAt time = store.readAt time) ∧
      (tx.commit store).2.2.committed = store.committed := by
  have late := (commit_conflict_iff unfinished store).1 conflict
  obtain ⟨failure, failed, kind⟩ := conflict
  rcases commit_cases unfinished store with
    ⟨_, ended⟩ | ⟨key, time, _, ended⟩ | ⟨clear, _⟩ | ⟨clear, _⟩
  · rw [ended] at failed
    cases failed
  · rw [ended]
    exact ⟨fun _ => rfl, rfl⟩
  · exact absurd clear late
  · exact absurd clear late

end Transaction

end FsMeta
