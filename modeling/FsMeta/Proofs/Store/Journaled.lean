import FsMeta.Proofs.Journal.Writer
import FsMeta.Proofs.Store.Replay

set_option autoImplicit false

namespace FsMeta

theorem Contents.foldl_operate_operation {entries : List (Bytes × Option Bytes)}
    (sorted : Table.Ascending entries) (contents : Contents) (key : Bytes) :
    (entries.map Store.operation).foldl operate contents key =
      (Table.lookup key entries).getD (contents key) := by
  induction entries generalizing contents with
  | nil => rfl
  | cons entry rest ih =>
    obtain ⟨above, sortedRest⟩ := List.pairwise_cons.1 sorted
    obtain ⟨other, value⟩ := entry
    have first : contents.operate (Store.operation (other, value)) key =
        if key = other then value else contents key := by
      cases value <;> rfl
    rw [List.map_cons, List.foldl_cons, ih sortedRest, Table.lookup_cons, first]
    by_cases same : other = key
    · subst same
      have absent : Table.lookup other rest = none := Table.lookup_eq_none above
      simp [absent]
    · simp [same, Ne.symm same]

theorem Contents.operations_eq_write (contents : Contents) (writes : Writes) :
    (writes.entries.map Store.operation).foldl operate contents = contents.write writes :=
  funext fun key => foldl_operate_operation writes.ascending contents key

namespace Store

open Journal

/-- The journal holds these frames. The clock has moved on at least as often as frames were numbered. -/
structure Keeps (store : Store) (frames : List Frame) : Prop where
  log : ∃ log, store.journal = some log ∧ log.Holds frames ∧ log.Reliable
  counted : (topLsn 0 frames).toNat ≤ store.clock.toNat

variable {store : Store} {frames : List Frame}

theorem Keeps.journalLength (keeps : store.Keeps frames) :
    store.journalLength = (joined frames).length := by
  obtain ⟨log, kept, holds, _⟩ := keeps.log
  simp [Store.journalLength, kept, holds.file, File.length]

theorem Keeps.of_journal_eq (keeps : store.Keeps frames) {later : Store}
    (same : later.journal = store.journal) (forward : store.clock ≤ later.clock) :
    later.Keeps frames := by
  refine ⟨same ▸ keeps.log, Nat.le_trans keeps.counted ?_⟩
  exact UInt64.le_iff_toNat_le.1 forward

-- The clock moves on before the journal is written, so there is a number left for the frame.
theorem Keeps.log_cases (keeps : store.Keeps frames) {next : Store}
    (same : next.journal = store.journal) (forward : store.clock < next.clock) (commitTime : UInt64)
    (operations : List Operation) :
    let result := (next.log commitTime operations).1
    let later := (next.log commitTime operations).2
    ((∃ error, result = .error error) ∧ later.Keeps frames) ∨
    ∃ frame, frame.entry.commitTime = commitTime ∧ frame.entry.operations = operations ∧
      result = .ok () ∧ later.Keeps (frames ++ [frame]) := by
  obtain ⟨log, kept, holds, reliable⟩ := keeps.log
  have ahead : store.clock.toNat < next.clock.toNat := UInt64.lt_iff_toNat_lt.1 forward
  have counted := keeps.counted
  have room : (topLsn 0 frames).toNat + 1 < UInt64.size := by
    have bound : next.clock.toNat < UInt64.size := next.clock.toNat_lt
    omega
  have logged : next.log commitTime operations = (discard (log.append commitTime operations).1,
      { next with journal := some (log.append commitTime operations).2 }) := by
    rw [Store.log, same, kept]
  obtain ⟨stays, ⟨⟨error, failed⟩, holds⟩ | ⟨frame, entry, succeeded, later⟩⟩ :=
    holds.append_of_reliable reliable room commitTime operations
  · rw [logged, failed]
    exact .inl ⟨⟨error, rfl⟩, ⟨⟨_, rfl, holds, stays⟩, by simp only; omega⟩⟩
  · have numbered : frame.entry.lsn = topLsn 0 frames + 1 := by
      rw [entry, ← holds.next]
      rfl
    rw [logged, succeeded]
    refine .inr ⟨frame, congrArg Entry.commitTime entry, congrArg Entry.operations entry, rfl,
      ⟨⟨_, rfl, later, stays⟩, ?_⟩⟩
    rw [topLsn_concat, numbered, toNat_add_one room]
    simp only
    omega

/-- A timestamp that is not covered by the journal yet is handed out with a frame that covers it. -/
theorem Keeps.timestamp (keeps : store.Keeps frames)
    (forward : store.clock ≤ store.timestamp.2.clock) :
    let result := store.timestamp.1
    let later := store.timestamp.2
    (later.Keeps frames ∧ later.reserved = store.reserved ∧
      ∀ now, result = .ok now → now = store.clock + 1 ∧ now ≤ store.reserved) ∨
    ∃ frame, frame.entry.commitTime = store.mark ∧ frame.entry.operations = [] ∧
      result = .ok (store.clock + 1) ∧ later.reserved = store.mark ∧
      later.Keeps (frames ++ [frame]) := by
  rw [clock_timestamp] at forward
  let next : Store := { store with clock := store.clock + 1 }
  have same : next.journal = store.journal := rfl
  have ahead : store.clock < next.clock := lt_add_one forward
  have marked : ((∃ error, store.marked.1 = .error error) ∧ store.marked.2.Keeps frames) ∨
      ∃ frame, frame.entry.commitTime = store.mark ∧ frame.entry.operations = [] ∧
        store.marked.1 = .ok () ∧ store.marked.2.Keeps (frames ++ [frame]) :=
    keeps.log_cases same ahead _ _
  rcases timestamp_cases store with ⟨within, ended⟩ | ⟨_, written, ended⟩ | ⟨_, error, refused, ended⟩
  · obtain ⟨log, kept, _⟩ := keeps.log
    have covered : store.clock + 1 ≤ store.reserved := by simpa [kept] using within
    rw [ended]
    refine .inl ⟨keeps.of_journal_eq rfl forward, rfl, fun now handed => ?_⟩
    cases handed
    exact ⟨rfl, covered⟩
  · rcases marked with ⟨⟨_, failed⟩, _⟩ | ⟨frame, time, silent, _, later⟩
    · rw [written] at failed
      cases failed
    · rw [ended]
      exact .inr ⟨frame, time, silent, rfl, rfl, later.of_journal_eq rfl (UInt64.le_refl _)⟩
  · rcases marked with ⟨_, later⟩ | ⟨_, _, _, succeeded, _⟩
    · rw [ended]
      have reserved : store.marked.2.reserved = store.reserved := by rw [marked_frame]
      exact .inl ⟨later, reserved, fun now handed => by cases handed⟩
    · rw [refused] at succeeded
      cases succeeded

theorem Keeps.finish (keeps : store.Keeps frames) (tx : Transaction) :
    (tx.finish store).2.Keeps frames := by
  rw [Transaction.finish]
  split
  · exact keeps
  · exact keeps.of_journal_eq rfl (UInt64.le_refl _)

theorem Keeps.commit (keeps : store.Keeps frames) {tx : Transaction}
    (unfinished : tx.finished = false) (forward : store.clock ≤ (tx.commit store).2.2.clock) :
    let result := (tx.commit store).1
    let later := (tx.commit store).2.2
    (later.Keeps frames ∧ (result = .ok () → tx.writes.entries.isEmpty)) ∨
    ∃ frame, frame.entry.commitTime = later.clock ∧ store.clock < later.clock ∧
      frame.entry.operations = tx.writes.entries.map operation ∧ result = .ok () ∧
      later.Keeps (frames ++ [frame]) := by
  rcases Transaction.commit_cases unfinished store with
    ⟨bare, ended⟩ | ⟨_, _, _, ended⟩ | ⟨_, error, refused, ended⟩ | ⟨_, _, written, ended⟩
  · rw [ended]
    exact .inl ⟨keeps.of_journal_eq rfl (UInt64.le_refl _), fun _ => bare⟩
  · rw [ended]
    exact .inl ⟨keeps.of_journal_eq rfl (UInt64.le_refl _), fun succeeded => by cases succeeded⟩
  -- The other two have asked the journal, and its answer decides which of them it was.
  all_goals
    have moved : (store.logged tx).2.clock = store.clock + 1 := by rw [logged_frame]
    rw [ended] at forward
    change store.clock ≤ (store.logged tx).2.clock at forward
    rw [moved] at forward
    let next : Store := { store with clock := store.clock + 1 }
    have same : next.journal = store.journal := rfl
    have ahead : store.clock < next.clock := lt_add_one forward
    have logged : ((∃ error, (store.logged tx).1 = .error error) ∧ (store.logged tx).2.Keeps frames) ∨
        ∃ frame, frame.entry.commitTime = store.clock + 1 ∧
          frame.entry.operations = tx.writes.entries.map operation ∧
          (store.logged tx).1 = .ok () ∧ (store.logged tx).2.Keeps (frames ++ [frame]) :=
      keeps.log_cases same ahead _ _
    rw [ended]
  · rcases logged with ⟨_, later⟩ | ⟨_, _, _, succeeded, _⟩
    · exact .inl ⟨later.of_journal_eq rfl (UInt64.le_refl _), fun succeeded => by cases succeeded⟩
    · rw [refused] at succeeded
      cases succeeded
  · rcases logged with ⟨⟨_, failed⟩, _⟩ | ⟨frame, time, operations, _, later⟩
    · rw [written] at failed
      cases failed
    · have time : frame.entry.commitTime = (store.logged tx).2.clock := time.trans moved.symm
      have ahead : store.clock < (store.logged tx).2.clock := by
        rw [moved]
        exact ahead
      exact .inr ⟨frame, time, ahead, operations, rfl, later.of_journal_eq rfl (UInt64.le_refl _)⟩

end Store

end FsMeta
