import FsMeta.Proofs.Store.Commits

set_option autoImplicit false

/-!
The store among its readers. A reader is a time to read at and the number of commits that are visible
then. The histories serve every reader that is registered, and every one that may still come, although
versions and whole keys are taken away under way.
-/
namespace FsMeta

open Version

/-- The reader sees the first commits and no others, and can tell which keys were written later. -/
structure Serves (base : Contents) (store : Store) (past : List Writes) (time : UInt64)
    (count : Nat) : Prop where
  value : ∀ key, store.readAt time key = base.after (past.take count) key
  conflict : ∀ key, overtakes time (store.versions key) = true ↔
    ∃ writes ∈ past.drop count, (writes.find? key).isSome

structure Faithful (base : Contents) (store : Store) (past : List Writes)
    (readers : List (UInt64 × Nat)) : Prop where
  registered : store.active.Perm (readers.map Prod.fst)
  old : ∀ reader ∈ readers, reader.1 ≤ store.clock ∧ reader.2 ≤ past.length
  reader : ∀ reader ∈ readers, Serves base store past reader.1 reader.2
  current : ∀ time, store.clock ≤ time → Serves base store past time past.length

variable {base : Contents} {store : Store} {past : List Writes} {readers : List (UInt64 × Nat)}
  {time : UInt64} {count : Nat} {tx : Transaction}

namespace Serves

theorem of_history_eq (serves : Serves base store past time count) {other : Store}
    (same : other.history = store.history) : Serves base other past time count := by
  have versions (key : Bytes) : other.versions key = store.versions key := by
    rw [Store.versions, Store.versions, same]
  constructor
  · intro key
    rw [Store.readAt, versions key]
    exact serves.value key
  · intro key
    rw [versions key]
    exact serves.conflict key

theorem record_old (serves : Serves base store past time count) (bound : count ≤ past.length)
    {horizon commitTime : UInt64} (reach : horizon ≤ time) (before : time < commitTime)
    (writes : Writes) :
    Serves base (store.record horizon commitTime writes.entries) (past ++ [writes]) time count := by
  constructor
  · intro key
    rw [List.take_append_of_le_length bound, ← serves.value key, Store.readAt, Store.readAt,
      Store.versions_record]
    cases writes.find? key with
    | none => rfl
    | some value =>
      have unseen : ¬ commitTime ≤ time := UInt64.not_le.2 before
      simp [Store.valueAt_recorded reach, unseen, Store.versions]
  · intro key
    rw [List.drop_append_of_le_length bound, Store.versions_record]
    cases written : writes.find? key with
    | none => simp [serves.conflict key, written]
    | some value =>
      simp only [Option.elim_some, Store.overtakes_recorded reach, before, decide_true, true_iff]
      exact ⟨writes, by simp, by simp [written]⟩

theorem record_new (serves : Serves base store past time past.length)
    {horizon commitTime : UInt64} (reach : horizon ≤ time) (seen : commitTime ≤ time)
    (writes : Writes) :
    Serves base (store.record horizon commitTime writes.entries) (past ++ [writes]) time
      (past ++ [writes]).length := by
  have value := serves.value
  have conflict := serves.conflict
  simp only [List.take_length, List.drop_length, List.not_mem_nil, false_and, exists_false,
    iff_false] at value conflict
  constructor
  · intro key
    rw [List.take_length, Contents.after_append, Contents.after_singleton, Contents.write_apply,
      ← value key, Store.readAt, Store.readAt, Store.versions_record]
    cases writes.find? key with
    | none => rfl
    | some value => simp [Store.valueAt_recorded reach, seen]
  · intro key
    rw [List.drop_length, Store.versions_record]
    cases writes.find? key with
    | none => simp [conflict key]
    | some value =>
      have late : ¬ time < commitTime := UInt64.not_lt.2 seen
      simp [Store.overtakes_recorded reach, late]

end Serves

namespace Store

theorem horizon_le_of_mem {snapshot commitTime : UInt64}
    (member : time ∈ store.active.erase snapshot) : store.horizon snapshot commitTime ≤ time := by
  cases least : (store.active.erase snapshot).min? with
  | none => rw [List.min?_eq_none_iff] at least; simp [least] at member
  | some first =>
    rw [horizon, least]
    exact (List.min?_eq_some_iff.1 least).2 time member

theorem horizon_le {snapshot commitTime : UInt64}
    (bound : ∀ other ∈ store.active.erase snapshot, other ≤ commitTime) :
    store.horizon snapshot commitTime ≤ commitTime := by
  cases least : (store.active.erase snapshot).min? with
  | none => simp [horizon, least]
  | some first =>
    rw [horizon, least]
    exact bound first (List.min?_eq_some_iff.1 least).1

end Store

namespace Faithful

theorem perm (faithful : Faithful base store past readers) {others : List (UInt64 × Nat)}
    (same : readers.Perm others) : Faithful base store past others where
  registered := faithful.registered.trans (same.map _)
  old := fun reader member => faithful.old reader (same.mem_iff.2 member)
  reader := fun reader member => faithful.reader reader (same.mem_iff.2 member)
  current := faithful.current

theorem advance (faithful : Faithful base store past readers) {other : Store}
    (history : other.history = store.history) (active : other.active = store.active)
    (forward : store.clock ≤ other.clock) : Faithful base other past readers where
  registered := active ▸ faithful.registered
  old := fun reader member =>
    ⟨UInt64.le_trans (faithful.old reader member).1 forward, (faithful.old reader member).2⟩
  reader := fun reader member => (faithful.reader reader member).of_history_eq history
  current := fun time after =>
    (faithful.current time (UInt64.le_trans forward after)).of_history_eq history

theorem begin (faithful : Faithful base store past readers) :
    Faithful base (Transaction.begin store).2 past ((store.clock, past.length) :: readers) where
  registered := faithful.registered.cons store.clock
  old := by
    intro reader member
    rcases List.mem_cons.1 member with rfl | member
    · exact ⟨UInt64.le_refl _, Nat.le_refl _⟩
    · exact faithful.old reader member
  reader := by
    intro reader member
    rcases List.mem_cons.1 member with rfl | member
    · exact (faithful.current store.clock (UInt64.le_refl _)).of_history_eq rfl
    · exact (faithful.reader reader member).of_history_eq rfl
  current := fun time after => (faithful.current time after).of_history_eq rfl

theorem release (faithful : Faithful base store past ((time, count) :: readers)) :
    Faithful base (store.release time) past readers where
  registered := by
    have left := faithful.registered.erase time
    rwa [List.map_cons, List.erase_cons_head] at left
  old := fun reader member => faithful.old reader (List.mem_cons_of_mem _ member)
  reader := fun reader member =>
    (faithful.reader reader (List.mem_cons_of_mem _ member)).of_history_eq rfl
  current := fun time after => (faithful.current time after).of_history_eq rfl

theorem idle (faithful : Faithful base store past readers) {writes : Writes}
    (bare : writes.entries.isEmpty) : Faithful base store (past ++ [writes]) readers := by
  have unwritten (key : Bytes) : writes.find? key = none :=
    Table.find?_eq_none_of_isEmpty bare key
  refine ⟨faithful.registered, fun reader member => ?_, fun reader member => ?_, fun time after => ?_⟩
  · have bound := (faithful.old reader member).2
    refine ⟨(faithful.old reader member).1, ?_⟩
    simp only [List.length_append, List.length_singleton]
    omega
  · have bound := (faithful.old reader member).2
    constructor
    · intro key
      rw [List.take_append_of_le_length bound]
      exact (faithful.reader reader member).value key
    · intro key
      rw [List.drop_append_of_le_length bound, (faithful.reader reader member).conflict key]
      simp [unwritten]
  · constructor
    · intro key
      rw [List.take_length, Contents.after_append, Contents.after_singleton,
        Contents.write_of_isEmpty _ bare, (faithful.current time after).value key, List.take_length]
    · intro key
      rw [(faithful.current time after).conflict key]
      simp

theorem record (faithful : Faithful base store past ((time, count) :: readers)) {other : Store}
    (history : other.history = store.history) (active : other.active = store.active)
    {commitTime : UInt64} (clock : other.clock = commitTime) (forward : store.clock < commitTime)
    (writes : Writes) :
    Faithful base
      ((other.record (store.horizon time commitTime) commitTime writes.entries).release time)
      (past ++ [writes]) readers := by
  -- The committer itself is not among the readers that versions are kept for.
  have left : (store.active.erase time).Perm (readers.map Prod.fst) := by
    have left := faithful.registered.erase time
    rwa [List.map_cons, List.erase_cons_head] at left
  have old (reader : UInt64 × Nat) (member : reader ∈ readers) :=
    faithful.old reader (List.mem_cons_of_mem _ member)
  have reach (reader : UInt64 × Nat) (member : reader ∈ readers) :
      store.horizon time commitTime ≤ reader.1 :=
    Store.horizon_le_of_mem (left.mem_iff.2 (List.mem_map_of_mem member))
  have below : store.horizon time commitTime ≤ commitTime := by
    refine Store.horizon_le fun snapshot registered => ?_
    obtain ⟨reader, member, rfl⟩ := List.mem_map.1 (left.mem_iff.1 registered)
    exact UInt64.le_of_lt (UInt64.lt_of_le_of_lt (old reader member).1 forward)
  constructor
  · exact (active ▸ left : (other.active.erase time).Perm _)
  · intro reader member
    have grown : reader.2 ≤ (past ++ [writes]).length := by
      have bound := (old reader member).2
      simp only [List.length_append, List.length_singleton]
      omega
    refine ⟨?_, grown⟩
    change reader.1 ≤ other.clock
    rw [clock]
    exact UInt64.le_of_lt (UInt64.lt_of_le_of_lt (old reader member).1 forward)
  · intro reader member
    have serves := (faithful.reader reader (List.mem_cons_of_mem _ member)).of_history_eq history
    have before := UInt64.lt_of_le_of_lt (old reader member).1 forward
    exact (serves.record_old (old reader member).2 (reach reader member) before
      writes).of_history_eq rfl
  · intro now after
    replace after : commitTime ≤ now := clock ▸ after
    have serves := (faithful.current now
      (UInt64.le_trans (UInt64.le_of_lt forward) after)).of_history_eq history
    exact (serves.record_new (UInt64.le_trans below after) after writes).of_history_eq rfl

variable {tx : Transaction}

theorem timestamp (faithful : Faithful base store past readers)
    (forward : store.clock ≤ store.timestamp.2.clock) :
    Faithful base store.timestamp.2 past readers := by
  obtain ⟨history, active⟩ := Store.timestamp_frame store
  exact faithful.advance history active forward

theorem commit (faithful : Faithful base store past ((tx.snapshot, count) :: readers))
    (unfinished : tx.finished = false) (forward : store.clock ≤ (tx.commit store).2.2.clock) :
    Faithful base (tx.commit store).2.2 (past ++ tx.published store) readers := by
  have frame := Store.logged_frame store tx
  have history : (store.logged tx).2.history = store.history := by rw [frame]
  have active : (store.logged tx).2.active = store.active := by rw [frame]
  have clock : (store.logged tx).2.clock = store.clock + 1 := by rw [frame]
  rcases Transaction.commit_cases unfinished store with
    ⟨bare, ended⟩ | ⟨key, time, _, ended⟩ | ⟨_, error, _, ended⟩ | ⟨_, _, _, ended⟩
  · simp only [Transaction.published, ended]
    exact faithful.release.idle bare
  · simp only [Transaction.published, ended, List.append_nil]
    exact faithful.release
  · rw [ended] at forward
    simp only [Transaction.published, ended, List.append_nil]
    exact (faithful.advance history active forward).release
  · rw [ended] at forward
    replace forward : store.clock ≤ (store.logged tx).2.clock := forward
    simp only [Transaction.published, ended]
    exact faithful.record history active clock (lt_add_one (clock ▸ forward)) tx.writes

theorem overtaken?_ne_none_iff (faithful : Faithful base store past readers)
    (member : (tx.snapshot, count) ∈ readers) :
    store.overtaken? tx ≠ none ↔
      ∃ writes ∈ past.drop count, ∃ key, (writes.find? key).isSome ∧ (tx.writes.find? key).isSome := by
  have conflict := (faithful.reader _ member).conflict
  rw [Ne, Store.overtaken?_eq_none_iff]
  constructor
  · intro overtaken
    simp only [Classical.not_forall, Bool.not_eq_false] at overtaken
    obtain ⟨key, value, found, late⟩ := overtaken
    obtain ⟨writes, later, written⟩ := (conflict key).1 late
    exact ⟨writes, later, key, written, by simp [found]⟩
  · rintro ⟨writes, later, key, written, own⟩ clear
    obtain ⟨value, found⟩ := Option.isSome_iff_exists.1 own
    have late := (conflict key).2 ⟨writes, later, written⟩
    simp [clear key value found] at late

end Faithful

end FsMeta
