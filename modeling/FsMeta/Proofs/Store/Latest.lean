import FsMeta.Proofs.Store.Replay

set_option autoImplicit false

namespace FsMeta

namespace Version

theorem pruned_sublist (horizon : UInt64) (versions : List Version) :
    (pruned horizon versions).Sublist versions := by
  induction versions with
  | nil => exact List.Sublist.slnil
  | cons version older ih =>
    rw [pruned]
    split
    · exact (List.nil_sublist older).cons_cons version
    · exact ih.cons_cons version

end Version

namespace Store

variable {store later : Store} {writes : Writes}

def current (store : Store) : Contents := fun key => (store.versions key).head?.bind Version.value

theorem bounded_iff {clock : UInt64} :
    Bounded clock store.history ↔ ∀ key, ∀ version ∈ store.versions key, version.commitTime ≤ clock := by
  constructor
  · intro bounded key version member
    rw [versions] at member
    cases found : store.history.find? key with
    | none => simp [found] at member
    | some versions =>
      rw [found] at member
      exact bounded key versions found version member
  · intro bounded key versions found version member
    apply bounded key
    rw [Store.versions, found]
    exact member

theorem committed_eq_current (bounded : Bounded store.clock store.history) :
    store.committed = store.current := by
  funext key
  rw [committed, readAt, current]
  cases held : store.versions key with
  | nil => rfl
  | cons version older =>
    have reached : version.commitTime ≤ store.clock :=
      bounded_iff.1 bounded key version (held ▸ List.mem_cons_self)
    rw [Version.valueAt_cons, if_pos reached]
    rfl

theorem current_of_history_eq (same : later.history = store.history) : later.current = store.current := by
  funext key
  rw [current, current, versions, versions, same]

theorem current_record (store : Store) (horizon commitTime : UInt64) (writes : Writes) :
    (store.record horizon commitTime writes.entries).current = store.current.write writes := by
  funext key
  rw [current, versions_record, Contents.write_apply]
  cases writes.find? key with
  | none => rfl
  | some value =>
    rw [Option.elim_some, recorded_cases]
    split
    · cases value <;> rfl
    · rfl

theorem bounded_record {clock : UInt64} (bounded : Bounded clock store.history) (horizon : UInt64)
    {commitTime : UInt64} (forward : clock ≤ commitTime) (writes : Writes) :
    Bounded commitTime (store.record horizon commitTime writes.entries).history := by
  rw [bounded_iff] at bounded ⊢
  intro key version member
  rw [versions_record] at member
  cases written : writes.find? key with
  | none =>
    rw [written] at member
    exact UInt64.le_trans (bounded key version member) forward
  | some value =>
    rw [written, Option.elim_some, recorded_cases] at member
    by_cases reached : commitTime ≤ horizon
    · cases value with
      | none => simp [reached] at member
      | some value =>
        have only : version = ⟨commitTime, some value⟩ := by simpa [reached] using member
        exact UInt64.le_of_eq (congrArg Version.commitTime only)
    · rw [if_neg reached] at member
      rcases List.mem_cons.1 member with rfl | older
      · exact UInt64.le_refl _
      · have old := (Version.pruned_sublist horizon _).subset older
        exact UInt64.le_trans (bounded key version old) forward

structure Follows (store later : Store) (writes : Writes) : Prop where
  current : later.current = store.current.write writes
  idle : writes.entries.isEmpty → later.history = store.history
  bounded : Bounded store.clock store.history → store.clock ≤ later.clock →
    Bounded later.clock later.history

/-- What was asked for had these writes to make. It has made all of them if it succeeds, and none if it
fails, and it has left no transaction open. -/
structure Settles {α : Type} (store : Store) (writes : Writes) (result : Except Error α) (later : Store) :
    Prop where
  active : later.active = store.active
  failed : ∀ error, result = .error error → later.history = store.history
  done : ∀ value, result = .ok value → store.Follows later writes

theorem Follows.refl (store : Store) {writes : Writes} (bare : writes.entries.isEmpty) :
    store.Follows store writes where
  current := (Contents.write_of_isEmpty _ bare).symm
  idle := fun _ => rfl
  bounded := fun bounded _ => bounded

theorem Settles.error {α : Type} (active : later.active = store.active)
    (history : later.history = store.history) (writes : Writes) (error : Error) :
    store.Settles writes (.error error : Except Error α) later where
  active := active
  failed := fun _ _ => history
  done := fun _ done => by cases done

theorem Settles.ok {α : Type} (active : later.active = store.active) (follows : store.Follows later writes)
    (value : α) : store.Settles writes (.ok value) later where
  active := active
  failed := fun _ failed => by cases failed
  done := fun _ _ => follows

end Store

namespace Transaction

theorem release_begin (store : Store) : (begin store).2.release (begin store).1.snapshot = store := by
  simp [begin, Store.release]

theorem finish_begin (store : Store) (writes : Writes) :
    (finish { (begin store).1 with writes } (begin store).2).2 = store := release_begin store

theorem settles_commit (store : Store) (writes : Writes) :
    let ended := commit { (begin store).1 with writes } (begin store).2
    store.Settles writes ended.1 ended.2.2 := by
  let tx : Transaction := { (begin store).1 with writes }
  let begun : Store := (begin store).2
  have unfinished : tx.finished = false := rfl
  have frame : (begun.logged tx).2 =
      { begun with clock := begun.clock + 1, journal := (begun.logged tx).2.journal } := Store.logged_frame _ _
  have history : (begun.logged tx).2.history = store.history := by
    rw [frame]
    rfl
  have active : ((begun.logged tx).2.release tx.snapshot).active = store.active := by
    rw [frame]
    simp [Store.release, begun, tx, begin]
  change store.Settles writes (tx.commit begun).1 (tx.commit begun).2.2
  rcases commit_cases unfinished begun with
    ⟨bare, ended⟩ | ⟨_, _, _, ended⟩ | ⟨_, error, _, ended⟩ | ⟨_, filled, _, ended⟩
  · rw [ended, release_begin]
    exact .ok rfl (.refl store bare) ()
  · rw [ended, release_begin]
    exact .error rfl rfl writes _
  · rw [ended]
    exact .error active history writes error
  · rw [ended]
    have clock : (begun.logged tx).2.clock = store.clock + 1 := by
      rw [frame]
      rfl
    refine .ok ?_ ?_ ()
    · exact active
    constructor
    · have same : (begun.logged tx).2.current = store.current := Store.current_of_history_eq history
      rw [← same]
      exact Store.current_record _ _ _ writes
    · intro bare
      rw [show writes.entries.isEmpty = false from filled] at bare
      cases bare
    · -- The record is newer than all before it unless the clock has wrapped around.
      intro bounded forward
      have moved : store.clock ≤ store.clock + 1 := by
        rw [← clock]
        exact forward
      have before : Store.Bounded store.clock (begun.logged tx).2.history := by rwa [history]
      have recorded := Store.bounded_record before (begun.horizon tx.snapshot (begun.clock + 1)) moved writes
      change Store.Bounded (begun.logged tx).2.clock _
      rw [clock]
      exact recorded

end Transaction

end FsMeta
