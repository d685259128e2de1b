import FsMeta.Proofs.Record.Reading
import FsMeta.Proofs.Store.Latest
import FsMeta.Proofs.Store.Opening
import FsMeta.Proofs.Store.Registry

set_option autoImplicit false

namespace FsMeta

structure Version.Chronicle (clock : UInt64) (versions : List Version) : Prop where
  filled : versions ≠ []
  descending : versions.Pairwise fun newer older => older.commitTime < newer.commitTime
  past : ∀ version ∈ versions, version.commitTime ≤ clock

namespace Version

variable {clock later : UInt64} {versions : List Version}

theorem Chronicle.mono (chronicle : Chronicle clock versions) (forward : clock ≤ later) :
    Chronicle later versions where
  filled := chronicle.filled
  descending := chronicle.descending
  past := fun version member => UInt64.le_trans (chronicle.past version member) forward

theorem pruned_ne_nil (horizon : UInt64) (filled : versions ≠ []) : pruned horizon versions ≠ [] := by
  cases versions with
  | nil => exact absurd rfl filled
  | cons version older =>
    rw [pruned]
    split <;> exact List.cons_ne_nil _ _

theorem chronicle_recorded {horizon commitTime : UInt64} {value : Option Bytes} {stored : Option (List Version)}
    {kept : List Version} (chronicle : ∀ versions, stored = some versions → Chronicle clock versions)
    (forward : clock < commitTime) (recorded : Store.recorded horizon commitTime value stored = some kept) :
    Chronicle commitTime kept := by
  have left : kept = pruned horizon (⟨commitTime, value⟩ :: stored.getD []) := by
    dsimp only [Store.recorded] at recorded
    split at recorded
    · cases recorded
    · exact (Option.some.inj recorded).symm
  have before : ∀ version ∈ stored.getD [], version.commitTime ≤ clock := by
    cases stored with
    | none => simp
    | some versions => exact (chronicle versions rfl).past
  have descending : (stored.getD []).Pairwise fun newer older => older.commitTime < newer.commitTime := by
    cases stored with
    | none => exact List.Pairwise.nil
    | some versions => exact (chronicle versions rfl).descending
  subst left
  constructor
  · exact pruned_ne_nil horizon (List.cons_ne_nil _ _)
  · have newest : ∀ version ∈ stored.getD [], version.commitTime < commitTime :=
      fun version member => UInt64.lt_of_le_of_lt (before version member) forward
    exact (List.pairwise_cons.2 ⟨newest, descending⟩).sublist (pruned_sublist horizon _)
  · intro version member
    rcases List.mem_cons.1 ((pruned_sublist horizon _).subset member) with rfl | older
    · exact UInt64.le_refl _
    · exact UInt64.le_of_lt (UInt64.lt_of_le_of_lt (before version older) forward)

end Version

open Version (Chronicle)

def Store.Chronicled (store : Store) : Prop :=
  ∀ key versions, store.history.find? key = some versions → Chronicle store.clock versions

inductive Store.New (store : Store) : Prop
  | memory (empty : store = {})
  | opened {disk later : Disk} {policy : SyncPolicy} {index : Nat}
      (opens : disk.openStore policy = (.ok (index, store), later))
  | inspected {disk : Disk} {path : String} (reads : disk.readStore path = .ok store)

namespace Store

variable {store later : Store}

theorem Chronicled.of_history_eq (chronicled : store.Chronicled) (history : later.history = store.history)
    (forward : store.clock ≤ later.clock) : later.Chronicled := by
  intro key versions found
  rw [history] at found
  exact (chronicled key versions found).mono forward

theorem chronicled_ofEntries (entries : List Journal.Entry) : (ofEntries entries).Chronicled := by
  intro key versions found
  have past := bounded_ofEntries entries key versions found
  obtain ⟨commitTime, bytes, rfl⟩ := plain_ofEntries entries key versions found
  exact ⟨List.cons_ne_nil _ _, List.pairwise_singleton _ _, past⟩

theorem Chronicled.commit (chronicled : store.Chronicled) {tx : Transaction}
    (forward : store.clock ≤ (tx.commit store).2.2.clock) : (tx.commit store).2.2.Chronicled := by
  cases unfinished : tx.finished with
  | true =>
    rw [Transaction.commit_finished unfinished]
    exact chronicled
  | false =>
    intro key versions found
    rcases Transaction.find?_commit unfinished store key with ⟨same, _⟩ | ⟨clock, recorded⟩
    · exact (chronicled key versions (same.symm.trans found)).mono forward
    · have left := recorded.symm.trans found
      cases written : tx.writes.find? key with
      | none =>
        rw [written] at left
        exact (chronicled key versions left).mono forward
      | some value =>
        rw [written, Option.elim_some] at left
        rw [clock] at forward ⊢
        exact Version.chronicle_recorded (chronicled key) (lt_add_one forward) left

theorem New.exists_entries (new : store.New) : ∃ entries journal, store = { ofEntries entries with journal } := by
  cases new with
  | memory empty => exact ⟨[], none, empty⟩
  | @opened disk later policy index opens =>
    rw [Disk.openStore] at opens
    split at opens
    · cases opens
    · dsimp only at opens
      split at opens
      · cases opens
      · rename_i entries _ _ _
        split at opens
        · cases opens
        · cases opens
          exact ⟨entries, _, rfl⟩
  | inspected reads =>
    rw [Disk.readStore] at reads
    split at reads
    · obtain ⟨source, _, rest⟩ := exists_ok_of_bind reads
      cases rest
      exact ⟨_, none, rfl⟩
    · cases reads

end Store

namespace World

variable {world : World Edits}

theorem chronicled_act (chronicled : world.store.Chronicled) (action : Action)
    (forward : world.store.clock ≤ (world.act action).store.clock) : (world.act action).store.Chronicled := by
  rcases act_step world action with same | step
  · rwa [same]
  · generalize world.act action = next at step forward
    cases step with
    | begin note => exact chronicled.of_history_eq rfl forward
    | revise found writes note => exact chronicled
    | @commit index session found => exact chronicled.commit forward
    | @finish index session found =>
      refine chronicled.of_history_eq ?_ forward
      rw [World.finish, Transaction.finish]
      dsimp only
      split <;> rfl
    | timestamp => exact chronicled.of_history_eq (Store.timestamp_frame world.store).1 forward
    | journal journal => exact chronicled

theorem chronicled_run (chronicled : world.store.Chronicled) {actions : List Action} (steady : world.Steady actions) :
    (world.run actions).store.Chronicled := by
  induction actions generalizing world with
  | nil => exact chronicled
  | cons action rest ih => exact ih (chronicled_act chronicled action steady.1) steady.2

theorem representation_kept {store : Store} (new : store.New) (actions : List Action)
    (steady : World.Steady { store } actions) :
    let later := (World.run { store } actions).store
    (∀ key versions, later.history.find? key = some versions → Chronicle later.clock versions) ∧
      (World.run { store } actions).sessions.map Session.status = World.roll { store } actions ∧
      later.registry = World.kept { store } .empty actions ∧
      ∀ time count, later.registry time = some count ↔
        0 < count ∧ count = (World.roll { store } actions).count (some time) := by
  intro later
  obtain ⟨entries, journal, initial⟩ := new.exists_entries
  have chronicled : store.Chronicled := initial ▸ Store.chronicled_ofEntries entries
  have idle : store.active = [] := initial ▸ rfl
  have empty : store.registry = .empty := by
    rw [Store.registry, idle]
    rfl
  refine ⟨chronicled_run chronicled steady, status_run { store } actions, ?_, fun time count => ?_⟩
  · rw [← empty]
    exact registry_run { store } actions
  · exact registry_eq_some_iff idle actions

section

open Journal

-- The window of timestamps was reserved before the commit, so its time is the later one.
def window : Entry := ⟨1, 1001, 0, []⟩

def written : Entry := ⟨2, 2, 0, [.put [1] [10]]⟩

theorem fits_of_lt {entry : Entry} (small : entry.body.length < 100) : entry.Fits :=
  Nat.le_of_lt (Nat.lt_trans small (by decide))

def journaled : List Frame :=
  [.ofEntry window (fits_of_lt (by decide +kernel)), .ofEntry written (fits_of_lt (by decide +kernel))]

-- Transactions 0 and 1 write one key, and 1 is ended again and again. The journal refuses what 3 writes.
def crossed : List Action :=
  [.begin, .begin, .set 0 [1] [11], .commit 0, .set 1 [1] [12], .commit 1, .rollback 1, .rollback 1, .drop 1, .drop 0,
    .begin, .begin, .delete 3 [1], .machine (some 0) {} 0, .commit 3, .begin]

theorem representation_kept_crossed :
    let store := Disk.opened .everyWrite journaled
    let later := (World.run { store } crossed).store
    store.New ∧ World.Steady { store } crossed ∧
      (∃ versions, later.history.find? [1] = some versions ∧ versions.map Version.commitTime = [1002, 2] ∧
        Chronicle later.clock versions) ∧
      World.roll { store } crossed = [none, none, some 1002, none, some 1003] ∧
      later.registry 1001 = none ∧ later.registry 1002 = some 1 ∧ later.registry 1003 = some 1 := by
  intro store later
  let disk : Disk := { place := .directory (.file 0), files := [.regular (joined journaled ++ [])] }
  have ascending : Ascending 0 journaled := by
    simp [journaled, Frame.ofEntry, window, written]
  have place : disk.place = .directory (.file 0) := rfl
  have content : disk.file 0 = .regular (joined journaled ++ []) := rfl
  have stops : Stops (topLsn 0 journaled) [] := .inl fun filled => absurd rfl filled
  have new : store.New := .opened (Disk.openStore_joined ascending stops place content .everyWrite)
  have steady : World.Steady { store } crossed := by decide +kernel
  have roll : World.roll { store } crossed = [none, none, some 1002, none, some 1003] := by decide +kernel
  obtain ⟨chronicles, _, _, registered⟩ := representation_kept new crossed steady
  have counted (time : UInt64) (count : Nat) : later.registry time = some count ↔
      0 < count ∧ count = [none, none, some 1002, none, some 1003].count (some time) := by
    rw [← roll]
    exact registered time count
  have times : (later.history.find? [1]).map (List.map Version.commitTime) = some [1002, 2] := by decide +kernel
  obtain ⟨versions, found, times⟩ := Option.map_eq_some_iff.1 times
  refine ⟨new, steady, ⟨versions, found, times, chronicles [1] versions found⟩, roll, ?_, ?_, ?_⟩
  · refine Option.eq_none_iff_forall_ne_some.2 fun count shown => ?_
    obtain ⟨positive, same⟩ := (counted 1001 count).1 shown
    exact Nat.ne_of_gt positive same
  · exact (counted 1002 1).2 ⟨Nat.one_pos, by decide⟩
  · exact (counted 1003 1).2 ⟨Nat.one_pos, by decide⟩

end

end World

end FsMeta
