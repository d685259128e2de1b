import FsMeta.Proofs.Store.Pruning
import Mathlib.Data.List.Dedup

set_option autoImplicit false

namespace FsMeta

/-- A time at which no open transaction began has no number. -/
abbrev Registry := UInt64 → Option Nat

namespace Registry

def empty : Registry := fun _ => none

def enter (registry : Registry) (time : UInt64) : Registry :=
  fun other => if other = time then some ((registry time).getD 0 + 1) else registry other

-- A number that comes down to zero goes.
def leave (registry : Registry) (time : UInt64) : Registry :=
  fun other =>
    if other = time then (registry time).bind fun count => if count = 1 then none else some (count - 1)
    else registry other

def ofTimes (times : List UInt64) : Registry :=
  fun time => if times.count time = 0 then none else some (times.count time)

theorem ofTimes_cons (time : UInt64) (times : List UInt64) : ofTimes (time :: times) = (ofTimes times).enter time := by
  funext other
  by_cases same : other = time
  · subst same
    by_cases absent : times.count other = 0
    · simp [ofTimes, enter, absent]
    · simp [ofTimes, enter, absent]
  · simp [ofTimes, enter, same, List.count_cons_of_ne (Ne.symm same)]

theorem ofTimes_erase (time : UInt64) (times : List UInt64) :
    ofTimes (times.erase time) = (ofTimes times).leave time := by
  funext other
  by_cases same : other = time
  · subst same
    simp only [ofTimes, leave, List.count_erase_self, if_true]
    cases times.count other with
    | zero => rfl
    | succ count => cases count <;> simp
  · simp [ofTimes, leave, same, List.count_erase_of_ne same]

theorem ofTimes_eq_some_iff {times : List UInt64} {time : UInt64} {count : Nat} :
    ofTimes times time = some count ↔ 0 < count ∧ count = times.count time := by
  rw [ofTimes]
  split
  · simp only [reduceCtorEq, false_iff]
    omega
  · simp only [Option.some.injEq]
    omega

theorem mem_erase_iff {times : List UInt64} {snapshot time : UInt64} :
    time ∈ times.erase snapshot ↔ ∃ count, ofTimes times time = some count ∧ (time ≠ snapshot ∨ 1 < count) := by
  simp only [ofTimes_eq_some_iff]
  rw [← List.count_pos_iff, List.count_erase]
  constructor
  · intro left
    refine ⟨times.count time, ⟨by omega, rfl⟩, ?_⟩
    by_cases same : time = snapshot
    · subst same
      simp only [beq_self_eq_true, if_true] at left
      exact .inr (by omega)
    · exact .inl same
  · rintro ⟨_, ⟨present, rfl⟩, differ | more⟩
    · simpa [Ne.symm differ] using present
    · split <;> omega

def entries (times : List UInt64) : List (UInt64 × Nat) :=
  (times.dedup.mergeSort fun one two => one ≤ two).map fun time => (time, times.count time)

theorem mem_entries {times : List UInt64} {entry : UInt64 × Nat} :
    entry ∈ entries times ↔ ofTimes times entry.1 = some entry.2 := by
  obtain ⟨time, count⟩ := entry
  rw [ofTimes_eq_some_iff, entries, List.mem_map]
  simp only [List.mem_mergeSort, List.mem_dedup, Prod.mk.injEq]
  constructor
  · rintro ⟨_, member, rfl, rfl⟩
    exact ⟨List.count_pos_iff.2 member, rfl⟩
  · rintro ⟨present, rfl⟩
    exact ⟨time, List.count_pos_iff.1 present, rfl, rfl⟩

theorem entries_ascending (times : List UInt64) : (entries times).Pairwise fun one two => one.1 < two.1 := by
  have sorted : (times.dedup.mergeSort fun one two => one ≤ two).Pairwise fun one two => decide (one ≤ two) = true :=
    List.pairwise_mergeSort (by simpa using fun _ _ _ => UInt64.le_trans) (by simpa using UInt64.le_total) _
  have distinct : (times.dedup.mergeSort fun one two => one ≤ two).Nodup :=
    (List.mergeSort_perm _ _).nodup_iff.2 times.nodup_dedup
  refine List.pairwise_map.2 ((sorted.and distinct).imp fun order => ?_)
  exact UInt64.lt_of_le_of_ne (of_decide_eq_true order.1) order.2

end Registry

def Store.registry (store : Store) : Registry := .ofTimes store.active

/-- The horizon is the first time in the registry at which another transaction began: one that began with the one
that commits is seen by the number. -/
theorem Store.horizon_eq_find? (store : Store) (snapshot commitTime : UInt64) :
    store.horizon snapshot commitTime =
      (((Registry.entries store.active).find? fun (time, count) => time ≠ snapshot || 1 < count).map Prod.fst).getD
        commitTime := by
  have mem_iff {time : UInt64} : time ∈ store.active.erase snapshot ↔
      ∃ count, (time, count) ∈ Registry.entries store.active ∧ (time ≠ snapshot ∨ 1 < count) := by
    simp only [Registry.mem_entries, Registry.mem_erase_iff]
  rw [horizon]
  congr 1
  cases found : (Registry.entries store.active).find? fun (time, count) => time ≠ snapshot || 1 < count with
  | none =>
    rw [List.find?_eq_none] at found
    refine List.min?_eq_none_iff.2 (List.eq_nil_iff_forall_not_mem.2 fun time member => ?_)
    obtain ⟨count, listed, other⟩ := mem_iff.1 member
    exact found _ listed (by simpa using other)
  | some entry =>
    -- All entries before it stand for the one that commits, and all behind it are later.
    obtain ⟨time, count⟩ := entry
    obtain ⟨other, front, back, split, earlier⟩ := List.find?_eq_some_iff_append.1 found
    refine List.min?_eq_some_iff.2 ⟨mem_iff.2 ⟨count, by simp [split], by simpa using other⟩, fun later member => ?_⟩
    obtain ⟨number, listed, also⟩ := mem_iff.1 member
    have ascending := Registry.entries_ascending store.active
    rw [split] at listed ascending
    rcases List.mem_append.1 listed with before | behind
    · exact absurd also (by simpa using earlier _ before)
    rcases List.mem_cons.1 behind with same | behind
    · exact UInt64.le_of_eq (congrArg Prod.fst same).symm
    · exact UInt64.le_of_lt ((List.pairwise_cons.1 (List.pairwise_append.1 ascending).2.1).1 _ behind)

theorem Store.registry_release (store : Store) (snapshot : UInt64) :
    (store.release snapshot).registry = store.registry.leave snapshot := Registry.ofTimes_erase snapshot store.active

theorem Transaction.registry_begin (store : Store) :
    (begin store).2.registry = store.registry.enter store.clock := Registry.ofTimes_cons store.clock store.active

theorem Transaction.finished_commit (tx : Transaction) (store : Store) : (tx.commit store).2.1.finished = true := by
  cases unfinished : tx.finished with
  | true =>
    rw [commit_finished unfinished]
    exact unfinished
  | false => exact commit_tx_finished unfinished store

def Action.ends (index : Nat) : Action → Bool
  | commit other | rollback other | drop other => other = index
  | begin | set _ _ _ | delete _ _ | timestamp | machine _ _ _ => false

def Session.status {ν : Type} (session : Session ν) : Option UInt64 :=
  if session.tx.finished then none else some session.tx.snapshot

namespace World

variable {world : World Edits} {place : Nat} {session : Session Edits}

/-- What a call does to the registry. A transaction that is finished is struck out no more. -/
def keep (world : World Edits) (registry : Registry) : Action → Registry
  | .begin => registry.enter world.store.clock
  | .commit index | .rollback index | .drop index =>
    (world.sessions[index]?.bind Session.status).elim registry registry.leave
  | .set _ _ _ | .delete _ _ | .timestamp | .machine _ _ _ => registry

def kept (world : World Edits) (registry : Registry) : List Action → Registry
  | [] => registry
  | action :: rest => (world.act action).kept (world.keep registry action) rest

/-- The transactions that begin in a run, in their order: when each of them began, unless a later call ends it. -/
def roll (world : World Edits) : List Action → List (Option UInt64)
  | [] => []
  | .begin :: rest =>
    (if rest.any (Action.ends world.sessions.length) then none else some world.store.clock) ::
      (world.act .begin).roll rest
  | action :: rest => (world.act action).roll rest

theorem roll_cons {action : Action} (other : action ≠ .begin) (rest : List Action) :
    world.roll (action :: rest) = (world.act action).roll rest := by
  rw [roll]
  exact other

theorem registry_commit (session : Session Edits) (store : Store) :
    (session.tx.commit store).2.2.registry = session.status.elim store.registry store.registry.leave := by
  cases unfinished : session.tx.finished with
  | true =>
    rw [Transaction.commit_finished unfinished]
    simp [Session.status, unfinished]
  | false =>
    have active := Transaction.active_commit unfinished store
    rw [Store.registry, active, Registry.ofTimes_erase]
    simp [Session.status, unfinished, Store.registry]

theorem registry_finish (session : Session Edits) (store : Store) :
    (session.tx.finish store).2.registry = session.status.elim store.registry store.registry.leave := by
  cases unfinished : session.tx.finished with
  | true => simp [Transaction.finish, Session.status, unfinished]
  | false => simp [Transaction.finish, Session.status, unfinished, Store.registry_release]

theorem registry_act (world : World Edits) (action : Action) :
    (world.act action).store.registry = world.keep world.store.registry action := by
  have edited (index : Nat) (key : Bytes) (value : Option Bytes) :
      (world.edit index key value).store.registry = world.store.registry := by
    rcases edit_cases world index key value with same | ⟨session, _, _, same⟩
    · rw [same]
    · rw [same]
      rfl
  have called (index : Nat) {change : Session Edits → World Edits}
      (leaves : ∀ session, (change session).store.registry =
        session.status.elim world.store.registry world.store.registry.leave) :
      (world.withSession index change).store.registry =
        (world.sessions[index]?.bind Session.status).elim world.store.registry world.store.registry.leave := by
    rw [withSession]
    cases world.sessions[index]? with
    | none => rfl
    | some session => exact leaves session
  cases action with
  | begin => exact Transaction.registry_begin world.store
  | set index key value => exact edited index key (some value)
  | delete index key => exact edited index key none
  | commit index => exact called index fun session => registry_commit session world.store
  | rollback index => exact called index fun session => registry_finish session world.store
  | drop index => exact called index fun session => registry_finish session world.store
  | timestamp => exact congrArg Registry.ofTimes (Store.timestamp_frame world.store).2
  | machine limit refusals now => rfl

theorem registry_run (world : World Edits) (actions : List Action) :
    (world.run actions).store.registry = world.kept world.store.registry actions := by
  induction actions generalizing world with
  | nil => rfl
  | cons action rest ih => rw [run_cons, ih, kept, registry_act]

theorem status_set (found : world.sessions[place]? = some session) (changed : Session Edits) (index : Nat) :
    (world.sessions.set place changed)[index]?.map Session.status =
      if place = index then some changed.status else world.sessions[index]?.map Session.status := by
  rw [List.getElem?_set]
  split
  · rw [if_pos (List.getElem?_eq_some_iff.1 found).1]
    rfl
  · rfl

-- A transaction that is over has no status, and no call gives it one again.
theorem status_act {action : Action} (other : action ≠ .begin) (index : Nat) :
    (world.act action).sessions[index]?.map Session.status =
      world.sessions[index]?.map fun session => if action.ends index then none else session.status := by
  have edited (place : Nat) (key : Bytes) (value : Option Bytes) :
      (world.edit place key value).sessions[index]?.map Session.status = world.sessions[index]?.map Session.status := by
    rcases edit_cases world place key value with same | ⟨session, found, _, same⟩
    · rw [same]
    · rw [same, revise, status_set found]
      split
      · rename_i here
        rw [← here, found]
        rfl
      · rfl
  have ended (place : Nat) {change : Session Edits → World Edits}
      (ends : ∀ session, ∃ changed : Session Edits, changed.status = none ∧
        (change session).sessions = world.sessions.set place changed) :
      (world.withSession place change).sessions[index]?.map Session.status =
        world.sessions[index]?.map fun session => if decide (place = index) then none else session.status := by
    by_cases here : place = index
    · subst here
      rw [withSession]
      cases found : world.sessions[place]? with
      | none => simp [found]
      | some session =>
        obtain ⟨changed, ended, set⟩ := ends session
        simp [set, status_set found, ended]
    · simp only [here, decide_false, Bool.false_eq_true, if_false]
      rcases withSession_cases world place change with same | ⟨session, found, same⟩
      · rw [same]
      · obtain ⟨changed, _, set⟩ := ends session
        rw [same, set, status_set found, if_neg here]
  have settled (session : Session Edits) {tx : Transaction} (finished : tx.finished = true) :
      ({ session with tx } : Session Edits).status = none := by
    simp [Session.status, finished]
  -- An edit keeps the session registered, and an end takes its place out; that is all an action can do to it.
  cases action with
  | begin => exact absurd rfl other
  | set place key value => exact edited place key (some value)
  | delete place key => exact edited place key none
  | commit place => exact ended place fun session => ⟨_, settled session (session.tx.finished_commit world.store), rfl⟩
  | rollback place => exact ended place fun session => ⟨_, settled session rfl, rfl⟩
  | drop place => exact ended place fun session => ⟨_, settled session rfl, rfl⟩
  | timestamp => simp [act, World.timestamp, Action.ends]
  | machine limit refusals now => simp [act, machine, withJournal, Action.ends]

theorem status_run (world : World Edits) (actions : List Action) :
    (world.run actions).sessions.map Session.status =
      (world.sessions.mapIdx fun index session => if actions.any (Action.ends index) then none else session.status) ++
        world.roll actions := by
  induction actions generalizing world with
  | nil =>
    refine List.ext_getElem? fun index => ?_
    simp [roll]
  | cons action rest ih =>
    rw [run_cons, ih]
    by_cases begins : action = .begin
    · -- The new transaction stands behind the others, so only calls that come later can mean it.
      subst begins
      let begun : Session Edits :=
        { tx := { snapshot := world.store.clock }, born := world.commits.length, note := [] }
      have grown : (world.act .begin).sessions = world.sessions ++ [begun] := rfl
      rw [grown, List.mapIdx_append, List.append_assoc]
      simp [begun, roll, Action.ends, Session.status]
    · rw [roll_cons begins]
      congr 1
      refine List.ext_getElem? fun index => ?_
      have masked (found : Option (Session Edits)) (ended : Bool) :
          (found.map fun session => if ended then none else session.status) =
            (found.map Session.status).map fun status => if ended then none else status := by
        cases found <;> rfl
      rw [List.getElem?_mapIdx, List.getElem?_mapIdx, masked, masked, status_act begins, masked, Option.map_map,
        List.any_cons]
      congr 1
      funext status
      cases action.ends index <;> cases rest.any (Action.ends index) <;> rfl

theorem registry_eq_some_iff {store : Store} (idle : store.active = []) (actions : List Action) {time : UInt64}
    {count : Nat} :
    (World.run { store } actions).store.registry time = some count ↔
      0 < count ∧ count = (World.roll { store } actions).count (some time) := by
  have initial : World.Registered ({ store } : World Edits) := by
    rw [Registered, idle]
    exact List.Perm.nil
  have registered : (World.run { store } actions).Registered := initial.run actions
  have rolled : (World.run { store } actions).sessions.map Session.status = World.roll { store } actions :=
    status_run { store } actions
  have times : (World.run { store } actions).readers.map Prod.fst =
      (World.run { store } actions).sessions.filterMap Session.status := by
    rw [readers, List.map_filterMap]
    refine List.filterMap_congr fun session _ => ?_
    rw [Session.reader?, Session.status]
    split <;> rfl
  rw [Store.registry, Registry.ofTimes_eq_some_iff, registered.count_eq, times, List.count_filterMap, ← rolled,
    List.count_eq_countP, List.countP_map]
  rfl

end World

end FsMeta
