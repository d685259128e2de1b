import FsMeta.Proofs.Store.Isolation

set_option autoImplicit false

namespace FsMeta

namespace Version

theorem length_filter_pruned_le (horizon : UInt64) (versions : List Version) :
    ((pruned horizon versions).filter (·.commitTime ≤ horizon)).length ≤ 1 := by
  induction versions with
  | nil => simp [pruned]
  | cons version older ih =>
    rw [pruned]
    split
    · rename_i reached
      simp [reached]
    · rename_i newer
      simpa [newer] using ih

end Version

namespace Store

open Version

theorem length_filter_recorded_le (horizon commitTime : UInt64) (value : Option Bytes)
    (versions : Option (List Version)) :
    (((recorded horizon commitTime value versions).getD []).filter (·.commitTime ≤ horizon)).length ≤ 1 := by
  dsimp only [recorded]
  split
  · exact Nat.zero_le _
  · exact length_filter_pruned_le _ _

theorem recorded_self (commitTime : UInt64) (value : Option Bytes) (versions : Option (List Version)) :
    recorded commitTime commitTime value versions = value.map fun bytes => [⟨commitTime, some bytes⟩] := by
  cases value <;> simp [recorded, pruned, gone]

def Plain (history : Table (List Version)) : Prop :=
  ∀ key versions, history.find? key = some versions → ∃ commitTime bytes, versions = [⟨commitTime, some bytes⟩]

theorem Plain.replayEntry {history : Table (List Version)} (plain : Plain history) (entry : Journal.Entry) :
    Plain (Store.replayEntry history entry) := by
  rw [Store.replayEntry]
  induction entry.operations generalizing history with
  | nil => exact plain
  | cons operation rest ih =>
    refine ih fun key versions found => ?_
    cases operation with
    | put other value =>
      rw [replayOperation, Table.find?_insert] at found
      split at found
      · cases found
        exact ⟨_, _, rfl⟩
      · exact plain key versions found
    | delete other =>
      rw [replayOperation, Table.find?_erase] at found
      split at found
      · cases found
      · exact plain key versions found

theorem plain_ofEntries (entries : List Journal.Entry) : Plain (ofEntries entries).history := by
  have replayed {history : Table (List Version)} (plain : Plain history) :
      Plain (entries.foldl Store.replayEntry history) := by
    induction entries generalizing history with
    | nil => exact plain
    | cons entry rest ih => exact ih (plain.replayEntry entry)
  refine replayed fun key versions found => ?_
  rw [Table.find?_empty] at found
  cases found

theorem Plain.versionCount_eq {store : Store} (plain : Plain store.history) : store.versionCount = store.keyCount := by
  have single : ∀ entry ∈ store.history.entries, ∃ commitTime bytes, entry.2 = [⟨commitTime, some bytes⟩] :=
    fun entry member => plain entry.1 entry.2 ((Table.mem_entries_iff _ _ _).1 member)
  rw [versionCount, keyCount]
  generalize store.history.entries = entries at single
  induction entries with
  | nil => rfl
  | cons entry rest ih =>
    obtain ⟨⟨commitTime, bytes, one⟩, others⟩ := List.forall_mem_cons.1 single
    simp [one, isLive, ih others]

end Store

namespace Transaction

variable {tx : Transaction} {store : Store}

theorem active_commit (unfinished : tx.finished = false) (store : Store) :
    (tx.commit store).2.2.active = store.active.erase tx.snapshot := by
  have active : (store.logged tx).2.active = store.active := by rw [Store.logged_frame]
  rcases commit_cases unfinished store with
    ⟨_, ended⟩ | ⟨_, _, _, ended⟩ | ⟨_, _, _, ended⟩ | ⟨_, _, _, ended⟩
  · rw [ended]
    rfl
  · rw [ended]
    rfl
  · rw [ended]
    exact congrArg (List.erase · _) active
  · rw [ended]
    exact congrArg (List.erase · _) active

theorem open_of_commit (committed : (tx.commit store).1 = .ok ()) : tx.finished = false := by
  cases finished : tx.finished with
  | false => rfl
  | true =>
    rw [commit_finished finished] at committed
    cases committed

theorem find?_commit (unfinished : tx.finished = false) (store : Store) (key : Bytes) :
    (tx.commit store).2.2.history.find? key = store.history.find? key ∧
      ((tx.commit store).1 = .ok () → tx.writes.find? key = none) ∨
    (tx.commit store).2.2.clock = store.clock + 1 ∧
      (tx.commit store).2.2.history.find? key = (tx.writes.find? key).elim (store.history.find? key) fun value =>
        Store.recorded (store.horizon tx.snapshot (store.clock + 1)) (store.clock + 1) value
          (store.history.find? key) := by
  have history : (store.logged tx).2.history = store.history := by rw [Store.logged_frame]
  have clock : (store.logged tx).2.clock = store.clock + 1 := by rw [Store.logged_frame]
  rcases commit_cases unfinished store with
    ⟨bare, ended⟩ | ⟨_, _, _, ended⟩ | ⟨_, _, _, ended⟩ | ⟨_, _, _, ended⟩
  · rw [ended]
    exact .inl ⟨rfl, fun _ => Table.find?_eq_none_of_isEmpty bare key⟩
  · rw [ended]
    exact .inl ⟨rfl, fun done => by cases done⟩
  · rw [ended]
    exact .inl ⟨congrArg (Table.find? · key) history, fun done => by cases done⟩
  · rw [ended]
    refine .inr ⟨clock, ?_⟩
    rw [← history]
    exact Store.find?_record _ _ _ _ _

end Transaction

namespace World

variable {ν : Type} {world : World ν} {index : Nat} {session : Session ν}

/-- Each snapshot is registered as often as an open transaction reads at it. -/
def Registered (world : World ν) : Prop := world.store.active.Perm (world.readers.map Prod.fst)

def others (world : World ν) (index : Nat) : List UInt64 :=
  ((world.sessions.eraseIdx index).filterMap Session.reader?).map Prod.fst

namespace Registered

theorem erase (registered : world.Registered) (found : world.sessions[index]? = some session)
    (unfinished : session.tx.finished = false) :
    (world.store.active.erase session.tx.snapshot).Perm (world.others index) := by
  have split := registered.trans ((readers_of_open found unfinished).map Prod.fst)
  have left := split.erase session.tx.snapshot
  rwa [List.map_cons, List.erase_cons_head] at left

theorem begin (registered : world.Registered) (note : ν) : (world.begin note).Registered := by
  have added : (world.begin note).readers.map Prod.fst = world.readers.map Prod.fst ++ [world.store.clock] := by
    simp [readers, World.begin, Transaction.begin, Session.reader?]
  rw [Registered, added]
  exact (registered.cons _).trans (List.perm_append_singleton _ _).symm

theorem commit (registered : world.Registered) (found : world.sessions[index]? = some session) :
    (world.commit index session).Registered := by
  cases unfinished : session.tx.finished with
  | true =>
    rw [Registered, World.commit, Transaction.commit_finished unfinished]
    exact registered.trans ((readers_set found rfl).map Prod.fst)
  | false =>
    have finished := Transaction.commit_tx_finished unfinished world.store
    have active : (world.commit index session).store.active = world.store.active.erase session.tx.snapshot :=
      Transaction.active_commit unfinished world.store
    rw [Registered, active]
    exact (registered.erase found unfinished).trans ((readers_set_finished found finished).map Prod.fst)

theorem finish (registered : world.Registered) (found : world.sessions[index]? = some session) :
    (world.finish index session).Registered := by
  cases unfinished : session.tx.finished with
  | true =>
    have same : (world.finish index session).store = world.store := by
      simp [World.finish, Transaction.finish, unfinished]
    rw [Registered, same]
    refine registered.trans ((readers_set found ?_).map Prod.fst)
    simp [Session.reader?, unfinished]
  | false =>
    have active : (world.finish index session).store.active = world.store.active.erase session.tx.snapshot := by
      rw [World.finish, Transaction.finish_of_open unfinished]
      rfl
    rw [Registered, active]
    exact (registered.erase found unfinished).trans ((readers_set_finished found rfl).map Prod.fst)

theorem step (registered : world.Registered) {next : World ν} (step : Step world next) : next.Registered := by
  cases step with
  | begin note => exact registered.begin note
  | revise found writes note =>
    refine registered.trans (List.Perm.map Prod.fst ?_)
    exact readers_set found rfl
  | commit found => exact registered.commit found
  | finish found => exact registered.finish found
  | timestamp =>
    rw [Registered, World.timestamp, (Store.timestamp_frame world.store).2]
    exact registered
  | journal journal => exact registered

theorem run {world : World Edits} (registered : world.Registered) (actions : List Action) :
    (world.run actions).Registered := by
  induction actions generalizing world with
  | nil => exact registered
  | cons action rest ih =>
    rcases act_step world action with same | step
    · rw [run_cons, same]
      exact ih registered
    · exact ih (registered.step step)

end Registered

theorem registered_opened (entries : List Journal.Entry) (journal : Option Journal.Log) :
    (opened entries journal).Registered := List.Perm.nil

theorem Registered.horizon (registered : world.Registered) (found : world.sessions[index]? = some session)
    (unfinished : session.tx.finished = false) (commitTime : UInt64) :
    world.store.horizon session.tx.snapshot commitTime = (world.others index).min?.getD commitTime := by
  have same := registered.erase found unfinished
  rw [Store.horizon]
  congr 1
  cases least : (world.others index).min? with
  | none =>
    rw [List.min?_eq_none_iff] at least ⊢
    rw [least] at same
    exact same.eq_nil
  | some oldest =>
    obtain ⟨member, below⟩ := List.min?_eq_some_iff.1 least
    exact List.min?_eq_some_iff.2 ⟨same.mem_iff.2 member, fun other listed => below other (same.mem_iff.1 listed)⟩

structure Pruned (others : List UInt64) (later : Store) (key : Bytes) (value : Option Bytes) : Prop where
  shared : ∀ oldest, others.min? = some oldest →
    ((later.versions key).filter (·.commitTime ≤ oldest)).length ≤ 1
  alone : others = [] → later.history.find? key = value.map fun bytes => [⟨later.clock, some bytes⟩]

theorem Registered.pruned (registered : world.Registered) (found : world.sessions[index]? = some session)
    (committed : (session.tx.commit world.store).1 = .ok ()) {key : Bytes} {value : Option Bytes}
    (written : session.tx.writes.find? key = some value) :
    Pruned (world.others index) (world.commit index session).store key value := by
  have unfinished := Transaction.open_of_commit committed
  rcases Transaction.find?_commit unfinished world.store key with ⟨_, spared⟩ | ⟨clock, recorded⟩
  · rw [spared committed] at written
    cases written
  · rw [written, Option.elim_some, registered.horizon found unfinished] at recorded
    constructor
    · intro oldest least
      rw [least, Option.getD_some] at recorded
      have versions : (world.commit index session).store.versions key = _ := congrArg (·.getD []) recorded
      rw [versions]
      exact Store.length_filter_recorded_le _ _ _ _
    · intro alone
      rw [alone, List.min?_nil, Option.getD_none, Store.recorded_self, ← clock] at recorded
      exact recorded

def Serial : World Edits → List Action → Prop
  | _, [] => True
  | world, action :: rest =>
    (action = .begin → ∀ session ∈ world.sessions, session.tx.finished = true) ∧ Serial (world.act action) rest

instance decidableSerial : (world : World Edits) → (actions : List Action) → Decidable (world.Serial actions)
  | _, [] => isTrue trivial
  | world, action :: rest =>
    have := decidableSerial (world.act action) rest
    inferInstanceAs (Decidable (_ ∧ _))

structure Lone (world : World Edits) : Prop where
  registered : world.Registered
  single : world.store.active.length ≤ 1
  plain : Store.Plain world.store.history

namespace Lone

variable {world : World Edits} {session : Session Edits}

theorem begin (lone : world.Lone) (ended : ∀ session ∈ world.sessions, session.tx.finished = true) :
    (world.begin []).Lone where
  registered := lone.registered.begin []
  single := by
    have readers : world.readers = [] := by
      rw [World.readers, List.filterMap_eq_nil_iff]
      intro session member
      simp [Session.reader?, ended session member]
    have idle : world.store.active = [] := by
      have registered := lone.registered
      rw [Registered, readers] at registered
      exact registered.eq_nil
    simp [World.begin, Transaction.begin, idle]
  plain := lone.plain

theorem commit (lone : world.Lone) (found : world.sessions[index]? = some session) :
    (world.commit index session).Lone := by
  cases unfinished : session.tx.finished with
  | true =>
    refine ⟨lone.registered.commit found, ?_, ?_⟩
    all_goals rw [World.commit, Transaction.commit_finished unfinished]
    · exact lone.single
    · exact lone.plain
  | false =>
    have active : (world.commit index session).store.active = world.store.active.erase session.tx.snapshot :=
      Transaction.active_commit unfinished world.store
    refine ⟨lone.registered.commit found, ?_, fun key versions stored => ?_⟩
    · rw [active]
      exact Nat.le_trans (List.length_erase_le ..) lone.single
    · have member : session.tx.snapshot ∈ world.store.active :=
        lone.registered.mem_iff.2 (List.mem_map_of_mem (mem_readers found unfinished))
      have alone : world.store.active.erase session.tx.snapshot = [] := by
        have length := List.length_erase_of_mem member
        have single := lone.single
        exact List.eq_nil_of_length_eq_zero (by omega)
      rcases Transaction.find?_commit unfinished world.store key with ⟨same, _⟩ | ⟨_, recorded⟩
      · exact lone.plain key versions (same.symm.trans stored)
      · have left := recorded.symm.trans stored
        rw [Store.horizon, alone, List.min?_nil, Option.getD_none] at left
        cases written : session.tx.writes.find? key with
        | none =>
          rw [written] at left
          exact lone.plain key versions left
        | some value =>
          rw [written, Option.elim_some, Store.recorded_self] at left
          obtain ⟨bytes, _, same⟩ := Option.map_eq_some_iff.1 left
          exact ⟨_, bytes, same.symm⟩

theorem finish (lone : world.Lone) (found : world.sessions[index]? = some session) :
    (world.finish index session).Lone := by
  refine ⟨lone.registered.finish found, ?_, ?_⟩
  · rw [World.finish, Transaction.finish]
    dsimp only
    split
    · exact lone.single
    · exact Nat.le_trans (List.length_erase_le ..) lone.single
  · rw [World.finish, Transaction.finish]
    dsimp only
    split
    · exact lone.plain
    · exact lone.plain

theorem act (lone : world.Lone) {action : Action}
    (serial : action = .begin → ∀ session ∈ world.sessions, session.tx.finished = true) : (world.act action).Lone := by
  have called (index : Nat) {change : Session Edits → World Edits}
      (keeps : ∀ session, world.sessions[index]? = some session → (change session).Lone) :
      (world.withSession index change).Lone := by
    rcases withSession_cases world index change with same | ⟨session, found, same⟩
    · rwa [same]
    · rw [same]
      exact keeps session found
  have edited (index : Nat) (key : Bytes) (value : Option Bytes) : (world.edit index key value).Lone := by
    rcases edit_cases world index key value with same | ⟨session, found, _, same⟩
    · rwa [same]
    · rw [same]
      exact ⟨lone.registered.step (.revise found _ _), lone.single, lone.plain⟩
  cases action with
  | begin => exact lone.begin (serial rfl)
  | set index key value => exact edited index key (some value)
  | delete index key => exact edited index key none
  | commit index => exact called index fun _ => lone.commit
  | rollback index => exact called index fun _ => lone.finish
  | drop index => exact called index fun _ => lone.finish
  | timestamp =>
    obtain ⟨history, active⟩ := Store.timestamp_frame world.store
    exact ⟨lone.registered.step .timestamp, active.symm ▸ lone.single, history.symm ▸ lone.plain⟩
  | machine limit refusals now => exact ⟨lone.registered, lone.single, lone.plain⟩

theorem run (lone : world.Lone) {actions : List Action} (serial : world.Serial actions) (count : Nat) :
    (world.run (actions.take count)).Lone := by
  induction actions generalizing world count with
  | nil => simpa using lone
  | cons action rest ih =>
    cases count with
    | zero => exact lone
    | succ count => exact ih (lone.act serial.1) serial.2 count

end Lone

theorem lone_opened (entries : List Journal.Entry) (journal : Option Journal.Log) : (opened entries journal).Lone where
  registered := registered_opened entries journal
  single := Nat.zero_le _
  plain := Store.plain_ofEntries entries

theorem versions_bounded (entries : List Journal.Entry) (journal : Option Journal.Log) (actions : List Action) :
    (∀ (index : Nat) (session : Session Edits),
      ((opened entries journal).run actions).sessions[index]? = some session →
      (session.tx.commit ((opened entries journal).run actions).store).1 = .ok () →
      ∀ key value, Table.lookup key session.note = some value →
        Pruned (((opened entries journal).run actions).others index)
          (((opened entries journal).run actions).act (.commit index)).store key value) ∧
    ((opened entries journal).Serial actions → ∀ count,
      let store := ((opened entries journal).run (actions.take count)).store
      store.versionCount = store.keyCount) := by
  constructor
  · intro index session found committed key value noted
    have mirrored := (mirrored_opened entries journal).run actions
    have unfinished := Transaction.open_of_commit committed
    have written := (mirrored.sessions session (List.mem_of_getElem? found) unfinished key).trans noted
    have same : ((opened entries journal).run actions).act (.commit index) =
        ((opened entries journal).run actions).commit index session := by
      rw [World.act, withSession, found]
    rw [same]
    exact ((registered_opened entries journal).run actions).pruned found committed written
  · intro serial count
    exact ((lone_opened entries journal).run serial count).plain.versionCount_eq

-- Transactions 1 and 2 read at the same snapshot.
def twins : List Action := [.begin, .set 0 [1] [10], .commit 0, .begin, .begin, .set 1 [1] [11]]

def twin : Session Edits :=
  { tx := { snapshot := 1, writes := Table.empty.insert [1] (some [11]) }, born := 1, note := [([1], some [11])] }

-- One after another, they put a key, delete it, and delete it again.
def relay : List Action :=
  [.begin, .set 0 [1] [10], .commit 0, .begin, .delete 1 [1], .commit 1, .begin, .delete 2 [1], .commit 2]

theorem versions_bounded_twins : ((opened [] none).run twins).sessions[1]? = some twin ∧
    (twin.tx.commit ((opened [] none).run twins).store).1 = .ok () ∧
    Table.lookup [1] twin.note = some (some [11]) ∧ ((opened [] none).run twins).others 1 = [1] ∧
    Pruned [1] (((opened [] none).run twins).act (.commit 1)).store [1] (some [11]) ∧
    (opened [] none).Serial relay ∧
    ((opened [] none).run (relay.take 3)).store.versionCount =
      ((opened [] none).run (relay.take 3)).store.keyCount := by
  have found : ((opened [] none).run twins).sessions[1]? = some twin := rfl
  have committed : (twin.tx.commit ((opened [] none).run twins).store).1 = .ok () := by decide
  have noted : Table.lookup [1] twin.note = some (some [11]) := by decide
  have others : ((opened [] none).run twins).others 1 = [1] := by decide
  have serial : (opened [] none).Serial relay := by decide
  have pruned := (versions_bounded [] none twins).1 1 twin found committed [1] _ noted
  rw [others] at pruned
  exact ⟨found, committed, noted, others, pruned, serial, (versions_bounded [] none relay).2 serial 3⟩

end World

end FsMeta
