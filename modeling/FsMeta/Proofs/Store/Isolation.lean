import FsMeta.Proofs.Store.Run

set_option autoImplicit false

namespace FsMeta

namespace World

variable {base : Contents} {world : World Edits} {index : Nat} {session : Session Edits}

structure Mirrored (world : World Edits) : Prop where
  sessions : ∀ session ∈ world.sessions, session.tx.finished = false →
    ∀ key, session.tx.writes.find? key = Table.lookup key session.note
  commits : ∀ commit ∈ world.commits,
    ∀ key, commit.writes.find? key = Table.lookup key commit.session.note

namespace Mirrored

theorem set_finished (mirrored : Mirrored world) {changed : Session Edits}
    (finished : changed.tx.finished = true) :
    ∀ session ∈ world.sessions.set index changed, session.tx.finished = false →
      ∀ key, session.tx.writes.find? key = Table.lookup key session.note := by
  intro session member unfinished
  rcases List.mem_or_eq_of_mem_set member with member | rfl
  · exact mirrored.sessions session member unfinished
  · rw [finished] at unfinished
    cases unfinished

theorem edit (mirrored : Mirrored world) (index : Nat) (key : Bytes) (value : Option Bytes) :
    Mirrored (world.edit index key value) := by
  rcases edit_cases world index key value with same | ⟨session, found, unfinished, same⟩
  · rwa [same]
  · rw [same]
    constructor
    · intro changed member open_ other
      rcases List.mem_or_eq_of_mem_set member with member | rfl
      · exact mirrored.sessions changed member open_ other
      · have before := mirrored.sessions session (List.mem_of_getElem? found) unfinished other
        simp only [Table.find?_insert, before, Table.lookup_cons]
        by_cases same : other = key <;> simp [same, Ne.symm]
    · exact mirrored.commits

theorem finish (mirrored : Mirrored world) (index : Nat) :
    Mirrored (world.withSession index (world.finish index)) := by
  rcases withSession_cases world index (world.finish index) with same | ⟨session, found, same⟩
  · rwa [same]
  · rw [same]
    exact ⟨mirrored.set_finished rfl, mirrored.commits⟩

theorem commit (mirrored : Mirrored world) (index : Nat) :
    Mirrored (world.withSession index (world.commit index)) := by
  rcases withSession_cases world index (world.commit index) with same | ⟨session, found, same⟩
  · rwa [same]
  rw [same]
  cases unfinished : session.tx.finished with
  | true =>
    simp only [World.commit, Transaction.commit_finished unfinished, List.append_nil]
    exact ⟨mirrored.set_finished unfinished, mirrored.commits⟩
  | false =>
    have finished := Transaction.commit_tx_finished unfinished world.store
    constructor
    · exact mirrored.set_finished finished
    · intro commit member
      obtain ⟨count, recorded⟩ := List.getElem?_of_mem member
      rcases recorded_cases recorded with ⟨_, earlier⟩ | ⟨_, rfl, _⟩
      · exact mirrored.commits commit (List.mem_of_getElem? earlier)
      · exact mirrored.sessions commit.session (List.mem_of_getElem? found) unfinished

theorem act (mirrored : Mirrored world) (action : Action) : Mirrored (world.act action) := by
  cases action with
  | begin =>
    constructor
    · intro session member unfinished
      rcases List.mem_append.1 member with member | member
      · exact mirrored.sessions session member unfinished
      · rw [List.mem_singleton.1 member]
        intro key
        rfl
    · exact mirrored.commits
  | set index key value => exact mirrored.edit index key (some value)
  | delete index key => exact mirrored.edit index key none
  | commit index => exact mirrored.commit index
  | rollback index => exact mirrored.finish index
  | drop index => exact mirrored.finish index
  | timestamp => exact ⟨mirrored.sessions, mirrored.commits⟩
  | machine limit refusals now => exact ⟨mirrored.sessions, mirrored.commits⟩

theorem run (mirrored : Mirrored world) (actions : List Action) : Mirrored (world.run actions) := by
  induction actions generalizing world with
  | nil => exact mirrored
  | cons action rest ih => exact ih (mirrored.act action)

end Mirrored

theorem mirrored_opened (entries : List Journal.Entry) (journal : Option Journal.Log) :
    Mirrored (opened entries journal) := by
  constructor <;> simp [opened]

theorem foldl_edit_eq_after {commits : List (Commit Edits)}
    (mirrored : ∀ commit ∈ commits, ∀ key, commit.writes.find? key = Table.lookup key commit.session.note)
    (contents : Contents) :
    commits.foldl (fun contents commit => contents.edit commit.session.note) contents =
      contents.after (commits.map Commit.writes) := by
  induction commits generalizing contents with
  | nil => rfl
  | cons commit rest ih =>
    have same : contents.edit commit.session.note = contents.write commit.writes := by
      funext key
      rw [Contents.edit, Contents.write, mirrored commit List.mem_cons_self key]
    rw [List.foldl_cons, same, ih fun later member => mirrored later (List.mem_cons_of_mem _ member)]
    rfl

theorem reads_eq_expected (sound : Sound base world) (mirrored : Mirrored world)
    (found : world.sessions[index]? = some session) (unfinished : session.tx.finished = false) :
    session.tx.reads world.store = expected base world session := by
  have own := mirrored.sessions session (List.mem_of_getElem? found) unfinished
  have commits : ∀ commit ∈ world.commits.take session.born,
      ∀ key, commit.writes.find? key = Table.lookup key commit.session.note :=
    fun commit member => mirrored.commits commit (List.mem_of_mem_take member)
  funext key
  rw [sound.reads found unfinished, expected, foldl_edit_eq_after commits, Contents.edit,
    Contents.write_apply, own key, past, List.map_take]

theorem Step.commits {next : World Edits} (step : Step world next) :
    ∃ more, next.commits = world.commits ++ more := by
  cases step with
  | commit found => exact ⟨_, rfl⟩
  | _ => exact ⟨[], (List.append_nil _).symm⟩

theorem commits_run (world : World Edits) (actions : List Action) :
    ∃ more, (world.run actions).commits = world.commits ++ more := by
  induction actions generalizing world with
  | nil => exact ⟨[], (List.append_nil _).symm⟩
  | cons action rest ih =>
    obtain ⟨more, later⟩ := ih (world.act action)
    rcases act_step world action with same | step
    · exact ⟨more, by rw [run_cons, later, same]⟩
    · obtain ⟨first, added⟩ := step.commits
      exact ⟨first ++ more, by rw [run_cons, later, added, List.append_assoc]⟩

theorem sessions_act (found : world.sessions[index]? = some session) {action : Action}
    (other : action.session? ≠ some index) : (world.act action).sessions[index]? = some session := by
  have called (place : Nat) (differ : place ≠ index) {change : Session Edits → World Edits}
      (sets : ∀ called, ∃ changed, (change called).sessions = world.sessions.set place changed) :
      (world.withSession place change).sessions[index]? = some session := by
    rcases withSession_cases world place change with same | ⟨session, _, same⟩
    · rw [same, found]
    · obtain ⟨changed, set⟩ := sets session
      rw [same, set, List.getElem?_set_ne differ, found]
  have edited (place : Nat) (differ : place ≠ index) (key : Bytes) (value : Option Bytes) :
      (world.edit place key value).sessions[index]? = some session := by
    rcases edit_cases world place key value with same | ⟨session, _, _, same⟩
    · rw [same, found]
    · rw [same, revise, List.getElem?_set_ne differ, found]
  have differ (place : Nat) (calls : action.session? = some place) : place ≠ index :=
    fun same => other (same ▸ calls)
  cases action with
  | begin =>
    have bound := (List.getElem?_eq_some_iff.1 found).1
    exact (List.getElem?_append_left bound).trans found
  | set place key value => exact edited place (differ place rfl) key (some value)
  | delete place key => exact edited place (differ place rfl) key none
  | commit place => exact called place (differ place rfl) fun _ => ⟨_, rfl⟩
  | rollback place => exact called place (differ place rfl) fun _ => ⟨_, rfl⟩
  | drop place => exact called place (differ place rfl) fun _ => ⟨_, rfl⟩
  | timestamp => exact found
  | machine limit refusals now => exact found

theorem sessions_run (found : world.sessions[index]? = some session) {actions : List Action}
    (others : ∀ action ∈ actions, action.session? ≠ some index) :
    (world.run actions).sessions[index]? = some session := by
  induction actions generalizing world with
  | nil => exact found
  | cons action rest ih =>
    have first := sessions_act found (others action List.mem_cons_self)
    exact ih first fun later member => others later (List.mem_cons_of_mem _ member)

theorem expected_run (sound : Sound base world) (found : world.sessions[index]? = some session)
    (unfinished : session.tx.finished = false) (actions : List Action) :
    expected base (world.run actions) session = expected base world session := by
  obtain ⟨more, later⟩ := commits_run world actions
  have bound : session.born ≤ world.commits.length := by
    have bound := sound.born_le found unfinished
    rwa [past, List.length_map] at bound
  rw [expected, expected, later, List.take_append_of_le_length bound]

theorem snapshot_isolation (entries : List Journal.Entry) (journal : Option Journal.Log)
    (actions : List Action) (steady : (opened entries journal).Steady actions)
    (found : ((opened entries journal).run actions).sessions[index]? = some session)
    (unfinished : session.tx.finished = false) :
    let world := (opened entries journal).run actions
    let visible := expected (Contents.replay entries) world session
    (∀ key, session.tx.get world.store key = .ok (visible key)) ∧
    (∀ start stop, ∃ pairs, session.tx.iterate world.store start stop = .ok pairs ∧
      Table.Ascending pairs ∧ ∀ key value, (key, value) ∈ pairs ↔
        visible key = some value ∧ start ≤ key ∧ ∀ bound, stop = some bound → key < bound) ∧
    (∀ more, (∀ action ∈ more, action.session? ≠ some index) → world.Steady more →
      (world.run more).sessions[index]? = some session ∧
      (∀ key, session.tx.get (world.run more).store key = session.tx.get world.store key) ∧
      ∀ start stop, session.tx.iterate (world.run more).store start stop =
        session.tx.iterate world.store start stop) := by
  intro world visible
  have sound : Sound (Contents.replay entries) world := (sound_opened entries journal).run actions steady
  have mirrored : Mirrored world := (mirrored_opened entries journal).run actions
  have reads : session.tx.reads world.store = visible :=
    reads_eq_expected sound mirrored found unfinished
  refine ⟨fun key => ?_, fun start stop => ?_, fun more others steadyMore => ?_⟩
  · rw [Transaction.get_of_open unfinished, reads]
  · obtain ⟨pairs, listed, ascending, members⟩ :=
      Transaction.iterate_of_open unfinished world.store start stop
    exact ⟨pairs, listed, ascending, fun key value => by rw [members, reads]⟩
  · have later := sessions_run found others
    have same : session.tx.reads (world.run more).store = session.tx.reads world.store := by
      rw [reads, reads_eq_expected (sound.run more steadyMore) (mirrored.run more) later unfinished]
      exact expected_run sound found unfinished more
    refine ⟨later, fun key => ?_, fun start stop => Transaction.iterate_congr same start stop⟩
    rw [Transaction.get_of_open unfinished, Transaction.get_of_open unfinished, same]

-- While transaction 1 is open, transaction 2 deletes a key and writes another one.
def overlap : List Action :=
  [.begin, .set 0 [1] [10], .commit 0, .begin, .set 1 [2] [21],
    .begin, .delete 2 [1], .set 2 [2] [22], .commit 2]

theorem snapshot_isolation_overlap :
    ∃ session, ((opened [] none).run overlap).sessions[1]? = some session ∧
      session.tx.get ((opened [] none).run overlap).store [1] = .ok (some [10]) ∧
      session.tx.get ((opened [] none).run overlap).store [2] = .ok (some [21]) := by
  have bound : 1 < ((opened [] none).run overlap).sessions.length := by decide
  have found := List.getElem?_eq_getElem bound
  have isolated := snapshot_isolation [] none overlap (by decide) found rfl
  exact ⟨_, found, isolated.1 [1], isolated.1 [2]⟩

def Overtaken (commits : List (Commit Edits)) (edits : Edits) : Prop :=
  ∃ commit ∈ commits, ∃ key,
    (Table.lookup key commit.session.note).isSome ∧ (Table.lookup key edits).isSome

theorem overtaken?_ne_none_iff (sound : Sound base world) (mirrored : Mirrored world)
    (found : world.sessions[index]? = some session) (unfinished : session.tx.finished = false) :
    world.store.overtaken? session.tx ≠ none ↔
      Overtaken (world.commits.drop session.born) session.note := by
  have own := mirrored.sessions session (List.mem_of_getElem? found) unfinished
  rw [sound.faithful.overtaken?_ne_none_iff (mem_readers found unfinished), past, ← List.map_drop,
    Overtaken]
  simp only [List.mem_map, exists_exists_and_eq_and, own]
  refine exists_congr fun commit => and_congr_right fun member => exists_congr fun key => ?_
  rw [mirrored.commits commit (List.mem_of_mem_drop member) key]

theorem writes_isEmpty_iff (mirrored : Mirrored world)
    (found : world.sessions[index]? = some session) (unfinished : session.tx.finished = false) :
    session.tx.writes.entries.isEmpty ↔ session.note = [] := by
  have own := mirrored.sessions session (List.mem_of_getElem? found) unfinished
  constructor
  · intro bare
    cases edits : session.note with
    | nil => rfl
    | cons edit rest =>
      have written := own edit.1
      rw [Table.find?_eq_none_of_isEmpty bare, edits, Table.lookup_cons] at written
      simp at written
  · intro unedited
    by_contra filled
    obtain ⟨key, value, written⟩ := Table.exists_find?_of_not_isEmpty (Bool.eq_false_iff.2 filled)
    rw [own key, unedited] at written
    cases written

theorem unedited_between (sound : Sound base world) (mirrored : Mirrored world) {count : Nat}
    {commit : Commit Edits} (recorded : world.commits[count]? = some commit) {key : Bytes}
    (edited : (Table.lookup key commit.session.note).isSome) :
    ∃ between, world.commits.take count = world.commits.take commit.session.born ++ between ∧
      ∀ other ∈ between, Table.lookup key other.session.note = none := by
  obtain ⟨earlier, unwritten⟩ := sound.fresh count commit recorded
  refine ⟨(world.commits.take count).drop commit.session.born, ?_, fun other member => ?_⟩
  · have split := List.take_append_drop commit.session.born (world.commits.take count)
    rwa [List.take_take, Nat.min_eq_left earlier, eq_comm] at split
  · have written : (commit.writes.find? key).isSome := by
      rwa [mirrored.commits commit (List.mem_of_getElem? recorded) key]
    have known := List.mem_of_mem_take (List.mem_of_mem_drop member)
    rw [← mirrored.commits other known key]
    refine unwritten other.writes ?_ key written
    rw [past, ← List.map_take, ← List.map_drop]
    exact List.mem_map_of_mem member

theorem first_committer_wins (entries : List Journal.Entry) (journal : Option Journal.Log)
    (actions : List Action) (steady : (opened entries journal).Steady actions) :
    let world := (opened entries journal).run actions
    (∀ (index : Nat) (session : Session Edits), world.sessions[index]? = some session →
      session.tx.finished = false →
      let ended := session.tx.commit world.store
      let conflict := ∃ error, ended.1 = .error error ∧ error.kind = .conflict
      let overtaken := Overtaken (world.commits.drop session.born) session.note
      (conflict ↔ overtaken) ∧
      (session.note = [] → ended.1 = .ok ()) ∧
      ((world.store.logged session.tx).1 = .ok () → (ended.1 = .ok () ↔ ¬ overtaken)) ∧
      (conflict → (∀ time, ended.2.2.readAt time = world.store.readAt time) ∧
        ended.2.2.committed = world.store.committed)) ∧
    (∀ (count : Nat) (commit : Commit Edits), world.commits[count]? = some commit →
      ∀ key, (Table.lookup key commit.session.note).isSome →
        versionOf (world.commits.take commit.session.born) key =
          versionOf (world.commits.take count) key) := by
  intro world
  have sound : Sound (Contents.replay entries) world := (sound_opened entries journal).run actions steady
  have mirrored : Mirrored world := (mirrored_opened entries journal).run actions
  constructor
  · intro index session found unfinished ended conflict overtaken
    -- The store goes by versions and the statement by the commits since the session began; these agree.
    have late : world.store.overtaken? session.tx ≠ none ↔ overtaken :=
      overtaken?_ne_none_iff sound mirrored found unfinished
    have iff : conflict ↔ overtaken :=
      (Transaction.commit_conflict_iff unfinished world.store).trans late
    refine ⟨iff, fun unedited => ?_, fun logged => ⟨fun committed => ?_, fun clear => ?_⟩, fun conflict => ?_⟩
    · have idle := (writes_isEmpty_iff mirrored found unfinished).2 unedited
      exact Transaction.commit_of_isEmpty unfinished idle world.store
    · rw [← late, not_not]
      exact Transaction.clear_of_commit unfinished committed
    · rw [← late, not_not] at clear
      exact Transaction.commit_of_logged unfinished clear logged
    · exact Transaction.conflict_keeps unfinished conflict
  · intro count commit recorded key edited
    obtain ⟨between, split, unedited⟩ := unedited_between sound mirrored recorded edited
    have silent : between.countP (fun other => (Table.lookup key other.session.note).isSome) = 0 := by
      rw [List.countP_eq_zero]
      intro other member
      simp [unedited other member]
    rw [split, versionOf, versionOf, List.countP_append, silent, Nat.add_zero]

theorem first_committer_wins_overlap :
    ∃ session, ((opened [] none).run overlap).sessions[1]? = some session ∧
      ∃ error, (session.tx.commit ((opened [] none).run overlap).store).1 = .error error ∧
        error.kind = .conflict := by
  have bound : 1 < ((opened [] none).run overlap).sessions.length := by decide
  have found := List.getElem?_eq_getElem bound
  have wins := (first_committer_wins [] none overlap (by decide)).1 1 _ found rfl
  have later : 0 < (((opened [] none).run overlap).commits.drop 1).length := by decide
  exact ⟨_, found, wins.1.2 ⟨_, List.getElem_mem later, [2], rfl, rfl⟩⟩

end World

end FsMeta
