import FsMeta.Proofs.Service.Confined
import FsMeta.Proofs.Store.Run

set_option autoImplicit false

namespace FsMeta.Crew

variable {τ : Type}

/-- What can happen next. A task may be interrupted, calls below it may fail, and the journal may become
what it likes. -/
inductive Event (τ : Type) where
  | begin
  | perform (index : Nat) (task : τ) (interrupts : Interrupts) (schedule : Schedule) (loose : Bool)
  | commit (index : Nat)
  | rollback (index : Nat)
  | timestamp
  | journal (journal : Option Journal.Log)

section

variable (perform : τ → Scoped Unit)

def attempt (world : World (Option τ)) (index : Nat) (session : Session (Option τ)) (task : τ)
    (storage : Storage) (scope : Scope) : World (Option τ) :=
  match (perform task).run storage scope with
  | (.ok (), scope) => world.revise index { session with tx := scope.tx, note := some task }
  | (.error _, _) => world.finish index session

-- Each transaction runs one task only.
def idle (session : Session (Option τ)) : Bool := !session.tx.finished && session.note.isNone

def act (world : World (Option τ)) : Event τ → World (Option τ)
  | .begin => world.begin none
  | .perform index task interrupts schedule loose =>
    match world.sessions[index]?.filter idle with
    | some session =>
      attempt perform world index session task { store := world.store, loose }
        { tx := session.tx, interrupts, schedule }
    | none => world
  | .commit index =>
    match world.sessions[index]? with
    | some session => world.commit index session
    | none => world
  | .rollback index =>
    match world.sessions[index]? with
    | some session => world.finish index session
    | none => world
  | .timestamp => world.timestamp
  | .journal journal => world.withJournal journal

def run (world : World (Option τ)) (events : List (Event τ)) : World (Option τ) :=
  events.foldl (act perform) world

def Steady : World (Option τ) → List (Event τ) → Prop
  | _, [] => True
  | world, event :: rest =>
    world.store.clock ≤ (act perform world event).store.clock ∧ Steady (act perform world event) rest

instance decidableSteady : (world : World (Option τ)) → (events : List (Event τ)) →
    Decidable (Steady perform world events)
  | _, [] => isTrue trivial
  | world, event :: rest =>
    have := decidableSteady (act perform world event) rest
    inferInstanceAs (Decidable (_ ≤ _ ∧ _))

variable {perform}

theorem clock_act (world : World (Option τ)) (event : Event τ) :
    (act perform world event).store.clock = world.store.clock ∨
      (act perform world event).store.clock = world.store.clock + 1 := by
  cases event with
  | begin => exact .inl rfl
  | perform index task interrupts schedule loose =>
    rw [act]
    split
    · rw [attempt]
      split
      · exact .inl rfl
      · exact .inl (Transaction.clock_finish _ _)
    · exact .inl rfl
  | commit index =>
    rw [act]
    split
    · exact Transaction.clock_commit _ _
    · exact .inl rfl
  | rollback index =>
    rw [act]
    split
    · exact .inl (Transaction.clock_finish _ _)
    · exact .inl rfl
  | timestamp => exact .inr (Store.clock_timestamp _)
  | journal journal => exact .inl rfl

theorem steady_of_length_lt {world : World (Option τ)} {events : List (Event τ)}
    (short : world.store.clock.toNat + events.length < UInt64.size) : Steady perform world events := by
  induction events generalizing world with
  | nil => trivial
  | cons event rest ih =>
    obtain ⟨forward, room⟩ := World.forward_of_moved (clock_act world event) short
    exact ⟨forward, ih room⟩

end

def opened (entries : List Journal.Entry) (journal : Option Journal.Log) : World (Option τ) :=
  { store := { Store.ofEntries entries with journal } }

def deeds (commits : List (Commit (Option τ))) : List (τ × Writes) :=
  commits.filterMap fun commit => commit.session.note.map (·, commit.writes)

theorem deeds_concat (commits : List (Commit (Option τ))) (commit : Commit (Option τ)) :
    deeds (commits ++ [commit]) = deeds commits ++ (commit.session.note.map (·, commit.writes)).toList := by
  rw [deeds, List.filterMap_append]
  cases note : commit.session.note <;> simp [deeds, note]

theorem deeds_map_fst (commits : List (Commit (Option τ))) :
    (deeds commits).map Prod.fst = commits.filterMap (·.session.note) := by
  rw [deeds, List.map_filterMap]
  congr 1
  funext commit
  cases commit.session.note <;> rfl

def contentsOf (base : Contents) (commits : List (Commit (Option τ))) : Contents :=
  base.after (commits.map Commit.writes)

def Committed (base : Contents) (commits : List (Commit (Option τ)))
    (holds : Contents → τ → List τ → Prop) : Prop :=
  ∀ count commit task, commits[count]? = some commit → commit.session.note = some task →
    holds (contentsOf base (commits.take commit.session.born)) task
      (((commits.take count).drop commit.session.born).filterMap (·.session.note))

inductive Passage (turn : Contents → τ → Writes → Prop) (start : Contents) :
    List (τ × Writes) → Contents → Prop
  | refl : Passage turn start [] start
  | step {since : List (τ × Writes)} {now : Contents} {task : τ} {writes : Writes}
    (passage : Passage turn start since now) (turns : turn now task writes) :
    Passage turn start (since ++ [(task, writes)]) (now.write writes)

theorem Passage.unwritten {turn : Contents → τ → Writes → Prop} {start now : Contents}
    {since : List (τ × Writes)} (passage : Passage turn start since now) {key : Bytes}
    (untouched : ∀ deed ∈ since, deed.2.find? key = none) : now key = start key := by
  induction passage with
  | refl => rfl
  | step _ _ ih =>
    rw [Contents.write_apply, untouched _ List.mem_concat_self]
    exact ih fun deed member => untouched deed (List.mem_append_left _ member)

/-- Tasks that keep a state. A task that began in it does its work on the snapshot; what it has written
by then can be published, if it is fair towards those that were committed since. -/
structure Discipline (perform : τ → Scoped Unit) where
  State : Contents → Prop
  Does : Contents → τ → Writes → Prop
  Fair : Contents → τ → List τ → Prop
  turn : Contents → τ → Writes → Prop
  confined : ∀ task, Scoped.Confined (perform task)
  performs : ∀ old task, State old →
    Scoped.Ensures old (perform task) .empty fun _ writes => Does old task writes
  publishes : ∀ old since now task writes, State old → State now → Passage turn old since now →
    Does old task writes → Fair old task (since.map Prod.fst) →
    (∀ deed ∈ since, ∀ key, (writes.find? key).isSome → deed.2.find? key = none) →
      State (now.write writes) ∧ turn now task writes

namespace Discipline

variable {perform : τ → Scoped Unit} (discipline : Discipline perform) {base : Contents}

def Done (base : Contents) (past : List Writes) (session : Session (Option τ)) : Prop :=
  match session.note with
  | none => session.tx.writes = .empty
  | some task => discipline.State (base.after (past.take session.born)) →
    discipline.Does (base.after (past.take session.born)) task session.tx.writes

structure Tended (base : Contents) (world : World (Option τ)) : Prop where
  sound : World.Sound base world
  sessions : ∀ session ∈ world.sessions, session.tx.finished = false →
    discipline.Done base world.past session
  commits : ∀ commit ∈ world.commits, discipline.Done base world.past commit.session

variable {discipline}

theorem Done.append {past : List Writes} {session : Session (Option τ)}
    (done : discipline.Done base past session) (born : session.born ≤ past.length) (more : List Writes) :
    discipline.Done base (past ++ more) session := by
  rw [Done] at done ⊢
  rwa [List.take_append_of_le_length born]

theorem tended_opened (discipline : Discipline perform) (entries : List Journal.Entry)
    (journal : Option Journal.Log) :
    discipline.Tended (Contents.replay entries) (opened entries journal) where
  sound :=
    { faithful := (World.sound_opened entries journal).faithful
      fresh := by simp [opened] }
  sessions := by simp [opened]
  commits := by simp [opened]

namespace Tended

variable {world : World (Option τ)} {index : Nat} {session : Session (Option τ)}

theorem mem_of_set (changed : Session (Option τ)) (finished : changed.tx.finished = true)
    {other : Session (Option τ)} (member : other ∈ world.sessions.set index changed)
    (unfinished : other.tx.finished = false) : other ∈ world.sessions := by
  rcases List.mem_or_eq_of_mem_set member with member | rfl
  · exact member
  · rw [finished] at unfinished
    cases unfinished

-- Without a commit the transactions can be looked at one by one.
theorem keep (tended : discipline.Tended base world) {next : World (Option τ)} (sound : World.Sound base next)
    (same : next.commits = world.commits)
    (sessions : ∀ session ∈ next.sessions, session.tx.finished = false → session ∈ world.sessions ∨
      discipline.Done base world.past session) : discipline.Tended base next := by
  have past : next.past = world.past := congrArg (List.map Commit.writes) same
  constructor
  · exact sound
  · intro session member unfinished
    rw [past]
    rcases sessions session member unfinished with member | done
    · exact tended.sessions session member unfinished
    · exact done
  · rw [past, same]
    exact tended.commits

theorem finish (tended : discipline.Tended base world) (found : world.sessions[index]? = some session) :
    discipline.Tended base (world.finish index session) := by
  refine tended.keep (tended.sound.finish found) rfl fun other member unfinished => .inl ?_
  exact mem_of_set { session with tx := (session.tx.finish world.store).1 } rfl member unfinished

theorem begin (tended : discipline.Tended base world) : discipline.Tended base (world.begin none) := by
  refine tended.keep (tended.sound.begin none) rfl fun other member _ => ?_
  rcases List.mem_append.1 member with member | member
  · exact .inl member
  · rw [List.mem_singleton.1 member]
    exact .inr rfl

theorem attempt (tended : discipline.Tended base world) (found : world.sessions[index]? = some session)
    (fresh : idle session = true) (task : τ) (interrupts : Interrupts) (schedule : Schedule) (loose : Bool) :
    discipline.Tended base (attempt perform world index session task { store := world.store, loose }
      { tx := session.tx, interrupts, schedule }) := by
  obtain ⟨unfinished, free⟩ : session.tx.finished = false ∧ session.note = none := by
    simpa [idle] using fresh
  let old : Contents := base.after (world.past.take session.born)
  have empty : session.tx.writes = .empty := by
    have done := tended.sessions session (List.mem_of_getElem? found) unfinished
    rwa [Done, free] at done
  have works : Scoped.Ensures old (perform task) .empty fun _ writes =>
      discipline.State old → discipline.Does old task writes := by
    -- Nothing is promised of a task that starts on a state without the invariant, but it still confines itself.
    by_cases state : discipline.State old
    · exact (discipline.performs old task state).mono fun _ _ does _ => does
    · exact (discipline.confined task old .empty).mono fun _ _ _ state' => absurd state' state
  have opens :
      Scoped.Opens { store := world.store, loose } { tx := session.tx, interrupts, schedule } old .empty :=
    ⟨tended.sound.snapshot found unfinished, empty, unfinished⟩
  obtain ⟨written, stays, does⟩ := works _ _ opens
  rw [Crew.attempt]
  split
  · rename_i scope ran
    rw [ran] at stays does
    dsimp only at stays
    rw [stays]
    refine tended.keep (tended.sound.step (.revise found written (some task)) (UInt64.le_refl _)) rfl ?_
    intro other member unfinished
    rcases List.mem_or_eq_of_mem_set member with member | rfl
    · exact .inl member
    · exact .inr (does () rfl)
  · exact tended.finish found

theorem commit (tended : discipline.Tended base world) (found : world.sessions[index]? = some session)
    (forward : world.store.clock ≤ (world.commit index session).store.clock) :
    discipline.Tended base (world.commit index session) := by
  have sound := tended.sound.commit found forward
  have recorded {count : Nat} {commit : Commit (Option τ)} (within : world.commits[count]? = some commit) :
      commit.session.born ≤ world.past.length := by
    obtain ⟨bound, _⟩ := List.getElem?_eq_some_iff.1 within
    have earlier := (tended.sound.fresh count commit within).1
    rw [World.past, List.length_map]
    omega
  have past : ∃ more, (world.commit index session).past = world.past ++ more :=
    ⟨_, by rw [World.past, World.commit, List.map_append, ← World.past]⟩
  obtain ⟨more, past⟩ := past
  cases unfinished : session.tx.finished with
  | true =>
    have same : world.sessions.set index session = world.sessions := by
      obtain ⟨bound, rfl⟩ := List.getElem?_eq_some_iff.1 found
      exact List.set_getElem_self bound
    refine tended.keep sound ?_ fun other member _ => .inl ?_
    · simp only [World.commit, Transaction.commit_finished unfinished, List.append_nil]
    · simpa only [World.commit, Transaction.commit_finished unfinished, same] using member
  | false =>
    have finished := Transaction.commit_tx_finished unfinished world.store
    constructor
    · exact sound
    · intro other member open_
      have member := mem_of_set { session with tx := (session.tx.commit world.store).2.1 } finished member open_
      obtain ⟨place, found⟩ := List.mem_iff_getElem?.1 member
      rw [past]
      exact (tended.sessions other member open_).append (tended.sound.born_le found open_) more
    · intro commit member
      obtain ⟨count, within⟩ := List.getElem?_of_mem member
      rw [past]
      -- The commit is one that was there or that of this session, whose writes were judged when the task ran.
      rcases World.recorded_cases within with ⟨_, earlier⟩ | ⟨_, rfl, _⟩
      · exact (tended.commits commit (List.mem_of_getElem? earlier)).append (recorded earlier) more
      · have done := tended.sessions _ (List.mem_of_getElem? found) unfinished
        exact done.append (tended.sound.born_le found unfinished) more

theorem act (tended : discipline.Tended base world) (event : Event τ)
    (forward : world.store.clock ≤ (act perform world event).store.clock) :
    discipline.Tended base (act perform world event) := by
  cases event with
  | begin => exact tended.begin
  | perform index task interrupts schedule loose =>
    rw [Crew.act]
    split
    · rename_i session kept
      obtain ⟨found, fresh⟩ := Option.filter_eq_some_iff.1 kept
      exact tended.attempt found fresh task interrupts schedule loose
    · exact tended
  | commit index =>
    rw [Crew.act] at forward ⊢
    split
    · rename_i session found
      rw [found] at forward
      exact tended.commit found forward
    · exact tended
  | rollback index =>
    rw [Crew.act]
    split
    · rename_i session found
      exact tended.finish found
    · exact tended
  | timestamp => exact tended.keep (tended.sound.step .timestamp forward) rfl fun _ member _ => .inl member
  | journal journal =>
    exact tended.keep (tended.sound.step (.journal journal) forward) rfl fun _ member _ => .inl member

theorem run (tended : discipline.Tended base world) {events : List (Event τ)}
    (steady : Steady perform world events) : discipline.Tended base (run perform world events) := by
  induction events generalizing world with
  | nil => exact tended
  | cons event rest ih => exact ih (tended.act event steady.1) steady.2

theorem step_state (tended : discipline.Tended base world) (fair : Committed base world.commits discipline.Fair)
    {count : Nat} {commit : Commit (Option τ)} (recorded : world.commits[count]? = some commit)
    (states : ∀ earlier ≤ count, discipline.State (contentsOf base (world.commits.take earlier)))
    (passages : ∀ earlier ≤ count, Passage discipline.turn (contentsOf base (world.commits.take earlier))
      (deeds ((world.commits.take count).drop earlier)) (contentsOf base (world.commits.take count))) :
    let next := (contentsOf base (world.commits.take count)).write commit.writes
    discipline.State next ∧ ∀ earlier ≤ count,
      Passage discipline.turn (contentsOf base (world.commits.take earlier))
        (deeds ((world.commits.take count).drop earlier ++ [commit])) next := by
  intro next
  obtain ⟨born, untouched⟩ := tended.sound.fresh count commit recorded
  have done := tended.commits commit (List.mem_of_getElem? recorded)
  have past : world.past.take commit.session.born =
      (world.commits.take commit.session.born).map Commit.writes := by
    rw [World.past, List.map_take]
  rw [Discipline.Done, past] at done
  -- A commit that no task stands behind is bare. Any other was prepared on the state it was born in, and nothing
  -- that it writes or guards has been touched since; the discipline says what it may then publish.
  cases note : commit.session.note with
  | none =>
    rw [note] at done
    have same : next = contentsOf base (world.commits.take count) :=
      Contents.write_of_isEmpty _ (by rw [Commit.writes, done]; rfl)
    rw [same]
    refine ⟨states count (Nat.le_refl _), fun earlier within => ?_⟩
    have passage := passages earlier within
    rwa [deeds_concat, note, Option.map_none, Option.toList_none, List.append_nil]
  | some task =>
    rw [note] at done
    have old := states _ born
    have published := discipline.publishes _ _ _ task commit.writes old (states count (Nat.le_refl _))
      (passages _ born) (done old) ?_ ?_
    · refine ⟨published.1, fun earlier within => ?_⟩
      rw [deeds_concat, note]
      exact (passages earlier within).step published.2
    · rw [deeds_map_fst]
      exact fair count commit task recorded note
    · intro deed member key written
      obtain ⟨other, listed, same⟩ := List.mem_filterMap.1 member
      obtain ⟨_, _, rfl⟩ := Option.map_eq_some_iff.1 same
      apply untouched other.writes _ key written
      rw [World.past, ← List.map_take, ← List.map_drop]
      exact List.mem_map_of_mem listed

theorem state_take (tended : discipline.Tended base world) (start : discipline.State base)
    (fair : Committed base world.commits discipline.Fair) {count : Nat} (bound : count ≤ world.commits.length) :
    (∀ earlier ≤ count, discipline.State (contentsOf base (world.commits.take earlier))) ∧
      ∀ earlier ≤ count, Passage discipline.turn (contentsOf base (world.commits.take earlier))
        (deeds ((world.commits.take count).drop earlier)) (contentsOf base (world.commits.take count)) := by
  -- By induction on the commits: the states of all earlier ones are needed, as a task may be that old.
  induction count with
  | zero =>
    constructor
    · intro earlier within
      rw [Nat.le_zero.1 within]
      exact start
    · intro earlier within
      rw [Nat.le_zero.1 within]
      exact .refl
  | succ count ih =>
    obtain ⟨states, passages⟩ := ih (Nat.le_of_succ_le bound)
    have recorded : world.commits[count]? = some world.commits[count] := List.getElem?_eq_getElem bound
    obtain ⟨state, turns⟩ := tended.step_state fair recorded states passages
    have all : world.commits.take (count + 1) = world.commits.take count ++ [world.commits[count]] :=
      (List.take_append_getElem bound).symm
    have contents : contentsOf base (world.commits.take (count + 1)) =
        (contentsOf base (world.commits.take count)).write world.commits[count].writes := by
      rw [all, contentsOf, List.map_append, Contents.after_append]
      rfl
    constructor
    · intro earlier within
      rcases Nat.le_succ_iff.1 within with less | rfl
      · exact states earlier less
      · rw [contents]
        exact state
    · intro earlier within
      rcases Nat.le_succ_iff.1 within with less | rfl
      · have length : earlier ≤ (world.commits.take count).length := by
          rw [List.length_take]
          omega
        rw [contents, all, List.drop_append_of_le_length length]
        exact turns earlier less
      · have nothing : (world.commits.take (count + 1)).drop (count + 1) = [] := by
          rw [List.drop_eq_nil_iff, List.length_take]
          omega
        rw [nothing]
        exact .refl

end Tended

theorem state_run (entries : List Journal.Entry) (journal : Option Journal.Log) {events : List (Event τ)}
    (steady : Steady perform (opened entries journal) events)
    (start : discipline.State (Contents.replay entries))
    (fair : Committed (Contents.replay entries) (run perform (opened entries journal) events).commits
      discipline.Fair) :
    discipline.State (run perform (opened entries journal) events).store.committed := by
  have tended := (discipline.tended_opened entries journal).run steady
  have states := (tended.state_take start fair (Nat.le_refl _)).1 _ (Nat.le_refl _)
  rw [tended.sound.committed]
  rwa [List.take_length] at states

end Discipline

end FsMeta.Crew
