import FsMeta.Proofs.Store.Crew
import FsMeta.Proofs.Stored

set_option autoImplicit false

namespace FsMeta.Crew

variable {τ : Type} {perform : τ → Scoped Unit}

def Meet (one two : Writes) : Prop := ∃ key, (one.find? key).isSome ∧ (two.find? key).isSome

theorem Meet.comm {one two : Writes} : Meet one two ↔ Meet two one :=
  exists_congr fun _ => and_comm

theorem meet_apply {edits others : List (Key × Option Bytes)} :
    Meet (.apply .empty edits) (.apply .empty others) ↔
      ∃ key : Key, (∃ value, (key, value) ∈ edits) ∧ ∃ value, (key, value) ∈ others := by
  have touches (listed : List (Key × Option Bytes)) (key : Key) :
      ((Writes.apply .empty listed).find? key.bytes).isSome ↔ ∃ value, (key, value) ∈ listed := by
    refine Writes.touch_apply.trans (or_iff_left fun touch => ?_)
    cases touch
  constructor
  · rintro ⟨bytes, one, two⟩
    obtain ⟨⟨key, value⟩, _, rfl⟩ := (Writes.exists_of_find?_apply one).resolve_right (by simp)
    exact ⟨key, (touches edits key).1 one, (touches others key).1 two⟩
  · rintro ⟨key, one, two⟩
    exact ⟨key.bytes, (touches edits key).2 one, (touches others key).2 two⟩

def Event.Quiet : Event τ → Prop
  | .commit _ => False
  | _ => True

instance Event.decidableQuiet (event : Event τ) : Decidable event.Quiet :=
  match event with
  | .commit _ => isFalse id
  | .begin | .perform .. | .rollback _ | .timestamp | .journal _ => isTrue trivial

theorem commits_act_of_quiet (world : World (Option τ)) {event : Event τ} (quiet : event.Quiet) :
    (act perform world event).commits = world.commits := by
  cases event with
  | begin => rfl
  | perform index task interrupts schedule loose =>
    rw [act]
    split
    · rw [attempt]
      split <;> rfl
    · rfl
  | commit index => cases quiet
  | rollback index =>
    rw [act]
    split <;> rfl
  | timestamp => rfl
  | journal journal => rfl

theorem commits_run_of_quiet (world : World (Option τ)) {events : List (Event τ)}
    (quiet : ∀ event ∈ events, event.Quiet) : (run perform world events).commits = world.commits := by
  induction events generalizing world with
  | nil => rfl
  | cons event rest ih =>
    obtain ⟨first, others⟩ := List.forall_mem_cons.1 quiet
    exact (ih _ others).trans (commits_act_of_quiet world first)

theorem steady_append {world : World (Option τ)} {events more : List (Event τ)}
    (steady : Steady perform world (events ++ more)) :
    Steady perform world events ∧ Steady perform (run perform world events) more := by
  induction events generalizing world with
  | nil => exact ⟨trivial, steady⟩
  | cons event rest ih =>
    obtain ⟨before, after⟩ := ih steady.2
    exact ⟨⟨steady.1, before⟩, after⟩

def untold (confined : ∀ task, Scoped.Confined (perform task)) : Discipline perform where
  State _ := True
  Does old task writes :=
    ∀ post : Writes → Prop, Scoped.Ensures old (perform task) .empty (fun _ => post) → post writes
  Fair _ _ _ := True
  turn _ _ _ := True
  confined := confined
  performs old task _ := by
    intro storage scope opens
    obtain ⟨written, stays, _⟩ := confined task old .empty storage scope opens
    refine ⟨written, stays, fun value ran post ensures => ?_⟩
    obtain ⟨again, same, holds⟩ := ensures storage scope opens
    have equal : again = written := congrArg Transaction.writes (same.symm.trans stays)
    exact equal ▸ holds value ran
  publishes _ _ _ _ _ _ _ _ _ _ _ := ⟨trivial, trivial⟩

def Ran (perform : τ → Scoped Unit) (session : Session (Option τ)) (action : Scoped Unit) : Prop :=
  ∃ task, session.note = some task ∧ perform task = action

def meanwhile (perform : τ → Scoped Unit) (world : World (Option τ)) (first : Nat) (between : List (Event τ)) :
    World (Option τ) :=
  run perform (act perform world (.commit first)) between

theorem run_commit (world : World (Option τ)) (events between : List (Event τ)) (first : Nat) :
    run perform world (events ++ .commit first :: between) =
      meanwhile perform (run perform world events) first between := List.foldl_append

/-- Two transactions are open on the same state. Nothing was committed since when the first commits, nor
anything else until the second does. What each has to do may be done at any time before it commits. -/
structure Rivals (perform : τ → Scoped Unit) (world : World (Option τ)) (first second : Nat)
    (between : List (Event τ)) (one two : Session (Option τ)) : Prop where
  leads : world.sessions[first]? = some one
  trails : (meanwhile perform world first between).sessions[second]? = some two
  quiet : ∀ event ∈ between, event.Quiet
  opened : one.tx.finished = false ∧ two.tx.finished = false
  born : one.born = world.commits.length ∧ two.born = world.commits.length

theorem logged_of_unjournaled {store : Store} (unjournaled : store.journal = none) (tx : Transaction) :
    (store.logged tx).1 = .ok () := by
  rw [Store.logged, Store.log, unjournaled]

section

variable {entries : List Journal.Entry} {journal : Option Journal.Log} {events between : List (Event τ)}

theorem exists_rivals {first second : Nat} {task other : τ} (quiet : ∀ event ∈ events ++ between, event.Quiet)
    (before : (run perform (opened entries journal) events).sessions[first]?.map
      (fun session => (session.note, session.born, session.tx.finished)) = some (some task, 0, false))
    (after : (meanwhile perform (run perform (opened entries journal) events) first between).sessions[second]?.map
      (fun session => (session.note, session.born, session.tx.finished)) = some (some other, 0, false)) :
    ∃ one two, Rivals perform (run perform (opened entries journal) events) first second between one two ∧
      one.note = some task ∧ two.note = some other := by
  obtain ⟨one, leads, known⟩ := Option.map_eq_some_iff.1 before
  obtain ⟨two, trails, also⟩ := Option.map_eq_some_iff.1 after
  simp only [Prod.mk.injEq] at known also
  obtain ⟨earlier, later⟩ := List.forall_mem_append.1 quiet
  have uncommitted : (run perform (opened entries journal) events).commits = [] :=
    commits_run_of_quiet _ earlier
  refine ⟨one, two, ⟨leads, trails, later, ⟨known.2.2, also.2.2⟩, ?_⟩, known.1, also.1⟩
  rw [uncommitted]
  exact ⟨known.2.1, also.2.1⟩

end

namespace Rivals

variable {base : Contents} {world : World (Option τ)} {first second : Nat} {between : List (Event τ)}
variable {one two : Session (Option τ)}
variable (rivals : Rivals perform world first second between one two)
include rivals

theorem clear (sound : World.Sound base world) : world.store.overtaken? one.tx = none := by
  by_contra late
  obtain ⟨writes, since, _⟩ :=
    (sound.faithful.overtaken?_ne_none_iff (World.mem_readers rivals.leads rivals.opened.1)).1 late
  rw [rivals.born.1, World.past, ← List.length_map Commit.writes, List.drop_length] at since
  cases since

theorem commits (succeeds : (one.tx.commit world.store).1 = .ok ()) :
    ∃ commit : Commit (Option τ), commit.session = one ∧
      (meanwhile perform world first between).commits = world.commits ++ [commit] := by
  refine ⟨{ session := one, journalEnd := (one.tx.commit world.store).2.2.journalLength }, rfl, ?_⟩
  rw [meanwhile, commits_run_of_quiet _ rivals.quiet, act, rivals.leads]
  simp only [World.commit, succeeds]

theorem past (succeeds : (one.tx.commit world.store).1 = .ok ()) :
    (meanwhile perform world first between).past = world.past ++ [one.tx.writes] := by
  obtain ⟨commit, rfl, commits⟩ := rivals.commits succeeds
  rw [World.past, commits, List.map_append]
  rfl

theorem overtaken_iff (sound : World.Sound base (meanwhile perform world first between))
    (succeeds : (one.tx.commit world.store).1 = .ok ()) :
    (meanwhile perform world first between).store.overtaken? two.tx ≠ none ↔
      Meet one.tx.writes two.tx.writes := by
  have since : (world.past ++ [one.tx.writes]).drop two.born = [one.tx.writes] := by
    rw [rivals.born.2, World.past, ← List.length_map Commit.writes, List.drop_left]
  rw [sound.faithful.overtaken?_ne_none_iff (World.mem_readers rivals.trails rivals.opened.2),
    rivals.past succeeds, since]
  simp [Meet]

theorem settle (sound : World.Sound base world) (later : World.Sound base (meanwhile perform world first between))
    (logged : (world.store.logged one.tx).1 = .ok ()) :
    let last := meanwhile perform world first between
    let conflict := ∃ error, (two.tx.commit last.store).1 = .error error ∧ error.kind = .conflict
    (one.tx.commit world.store).1 = .ok () ∧ (conflict ↔ Meet one.tx.writes two.tx.writes) ∧
      (¬ conflict → (last.store.logged two.tx).1 = .ok () → (two.tx.commit last.store).1 = .ok ()) ∧
      (conflict → (act perform last (.commit second)).store.committed =
        world.store.committed.write one.tx.writes) := by
  intro last conflict
  have succeeds : (one.tx.commit world.store).1 = .ok () :=
    Transaction.commit_of_logged rivals.opened.1 (rivals.clear sound) logged
  have late : conflict ↔ last.store.overtaken? two.tx ≠ none :=
    Transaction.commit_conflict_iff rivals.opened.2 last.store
  refine ⟨succeeds, late.trans (rivals.overtaken_iff later succeeds), fun clear accepted => ?_, fun conflict => ?_⟩
  · rw [late, not_not] at clear
    exact Transaction.commit_of_logged rivals.opened.2 clear accepted
  · have found : last.sessions[second]? = some two := rivals.trails
    have kept : (act perform last (.commit second)).store.committed = last.store.committed := by
      rw [act, found]
      exact (Transaction.conflict_keeps rivals.opened.2 conflict).2
    rw [kept, later.committed, rivals.past succeeds, sound.committed]
    exact Contents.after_append base world.past [one.tx.writes]

theorem committed_both (sound : World.Sound base world)
    (later : World.Sound base (meanwhile perform world first between))
    (succeeds : (one.tx.commit world.store).1 = .ok ())
    (also : (two.tx.commit (meanwhile perform world first between).store).1 = .ok ())
    (forward : (meanwhile perform world first between).store.clock ≤
      (act perform (meanwhile perform world first between) (.commit second)).store.clock) :
    (act perform (meanwhile perform world first between) (.commit second)).store.committed =
      (world.store.committed.write one.tx.writes).write two.tx.writes := by
  have committing : act perform (meanwhile perform world first between) (.commit second) =
      (meanwhile perform world first between).commit second two := by
    rw [act, rivals.trails]
  rw [committing] at forward ⊢
  have past : ((meanwhile perform world first between).commit second two).past =
      world.past ++ [one.tx.writes] ++ [two.tx.writes] := by
    rw [← rivals.past succeeds]
    simp only [World.past, World.commit, also, List.map_append]
    rfl
  rw [(later.commit rivals.trails forward).committed, past, Contents.after_append, Contents.after_append,
    ← sound.committed]
  rfl

end Rivals

section

variable (confined : ∀ task, Scoped.Confined (perform task))

theorem tended_rivals (entries : List Journal.Entry) (journal : Option Journal.Log) {events : List (Event τ)}
    {first : Nat} {between : List (Event τ)}
    (steady : Steady perform (opened entries journal) (events ++ .commit first :: between)) :
    let base := Contents.replay entries
    let world := run perform (opened entries journal) events
    (untold confined).Tended base world ∧
      (untold confined).Tended base (meanwhile perform world first between) := by
  intro base world
  obtain ⟨before, forward, after⟩ := steady_append steady
  have tended : (untold confined).Tended base world :=
    ((untold confined).tended_opened entries journal).run before
  exact ⟨tended, (tended.act _ forward).run after⟩

include confined in
theorem committed_of_quiet (entries : List Journal.Entry) (journal : Option Journal.Log) {events : List (Event τ)}
    (steady : Steady perform (opened entries journal) events) (quiet : ∀ event ∈ events, event.Quiet) :
    (run perform (opened entries journal) events).store.committed = Contents.replay entries := by
  have tended := ((untold confined).tended_opened entries journal).run steady
  rw [tended.sound.committed, World.past, commits_run_of_quiet _ quiet]
  rfl

variable {confined}

theorem holds_of_ran {base : Contents} {world : World (Option τ)} (tended : (untold confined).Tended base world)
    {index : Nat} {session : Session (Option τ)} (found : world.sessions[index]? = some session)
    (unfinished : session.tx.finished = false) {action : Scoped Unit} (ran : Ran perform session action)
    {post : Writes → Prop} (ensures : Scoped.Ensures (base.after (world.past.take session.born)) action .empty
      fun _ => post) : post session.tx.writes := by
  obtain ⟨task, noted, rfl⟩ := ran
  have done := tended.sessions session (List.mem_of_getElem? found) unfinished
  rw [Discipline.Done, noted] at done
  exact done trivial post ensures

namespace Rivals

variable {base : Contents} {world : World (Option τ)} {first second : Nat} {between : List (Event τ)}
variable {one two : Session (Option τ)} {action : Scoped Unit} {post : Writes → Prop}
variable (rivals : Rivals perform world first second between one two)
include rivals

theorem holds_one (tended : (untold confined).Tended base world) (ran : Ran perform one action)
    (ensures : Scoped.Ensures world.store.committed action .empty fun _ => post) : post one.tx.writes := by
  refine holds_of_ran tended rivals.leads rivals.opened.1 ran ?_
  rwa [rivals.born.1, ← List.length_map Commit.writes, ← World.past, List.take_length, ← tended.sound.committed]

theorem holds_two (tended : (untold confined).Tended base world)
    (later : (untold confined).Tended base (meanwhile perform world first between))
    (succeeds : (one.tx.commit world.store).1 = .ok ()) (ran : Ran perform two action)
    (ensures : Scoped.Ensures world.store.committed action .empty fun _ => post) : post two.tx.writes := by
  refine holds_of_ran later rivals.trails rivals.opened.2 ran ?_
  rwa [rivals.past succeeds, rivals.born.2, ← List.length_map Commit.writes, ← World.past, List.take_left,
    ← tended.sound.committed]

end Rivals

end

end FsMeta.Crew
