import FsMeta.Proofs.Store.Faithful
import Mathlib.Data.List.Perm.Basic

set_option autoImplicit false

/-!
Any number of transactions side by side on one store. The world keeps a record of every commit that
succeeded, and of how many there were when a transaction began; what a transaction should read is said
in terms of that record alone.
-/
namespace FsMeta

variable {ν : Type}

structure Session (ν : Type) where
  tx : Transaction
  born : Nat
  note : ν

-- The session as it committed, and where its frame ends in the journal.
structure Commit (ν : Type) where
  session : Session ν
  journalEnd : Nat

structure World (ν : Type) where
  store : Store
  sessions : List (Session ν) := []
  commits : List (Commit ν) := []

def Session.reader? (session : Session ν) : Option (UInt64 × Nat) :=
  if session.tx.finished then none else some (session.tx.snapshot, session.born)

def Commit.writes (commit : Commit ν) : Writes := commit.session.tx.writes

namespace World

def past (world : World ν) : List Writes := world.commits.map Commit.writes

def readers (world : World ν) : List (UInt64 × Nat) := world.sessions.filterMap Session.reader?

def begin (world : World ν) (note : ν) : World ν :=
  let (tx, store) := Transaction.begin world.store
  { world with store, sessions := world.sessions ++ [{ tx, born := world.commits.length, note }] }

def revise (world : World ν) (index : Nat) (session : Session ν) : World ν :=
  { world with sessions := world.sessions.set index session }

def commit (world : World ν) (index : Nat) (session : Session ν) : World ν :=
  let (result, tx, store) := session.tx.commit world.store
  { store
    sessions := world.sessions.set index { session with tx }
    commits := world.commits ++ match result with
      | .ok () => [{ session, journalEnd := store.journalLength }]
      | .error _ => [] }

def finish (world : World ν) (index : Nat) (session : Session ν) : World ν :=
  let (tx, store) := session.tx.finish world.store
  { world with store, sessions := world.sessions.set index { session with tx } }

def timestamp (world : World ν) : World ν := { world with store := world.store.timestamp.2 }

def withJournal (world : World ν) (journal : Option Journal.Log) : World ν :=
  { world with store := { world.store with journal } }

/-- A session that is revised keeps its snapshot. -/
inductive Step (world : World ν) : World ν → Prop
  | begin (note : ν) : Step world (world.begin note)
  | revise {index : Nat} {session : Session ν} (found : world.sessions[index]? = some session)
      (writes : Writes) (note : ν) :
      Step world (world.revise index { session with tx := { session.tx with writes }, note })
  | commit {index : Nat} {session : Session ν} (found : world.sessions[index]? = some session) :
      Step world (world.commit index session)
  | finish {index : Nat} {session : Session ν} (found : world.sessions[index]? = some session) :
      Step world (world.finish index session)
  | timestamp : Step world world.timestamp
  | journal (journal : Option Journal.Log) : Step world (world.withJournal journal)

/-- The store serves everybody, and no commit wrote a key that had been written since it began. -/
structure Sound (base : Contents) (world : World ν) : Prop where
  faithful : Faithful base world.store world.past world.readers
  fresh : ∀ count commit, world.commits[count]? = some commit → commit.session.born ≤ count ∧
    ∀ writes ∈ (world.past.take count).drop commit.session.born, ∀ key,
      (commit.writes.find? key).isSome → writes.find? key = none

theorem filterMap_perm {α β : Type} {f : α → Option β} {elements : List α} {index : Nat} {element : α}
    (found : elements[index]? = some element) :
    (elements.filterMap f).Perm ((f element).toList ++ (elements.eraseIdx index).filterMap f) := by
  obtain ⟨bound, rfl⟩ := List.getElem?_eq_some_iff.1 found
  have same := (List.getElem_cons_eraseIdx_perm bound).symm.filterMap f
  apply same.trans
  apply List.Perm.of_eq
  cases value : f elements[index] <;> simp [value]

theorem filterMap_set_perm {α β : Type} {f : α → Option β} {elements : List α} {index : Nat}
    {element : α} (found : elements[index]? = some element) (changed : α) :
    ((elements.set index changed).filterMap f).Perm
      ((f changed).toList ++ (elements.eraseIdx index).filterMap f) := by
  obtain ⟨bound, rfl⟩ := List.getElem?_eq_some_iff.1 found
  have same := (List.set_perm_cons_eraseIdx bound changed).filterMap f
  apply same.trans
  apply List.Perm.of_eq
  cases value : f changed <;> simp [value]

variable {base : Contents} {world : World ν} {index : Nat} {session : Session ν}

theorem readers_of_open (found : world.sessions[index]? = some session)
    (unfinished : session.tx.finished = false) :
    world.readers.Perm ((session.tx.snapshot, session.born) ::
      (world.sessions.eraseIdx index).filterMap Session.reader?) := by
  have split := filterMap_perm (f := Session.reader?) found
  simpa [readers, Session.reader?, unfinished] using split

theorem mem_readers (found : world.sessions[index]? = some session)
    (unfinished : session.tx.finished = false) :
    (session.tx.snapshot, session.born) ∈ world.readers :=
  (readers_of_open found unfinished).mem_iff.2 List.mem_cons_self

theorem readers_set (found : world.sessions[index]? = some session) {changed : Session ν}
    (same : changed.reader? = session.reader?) :
    (world.readers).Perm ((world.sessions.set index changed).filterMap Session.reader?) := by
  have before := filterMap_perm (f := Session.reader?) found
  have after := filterMap_set_perm (f := Session.reader?) found changed
  rw [same] at after
  exact before.trans after.symm

theorem readers_set_finished (found : world.sessions[index]? = some session) {changed : Session ν}
    (finished : changed.tx.finished = true) :
    ((world.sessions.eraseIdx index).filterMap Session.reader?).Perm
      ((world.sessions.set index changed).filterMap Session.reader?) := by
  have after := filterMap_set_perm (f := Session.reader?) found changed
  simpa [Session.reader?, finished] using after.symm

theorem recorded_cases {count : Nat} {commit : Commit ν}
    (recorded : (world.commit index session).commits[count]? = some commit) :
    (count < world.commits.length ∧ world.commits[count]? = some commit) ∨
      (count = world.commits.length ∧ session = commit.session ∧
        (session.tx.commit world.store).1 = .ok ()) := by
  rcases Nat.lt_or_ge count world.commits.length with earlier | later
  · rw [World.commit, List.getElem?_append_left earlier] at recorded
    exact .inl ⟨earlier, recorded⟩
  · right
    simp only [World.commit] at recorded
    rw [List.getElem?_append_right later] at recorded
    cases result : (session.tx.commit world.store).1 with
    | error error => simp [result] at recorded
    | ok done =>
      rw [result] at recorded
      have bound : count - world.commits.length < 1 := (List.getElem?_eq_some_iff.1 recorded).1
      have first : count - world.commits.length = 0 := by omega
      rw [first] at recorded
      cases recorded
      exact ⟨by omega, rfl, rfl⟩

namespace Sound

theorem committed (sound : Sound base world) : world.store.committed = base.after world.past := by
  funext key
  have serves := sound.faithful.current world.store.clock (UInt64.le_refl _)
  simpa [Store.committed] using serves.value key

theorem born_le (sound : Sound base world) (found : world.sessions[index]? = some session)
    (unfinished : session.tx.finished = false) : session.born ≤ world.past.length :=
  (sound.faithful.old _ (mem_readers found unfinished)).2

theorem snapshot (sound : Sound base world) (found : world.sessions[index]? = some session)
    (unfinished : session.tx.finished = false) :
    world.store.readAt session.tx.snapshot = base.after (world.past.take session.born) :=
  funext (sound.faithful.reader _ (mem_readers found unfinished)).value

theorem reads (sound : Sound base world) (found : world.sessions[index]? = some session)
    (unfinished : session.tx.finished = false) :
    session.tx.reads world.store =
      (base.after (world.past.take session.born)).write session.tx.writes := by
  rw [Transaction.reads, sound.snapshot found unfinished]

theorem begin (sound : Sound base world) (note : ν) : Sound base (world.begin note) := by
  refine ⟨?_, sound.fresh⟩
  have counted : world.past.length = world.commits.length := List.length_map _
  apply sound.faithful.begin.perm
  simp only [readers, World.begin, Transaction.begin, List.filterMap_append, List.filterMap_cons,
    Session.reader?, counted, List.filterMap_nil]
  exact (List.perm_append_singleton _ _).symm

theorem finish (sound : Sound base world) (found : world.sessions[index]? = some session) :
    Sound base (world.finish index session) := by
  refine ⟨?_, sound.fresh⟩
  cases unfinished : session.tx.finished with
  | false =>
    have faithful := (sound.faithful.perm (readers_of_open found unfinished)).release
    simp only [World.finish, Transaction.finish_of_open unfinished]
    exact faithful.perm (readers_set_finished found rfl)
  | true =>
    simp only [World.finish, Transaction.finish, unfinished, if_true]
    apply sound.faithful.perm (readers_set found _)
    simp [Session.reader?, unfinished]

theorem unwritten (sound : Sound base world) (found : world.sessions[index]? = some session)
    (unfinished : session.tx.finished = false) (clear : world.store.overtaken? session.tx = none) :
    ∀ writes ∈ world.past.drop session.born, ∀ key,
      (session.tx.writes.find? key).isSome → writes.find? key = none := by
  intro writes later key own
  have iff := sound.faithful.overtaken?_ne_none_iff (mem_readers found unfinished)
  by_contra written
  exact iff.2 ⟨writes, later, key, Option.isSome_iff_ne_none.2 written, own⟩ clear

theorem commit (sound : Sound base world) (found : world.sessions[index]? = some session)
    (forward : world.store.clock ≤ (world.commit index session).store.clock) :
    Sound base (world.commit index session) := by
  cases unfinished : session.tx.finished with
  | true =>
    have same : world.sessions.set index session = world.sessions := by
      obtain ⟨bound, rfl⟩ := List.getElem?_eq_some_iff.1 found
      exact List.set_getElem_self bound
    simp only [World.commit, Transaction.commit_finished unfinished, same, List.append_nil]
    exact sound
  | false =>
    have finished := Transaction.commit_tx_finished unfinished world.store
    have past : (world.commit index session).past =
        world.past ++ session.tx.published world.store := by
      simp only [World.past, World.commit, Transaction.published, List.map_append]
      cases (session.tx.commit world.store).1 <;> rfl
    constructor
    · rw [past]
      have faithful := (sound.faithful.perm (readers_of_open found unfinished)).commit unfinished forward
      exact faithful.perm (readers_set_finished found finished)
    · intro count commit recorded
      have counted : world.past.length = world.commits.length := List.length_map _
      rw [past]
      rcases recorded_cases recorded with ⟨bound, recorded⟩ | ⟨rfl, rfl, committed⟩
      · rw [List.take_append_of_le_length (counted ▸ Nat.le_of_lt bound)]
        exact sound.fresh count commit recorded
      · rw [← counted, List.take_left]
        exact ⟨sound.born_le found unfinished,
          sound.unwritten found unfinished (Transaction.clear_of_commit unfinished committed)⟩

theorem step (sound : Sound base world) {next : World ν} (step : Step world next)
    (forward : world.store.clock ≤ next.store.clock) : Sound base next := by
  cases step with
  | begin note => exact sound.begin note
  | revise found writes note =>
    exact ⟨sound.faithful.perm (readers_set found rfl), sound.fresh⟩
  | commit found => exact sound.commit found forward
  | finish found => exact sound.finish found
  | timestamp => exact ⟨sound.faithful.timestamp forward, sound.fresh⟩
  | journal journal => exact ⟨sound.faithful.advance rfl rfl (UInt64.le_refl _), sound.fresh⟩

end Sound

end World

end FsMeta
