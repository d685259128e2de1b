import FsMeta.Proofs.Store.Replay
import FsMeta.Proofs.Store.World

set_option autoImplicit false

namespace FsMeta

abbrev Edits := List (Bytes × Option Bytes)

def Contents.edit (contents : Contents) (edits : Edits) : Contents :=
  fun key => (Table.lookup key edits).getD (contents key)

/-- Reads leave everything as it is, so they are no actions. The machine may get another limit on the
growth of files, refuse other calls and show another time. -/
inductive Action where
  | begin
  | set (index : Nat) (key value : Bytes)
  | delete (index : Nat) (key : Bytes)
  | commit (index : Nat)
  | rollback (index : Nat)
  | drop (index : Nat)
  | timestamp
  | machine (limit : Option Nat) (refusals : Journal.Refusals) (now : UInt64)
  deriving Repr, DecidableEq

def Action.session? : Action → Option Nat
  | set index _ _ | delete index _ | commit index | rollback index | drop index => some index
  | begin | timestamp | machine _ _ _ => none

namespace World

def withSession (world : World Edits) (index : Nat) (change : Session Edits → World Edits) :
    World Edits :=
  match world.sessions[index]? with
  | some session => change session
  | none => world

def edit (world : World Edits) (index : Nat) (key : Bytes) (value : Option Bytes) : World Edits :=
  world.withSession index fun session =>
    match session.tx.write key value with
    | .ok tx => world.revise index { session with tx, note := (key, value) :: session.note }
    | .error _ => world

def machine (world : World Edits) (limit : Option Nat) (refusals : Journal.Refusals) (now : UInt64) :
    World Edits :=
  world.withJournal <| world.store.journal.map fun log =>
    { log with medium := { log.medium with limit, refusals, now } }

def act (world : World Edits) : Action → World Edits
  | .begin => world.begin []
  | .set index key value => world.edit index key (some value)
  | .delete index key => world.edit index key none
  | .commit index => world.withSession index (world.commit index)
  | .rollback index => world.withSession index (world.finish index)
  | .drop index => world.withSession index (world.finish index)
  | .timestamp => world.timestamp
  | .machine limit refusals now => world.machine limit refusals now

def run (world : World Edits) (actions : List Action) : World Edits := actions.foldl act world

def Steady : World Edits → List Action → Prop
  | _, [] => True
  | world, action :: rest =>
    world.store.clock ≤ (world.act action).store.clock ∧ Steady (world.act action) rest

instance decidableSteady : (world : World Edits) → (actions : List Action) →
    Decidable (world.Steady actions)
  | _, [] => isTrue trivial
  | world, action :: rest =>
    have := decidableSteady (world.act action) rest
    inferInstanceAs (Decidable (_ ∧ _))

def opened (entries : List Journal.Entry) (journal : Option Journal.Log) : World Edits :=
  { store := { Store.ofEntries entries with journal } }

def expected (base : Contents) (world : World Edits) (session : Session Edits) : Contents :=
  ((world.commits.take session.born).foldl
    (fun contents commit => contents.edit commit.session.note) base).edit session.note

-- How often the key was committed so far: the number of its current version.
def versionOf (commits : List (Commit Edits)) (key : Bytes) : Nat :=
  commits.countP fun commit => (Table.lookup key commit.session.note).isSome

@[simp] theorem run_nil (world : World Edits) : world.run [] = world := rfl

@[simp] theorem run_cons (world : World Edits) (action : Action) (rest : List Action) :
    world.run (action :: rest) = (world.act action).run rest := rfl

theorem withSession_cases (world : World Edits) (index : Nat) (change : Session Edits → World Edits) :
    world.withSession index change = world ∨ ∃ session, world.sessions[index]? = some session ∧
      world.withSession index change = change session := by
  rw [withSession]
  cases world.sessions[index]? with
  | none => exact .inl rfl
  | some session => exact .inr ⟨session, rfl, rfl⟩

theorem edit_cases (world : World Edits) (index : Nat) (key : Bytes) (value : Option Bytes) :
    world.edit index key value = world ∨ ∃ session, world.sessions[index]? = some session ∧
      session.tx.finished = false ∧ world.edit index key value = world.revise index
        { session with
          tx := { session.tx with writes := session.tx.writes.insert key value }
          note := (key, value) :: session.note } := by
  rw [edit, withSession]
  cases found : world.sessions[index]? with
  | none => exact .inl rfl
  | some session =>
    cases unfinished : session.tx.finished with
    | true =>
      left
      simp only [Transaction.write, Transaction.requireOpen, unfinished]
      rfl
    | false =>
      right
      refine ⟨session, rfl, unfinished, ?_⟩
      simp only [Transaction.write, Transaction.requireOpen, unfinished]
      rfl

theorem act_step (world : World Edits) (action : Action) :
    world.act action = world ∨ World.Step world (world.act action) := by
  have edited (index : Nat) (key : Bytes) (value : Option Bytes) :
      world.edit index key value = world ∨ World.Step world (world.edit index key value) := by
    rcases edit_cases world index key value with same | ⟨session, found, _, same⟩
    · exact .inl same
    · exact .inr (same ▸ .revise found _ _)
  have called (index : Nat) {change : Session Edits → World Edits}
      (steps : ∀ session, world.sessions[index]? = some session → World.Step world (change session)) :
      world.withSession index change = world ∨ World.Step world (world.withSession index change) := by
    rcases withSession_cases world index change with same | ⟨session, found, same⟩
    · exact .inl same
    · exact .inr (same ▸ steps session found)
  cases action with
  | begin => exact .inr (.begin [])
  | set index key value => exact edited index key (some value)
  | delete index key => exact edited index key none
  | commit index => exact called index fun _ => .commit
  | rollback index => exact called index fun _ => .finish
  | drop index => exact called index fun _ => .finish
  | timestamp => exact .inr .timestamp
  | machine limit refusals now => exact .inr (.journal _)

theorem clock_act (world : World Edits) (action : Action) :
    (world.act action).store.clock = world.store.clock ∨
      (world.act action).store.clock = world.store.clock + 1 := by
  rcases act_step world action with same | step
  · exact .inl (by rw [same])
  · generalize world.act action = next at step
    cases step with
    | commit found => exact Transaction.clock_commit _ _
    | finish found => exact .inl (Transaction.clock_finish _ _)
    | timestamp => exact .inr (Store.clock_timestamp _)
    | _ => exact .inl rfl

theorem forward_of_moved {clock later : UInt64} {left : Nat} (moved : later = clock ∨ later = clock + 1)
    (room : clock.toNat + (left + 1) < UInt64.size) :
    clock ≤ later ∧ later.toNat + left < UInt64.size := by
  rcases moved with rfl | rfl
  · exact ⟨UInt64.le_refl _, by omega⟩
  · have next : (clock + 1).toNat = clock.toNat + 1 := by
      rw [UInt64.toNat_add, UInt64.toNat_one, Nat.mod_eq_of_lt]
      exact Nat.lt_of_le_of_lt (by omega) room
    rw [UInt64.le_iff_toNat_le, next]
    omega

/-- The clock counts calls, so it wraps in no run that is shorter than its range. -/
theorem steady_of_length_lt {world : World Edits} {actions : List Action}
    (short : world.store.clock.toNat + actions.length < UInt64.size) : world.Steady actions := by
  induction actions generalizing world with
  | nil => trivial
  | cons action rest ih =>
    obtain ⟨forward, room⟩ := forward_of_moved (clock_act world action) short
    exact ⟨forward, ih room⟩

variable {base : Contents} {world : World Edits}

theorem Sound.act (sound : Sound base world) (action : Action)
    (forward : world.store.clock ≤ (world.act action).store.clock) :
    Sound base (world.act action) := by
  rcases act_step world action with same | step
  · rwa [same]
  · exact sound.step step forward

theorem Sound.run (sound : Sound base world) (actions : List Action) (steady : world.Steady actions) :
    Sound base (world.run actions) := by
  induction actions generalizing world with
  | nil => exact sound
  | cons action rest ih => exact ih (sound.act action steady.1) steady.2

theorem sound_opened (entries : List Journal.Entry) (journal : Option Journal.Log) :
    Sound (Contents.replay entries) (opened entries journal) where
  faithful :=
    { registered := List.Perm.nil
      old := by simp [opened, readers]
      reader := by simp [opened, readers]
      current := fun _ reached => (Store.serves_ofEntries entries reached).of_history_eq rfl }
  fresh := by simp [opened]

end World

end FsMeta
