import FsMeta.Proofs.Store.Isolation
import FsMeta.Proofs.Store.Journaled
import FsMeta.Proofs.Store.Opening

set_option autoImplicit false

namespace FsMeta

open Journal

variable {ν : Type}

/-- Writing the journal may still stop anywhere. -/
def Action.Reliable : Action → Prop
  | machine _ refusals _ => refusals = {}
  | _ => True

namespace World

theorem keeps_machine {world : World Edits} {frames : List Frame} (keeps : world.store.Keeps frames)
    (limit : Option Nat) (now : UInt64) : (world.machine limit {} now).store.Keeps frames := by
  obtain ⟨log, kept, holds, reliable⟩ := keeps.log
  let later : Log := { log with medium := { log.medium with limit, refusals := {}, now } }
  have kept : (world.machine limit {} now).store.journal = some later := by
    simp only [World.machine, World.withJournal, kept, Option.map_some, later]
  have holds : later.Holds frames := { holds with file := holds.file }
  exact ⟨⟨later, kept, holds, rfl⟩, keeps.counted⟩

/-- Every part of the journal gives the commits that end in it. -/
structure Durable (world : World ν) (frames : List Frame) : Prop where
  keeps : world.store.Keeps frames
  ended : ∀ commit ∈ world.commits, commit.journalEnd ≤ (joined frames).length
  published : ∀ count, Contents.replay ((upTo count frames).map Frame.entry) =
    Contents.empty.after ((world.commits.filter (·.journalEnd ≤ count)).map Commit.writes)

namespace Durable

variable {world : World ν} {frames : List Frame}

theorem of_commits_eq (durable : world.Durable frames) {next : World ν}
    (keeps : next.store.Keeps frames) (same : next.commits = world.commits) : next.Durable frames :=
  ⟨keeps, same ▸ durable.ended, same ▸ durable.published⟩

theorem idle (durable : world.Durable frames) {next : World ν} {commit : Commit ν}
    (keeps : next.store.Keeps frames) (added : next.commits = world.commits ++ [commit])
    (place : commit.journalEnd = (joined frames).length) (bare : commit.writes.entries.isEmpty) :
    next.Durable frames := by
  constructor
  · exact keeps
  · intro other member
    rw [added] at member
    rcases List.mem_append.1 member with member | member
    · exact durable.ended other member
    · rw [List.mem_singleton.1 member]
      exact Nat.le_of_eq place
  · intro count
    rw [durable.published, added, List.filter_append, List.map_append, Contents.after_append]
    by_cases within : commit.journalEnd ≤ count
    · simp [within, Contents.write_of_isEmpty _ bare]
    · simp [within]

theorem grow (durable : world.Durable frames) {next : World ν} {frame : Frame}
    {more : List (Commit ν)} (keeps : next.store.Keeps (frames ++ [frame]))
    (added : next.commits = world.commits ++ more)
    (place : ∀ commit ∈ more, commit.journalEnd = (joined (frames ++ [frame])).length)
    (effect : ∀ contents : Contents,
      frame.entry.operations.foldl Contents.operate contents = contents.after (more.map Commit.writes)) :
    next.Durable (frames ++ [frame]) := by
  have length : (joined (frames ++ [frame])).length = (joined frames).length + frame.bytes.length := by
    simp [joined]
  constructor
  · exact keeps
  · intro commit member
    rw [added] at member
    rcases List.mem_append.1 member with member | member
    · have bound := durable.ended commit member
      omega
    · exact Nat.le_of_eq (place commit member)
  · intro count
    rw [added, List.filter_append, List.map_append, Contents.after_append, ← durable.published,
      upTo_append_singleton]
    -- A cut at or behind the new end keeps the frame and its commit, any other loses both.
    by_cases within : (joined frames).length + frame.bytes.length ≤ count
    · have new : more.filter (·.journalEnd ≤ count) = more := by
        rw [List.filter_eq_self]
        intro commit member
        rw [place commit member, length]
        simpa using within
      have old : upTo count frames = frames := upTo_of_le (by omega)
      rw [if_pos within, new, old, List.map_append, Contents.replay_append]
      simp [effect]
    · have new : more.filter (·.journalEnd ≤ count) = [] := by
        rw [List.filter_eq_nil_iff]
        intro commit member
        rw [place commit member, length]
        simpa using within
      rw [if_neg within, new]
      rfl

theorem timestamp (durable : world.Durable frames)
    (forward : world.store.clock ≤ world.timestamp.store.clock) :
    ∃ frames, world.timestamp.Durable frames := by
  rcases durable.keeps.timestamp forward with ⟨keeps, _⟩ | ⟨frame, _, silent, _, _, keeps⟩
  · exact ⟨frames, durable.of_commits_eq keeps rfl⟩
  · have added : world.timestamp.commits = world.commits ++ [] := (List.append_nil _).symm
    refine ⟨frames ++ [frame], durable.grow keeps added (by simp) fun contents => ?_⟩
    rw [silent]
    rfl

theorem commit (durable : world.Durable frames) (index : Nat) (session : Session ν)
    (forward : world.store.clock ≤ (world.commit index session).store.clock) :
    ∃ frames, (world.commit index session).Durable frames := by
  cases unfinished : session.tx.finished with
  | true =>
    refine ⟨frames, durable.of_commits_eq ?_ ?_⟩ <;>
      simp only [World.commit, Transaction.commit_finished unfinished, List.append_nil]
    exact durable.keeps
  | false =>
    have outcome := durable.keeps.commit unfinished forward
    cases result : (session.tx.commit world.store).1 with
    | error error =>
      have added : (world.commit index session).commits = world.commits := by
        simp only [World.commit, result, List.append_nil]
      rcases outcome with ⟨keeps, _⟩ | ⟨_, _, _, _, succeeded, _⟩
      · exact ⟨frames, durable.of_commits_eq keeps added⟩
      · rw [result] at succeeded
        cases succeeded
    | ok _ =>
      let commit : Commit ν := ⟨session, (world.commit index session).store.journalLength⟩
      have added : (world.commit index session).commits = world.commits ++ [commit] := by
        simp only [World.commit, result, commit]
      rcases outcome with ⟨keeps, silent⟩ | ⟨frame, _, _, operations, _, keeps⟩
      · have place : commit.journalEnd = (joined frames).length := keeps.journalLength
        exact ⟨frames, durable.idle keeps added place (silent result)⟩
      · have place : commit.journalEnd = (joined (frames ++ [frame])).length := keeps.journalLength
        refine ⟨frames ++ [frame], durable.grow keeps added (by simpa using place) fun contents => ?_⟩
        rw [operations, Contents.operations_eq_write]
        rfl

theorem finish (durable : world.Durable frames) (index : Nat) (session : Session ν) :
    (world.finish index session).Durable frames :=
  durable.of_commits_eq (durable.keeps.finish session.tx) rfl

theorem machine {world : World Edits} (durable : world.Durable frames) (limit : Option Nat)
    (now : UInt64) : (world.machine limit {} now).Durable frames :=
  durable.of_commits_eq (keeps_machine durable.keeps limit now) rfl

theorem act {world : World Edits} (durable : world.Durable frames) (action : Action)
    (reliable : action.Reliable) (forward : world.store.clock ≤ (world.act action).store.clock) :
    ∃ frames, (world.act action).Durable frames := by
  have edited (index : Nat) (key : Bytes) (value : Option Bytes) :
      (world.edit index key value).Durable frames := by
    rcases edit_cases world index key value with same | ⟨session, _, _, same⟩
    · rwa [same]
    · exact same ▸ durable.of_commits_eq durable.keeps rfl
  have finished (index : Nat) : (world.withSession index (world.finish index)).Durable frames := by
    rcases withSession_cases world index (world.finish index) with same | ⟨session, _, same⟩
    · rwa [same]
    · exact same ▸ durable.finish index session
  cases action with
  | begin =>
    exact ⟨frames, durable.of_commits_eq (durable.keeps.of_journal_eq rfl (UInt64.le_refl _)) rfl⟩
  | set index key value => exact ⟨frames, edited index key (some value)⟩
  | delete index key => exact ⟨frames, edited index key none⟩
  | commit index =>
    rcases withSession_cases world index (world.commit index) with same | ⟨session, _, same⟩
    · exact ⟨frames, by rwa [World.act, same]⟩
    · rw [World.act, same] at forward ⊢
      exact durable.commit index session forward
  | rollback index => exact ⟨frames, finished index⟩
  | drop index => exact ⟨frames, finished index⟩
  | timestamp => exact durable.timestamp forward
  | machine limit refusals now =>
    rw [show refusals = {} from reliable]
    exact ⟨frames, durable.machine limit now⟩

theorem run {world : World Edits} (durable : world.Durable frames) {actions : List Action}
    (reliable : ∀ action ∈ actions, action.Reliable) (steady : world.Steady actions) :
    ∃ frames, (world.run actions).Durable frames := by
  induction actions generalizing world frames with
  | nil => exact ⟨frames, durable⟩
  | cons action rest ih =>
    obtain ⟨forward, steady⟩ := steady
    obtain ⟨later, durable⟩ := durable.act action (reliable action List.mem_cons_self) forward
    exact ih durable (fun other member => reliable other (List.mem_cons_of_mem _ member)) steady

end Durable

theorem durable_opened (policy : SyncPolicy) :
    (opened [] (some (.ofMedium policy { file := Disk.emptyFile }))).Durable [] where
  keeps := ⟨⟨_, rfl, Log.holds_ofMedium (by simp) policy rfl, rfl⟩, Nat.zero_le _⟩
  ended := by simp [opened]
  published := by simp [opened, upTo]

def survivors (world : World Edits) (count : Nat) : Contents :=
  (world.commits.filter (·.journalEnd ≤ count)).foldl
    (fun contents commit => contents.edit commit.session.note) .empty

theorem survivors_eq_replay {world : World Edits} {frames : List Frame} (durable : world.Durable frames)
    (mirrored : Mirrored world) (count : Nat) :
    world.survivors count = Contents.replay ((upTo count frames).map Frame.entry) := by
  rw [durable.published, survivors, foldl_edit_eq_after]
  intro commit member
  exact mirrored.commits commit (List.mem_of_mem_filter member)

theorem committed_eq_survivors {world : World Edits} {frames : List Frame} (durable : world.Durable frames)
    (sound : Sound .empty world) (mirrored : Mirrored world) :
    world.store.committed = world.survivors (joined frames).length := by
  have all : world.commits.filter (·.journalEnd ≤ (joined frames).length) = world.commits := by
    rw [List.filter_eq_self]
    intro commit member
    simpa using durable.ended commit member
  rw [sound.committed, survivors, all, foldl_edit_eq_after mirrored.commits, past]

theorem crash_atomicity (files : List File) (policy : SyncPolicy) :
    ∃ store disk, Disk.openStore { place := .directory .absent, files } policy =
        (.ok (files.length, store), disk) ∧
      ∀ actions : List Action, (∀ action ∈ actions, action.Reliable) →
        World.Steady { store } actions →
        let world := World.run { store } actions
        ∃ log content, world.store.journal = some log ∧ log.medium.file = .regular content ∧
          (∀ count ≤ content.length, Disk.Loads (content.take count) (world.survivors count)) ∧
          (∀ key, (Transaction.begin world.store).1.get (Transaction.begin world.store).2 key =
            .ok (world.survivors content.length key)) ∧
          (∀ (entry : Entry) (frame : Bytes), entry.frame = .ok frame → ∀ count < frame.length,
            Disk.Loads (content ++ frame.take count) (world.survivors content.length)) := by
  refine ⟨_, _, Disk.openStore_absent files policy, fun actions reliable steady => ?_⟩
  intro world
  obtain ⟨frames, durable⟩ : ∃ frames, world.Durable frames :=
    (durable_opened policy).run reliable steady
  obtain ⟨log, kept, holds, _⟩ := durable.keeps.log
  have sound : Sound .empty world := (sound_opened [] _).run actions steady
  have mirrored : Mirrored world := (mirrored_opened [] _).run actions
  refine ⟨log, joined frames, kept, holds.file, fun count _ => ?_, fun key => ?_, ?_⟩
  · obtain ⟨torn, unreadable, split⟩ := exists_take_joined count frames
    rw [split, survivors_eq_replay durable mirrored]
    exact Disk.loads_joined (ascending_upTo holds.ascending count) unreadable
  · rw [Transaction.get_begin, committed_eq_survivors durable sound mirrored]
  · intro entry frame written count short
    obtain ⟨fits, rfl⟩ := (entry.frame_eq_ok_iff frame).1 written
    rw [survivors_eq_replay durable mirrored, upTo_of_le (Nat.le_refl _)]
    exact Disk.loads_joined holds.ascending ((entry.framed fits).torn count short)

-- The second commit finds no room for its frame, and the third one finds the room again.
def halted : List Action :=
  [.begin, .set 0 [1] [10], .commit 0, .machine (some 100) {} 0, .begin, .set 1 [1] [11], .commit 1,
    .machine none {} 0, .begin, .set 2 [1] [12], .commit 2]

theorem crash_atomicity_halted :
    let world := (opened [] (some (.ofMedium .everyWrite { file := Disk.emptyFile }))).run halted
    ∃ content : Bytes, content.length = 140 ∧
      Disk.Loads (content.take 139) (world.survivors 139) ∧ world.survivors 139 [1] = some [10] ∧
      Disk.Loads (content.take 140) (world.survivors 140) ∧ world.survivors 140 [1] = some [12] := by
  intro world
  obtain ⟨store, disk, opens, atomic⟩ := crash_atomicity [] .everyWrite
  rw [Disk.openStore_absent] at opens
  cases opens
  have reliable : ∀ action ∈ halted, action.Reliable := by simp [halted, Action.Reliable]
  obtain ⟨log, content, kept, file, loads, _⟩ :=
    atomic halted reliable (steady_of_length_lt (by decide))
  have length : world.store.journalLength = 140 := by decide +kernel
  have measured : world.store.journalLength = content.length := by
    rw [Store.journalLength, show world.store.journal = _ from kept]
    simp [file, File.length]
  have bound : content.length = 140 := measured ▸ length
  refine ⟨content, bound, loads 139 (by omega), ?_, loads 140 (by omega), ?_⟩
  · decide +kernel
  · decide +kernel

end World

end FsMeta
