import FsMeta.Proofs.Store.Durability

set_option autoImplicit false

/-!
Times that are handed out, over all the times that a store is closed and opened again. A store that is
opened goes on from the latest time in its journal. None is handed out beyond that before the journal
tells of a later one, so whatever is lost on the way, nothing is handed out twice.
-/
namespace FsMeta

open Journal

def Transaction.commitTime? (tx : Transaction) (store : Store) : Option UInt64 :=
  match tx.commit store with
  | (.ok (), _, later) => if tx.writes.entries.isEmpty then none else some later.clock
  | (.error _, _, _) => none

def World.issues (world : World Edits) : Action → List UInt64
  | .timestamp => world.store.timestamp.1.toOption.toList
  | .commit index =>
    (world.sessions[index]?.bind fun session => session.tx.commitTime? world.store).toList
  | _ => []

structure Host where
  disk : Disk := {}
  running : Option (Nat × World Edits) := none
  issued : List UInt64 := []

inductive Host.Event where
  | opening (policy : SyncPolicy)
  | closing
  | call (action : Action)
  deriving Repr, DecidableEq

namespace Host

-- Transactions do not outlive the store that they were begun on.
def close (host : Host) : Host :=
  match host.running with
  | none => host
  | some (index, world) =>
    match world.store.close with
    | none => { host with running := none }
    | some medium => { host with disk := host.disk.setFile index medium.file, running := none }

def start (host : Host) (policy : SyncPolicy) : Host :=
  match host.running with
  | some _ => host
  | none =>
    match host.disk.openStore policy with
    | (.ok (index, store), disk) => { host with disk, running := some (index, { store }) }
    | (.error _, disk) => { host with disk }

def call (host : Host) (action : Action) : Host :=
  match host.running with
  | none => host
  | some (index, world) =>
    { host with running := some (index, world.act action), issued := host.issued ++ world.issues action }

def step (host : Host) : Event → Host
  | .opening policy => host.start policy
  | .closing => host.close
  | .call action => host.call action

def run (host : Host) (events : List Event) : Host := events.foldl step host

def Event.Reliable : Event → Prop
  | call action => action.Reliable
  | _ => True

def Forward (host : Host) : Event → Prop
  | .call action =>
    ∀ running ∈ host.running, running.2.store.clock ≤ (running.2.act action).store.clock
  | _ => True

def Steady : Host → List Event → Prop
  | _, [] => True
  | host, event :: rest => host.Forward event ∧ Steady (host.step event) rest

instance (host : Host) (event : Event) : Decidable (host.Forward event) :=
  match event with
  | .call _ => inferInstanceAs (Decidable (∀ running ∈ host.running, _))
  | .opening _ | .closing => isTrue trivial

instance decidableSteady : (host : Host) → (events : List Event) → Decidable (host.Steady events)
  | _, [] => isTrue trivial
  | host, event :: rest =>
    have := decidableSteady (host.step event) rest
    inferInstanceAs (Decidable (_ ∧ _))

end Host

namespace Transaction

variable {tx : Transaction} {store : Store}

theorem commitTime?_of_ok (committed : (tx.commit store).1 = .ok ()) :
    tx.commitTime? store =
      if tx.writes.entries.isEmpty then none else some (tx.commit store).2.2.clock := by
  rw [commitTime?, show tx.commit store = (.ok (), (tx.commit store).2) from Prod.ext committed rfl]

theorem commitTime?_of_error {error : Error} (failed : (tx.commit store).1 = .error error) :
    tx.commitTime? store = none := by
  rw [commitTime?, show tx.commit store = (.error error, (tx.commit store).2) from Prod.ext failed rfl]

theorem reserved_commit (tx : Transaction) (store : Store) :
    (tx.commit store).2.2.reserved = store.reserved := by
  cases unfinished : tx.finished with
  | true => rw [commit_finished unfinished]
  | false =>
    have same : (store.logged tx).2.reserved = store.reserved := by rw [Store.logged_frame]
    rcases commit_cases unfinished store with
      ⟨_, ended⟩ | ⟨_, _, _, ended⟩ | ⟨_, _, _, ended⟩ | ⟨_, _, _, ended⟩
    · rw [ended]
      rfl
    · rw [ended]
      rfl
    · rw [ended]
      exact same
    · rw [ended]
      exact same

end Transaction

def Journal.high (frames : List Frame) : UInt64 := (Store.ofEntries (frames.map Frame.entry)).clock

theorem Journal.high_append (frames : List Frame) (frame : Frame) :
    high frames ≤ high (frames ++ [frame]) ∧ frame.entry.commitTime ≤ high (frames ++ [frame]) := by
  have grown : high (frames ++ [frame]) = max (high frames) frame.entry.commitTime := by
    simp [high, Store.ofEntries]
  rw [grown]
  exact Store.le_max _ _

namespace Store

/-- The journal covers all times that were handed out, and all that may be without another frame. -/
structure Covers (store : Store) (frames : List Frame) (issued : List UInt64) : Prop where
  keeps : store.Keeps frames
  numbered : topLsn 0 frames ≤ high frames
  reserved : store.reserved ≤ high frames
  ascending : issued.Pairwise (· < ·)
  past : ∀ time ∈ issued, time ≤ store.clock
  covered : ∀ time ∈ issued, time ≤ high frames

variable {store later : Store} {frames : List Frame} {issued : List UInt64}

theorem pairwise_append_later {now : UInt64} (ascending : issued.Pairwise (· < ·))
    (after : ∀ time ∈ issued, time < now) : (issued ++ [now]).Pairwise (· < ·) := by
  refine List.pairwise_append.2 ⟨ascending, List.pairwise_singleton _ _, fun time member other last => ?_⟩
  rw [List.mem_singleton.1 last]
  exact after time member

theorem le_append_later {now bound reach : UInt64} (before : ∀ time ∈ issued, time ≤ bound)
    (grown : bound ≤ reach) (last : now ≤ reach) : ∀ time ∈ issued ++ [now], time ≤ reach := by
  intro time member
  rcases List.mem_append.1 member with earlier | latest
  · exact UInt64.le_trans (before time earlier) grown
  · exact List.mem_singleton.1 latest ▸ last

theorem le_mark (store : Store) : store.clock + 1 ≤ store.mark := by
  have below : (store.clock + 1).toNat < UInt64.size := (store.clock + 1).toNat_lt
  have bound : min ((store.clock + 1).toNat + timestampWindow) (UInt64.size - 1) < UInt64.size := by
    have positive : 0 < UInt64.size := by decide
    omega
  have value : store.mark.toNat =
      min ((store.clock + 1).toNat + timestampWindow) (UInt64.size - 1) := by
    rw [mark, UInt64.toNat_ofNat', Nat.mod_eq_of_lt bound]
  rw [UInt64.le_iff_toNat_le, value]
  omega

namespace Covers

variable (covers : store.Covers frames issued)
include covers

theorem idle (keeps : later.Keeps frames) (reserved : later.reserved = store.reserved)
    (forward : store.clock ≤ later.clock) : later.Covers frames issued where
  keeps := keeps
  numbered := covers.numbered
  reserved := reserved ▸ covers.reserved
  ascending := covers.ascending
  past := fun time member => UInt64.le_trans (covers.past time member) forward
  covered := covers.covered

theorem draw (keeps : later.Keeps frames) (reserved : later.reserved = store.reserved)
    (forward : store.clock < later.clock) (within : later.clock ≤ store.reserved) :
    later.Covers frames (issued ++ [later.clock]) where
  keeps := keeps
  numbered := covers.numbered
  reserved := reserved ▸ covers.reserved
  ascending := pairwise_append_later covers.ascending fun time member =>
    UInt64.lt_of_le_of_lt (covers.past time member) forward
  past := le_append_later covers.past (UInt64.le_of_lt forward) (UInt64.le_refl _)
  covered := le_append_later covers.covered (UInt64.le_refl _) (UInt64.le_trans within covers.reserved)

theorem grow {frame : Frame} (keeps : later.Keeps (frames ++ [frame]))
    (reserved : later.reserved = store.reserved ∨ later.reserved = frame.entry.commitTime)
    (forward : store.clock < later.clock) (within : later.clock ≤ frame.entry.commitTime) :
    later.Covers (frames ++ [frame]) (issued ++ [later.clock]) := by
  obtain ⟨grown, above⟩ := high_append frames frame
  have reached : later.clock ≤ high (frames ++ [frame]) := UInt64.le_trans within above
  constructor
  · exact keeps
  · exact UInt64.le_trans (UInt64.le_iff_toNat_le.2 keeps.counted) reached
  · rcases reserved with same | moved
    · exact same ▸ UInt64.le_trans covers.reserved grown
    · exact moved ▸ above
  · exact pairwise_append_later covers.ascending fun time member =>
      UInt64.lt_of_le_of_lt (covers.past time member) forward
  · exact le_append_later covers.past (UInt64.le_of_lt forward) (UInt64.le_refl _)
  · exact le_append_later covers.covered grown reached

theorem timestamp (forward : store.clock ≤ store.timestamp.2.clock) :
    ∃ frames, store.timestamp.2.Covers frames (issued ++ store.timestamp.1.toOption.toList) := by
  have moved := store.clock_timestamp
  have ahead : store.clock < store.timestamp.2.clock := by
    rw [moved] at forward ⊢
    exact lt_add_one forward
  rcases covers.keeps.timestamp forward with
    ⟨keeps, reserved, within⟩ | ⟨frame, time, _, handed, reserved, keeps⟩
  · cases result : store.timestamp.1 with
    | error error => exact ⟨frames, by simpa [Except.toOption] using covers.idle keeps reserved forward⟩
    | ok now =>
      obtain ⟨rfl, within⟩ := within now result
      rw [← moved] at within ⊢
      exact ⟨frames, covers.draw keeps reserved ahead within⟩
  · have within : store.timestamp.2.clock ≤ frame.entry.commitTime := by
      rw [moved, time]
      exact le_mark store
    rw [handed, ← moved]
    exact ⟨frames ++ [frame], covers.grow keeps (.inr (reserved.trans time.symm)) ahead within⟩

theorem commit (tx : Transaction) (forward : store.clock ≤ (tx.commit store).2.2.clock) :
    ∃ frames, (tx.commit store).2.2.Covers frames (issued ++ (tx.commitTime? store).toList) := by
  cases unfinished : tx.finished with
  | true =>
    refine ⟨frames, ?_⟩
    simp only [Transaction.commitTime?, Transaction.commit_finished unfinished, Option.toList_none,
      List.append_nil]
    exact covers
  | false =>
    have reserved : (tx.commit store).2.2.reserved = store.reserved := Transaction.reserved_commit tx store
    rcases covers.keeps.commit unfinished forward with ⟨keeps, unwritten⟩ | ⟨frame, time, ahead, _, done, keeps⟩
    · have silent : tx.commitTime? store = none := by
        cases result : (tx.commit store).1 with
        | error error => rw [Transaction.commitTime?_of_error result]
        | ok _ => rw [Transaction.commitTime?_of_ok result, if_pos (unwritten result)]
      rw [silent, Option.toList_none, List.append_nil]
      exact ⟨frames, covers.idle keeps reserved forward⟩
    · have filled : tx.writes.entries.isEmpty = false := by
        cases bare : tx.writes.entries.isEmpty with
        | false => rfl
        | true =>
          have same : (tx.commit store).2.2.clock = store.clock := by
            simp only [Transaction.commit, unfinished, bare, Bool.false_eq_true, if_false, if_true]
            exact Transaction.clock_finish tx store
          rw [same] at ahead
          exact absurd ahead (UInt64.lt_irrefl _)
      rw [Transaction.commitTime?_of_ok done, filled]
      refine ⟨frames ++ [frame], covers.grow keeps (.inl reserved) ahead (UInt64.le_of_eq time.symm)⟩

theorem finish (tx : Transaction) : (tx.finish store).2.Covers frames issued := by
  have reserved : (tx.finish store).2.reserved = store.reserved := by
    rw [Transaction.finish]
    split <;> rfl
  exact covers.idle (covers.keeps.finish tx) reserved (UInt64.le_of_eq (tx.clock_finish store).symm)

end Covers

end Store

theorem World.covers_act {world : World Edits} {frames : List Frame} {issued : List UInt64}
    (covers : world.store.Covers frames issued) (action : Action) (reliable : action.Reliable)
    (forward : world.store.clock ≤ (world.act action).store.clock) :
    ∃ frames, (world.act action).store.Covers frames (issued ++ world.issues action) := by
  -- Calls other than these two hand out nothing, and leave the clock alone.
  have silent {store : Store} (covers : store.Covers frames issued) :
      ∃ frames, store.Covers frames (issued ++ []) := ⟨frames, (List.append_nil issued).symm ▸ covers⟩
  have edited (index : Nat) (key : Bytes) (value : Option Bytes) :
      (world.edit index key value).store.Covers frames issued := by
    rcases edit_cases world index key value with unchanged | ⟨session, _, _, revised⟩
    · rwa [unchanged]
    · rwa [revised]
  have finished (index : Nat) :
      (world.withSession index (world.finish index)).store.Covers frames issued := by
    rcases withSession_cases world index (world.finish index) with unchanged | ⟨session, _, ended⟩
    · rwa [unchanged]
    · rw [ended]
      exact covers.finish session.tx
  cases action with
  | begin =>
    have keeps : (world.act .begin).store.Keeps frames :=
      covers.keeps.of_journal_eq rfl (UInt64.le_refl _)
    exact silent (covers.idle keeps rfl (UInt64.le_refl _))
  | set index key value => exact silent (edited index key (some value))
  | delete index key => exact silent (edited index key none)
  | commit index =>
    simp only [act, withSession, issues] at forward ⊢
    cases found : world.sessions[index]? with
    | none => exact silent covers
    | some session =>
      simp only [found] at forward
      exact covers.commit session.tx forward
  | rollback index => exact silent (finished index)
  | drop index => exact silent (finished index)
  | timestamp => exact covers.timestamp forward
  | machine limit refusals now =>
    obtain rfl : refusals = {} := reliable
    exact silent (covers.idle (keeps_machine covers.keeps limit now) rfl (UInt64.le_refl _))

namespace Disk

structure Keeps (disk : Disk) (index : Nat) : Prop where
  place : disk.place = .directory (.file index)
  present : index < disk.files.length

theorem Keeps.setFile {disk : Disk} {index : Nat} (keeps : disk.Keeps index) (file : File) :
    (disk.setFile index file).Keeps index ∧ (disk.setFile index file).file index = file := by
  have present : index < (disk.files.set index file).length := by
    rw [List.length_set]
    exact keeps.present
  refine ⟨⟨keeps.place, present⟩, ?_⟩
  simp [Disk.file, Disk.setFile, keeps.present]

def Opens (disk : Disk) (frames : List Frame) : Prop :=
  ∀ policy, ∃ index later, disk.openStore policy = (.ok (index, opened policy frames), later) ∧
    later.Keeps index

theorem Keeps.opens {disk : Disk} {index : Nat} (keeps : disk.Keeps index) {frames : List Frame}
    {tail : Bytes} (file : disk.file index = .regular (joined frames ++ tail))
    (ascending : Ascending 0 frames) (stops : Stops (topLsn 0 frames) tail) : disk.Opens frames :=
  fun policy => ⟨index, _, openStore_joined ascending stops keeps.place file policy, (keeps.setFile _).1⟩

theorem opens_absent {disk : Disk} (place : disk.place = .missing ∨ disk.place = .directory .absent) :
    disk.Opens [] := by
  intro policy
  let fresh : Disk := { place := .directory .absent, files := disk.files }
  have same : disk.openStore policy = fresh.openStore policy := by
    obtain ⟨_, files⟩ := disk
    rcases place with rfl | rfl <;> rfl
  have present : disk.files.length < (disk.files ++ [emptyFile]).length := by simp
  exact ⟨_, _, same.trans (openStore_absent disk.files policy), ⟨rfl, present⟩⟩

/-- A disk that a store can be opened on: there is no journal yet, or one in which the sequence numbers
are not ahead of the times. -/
inductive Ready (disk : Disk) : Prop
  | absent (place : disk.place = .missing ∨ disk.place = .directory .absent)
  | journal {index : Nat} {content : Bytes} (place : disk.place = .directory (.file index))
      (file : disk.files[index]? = some (.regular content))
      (numbered : ∀ entries report later, Journal.recover (.regular content) = .ok (entries, report, later) →
        Log.lastLsn entries ≤ (Store.ofEntries entries).clock)

theorem Ready.opens {disk : Disk} (ready : disk.Ready) :
    ∃ frames, disk.Opens frames ∧ Ascending 0 frames ∧ topLsn 0 frames ≤ high frames := by
  cases ready with
  | absent place => exact ⟨[], opens_absent place, by simp, UInt64.le_refl _⟩
  | @journal index content place file numbered =>
    obtain ⟨frames, tail, rfl, ascending, stops⟩ := exists_joined_stops content
    obtain ⟨present, _⟩ := List.getElem?_eq_some_iff.1 file
    have content : disk.file index = .regular (joined frames ++ tail) := by
      simp [Disk.file, file]
    have bound := numbered _ _ _ (recover_joined ascending stops)
    refine ⟨frames, Keeps.opens ⟨place, present⟩ content ascending stops, ascending, ?_⟩
    simpa [Log.lastLsn, topLsn_eq, List.getLast?_map, Option.map_map, high] using bound

end Disk

theorem Store.covers_opened (policy : SyncPolicy) {frames : List Frame} {issued : List UInt64}
    (ordered : Ascending 0 frames) (numbered : topLsn 0 frames ≤ high frames)
    (ascending : issued.Pairwise (· < ·)) (covered : ∀ time ∈ issued, time ≤ high frames) :
    (Disk.opened policy frames).Covers frames issued where
  keeps := ⟨⟨_, rfl, Log.holds_ofMedium ordered policy rfl, rfl⟩, UInt64.le_iff_toNat_le.1 numbered⟩
  numbered := numbered
  reserved := UInt64.le_refl _
  ascending := ascending
  past := covered
  covered := covered

namespace Host

def Covered (host : Host) : Prop :=
  match host.running with
  | none => ∃ frames, host.disk.Opens frames ∧
      ∀ policy, (Disk.opened policy frames).Covers frames host.issued
  | some (index, world) => host.disk.Keeps index ∧ ∃ frames, world.store.Covers frames host.issued

namespace Covered

variable {host : Host}

theorem start (covered : host.Covered) (policy : SyncPolicy) : (host.start policy).Covered := by
  cases state : host.running with
  | some running => simpa [Host.start, state] using covered
  | none =>
    simp only [Covered, state] at covered
    obtain ⟨frames, opens, covers⟩ := covered
    obtain ⟨index, later, opened, keeps⟩ := opens policy
    simp only [Host.start, state, opened]
    exact ⟨keeps, frames, covers policy⟩

theorem close (covered : host.Covered) : host.close.Covered := by
  cases state : host.running with
  | none => simpa [Host.close, state] using covered
  | some running =>
    obtain ⟨index, world⟩ := running
    simp only [Covered, state] at covered
    obtain ⟨keeps, frames, covers⟩ := covered
    obtain ⟨log, kept, holds, _⟩ := covers.keeps.log
    simp only [Host.close, state, Store.close, kept, Option.map_some, Log.close_of_empty holds.empty]
    obtain ⟨kept, file⟩ := keeps.setFile log.medium.file
    have content : (host.disk.setFile index log.medium.file).file index =
        .regular (joined frames ++ []) := by
      rw [file, holds.file, List.append_nil]
    have empty : Unreadable [] := fun filled => absurd rfl filled
    refine ⟨frames, kept.opens content holds.ascending (.inl empty), fun policy => ?_⟩
    exact Store.covers_opened policy holds.ascending covers.numbered covers.ascending covers.covered

theorem call (covered : host.Covered) (action : Action) (reliable : action.Reliable)
    (forward : host.Forward (.call action)) : (host.call action).Covered := by
  cases state : host.running with
  | none => simpa [Host.call, state] using covered
  | some running =>
    obtain ⟨index, world⟩ := running
    simp only [Covered, state] at covered
    obtain ⟨keeps, frames, covers⟩ := covered
    have forward : world.store.clock ≤ (world.act action).store.clock := forward _ state
    simp only [Host.call, state]
    exact ⟨keeps, World.covers_act covers action reliable forward⟩

theorem step (covered : host.Covered) (event : Event) (reliable : event.Reliable)
    (forward : host.Forward event) : (host.step event).Covered := by
  cases event with
  | opening policy => exact covered.start policy
  | closing => exact covered.close
  | call action => exact covered.call action reliable forward

theorem run (covered : host.Covered) {events : List Event}
    (reliable : ∀ event ∈ events, event.Reliable) (steady : host.Steady events) :
    (host.run events).Covered := by
  induction events generalizing host with
  | nil => exact covered
  | cons event rest ih =>
    have next := covered.step event (reliable event List.mem_cons_self) steady.1
    exact ih next (fun later member => reliable later (List.mem_cons_of_mem _ member)) steady.2

theorem ascending (covered : host.Covered) : host.issued.Pairwise (· < ·) := by
  rw [Covered] at covered
  split at covered
  · obtain ⟨_, _, covers⟩ := covered
    exact (covers .everyWrite).ascending
  · obtain ⟨_, _, covers⟩ := covered
    exact covers.ascending

end Covered

theorem issued_ascending {disk : Disk} (ready : disk.Ready) {events : List Event}
    (reliable : ∀ event ∈ events, event.Reliable) (steady : Host.Steady { disk } events) :
    let host := Host.run { disk } events
    host.issued.Pairwise (· < ·) ∧
      (host.running = none → ∀ policy, ∃ index store later,
        host.disk.openStore policy = (.ok (index, store), later) ∧
          ∀ time ∈ host.issued, time ≤ store.clock) := by
  intro host
  obtain ⟨frames, opens, ordered, numbered⟩ := ready.opens
  have initial : Covered { disk } := ⟨frames, opens, fun policy =>
    Store.covers_opened policy ordered numbered List.Pairwise.nil (by simp)⟩
  have covered : host.Covered := initial.run reliable steady
  refine ⟨covered.ascending, fun closed policy => ?_⟩
  simp only [Covered, closed] at covered
  obtain ⟨frames, opens, covers⟩ := covered
  obtain ⟨index, later, opened, _⟩ := opens policy
  exact ⟨index, _, later, opened, (covers policy).past⟩

-- The store is opened twice. The second time, the commit and the first timestamp find no room.
def reopened : List Event :=
  [.opening .everyWrite, .call .timestamp, .call .begin, .call (.set 0 [1] [10]), .call (.commit 0), .closing,
    .opening .everyWrite, .call (.machine (some 150) {} 0), .call .begin, .call (.set 0 [1] [11]),
    .call (.commit 0), .call .timestamp, .call (.machine none {} 0), .call .timestamp, .closing]

theorem issued_ascending_reopened :
    let host := run {} reopened
    host.issued = [1, 2, 1004] ∧ host.issued.Pairwise (· < ·) ∧
      ∃ index store later, host.disk.openStore .everyWrite = (.ok (index, store), later) ∧
        1004 ≤ store.clock := by
  intro host
  have reliable : ∀ event ∈ reopened, event.Reliable := by
    simp [reopened, Event.Reliable, Action.Reliable]
  have steady : Steady {} reopened := by decide +kernel
  obtain ⟨ascending, opens⟩ := issued_ascending (.absent (.inl rfl)) reliable steady
  have issued : host.issued = [1, 2, 1004] := by decide +kernel
  have closed : host.running.isNone := by decide +kernel
  obtain ⟨index, store, later, opened, past⟩ := opens (Option.isNone_iff_eq_none.1 closed) .everyWrite
  refine ⟨issued, ascending, index, store, later, opened, past 1004 ?_⟩
  rw [issued]
  simp

end Host

end FsMeta
