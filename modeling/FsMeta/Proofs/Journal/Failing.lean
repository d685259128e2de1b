import FsMeta.Proofs.Journal.Halting

set_option autoImplicit false

namespace FsMeta.Journal

def File.Clean (file : File) : Prop :=
  ∃ found entries report, recover found = .ok (entries, report, file)

theorem File.Clean.exists_joined {file : File} (clean : file.Clean) :
    ∃ frames, Ascending 0 frames ∧ file = .regular (joined frames) := by
  obtain ⟨found, entries, report, recovered⟩ := clean
  cases found with
  | full =>
    have nothing : (recover .full).toOption = none := rfl
    rw [recovered] at nothing
    cases nothing
  | regular content =>
    obtain ⟨frames, tail, rfl, ascending, stops⟩ := exists_joined_stops content
    rw [recover_joined ascending stops] at recovered
    cases recovered
    exact ⟨frames, ascending, rfl⟩

namespace Log

/-- The sequence numbers have not run out. -/
inductive Reached (first : File) : Log → Prop where
  | opened (policy : SyncPolicy) {medium : Medium} :
      medium.file = first → Reached first (ofMedium policy medium)
  | machine {log : Log} (batch : Batch) : Reached first log → Reached first (log.onMachine batch)
  | appended {log : Log} (commitTime : UInt64) (operations : List Operation) :
      Reached first log → log.nextLsn ≠ 0 → Reached first (log.append commitTime operations).2
  | synced {log : Log} : Reached first log → Reached first log.sync.2

/-- The entries are recovered, and later calls go on behind them. Where no sync is refused and no file that is to
be cut, those that end well are numbered from there one after another and recovered too, and every call ends well
that nothing keeps from it. But a log that is broken refuses all of them. -/
structure Continues (log : Log) (entries : List Entry) : Prop where
  leaves : log.Leaves entries
  behind : ∀ asks : List Ask, (lastLsn entries).toNat + (Ask.batches asks).length < UInt64.size →
    (∀ batch ∈ Ask.batches asks, batch.refusals.sync = none ∧ batch.refusals.clone = none) →
    ∃ taken, taken.Sublist (Ask.batches asks) ∧
      (log.serves asks).1 = Batch.numbered (lastLsn entries + 1) taken ∧
      (log.serves asks).2.Leaves (entries ++ (log.serves asks).1)
  accepts : log.broken = false →
    ∀ asks : List Ask, (lastLsn entries).toNat + (Ask.batches asks).length < UInt64.size →
      (∀ batch ∈ Ask.batches asks, batch.Unhindered ∧ batch.Fits) →
      (log.serves asks).1 = Batch.numbered (lastLsn entries + 1) (Ask.batches asks)
  refuses : log.broken = true → log.Refuses

/-- The log goes on behind these entries, or it has stopped for good with a part of another one in its buffer. -/
structure Settles (log : Log) (entries : List Entry) : Prop where
  recovered : log.medium.file.entries = .ok entries
  continues : log.buffer = [] → log.Continues entries
  suspends : log.buffer ≠ [] → ∃ failed, log.Suspends entries failed

/-- What a failed call makes of a log that these entries are recovered from. The log stops only if the part that
was written could not be cut off. -/
structure Aftermath (log : Log) (entries : List Entry) (commitTime : UInt64) (operations : List Operation)
    (error : Error) (later : Log) : Prop where
  breaks : later.broken = true → log.broken = true ∨ log.medium.refusals.cut ≠ none ∨ log.medium.refusals.clone ≠ none
  settles : ¬ log.Stores commitTime operations → later.Settles entries
  suspends : ¬ log.Stores commitTime operations → log.broken = false → later.buffer ≠ [] →
    log.medium.refusals.clone ≠ none ∧ later.Suspends entries (log.entry commitTime operations)
  stays : log.Stores commitTime operations →
    (∃ fault, log.medium.refusals.sync = some fault ∧ error = .io fault) ∧
      later.Continues (entries ++ [log.entry commitTime operations])

variable {log : Log} {frames : List Frame} {frame : Frame}

theorem lastLsn_map (frames : List Frame) : lastLsn (frames.map Frame.entry) = topLsn 0 frames := by
  rw [lastLsn, topLsn_eq, List.getLast?_map, Option.map_map]

namespace Holds

theorem onto (holds : log.Holds frames) (limit : Option Nat) (refusals : Refusals) :
    (log.onto limit refusals).Holds frames :=
  { holds with file := holds.file }

theorem sync (holds : log.Holds frames) : log.sync.2.Holds frames := by
  obtain ⟨waiting, settled⟩ := sync_frame holds.empty
  rw [settled]
  exact { holds with file := holds.file }

theorem leaves (holds : log.Holds frames) : log.Leaves (frames.map Frame.entry) := by
  have found {file : File} (content : file = .regular (joined frames)) :
      file.entries = .ok (frames.map Frame.entry) := by
    rw [← List.append_nil (joined frames)] at content
    exact entries_of_file holds.ascending content fun nonempty => absurd rfl nonempty
  refine ⟨found holds.file, fun limit refusals => ?_⟩
  rw [close_of_empty (holds.onto limit refusals).empty]
  exact found holds.file

theorem room (holds : log.Holds frames) (left : log.nextLsn ≠ 0) : (topLsn 0 frames).toNat + 1 < UInt64.size := by
  have bound : (topLsn 0 frames).toNat < UInt64.size := (topLsn 0 frames).toNat_lt
  by_contra beyond
  have last : topLsn 0 frames = 18446744073709551615 := by
    refine UInt64.toNat_inj.1 ?_
    simp only [UInt64.size] at beyond bound
    simp
    omega
  rw [holds.next, last] at left
  exact left rfl

theorem serves_of_fits (holds : log.Holds frames) {asks : List Ask}
    (room : (topLsn 0 frames).toNat + (Ask.batches asks).length < UInt64.size)
    (easy : ∀ batch ∈ Ask.batches asks, batch.Unhindered ∧ batch.Fits) :
    (log.serves asks).1 = Batch.numbered (topLsn 0 frames + 1) (Ask.batches asks) := by
  induction asks generalizing log frames with
  | nil => rfl
  | cons ask rest ih =>
    cases ask with
    | sync limit refusals => exact ih (holds.onto limit refusals).sync room easy
    | append batch =>
      change (topLsn 0 frames).toNat + (batch :: Ask.batches rest).length < UInt64.size at room
      rw [List.length_cons] at room
      obtain ⟨unhindered, fits⟩ := easy batch List.mem_cons_self
      have succeeded := holds.take_of_fits unhindered fits
      obtain ⟨_, frame, entry, top, later⟩ := holds.take (by omega) succeeded
      have next : (topLsn 0 (frames ++ [frame])).toNat = (topLsn 0 frames).toNat + 1 := by
        rw [top, toNat_add_one (by omega)]
      have others := ih later (by rw [next]; omega) fun other member => easy other (List.mem_cons_of_mem _ member)
      have first : log.serve (.append batch) = ([batch.entry log.nextLsn], (log.take batch).2) := by
        rw [serve, ← Prod.eta (log.take batch), succeeded]
      rw [Log.serves, first]
      change batch.entry log.nextLsn :: ((log.take batch).2.serves rest).1 = _
      rw [others, top, holds.next]
      rfl

end Holds

def Stands (log : Log) (frames : List Frame) : Prop := log.Holds frames ∨ log.Torn frames

namespace Stands

theorem empty (stands : log.Stands frames) : log.buffer = [] := stands.elim Holds.empty Torn.empty

theorem leaves (stands : log.Stands frames) : log.Leaves (frames.map Frame.entry) :=
  stands.elim Holds.leaves Torn.leaves

theorem onMachine (stands : log.Stands frames) (batch : Batch) : (log.onMachine batch).Stands frames :=
  stands.imp (fun holds => holds.onMachine batch) fun torn => torn.onMachine batch

theorem onto (stands : log.Stands frames) (limit : Option Nat) (refusals : Refusals) :
    (log.onto limit refusals).Stands frames :=
  stands.imp (fun holds => holds.onto limit refusals) fun torn => torn.onto limit refusals

theorem sync (stands : log.Stands frames) : log.sync.2.Stands frames := stands.imp Holds.sync Torn.sync

/-- What a call can leave, also on a log that is broken. -/
theorem append_cases (stands : log.Stands frames)
    (room : log.broken = false → (topLsn 0 frames).toNat + 1 < UInt64.size) (commitTime : UInt64)
    (operations : List Operation) :
    let result := (log.append commitTime operations).1
    let later := (log.append commitTime operations).2
    (later.broken = true → log.broken = true ∨ log.medium.refusals.cut ≠ none ∨ log.medium.refusals.clone ≠ none) ∧
    ((¬ log.Stores commitTime operations ∧ (∃ error, result = .error error) ∧
      (later.Stands frames ∨ log.broken = false ∧ log.medium.refusals.clone ≠ none ∧
        ∃ frame, frame.entry = log.entry commitTime operations ∧ later.Pending frames frame)) ∨
    (log.Stores commitTime operations ∧
      (result = .ok log.nextLsn ∨
        ∃ fault, log.medium.refusals.sync = some fault ∧ result = .error (.io fault)) ∧
      ∃ frame, frame.entry = log.entry commitTime operations ∧ later.Holds (frames ++ [frame]))) := by
  have unbroken {later : Log} {more : List Frame} (holds : later.Holds more) {kept : Prop}
      (broken : later.broken = true) : kept :=
    (Bool.false_ne_true (holds.intact.symm.trans broken)).elim
  rcases stands with holds | torn
  · obtain ⟨_, ⟨unstored, failed, left⟩ | ⟨stored, result, frame, entry, later⟩⟩ :=
      holds.append_cases (room holds.intact) commitTime operations
    · rcases left with later | ⟨refused, later | ⟨unopened, later⟩⟩
      · exact ⟨unbroken later, .inl ⟨unstored, failed, .inl (.inl later)⟩⟩
      · exact ⟨fun _ => .inr refused, .inl ⟨unstored, failed, .inl (.inr later)⟩⟩
      · exact ⟨fun _ => .inr refused, .inl ⟨unstored, failed, .inr ⟨holds.intact, unopened, later⟩⟩⟩
    · exact ⟨unbroken later, .inr ⟨stored, result, frame, entry, later⟩⟩
  · rw [append_of_broken torn.broken]
    refine ⟨.inl, .inl ⟨fun stored => ?_, ⟨_, rfl⟩, .inl (.inr torn)⟩⟩
    cases torn.broken.symm.trans stored.1

-- Nothing refuses the sync or the cut, so a call that fails has not written its frame and leaves nothing of it.
theorem take (stands : log.Stands frames) (room : (topLsn 0 frames).toNat + 1 < UInt64.size)
    {batch : Batch} (synced : batch.refusals.sync = none) (reopened : batch.refusals.clone = none) :
    ((∃ error, (log.take batch).1 = .error error) ∧ (log.take batch).2.Stands frames) ∨
    ∃ frame, frame.entry = batch.entry (topLsn 0 frames + 1) ∧
      topLsn 0 (frames ++ [frame]) = topLsn 0 frames + 1 ∧
      (log.take batch).1 = .ok (topLsn 0 frames + 1) ∧ (log.take batch).2.Stands (frames ++ [frame]) := by
  rcases stands with holds | torn
  · have on : (log.onMachine batch).Stands frames := .inl (holds.onMachine batch)
    obtain ⟨_, ⟨_, failed, left⟩ | ⟨_, result, frame, entry, later⟩⟩ :=
      on.append_cases (fun _ => room) batch.commitTime batch.operations
    · rcases left with left | ⟨_, unopened, _⟩
      · exact .inl ⟨failed, left⟩
      · exact absurd reopened unopened
    · obtain ⟨entry, top⟩ := numbered_frame holds.next entry
      rcases result with succeeded | ⟨fault, refused, _⟩
      · rw [(holds.onMachine batch).next] at succeeded
        exact .inr ⟨frame, entry, top, succeeded, .inl later⟩
      · cases synced.symm.trans refused
  · rw [take_of_broken torn.broken batch]
    exact .inl ⟨⟨_, rfl⟩, .inr (torn.onMachine batch)⟩

theorem serves (stands : log.Stands frames) {asks : List Ask}
    (room : (topLsn 0 frames).toNat + (Ask.batches asks).length < UInt64.size)
    (unrefused : ∀ batch ∈ Ask.batches asks, batch.refusals.sync = none ∧ batch.refusals.clone = none) :
    ∃ taken, taken.Sublist (Ask.batches asks) ∧
      (log.serves asks).1 = Batch.numbered (topLsn 0 frames + 1) taken ∧
      ∃ more, more.map Frame.entry = (log.serves asks).1 ∧ (log.serves asks).2.Stands (frames ++ more) := by
  induction asks generalizing log frames with
  | nil => exact ⟨[], List.Sublist.refl _, rfl, [], rfl, by simpa [Log.serves] using stands⟩
  | cons ask rest ih =>
    cases ask with
    | sync limit refusals => exact ih (stands.onto limit refusals).sync room unrefused
    | append batch =>
      change (topLsn 0 frames).toNat + (batch :: Ask.batches rest).length < UInt64.size at room
      rw [List.length_cons] at room
      obtain ⟨⟨synced, reopened⟩, others⟩ := List.forall_mem_cons.1 unrefused
      rcases stands.take (by omega) synced reopened with ⟨⟨error, failed⟩, left⟩ | ⟨frame, entry, top, succeeded, later⟩
      · have first : log.serve (.append batch) = ([], (log.take batch).2) := by
          rw [serve, ← Prod.eta (log.take batch), failed]
        obtain ⟨taken, within, results, more, entries, last⟩ := ih left (by omega) others
        rw [Log.serves, first]
        exact ⟨taken, within.trans (List.sublist_cons_self _ _), results, more, entries, last⟩
      · have first : log.serve (.append batch) = ([batch.entry (topLsn 0 frames + 1)], (log.take batch).2) := by
          rw [serve, ← Prod.eta (log.take batch), succeeded]
        have next : (topLsn 0 (frames ++ [frame])).toNat = (topLsn 0 frames).toNat + 1 := by
          rw [top, toNat_add_one (by omega)]
        obtain ⟨taken, within, results, more, entries, last⟩ := ih later (by rw [next]; omega) others
        rw [Log.serves, first]
        refine ⟨batch :: taken, within.cons_cons batch, ?_, frame :: more, ?_, by rwa [List.append_assoc] at last⟩
        · change batch.entry _ :: ((log.take batch).2.serves rest).1 = _
          rw [results, top]
          rfl
        · rw [List.map_cons, entry, entries]
          rfl

theorem continues (stands : log.Stands frames) : log.Continues (frames.map Frame.entry) := by
  constructor
  · exact stands.leaves
  · intro asks room unrefused
    rw [lastLsn_map] at room ⊢
    obtain ⟨taken, within, results, more, entries, last⟩ := stands.serves room unrefused
    have leaves := last.leaves
    rw [List.map_append, entries] at leaves
    exact ⟨taken, within, results, leaves⟩
  · intro intact asks room easy
    rw [lastLsn_map] at room ⊢
    rcases stands with holds | torn
    · exact holds.serves_of_fits room easy
    · cases intact.symm.trans torn.broken
  · exact refuses_of_broken

end Stands

def Keeps (log : Log) (frames : List Frame) : Prop := log.Stands frames ∨ ∃ frame, log.Pending frames frame

namespace Keeps

theorem entries (keeps : log.Keeps frames) : log.medium.file.entries = .ok (frames.map Frame.entry) := by
  rcases keeps with stands | ⟨frame, pending⟩
  · exact stands.leaves.recovered
  · exact pending.entries

theorem settles (keeps : log.Keeps frames) : log.Settles (frames.map Frame.entry) := by
  rcases keeps with stands | ⟨frame, pending⟩
  · exact ⟨stands.leaves.recovered, fun _ => stands.continues, fun waits => absurd stands.empty waits⟩
  · exact ⟨pending.entries, fun empty => absurd empty (List.length_pos_iff.1 pending.waits),
      fun _ => ⟨_, pending.suspends⟩⟩

theorem onMachine (keeps : log.Keeps frames) (batch : Batch) : (log.onMachine batch).Keeps frames :=
  keeps.imp (fun stands => stands.onMachine batch) fun ⟨frame, pending⟩ =>
    ⟨frame, { pending with split := pending.split }⟩

theorem exists_sync (keeps : log.Keeps frames) : ∃ more, log.sync.2.Keeps more := by
  rcases keeps with stands | ⟨frame, pending⟩
  · exact ⟨frames, .inl stands.sync⟩
  · rcases pending.halted.sync with pending | torn
    · exact ⟨frames, .inr ⟨frame, pending⟩⟩
    · exact ⟨_, .inl (.inr torn)⟩

theorem append_failed (keeps : log.Keeps frames) (left : log.nextLsn ≠ 0) {commitTime : UInt64}
    {operations : List Operation} {error : Error}
    (failed : (log.append commitTime operations).1 = .error error) :
    log.Aftermath (frames.map Frame.entry) commitTime operations error (log.append commitTime operations).2 := by
  rcases keeps with stands | ⟨frame, pending⟩
  · have room (intact : log.broken = false) : (topLsn 0 frames).toNat + 1 < UInt64.size := by
      rcases stands with holds | torn
      · exact holds.room left
      · cases intact.symm.trans torn.broken
    obtain ⟨breaks, ⟨unstored, _, later⟩ | ⟨stored, result, frame, entry, later⟩⟩ :=
      stands.append_cases room commitTime operations
    · refine ⟨breaks, fun _ => settles (later.imp id fun ⟨_, _, frame, _, pending⟩ => ⟨frame, pending⟩),
        fun _ _ waits => ?_, fun stored => absurd stored unstored⟩
      rcases later with later | ⟨_, unopened, frame, entry, pending⟩
      · exact absurd later.empty waits
      · have suspends := pending.suspends
        rw [entry] at suspends
        exact ⟨unopened, suspends⟩
    · refine ⟨breaks, fun unstored => absurd stored unstored, fun unstored => absurd stored unstored,
        fun _ => ⟨?_, ?_⟩⟩
      · rw [failed] at result
        rcases result with succeeded | ⟨fault, refused, same⟩
        · cases succeeded
        · exact ⟨fault, refused, Except.error.inj same⟩
      · have continued := Stands.continues (.inl later)
        rwa [List.map_append, List.map_singleton, entry] at continued
  · rw [append_of_broken pending.broken]
    have keeps : log.Keeps frames := .inr ⟨frame, pending⟩
    refine ⟨.inl, fun _ => keeps.settles, fun _ intact => ?_, fun stored => ?_⟩
    · cases intact.symm.trans pending.broken
    · cases stored.1.symm.trans pending.broken

theorem exists_append (keeps : log.Keeps frames) (left : log.nextLsn ≠ 0) (commitTime : UInt64)
    (operations : List Operation) : ∃ more, (log.append commitTime operations).2.Keeps more := by
  rcases keeps with (holds | torn) | ⟨frame, pending⟩
  · obtain ⟨_, ⟨_, _, later⟩ | ⟨_, _, frame, _, later⟩⟩ :=
      Stands.append_cases (.inl holds) (fun _ => holds.room left) commitTime operations
    · exact ⟨frames, later.imp id fun ⟨_, _, frame, _, pending⟩ => ⟨frame, pending⟩⟩
    · exact ⟨_, .inl (.inl later)⟩
  · rw [append_of_broken torn.broken]
    exact ⟨frames, .inl (.inr torn)⟩
  · rw [append_of_broken pending.broken]
    exact ⟨frames, .inr ⟨frame, pending⟩⟩

end Keeps

def Level (log : Log) : Prop :=
  log.broken = false → log.validLength = log.medium.file.length ∧ log.buffer = []

theorem writeThrough_full (file : log.medium.file = .full) (empty : log.buffer = []) {bytes : Bytes}
    (nonempty : 0 < bytes.length) :
    ∃ fault left, log.writeThrough bytes = (some fault, { log with buffer := left }) := by
  have filled : bytes.isEmpty = false := List.isEmpty_eq_false_iff.2 (List.length_pos_iff.1 nonempty)
  obtain ⟨medium, buffer, policy, nextLsn, validLength, waiting, broken⟩ := log
  obtain ⟨_, limit, refusals, now⟩ := medium
  cases file
  cases empty
  by_cases short : bytes.length < bufferLength
  · exact ⟨.noSpace, bytes,
      by simp [writeThrough, write, short, flush, filled, Medium.append, File.append, File.length]⟩
  · exact ⟨.noSpace, [], by simp [writeThrough, write, short, flush, Medium.append, File.append]⟩

theorem cutOff_full (file : log.medium.file = .full) : log.cutOff.broken = true := by
  rw [cutOff]
  split
  · rfl
  · have uncut : ∃ fault, log.medium.setLength log.validLength = .error fault := by
      rw [Medium.setLength, file]
      cases log.medium.refusals.cut with
      | none => exact ⟨.invalidArgument, rfl⟩
      | some fault => exact ⟨fault, rfl⟩
    obtain ⟨fault, uncut⟩ := uncut
    rw [uncut]

-- The file may have been anything when the log was opened.
theorem Level.append (level : log.Level) (commitTime : UInt64) (operations : List Operation) :
    let later := (log.append commitTime operations).2
    later.Level ∧ (¬ log.Stores commitTime operations →
      later.medium.file = log.medium.file ∨ later.broken = true) := by
  have stopped {later : Log} (broken : later.broken = true) : later.Level := fun intact => by
    cases intact.symm.trans broken
  cases intact : log.broken with
  | true =>
    rw [append_of_broken intact]
    exact ⟨level, fun _ => .inl rfl⟩
  | false =>
    obtain ⟨valid, empty⟩ := level intact
    rcases append_frame intact commitTime operations with
      ⟨⟨error, refused⟩, _⟩ | ⟨frame, _, appended, stores⟩
    · rw [refused]
      exact ⟨level, fun _ => .inl rfl⟩
    rw [appended, stores]
    cases file : log.medium.file with
    | full =>
      obtain ⟨fault, left, written⟩ := writeThrough_full file empty frame.length_pos
      have broken : (log.appendFrame frame.bytes).2.broken = true := by
        rw [appendFrame, written]
        exact cutOff_full file
      exact ⟨stopped broken, fun _ => .inr broken⟩
    | regular content =>
      rw [file, File.length] at valid
      rcases appendFrame_cases empty file frame with ⟨count, _, fault, left, _, _, failed⟩ | ⟨written, ended⟩
      · rw [failed]
        rcases cutOff_holding empty file valid (frame.bytes.take count) left with cut | ⟨_, broken⟩ | ⟨_, broken⟩
        · rw [cut]
          exact ⟨level, fun _ => .inl file⟩
        · rw [broken]
          exact ⟨stopped rfl, fun _ => .inr rfl⟩
        · rw [broken]
          exact ⟨stopped rfl, fun _ => .inr rfl⟩
      · let grown := (log.holding (content ++ frame.bytes)).written frame.bytes.length
        have clear : grown.buffer = [] := empty
        obtain ⟨waiting, settled⟩ := syncIfDue_frame clear
        rw [ended, settled]
        refine ⟨fun _ => ⟨?_, empty⟩, fun unwritten => absurd written unwritten⟩
        simp [grown, Log.written, holding, valid, File.length]

theorem Reached.level {first : File} (reached : log.Reached first) : log.Level := by
  induction reached with
  | opened policy file => exact fun _ => ⟨rfl, rfl⟩
  | machine batch _ ih => exact ih
  | appended commitTime operations _ _ ih => exact (ih.append commitTime operations).1
  | @synced log _ ih =>
    intro intact
    obtain ⟨valid, empty⟩ := ih (log.sync_broken.symm.trans intact)
    obtain ⟨waiting, settled⟩ := sync_frame empty
    rw [settled]
    exact ⟨valid, empty⟩

theorem Reached.exists_keeps {first : File} (clean : first.Clean) (reached : log.Reached first) :
    ∃ frames, log.Keeps frames := by
  induction reached with
  | opened policy file =>
    obtain ⟨frames, ascending, content⟩ := clean.exists_joined
    exact ⟨frames, .inl (.inl (holds_ofMedium ascending policy (file.trans content)))⟩
  | machine batch _ ih =>
    obtain ⟨frames, keeps⟩ := ih
    exact ⟨frames, keeps.onMachine batch⟩
  | appended commitTime operations _ left ih =>
    obtain ⟨frames, keeps⟩ := ih
    exact keeps.exists_append left commitTime operations
  | synced _ ih =>
    obtain ⟨frames, keeps⟩ := ih
    exact keeps.exists_sync

end Log

end FsMeta.Journal
