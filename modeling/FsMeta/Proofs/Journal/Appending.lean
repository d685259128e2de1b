import FsMeta.Proofs.Journal.Writer

set_option autoImplicit false

namespace FsMeta.Journal

structure Batch where
  commitTime : UInt64
  operations : List Operation
  limit : Option Nat := none
  refusals : Refusals := {}
  now : UInt64 := 0
  deriving Repr, DecidableEq

namespace Batch

def entry (batch : Batch) (lsn : UInt64) : Entry :=
  { lsn, commitTime := batch.commitTime, timestamp := batch.now, operations := batch.operations }

-- The number takes eight bytes whatever it is, so it does not matter for the size.
def Fits (batch : Batch) : Prop := (batch.entry 0).Fits

def Unhindered (batch : Batch) : Prop := batch.limit = none ∧ batch.refusals = {}

def numbered : UInt64 → List Batch → List Entry
  | _, [] => []
  | lsn, batch :: rest => batch.entry lsn :: numbered (lsn + 1) rest

theorem Fits.entry {batch : Batch} (fits : batch.Fits) (lsn : UInt64) : (batch.entry lsn).Fits := by
  have length : (batch.entry lsn).body.length = (batch.entry 0).body.length := by
    simp [Entry.body, Entry.layout, Layout.iso, Layout.pair, Layout.uint64, Layout.number, Batch.entry]
  rw [Entry.Fits, length]
  exact fits

end Batch

namespace Log

def onMachine (log : Log) (batch : Batch) : Log :=
  { log with
    medium := { log.medium with limit := batch.limit, refusals := batch.refusals, now := batch.now } }

def take (log : Log) (batch : Batch) : Except Error UInt64 × Log :=
  (log.onMachine batch).append batch.commitTime batch.operations

def takeAll : Log → List Batch → List (Except Error UInt64) × Log
  | log, [] => ([], log)
  | log, batch :: rest =>
    let (result, log) := log.take batch
    let (results, log) := log.takeAll rest
    (result :: results, log)

variable {log : Log} {frames : List Frame}

theorem Holds.onMachine (holds : log.Holds frames) (batch : Batch) : (log.onMachine batch).Holds frames :=
  { holds with file := holds.file }

theorem numbered_frame (next : log.nextLsn = topLsn 0 frames + 1) {batch : Batch} {frame : Frame}
    (entry : frame.entry = (log.onMachine batch).entry batch.commitTime batch.operations) :
    frame.entry = batch.entry (topLsn 0 frames + 1) ∧
      topLsn 0 (frames ++ [frame]) = topLsn 0 frames + 1 := by
  have entry : frame.entry = batch.entry (topLsn 0 frames + 1) := by
    rw [entry, ← next]
    rfl
  refine ⟨entry, ?_⟩
  rw [topLsn_concat, entry]
  rfl

theorem Holds.take (holds : log.Holds frames) (room : (topLsn 0 frames).toNat + 1 < UInt64.size)
    {batch : Batch} {lsn : UInt64} (succeeded : (log.take batch).1 = .ok lsn) :
    lsn = topLsn 0 frames + 1 ∧ ∃ frame, frame.entry = batch.entry (topLsn 0 frames + 1) ∧
      topLsn 0 (frames ++ [frame]) = topLsn 0 frames + 1 ∧ (log.take batch).2.Holds (frames ++ [frame]) := by
  obtain ⟨same, frame, entry, later⟩ := (holds.onMachine batch).append_ok room succeeded
  obtain ⟨entry, top⟩ := numbered_frame holds.next entry
  exact ⟨same.trans holds.next, frame, entry, top, later⟩

theorem Holds.take_of_fits (holds : log.Holds frames) {batch : Batch} (unhindered : batch.Unhindered)
    (fits : batch.Fits) : (log.take batch).1 = .ok log.nextLsn := by
  have reliable : (log.onMachine batch).Reliable := unhindered.2
  exact (holds.onMachine batch).append_of_fits reliable unhindered.1 (fits.entry _)

theorem Holds.takeAll (holds : log.Holds frames) {batches : List Batch}
    (room : (topLsn 0 frames).toNat + batches.length < UInt64.size)
    (succeeded : ∀ result ∈ (log.takeAll batches).1, ∃ lsn, result = .ok lsn) :
    (log.takeAll batches).1 =
        (Batch.numbered (topLsn 0 frames + 1) batches).map (fun entry => .ok entry.lsn) ∧
      ∃ more, more.map Frame.entry = Batch.numbered (topLsn 0 frames + 1) batches ∧
        (log.takeAll batches).2.Holds (frames ++ more) := by
  induction batches generalizing log frames with
  | nil => exact ⟨rfl, [], rfl, by simpa [Log.takeAll] using holds⟩
  | cons batch rest ih =>
    rw [List.length_cons] at room
    obtain ⟨lsn, first⟩ := succeeded (log.take batch).1 List.mem_cons_self
    obtain ⟨rfl, frame, entry, top, later⟩ := holds.take (by omega) first
    have next : (topLsn 0 (frames ++ [frame])).toNat = (topLsn 0 frames).toNat + 1 := by
      rw [top, toNat_add_one (by omega)]
    obtain ⟨results, more, entries, last⟩ := ih later (by omega) fun result member =>
      succeeded result (List.mem_cons_of_mem _ member)
    rw [top] at results entries
    refine ⟨?_, frame :: more, ?_, by rwa [List.append_assoc] at last⟩
    · exact congr (congrArg List.cons first) results
    · rw [List.map_cons, entry, entries]
      rfl

theorem Holds.takeAll_of_fits (holds : log.Holds frames) {batches : List Batch}
    (room : (topLsn 0 frames).toNat + batches.length < UInt64.size)
    (unhindered : ∀ batch ∈ batches, batch.Unhindered) (fit : ∀ batch ∈ batches, batch.Fits) :
    ∀ result ∈ (log.takeAll batches).1, ∃ lsn, result = .ok lsn := by
  induction batches generalizing log frames with
  | nil => simp [Log.takeAll]
  | cons batch rest ih =>
    rw [List.length_cons] at room
    have first : (log.take batch).1 = .ok log.nextLsn :=
      holds.take_of_fits (unhindered batch List.mem_cons_self) (fit batch List.mem_cons_self)
    obtain ⟨_, frame, entry, top, later⟩ := holds.take (by omega) first
    have next : (topLsn 0 (frames ++ [frame])).toNat = (topLsn 0 frames).toNat + 1 := by
      rw [top, toNat_add_one (by omega)]
    have others := ih later (by omega) (fun other member => unhindered other (List.mem_cons_of_mem _ member))
      fun other member => fit other (List.mem_cons_of_mem _ member)
    intro result member
    rcases List.mem_cons.1 member with rfl | member
    · exact ⟨_, first⟩
    · exact others result member

end Log

theorem recovery_exact (content : Bytes) (policy : SyncPolicy) :
    ∃ frames : List Frame, Ascending 0 frames ∧ joined frames <+: content ∧
      (∀ others : List Frame, Ascending 0 others → joined others <+: content → others <+: frames) ∧
      (∃ report, recover (.regular content) =
          .ok (frames.map Frame.entry, report, .regular (joined frames)) ∧
        report.recovered = frames.length ∧ report.lastLsn = topLsn 0 frames ∧
        (0 < report.corrupted ↔ joined frames ≠ content) ∧
        (report.truncated = true ↔ joined frames ≠ content)) ∧
      Cursor.positionAfter frames.length { source := .bytes content } = (joined frames).length ∧
      (∃ report, recover (.regular (joined frames)) =
          .ok (frames.map Frame.entry, report, .regular (joined frames)) ∧
        report.corrupted = 0 ∧ report.truncated = false) ∧
      ∀ batches : List Batch, (topLsn 0 frames).toNat + batches.length < UInt64.size - 1 →
        let ended := (Log.ofMedium policy { file := .regular (joined frames) }).takeAll batches
        let appended := Batch.numbered (topLsn 0 frames + 1) batches
        ((∀ batch ∈ batches, batch.Unhindered) → (∀ batch ∈ batches, batch.Fits) →
          ∀ result ∈ ended.1, ∃ lsn, result = .ok lsn) ∧
        ((∀ result ∈ ended.1, ∃ lsn, result = .ok lsn) →
          ended.1 = appended.map (fun entry => .ok entry.lsn) ∧
          ∃ report, recover ended.2.medium.file =
              .ok (frames.map Frame.entry ++ appended, report, ended.2.medium.file) ∧
            report.corrupted = 0 ∧ report.truncated = false) := by
  -- The frames are all that can be read in ascending order; why the reader stops behind them is in `stops`.
  obtain ⟨frames, tail, rfl, ascending, stops⟩ := exists_joined_stops content
  refine ⟨frames, ascending, List.prefix_append _ _, fun others ordered front =>
    isPrefix_of_ascending stops ordered front, ?_, ?_, recover_undamaged ascending, fun batches room => ?_⟩
  · obtain ⟨corrupted, truncated⟩ := Report.of_damage frames tail
    exact ⟨.of frames tail, recover_joined ascending stops, rfl, rfl, corrupted, truncated⟩
  · have counted := positionAfter_joined frames tail 0
    rwa [Nat.zero_add] at counted
  · have file : ({ file := .regular (joined frames) } : Medium).file = .regular (joined frames) := rfl
    have holds := Log.holds_ofMedium ascending policy file
    have enough : (topLsn 0 frames).toNat + batches.length < UInt64.size := by omega
    refine ⟨fun unhindered fit => holds.takeAll_of_fits enough unhindered fit, fun succeeded => ?_⟩
    obtain ⟨results, more, entries, last⟩ := holds.takeAll enough succeeded
    refine ⟨results, ?_⟩
    rw [last.file, ← entries, ← List.map_append]
    exact recover_undamaged last.ascending

-- The second frame has the number of the first, so both it and the one behind it are cut off.
def repeated : Bytes :=
  Entry.image ⟨1, 1, 0, [.put [1] [10]]⟩ ++ Entry.image ⟨1, 2, 0, [.put [1] [11]]⟩ ++
    Entry.image ⟨2, 3, 0, [.delete [1]]⟩

theorem recovery_exact_repeated :
    let first : Entry := ⟨1, 1, 0, [.put [1] [10]]⟩
    let batch : Batch := { commitTime := 2, operations := [.delete [1]] }
    let grown := ((Log.ofMedium .everyWrite { file := .regular first.image }).takeAll [batch]).2.medium.file
    (∃ report, recover (.regular repeated) = .ok ([first], report, .regular first.image) ∧
      report.truncated = true) ∧
    ∃ report, recover grown = .ok ([first, batch.entry 2], report, grown) ∧
      report.truncated = false := by
  intro first batch grown
  obtain ⟨frames, _, _, _, ⟨report, recovered, _, _, _, truncated⟩, _, _, continued⟩ :=
    recovery_exact repeated .everyWrite
  have evaluated : (recover (.regular repeated)).toOption.map (fun kept => (kept.1, kept.2.2)) =
      some ([first], .regular first.image) := by decide +kernel
  rw [recovered] at evaluated
  simp only [Except.toOption, Option.map_some, Option.some.injEq, Prod.mk.injEq,
    File.regular.injEq] at evaluated
  obtain ⟨entries, bytes⟩ := evaluated
  obtain ⟨frame, rfl, entry⟩ := List.map_eq_singleton_iff.1 entries
  have top : topLsn 0 [frame] = 1 := by rw [topLsn, topLsn, entry]
  rw [top] at continued
  obtain ⟨succeeds, recovers⟩ := continued [batch] (by decide)
  have unhindered : ∀ other ∈ [batch], other.Unhindered := by simp [Batch.Unhindered, batch]
  have fit : ∀ other ∈ [batch], other.Fits := by
    intro other member
    rw [List.mem_singleton.1 member]
    unfold Batch.Fits Entry.Fits
    decide +kernel
  have shorter : joined [frame] ≠ repeated := by
    rw [bytes]
    decide +kernel
  rw [bytes] at recovers succeeds
  obtain ⟨_, later, again, _, whole⟩ := recovers (succeeds unhindered fit)
  refine ⟨⟨report, ?_, truncated.2 shorter⟩, later, ?_, whole⟩
  · rw [recovered, entries, bytes]
  · rw [again, entries]
    rfl

end FsMeta.Journal
