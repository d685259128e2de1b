import FsMeta.Journal.Log
import FsMeta.Proofs.Journal.Recovery

set_option autoImplicit false

namespace FsMeta.Journal

namespace Log

structure Holds (log : Log) (frames : List Frame) : Prop where
  file : log.medium.file = .regular (joined frames)
  empty : log.buffer = []
  valid : log.validLength = (joined frames).length
  intact : log.broken = false
  next : log.nextLsn = topLsn 0 frames + 1
  ascending : Ascending 0 frames

/-- Behind these frames there may be a part of another one that could not be cut off. -/
structure Torn (log : Log) (frames : List Frame) : Prop where
  file : ∃ part, log.medium.file = .regular (joined frames ++ part) ∧ Unreadable part
  empty : log.buffer = []
  broken : log.broken = true
  ascending : Ascending 0 frames

/-- Behind these frames there is a part of this one, and the rest of it is in the buffer. -/
structure Pending (log : Log) (frames : List Frame) (frame : Frame) : Prop where
  split : ∃ count < frame.bytes.length,
    log.medium.file = .regular (joined frames ++ frame.bytes.take count) ∧ log.buffer = frame.bytes.drop count
  broken : log.broken = true
  ascending : Ascending 0 (frames ++ [frame])

def Reliable (log : Log) : Prop := log.medium.refusals = {}

theorem holds_ofMedium {frames : List Frame} (ascending : Ascending 0 frames) (policy : SyncPolicy)
    {medium : Medium} (file : medium.file = .regular (joined frames)) :
    (ofMedium policy medium).Holds frames where
  file := file
  empty := rfl
  valid := by
    rw [ofMedium, file]
    rfl
  intact := rfl
  next := by
    have empty : Unreadable [] := fun nonempty => absurd rfl nonempty
    have read := good_entries_joined frames empty
    rw [List.append_nil] at read
    simp only [ofMedium, file, File.source, read, lastLsn, topLsn_eq, List.getLast?_map, Option.map_map]
  ascending := ascending

def entry (log : Log) (commitTime : UInt64) (operations : List Operation) : Entry :=
  { lsn := log.nextLsn, commitTime, timestamp := log.medium.now, operations }

def Stores (log : Log) (commitTime : UInt64) (operations : List Operation) : Prop :=
  log.broken = false ∧ ∃ bytes, (log.entry commitTime operations).frame = .ok bytes ∧
    (log.medium.append bytes).2 = none

variable {log : Log} {frames : List Frame} {commitTime : UInt64} {operations : List Operation}

theorem append_of_frame (intact : log.broken = false) {bytes : Bytes}
    (framed : (log.entry commitTime operations).frame = .ok bytes) :
    log.append commitTime operations = log.appendFrame bytes := by
  rw [entry] at framed
  simp only [append, intact, framed, Bool.false_eq_true, if_false]

theorem append_frame (intact : log.broken = false) (commitTime : UInt64) (operations : List Operation) :
    ((∃ error, log.append commitTime operations = (.error error, log)) ∧
      ¬ log.Stores commitTime operations) ∨
    ∃ frame : Frame, frame.entry = log.entry commitTime operations ∧
      log.append commitTime operations = log.appendFrame frame.bytes ∧
      (log.Stores commitTime operations ↔ (log.medium.append frame.bytes).2 = none) := by
  cases framed : (log.entry commitTime operations).frame with
  | error error =>
    left
    constructor
    · rw [entry] at framed
      exact ⟨error, by simp only [append, intact, framed, Bool.false_eq_true, if_false]⟩
    · rintro ⟨_, _, whole, _⟩
      rw [framed] at whole
      cases whole
  | ok bytes =>
    right
    obtain ⟨fits, rfl⟩ := (Entry.frame_eq_ok_iff _ bytes).1 framed
    exact ⟨.ofEntry _ fits, rfl, append_of_frame intact framed, by simp [Stores, intact, framed, Frame.ofEntry]⟩

def holding (log : Log) (content : Bytes) : Log :=
  { log with medium := { log.medium with file := .regular content } }

theorem flush_of_empty (empty : log.buffer = []) : log.flush = (none, log) := by
  simp [flush, empty]

theorem sync_flush (log : Log) : ∃ waiting, log.sync.2 = { log.flush.2 with waiting } := by
  rw [sync]
  rcases log.flush with ⟨_ | fault, flushed⟩
  · dsimp only
    split
    · exact ⟨0, rfl⟩
    · exact ⟨flushed.waiting, rfl⟩
  · exact ⟨flushed.waiting, rfl⟩

theorem sync_frame (empty : log.buffer = []) : ∃ waiting, log.sync.2 = { log with waiting } := by
  have settled := log.sync_flush
  rwa [flush_of_empty empty] at settled

theorem syncIfDue_frame (empty : log.buffer = []) : ∃ waiting, log.syncIfDue.2 = { log with waiting } := by
  rw [syncIfDue]
  split
  · exact sync_frame empty
  · exact ⟨log.waiting, rfl⟩

theorem close_of_empty (empty : log.buffer = []) : log.close = log.medium := by
  obtain ⟨waiting, settled⟩ := sync_frame empty
  rw [close, settled]
  split
  · rw [flush_of_empty empty]
  · rw [flush_of_empty]
    exact empty

theorem syncIfDue_cases {content : Bytes} (empty : log.buffer = []) (file : log.medium.file = .regular content) :
    log.syncIfDue.1 = .ok () ∨
      ∃ fault, log.medium.refusals.sync = some fault ∧ log.syncIfDue.1 = .error (.io fault) := by
  rw [syncIfDue, sync, flush_of_empty empty]
  dsimp only
  rw [Medium.sync, file]
  cases log.medium.refusals.sync with
  | none =>
    left
    split <;> rfl
  | some fault =>
    split
    · exact .inr ⟨fault, rfl, rfl⟩
    · exact .inl rfl

theorem syncIfDue_of_reliable (reliable : log.Reliable) (empty : log.buffer = []) {content : Bytes}
    (file : log.medium.file = .regular content) : log.syncIfDue.1 = .ok () := by
  rcases syncIfDue_cases empty file with synced | ⟨fault, refused, _⟩
  · exact synced
  · rw [Reliable] at reliable
    rw [reliable] at refused
    cases refused

-- What was written in part is cut off, or the log is broken because that was refused. What is in the buffer
-- is dropped before the cut, but not if the file cannot be opened anew.
theorem cutOff_holding {content : Bytes} (empty : log.buffer = []) (file : log.medium.file = .regular content)
    (valid : log.validLength = content.length) (part left : Bytes) :
    let torn : Log := { log.holding (content ++ part) with buffer := left }
    torn.cutOff = log ∨
    (log.medium.refusals.cut ≠ none ∧ torn.cutOff = { log.holding (content ++ part) with broken := true }) ∨
    (log.medium.refusals.clone ≠ none ∧ torn.cutOff = { torn with broken := true }) := by
  intro torn
  cases kept : log.medium.refusals.clone with
  | some fault =>
    have same : torn.medium.refusals.clone = some fault := kept
    right; right
    rw [cutOff, same]
    exact ⟨Option.some_ne_none fault, rfl⟩
  | none =>
    have same : torn.medium.refusals.clone = none := kept
    cases refused : log.medium.refusals.cut with
    | none =>
      have cut : torn.medium.setLength torn.validLength = .ok log.medium := by
        simp [torn, Medium.setLength, holding, refused, valid, File.setLength, Functor.map, Except.map, ← file]
      left
      rw [cutOff, same]
      dsimp only
      rw [cut, ← empty]
      rfl
    | some fault =>
      have cut : torn.medium.setLength torn.validLength = .error fault := by
        simp [torn, Medium.setLength, holding, refused]
      right; left
      rw [cutOff, same]
      dsimp only
      rw [cut, ← empty]
      exact ⟨Option.some_ne_none fault, rfl⟩

theorem append_regular (limit : Option Nat) (content : Bytes) {bytes : Bytes}
    (nonempty : 0 < bytes.length) :
    (File.regular content).append limit bytes = (.regular (content ++ bytes), none) ∨
      ∃ stored < bytes.length, ∃ fault, (File.regular content).append limit bytes =
        (.regular (content ++ bytes.take stored), some fault) := by
  cases limit with
  | none => exact .inl rfl
  | some most =>
    simp only [File.append]
    split
    · exact .inl rfl
    · exact .inr ⟨most - content.length, by omega, _, rfl⟩

theorem append_holding {content : Bytes} (file : log.medium.file = .regular content) {bytes : Bytes}
    (nonempty : 0 < bytes.length) :
    log.medium.append bytes = ((log.holding (content ++ bytes)).medium, none) ∨
      ∃ stored < bytes.length, ∃ fault,
        log.medium.append bytes = ((log.holding (content ++ bytes.take stored)).medium, some fault) := by
  rcases append_regular log.medium.limit content nonempty with stored | ⟨count, short, fault, stored⟩
  · exact .inl (by simp only [Medium.append, file, stored, holding])
  · exact .inr ⟨count, short, fault, by simp only [Medium.append, file, stored, holding]⟩

theorem flush_holding {content : Bytes} (file : log.medium.file = .regular content)
    (waits : 0 < log.buffer.length) :
    (log.medium.append log.buffer = ((log.holding (content ++ log.buffer)).medium, none) ∧
      log.flush = (none, { log.holding (content ++ log.buffer) with buffer := [] })) ∨
    ∃ count < log.buffer.length, ∃ fault,
      log.medium.append log.buffer = ((log.holding (content ++ log.buffer.take count)).medium, some fault) ∧
      log.flush =
        (some fault, { log.holding (content ++ log.buffer.take count) with buffer := log.buffer.drop count }) := by
  have filled : log.buffer.isEmpty = false := List.isEmpty_eq_false_iff.2 (List.length_pos_iff.1 waits)
  rcases append_holding file waits with stored | ⟨count, short, fault, stored⟩
  · refine .inl ⟨stored, ?_⟩
    simp [flush, filled, stored, holding, file, File.length]
  · refine .inr ⟨count, short, fault, stored, ?_⟩
    simp [flush, filled, stored, holding, file, File.length, Nat.min_eq_left (Nat.le_of_lt short)]

theorem writeThrough_holding {content : Bytes} (empty : log.buffer = []) (file : log.medium.file = .regular content)
    {bytes : Bytes} (nonempty : 0 < bytes.length) :
    ((log.medium.append bytes).2 = none ∧ log.writeThrough bytes = (none, log.holding (content ++ bytes))) ∨
    ∃ count < bytes.length, ∃ fault left, (log.medium.append bytes).2 = some fault ∧
      (left = [] ∨ left = bytes.drop count) ∧
      log.writeThrough bytes =
        (some fault, { log.holding (content ++ bytes.take count) with buffer := left }) := by
  by_cases short : bytes.length < bufferLength
  · let filled : Log := { log with buffer := bytes }
    have buffered : log.write bytes = (none, filled) := by
      simp [write, short, empty, filled]
    have same : filled.medium.file = .regular content := file
    rw [writeThrough, buffered]
    rcases flush_holding same nonempty with
      ⟨stored, flushed⟩ | ⟨count, below, fault, stored, flushed⟩
    · exact .inl ⟨congrArg Prod.snd stored, flushed.trans (by rw [← empty]; rfl)⟩
    · exact .inr ⟨count, below, fault, _, congrArg Prod.snd stored, .inr rfl, flushed⟩
  · have direct : log.write bytes =
        ((log.medium.append bytes).2, { log with medium := (log.medium.append bytes).1 }) := by
      rw [write, flush_of_empty empty]
      simp [short, empty]
    rw [writeThrough, direct]
    rcases append_holding file nonempty with stored | ⟨count, below, fault, stored⟩
    · rw [stored]
      exact .inl ⟨rfl, flush_of_empty empty⟩
    · rw [stored]
      exact .inr ⟨count, below, fault, [], rfl, .inl rfl, by rw [← empty]; rfl⟩

theorem appendFrame_cases {content : Bytes} (empty : log.buffer = []) (file : log.medium.file = .regular content)
    (frame : Frame) :
    (∃ count < frame.bytes.length, ∃ fault left, (log.medium.append frame.bytes).2 = some fault ∧
      (left = [] ∨ left = frame.bytes.drop count) ∧
      log.appendFrame frame.bytes = (.error (.io fault),
        ({ log.holding (content ++ frame.bytes.take count) with buffer := left } : Log).cutOff)) ∨
    let grown := (log.holding (content ++ frame.bytes)).written frame.bytes.length
    (log.medium.append frame.bytes).2 = none ∧
      log.appendFrame frame.bytes =
        (grown.syncIfDue.1.map fun _ => log.nextLsn, grown.syncIfDue.2) := by
  rcases writeThrough_holding empty file frame.length_pos with
    ⟨stored, written⟩ | ⟨count, short, fault, left, stored, rest, written⟩
  · rw [appendFrame, written]
    exact .inr ⟨stored, rfl⟩
  · rw [appendFrame, written]
    exact .inl ⟨count, short, fault, left, stored, rest, rfl⟩

namespace Holds

variable (holds : log.Holds frames)
include holds

theorem ascending_concat (room : (topLsn 0 frames).toNat + 1 < UInt64.size) {frame : Frame}
    (numbered : frame.entry.lsn = log.nextLsn) : Ascending 0 (frames ++ [frame]) := by
  refine ascending_append.2 ⟨holds.ascending, ascending_cons.2 ⟨?_, by simp⟩⟩
  rw [numbered, holds.next, UInt64.lt_iff_toNat_lt, toNat_add_one room]
  omega

theorem stored (room : (topLsn 0 frames).toNat + 1 < UInt64.size) {frame : Frame}
    (numbered : frame.entry.lsn = log.nextLsn) :
    ((log.holding (joined frames ++ frame.bytes)).written frame.bytes.length).syncIfDue.2.Holds
      (frames ++ [frame]) := by
  let grown := (log.holding (joined frames ++ frame.bytes)).written frame.bytes.length
  have clear : grown.buffer = [] := holds.empty
  obtain ⟨waiting, settled⟩ := syncIfDue_frame clear
  have single : joined [frame] = frame.bytes := by simp [joined]
  rw [settled]
  constructor
  · simp [grown, holding, written, single]
  · exact holds.empty
  · simp [grown, holding, written, single, holds.valid]
  · exact holds.intact
  · simp [grown, holding, written, topLsn_concat, numbered]
  · exact holds.ascending_concat room numbered

/-- What a call can leave. A frame that was written whole stays, even if syncing it fails; a part of one
stays only if it cannot be cut off, and then the rest of it may still be in the buffer. -/
theorem append_cases (room : (topLsn 0 frames).toNat + 1 < UInt64.size) (commitTime : UInt64)
    (operations : List Operation) :
    let result := (log.append commitTime operations).1
    let later := (log.append commitTime operations).2
    later.medium.refusals = log.medium.refusals ∧
    ((¬ log.Stores commitTime operations ∧ (∃ error, result = .error error) ∧
      (later.Holds frames ∨ (log.medium.refusals.cut ≠ none ∨ log.medium.refusals.clone ≠ none) ∧
        (later.Torn frames ∨ log.medium.refusals.clone ≠ none ∧
          ∃ frame, frame.entry = log.entry commitTime operations ∧ later.Pending frames frame))) ∨
    (log.Stores commitTime operations ∧
      (result = .ok log.nextLsn ∨
        ∃ fault, log.medium.refusals.sync = some fault ∧ result = .error (.io fault)) ∧
      ∃ frame, frame.entry = log.entry commitTime operations ∧ later.Holds (frames ++ [frame]))) := by
  rcases append_frame holds.intact commitTime operations with
    ⟨⟨error, refused⟩, unwritten⟩ | ⟨frame, entry, appended, stores⟩
  · rw [refused]
    exact ⟨rfl, .inl ⟨unwritten, ⟨error, rfl⟩, .inl holds⟩⟩
  have numbered : frame.entry.lsn = log.nextLsn := congrArg Entry.lsn entry
  rw [appended, stores]
  rcases appendFrame_cases holds.empty holds.file frame with
    ⟨count, short, fault, left, unwritten, rest, failed⟩ | ⟨written, ended⟩
  · have part : ¬ (log.medium.append frame.bytes).2 = none := by simp [unwritten]
    have torn := frame.framed.torn count short
    rw [failed]
    rcases cutOff_holding holds.empty holds.file holds.valid (frame.bytes.take count) left with
      cut | ⟨refused, broken⟩ | ⟨refused, broken⟩
    · rw [cut]
      exact ⟨rfl, .inl ⟨part, ⟨_, rfl⟩, .inl holds⟩⟩
    · rw [broken]
      exact ⟨rfl, .inl ⟨part, ⟨_, rfl⟩, .inr ⟨.inl refused, .inl ⟨⟨_, rfl, torn⟩, holds.empty, rfl, holds.ascending⟩⟩⟩⟩
    · rw [broken]
      refine ⟨rfl, .inl ⟨part, ⟨_, rfl⟩, .inr ⟨.inr refused, ?_⟩⟩⟩
      -- The writer either bypassed the buffer or holds there all that the file did not take.
      rcases rest with empty | waits
      · exact .inl ⟨⟨_, rfl, torn⟩, empty, rfl, holds.ascending⟩
      · exact .inr ⟨refused, frame, entry, ⟨count, short, rfl, waits⟩, rfl, holds.ascending_concat room numbered⟩
  · let grown := (log.holding (joined frames ++ frame.bytes)).written frame.bytes.length
    have file : grown.medium.file = .regular (joined frames ++ frame.bytes) := rfl
    have clear : grown.buffer = [] := holds.empty
    obtain ⟨waiting, settled⟩ := syncIfDue_frame clear
    have same : grown.syncIfDue.2.medium.refusals = log.medium.refusals := by
      rw [settled]
      rfl
    rw [ended]
    refine ⟨same, .inr ⟨written, ?_, frame, entry, holds.stored room numbered⟩⟩
    rcases syncIfDue_cases clear file with synced | ⟨fault, refused, failed⟩
    · exact .inl (congrArg (Except.map fun _ => log.nextLsn) synced)
    · exact .inr ⟨fault, refused, congrArg (Except.map fun _ => log.nextLsn) failed⟩

theorem append_ok (room : (topLsn 0 frames).toNat + 1 < UInt64.size) {lsn : UInt64}
    (succeeded : (log.append commitTime operations).1 = .ok lsn) :
    lsn = log.nextLsn ∧ ∃ frame, frame.entry = log.entry commitTime operations ∧
      (log.append commitTime operations).2.Holds (frames ++ [frame]) := by
  obtain ⟨_, ⟨_, ⟨error, failed⟩, _⟩ | ⟨_, result, added⟩⟩ := holds.append_cases room commitTime operations
  · rw [failed] at succeeded
    cases succeeded
  · rcases result with numbered | ⟨fault, _, failed⟩
    · rw [numbered] at succeeded
      cases succeeded
      exact ⟨rfl, added⟩
    · rw [failed] at succeeded
      cases succeeded

theorem append_of_fits (reliable : log.Reliable) (unlimited : log.medium.limit = none)
    (fits : (log.entry commitTime operations).Fits) :
    (log.append commitTime operations).1 = .ok log.nextLsn := by
  have framed := (Entry.frame_eq_ok_iff (log.entry commitTime operations) _).2 ⟨fits, rfl⟩
  rw [append_of_frame holds.intact framed]
  let frame := Frame.ofEntry (log.entry commitTime operations) fits
  rcases appendFrame_cases holds.empty holds.file frame with ⟨_, _, _, _, unwritten, _⟩ | ⟨_, ended⟩
  · simp [Medium.append, holds.file, unlimited, File.append] at unwritten
  · let grown := (log.holding (joined frames ++ frame.bytes)).written frame.bytes.length
    have steady : grown.Reliable := reliable
    have synced : grown.syncIfDue.1 = .ok () := syncIfDue_of_reliable steady holds.empty rfl
    change (log.appendFrame frame.bytes).1 = _
    rw [ended]
    exact congrArg (Except.map fun _ => log.nextLsn) synced

theorem append_of_reliable (reliable : log.Reliable) (room : (topLsn 0 frames).toNat + 1 < UInt64.size)
    (commitTime : UInt64) (operations : List Operation) :
    let result := (log.append commitTime operations).1
    let later := (log.append commitTime operations).2
    later.Reliable ∧
    ((∃ error, result = .error error) ∧ later.Holds frames ∨
    ∃ frame, frame.entry = log.entry commitTime operations ∧ result = .ok log.nextLsn ∧
      later.Holds (frames ++ [frame])) := by
  rw [Reliable] at reliable
  obtain ⟨same, ended⟩ := holds.append_cases room commitTime operations
  rw [reliable] at same ended
  refine ⟨same, ?_⟩
  rcases ended with ⟨_, failed, left⟩ | ⟨_, result, frame, entry, later⟩
  · rcases left with left | ⟨refused | refused, _⟩
    · exact .inl ⟨failed, left⟩
    · exact absurd rfl refused
    · exact absurd rfl refused
  · rcases result with succeeded | ⟨fault, refused, _⟩
    · exact .inr ⟨frame, entry, succeeded, later⟩
    · cases refused

end Holds

end Log

end FsMeta.Journal
