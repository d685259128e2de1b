import FsMeta.Proofs.Journal.Appending

set_option autoImplicit false

/-!
A log that is broken takes nothing more. But the rest of the frame that broke it may still be in its buffer:
when the log is synced or closed that is written, and the entry is recovered although its call has failed.
-/
namespace FsMeta.Journal

def File.entries (file : File) : Except Error (List Entry) := (recover file).map Prod.fst

inductive Ask where
  | append (batch : Batch)
  | sync (limit : Option Nat) (refusals : Refusals)

namespace Ask

def batch? : Ask → Option Batch
  | append batch => some batch
  | sync _ _ => none

def batches (asks : List Ask) : List Batch := asks.filterMap batch?

end Ask

namespace Log

def onto (log : Log) (limit : Option Nat) (refusals : Refusals) : Log :=
  { log with medium := { log.medium with limit, refusals } }

def serve (log : Log) : Ask → List Entry × Log
  | .append batch =>
    match log.take batch with
    | (.ok lsn, later) => ([batch.entry lsn], later)
    | (.error _, later) => ([], later)
  | .sync limit refusals => ([], (log.onto limit refusals).sync.2)

def serves : Log → List Ask → List Entry × Log
  | log, [] => ([], log)
  | log, ask :: rest =>
    let (taken, log) := log.serve ask
    let (others, log) := log.serves rest
    (taken ++ others, log)

def Refuses (log : Log) : Prop :=
  ∀ asks batch, ((log.serves asks).2.take batch).1 = .error stopped

structure Leaves (log : Log) (entries : List Entry) : Prop where
  recovered : log.medium.file.entries = .ok entries
  closed : ∀ limit refusals, (log.onto limit refusals).close.file.entries = .ok entries

/-- The log has stopped with a part of this entry in its buffer. The entry is recovered as soon as the buffer has
been written, and if nothing keeps the machine from writing, that is when the log is closed. -/
structure Suspends (log : Log) (entries : List Entry) (failed : Entry) : Prop where
  refuses : log.Refuses
  keeps : ∀ asks, (log.serves asks).2.buffer ≠ [] → (log.serves asks).2.medium.file.entries = .ok entries
  restores : ∀ asks, (log.serves asks).2.buffer = [] → (log.serves asks).2.Leaves (entries ++ [failed])
  closes : ∀ asks limit refusals,
    let closed := ((log.serves asks).2.onto limit refusals).close.file
    (closed.entries = .ok entries ∨ closed.entries = .ok (entries ++ [failed])) ∧
      (limit = none → closed.entries = .ok (entries ++ [failed]))

variable {log : Log} {frames : List Frame} {frame : Frame}

theorem flush_broken (log : Log) : log.flush.2.broken = log.broken := by
  rw [flush]
  split <;> rfl

theorem sync_broken (log : Log) : log.sync.2.broken = log.broken := by
  obtain ⟨waiting, settled⟩ := log.sync_flush
  rw [settled]
  exact log.flush_broken

theorem append_of_broken (broken : log.broken = true) (commitTime : UInt64)
    (operations : List Operation) : log.append commitTime operations = (.error stopped, log) := by
  simp [append, broken]

theorem take_of_broken (broken : log.broken = true) (batch : Batch) :
    log.take batch = (.error stopped, log.onMachine batch) := by
  have on : (log.onMachine batch).broken = true := broken
  exact append_of_broken on _ _

theorem serves_of_broken (broken : log.broken = true) (asks : List Ask) :
    (log.serves asks).1 = [] ∧ (log.serves asks).2.broken = true := by
  induction asks generalizing log with
  | nil => exact ⟨rfl, broken⟩
  | cons ask rest ih =>
    cases ask with
    | append batch =>
      rw [serves, serve, take_of_broken broken batch]
      exact ih broken
    | sync limit refusals => exact ih ((sync_broken _).trans broken)

theorem refuses_of_broken (broken : log.broken = true) : log.Refuses := by
  intro asks batch
  rw [take_of_broken (serves_of_broken broken asks).2 batch]

theorem entries_of_file {file : File} {part : Bytes} (ascending : Ascending 0 frames)
    (content : file = .regular (joined frames ++ part)) (unreadable : Unreadable part) :
    file.entries = .ok (frames.map Frame.entry) := by
  rw [File.entries, content, recover_joined ascending (.inl unreadable)]
  rfl

theorem exists_close (log : Log) :
    ∃ later : Log, (later = log ∨ later = log.sync.2) ∧ log.close = later.flush.2.medium := by
  rw [close]
  split
  · exact ⟨log, .inl rfl, rfl⟩
  · exact ⟨log.sync.2, .inr rfl, rfl⟩

namespace Torn

variable (torn : log.Torn frames)
include torn

theorem entries : log.medium.file.entries = .ok (frames.map Frame.entry) := by
  obtain ⟨part, file, unreadable⟩ := torn.file
  exact entries_of_file torn.ascending file unreadable

theorem onMachine (batch : Batch) : (log.onMachine batch).Torn frames :=
  { torn with file := torn.file }

theorem onto (limit : Option Nat) (refusals : Refusals) : (log.onto limit refusals).Torn frames :=
  { torn with file := torn.file }

theorem flush : log.flush.2.Torn frames := by
  rw [flush_of_empty torn.empty]
  exact torn

theorem sync : log.sync.2.Torn frames := by
  obtain ⟨waiting, settled⟩ := sync_frame torn.empty
  rw [settled]
  exact { torn with file := torn.file }

end Torn

theorem Torn.entries_concat (torn : log.Torn (frames ++ [frame])) :
    log.medium.file.entries = .ok (frames.map Frame.entry ++ [frame.entry]) := by
  rw [torn.entries, List.map_append, List.map_singleton]

namespace Pending

variable (pending : log.Pending frames frame)
include pending

theorem waits : 0 < log.buffer.length := by
  obtain ⟨count, short, _, left⟩ := pending.split
  rw [left, List.length_drop]
  omega

theorem entries : log.medium.file.entries = .ok (frames.map Frame.entry) := by
  obtain ⟨count, short, file, _⟩ := pending.split
  exact entries_of_file (ascending_append.1 pending.ascending).1 file (frame.framed.torn count short)

theorem flush :
    (log.flush.1 = none ∧ log.flush.2.Torn (frames ++ [frame])) ∨
    (log.medium.limit ≠ none ∧ (∃ fault, log.flush.1 = some fault) ∧ log.flush.2.Pending frames frame) := by
  obtain ⟨count, short, file, left⟩ := pending.split
  rcases flush_holding file pending.waits with ⟨_, flushed⟩ | ⟨more, below, fault, stored, flushed⟩
  · left
    have whole : joined frames ++ frame.bytes.take count ++ log.buffer = joined (frames ++ [frame]) ++ [] := by
      rw [left, List.append_assoc, List.take_append_drop]
      simp [joined]
    rw [flushed, whole]
    exact ⟨rfl, ⟨[], rfl, fun nonempty => absurd rfl nonempty⟩, rfl, pending.broken, pending.ascending⟩
  · right
    refine ⟨fun unlimited => ?_, ⟨fault, by rw [flushed]⟩, ?_⟩
    · simp [Medium.append, file, File.append, unlimited] at stored
    · rw [left, List.length_drop] at below
      have parts : joined frames ++ frame.bytes.take count ++ log.buffer.take more =
          joined frames ++ frame.bytes.take (count + more) := by
        rw [left, List.append_assoc, List.take_add]
      rw [flushed, parts, left, List.drop_drop]
      exact ⟨⟨count + more, by omega, rfl, rfl⟩, pending.broken, pending.ascending⟩

end Pending

/-- The frame that broke the log is in the file in part, or whole by now. -/
def Halted (log : Log) (frames : List Frame) (frame : Frame) : Prop :=
  log.Pending frames frame ∨ log.Torn (frames ++ [frame])

namespace Halted

variable (halted : log.Halted frames frame)
include halted

theorem broken : log.broken = true := halted.elim Pending.broken Torn.broken

theorem onMachine (batch : Batch) : (log.onMachine batch).Halted frames frame :=
  halted.imp (fun pending => { pending with split := pending.split }) fun torn => torn.onMachine batch

theorem onto (limit : Option Nat) (refusals : Refusals) : (log.onto limit refusals).Halted frames frame :=
  halted.imp (fun pending => { pending with split := pending.split }) fun torn => torn.onto limit refusals

theorem flush : log.flush.2.Halted frames frame := by
  rcases halted with pending | torn
  · exact pending.flush.elim (fun whole => .inr whole.2) fun part => .inl part.2.2
  · exact .inr torn.flush

theorem sync : log.sync.2.Halted frames frame := by
  obtain ⟨waiting, settled⟩ := log.sync_flush
  rw [settled]
  exact halted.flush.imp (fun pending => { pending with split := pending.split })
    fun torn => { torn with file := torn.file }

theorem flush_of_unlimited (unlimited : log.medium.limit = none) : log.flush.2.Torn (frames ++ [frame]) := by
  rcases halted with pending | torn
  · exact pending.flush.elim And.right fun part => absurd unlimited part.1
  · exact torn.flush

theorem serves (asks : List Ask) : (log.serves asks).2.Halted frames frame := by
  induction asks generalizing log with
  | nil => exact halted
  | cons ask rest ih =>
    cases ask with
    | append batch =>
      rw [Log.serves, serve, take_of_broken halted.broken batch]
      exact ih (halted.onMachine batch)
    | sync limit refusals => exact ih (halted.onto limit refusals).sync

theorem entries : log.medium.file.entries = .ok (frames.map Frame.entry) ∨
    log.medium.file.entries = .ok (frames.map Frame.entry ++ [frame.entry]) :=
  halted.imp Pending.entries Torn.entries_concat

theorem close : log.close.file.entries = .ok (frames.map Frame.entry) ∨
    log.close.file.entries = .ok (frames.map Frame.entry ++ [frame.entry]) := by
  obtain ⟨later, rfl | rfl, closed⟩ := log.exists_close <;> rw [closed]
  · exact halted.flush.entries
  · exact halted.sync.flush.entries

theorem close_of_unlimited (unlimited : log.medium.limit = none) :
    log.close.file.entries = .ok (frames.map Frame.entry ++ [frame.entry]) := by
  have torn : ∃ later : Log, later.Torn (frames ++ [frame]) ∧ log.close = later.medium := by
    obtain ⟨later, rfl | rfl, closed⟩ := log.exists_close
    · exact ⟨_, halted.flush_of_unlimited unlimited, closed⟩
    · obtain ⟨waiting, settled⟩ := log.sync_flush
      have whole := halted.flush_of_unlimited unlimited
      have synced : log.sync.2.Torn (frames ++ [frame]) := by
        rw [settled]
        exact { whole with file := whole.file }
      exact ⟨_, synced.flush, closed⟩
  obtain ⟨later, torn, closed⟩ := torn
  rw [closed]
  exact torn.entries_concat

end Halted

theorem Torn.leaves (torn : log.Torn frames) : log.Leaves (frames.map Frame.entry) where
  recovered := torn.entries
  closed limit refusals := by
    rw [close_of_empty (torn.onto limit refusals).empty]
    exact torn.entries

theorem Pending.halted (pending : log.Pending frames frame) : log.Halted frames frame := .inl pending

theorem Pending.suspends (pending : log.Pending frames frame) :
    log.Suspends (frames.map Frame.entry) frame.entry where
  refuses := refuses_of_broken pending.broken
  keeps := by
    intro asks waits
    rcases pending.halted.serves asks with pending | torn
    · exact pending.entries
    · exact absurd torn.empty waits
  restores := by
    intro asks empty
    rcases pending.halted.serves asks with pending | torn
    · exact absurd empty (List.length_pos_iff.1 pending.waits)
    · have leaves := torn.leaves
      rwa [List.map_append, List.map_singleton] at leaves
  closes := by
    intro asks limit refusals
    have halts := (pending.halted.serves asks).onto limit refusals
    exact ⟨halts.close, fun unlimited => halts.close_of_unlimited unlimited⟩

end Log

end FsMeta.Journal
