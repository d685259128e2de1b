import FsMeta.Journal.Cursor
import FsMeta.Journal.SyncPolicy

set_option autoImplicit false

/-!
A journal that is open for writing, through a buffer. A frame that could not be written whole is cut off
again; if that fails too the log is broken and takes nothing more. What such a frame left in the buffer is
dropped only once the file has been opened anew for the cut, and what stays in the buffer is written when
the log is synced or closed. A frame that was written whole stays, even if bringing it to the disk fails.
-/
namespace FsMeta.Journal

-- The entries that wait are those written since the last sync.
structure Log where
  medium : Medium
  buffer : Bytes := []
  policy : SyncPolicy := .everyWrite
  nextLsn : UInt64
  validLength : Nat
  waiting : Nat := 0
  broken : Bool := false
  deriving Repr, DecidableEq

namespace Log

def lastLsn (entries : List Entry) : UInt64 := (entries.getLast?.map Entry.lsn).getD 0

def ofMedium (policy : SyncPolicy) (medium : Medium) : Log where
  medium
  policy
  nextLsn := lastLsn (good (Cursor.entries { source := medium.file.source })) + 1
  validLength := medium.file.length

def stopped : Error := .storage "WAL writer stopped after an unrecoverable write failure"

def written (log : Log) (length : Nat) : Log :=
  { log with
    nextLsn := log.nextLsn + 1
    validLength := log.validLength + length
    waiting := log.waiting + 1 }

def bufferLength : Nat := 8192

-- What the file does not take stays in the buffer.
def flush (log : Log) : Option IoFault × Log :=
  if log.buffer.isEmpty then (none, log)
  else
    let (medium, fault) := log.medium.append log.buffer
    let stored := medium.file.length - log.medium.file.length
    (fault, { log with medium, buffer := log.buffer.drop stored })

-- What is not shorter than the buffer goes around it.
def write (log : Log) (bytes : Bytes) : Option IoFault × Log :=
  let room := bufferLength - log.buffer.length
  if bytes.length < room then (none, { log with buffer := log.buffer ++ bytes })
  else
    match if room < bytes.length then log.flush else (none, log) with
    | (some fault, log) => (some fault, log)
    | (none, log) =>
      if bytes.length < bufferLength then (none, { log with buffer := log.buffer ++ bytes })
      else
        let (medium, fault) := log.medium.append bytes
        (fault, { log with medium })

def writeThrough (log : Log) (bytes : Bytes) : Option IoFault × Log :=
  match log.write bytes with
  | (some fault, log) => (some fault, log)
  | (none, log) => log.flush

def cutOff (log : Log) : Log :=
  match log.medium.refusals.clone with
  | some _ => { log with broken := true }
  | none =>
    match log.medium.setLength log.validLength with
    | .ok medium => { log with medium, buffer := [] }
    | .error _ => { log with buffer := [], broken := true }

def sync (log : Log) : Except Error Unit × Log :=
  match log.flush with
  | (some fault, log) => (.error (.io fault), log)
  | (none, log) =>
    match log.medium.sync with
    | .ok () => (.ok (), { log with waiting := 0 })
    | .error fault => (.error (.io fault), log)

def close (log : Log) : Medium :=
  let log := if log.waiting = 0 then log else log.sync.2
  log.flush.2.medium

def syncIfDue (log : Log) : Except Error Unit × Log :=
  if log.policy.due log.waiting then log.sync else (.ok (), log)

def appendFrame (log : Log) (frame : Bytes) : Except Error UInt64 × Log :=
  match log.writeThrough frame with
  | (some fault, log) => (.error (.io fault), log.cutOff)
  | (none, log) =>
    let (result, settled) := (log.written frame.length).syncIfDue
    (result.map fun _ => log.nextLsn, settled)

def append (log : Log) (commitTime : UInt64) (operations : List Operation) :
    Except Error UInt64 × Log :=
  if log.broken then (.error stopped, log)
  else
    let entry : Entry :=
      { lsn := log.nextLsn, commitTime, timestamp := log.medium.now, operations }
    match entry.frame with
    | .error error => (.error error, log)
    | .ok frame => log.appendFrame frame

end Log

end FsMeta.Journal
