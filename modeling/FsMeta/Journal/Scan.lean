import FsMeta.Journal.Cursor

set_option autoImplicit false

namespace FsMeta.Journal

structure Report where
  recovered : Nat := 0
  corrupted : Nat := 0
  lastLsn : UInt64 := 0
  truncated : Bool := false
  deriving Repr, DecidableEq

structure Scan where
  entries : List Entry := []
  damaged : Bool := false
  validLength : Nat := 0
  deriving Repr, DecidableEq

namespace Scan

def follow (entry : Entry) (scan : Scan) : Scan := { scan with entries := entry :: scan.entries }

def within : (bound : Nat) → (lastLsn : UInt64) → Cursor → Except Error Scan
  | 0, _, cursor => .ok { validLength := cursor.position }
  | bound + 1, lastLsn, cursor =>
    match cursor.next with
    | (.ok none, _) => .ok { validLength := cursor.position }
    | (.error (.journalCorruption _), _) =>
      .ok { damaged := true, validLength := cursor.position }
    | (.error error, _) => .error error
    | (.ok (some entry), rest) =>
      if entry.lsn ≤ lastLsn then .ok { damaged := true, validLength := cursor.position }
      else follow entry <$> within bound entry.lsn rest

def ofSource (source : Source) : Except Error Scan :=
  within (source.size + 1) 0 { source }

def lastLsn (scan : Scan) : UInt64 := (scan.entries.getLast?.map Entry.lsn).getD 0

def report (scan : Scan) : Report where
  recovered := scan.entries.length
  corrupted := if scan.damaged then 1 else 0
  lastLsn := scan.lastLsn

end Scan

def verify (source : Source) : Except Error Report := Scan.report <$> Scan.ofSource source

def recover (file : File) : Except Error (List Entry × Report × File) := do
  let scan ← Scan.ofSource file.source
  if scan.damaged then
    match file.setLength none scan.validLength with
    | .error fault => throw (.io fault)
    | .ok file => pure (scan.entries, { scan.report with truncated := true }, file)
  else pure (scan.entries, scan.report, file)

end FsMeta.Journal
