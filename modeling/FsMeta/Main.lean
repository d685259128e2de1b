import FsMeta.Cli.Inspect

set_option autoImplicit false

namespace FsMeta.Cli

-- Any other fault is met again when the journal is read, so it is told as an unreadable one.
def placeOf : IO.Error → Disk.Place
  | .noFileOrDirectory .. => .missing
  | .inappropriateType _ code _ => if code = 20 then .blocked else .directory .directory
  | _ => .directory .directory

def diskAt (directory : String) : IO Disk := do
  try
    let content ← IO.FS.readBinFile (journalPath directory)
    pure { place := .directory (.file 0), files := [.regular content.toList] }
  catch error => pure { place := placeOf error }

def report (outcome : Outcome) : IO UInt32 := do
  IO.print outcome.output
  IO.eprint outcome.errors
  pure (UInt32.ofNat outcome.code)

def run (arguments : List String) : IO UInt32 := do
  match parse {} arguments with
  | none => report rejected
  | some request =>
    let fallback ← IO.getEnv "NSMETA_DATA_DIR"
    let disk ← diskAt (request.directory fallback)
    report (request.perform disk fallback)

end FsMeta.Cli

def main (arguments : List String) : IO UInt32 := FsMeta.Cli.run arguments
