import FsMeta.Journal.Scan
import FsMeta.Store.Basic

set_option autoImplicit false

/-!
The data directory and the journal in it. A file that is open stays usable when its name is taken
away, so names and contents are kept apart.
-/
namespace FsMeta

inductive Disk.Node where
  | absent
  | directory
  | file (index : Nat)
  deriving Repr, DecidableEq

inductive Disk.Place where
  | missing
  | blocked
  | directory (journal : Disk.Node)
  deriving Repr, DecidableEq

structure Disk where
  place : Disk.Place := .missing
  files : List Journal.File := []
  deriving Repr, DecidableEq

namespace Disk

def emptyFile : Journal.File := .regular []

def file (disk : Disk) (index : Nat) : Journal.File := disk.files.getD index emptyFile

def setFile (disk : Disk) (index : Nat) (content : Journal.File) : Disk :=
  { disk with files := disk.files.set index content }

def journal? (disk : Disk) : Except IoFault Node :=
  match disk.place with
  | .missing => .error .notFound
  | .blocked => .error .notDirectory
  | .directory .absent => .error .notFound
  | .directory node => .ok node

def hasJournal (disk : Disk) : Bool := disk.journal?.toBool

def source (disk : Disk) : Except Error Journal.Source :=
  match disk.journal? with
  | .error fault => .error (.io fault)
  | .ok (.file index) => .ok (disk.file index).source
  | .ok _ => .ok .directory

def makeDirectory (disk : Disk) : Except Error Disk :=
  match disk.place with
  | .missing => .ok { disk with place := .directory .absent }
  | .blocked => .error (.io .exists)
  | .directory _ => .ok disk

def openJournal (disk : Disk) : Except Error (Nat × Disk) :=
  match disk.place with
  | .missing => .error (.io .notFound)
  | .blocked => .error (.io .notDirectory)
  | .directory .directory => .error (.io .isDirectory)
  | .directory (.file index) => .ok (index, disk)
  | .directory .absent =>
    let index := disk.files.length
    .ok (index, { place := .directory (.file index), files := disk.files ++ [emptyFile] })

def verify (disk : Disk) : Except Error Journal.Report := disk.source >>= Journal.verify

def recover (disk : Disk) : Except Error (List Journal.Entry × Journal.Report × Disk) := do
  match disk.journal? with
  | .error fault => throw (.io fault)
  | .ok (.file index) =>
    let (entries, report, content) ← Journal.recover (disk.file index)
    pure (entries, report, disk.setFile index content)
  | .ok _ => throw (.io .isDirectory)

def openLog (disk : Disk) (policy : SyncPolicy) : Except Error (Nat × Journal.Log × Disk) := do
  let (index, disk) ← disk.openJournal
  pure (index, .ofMedium policy { file := disk.file index }, disk)

/-- The directory stays even if the journal in it cannot be read. -/
def openStore (disk : Disk) (policy : SyncPolicy) : Except Error (Nat × Store) × Disk :=
  match disk.makeDirectory with
  | .error error => (.error error, disk)
  | .ok disk =>
    let recovered := if disk.hasJournal then disk.recover else .ok ([], {}, disk)
    match recovered with
    | .error error => (.error error, disk)
    | .ok (entries, _, disk) =>
      match disk.openLog policy with
      | .error error => (.error error, disk)
      | .ok (index, log, disk) =>
        (.ok (index, { Store.ofEntries entries with journal := some log }), disk)

/-- A store over the good entries at the front, for reading only. The path is what a message names.
-/
def readStore (disk : Disk) (path : String) : Except Error Store :=
  if disk.hasJournal then do
    let source ← disk.source
    pure (Store.ofEntries (Journal.good (Journal.Cursor.entries { source })))
  else .error (.storage s!"no WAL at {path}")

end Disk

end FsMeta
