import FsMeta.Chain.Block
import FsMeta.Cli.Help
import FsMeta.Disk
import FsMeta.Record.Wire
import FsMeta.Service.Directories

set_option autoImplicit false

namespace FsMeta.Cli

structure Outcome where
  code : Nat
  output : String := ""
  errors : String := ""
  deriving Repr, DecidableEq

def padRight (width : Nat) (text : String) : String :=
  text ++ String.ofList (List.replicate (width - text.length) ' ')

def padLeft (width : Nat) (text : String) : String :=
  String.ofList (List.replicate (width - text.length) ' ') ++ text

def nodeText (node : INode) : List String := [(Wire.toJson node).renderIndented]

def childLine (node : INode) : String :=
  (if node.isDirectory then "d " else "- ") ++ padLeft 10 (toString node.id) ++ " " ++ node.name

def replicaText (location : StorageLocation) : String :=
  location.dataNodeId ++ "/" ++ location.storageId

def blockLine : ChainEntry × Block → String
  | (entry, block) =>
    let replicas := String.intercalate ", " (block.storage.map replicaText)
    s!"#{padRight 4 (toString entry.index)} block={block.id} gen={block.generation}"
      ++ s!" bytes={block.numberBytes} next={entry.entry.nextBlockId}"
      ++ s!" replicas=[{replicas}]"

def blockLines (entries : List ChainEntry) (blocks : List Block) : List String :=
  let total := blocks.foldl (fun total block => total + block.numberBytes.toInt) 0
  (entries.zip blocks).map blockLine ++ [s!"{blocks.length} blocks, {total} bytes"]

def reportLines (report : Journal.Report) : List String :=
  [ s!"entries:   {report.recovered}", s!"last lsn:  {report.lastLsn}",
    s!"damaged:   {decide (0 < report.corrupted)}" ]

def onService (command : Command) : Service.Operation (List String) :=
  match command with
  | .stat id => do pure (nodeText (← Service.inScope (Tree.inode id)))
  | .list id => do pure ((← Service.children id false).map childLine)
  | .blocks id => do
    let blocks ← Service.inScope (Chain.blocks id)
    let entries ← Service.inScope (Chain.entries id)
    pure (blockLines entries blocks)
  | .verify => pure []

def journalPath (directory : String) : String :=
  if directory.endsWith "/" then directory ++ "meta.wal" else directory ++ "/meta.wal"

def inspect (disk : Disk) (directory : String) (command : Command) :
    Except Error (List String) := do
  if command = .verify then
    pure (reportLines (← disk.verify))
  else
    let store ← disk.readStore (journalPath directory)
    ((Service.ofStore store).run .never (onService command)).1

def outcome : Except Error (List String) → Outcome
  | .ok lines => { code := 0, output := unlines lines }
  | .error error => { code := 1, errors := s!"error: {error.message}\n" }

def rejected : Outcome := { code := 2, errors := "error: invalid command line\n" }

def defaultDirectory : String := "./nsmeta_data"

-- The directory on the command line comes before the one given otherwise.
def Request.directory (request : Request) (fallback : Option String) : String :=
  match request with
  | .run (some directory) _ => directory
  | _ => fallback.getD defaultDirectory

def Request.perform (request : Request) (disk : Disk) (fallback : Option String) : Outcome :=
  match request with
  | .help topic => { code := 0, output := unlines topic.text }
  | .version => { code := 0, output := versionText }
  | .run _ command => outcome (inspect disk (request.directory fallback) command)

end FsMeta.Cli
