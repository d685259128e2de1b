import FsMeta.Cli.Arguments

set_option autoImplicit false

namespace FsMeta.Cli

def program : String := "nsmeta-cli"

def versionText : String := program ++ " 0.1.0\n"

def unlines (lines : List String) : String := String.join (lines.map (· ++ "\n"))

def usage (rest : String) : String := "Usage: " ++ program ++ " " ++ rest

def helpOption : List String := ["", "Options:", "  -h, --help  Print help"]

def helpWithId (about name placeholder description : String) : List String :=
  [ about, "", usage (name ++ " <" ++ placeholder ++ ">"), "", "Arguments:",
    "  <" ++ placeholder ++ ">  " ++ description ] ++ helpOption

def Topic.text : Topic → List String
  | .program =>
    [ "Inspect an nsmeta data directory", "", usage "[OPTIONS] <COMMAND>", "", "Commands:",
      "  stat        Print one inode record",
      "  ls          List a directory's children in name order",
      "  blocks      Print a file's blocks in chain order",
      "  verify-wal  Check the WAL for damage without repairing it",
      "  help        Print this message or the help of the given subcommand(s)", "", "Options:",
      "  -d, --data-dir <DATA_DIR>  Data directory holding meta.wal"
        ++ " [env: NSMETA_DATA_DIR=] [default: ./nsmeta_data]",
      "  -h, --help                 Print help",
      "  -V, --version              Print version" ]
  | .stat => helpWithId "Print one inode record" "stat" "ID" "Inode id"
  | .list => helpWithId "List a directory's children in name order" "ls" "DIR_ID" "Directory id"
  | .blocks => helpWithId "Print a file's blocks in chain order" "blocks" "FILE_ID" "File id"
  | .verify =>
    ["Check the WAL for damage without repairing it", "", usage "verify-wal"] ++ helpOption
  | .help =>
    [ "Print this message or the help of the given subcommand(s)", "", usage "help [COMMAND]...", "",
      "Arguments:", "  [COMMAND]...  Print help for the subcommand(s)" ]

end FsMeta.Cli
