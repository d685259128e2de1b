import FsMeta.Scope

set_option autoImplicit false

namespace FsMeta

structure ChainEntry where
  index : UInt64
  entry : FileBlock
  deriving Repr, DecidableEq

namespace Chain

def entryOfPair (file : Int64) : Bytes × Bytes → Except Error ChainEntry
  | (key, value) => do
    let index ← Key.fileBlockIndex (Key.fileBlocks file) key
    let entry ← Record.decode value
    pure { index, entry }

def entriesOfPairs (file : Int64) (pairs : List (Bytes × Bytes)) :
    Except Error (List ChainEntry) :=
  pairs.mapM (entryOfPair file)

def entries (file : Int64) : Scoped (List ChainEntry) := do
  requirePositive "file id" file
  entriesOfPairs file (← Scoped.scan (Key.fileBlocks file))

def appendIndex (chain : List ChainEntry) : UInt64 :=
  match chain.getLast? with
  | some entry => entry.index + 1
  | none => 0

def isFor (block : Int64) (entry : ChainEntry) : Bool := entry.entry.blockId == block

def index (file block : Int64) : Scoped UInt64 := do
  let chain ← entries file
  match chain.find? (isFor block) with
  | some entry => pure entry.index
  | none => pure (appendIndex chain)

def missing (file block : Int64) : Error :=
  .notFound s!"block {block} is not in the chain of file {file}"

def putEntry (file : Int64) (index : UInt64) (entry : FileBlock) : Scoped Unit :=
  Scoped.put (Key.fileBlock file index).bytes entry

end Chain

end FsMeta
