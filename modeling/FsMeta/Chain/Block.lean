import FsMeta.Chain.Entry

set_option autoImplicit false

namespace FsMeta

structure ChainBlock extends ChainEntry where
  block : Block
  deriving Repr, DecidableEq

namespace Chain

def unresolvable (file : Int64) (entry : ChainEntry) (part : String) : Error :=
  .corrupted (s!"file {file} chain entry {entry.index} references block {entry.entry.blockId}"
    ++ s!" with no {part}")

def part (α : Type) [Record α] (file : Int64) (entry : ChainEntry) (name : String) (key : Key) :
    Scoped α := do
  match ← Scoped.find? α key.bytes with
  | some value => pure value
  | none => throw (unresolvable file entry name)

def resolve (file : Int64) (entry : ChainEntry) : Scoped ChainBlock := do
  let id := entry.entry.blockId
  let info ← part BlockMeta file entry "meta" (.blockMeta id)
  let replicas ← part BlockStorage file entry "storage" (.blockStorage id)
  pure { entry with block := .ofParts info replicas }

def resolved (file : Int64) : Scoped (List ChainBlock) := do
  (← entries file).mapM (resolve file)

def blocks (file : Int64) : Scoped (List Block) := do
  pure ((← resolved file).map ChainBlock.block)

def block (file id : Int64) : Scoped Block := do
  match (← blocks file).find? (·.id == id) with
  | some block => pure block
  | none => throw (missing file id)

end Chain

end FsMeta
