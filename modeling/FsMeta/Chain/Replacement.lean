import FsMeta.Chain.Removal

set_option autoImplicit false

namespace FsMeta

namespace Chain

def requireDistinct (file : Int64) : (seen : List Int64) → List Block → Except Error Unit
  | _, [] => .ok ()
  | seen, block :: rest => do
    requirePositive "block id" block.id
    if seen.contains block.id then
      throw (.invalid s!"block {block.id} appears twice in file {file}")
    requireDistinct file (block.id :: seen) rest

def putAll (file : Int64) : (index : Nat) → List Block → Scoped Unit
  | _, [] => pure ()
  | index, block :: rest => do
    block.info.validate
    putEntry file (UInt64.ofNat index)
      { blockId := block.id
        numberBytes := block.numberBytes
        nextBlockId := (rest.head?.map Block.id).getD 0 }
    Scoped.put (Key.blockMeta block.id).bytes block.info
    Scoped.put (Key.blockStorage block.id).bytes block.replicas
    putAll file (index + 1) rest

/-- Makes these the blocks of the file. The ones that are left out lose their records too. -/
def replace (file : Int64) (blocks : List Block) : Scoped Unit := do
  requireDistinct file [] blocks
  let _ ← deleteAll file
  putAll file 0 blocks

end Chain

end FsMeta
