import FsMeta.Chain.Entry

set_option autoImplicit false

namespace FsMeta

namespace Chain

def remove (file : Int64) (entry : ChainEntry) : Scoped Unit := do
  Scoped.delete (Key.fileBlock file entry.index).bytes
  Scoped.delete (Key.blockMeta entry.entry.blockId).bytes
  Scoped.delete (Key.blockStorage entry.entry.blockId).bytes

def delete (file block : Int64) : Scoped Unit := do
  requirePositive "block id" block
  match (← entries file).find? (isFor block) with
  | some entry => remove file entry
  | none => throw (missing file block)

def deleteAll (file : Int64) : Scoped Nat := do
  let chain ← entries file
  chain.forM (remove file)
  pure chain.length

end Chain

end FsMeta
