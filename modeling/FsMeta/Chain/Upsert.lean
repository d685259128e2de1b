import FsMeta.Chain.Entry

set_option autoImplicit false

namespace FsMeta

namespace Chain

structure Position where
  index : UInt64
  next : Int64
  predecessor : Option ChainEntry
  deriving Repr, DecidableEq

def position (chain : List ChainEntry) (block : Int64) : Position :=
  let before := chain.takeWhile (! isFor block ·)
  match chain.find? (isFor block) with
  | some entry =>
    { index := entry.index, next := entry.entry.nextBlockId, predecessor := before.getLast? }
  | none => { index := appendIndex chain, next := 0, predecessor := chain.getLast? }

def relink (file : Int64) (predecessor : ChainEntry) (block : Int64) : Scoped Unit :=
  if predecessor.entry.nextBlockId = block then pure ()
  else putEntry file predecessor.index { predecessor.entry with nextBlockId := block }

def addReplicas (block : Int64) (replicas : BlockStorage) : Scoped Unit := do
  let key := (Key.blockStorage block).bytes
  let stored ← Scoped.find? BlockStorage key
  let known := stored.getD {}
  Scoped.put key ({ known with id := block }.merge replicas)

/-- Replicas are added to the known ones. -/
def upsert (file block : Int64) (info : BlockMeta) (replicas : BlockStorage) : Scoped UInt64 := do
  requirePositive "file id" file
  requirePositive "block id" block
  let info := { info with id := block }
  info.validate
  let place := position (← entries file) block
  place.predecessor.forM (relink file · block)
  putEntry file place.index
    { blockId := block, numberBytes := info.numberBytes, nextBlockId := place.next }
  Scoped.put (Key.blockMeta block).bytes info
  addReplicas block replicas
  pure place.index

end Chain

end FsMeta
