import FsMeta.Error
import FsMeta.Record.INode

set_option autoImplicit false

namespace FsMeta

structure StorageLocation where
  dataNodeId : String := ""
  storageId : String := ""
  deriving Repr, DecidableEq, Inhabited

structure BlockMeta where
  id : Int64 := 0
  generation : Int64 := 0
  numberBytes : Int64 := 0
  replication : Int32 := 0
  collectionId : Int64 := 0
  blockPoolId : String := ""
  deriving Repr, DecidableEq, Inhabited

structure BlockStorage where
  id : Int64 := 0
  nodes : List StorageLocation := []
  deriving Repr, DecidableEq, Inhabited

structure Block where
  id : Int64 := 0
  generation : Int64 := 0
  numberBytes : Int64 := 0
  replication : Int32 := 0
  collectionId : Int64 := 0
  blockPoolId : String := ""
  storage : List StorageLocation := []
  deriving Repr, DecidableEq, Inhabited

structure FileBlock where
  blockId : Int64
  numberBytes : Int64
  nextBlockId : Int64
  deriving Repr, DecidableEq

structure INodeFile where
  inode : INode := {}
  blocks : List Block := []
  deriving Repr, DecidableEq, Inhabited

structure Timestamps where
  timestamp : List UInt64
  count : UInt64
  deriving Repr, DecidableEq

def BlockMeta.validate (info : BlockMeta) : Except Error Unit :=
  if info.generation < 0 ∨ info.numberBytes < 0 ∨ info.replication < 0 ∨ info.collectionId < 0 then
    .error (.invalid s!"block {info.id} fields must not be negative")
  else .ok ()

namespace BlockStorage

def contains (replicas : BlockStorage) (location : StorageLocation) : Bool :=
  replicas.nodes.contains location

-- The flag tells whether the set has changed.
def insert (replicas : BlockStorage) (location : StorageLocation) : BlockStorage × Bool :=
  if replicas.contains location then (replicas, false)
  else ({ replicas with nodes := replicas.nodes ++ [location] }, true)

def remove (replicas : BlockStorage) (location : StorageLocation) : BlockStorage × Bool :=
  let left := replicas.nodes.filter (· ≠ location)
  ({ replicas with nodes := left }, left.length != replicas.nodes.length)

def merge (replicas other : BlockStorage) : BlockStorage :=
  other.nodes.foldl (fun merged location => (merged.insert location).1) replicas

end BlockStorage

namespace Block

def ofParts (info : BlockMeta) (replicas : BlockStorage) : Block where
  id := info.id
  generation := info.generation
  numberBytes := info.numberBytes
  replication := info.replication
  collectionId := info.collectionId
  blockPoolId := info.blockPoolId
  storage := replicas.nodes

def info (block : Block) : BlockMeta where
  id := block.id
  generation := block.generation
  numberBytes := block.numberBytes
  replication := block.replication
  collectionId := block.collectionId
  blockPoolId := block.blockPoolId

def replicas (block : Block) : BlockStorage :=
  BlockStorage.merge { id := block.id } { nodes := block.storage }

end Block

def FileBlock.isTerminal (entry : FileBlock) : Bool := entry.nextBlockId == 0

end FsMeta
