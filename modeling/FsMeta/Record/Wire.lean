import FsMeta.Json.Parser
import FsMeta.Json.Printer
import FsMeta.Record.Block

set_option autoImplicit false

/-!
Records as JSON. A record is read from an object, where members it does not know are passed over and
none it knows may come twice, or from an array of its fields in order.
-/
namespace FsMeta

class Wire (α : Type) where
  toJson : α → Json
  ofJson? : Json → Option α

namespace Wire

variable {α : Type}

def maxDepth : Nat := 127

def integer? (least most : Int) : Json → Option Int
  | .number literal => do
    let n ← literal.int?
    if least ≤ n ∧ n ≤ most then some n else none
  | _ => none

def int32? (json : Json) : Option Int32 :=
  Int32.ofInt <$> integer? (-2147483648) 2147483647 json

def int64? (json : Json) : Option Int64 :=
  Int64.ofInt <$> integer? (-9223372036854775808) 9223372036854775807 json

def uint64? (json : Json) : Option UInt64 :=
  (UInt64.ofNat ·.toNat) <$> integer? 0 18446744073709551615 json

def text? : Json → Option String
  | .text content => content
  | _ => none

def list? (element? : Json → Option α) : Json → Option (List α)
  | .array elements => elements.mapM element?
  | _ => none

-- The one member of that name, if there is one; no answer if there are several.
def member? (members : List (Option String × Json)) (name : String) : Option (Option Json) :=
  match members.filter (·.1 = some name) with
  | [] => some none
  | [(_, value)] => some (some value)
  | _ => none

def objectFields? (names : List String) (members : List (Option String × Json)) :
    Option (List (Option Json)) :=
  if members.all (·.1.isSome) then names.mapM (member? members) else none

def arrayFields? : (names : List String) → List Json → Option (List (Option Json))
  | [], [] => some []
  | [], _ :: _ => none
  | _ :: names, [] => (none :: ·) <$> arrayFields? names []
  | _ :: names, element :: rest => (some element :: ·) <$> arrayFields? names rest

def fields? (names : List String) : Json → Option (List (Option Json))
  | .object members => objectFields? names members
  | .array elements => arrayFields? names elements
  | _ => none

def given? (read? : Json → Option α) : Option Json → Option α
  | some value => read? value
  | none => none

def givenOr? (default : α) (read? : Json → Option α) : Option Json → Option α
  | some value => read? value
  | none => some default

def number64 (n : Int64) : Json := .int n.toInt

instance : Wire INode.Kind where
  toJson kind := .int kind.number.toInt
  ofJson? json := int32? json >>= INode.Kind.ofNumber?

def inodeNames : List String :=
  ["id", "name", "permission", "modification_time", "access_time", "header", "type", "parent_id",
    "client_name", "client_machine"]

def inodeOfFields? : List (Option Json) → Option INode
  | [id, name, permission, modificationTime, accessTime, header, kind, parentId, clientName,
      clientMachine] => do
    let id ← givenOr? 0 int64? id
    let name ← givenOr? "" text? name
    let permission ← givenOr? 0 int64? permission
    let modificationTime ← givenOr? 0 int64? modificationTime
    let accessTime ← givenOr? 0 int64? accessTime
    let header ← givenOr? 0 int64? header
    let kind ← givenOr? .file Wire.ofJson? kind
    let parentId ← givenOr? 0 int64? parentId
    let clientName ← givenOr? "" text? clientName
    let clientMachine ← givenOr? "" text? clientMachine
    pure { id, name, permission, modificationTime, accessTime, header, kind, parentId, clientName,
           clientMachine }
  | _ => none

def inodeMembers (node : INode) : List (String × Json) :=
  [ ("id", number64 node.id), ("name", .string node.name),
    ("permission", number64 node.permission),
    ("modification_time", number64 node.modificationTime),
    ("access_time", number64 node.accessTime), ("header", number64 node.header),
    ("type", toJson node.kind), ("parent_id", number64 node.parentId),
    ("client_name", .string node.clientName), ("client_machine", .string node.clientMachine) ]

instance : Wire INode where
  toJson node := .fields (inodeMembers node)
  ofJson? json := fields? inodeNames json >>= inodeOfFields?

instance : Wire ChildLink where
  toJson link := .fields [("id", number64 link.id)]
  ofJson? json := do
    let [id] ← fields? ["id"] json | none
    ChildLink.mk <$> given? int64? id

instance : Wire StorageLocation where
  toJson location := .fields
    [("data_node_id", .string location.dataNodeId), ("storage_id", .string location.storageId)]
  ofJson? json := do
    let [dataNodeId, storageId] ← fields? ["data_node_id", "storage_id"] json | none
    let dataNodeId ← givenOr? "" text? dataNodeId
    let storageId ← givenOr? "" text? storageId
    pure { dataNodeId, storageId }

def blockMetaMembers (info : BlockMeta) : List (String × Json) :=
  [ ("id", number64 info.id), ("generation", number64 info.generation),
    ("number_bytes", number64 info.numberBytes), ("replication", .int info.replication.toInt),
    ("collection_id", number64 info.collectionId), ("block_pool_id", .string info.blockPoolId) ]

def blockMetaNames : List String :=
  ["id", "generation", "number_bytes", "replication", "collection_id", "block_pool_id"]

def blockMetaOfFields? : List (Option Json) → Option BlockMeta
  | [id, generation, numberBytes, replication, collectionId, blockPoolId] => do
    let id ← givenOr? 0 int64? id
    let generation ← givenOr? 0 int64? generation
    let numberBytes ← givenOr? 0 int64? numberBytes
    let replication ← givenOr? 0 int32? replication
    let collectionId ← givenOr? 0 int64? collectionId
    let blockPoolId ← givenOr? "" text? blockPoolId
    pure { id, generation, numberBytes, replication, collectionId, blockPoolId }
  | _ => none

instance : Wire BlockMeta where
  toJson info := .fields (blockMetaMembers info)
  ofJson? json := fields? blockMetaNames json >>= blockMetaOfFields?

def locationsJson (locations : List StorageLocation) : Json := .array (locations.map toJson)

def locations? : Json → Option (List StorageLocation) := list? ofJson?

instance : Wire BlockStorage where
  toJson replicas := .fields
    [("id", number64 replicas.id), ("nodes", locationsJson replicas.nodes)]
  ofJson? json := do
    let [id, nodes] ← fields? ["id", "nodes"] json | none
    let id ← givenOr? 0 int64? id
    let nodes ← givenOr? [] locations? nodes
    pure { id, nodes }

instance : Wire Block where
  toJson block := .fields
    (blockMetaMembers block.info ++ [("storage", locationsJson block.storage)])
  ofJson? json := do
    let fields ← fields? (blockMetaNames ++ ["storage"]) json
    let info ← blockMetaOfFields? (fields.take blockMetaNames.length)
    let storage ← givenOr? [] locations? (fields.getD blockMetaNames.length none)
    pure (Block.ofParts info { nodes := storage })

instance : Wire FileBlock where
  toJson entry := .fields
    [ ("block_id", number64 entry.blockId), ("number_bytes", number64 entry.numberBytes),
      ("next_block_id", number64 entry.nextBlockId) ]
  ofJson? json := do
    let [blockId, numberBytes, nextBlockId] ←
      fields? ["block_id", "number_bytes", "next_block_id"] json | none
    let blockId ← given? int64? blockId
    let numberBytes ← given? int64? numberBytes
    let nextBlockId ← given? int64? nextBlockId
    pure { blockId, numberBytes, nextBlockId }

instance : Wire Timestamps where
  toJson stamps := .fields
    [ ("timestamp", .array (stamps.timestamp.map fun stamp => .int stamp.toNat)),
      ("count", .int stamps.count.toNat) ]
  ofJson? json := do
    let [timestamp, count] ← fields? ["timestamp", "count"] json | none
    let timestamp ← given? (list? uint64?) timestamp
    let count ← given? uint64? count
    pure { timestamp, count }

-- The members of the inode stand beside the blocks, so only an object will do. All of its members but
-- the blocks are kept until the inode has picked its own, so each has to be sound and not too deep.
instance : Wire INodeFile where
  toJson file := .fields
    (inodeMembers file.inode ++ [("blocks", .array (file.blocks.map toJson))])
  ofJson?
    | .object members => do
      let kept := members.filter (·.1 ≠ some "blocks")
      guard (kept.all fun (_, value) => value.sound && value.depth < maxDepth)
      let fields ← objectFields? inodeNames members
      let inode ← inodeOfFields? fields
      let blocks ← member? members "blocks" >>= givenOr? [] (list? ofJson?)
      pure { inode, blocks }
    | _ => none

def parse? [Wire α] (bytes : Bytes) : Option α := Json.parse bytes >>= ofJson?

def print [Wire α] (value : α) : String := (toJson value).render

end Wire

end FsMeta
