import FsMeta.Record.Block
import FsMeta.Text.Utf8

set_option autoImplicit false

/-!
How records are written as bytes: numbers with the least significant byte first, texts and lists
behind their length, fields one after another. Reading takes what it needs from the front and hands
back the rest.
-/
namespace FsMeta

inductive Layout.Fault where
  | ended
  | textTooLong
  | malformedText (fault : Utf8.Fault)
  | unknownKind (number : Int32)
  | unknownOperation (number : UInt32)
  | unsized
  | keyed
  deriving Repr, DecidableEq

structure Layout (α : Type) where
  write : α → Bytes
  take : Bytes → Except Layout.Fault (α × Bytes)

namespace Layout

variable {α β : Type}

def Fault.message : Fault → String
  | .ended => "io error: unexpected end of file"
  | .textTooLong => "io error: "
  | .malformedText fault => s!"string is not valid utf8: {fault.message}"
  | .unknownKind number => s!"unknown inode type {number}"
  | .unknownOperation number =>
    s!"invalid value: integer `{number}`, expected variant index 0 <= i < 2"
  | .unsized =>
    "Bincode can only encode sequences and maps that have a knowable size ahead of time"
  | .keyed => "Bincode does not support Deserializer::deserialize_identifier"

def read (layout : Layout α) (bytes : Bytes) : Except Fault α :=
  Prod.fst <$> layout.take bytes

def takeBytes : (count : Nat) → Bytes → Except Fault (Bytes × Bytes)
  | 0, bytes => .ok ([], bytes)
  | _ + 1, [] => .error .ended
  | count + 1, byte :: bytes => do
    let (taken, rest) ← takeBytes count bytes
    pure (byte :: taken, rest)

def number (width : Nat) : Layout Nat where
  write := Bytes.littleEndian width
  take bytes := do
    let (taken, rest) ← takeBytes width bytes
    pure (Bytes.ofLittleEndian taken, rest)

def iso (layout : Layout α) (back : α → β) (forth : β → α) : Layout β where
  write b := layout.write (forth b)
  take bytes := do
    let (a, rest) ← layout.take bytes
    pure (back a, rest)

def partly (layout : Layout α) (back : α → Except Fault β) (forth : β → α) : Layout β where
  write b := layout.write (forth b)
  take bytes := do
    let (a, rest) ← layout.take bytes
    let b ← back a
    pure (b, rest)

def pair (first : Layout α) (second : Layout β) : Layout (α × β) where
  write p := first.write p.1 ++ second.write p.2
  take bytes := do
    let (a, rest) ← first.take bytes
    let (b, rest) ← second.take rest
    pure ((a, b), rest)

def byte : Layout UInt8 := (number 1).iso UInt8.ofNat UInt8.toNat

def uint32 : Layout UInt32 := (number 4).iso UInt32.ofNat UInt32.toNat

def uint64 : Layout UInt64 := (number 8).iso UInt64.ofNat UInt64.toNat

def int32 : Layout Int32 := uint32.iso UInt32.toInt32 Int32.toUInt32

def int64 : Layout Int64 := uint64.iso UInt64.toInt64 Int64.toUInt64

-- Elements are taken one by one, so a length beyond the input fails at the first missing element.
def takeMany (layout : Layout α) : Nat → Bytes → Except Fault (List α × Bytes)
  | 0, bytes => .ok ([], bytes)
  | count + 1, bytes => do
    let (a, rest) ← layout.take bytes
    let (more, rest) ← takeMany layout count rest
    pure (a :: more, rest)

def list (layout : Layout α) : Layout (List α) where
  write elements := uint64.write (UInt64.ofNat elements.length) ++ elements.flatMap layout.write
  take bytes := do
    let (count, rest) ← uint64.take bytes
    takeMany layout count.toNat rest

def text : Layout String where
  write s := uint64.write (UInt64.ofNat (Utf8.encode s).length) ++ Utf8.encode s
  take bytes := do
    let (count, rest) ← uint64.take bytes
    if rest.length < count.toNat then throw .textTooLong
    let (taken, rest) := rest.splitAt count.toNat
    match Utf8.decode taken with
    | .ok s => pure (s, rest)
    | .error fault => throw (.malformedText fault)

def bytes : Layout Bytes := list byte

def inodeKind : Layout INode.Kind :=
  int32.partly
    (fun n => match INode.Kind.ofNumber? n with
      | some kind => .ok kind
      | none => .error (.unknownKind n))
    INode.Kind.number

def inode : Layout INode :=
  (int64.pair <| text.pair <| int64.pair <| int64.pair <| int64.pair <| int64.pair <|
    inodeKind.pair <| int64.pair <| text.pair text).iso
    (fun (id, name, permission, modificationTime, accessTime, header, kind, parentId, clientName,
        clientMachine) =>
      { id, name, permission, modificationTime, accessTime, header, kind, parentId, clientName,
        clientMachine })
    (fun node =>
      (node.id, node.name, node.permission, node.modificationTime, node.accessTime, node.header,
        node.kind, node.parentId, node.clientName, node.clientMachine))

def childLink : Layout ChildLink := int64.iso ChildLink.mk ChildLink.id

def storageLocation : Layout StorageLocation :=
  (text.pair text).iso (fun (dataNodeId, storageId) => { dataNodeId, storageId })
    (fun location => (location.dataNodeId, location.storageId))

def blockMeta : Layout BlockMeta :=
  (int64.pair <| int64.pair <| int64.pair <| int32.pair <| int64.pair text).iso
    (fun (id, generation, numberBytes, replication, collectionId, blockPoolId) =>
      { id, generation, numberBytes, replication, collectionId, blockPoolId })
    (fun info =>
      (info.id, info.generation, info.numberBytes, info.replication, info.collectionId,
        info.blockPoolId))

def blockStorage : Layout BlockStorage :=
  (int64.pair (list storageLocation)).iso (fun (id, nodes) => { id, nodes })
    (fun replicas => (replicas.id, replicas.nodes))

def block : Layout Block :=
  (blockMeta.pair (list storageLocation)).iso
    (fun (info, storage) => Block.ofParts info { nodes := storage })
    (fun block => (block.info, block.storage))

def fileBlock : Layout FileBlock :=
  (int64.pair <| int64.pair int64).iso
    (fun (blockId, numberBytes, nextBlockId) => { blockId, numberBytes, nextBlockId })
    (fun entry => (entry.blockId, entry.numberBytes, entry.nextBlockId))

def timestamps : Layout Timestamps :=
  ((list uint64).pair uint64).iso (fun (timestamp, count) => { timestamp, count })
    (fun stamps => (stamps.timestamp, stamps.count))

def takeINodeFile (bytes : Bytes) : Except Fault (INodeFile × Bytes) := do
  let (count, rest) ← uint64.take bytes
  if count = 0 then pure ({}, rest) else throw .keyed

end Layout

class Record (α : Type) where
  layout : Layout α

namespace Record

instance : Record INode := ⟨Layout.inode⟩
instance : Record ChildLink := ⟨Layout.childLink⟩
instance : Record BlockMeta := ⟨Layout.blockMeta⟩
instance : Record BlockStorage := ⟨Layout.blockStorage⟩
instance : Record FileBlock := ⟨Layout.fileBlock⟩
instance : Record INode.Kind := ⟨Layout.inodeKind⟩
instance : Record StorageLocation := ⟨Layout.storageLocation⟩
instance : Record Block := ⟨Layout.block⟩
instance : Record Timestamps := ⟨Layout.timestamps⟩

def encode {α : Type} [Record α] (value : α) : Bytes := (Record.layout (α := α)).write value

def decode {α : Type} [Record α] (bytes : Bytes) : Except Error α :=
  match (Record.layout (α := α)).read bytes with
  | .ok value => .ok value
  | .error fault => .error (.serialization fault.message)

end Record

-- A file with its blocks is a collection of members whose number is not known before they are written, so it
-- cannot be written at all, and only the empty collection can be read.
namespace INodeFile

def encode (_ : INodeFile) : Except Error Bytes := .error (.serialization Layout.Fault.unsized.message)

def decode (bytes : Bytes) : Except Error INodeFile :=
  match Layout.takeINodeFile bytes with
  | .ok (file, _) => .ok file
  | .error fault => .error (.serialization fault.message)

end INodeFile

end FsMeta
