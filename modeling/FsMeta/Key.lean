import FsMeta.Error
import FsMeta.Text.Escaped
import FsMeta.Text.Quoted
import FsMeta.Text.Utf8

set_option autoImplicit false

/-!
The keys that metadata is stored under. A key is a four-byte marker of what it holds, an id of eight
bytes, and for a child its name, for a block of a file its index. Numbers are written with the most
significant byte first, so the blocks of a file lie in the order of their indexes.
-/
namespace FsMeta

inductive Marker where
  | blockMeta
  | blockStorage
  | inode
  | child
  | fileBlock
  deriving Repr, DecidableEq

def Marker.bytes : Marker → Bytes
  | .blockMeta => [0x7b, 0x62, 0x6d, 0x7d]
  | .blockStorage => [0x7b, 0x62, 0x73, 0x7d]
  | .inode => [0x7b, 0x69, 0x6e, 0x7d]
  | .child => [0x7b, 0x64, 0x63, 0x7d]
  | .fileBlock => [0x7b, 0x66, 0x62, 0x7d]

def idBytes (id : Int64) : Bytes := Bytes.bigEndian 8 id.toUInt64.toNat

def idOfBytes (bytes : Bytes) : Int64 := (UInt64.ofNat (Bytes.ofBigEndian bytes)).toInt64

def indexBytes (index : UInt64) : Bytes := Bytes.bigEndian 8 index.toNat

def indexOfBytes (bytes : Bytes) : UInt64 := UInt64.ofNat (Bytes.ofBigEndian bytes)

inductive Key where
  | blockMeta (id : Int64)
  | blockStorage (id : Int64)
  | inode (id : Int64)
  | child (parent : Int64) (name : String)
  | fileBlock (file : Int64) (index : UInt64)
  deriving Repr, DecidableEq

namespace Key

def headed (marker : Marker) (id : Int64) : Bytes := marker.bytes ++ idBytes id

def children (parent : Int64) : Bytes := headed .child parent

def fileBlocks (file : Int64) : Bytes := headed .fileBlock file

def bytes : Key → Bytes
  | blockMeta id => headed .blockMeta id
  | blockStorage id => headed .blockStorage id
  | inode id => headed .inode id
  | child parent name => children parent ++ Utf8.encode name
  | fileBlock file index => fileBlocks file ++ indexBytes index

def markerLength : Nat := 4

def idLength : Nat := 8

def childrenLength : Nat := markerLength + idLength

def fileBlockLength : Nat := markerLength + 2 * idLength

def outside (key : Bytes) : Error :=
  .corrupted s!"key {Escaped.text key} is outside scan prefix"

def childName (scanned key : Bytes) : Except Error String :=
  match scanned.isPrefixOf? key with
  | none => .error (outside key)
  | some name =>
    if scanned.length ≠ childrenLength ∨ name = [] then
      .error (.corrupted s!"malformed directory-child key {Escaped.text key}")
    else
      match Utf8.decode? name with
      | some name => .ok name
      | none => .error (.corrupted s!"child name in {Escaped.text key} is not UTF-8")

def fileBlockIndex (scanned key : Bytes) : Except Error UInt64 :=
  match scanned.isPrefixOf? key with
  | none => .error (outside key)
  | some index =>
    if index.length = idLength then .ok (indexOfBytes index)
    else .error (.corrupted s!"malformed file-block key {Escaped.text key}")

/-- What a message calls the record under a key. Bytes that are no key are shown as they are. -/
def describe (key : Bytes) : String :=
  if key.length < childrenLength then Escaped.text key
  else
    let marker := key.take markerLength
    let id := idOfBytes ((key.drop markerLength).take idLength)
    let tail := key.drop childrenLength
    if marker = Marker.bytes .blockMeta ∧ tail = [] then s!"block-meta {id}"
    else if marker = Marker.bytes .blockStorage ∧ tail = [] then s!"block-storage {id}"
    else if marker = Marker.bytes .inode ∧ tail = [] then s!"inode {id}"
    else if marker = Marker.bytes .child then
      s!"directory-child {id}/{Quoted.text (Utf8.lossy tail)}"
    else if marker = Marker.bytes .fileBlock ∧ tail.length = idLength then
      s!"file-block {id}#{indexOfBytes tail}"
    else Escaped.text key

end Key

end FsMeta
