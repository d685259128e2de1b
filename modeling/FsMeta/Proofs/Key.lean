import FsMeta.Key
import FsMeta.Proofs.Bytes
import FsMeta.Proofs.Text.Utf8
import Mathlib.Data.List.Basic

set_option autoImplicit false

namespace FsMeta

theorem Marker.bytes_injective {a b : Marker} (same : a.bytes = b.bytes) : a = b := by
  cases a <;> cases b <;> first | rfl | cases same

@[simp] theorem Marker.length_bytes (marker : Marker) : marker.bytes.length = 4 := by
  cases marker <;> rfl

@[simp] theorem length_idBytes (id : Int64) : (idBytes id).length = 8 := Bytes.length_bigEndian 8 _

theorem idBytes_injective {a b : Int64} (same : idBytes a = idBytes b) : a = b := by
  have number := congrArg Bytes.ofBigEndian same
  rw [idBytes, idBytes, Bytes.ofBigEndian_bigEndian a.toUInt64.toNat_lt,
    Bytes.ofBigEndian_bigEndian b.toUInt64.toNat_lt] at number
  have unsigned : a.toUInt64 = b.toUInt64 := UInt64.toNat_inj.1 number
  rw [← Int64.toInt64_toUInt64 a, unsigned, Int64.toInt64_toUInt64]

theorem indexBytes_injective {a b : UInt64} (same : indexBytes a = indexBytes b) : a = b := by
  have number := congrArg Bytes.ofBigEndian same
  rw [indexBytes, indexBytes, Bytes.ofBigEndian_bigEndian a.toNat_lt,
    Bytes.ofBigEndian_bigEndian b.toNat_lt] at number
  exact UInt64.toNat_inj.1 number

namespace Key

def marker : Key → Marker
  | blockMeta _ => .blockMeta
  | blockStorage _ => .blockStorage
  | inode _ => .inode
  | child _ _ => .child
  | fileBlock _ _ => .fileBlock

def owner : Key → Int64
  | blockMeta id | blockStorage id | inode id | child id _ | fileBlock id _ => id

def tail : Key → Bytes
  | blockMeta _ | blockStorage _ | inode _ => []
  | child _ name => Utf8.encode name
  | fileBlock _ index => indexBytes index

theorem bytes_eq (key : Key) : key.bytes = headed key.marker key.owner ++ key.tail := by
  cases key <;> simp [bytes, marker, owner, tail, children, fileBlocks]

theorem headed_append_inj {m n : Marker} {a b : Int64} {rest more : Bytes}
    (same : headed m a ++ rest = headed n b ++ more) : m = n ∧ a = b ∧ rest = more := by
  have lengths : (headed m a).length = (headed n b).length := by simp [headed]
  obtain ⟨heads, rests⟩ := List.append_inj same lengths
  obtain ⟨markers, ids⟩ := List.append_inj heads (by simp)
  exact ⟨Marker.bytes_injective markers, idBytes_injective ids, rests⟩

theorem bytes_injective {a b : Key} (same : a.bytes = b.bytes) : a = b := by
  rw [bytes_eq, bytes_eq] at same
  obtain ⟨markers, owners, tails⟩ := headed_append_inj same
  cases a with
  | child parent name =>
    cases b <;> cases markers
    cases owners
    rw [Utf8.encode_injective tails]
  | fileBlock file index =>
    cases b <;> cases markers
    cases owners
    rw [indexBytes_injective tails]
  | _ =>
    cases b <;> cases markers
    cases owners
    rfl

@[simp] theorem bytes_inj {a b : Key} : a.bytes = b.bytes ↔ a = b :=
  ⟨bytes_injective, congrArg bytes⟩

theorem eq_of_isPrefixOf {m n : Marker} {id other : Int64} {bytes : Bytes}
    (one : (headed m id).isPrefixOf bytes = true) (two : (headed n other).isPrefixOf bytes = true) :
    m = n ∧ id = other := by
  obtain ⟨rest, rfl⟩ := List.isPrefixOf_iff_prefix.1 one
  obtain ⟨more, same⟩ := List.isPrefixOf_iff_prefix.1 two
  obtain ⟨markers, owners, _⟩ := headed_append_inj same
  exact ⟨markers.symm, owners.symm⟩

theorem begins (key : Key) : (headed key.marker key.owner).isPrefixOf key.bytes = true := by
  rw [bytes_eq]
  exact List.isPrefixOf_iff_prefix.2 (List.prefix_append _ _)

theorem marker_of_isPrefixOf {key : Key} {m : Marker} {id : Int64}
    (begins : (headed m id).isPrefixOf key.bytes = true) : key.marker = m :=
  (eq_of_isPrefixOf key.begins begins).1

theorem owner_of_isPrefixOf {key : Key} {m : Marker} {id : Int64}
    (begins : (headed m id).isPrefixOf key.bytes = true) : key.owner = id :=
  (eq_of_isPrefixOf key.begins begins).2

theorem fileBlock_lt (file : Int64) {index other : UInt64} (less : index < other) :
    (fileBlock file index).bytes < (fileBlock file other).bytes :=
  List.append_left_lt (Bytes.bigEndian_lt (UInt64.lt_iff_toNat_lt.1 less) other.toNat_lt)

theorem fileBlockIndex_bytes (file : Int64) (index : UInt64) :
    fileBlockIndex (fileBlocks file) (fileBlock file index).bytes = .ok index := by
  have cut : (fileBlocks file).isPrefixOf? (fileBlock file index).bytes = some (indexBytes index) :=
    List.isPrefixOf?_eq_some_iff_append_eq.2 rfl
  have number : indexOfBytes (indexBytes index) = index := by
    rw [indexOfBytes, indexBytes, Bytes.ofBigEndian_bigEndian index.toNat_lt, UInt64.ofNat_toNat]
  have width : (indexBytes index).length = idLength := Bytes.length_bigEndian 8 _
  simp only [fileBlockIndex, cut, width, number, if_true]

theorem eq_of_fileBlockIndex {file : Int64} {key : Bytes} {index : UInt64}
    (read : fileBlockIndex (fileBlocks file) key = .ok index) : key = (fileBlock file index).bytes := by
  rw [fileBlockIndex] at read
  split at read
  · cases read
  · rename_i rest cut
    split at read
    · rename_i width
      cases read
      have bound := Bytes.ofBigEndian_lt rest
      have back := Bytes.bigEndian_ofBigEndian rest
      rw [width] at bound back
      rw [← List.isPrefixOf?_eq_some_iff_append_eq.1 cut, bytes, indexBytes, indexOfBytes,
        UInt64.toNat_ofNat_of_lt' (Nat.lt_of_lt_of_le bound (by decide))]
      exact congrArg _ back.symm
    · cases read

theorem eq_fileBlock_of_isPrefixOf {key : Key} {file : Int64}
    (begins : (fileBlocks file).isPrefixOf key.bytes = true) : ∃ index, key = fileBlock file index := by
  obtain ⟨rest, same⟩ := List.isPrefixOf_iff_prefix.1 begins
  rw [bytes_eq] at same
  obtain ⟨markers, owners, _⟩ := headed_append_inj same
  cases key with
  | fileBlock other index =>
    cases owners
    exact ⟨index, rfl⟩
  | _ => cases markers

end Key

end FsMeta
