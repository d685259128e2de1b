import FsMeta.Proofs.Key

set_option autoImplicit false

namespace FsMeta

theorem Bytes.append_lt_append_iff (front : Bytes) {rest more : Bytes} :
    front ++ rest < front ++ more ↔ rest < more := by
  induction front with
  | nil => rfl
  | cons byte others ih => simp [ih]

theorem indexBytes_lt_iff {index other : UInt64} : indexBytes index < indexBytes other ↔ index < other := by
  have ascends {index other : UInt64} (less : index < other) : indexBytes index < indexBytes other :=
    Bytes.bigEndian_lt (UInt64.lt_iff_toNat_lt.1 less) other.toNat_lt
  refine ⟨fun below => ?_, ascends⟩
  rcases UInt64.lt_or_eq_of_le (UInt64.not_lt.1 fun above => List.lt_asymm below (ascends above)) with less | rfl
  · exact less
  · exact absurd below (List.lt_irrefl _)

theorem Utf8.encode_eq_nil_iff {text : String} : encode text = [] ↔ text = "" := by
  constructor
  · exact fun same => encode_injective (same.trans rfl)
  · rintro rfl
    rfl

namespace Key

theorem childName_eq_ok_iff {parent : Int64} {bytes : Bytes} {name : String} :
    childName (children parent) bytes = .ok name ↔ name ≠ "" ∧ bytes = (child parent name).bytes := by
  have width : (children parent).length = childrenLength := by
    simp [children, headed, childrenLength, markerLength, idLength]
  have cut : (children parent).isPrefixOf? (child parent name).bytes = some (Utf8.encode name) :=
    List.isPrefixOf?_eq_some_iff_append_eq.2 rfl
  rw [childName]
  constructor
  · intro read
    split at read
    · cases read
    · rename_i rest found
      split at read
      · cases read
      · rename_i fits
        split at read
        · rename_i decoded
          cases read
          obtain rfl := Utf8.decode?_eq_some_iff.1 decoded
          have filled : Utf8.encode name ≠ [] := fun unnamed => fits (.inr unnamed)
          exact ⟨fun unnamed => filled (Utf8.encode_eq_nil_iff.2 unnamed),
            (List.isPrefixOf?_eq_some_iff_append_eq.1 found).symm⟩
        · cases read
  · rintro ⟨filled, rfl⟩
    have fits : ¬ ((children parent).length ≠ childrenLength ∨ Utf8.encode name = []) := by
      rintro (differs | unnamed)
      · exact differs width
      · exact filled (Utf8.encode_eq_nil_iff.1 unnamed)
    simp only [cut, if_neg fits, Utf8.decode?_eq_some_iff.2 rfl]

theorem fileBlockIndex_eq_ok_iff {file : Int64} {bytes : Bytes} {index : UInt64} :
    fileBlockIndex (fileBlocks file) bytes = .ok index ↔ bytes = (fileBlock file index).bytes := by
  constructor
  · exact eq_of_fileBlockIndex
  · rintro rfl
    exact fileBlockIndex_bytes file index

theorem isPrefixOf_children_iff {parent : Int64} {key : Key} :
    (children parent).isPrefixOf key.bytes = true ↔ ∃ name, key = child parent name := by
  constructor
  · intro begins
    have kind : key.marker = .child := marker_of_isPrefixOf begins
    have owner : key.owner = parent := owner_of_isPrefixOf begins
    cases key with
    | child other name => exact ⟨name, by rw [← owner]; rfl⟩
    | _ => cases kind
  · rintro ⟨name, rfl⟩
    exact (child parent name).begins

theorem isPrefixOf_fileBlocks_iff {file : Int64} {key : Key} :
    (fileBlocks file).isPrefixOf key.bytes = true ↔ ∃ index, key = fileBlock file index := by
  constructor
  · exact eq_fileBlock_of_isPrefixOf
  · rintro ⟨index, rfl⟩
    exact (fileBlock file index).begins

theorem codec_faithful :
    (∀ one other : Key, one.bytes = other.bytes ↔ one = other) ∧
    (∀ (parent : Int64) (bytes : Bytes) (name : String),
      childName (children parent) bytes = .ok name ↔ name ≠ "" ∧ bytes = (child parent name).bytes) ∧
    (∀ (file : Int64) (bytes : Bytes) (index : UInt64),
      fileBlockIndex (fileBlocks file) bytes = .ok index ↔ bytes = (fileBlock file index).bytes) ∧
    (∀ (parent : Int64) (name other : String),
      (child parent name).bytes < (child parent other).bytes ↔ Utf8.encode name < Utf8.encode other) ∧
    (∀ (file : Int64) (index other : UInt64),
      (fileBlock file index).bytes < (fileBlock file other).bytes ↔ index < other) ∧
    (∀ (parent : Int64) (key : Key),
      (children parent).isPrefixOf key.bytes = true ↔ ∃ name, key = child parent name) ∧
    (∀ (file : Int64) (key : Key),
      (fileBlocks file).isPrefixOf key.bytes = true ↔ ∃ index, key = fileBlock file index) := by
  refine ⟨fun _ _ => bytes_inj, fun _ _ _ => childName_eq_ok_iff, fun _ _ _ => fileBlockIndex_eq_ok_iff,
    fun parent name other => ?_, fun file index other => ?_, fun _ _ => isPrefixOf_children_iff,
    fun _ _ => isPrefixOf_fileBlocks_iff⟩
  · exact Bytes.append_lt_append_iff (children parent)
  · exact (Bytes.append_lt_append_iff (fileBlocks file)).trans indexBytes_lt_iff

end Key

end FsMeta
