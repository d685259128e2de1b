import FsMeta.Proofs.Record.Reading

set_option autoImplicit false

namespace FsMeta

structure StorageLocation.Sized (location : StorageLocation) : Prop where
  dataNodeId : (Utf8.encode location.dataNodeId).length < UInt64.size
  storageId : (Utf8.encode location.storageId).length < UInt64.size

def BlockMeta.Sized (info : BlockMeta) : Prop := (Utf8.encode info.blockPoolId).length < UInt64.size

def BlockStorage.Sized (replicas : BlockStorage) : Prop := ∀ location ∈ replicas.nodes, location.Sized

structure Block.Sized (block : Block) : Prop where
  info : block.info.Sized
  storage : ∀ location ∈ block.storage, location.Sized

namespace BlockStorage

variable {replicas other : BlockStorage}

theorem Sized.insert (sized : replicas.Sized) {location : StorageLocation} (new : location.Sized) :
    (replicas.insert location).1.Sized := by
  rw [BlockStorage.insert]
  split
  · exact sized
  · intro found member
    rcases List.mem_append.1 member with member | member
    · exact sized found member
    · rwa [List.mem_singleton.1 member]

theorem Sized.merge (sized : replicas.Sized) (also : other.Sized) : (replicas.merge other).Sized := by
  obtain ⟨id, nodes⟩ := other
  induction nodes generalizing replicas with
  | nil => exact sized
  | cons location rest ih =>
    obtain ⟨first, others⟩ := List.forall_mem_cons.1 also
    exact ih (sized.insert first) others

end BlockStorage

theorem Block.Sized.replicas {block : Block} (sized : block.Sized) : block.replicas.Sized :=
  BlockStorage.Sized.merge (fun _ member => by cases member) sized.storage

namespace Layout

theorem restores_fileBlock (entry : FileBlock) : fileBlock.Restores entry :=
  Restores.iso (Restores.pair (restores_int64 _) (Restores.pair (restores_int64 _) (restores_int64 _))) rfl

theorem fst_of_take_pair {α β : Type} {first : Layout α} {second : Layout β} {a : α} {found : α × β}
    {bytes left : Bytes} (restores : first.Restores a)
    (taken : (first.pair second).take (first.write a ++ bytes) = .ok (found, left)) : found.1 = a := by
  obtain ⟨⟨other, rest⟩, front, taken⟩ := exists_ok_of_bind taken
  rw [restores] at front
  cases front
  obtain ⟨⟨behind, rest⟩, back, same⟩ := exists_ok_of_bind taken
  cases same
  rfl

theorem restores_blockMeta {info : BlockMeta} (sized : info.Sized) : blockMeta.Restores info := by
  rw [blockMeta]
  refine Restores.iso ?_ rfl
  refine Restores.pair (restores_int64 _) ?_
  refine Restores.pair (restores_int64 _) ?_
  refine Restores.pair (restores_int64 _) ?_
  refine Restores.pair (restores_int32 _) ?_
  exact Restores.pair (restores_int64 _) (restores_text sized)

theorem restores_storageLocation {location : StorageLocation} (sized : location.Sized) :
    storageLocation.Restores location :=
  Restores.iso (Restores.pair (restores_text sized.dataNodeId) (restores_text sized.storageId)) rfl

-- If the length does not fit, a part of the list is read and the rest is left.
theorem exists_take_list {α : Type} {layout : Layout α} {elements : List α}
    (restores : ∀ element ∈ elements, layout.Restores element) (rest : Bytes) :
    ∃ found more, (list layout).take ((list layout).write elements ++ rest) = .ok (found, more) := by
  obtain ⟨count, counted⟩ : ∃ count, (UInt64.ofNat elements.length).toNat = count := ⟨_, rfl⟩
  have bound : count ≤ elements.length := by
    rw [← counted, UInt64.toNat_ofNat']
    exact Nat.mod_le _ _
  have split : elements.flatMap layout.write ++ rest =
      (elements.take count).flatMap layout.write ++ ((elements.drop count).flatMap layout.write ++ rest) := by
    rw [← List.append_assoc, ← List.flatMap_append, List.take_append_drop]
  have front : ∀ element ∈ elements.take count, layout.Restores element := fun element member =>
    restores element (List.mem_of_mem_take member)
  have taken := takeMany_append front ((elements.drop count).flatMap layout.write ++ rest)
  rw [List.length_take_of_le bound] at taken
  have length := restores_uint64 (UInt64.ofNat elements.length)
  refine ⟨elements.take count, (elements.drop count).flatMap layout.write ++ rest, ?_⟩
  simp only [list, List.append_assoc, length _]
  rw [split]
  change takeMany layout (UInt64.ofNat elements.length).toNat _ = _
  rw [counted]
  exact taken

theorem gives_storageLocation : storageLocation.Gives StorageLocation.Sized :=
  Gives.iso ((gives_text.pair gives_text).mono fun _ both => ⟨both.1, both.2⟩)

theorem gives_blockMeta : blockMeta.Gives BlockMeta.Sized := by
  have number := Gives.anything int64
  have fields := number.pair <| number.pair <| number.pair <| (Gives.anything int32).pair <|
    number.pair gives_text
  exact Gives.iso (fields.mono fun _ all => all.2.2.2.2.2)

theorem gives_blockStorage : blockStorage.Gives BlockStorage.Sized :=
  Gives.iso (((Gives.anything int64).pair (gives_list gives_storageLocation)).mono fun _ both => both.2)

end Layout

namespace Record

theorem decode_encode_fileBlock (entry : FileBlock) : decode (encode entry) = .ok entry :=
  decode_encode (Layout.restores_fileBlock entry)

theorem encode_fileBlock_injective {entry other : FileBlock} (same : encode entry = encode other) :
    entry = other := by
  have decoded := decode_encode_fileBlock entry
  rw [same, decode_encode_fileBlock] at decoded
  cases decoded
  rfl

theorem decode_encode_blockMeta {info : BlockMeta} (sized : info.Sized) : decode (encode info) = .ok info :=
  decode_encode (Layout.restores_blockMeta sized)

/-- The id comes back even if the texts behind it are too long for their lengths. -/
theorem id_of_decode_encode {info found : BlockMeta}
    (decoded : decode (encode info) = .ok found) : found.id = info.id := by
  have read : Layout.blockMeta.read (Layout.blockMeta.write info) = .ok found := by
    rw [decode] at decoded
    split at decoded
    · rename_i other read
      cases decoded
      exact read
    · cases decoded
  rw [Layout.read, map_eq_pure_bind] at read
  obtain ⟨⟨other, rest⟩, taken, same⟩ := exists_ok_of_bind read
  cases same
  obtain ⟨⟨fields, left⟩, taken, same⟩ := exists_ok_of_bind taken
  cases same
  exact Layout.fst_of_take_pair (Layout.restores_int64 info.id) taken

theorem exists_decode_blockStorage {replicas : BlockStorage} (sized : replicas.Sized) :
    ∃ found : BlockStorage, decode (encode replicas) = .ok found ∧ found.id = replicas.id := by
  obtain ⟨found, more, taken⟩ := Layout.exists_take_list
    (fun location member => Layout.restores_storageLocation (sized location member)) []
  have id := Layout.restores_int64 replicas.id
  refine ⟨{ id := replicas.id, nodes := found }, ?_, rfl⟩
  have read : Layout.blockStorage.take (encode replicas) =
      .ok ({ id := replicas.id, nodes := found }, more) := by
    rw [List.append_nil] at taken
    simp only [encode, Record.layout, Layout.blockStorage, Layout.iso, Layout.pair, id _, bind, Except.bind, taken]
    rfl
  rw [decode]
  simp only [Layout.read, Record.layout, read]
  rfl

theorem sized_blockMeta {bytes : Bytes} {info : BlockMeta} (decoded : decode bytes = .ok info) : info.Sized :=
  gives_of_decode Layout.gives_blockMeta decoded

theorem sized_blockStorage {bytes : Bytes} {replicas : BlockStorage} (decoded : decode bytes = .ok replicas) :
    replicas.Sized :=
  gives_of_decode Layout.gives_blockStorage decoded

end Record

end FsMeta
