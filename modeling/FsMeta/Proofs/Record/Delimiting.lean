import FsMeta.Proofs.Record.Replicas

set_option autoImplicit false

namespace FsMeta

namespace Layout

variable {α β : Type}

def Delimits (layout : Layout α) : Prop :=
  ∀ bytes a rest more, layout.take bytes = .ok (a, rest) → layout.take (bytes ++ more) = .ok (a, rest ++ more)

theorem takeBytes_longer {count : Nat} {bytes taken rest : Bytes}
    (done : takeBytes count bytes = .ok (taken, rest)) (more : Bytes) :
    takeBytes count (bytes ++ more) = .ok (taken, rest ++ more) := by
  induction count generalizing bytes taken with
  | zero =>
    cases done
    rfl
  | succ count ih =>
    cases bytes with
    | nil => cases done
    | cons byte bytes =>
      obtain ⟨⟨others, left⟩, next, same⟩ := exists_ok_of_bind done
      cases same
      rw [List.cons_append, takeBytes, ih next]
      rfl

namespace Delimits

theorem number (width : Nat) : (Layout.number width).Delimits := by
  intro bytes n rest more done
  obtain ⟨⟨taken, left⟩, front, same⟩ := exists_ok_of_bind done
  cases same
  simp only [Layout.number, takeBytes_longer front more]
  rfl

theorem iso {layout : Layout α} (delimits : layout.Delimits) (back : α → β) (forth : β → α) :
    (layout.iso back forth).Delimits := by
  intro bytes b rest more done
  obtain ⟨⟨a, left⟩, front, same⟩ := exists_ok_of_bind done
  cases same
  simp only [Layout.iso, delimits _ _ _ more front]
  rfl

theorem partly {layout : Layout α} (delimits : layout.Delimits) (back : α → Except Fault β)
    (forth : β → α) : (layout.partly back forth).Delimits := by
  intro bytes b rest more done
  obtain ⟨⟨a, left⟩, front, done⟩ := exists_ok_of_bind done
  obtain ⟨found, good, same⟩ := exists_ok_of_bind done
  cases same
  simp only [Layout.partly, delimits _ _ _ more front, bind, Except.bind, good]
  rfl

theorem pair {first : Layout α} {second : Layout β} (one : first.Delimits) (two : second.Delimits) :
    (first.pair second).Delimits := by
  intro bytes p rest more done
  obtain ⟨⟨a, behind⟩, front, done⟩ := exists_ok_of_bind done
  obtain ⟨⟨b, left⟩, back, same⟩ := exists_ok_of_bind done
  cases same
  simp only [Layout.pair, one _ _ _ more front, bind, Except.bind, two _ _ _ more back]
  rfl

theorem many {layout : Layout α} (delimits : layout.Delimits) {count : Nat} {bytes rest : Bytes}
    {elements : List α} (done : takeMany layout count bytes = .ok (elements, rest)) (more : Bytes) :
    takeMany layout count (bytes ++ more) = .ok (elements, rest ++ more) := by
  induction count generalizing bytes elements with
  | zero =>
    cases done
    rfl
  | succ count ih =>
    obtain ⟨⟨first, behind⟩, front, done⟩ := exists_ok_of_bind done
    obtain ⟨⟨others, left⟩, back, same⟩ := exists_ok_of_bind done
    cases same
    simp only [takeMany, delimits _ _ _ more front, bind, Except.bind, ih back]
    rfl

end Delimits

theorem delimits_uint32 : uint32.Delimits := (Delimits.number 4).iso _ _

theorem delimits_uint64 : uint64.Delimits := (Delimits.number 8).iso _ _

theorem delimits_int32 : int32.Delimits := delimits_uint32.iso _ _

theorem delimits_int64 : int64.Delimits := delimits_uint64.iso _ _

theorem Delimits.list {layout : Layout α} (delimits : layout.Delimits) :
    (Layout.list layout).Delimits := by
  intro bytes elements rest more done
  obtain ⟨⟨count, behind⟩, front, done⟩ := exists_ok_of_bind done
  simp only [Layout.list, delimits_uint64 _ _ _ more front, bind, Except.bind]
  exact delimits.many done more

theorem delimits_text : text.Delimits := by
  intro bytes content rest more done
  obtain ⟨⟨count, behind⟩, front, done⟩ := exists_ok_of_bind done
  dsimp only at done
  split at done
  · cases done
  rename_i long
  have enough : count.toNat ≤ behind.length := Nat.not_lt.1 long
  have still : ¬ (behind ++ more).length < count.toNat := by
    rw [List.length_append]
    omega
  rw [List.splitAt_eq] at done
  simp only [text, delimits_uint64 _ _ _ more front, bind, Except.bind, if_neg still, List.splitAt_eq,
    List.take_append_of_le_length enough, List.drop_append_of_le_length enough]
  cases decoded : Utf8.decode (behind.take count.toNat) with
  | error fault =>
    rw [decoded] at done
    cases done
  | ok found =>
    rw [decoded] at done
    cases done
    rfl

theorem delimits_inodeKind : inodeKind.Delimits := delimits_int32.partly _ _

theorem delimits_childLink : childLink.Delimits := delimits_int64.iso _ _

theorem delimits_inode : inode.Delimits := by
  have number := delimits_int64
  exact (number.pair <| delimits_text.pair <| number.pair <| number.pair <| number.pair <| number.pair <|
    delimits_inodeKind.pair <| number.pair <| delimits_text.pair delimits_text).iso _ _

theorem delimits_storageLocation : storageLocation.Delimits := (delimits_text.pair delimits_text).iso _ _

theorem delimits_blockMeta : blockMeta.Delimits := by
  have number := delimits_int64
  exact (number.pair <| number.pair <| number.pair <| delimits_int32.pair <| number.pair delimits_text).iso _ _

theorem delimits_blockStorage : blockStorage.Delimits :=
  (delimits_int64.pair delimits_storageLocation.list).iso _ _

theorem delimits_block : block.Delimits := (delimits_blockMeta.pair delimits_storageLocation.list).iso _ _

theorem delimits_fileBlock : fileBlock.Delimits :=
  (delimits_int64.pair <| delimits_int64.pair delimits_int64).iso _ _

theorem delimits_timestamps : timestamps.Delimits := (delimits_uint64.list.pair delimits_uint64).iso _ _

/-- If a value could be read from a part of its bytes, the part that is missing would be left over where
all of them are read. -/
theorem Delimits.torn {layout : Layout α} (delimits : layout.Delimits) {a : α} (restores : layout.Restores a)
    {torn : Bytes} (part : torn <+: layout.write a) (short : torn ≠ layout.write a) :
    ∃ fault, layout.read torn = .error fault := by
  obtain ⟨missing, whole⟩ := part
  cases taken : layout.take torn with
  | error fault =>
    refine ⟨fault, ?_⟩
    rw [Layout.read, taken]
    rfl
  | ok found =>
    have longer := delimits _ _ _ missing taken
    have exactly := restores []
    rw [List.append_nil, ← whole, longer, Except.ok.injEq, Prod.mk.injEq] at exactly
    have nothing : missing = [] := (List.append_eq_nil_iff.1 exactly.2).2
    rw [nothing, List.append_nil] at whole
    exact absurd whole short

theorem restores_block {block : Block} (sized : block.Sized) (short : block.storage.length < UInt64.size) :
    Layout.block.Restores block := by
  rw [Layout.block]
  refine Restores.iso (Restores.pair (restores_blockMeta sized.info) ?_) rfl
  exact restores_list (fun location member => restores_storageLocation (sized.storage location member)) short

theorem restores_timestamps {stamps : Timestamps} (short : stamps.timestamp.length < UInt64.size) :
    timestamps.Restores stamps :=
  Restores.iso (Restores.pair (restores_list (fun stamp _ => restores_uint64 stamp) short) (restores_uint64 _)) rfl

end Layout

namespace Record

structure Exact {α : Type} [Record α] (value : α) : Prop where
  restored : ∀ rest, decode (encode value ++ rest) = .ok value
  torn : ∀ torn, torn <+: encode value → torn ≠ encode value →
    ∃ message, decode (α := α) torn = .error (.serialization message)

theorem exact_of_restores {α : Type} [Record α] {value : α}
    (restores : (Record.layout (α := α)).Restores value) (delimits : (Record.layout (α := α)).Delimits) :
    Exact value := by
  constructor
  · intro rest
    have read : (Record.layout (α := α)).read (encode value ++ rest) = .ok value := by
      rw [Layout.read, encode, restores rest]
      rfl
    rw [decode, read]
  · intro torn part short
    obtain ⟨fault, failed⟩ := delimits.torn restores part short
    refine ⟨fault.message, ?_⟩
    rw [decode, failed]

theorem every_record_exact :
    (∀ node : INode, node.Sized → Exact node) ∧
      (∀ kind : INode.Kind, Exact kind) ∧
      (∀ info : BlockMeta, info.Sized → Exact info) ∧
      (∀ replicas : BlockStorage, replicas.Sized → replicas.nodes.length < UInt64.size → Exact replicas) ∧
      (∀ location : StorageLocation, location.Sized → Exact location) ∧
      (∀ block : Block, block.Sized → block.storage.length < UInt64.size → Exact block) ∧
      (∀ link : ChildLink, Exact link) ∧
      (∀ entry : FileBlock, Exact entry) ∧
      (∀ stamps : Timestamps, stamps.timestamp.length < UInt64.size → Exact stamps) := by
  refine ⟨?inode, ?kind, ?info, ?replicas, ?location, ?block, ?link, ?entry, ?stamps⟩
  case inode => exact fun _ sized => exact_of_restores sized.restores Layout.delimits_inode
  case kind => exact fun kind => exact_of_restores (Layout.restores_inodeKind kind) Layout.delimits_inodeKind
  case info =>
    exact fun _ sized => exact_of_restores (Layout.restores_blockMeta sized) Layout.delimits_blockMeta
  case replicas =>
    exact fun _ sized short =>
      exact_of_restores (Layout.restores_blockStorage sized short) Layout.delimits_blockStorage
  case location =>
    exact fun _ sized => exact_of_restores (Layout.restores_storageLocation sized) Layout.delimits_storageLocation
  case block =>
    exact fun _ sized short => exact_of_restores (Layout.restores_block sized short) Layout.delimits_block
  case link => exact fun link => exact_of_restores (Layout.restores_childLink link) Layout.delimits_childLink
  case entry => exact fun entry => exact_of_restores (Layout.restores_fileBlock entry) Layout.delimits_fileBlock
  case stamps =>
    exact fun _ short => exact_of_restores (Layout.restores_timestamps short) Layout.delimits_timestamps

-- Without its last byte, this inode ends within a character.
theorem every_record_exact_extreme :
    let node : INode :=
      { id := Int64.minValue, header := Int64.maxValue, kind := .directory, clientMachine := "a\x00é" }
    let block : Block :=
      { id := -1, replication := Int32.minValue, blockPoolId := "é", storage := [⟨"dn", ""⟩, ⟨"dn", "é"⟩] }
    let replicas : BlockStorage := { id := block.id, nodes := block.storage }
    let stamps : Timestamps := { timestamp := [0, 18446744073709551615], count := 2 }
    node.Sized ∧ block.Sized ∧ block.storage.length < UInt64.size ∧
      Exact node ∧ Exact block ∧ Exact block.info ∧ Exact replicas ∧ Exact stamps := by
  intro node block replicas stamps
  obtain ⟨inodes, _, infos, sets, _, blocks, _, _, timestamps⟩ := every_record_exact
  have sized : node.Sized := ⟨by decide +kernel, by decide +kernel, by decide +kernel⟩
  have pool : block.info.Sized := show (Utf8.encode "é").length < UInt64.size by decide +kernel
  have first : StorageLocation.Sized ⟨"dn", ""⟩ := ⟨by decide +kernel, by decide +kernel⟩
  have second : StorageLocation.Sized ⟨"dn", "é"⟩ := ⟨by decide +kernel, by decide +kernel⟩
  have whole : block.Sized := ⟨pool, by simp [block, first, second]⟩
  have short : block.storage.length < UInt64.size := by decide +kernel
  exact ⟨sized, whole, short, inodes node sized, blocks block whole short, infos block.info pool,
    sets replicas whole.storage short, timestamps stamps (by decide +kernel)⟩

end Record

end FsMeta
