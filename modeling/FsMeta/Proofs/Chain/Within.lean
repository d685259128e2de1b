import FsMeta.Chain.Replacement
import FsMeta.Chain.Truncation
import FsMeta.Chain.Upsert
import FsMeta.Proofs.Record.Block
import FsMeta.Proofs.Stored
import FsMeta.Proofs.Writing

set_option autoImplicit false

namespace FsMeta

namespace Contents

def Names (contents : Contents) (file id : Int64) : Prop :=
  ∃ (key bytes : Bytes) (entry : FileBlock), (Key.fileBlocks file).isPrefixOf key = true ∧
    contents key = some bytes ∧ Record.decode bytes = .ok entry ∧ entry.blockId = id

def Labelled (contents : Contents) : Prop :=
  ∀ (id : Int64) (info : BlockMeta), contents.Holds (.blockMeta id) info → info.id = id

end Contents

namespace Chain

open Scoped (Ensures Only)

section

variable {allowed : Bytes → Option Bytes → Prop}

theorem only_entries (file : Int64) : Only allowed (entries file) :=
  .bind (.lift _) fun _ => .bind (.scan _) fun _ => .lift _

theorem only_part (α : Type) [Record α] (file : Int64) (entry : ChainEntry) (name : String) (key : Key) :
    Only allowed (part α file entry name key) := by
  refine .bind (.find? _ _) fun value => ?_
  cases value with
  | some value => exact .pure _
  | none => exact .throw _

theorem only_resolve (file : Int64) (entry : ChainEntry) : Only allowed (resolve file entry) :=
  .bind (only_part _ _ _ _ _) fun _ => .bind (only_part _ _ _ _ _) fun _ => .pure _

theorem only_resolved (file : Int64) : Only allowed (resolved file) :=
  .bind (only_entries file) fun chain => .mapM chain (only_resolve file)

theorem only_blocks (file : Int64) : Only allowed (blocks file) :=
  .bind (only_resolved file) fun _ => .pure _

theorem only_block (file id : Int64) : Only allowed (block file id) := by
  refine .bind (only_blocks file) fun blocks => ?_
  split
  · exact .pure _
  · exact .throw _

end

def Permits (file : Int64) (meant : Int64 → Prop) (value : Option Bytes) : Key → Prop
  | .fileBlock other _ => other = file
  | .blockMeta id => meant id ∧
    ∀ (bytes : Bytes) (info : BlockMeta), value = some bytes → Record.decode bytes = .ok info → info.id = id
  | .blockStorage id => meant id
  | .inode _ | .child _ _ => False

def Within (file : Int64) (meant : Int64 → Prop) (key : Bytes) (value : Option Bytes) : Prop :=
  ∃ known : Key, known.bytes = key ∧ Permits file meant value known

def Erasing (file : Int64) (meant : Int64 → Prop) (key : Bytes) (value : Option Bytes) : Prop :=
  Within file meant key value ∧ Deleting key value

variable {base : Contents} {writes : Writes} {file : Int64} {meant : Int64 → Prop} {id : Int64}
variable {key : Bytes} {value : Option Bytes}

theorem Within.offTree (within : Within file meant key value) : OffTree key value := by
  obtain ⟨known, rfl, permits⟩ := within
  refine ⟨known, rfl, fun tree => ?_⟩
  cases known with
  | inode | child => exact permits
  | blockMeta | blockStorage | fileBlock => exact tree

theorem Erasing.discarding (erasing : Erasing file meant key value) : Discarding key value :=
  erasing.imp_left Within.offTree

theorem within_info (info : BlockMeta) (known : meant info.id) :
    Within file meant (Key.blockMeta info.id).bytes (some (Record.encode info)) := by
  refine ⟨.blockMeta info.id, rfl, known, ?_⟩
  rintro _ found ⟨rfl⟩ decoded
  exact Record.id_of_decode_encode decoded

theorem within_removed (known : meant id) : Within file meant (Key.blockMeta id).bytes none :=
  ⟨.blockMeta id, rfl, known, nofun⟩

theorem within_replicas (known : meant id) (value : Option Bytes) :
    Within file meant (Key.blockStorage id).bytes value := ⟨.blockStorage id, rfl, known⟩

theorem within_entry (index : UInt64) (value : Option Bytes) :
    Within file meant (Key.fileBlock file index).bytes value := ⟨.fileBlock file index, rfl, rfl⟩

theorem only_remove_within {entry : ChainEntry} (known : meant entry.entry.blockId) :
    Only (Erasing file meant) (remove file entry) :=
  .bind (.delete ⟨within_entry _ _, rfl⟩) fun _ => .bind (.delete ⟨within_removed known, rfl⟩) fun _ =>
    .delete ⟨within_replicas known _, rfl⟩

theorem only_delete_within {block : Int64} (known : meant block) : Only (Erasing file meant) (delete file block) := by
  refine .bind (.lift _) fun _ => .bind (only_entries file) fun chain => ?_
  split
  · rename_i entry here
    have own : isFor block entry = true := List.find?_some here
    apply only_remove_within
    rwa [show entry.entry.blockId = block by simpa [isFor] using own]
  · exact .throw _

theorem only_relinked_within (before : Option ChainEntry) (block : Int64) :
    Only (Within file meant) (before.forM (relink file · block)) := by
  cases before with
  | none => exact .pure _
  | some before =>
    change Only _ (relink file before block)
    rw [relink]
    split
    · exact .pure _
    · exact .put (within_entry _ _)

theorem only_upsert_within {block : Int64} (known : meant block) (info : BlockMeta) (replicas : BlockStorage) :
    Only (Within file meant) (upsert file block info replicas) := by
  refine .bind (.lift _) fun _ => .bind (.lift _) fun _ => .bind (.lift _) fun _ => ?_
  refine .bind (only_entries file) fun chain => .bind (only_relinked_within _ _) fun _ => ?_
  have described : Within file meant (Key.blockMeta block).bytes (some (Record.encode { info with id := block })) :=
    within_info { info with id := block } known
  exact .bind (.put (within_entry _ _)) fun _ => .bind (.put described) fun _ =>
    .bind (.bind (.find? _ _) fun _ => .put (within_replicas known _)) fun _ => .pure _

theorem only_putAll_within {blocks : List Block} (known : ∀ block ∈ blocks, meant block.id) (index : Nat) :
    Only (Within file meant) (putAll file index blocks) := by
  induction blocks generalizing index with
  | nil => exact .pure _
  | cons block rest ih =>
    obtain ⟨first, others⟩ := List.forall_mem_cons.1 known
    have described : Within file meant (Key.blockMeta block.id).bytes (some (Record.encode block.info)) :=
      within_info block.info first
    exact .bind (.lift _) fun _ => .bind (.put (within_entry _ _)) fun _ => .bind (.put described) fun _ =>
      .bind (.put (within_replicas first _)) fun _ => ih others _

theorem only_shorten_within {last : ChainBlock} (known : meant last.block.id) (residual : Int64) :
    Only (Within file meant) (shorten file last residual) := by
  have resized : Only (Within file meant) (if last.block.numberBytes ≠ residual then
      Scoped.put (Key.blockMeta last.block.id).bytes { last.block.info with numberBytes := residual }
      else Pure.pure ()) := by
    split
    · exact .put (within_info { last.block.info with numberBytes := residual } known)
    · exact .pure _
  rw [shorten]
  dsimp only
  split
  · exact .bind (.put (within_entry _ _)) fun _ => resized
  · exact resized

theorem ensures_entries_named : Ensures base (entries file) writes fun found later =>
    later = writes ∧ ∀ entry ∈ found, (base.write writes).Names file entry.entry.blockId := by
  refine .bind (.lift fun _ _ => .bind (.scan fun pairs _ seen => .lift fun found listed => ⟨rfl, ?_⟩))
  intro entry member
  obtain ⟨⟨key, bytes⟩, among, read⟩ := exists_of_mem_mapM listed member
  obtain ⟨held, begins⟩ := seen (key, bytes) among
  obtain ⟨index, _, read⟩ := exists_ok_of_bind read
  obtain ⟨found, decoded, same⟩ := exists_ok_of_bind read
  cases same
  exact ⟨key, bytes, found, begins, held, decoded, rfl⟩

theorem ensures_part {α : Type} [Record α] {entry : ChainEntry} {name : String} {key : Key}
    {post : α → Writes → Prop} (present : ∀ value, (base.write writes).Holds key value → post value writes) :
    Ensures base (part α file entry name key) writes post :=
  .bind (ensures_find? (fun _ => .throw) fun value held => .pure (present value held))

theorem ensures_resolve_held (entry : ChainEntry) :
    Ensures base (resolve file entry) writes fun found later => later = writes ∧ found.toChainEntry = entry ∧
      ∃ info : BlockMeta, (base.write writes).Holds (.blockMeta entry.entry.blockId) info ∧
        found.block.id = info.id :=
  .bind (ensures_part fun info held => .bind (ensures_part fun _ _ => .pure ⟨rfl, rfl, info, held, rfl⟩))

theorem split_of_cut? {size cumulative : Int64} {found : List ChainBlock} {cut : Cut}
    (cuts : cut? size cumulative found = some cut) : ∃ before, found = before ++ cut.last :: cut.dropped := by
  induction found generalizing cumulative with
  | nil => cases cuts
  | cons head rest ih =>
    rw [cut?] at cuts
    split at cuts
    · cases cuts
      exact ⟨[], rfl⟩
    · obtain ⟨before, same⟩ := ih cuts
      exact ⟨head :: before, by rw [same, List.cons_append]⟩

section

variable (named : ∀ id, (base.write writes).Names file id → meant id)
include named

theorem ensures_deleteAll_within :
    Ensures base (deleteAll file) writes fun _ later => writes.Extended (Erasing file meant) later := by
  refine .bind (ensures_entries_named.mono ?_)
  rintro found same ⟨rfl, listed⟩
  have removes : Only (Erasing file meant) (found.forM (remove file)) :=
    .forM fun entry member => only_remove_within (named _ (listed entry member))
  exact (removes.bind fun _ => .pure found.length) base same

theorem ensures_replace_within {blocks : List Block} (known : ∀ block ∈ blocks, meant block.id) :
    Ensures base (replace file blocks) writes fun _ later => writes.Extended (Within file meant) later := by
  refine .bind (.lift fun _ _ => .bind ((ensures_deleteAll_within named).mono fun _ between removed => ?_))
  have erased : writes.Extended (Within file meant) between := removed.mono fun _ _ => And.left
  exact (only_putAll_within known 0 base between).mono fun _ _ put => erased.trans put

variable (described : ∀ (id : Int64) (info : BlockMeta), (base.write writes).Names file id →
  (base.write writes).Holds (.blockMeta id) info → meant info.id)
include described

theorem ensures_resolved_meant : Ensures base (resolved file) writes fun found later =>
    later = writes ∧ ∀ block ∈ found, meant block.entry.blockId ∧ meant block.block.id := by
  refine .bind (ensures_entries_named.mono ?_)
  rintro chain _ ⟨rfl, listed⟩
  induction chain with
  | nil => exact .pure ⟨rfl, by simp⟩
  | cons entry rest ih =>
    obtain ⟨first, others⟩ := List.forall_mem_cons.1 listed
    rw [List.mapM_cons]
    refine .bind ((ensures_resolve_held entry).mono ?_)
    rintro found _ ⟨rfl, rfl, info, held, own⟩
    refine .bind ((ih others).mono ?_)
    rintro more _ ⟨rfl, all⟩
    have meant : meant found.block.id := own ▸ described _ info first held
    exact .pure ⟨rfl, List.forall_mem_cons.2 ⟨⟨named _ first, meant⟩, all⟩⟩

theorem ensures_truncate_within (size : Int64) :
    Ensures base (truncate file size) writes fun _ later => writes.Extended (Within file meant) later := by
  rw [truncate]
  dsimp only
  split
  · exact .bind .throw
  · refine .bind ((ensures_resolved_meant named described).mono ?_)
    rintro found same ⟨rfl, listed⟩
    have removes (dropped : List ChainBlock) (within : dropped ⊆ found) :
        Only (Within file meant) (dropped.forM fun entry => remove file entry.toChainEntry) :=
      .forM fun entry member => (only_remove_within (listed entry (within member)).1).mono fun _ _ => And.left
    split
    · split
      · exact .bind .throw
      · split
        · exact removes found (List.Subset.refl _) base same
        · split
          · rename_i cut cuts
            obtain ⟨before, rfl⟩ := split_of_cut? cuts
            refine (removes cut.dropped ?_).bind (fun _ => ?_) base same
            · exact List.Subset.trans (List.subset_cons_self _ _) (List.subset_append_right _ _)
            · exact only_shorten_within (listed cut.last (by simp)).2 _
          · exact .throw
    · exact .throw

end

theorem only_delete (file block : Int64) : Only Discarding (delete file block) := by
  have erases : Only (Erasing file fun _ => True) (delete file block) := only_delete_within trivial
  exact erases.mono fun _ _ => Erasing.discarding

theorem only_deleteAll (file : Int64) : Only Discarding (deleteAll file) := by
  intro base writes
  have erases : Ensures base (deleteAll file) writes fun _ later =>
      writes.Extended (Erasing file fun _ => True) later := ensures_deleteAll_within fun _ _ => trivial
  exact erases.mono fun _ _ extended => extended.mono fun _ _ => Erasing.discarding

theorem only_upsert (file block : Int64) (info : BlockMeta) (replicas : BlockStorage) :
    Only OffTree (upsert file block info replicas) := by
  have puts : Only (Within file fun _ => True) (upsert file block info replicas) :=
    only_upsert_within trivial info replicas
  exact puts.mono fun _ _ => Within.offTree

theorem only_replace (file : Int64) (blocks : List Block) : Only OffTree (replace file blocks) := by
  intro base writes
  have puts : Ensures base (replace file blocks) writes fun _ later =>
      writes.Extended (Within file fun _ => True) later :=
    ensures_replace_within (fun _ _ => trivial) fun _ _ => trivial
  exact puts.mono fun _ _ extended => extended.mono fun _ _ => Within.offTree

theorem only_truncate (file size : Int64) : Only OffTree (truncate file size) := by
  intro base writes
  have cuts : Ensures base (truncate file size) writes fun _ later =>
      writes.Extended (Within file fun _ => True) later :=
    ensures_truncate_within (fun _ _ => trivial) (fun _ _ _ _ => trivial) size
  exact cuts.mono fun _ _ extended => extended.mono fun _ _ => Within.offTree

end Chain

end FsMeta
