import FsMeta.Proofs.Chain.Upserting

set_option autoImplicit false

namespace FsMeta

def Block.once (block : Block) : Block := { block with storage := block.storage.eraseDups }

theorem Block.replicas_eq (block : Block) : block.replicas = { id := block.id, nodes := block.storage.eraseDups } := by
  have all : block.storage.filter (· ∉ ([] : List StorageLocation)) = block.storage := by simp
  rw [replicas, BlockStorage.merge_eq, BlockStorage.joined, all, List.nil_append]

theorem Block.once_of_nodup {block : Block} (distinct : block.storage.Nodup) : block.once = block := by
  rw [once, eraseDups_of_nodup distinct]

theorem Contents.write_apply_of_agree {contents target : Contents} {writes : Writes}
    {edits : List (Key × Option Bytes)} (agree : ∀ edit ∈ edits, target edit.1.bytes = edit.2) (place : Bytes) :
    contents.write (writes.apply edits) place =
      if ∃ edit ∈ edits, edit.1.bytes = place then target place else contents.write writes place := by
  split
  · rename_i listed
    obtain ⟨⟨key, value⟩, member, rfl⟩ := listed
    have written : (writes.apply edits).find? key.bytes = some value :=
      Writes.find?_apply_of_mem member fun other also => (agree _ also).symm.trans (agree _ member)
    rw [write_apply, written]
    exact (agree _ member).symm
  · rename_i absent
    rw [write_apply, write_apply, Writes.find?_apply_of_not_mem fun edit member same => absent ⟨edit, member, same⟩]

namespace Chain

variable {file : Int64} {blocks : List Block} {start : Nat}

def standing : (start : Nat) → List Block → List ChainBlock
  | _, [] => []
  | start, block :: rest =>
    { index := UInt64.ofNat start
      entry := FileBlock.mk block.id block.numberBytes ((rest.head?.map Block.id).getD 0)
      block } :: standing (start + 1) rest

@[simp] theorem map_block_standing (start : Nat) (blocks : List Block) :
    (standing start blocks).map ChainBlock.block = blocks := by
  induction blocks generalizing start with
  | nil => rfl
  | cons block rest ih => rw [standing, List.map_cons, ih]

@[simp] theorem map_entry_standing (start : Nat) (blocks : List Block) :
    (standing start blocks).map ChainBlock.toChainEntry = numbered start (laid blocks) := by
  induction blocks generalizing start with
  | nil => rfl
  | cons block rest ih => rw [standing, List.map_cons, ih, laid, numbered]

theorem mem_standing {found : ChainBlock} (member : found ∈ standing start blocks) :
    found.block ∈ blocks ∧ found.entry.blockId = found.block.id := by
  induction blocks generalizing start with
  | nil => cases member
  | cons block rest ih =>
    rcases List.mem_cons.1 member with rfl | later
    · exact ⟨List.mem_cons_self, rfl⟩
    · exact ⟨List.mem_cons_of_mem _ (ih later).1, (ih later).2⟩

theorem laid_map {chain : List FileBlock} (linked : Linked chain) {block : FileBlock → Block}
    (same : ∀ entry ∈ chain, (block entry).id = entry.blockId ∧ (block entry).numberBytes = entry.numberBytes) :
    laid (chain.map block) = chain := by
  have ids : ids (laid (chain.map block)) = ids chain := by
    rw [ids_laid, List.map_map]
    exact List.map_congr_left fun entry member => (same entry member).1
  refine List.ext_getElem? fun place => ?_
  rw [getElem?_laid, List.getElem?_map]
  cases held : chain[place]? with
  | none => rfl
  | some entry =>
    obtain ⟨id, size⟩ := same entry (List.mem_of_getElem? held)
    rw [Option.map_some, Option.map_some, id, size, idAt, ids, ← idAt, ← linked.follows place entry held]

@[simp] theorem laid_once (blocks : List Block) : laid (blocks.map Block.once) = laid blocks := by
  induction blocks with
  | nil => rfl
  | cons block rest ih =>
    rw [List.map_cons, laid, laid, ih]
    cases rest <;> rfl

end Chain

namespace Contents

open Chain (laid numbered placements removals standing)

variable {contents before : Contents} {writes : Writes} {file : Int64} {blocks : List Block} {found : List ChainEntry}

structure Placed (contents : Contents) (file : Int64) (blocks : List Block) : Prop where
  written : ∀ edit ∈ placements file 0 blocks, contents edit.1.bytes = edit.2
  keyed : ∀ key, (contents key).isSome → (Key.fileBlocks file).isPrefixOf key = true →
    ∃ edit ∈ placements file 0 blocks, edit.1.bytes = key

theorem Placed.lists (placed : contents.Placed file blocks) (linked : Chain.Linked (laid blocks)) :
    contents.Lists file (numbered 0 (laid blocks)) where
  ascending := linked.ascending
  entries := by
    intro found member
    obtain ⟨place, entry, held, rfl⟩ := Chain.mem_numbered.1 member
    have listed : (.fileBlock file (UInt64.ofNat (0 + place)), some (Record.encode entry)) ∈ placements file 0 blocks :=
      Chain.mem_placements.2 (.inl ⟨place, entry, held, rfl, rfl⟩)
    exact ⟨_, placed.written _ listed, Record.decode_encode_fileBlock entry⟩
  keyed := by
    intro key stored begins
    obtain ⟨⟨other, value⟩, member, rfl⟩ := placed.keyed key stored begins
    obtain ⟨index, rfl⟩ := Key.eq_fileBlock_of_isPrefixOf begins
    rcases Chain.mem_placements.1 member with ⟨place, entry, held, same, _⟩ | ⟨_, _, ⟨same, _⟩ | ⟨same, _⟩⟩
    · obtain ⟨_, rfl⟩ := Key.fileBlock.inj same
      exact ⟨_, Chain.mem_numbered.2 ⟨place, entry, held, rfl⟩, rfl⟩
    · cases same
    · cases same

theorem Placed.resolved (placed : contents.Placed file blocks) (linked : Chain.Linked (laid blocks))
    (sized : ∀ block ∈ blocks, block.Sized) (short : ∀ block ∈ blocks, block.storage.length < UInt64.size) :
    contents.Resolved file (standing 0 (blocks.map Block.once)) := by
  refine ⟨?_, fun found member => ?_⟩
  · rw [Chain.map_entry_standing, Chain.laid_once]
    exact placed.lists linked
  · obtain ⟨listed, own⟩ := Chain.mem_standing member
    obtain ⟨block, among, same⟩ := List.mem_map.1 listed
    obtain ⟨info, replicas⟩ := Chain.parts_mem_placements file among
    have fits : block.replicas.nodes.length < UInt64.size := by
      rw [block.replicas_eq]
      have fewer := ((nodup_eraseDups block.storage).subperm fun _ => List.mem_eraseDups.1).length_le
      exact Nat.lt_of_le_of_lt fewer (short block among)
    rw [← same] at own
    refine ⟨?_, block.replicas, ?_, ?_⟩
    · rw [own, ← same]
      exact ⟨_, placed.written _ info, Record.decode_encode_blockMeta (sized block among).info⟩
    · rw [own]
      exact ⟨_, placed.written _ replicas, Record.decode_encode_blockStorage (sized block among).replicas fits⟩
    · rw [block.replicas_eq, ← same]
      rfl

theorem Lists.placed (lists : (contents.write writes).Lists file found) (distinct : (blocks.map Block.id).Nodup)
    (short : blocks.length < UInt64.size) :
    (contents.write ((writes.apply (removals file found)).apply (placements file 0 blocks))).Placed file blocks where
  written := by
    rintro ⟨key, value⟩ member
    rw [write_apply, Chain.find?_placed _ distinct short member]
    rfl
  keyed := by
    intro key stored begins
    by_contra absent
    have unplaced : ∀ edit ∈ placements file 0 blocks, edit.1.bytes ≠ key := fun edit member same =>
      absent ⟨edit, member, same⟩
    have deletes : ∀ edit ∈ removals file found, edit.2 = none := fun _ member => (Chain.mem_removals.1 member).1
    have without := without_apply contents writes deletes
    rw [write_apply, Writes.find?_apply_of_not_mem unplaced, ← write_apply] at stored
    obtain ⟨bytes, held⟩ := Option.isSome_iff_exists.1 stored
    obtain ⟨before, stays⟩ := without.of_some held
    obtain ⟨entry, member, rfl⟩ := lists.keyed key (by rw [before]; rfl) begins
    exact stays ⟨_, Chain.mem_removals.2 ⟨rfl, entry, member, .inl rfl⟩, rfl⟩

structure Described (contents : Contents) : Prop where
  infos : ∀ id bytes, contents (Key.blockMeta id).bytes = some bytes →
    ∃ info : BlockMeta, info.Sized ∧ bytes = Record.encode info
  replicas : ∀ id bytes, contents (Key.blockStorage id).bytes = some bytes →
    ∃ replicas : BlockStorage, replicas.Sized ∧ replicas.nodes.length < UInt64.size ∧ bytes = Record.encode replicas

structure Proper (contents : Contents) (id : Int64) : Prop where
  counts : ∀ info : BlockMeta, contents.Holds (.blockMeta id) info → info.Counts
  own : ∀ replicas : BlockStorage, contents.Holds (.blockStorage id) replicas → replicas.id = id
  distinct : ∀ replicas : BlockStorage, contents.Holds (.blockStorage id) replicas → replicas.nodes.Nodup

structure Stores (contents : Contents) (block : Block) : Prop where
  info : contents (Key.blockMeta block.id).bytes = some (Record.encode block.info)
  replicas : contents (Key.blockStorage block.id).bytes = some (Record.encode block.replicas)
  sized : block.Sized
  short : block.storage.length < UInt64.size
  counts : block.info.Counts
  distinct : block.storage.Nodup

theorem Described.exists_stores (described : contents.Described) {entry : FileBlock} (backs : contents.Backs entry)
    (proper : contents.Proper entry.blockId) :
    ∃ block, block.id = entry.blockId ∧ block.numberBytes = entry.numberBytes ∧ contents.Stores block := by
  obtain ⟨⟨info, known, id, size⟩, replicas, stored⟩ := backs
  have counts := proper.counts info known
  have own := proper.own replicas stored
  have distinct := proper.distinct replicas stored
  obtain ⟨bytes, here, decoded⟩ := known
  obtain ⟨same, sized, rfl⟩ := described.infos _ bytes here
  rw [Record.decode_encode_blockMeta sized] at decoded
  cases decoded
  obtain ⟨bytes, there, decoded⟩ := stored
  obtain ⟨same, listed, short, rfl⟩ := described.replicas _ bytes there
  rw [Record.decode_encode_blockStorage listed short] at decoded
  cases decoded
  have back : (Block.ofParts info replicas).replicas = replicas := by
    have nodes : replicas.nodes.eraseDups = replicas.nodes := eraseDups_of_nodup distinct
    rw [Block.replicas_eq, Block.ofParts]
    dsimp only
    rw [nodes, id, ← own]
  have same : (Block.ofParts info replicas).id = entry.blockId := id
  refine ⟨.ofParts info replicas, id, size, ?_, ?_, ⟨sized, listed⟩, short, counts, distinct⟩
  · rw [same]
    exact here
  · rw [same, back]
    exact there

theorem Stands.exists_placed {chain : List FileBlock} (stands : contents.Stands file chain)
    (described : contents.Described) (proper : ∀ entry ∈ chain, contents.Proper entry.blockId) :
    ∃ blocks, laid blocks = chain ∧ contents.Placed file blocks ∧ ∀ block ∈ blocks, contents.Stores block := by
  have known : ∀ entry ∈ chain, ∃ block, block.id = entry.blockId ∧ block.numberBytes = entry.numberBytes ∧
      contents.Stores block := fun entry member =>
    described.exists_stores (stands.backed entry member) (proper entry member)
  choose! block same size stores using known
  have laid : laid (chain.map block) = chain :=
    Chain.laid_map stands.linked fun entry member => ⟨same entry member, size entry member⟩
  have each : ∀ found ∈ chain.map block, contents.Stores found := by
    intro found member
    obtain ⟨entry, listed, rfl⟩ := List.mem_map.1 member
    exact stores entry listed
  refine ⟨chain.map block, laid, ⟨?_, ?_⟩, each⟩
  · rintro ⟨key, value⟩ member
    rcases Chain.mem_placements.1 member with ⟨place, entry, held, rfl, rfl⟩ | ⟨found, listed, known⟩
    · rw [laid] at held
      obtain ⟨within, _⟩ := List.getElem?_eq_some_iff.1 held
      rw [stands.entry_iff, Nat.zero_add, stands.linked.toNat_place within]
      exact held
    · rcases known with ⟨rfl, rfl⟩ | ⟨rfl, rfl⟩
      · exact (each found listed).info
      · exact (each found listed).replicas
  · intro key stored begins
    obtain ⟨entry, member, rfl⟩ := stands.lists.keyed key stored begins
    obtain ⟨place, entry, held, rfl⟩ := Chain.mem_numbered.1 member
    exact ⟨_, Chain.mem_placements.2 (.inl ⟨place, entry, laid.symm ▸ held, rfl, rfl⟩), rfl⟩

theorem Placed.put_back (placed : (contents.write writes).Placed file blocks) :
    contents.write ((writes.apply (removals file (numbered 0 (laid blocks)))).apply (placements file 0 blocks)) =
      contents.write writes := by
  funext place
  rw [write_apply_of_agree placed.written]
  split
  · rfl
  · rename_i absent
    have deletes : ∀ edit ∈ removals file (numbered 0 (laid blocks)), edit.2 = none := fun _ member =>
      (Chain.mem_removals.1 member).1
    have without := without_apply contents writes deletes
    refine without.kept place ?_
    -- All that is removed is put back.
    rintro ⟨⟨key, value⟩, member, rfl⟩
    obtain ⟨_, entry, listed, known⟩ := Chain.mem_removals.1 member
    obtain ⟨place, stored, held, rfl⟩ := Chain.mem_numbered.1 listed
    rcases known with rfl | known
    · exact absent ⟨_, Chain.mem_placements.2 (.inl ⟨place, stored, held, rfl, rfl⟩), rfl⟩
    · rw [Chain.getElem?_laid] at held
      obtain ⟨block, among, rfl⟩ := Option.map_eq_some_iff.1 held
      obtain ⟨info, replicas⟩ := Chain.parts_mem_placements file (List.mem_of_getElem? among)
      rcases known with rfl | rfl
      · exact absent ⟨_, info, rfl⟩
      · exact absent ⟨_, replicas, rfl⟩

end Contents

namespace Chain

open Scoped (Ensures Yields)

variable {base : Contents} {writes : Writes} {file : Int64} {blocks : List Block}

theorem length_lt_of_distinct (distinct : (blocks.map Block.id).Nodup)
    (positive : ∀ id ∈ blocks.map Block.id, 0 < id) : blocks.length < UInt64.size :=
  length_laid blocks ▸ (linked_laid distinct positive).length_lt

theorem ensures_replace_placed : Ensures base (replace file blocks) writes fun _ later =>
    0 < file ∧ Linked (laid blocks) ∧ (base.write later).Placed file blocks := by
  refine .bind (.lift fun _ required => .bind (.bind (ensures_entries_read.mono ?_)))
  obtain ⟨distinct, known⟩ := of_requireDistinct required
  have positive : ∀ id ∈ blocks.map Block.id, 0 < id := fun id member => (known id member).1
  rintro found _ ⟨rfl, own, lists⟩
  refine .bind (ensures_removeAll id found (.pure ?_))
  rw [List.map_id]
  refine ensures_putAll 0 blocks ⟨own, linked_laid distinct positive, ?_⟩
  exact lists.placed distinct (length_lt_of_distinct distinct positive)

theorem requireDistinct_eq_ok {seen : List Int64} (distinct : (blocks.map Block.id).Nodup)
    (fresh : ∀ id ∈ blocks.map Block.id, 0 < id ∧ id ∉ seen) : requireDistinct file seen blocks = .ok () := by
  induction blocks generalizing seen with
  | nil => rfl
  | cons block rest ih =>
    obtain ⟨new, others⟩ := List.nodup_cons.1 distinct
    obtain ⟨⟨positive, unseen⟩, behind⟩ := List.forall_mem_cons.1 fresh
    have rest : requireDistinct file (block.id :: seen) rest = .ok () := by
      refine ih others fun id member => ⟨(behind id member).1, ?_⟩
      rintro (_ | ⟨_, again⟩)
      · exact new member
      · exact (behind id member).2 again
    have free : seen.contains block.id = false := by simpa using unseen
    rw [requireDistinct, (demands_requirePositive _ _).met positive, free]
    exact rest

theorem yields_putAll (start : Nat) (counts : ∀ block ∈ blocks, block.info.Counts)
    {post : Except Error Unit → Writes → Prop} (holds : post (.ok ()) (writes.apply (placements file start blocks))) :
    Yields base (putAll file start blocks) writes post := by
  induction blocks generalizing start writes with
  | nil => exact .pure holds
  | cons block rest ih =>
    obtain ⟨here, others⟩ := List.forall_mem_cons.1 counts
    refine .demand block.info.demands_validate (fun _ low => absurd here low) fun _ => ?_
    exact .bind (.put (.bind (.put (.bind (.put (ih _ others holds))))))

theorem yields_replace_same (positive : 0 < file) (linked : Linked (laid blocks))
    (placed : (base.write writes).Placed file blocks) (counts : ∀ block ∈ blocks, block.info.Counts) :
    Yields base (replace file blocks) writes fun result later =>
      result = .ok () ∧ base.write later = base.write writes := by
  have distinct := linked.distinct
  have fresh := linked.positive
  rw [ids_laid] at distinct fresh
  have accepted : requireDistinct file [] blocks = .ok () :=
    requireDistinct_eq_ok distinct fun id member => ⟨fresh id member, by simp⟩
  refine .require (fun error refused => ?_) fun _ _ => ?_
  · rw [accepted] at refused
    cases refused
  · refine .bind (.bind (yields_entries_listed positive (placed.lists linked) ?_))
    refine .bind (yields_removeAll _ (.pure ?_))
    exact yields_putAll 0 counts ⟨rfl, placed.put_back⟩

end Chain

end FsMeta
