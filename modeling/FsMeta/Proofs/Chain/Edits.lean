import FsMeta.Chain.Replacement
import FsMeta.Proofs.Chain.Turns
import FsMeta.Proofs.Record.Reading

set_option autoImplicit false

namespace FsMeta.Chain

open Scoped (Ensures)

variable {base : Contents} {writes : Writes} {file : Int64} {chain next : List FileBlock}

theorem edited_of_touched (before : base.Stands file chain) (linked : Linked next)
    (scope : ∀ bytes, (writes.find? bytes).isSome →
      ∃ key : Key, key.bytes = bytes ∧ Concerns file (ids chain ++ ids next) key)
    (guarded : ids next = ids chain ∨ writes.Touch (guardKey file chain))
    (parts : ∀ (index : UInt64) (id : Int64),
      (ids chain)[index.toNat]? = some id ∨ (ids next)[index.toNat]? = some id →
        Parts writes id → writes.Touch (.fileBlock file index))
    (fresh : ∀ (index : UInt64) (id : Int64), (ids next)[index.toNat]? = some id →
      (ids chain)[index.toNat]? ≠ some id → writes.Touch (.blockMeta id) ∧ writes.Touch (.blockStorage id))
    (kept : ∀ index : UInt64, ¬ writes.Touch (.fileBlock file index) →
      next[index.toNat]? = chain[index.toNat]?)
    (entries : ∀ index : UInt64, writes.Touch (.fileBlock file index) →
      base.write writes (Key.fileBlock file index).bytes = next[index.toNat]?.map Record.encode)
    (backs : ∀ (index : UInt64) (entry : FileBlock), writes.Touch (.fileBlock file index) →
      next[index.toNat]? = some entry → (base.write writes).Backs entry) :
    Edited base file chain next writes := by
  have named (bytes : Bytes) (written : (writes.find? bytes).isSome) : ∃ key : Key, key.bytes = bytes :=
    (scope bytes written).imp fun _ => And.left
  refine ⟨⟨before.write named linked (fun index => ?_) fun index entry held => ?_, guarded, parts, fresh⟩, before,
    scope⟩
  · by_cases touch : writes.Touch (.fileBlock file index)
    · exact entries index touch
    · rw [Contents.write_of_not_touch touch, before.entries, kept index touch]
  · by_cases touch : writes.Touch (.fileBlock file index)
    · exact backs _ entry touch held
    · have known : (ids next)[index.toNat]? = some entry.blockId := by rw [getElem?_ids, held, Option.map_some]
      obtain ⟨noInfo, noReplicas⟩ := not_or.1 fun written => touch (parts _ _ (.inr known) written)
      rw [kept _ touch] at held
      exact (before.backed entry (List.mem_of_getElem? held)).of_not_touch noInfo noReplicas

def removals (file : Int64) (found : List ChainEntry) : List (Key × Option Bytes) :=
  found.flatMap fun entry => [(.fileBlock file entry.index, none), (.blockMeta entry.entry.blockId, none),
    (.blockStorage entry.entry.blockId, none)]

theorem mem_removals {found : List ChainEntry} {key : Key} {value : Option Bytes} :
    (key, value) ∈ removals file found ↔ value = none ∧ ∃ entry ∈ found, key = .fileBlock file entry.index ∨
      key = .blockMeta entry.entry.blockId ∨ key = .blockStorage entry.entry.blockId := by
  simp only [removals, List.mem_flatMap, List.mem_cons, Prod.mk.injEq, List.not_mem_nil, or_false]
  constructor
  · rintro ⟨entry, member, same⟩
    exact ⟨by tauto, entry, member, by tauto⟩
  · rintro ⟨rfl, entry, member, same⟩
    exact ⟨entry, member, by tauto⟩

theorem ensures_removeAll {α : Type} (toEntry : α → ChainEntry) (elements : List α) {post : PUnit → Writes → Prop}
    (holds : post ⟨⟩ (writes.apply (removals file (elements.map toEntry)))) :
    Ensures base (elements.forM fun element => remove file (toEntry element)) writes post := by
  induction elements generalizing writes with
  | nil => exact .pure holds
  | cons element rest ih => exact .bind (.bind (.delete (.bind (.delete (.delete (ih holds))))))

def laid : List Block → List FileBlock
  | [] => []
  | block :: rest =>
    { blockId := block.id, numberBytes := block.numberBytes, nextBlockId := (rest.head?.map Block.id).getD 0 } ::
      laid rest

def placements (file : Int64) : (start : Nat) → List Block → List (Key × Option Bytes)
  | _, [] => []
  | start, block :: rest =>
    (.fileBlock file (UInt64.ofNat start), some (Record.encode (FileBlock.mk block.id block.numberBytes
      ((rest.head?.map Block.id).getD 0)))) ::
    (.blockMeta block.id, some (Record.encode block.info)) ::
    (.blockStorage block.id, some (Record.encode block.replicas)) :: placements file (start + 1) rest

theorem ensures_putAll (start : Nat) (blocks : List Block) {post : Unit → Writes → Prop}
    (holds : post () (writes.apply (placements file start blocks))) :
    Ensures base (putAll file start blocks) writes post := by
  induction blocks generalizing start writes with
  | nil => exact .pure holds
  | cons block rest ih =>
    exact .bind (.lift fun _ _ => .bind (.put (.bind (.put (.bind (.put (ih _ holds)))))))

theorem touch_removals {start : Nat} {key : Key} :
    Writes.Touch (.apply .empty (removals file (numbered start chain))) key ↔
      ∃ place entry, chain[place]? = some entry ∧ (key = .fileBlock file (UInt64.ofNat (start + place)) ∨
        key = .blockMeta entry.blockId ∨ key = .blockStorage entry.blockId) := by
  rw [Writes.touch_apply]
  constructor
  · rintro (⟨value, member⟩ | before)
    · obtain ⟨_, found, member, same⟩ := mem_removals.1 member
      obtain ⟨place, entry, held, rfl⟩ := mem_numbered.1 member
      exact ⟨place, entry, held, same⟩
    · cases before
  · rintro ⟨place, entry, held, same⟩
    exact .inl ⟨none, mem_removals.2 ⟨rfl, _, mem_numbered.2 ⟨place, entry, held, rfl⟩, same⟩⟩

theorem ids_laid (blocks : List Block) : ids (laid blocks) = blocks.map Block.id := by
  induction blocks with
  | nil => rfl
  | cons block rest ih => rw [laid, ids, List.map_cons, List.map_cons, ← ids, ih]

theorem length_laid (blocks : List Block) : (laid blocks).length = blocks.length := by
  rw [← length_ids, ids_laid, List.length_map]

theorem getElem?_laid (blocks : List Block) (place : Nat) : (laid blocks)[place]? =
    blocks[place]?.map fun block => FileBlock.mk block.id block.numberBytes (idAt (laid blocks) (place + 1)) := by
  induction blocks generalizing place with
  | nil => rfl
  | cons block rest ih =>
    cases place with
    | zero => cases rest <;> rfl
    | succ place =>
      rw [laid, List.getElem?_cons_succ, List.getElem?_cons_succ, ih]
      rfl

theorem linked_laid {blocks : List Block} (distinct : (blocks.map Block.id).Nodup)
    (positive : ∀ id ∈ blocks.map Block.id, 0 < id) : Linked (laid blocks) where
  distinct := by rwa [ids_laid]
  positive := by rwa [ids_laid]
  follows := by
    intro place entry held
    rw [getElem?_laid] at held
    obtain ⟨block, _, rfl⟩ := Option.map_eq_some_iff.1 held
    rfl

theorem mem_placements {start : Nat} {blocks : List Block} {key : Key} {value : Option Bytes} :
    (key, value) ∈ placements file start blocks ↔
      (∃ place entry, (laid blocks)[place]? = some entry ∧
        key = .fileBlock file (UInt64.ofNat (start + place)) ∧ value = some (Record.encode entry)) ∨
      ∃ block ∈ blocks, key = .blockMeta block.id ∧ value = some (Record.encode block.info) ∨
        key = .blockStorage block.id ∧ value = some (Record.encode block.replicas) := by
  induction blocks generalizing start with
  | nil => simp [placements, laid]
  | cons block rest ih =>
    have entries (first : FileBlock) : (∃ place entry, (first :: laid rest)[place]? = some entry ∧
        key = .fileBlock file (UInt64.ofNat (start + place)) ∧ value = some (Record.encode entry)) ↔
        (key = .fileBlock file (UInt64.ofNat start) ∧ value = some (Record.encode first)) ∨
          ∃ place entry, (laid rest)[place]? = some entry ∧
            key = .fileBlock file (UInt64.ofNat (start + 1 + place)) ∧ value = some (Record.encode entry) := by
      rw [← Nat.or_exists_add_one]
      simp only [List.getElem?_cons_zero, List.getElem?_cons_succ, Option.some.injEq, exists_eq_left',
        Nat.add_zero, Nat.add_assoc start, Nat.add_comm 1]
    simp only [placements, List.mem_cons, ih, Prod.mk.injEq, laid, entries, exists_eq_or_imp, or_assoc]
    simp only [or_left_comm]

section

variable {start : Nat} {index : UInt64} {value : Option Bytes} {blocks : List Block} {block : Block}

theorem ofNat_eq_iff {place : Nat} (short : place < UInt64.size) :
    index = UInt64.ofNat place ↔ index.toNat = place := by
  rw [← UInt64.toNat_inj, UInt64.toNat_ofNat_of_lt' short]

theorem touch_removals_entry (short : start + chain.length ≤ UInt64.size) :
    Writes.Touch (.apply .empty (removals file (numbered start chain))) (.fileBlock file index) ↔
      start ≤ index.toNat ∧ index.toNat < start + chain.length := by
  simp only [touch_removals, Key.fileBlock.injEq, true_and, reduceCtorEq, or_false]
  constructor
  · rintro ⟨place, entry, held, same⟩
    obtain ⟨within, _⟩ := List.getElem?_eq_some_iff.1 held
    rw [ofNat_eq_iff (by omega)] at same
    omega
  · rintro ⟨above, below⟩
    have within : index.toNat - start < chain.length := by omega
    refine ⟨index.toNat - start, chain[index.toNat - start], List.getElem?_eq_getElem within, ?_⟩
    rw [ofNat_eq_iff (by omega)]
    omega

theorem concerns_of_removals {bytes : Bytes}
    (written : ((Writes.apply .empty (removals file (numbered start chain))).find? bytes).isSome) :
    ∃ key : Key, key.bytes = bytes ∧ Concerns file (ids chain) key := by
  rcases Writes.exists_of_find?_apply written with ⟨⟨key, value⟩, member, same⟩ | before
  · refine ⟨key, same, ?_⟩
    obtain ⟨_, found, listed, known⟩ := mem_removals.1 member
    obtain ⟨place, entry, held, rfl⟩ := mem_numbered.1 listed
    have own : entry.blockId ∈ ids chain := List.mem_map_of_mem (List.mem_of_getElem? held)
    rcases known with rfl | rfl | rfl
    · rfl
    · exact own
    · exact own
  · cases before

theorem touch_removals_parts {id : Int64}
    (parts : Parts (.apply .empty (removals file (numbered start chain))) id) : id ∈ ids chain := by
  have known : ∃ (place : Nat) (entry : FileBlock), chain[place]? = some entry ∧ id = entry.blockId := by
    rcases parts with touch | touch
    · simpa only [touch_removals, reduceCtorEq, Key.blockMeta.injEq, false_or, or_false] using touch
    · simpa only [touch_removals, reduceCtorEq, Key.blockStorage.injEq, false_or, or_false] using touch
  obtain ⟨place, entry, held, rfl⟩ := known
  exact List.mem_map_of_mem (List.mem_of_getElem? held)

theorem find?_removals {key : Key}
    (touch : Writes.Touch (.apply .empty (removals file (numbered start chain))) key) :
    (Writes.apply .empty (removals file (numbered start chain))).find? key.bytes = some none := by
  rcases Writes.touch_apply.1 touch with ⟨value, member⟩ | before
  · rw [(mem_removals.1 member).1] at member
    exact Writes.find?_apply_of_mem member fun other also => (mem_removals.1 also).1
  · cases before

theorem mem_placements_entry (short : blocks.length < UInt64.size) :
    (.fileBlock file index, value) ∈ placements file 0 blocks ↔
      ∃ entry, (laid blocks)[index.toNat]? = some entry ∧ value = some (Record.encode entry) := by
  simp only [mem_placements, Key.fileBlock.injEq, true_and, reduceCtorEq, false_and, or_self, and_false,
    exists_false, or_false, Nat.zero_add]
  constructor
  · rintro ⟨place, entry, held, same, rfl⟩
    obtain ⟨within, _⟩ := List.getElem?_eq_some_iff.1 held
    rw [length_laid] at within
    rw [ofNat_eq_iff (by omega)] at same
    exact ⟨entry, same ▸ held, rfl⟩
  · rintro ⟨entry, held, rfl⟩
    exact ⟨index.toNat, entry, held, UInt64.ofNat_toNat.symm, rfl⟩

def replacement (file : Int64) (chain : List FileBlock) (blocks : List Block) : Writes :=
  (Writes.apply .empty (removals file (numbered 0 chain))).apply (placements file 0 blocks)

theorem touch_replacement_entry (linked : Linked chain) (short : blocks.length < UInt64.size) :
    Writes.Touch (replacement file chain blocks) (.fileBlock file index) ↔
      index.toNat < chain.length ∨ index.toNat < blocks.length := by
  have bound := linked.length_lt
  have listed : (∃ value entry, (laid blocks)[index.toNat]? = some entry ∧ value = some (Record.encode entry)) ↔
      index.toNat < blocks.length := by
    rw [← length_laid]
    constructor
    · rintro ⟨_, entry, held, _⟩
      exact (List.getElem?_eq_some_iff.1 held).1
    · exact fun within => ⟨_, _, List.getElem?_eq_getElem within, rfl⟩
  rw [replacement, Writes.touch_apply, touch_removals_entry (by omega)]
  simp only [mem_placements_entry short, listed]
  omega

theorem placements_functional (distinct : (blocks.map Block.id).Nodup) (short : blocks.length < UInt64.size) {key : Key}
    {other : Option Bytes} (one : (key, value) ∈ placements file 0 blocks)
    (two : (key, other) ∈ placements file 0 blocks) : value = other := by
  have unique {first second : Block} (member : first ∈ blocks) (also : second ∈ blocks) (same : first.id = second.id) :
      first = second := List.inj_on_of_nodup_map distinct member also same
  rcases mem_placements.1 one with ⟨place, _, _, rfl, _⟩ | ⟨first, member, ⟨rfl, rfl⟩ | ⟨rfl, rfl⟩⟩
  · obtain ⟨entry, held, rfl⟩ := (mem_placements_entry short).1 one
    obtain ⟨found, same, rfl⟩ := (mem_placements_entry short).1 two
    rw [held] at same
    cases same
    rfl
  · rcases mem_placements.1 two with ⟨_, _, _, same, _⟩ | ⟨second, also, ⟨same, rfl⟩ | ⟨same, _⟩⟩
    · cases same
    · rw [unique member also (Key.blockMeta.inj same)]
    · cases same
  · rcases mem_placements.1 two with ⟨_, _, _, same, _⟩ | ⟨second, also, ⟨same, _⟩ | ⟨same, rfl⟩⟩
    · cases same
    · cases same
    · rw [unique member also (Key.blockStorage.inj same)]

theorem find?_placed (writes : Writes) (distinct : (blocks.map Block.id).Nodup) (short : blocks.length < UInt64.size)
    {key : Key} (member : (key, value) ∈ placements file 0 blocks) :
    (writes.apply (placements file 0 blocks)).find? key.bytes = some value :=
  Writes.find?_apply_of_mem member fun _ also => placements_functional distinct short also member

theorem find?_replacement_gone (linked : Linked chain) (short : blocks.length < UInt64.size)
    (beyond : blocks.length ≤ index.toNat) (within : index.toNat < chain.length) :
    (replacement file chain blocks).find? (Key.fileBlock file index).bytes = some none := by
  have bound := linked.length_lt
  have absent : ∀ edit ∈ placements file 0 blocks, edit.1.bytes ≠ (Key.fileBlock file index).bytes := by
    rintro ⟨key, value⟩ member same
    obtain rfl : key = .fileBlock file index := Key.bytes_injective same
    obtain ⟨entry, held, _⟩ := (mem_placements_entry short).1 member
    obtain ⟨inside, _⟩ := List.getElem?_eq_some_iff.1 held
    rw [length_laid] at inside
    omega
  rw [replacement, Writes.find?_apply_of_not_mem absent]
  exact find?_removals ((touch_removals_entry (by omega)).2 (by omega))

theorem parts_mem_placements (file : Int64) (member : block ∈ blocks) :
    (.blockMeta block.id, some (Record.encode block.info)) ∈ placements file 0 blocks ∧
      (.blockStorage block.id, some (Record.encode block.replicas)) ∈ placements file 0 blocks :=
  ⟨mem_placements.2 (.inr ⟨block, member, .inl ⟨rfl, rfl⟩⟩), mem_placements.2 (.inr ⟨block, member, .inr ⟨rfl, rfl⟩⟩)⟩

theorem edited_replacement (before : base.Stands file chain) (distinct : (blocks.map Block.id).Nodup)
    (positive : ∀ id ∈ blocks.map Block.id, 0 < id) (sized : ∀ block ∈ blocks, block.Sized) :
    Edited base file chain (laid blocks) (replacement file chain blocks) := by
  have linked := linked_laid distinct positive
  have short : blocks.length < UInt64.size := length_laid blocks ▸ linked.length_lt
  have touches (index : UInt64) : Writes.Touch (replacement file chain blocks) (.fileBlock file index) ↔
      index.toNat < chain.length ∨ index.toNat < blocks.length := touch_replacement_entry before.linked short
  have touch_parts {id : Int64} (member : id ∈ ids (laid blocks)) :
      (replacement file chain blocks).Touch (.blockMeta id) ∧
        (replacement file chain blocks).Touch (.blockStorage id) := by
    rw [ids_laid] at member
    obtain ⟨block, listed, rfl⟩ := List.mem_map.1 member
    obtain ⟨info, replicas⟩ := parts_mem_placements file listed
    rw [replacement, Writes.Touch, Writes.Touch, find?_placed _ distinct short info,
      find?_placed _ distinct short replicas]
    exact ⟨rfl, rfl⟩
  apply edited_of_touched before linked
  · intro bytes written
    rcases Writes.exists_of_find?_apply written with ⟨⟨key, value⟩, member, same⟩ | written
    · refine ⟨key, same, ?_⟩
      rcases mem_placements.1 member with ⟨_, _, _, rfl, _⟩ | ⟨block, listed, ⟨rfl, _⟩ | ⟨rfl, _⟩⟩
      · rfl
      all_goals
        have known : block.id ∈ ids (laid blocks) := ids_laid blocks ▸ List.mem_map_of_mem listed
        exact List.mem_append_right _ known
    · obtain ⟨key, same, concerns⟩ := concerns_of_removals written
      exact ⟨key, same, concerns.mono (List.subset_append_left _ _)⟩
  · -- An empty file that stays empty is the only one whose first place is not written.
    rcases Nat.eq_zero_or_pos (max chain.length blocks.length) with zero | positive
    · left
      obtain rfl : chain = [] := List.eq_nil_of_length_eq_zero (by omega)
      obtain rfl : blocks = [] := List.eq_nil_of_length_eq_zero (by omega)
      rfl
    · right
      have bound := before.linked.length_lt
      rw [guardKey, touches, UInt64.toNat_ofNat_of_lt' (by omega)]
      omega
  · intro index id known _
    rw [touches]
    rcases known with held | held
    · obtain ⟨within, _⟩ := List.getElem?_eq_some_iff.1 held
      exact .inl (length_ids chain ▸ within)
    · obtain ⟨within, _⟩ := List.getElem?_eq_some_iff.1 held
      exact .inr (length_laid blocks ▸ length_ids (laid blocks) ▸ within)
  · exact fun index id held _ => touch_parts (List.mem_of_getElem? held)
  · intro index untouched
    rw [touches] at untouched
    rw [List.getElem?_eq_none (by rw [length_laid]; omega), List.getElem?_eq_none (by omega)]
  · intro index touch
    -- What is written there is a new entry, or behind the last one the removal of an old one.
    cases held : (laid blocks)[index.toNat]? with
    | some entry =>
      have member : (.fileBlock file index, some (Record.encode entry)) ∈ placements file 0 blocks :=
        (mem_placements_entry short).2 ⟨entry, held, rfl⟩
      rw [replacement, Contents.write_apply, find?_placed _ distinct short member]
      rfl
    | none =>
      have beyond := List.getElem?_eq_none_iff.1 held
      rw [length_laid] at beyond
      rw [touches] at touch
      rw [Contents.write_apply, find?_replacement_gone before.linked short beyond (by omega)]
      rfl
  · intro index entry touch held
    rw [getElem?_laid] at held
    obtain ⟨block, known, rfl⟩ := Option.map_eq_some_iff.1 held
    have member := List.mem_of_getElem? known
    obtain ⟨info, replicas⟩ := parts_mem_placements file member
    exact .of_written rfl rfl (sized block member).info (sized block member).replicas
      (find?_placed _ distinct short info) (find?_placed _ distinct short replicas)

theorem of_requireDistinct {seen : List Int64} (required : requireDistinct file seen blocks = .ok ()) :
    (blocks.map Block.id).Nodup ∧ ∀ id ∈ blocks.map Block.id, 0 < id ∧ id ∉ seen := by
  induction blocks generalizing seen with
  | nil => simp
  | cons block rest ih =>
    obtain ⟨_, positive, required⟩ := exists_ok_of_bind required
    dsimp only at required
    split at required
    · cases required
    · rename_i fresh
      obtain ⟨distinct, others⟩ := ih required
      rw [List.map_cons, List.nodup_cons, List.forall_mem_cons]
      constructor
      · exact ⟨fun member => (others _ member).2 List.mem_cons_self, distinct⟩
      · exact ⟨⟨pos_of_requirePositive positive, by simpa using fresh⟩,
          fun id member => ⟨(others id member).1, List.not_mem_of_not_mem_cons (others id member).2⟩⟩

end

theorem ensures_removeChain (before : base.Stands file chain) {post : Nat → Writes → Prop}
    (holds : post chain.length (.apply .empty (removals file (numbered 0 chain)))) :
    Ensures base (deleteAll file) .empty post := by
  refine .bind (ensures_entries ((Contents.write_empty base).symm ▸ before) fun _ => .bind ?_)
  refine ensures_removeAll id _ (.pure ?_)
  rwa [List.map_id, length_numbered]

theorem edited_removed (before : base.Stands file chain) :
    Edited base file chain [] (.apply .empty (removals file (numbered 0 chain))) := by
  have emptied : Edited base file chain (laid []) (replacement file chain []) :=
    edited_replacement before List.nodup_nil (by simp) (by simp)
  exact emptied

theorem edited_empty (before : base.Stands file chain) : Edited base file chain chain .empty := by
  have untouched (key : Key) : ¬ Writes.Touch .empty key := fun touch => by cases touch
  apply edited_of_touched before before.linked
  · intro bytes written
    cases written
  · exact .inl rfl
  · intro index id _ parts
    rcases parts with touch | touch
    · exact absurd touch (untouched _)
    · exact absurd touch (untouched _)
  · exact fun index id held new => absurd held new
  · exact fun _ _ => rfl
  · exact fun index touch => absurd touch (untouched _)
  · exact fun index entry touch _ => absurd touch (untouched _)

theorem ensures_deleteAll (before : base.Stands file chain) :
    Ensures base (deleteAll file) .empty fun _ later => Edited base file chain [] later :=
  ensures_removeChain before (edited_removed before)

theorem ensures_replace {blocks : List Block} (before : base.Stands file chain)
    (sized : ∀ block ∈ blocks, block.Sized) :
    Ensures base (replace file blocks) .empty fun _ later => Edited base file chain (laid blocks) later := by
  refine .bind (.lift fun _ required => .bind (ensures_removeChain before ?_))
  obtain ⟨distinct, known⟩ := of_requireDistinct required
  exact ensures_putAll 0 blocks (edited_replacement before distinct (fun id member => (known id member).1) sized)

end FsMeta.Chain
