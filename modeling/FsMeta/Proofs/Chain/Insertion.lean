import FsMeta.Chain.Upsert
import FsMeta.Proofs.Chain.Edits

set_option autoImplicit false

namespace FsMeta

namespace Chain

open Scoped (Ensures)

variable {base : Contents} {writes : Writes} {file block : Int64} {chain next front back : List FileBlock}
variable {last entry : FileBlock}

theorem linked_replaced (linked : Linked (front ++ last :: back)) (id : entry.blockId = last.blockId)
    (following : entry.nextBlockId = last.nextBlockId) : Linked (front ++ entry :: back) := by
  obtain ⟨distinct, positive, same⟩ := linked_iff.1 linked
  have order : ids (front ++ entry :: back) = ids (front ++ last :: back) := by simp [ids, id]
  rw [linked_iff, order, ← same]
  exact ⟨distinct, positive, by simp [following]⟩

theorem linked_single (positive : 0 < block) (size : Int64) : Linked [FileBlock.mk block size 0] := by
  simp [linked_iff, ids, positive]

theorem linked_appended (linked : Linked (front ++ [last])) (positive : 0 < block)
    (absent : block ∉ ids (front ++ [last])) (size : Int64) :
    Linked (front ++ [{ last with nextBlockId := block }, FileBlock.mk block size 0]) := by
  have nexts := nexts_front linked
  have order : ids (front ++ [{ last with nextBlockId := block }, FileBlock.mk block size 0]) =
      ids (front ++ [last]) ++ [block] := by simp [ids]
  rw [linked_iff, order]
  refine ⟨List.concat_eq_append ▸ linked.distinct.concat absent, ?_, ?_⟩
  · simpa [or_imp, forall_and, positive] using linked.positive
  · have split : (ids (front ++ [last]) ++ [block] ++ [0]).tail =
        (ids front ++ [last.blockId]).tail ++ [block, 0] := by
      rw [← List.tail_append_of_ne_nil (by simp)]
      simp [ids]
    rw [split, ← nexts]
    simp

def entriesAt (file : Int64) (places : List (Nat × FileBlock)) : List (Key × Option Bytes) :=
  places.map fun place => (.fileBlock file (UInt64.ofNat place.1), some (Record.encode place.2))

def insertion (file : Int64) (places : List (Nat × FileBlock)) (info : BlockMeta) (replicas : BlockStorage) :
    List (Key × Option Bytes) :=
  entriesAt file places ++
    [(.blockMeta info.id, some (Record.encode info)), (.blockStorage info.id, some (Record.encode replicas))]

/-- How the entries have to be chosen: all of the new chain that is not in the old one, and a place for the
block. An entry of another block keeps all but the block that it names. -/
structure Inserts (chain next : List FileBlock) (places : List (Nat × FileBlock)) (info : BlockMeta) : Prop where
  wrote : ∀ place entry, (place, entry) ∈ places → next[place]? = some entry
  kept : ∀ place : Nat, (∀ entry, (place, entry) ∉ places) → next[place]? = chain[place]?
  own : ∃ place entry, (place, entry) ∈ places ∧ entry.blockId = info.id ∧ entry.numberBytes = info.numberBytes
  others : ∀ place entry, (place, entry) ∈ places → entry.blockId ≠ info.id →
    ∃ before, chain[place]? = some before ∧ entry.blockId = before.blockId ∧
      entry.numberBytes = before.numberBytes
  stays : ∀ place : Nat, (ids chain)[place]? = some info.id → (ids next)[place]? = some info.id
  guarded : ids next = ids chain ∨ ∃ entry, (chain.length - 1, entry) ∈ places

section

variable {places : List (Nat × FileBlock)} {info : BlockMeta} {replicas : BlockStorage}
variable (inserts : Inserts chain next places info) (linked : Linked next)
include inserts linked

theorem mem_insertion_entry {index : UInt64} {value : Option Bytes} :
    (.fileBlock file index, value) ∈ insertion file places info replicas ↔
      ∃ entry, (index.toNat, entry) ∈ places ∧ value = some (Record.encode entry) := by
  simp only [insertion, entriesAt, List.mem_append, List.mem_map, Prod.mk.injEq, Key.fileBlock.injEq, true_and,
    Prod.exists, List.mem_cons, reduceCtorEq, false_and, List.not_mem_nil, or_self, or_false]
  constructor
  · rintro ⟨place, entry, member, rfl, rfl⟩
    obtain ⟨within, _⟩ := List.getElem?_eq_some_iff.1 (inserts.wrote place entry member)
    exact ⟨entry, (linked.toNat_place within).symm ▸ member, rfl⟩
  · rintro ⟨entry, member, rfl⟩
    exact ⟨index.toNat, entry, member, UInt64.ofNat_toNat, rfl⟩

theorem touch_insertion_entry {index : UInt64} :
    Writes.Touch (.apply .empty (insertion file places info replicas)) (.fileBlock file index) ↔
      ∃ entry, (index.toNat, entry) ∈ places := by
  rw [Writes.touch_apply]
  constructor
  · rintro (⟨value, member⟩ | before)
    · obtain ⟨entry, listed, _⟩ := (mem_insertion_entry inserts linked).1 member
      exact ⟨entry, listed⟩
    · cases before
  · rintro ⟨entry, member⟩
    exact .inl ⟨_, (mem_insertion_entry inserts linked).2 ⟨entry, member, rfl⟩⟩

theorem find?_insertion_entry {index : UInt64} (member : (index.toNat, entry) ∈ places) :
    (Writes.apply .empty (insertion file places info replicas)).find? (Key.fileBlock file index).bytes =
      some (some (Record.encode entry)) := by
  refine Writes.find?_apply_of_mem ((mem_insertion_entry inserts linked).2 ⟨entry, member, rfl⟩) ?_
  intro other also
  obtain ⟨found, there, rfl⟩ := (mem_insertion_entry inserts linked).1 also
  rw [Option.some.inj ((inserts.wrote _ _ there).symm.trans (inserts.wrote _ _ member))]

omit inserts linked in
theorem find?_insertion_parts (file : Int64) (places : List (Nat × FileBlock)) (info : BlockMeta)
    (replicas : BlockStorage) :
    (Writes.apply .empty (insertion file places info replicas)).find? (Key.blockMeta info.id).bytes =
      some (some (Record.encode info)) ∧
    (Writes.apply .empty (insertion file places info replicas)).find? (Key.blockStorage info.id).bytes =
      some (some (Record.encode replicas)) := by
  constructor
  · refine Writes.find?_apply_of_mem (by simp [insertion, entriesAt]) fun other also => ?_
    simpa [insertion, entriesAt] using also
  · refine Writes.find?_apply_of_mem (by simp [insertion, entriesAt]) fun other also => ?_
    simpa [insertion, entriesAt] using also

omit inserts linked in
theorem id_of_parts_insertion {id : Int64}
    (parts : Parts (.apply .empty (insertion file places info replicas)) id) : id = info.id := by
  rcases parts with touch | touch
  · rcases Writes.touch_apply.1 touch with ⟨value, member⟩ | before
    · simp only [insertion, entriesAt, List.mem_append, List.mem_map] at member
      simp_all
    · cases before
  · rcases Writes.touch_apply.1 touch with ⟨value, member⟩ | before
    · simp only [insertion, entriesAt, List.mem_append, List.mem_map] at member
      simp_all
    · cases before

omit linked in
theorem id_of_new {place : Nat} {id : Int64} (known : (ids next)[place]? = some id)
    (new : (ids chain)[place]? ≠ some id) : id = info.id := by
  by_contra other
  apply new
  rw [getElem?_ids] at known ⊢
  by_cases written : ∃ entry, (place, entry) ∈ places
  · obtain ⟨entry, member⟩ := written
    rw [inserts.wrote place entry member, Option.map_some, Option.some.injEq] at known
    obtain ⟨before, there, same, _⟩ := inserts.others place entry member (known ▸ other)
    rw [there, Option.map_some, ← same, known]
  · rwa [← inserts.kept place fun entry member => written ⟨entry, member⟩]

theorem own_of_id {index : UInt64} (known : (ids next)[index.toNat]? = some info.id) :
    ∃ entry, (index.toNat, entry) ∈ places ∧ entry.blockId = info.id ∧ entry.numberBytes = info.numberBytes := by
  obtain ⟨place, entry, member, id, size⟩ := inserts.own
  have held := inserts.wrote place entry member
  obtain ⟨within, _⟩ := List.getElem?_eq_some_iff.1 held
  rw [← linked.toNat_place within] at held member
  have there : (ids next)[(UInt64.ofNat place).toNat]? = some info.id := by
    rw [getElem?_ids, held, Option.map_some, id]
  rw [index_unique linked known there]
  exact ⟨entry, member, id, size⟩

theorem edited_insertion (before : base.Stands file chain) (sized : info.Sized) (listed : replicas.Sized) :
    Edited base file chain next (.apply .empty (insertion file places info replicas)) := by
  have touches (index : UInt64) :
      Writes.Touch (.apply .empty (insertion file places info replicas)) (.fileBlock file index) ↔
        ∃ entry, (index.toNat, entry) ∈ places := touch_insertion_entry inserts linked
  obtain ⟨described, placed⟩ := find?_insertion_parts file places info replicas
  have own : info.id ∈ ids next := by
    obtain ⟨place, entry, member, id, _⟩ := inserts.own
    exact id ▸ List.mem_map_of_mem (List.mem_of_getElem? (inserts.wrote place entry member))
  apply edited_of_touched before linked
  · intro bytes written
    rcases Writes.exists_of_find?_apply written with ⟨⟨key, value⟩, member, same⟩ | written
    · refine ⟨key, same, ?_⟩
      simp only [insertion, entriesAt, List.mem_append, List.mem_map, List.mem_cons, Prod.mk.injEq,
        List.not_mem_nil, or_false] at member
      rcases member with ⟨_, _, rfl, _⟩ | ⟨rfl, _⟩ | ⟨rfl, _⟩
      · rfl
      · exact List.mem_append_right _ own
      · exact List.mem_append_right _ own
    · cases written
  · refine inserts.guarded.imp_right fun known => ?_
    have bound := before.linked.length_lt
    rw [guardKey, touches, UInt64.toNat_ofNat_of_lt' (by omega)]
    exact known
  · intro index id known parts
    obtain rfl := id_of_parts_insertion parts
    obtain ⟨entry, member, _⟩ := own_of_id inserts linked (known.elim (inserts.stays _) fun held => held)
    exact (touches index).2 ⟨entry, member⟩
  · intro index id known new
    obtain rfl := id_of_new inserts known new
    rw [Writes.Touch, Writes.Touch, described, placed]
    exact ⟨rfl, rfl⟩
  · intro index untouched
    rw [touches] at untouched
    exact inserts.kept _ fun entry member => untouched ⟨entry, member⟩
  · intro index touch
    obtain ⟨entry, member⟩ := (touches index).1 touch
    rw [Contents.write_apply, find?_insertion_entry inserts linked member, inserts.wrote _ _ member]
    rfl
  · intro index entry touch held
    -- The inserted block brings its own parts; the others keep theirs, as only their place in the chain is written.
    by_cases id : entry.blockId = info.id
    · have known : (ids next)[index.toNat]? = some info.id := by rw [getElem?_ids, held, Option.map_some, id]
      obtain ⟨other, member, _, size⟩ := own_of_id inserts linked known
      have same := inserts.wrote _ _ member
      rw [held] at same
      cases same
      exact .of_written id size sized listed described placed
    · obtain ⟨other, member⟩ := (touches index).1 touch
      have same := inserts.wrote _ _ member
      rw [held] at same
      cases same
      obtain ⟨earlier, there, block, size⟩ := inserts.others _ _ member id
      have apart : ¬ Parts (.apply .empty (insertion file places info replicas)) earlier.blockId := fun parts =>
        id (block.trans (id_of_parts_insertion parts))
      obtain ⟨noInfo, noReplicas⟩ := not_or.1 apart
      exact ((before.backed earlier (List.mem_of_getElem? there)).of_not_touch noInfo noReplicas).congr block size

end

theorem not_isFor_of_absent {start : Nat} (absent : block ∉ ids chain) :
    ∀ found ∈ numbered start chain, isFor block found = false := by
  intro found member
  obtain ⟨place, entry, held, rfl⟩ := mem_numbered.1 member
  rw [isFor, beq_eq_false_iff_ne]
  rintro rfl
  exact absent (List.mem_map_of_mem (List.mem_of_getElem? held))

theorem find?_numbered_of_absent {start : Nat} (absent : block ∉ ids chain) :
    (numbered start chain).find? (isFor block) = none :=
  List.find?_eq_none.2 fun found member => by simp [not_isFor_of_absent absent found member]

@[simp] theorem getLast?_numbered_concat (start : Nat) (front : List FileBlock) (last : FileBlock) :
    (numbered start (front ++ [last])).getLast? =
      some { index := UInt64.ofNat (start + front.length), entry := last } := by
  rw [numbered_append]
  exact List.getLast?_concat

theorem position_of_absent (absent : block ∉ ids chain) : position (numbered 0 chain) block =
    { index := UInt64.ofNat chain.length, next := 0, predecessor := (numbered 0 chain).getLast? } := by
  have index : appendIndex (numbered 0 chain) = UInt64.ofNat chain.length := by
    rcases List.eq_nil_or_concat' chain with rfl | ⟨front, last, rfl⟩
    · rfl
    · rw [appendIndex, getLast?_numbered_concat]
      simp
  rw [position, find?_numbered_of_absent absent, index]

theorem position_of_present (split : chain = front ++ entry :: back) (same : entry.blockId = block)
    (absent : block ∉ ids front) : position (numbered 0 chain) block =
      { index := UInt64.ofNat front.length
        next := entry.nextBlockId
        predecessor := (numbered 0 front).getLast? } := by
  have here : isFor block { index := UInt64.ofNat (0 + front.length), entry } = true := by simp [isFor, same]
  have others : ∀ found ∈ numbered 0 front, (! isFor block found) = true := fun found member => by
    rw [not_isFor_of_absent absent found member]
    rfl
  rw [split, numbered_append, numbered, position, List.find?_append, find?_numbered_of_absent absent,
    Option.none_or, List.find?_cons_of_pos here, List.takeWhile_append_of_pos others,
    List.takeWhile_cons_of_neg (by simp [isFor, same]), List.append_nil]
  simp

theorem ensures_addReplicas {replicas : BlockStorage} (listed : replicas.Sized) {post : Unit → Writes → Prop}
    (holds : ∀ merged : BlockStorage, merged.Sized →
      post () (writes.insert (Key.blockStorage block).bytes (some (Record.encode merged)))) :
    Ensures base (addReplicas block replicas) writes post := by
  refine .bind (.find? (fun _ => .put (holds _ ?_)) fun bytes known _ decoded => .put (holds _ ?_))
  · exact BlockStorage.Sized.merge (fun _ member => by cases member) listed
  · have fit : known.Sized := Record.sized_blockStorage decoded
    exact BlockStorage.Sized.merge (fun location member => fit location member) listed

theorem getElem?_replaced {place : Nat} (differ : place ≠ front.length) (new : FileBlock) :
    (front ++ new :: back)[place]? = (front ++ entry :: back)[place]? := by
  rcases Nat.lt_or_ge place front.length with within | beyond
  · rw [List.getElem?_append_left within, List.getElem?_append_left within]
  · obtain ⟨rest, same⟩ : ∃ rest, place - front.length = rest + 1 := ⟨place - front.length - 1, by omega⟩
    rw [List.getElem?_append_right beyond, List.getElem?_append_right beyond, same]
    rfl

theorem inserts_replaced {info : BlockMeta} {new : FileBlock} (id : new.blockId = info.id)
    (size : new.numberBytes = info.numberBytes) (same : info.id = entry.blockId) :
    Inserts (front ++ entry :: back) (front ++ new :: back) [(front.length, new)] info := by
  have order : ids (front ++ new :: back) = ids (front ++ entry :: back) := by simp [ids, id, same]
  constructor
  · intro place entry member
    obtain ⟨rfl, rfl⟩ : place = front.length ∧ entry = new := by simpa using member
    simp
  · intro place absent
    exact getElem?_replaced (fun same => absent new (by simp [same])) new
  · exact ⟨_, _, List.mem_singleton_self _, id, size⟩
  · intro place entry member other
    obtain ⟨_, rfl⟩ : place = front.length ∧ entry = new := by simpa using member
    exact absurd id other
  · intro place held
    rwa [order]
  · exact .inl order

theorem inserts_first {info : BlockMeta} {new : FileBlock} (id : new.blockId = info.id)
    (size : new.numberBytes = info.numberBytes) : Inserts [] [new] [(0, new)] info := by
  constructor
  · simp
  · intro place absent
    cases place with
    | zero => exact absurd (List.mem_singleton_self _) (absent new)
    | succ place => rfl
  · exact ⟨_, _, List.mem_singleton_self _, id, size⟩
  · intro place entry member other
    obtain ⟨_, rfl⟩ : place = 0 ∧ entry = new := by simpa using member
    exact absurd id other
  · simp [ids]
  · exact .inr ⟨new, List.mem_singleton_self _⟩

theorem inserts_appended {info : BlockMeta} {new : FileBlock} (id : new.blockId = info.id)
    (size : new.numberBytes = info.numberBytes) (absent : info.id ∉ ids (front ++ [last])) (next : Int64) :
    Inserts (front ++ [last]) (front ++ [{ last with nextBlockId := next }, new])
      [(front.length, { last with nextBlockId := next }), (front.length + 1, new)] info := by
  constructor
  · intro place entry member
    rcases List.mem_pair.1 member with same | same
    · cases same
      simp
    · cases same
      simp
  · intro place missing
    have here : place ≠ front.length := fun same => missing { last with nextBlockId := next } (by simp [same])
    have behind : place ≠ front.length + 1 := fun same => missing new (by simp [same])
    rcases Nat.lt_or_ge place front.length with within | beyond
    · rw [List.getElem?_append_left within, List.getElem?_append_left within]
    · rw [List.getElem?_eq_none (by simp; omega), List.getElem?_eq_none (by simp; omega)]
  · exact ⟨front.length + 1, new, by simp, id, size⟩
  · intro place entry member other
    rcases List.mem_pair.1 member with same | same
    · cases same
      exact ⟨last, by simp, rfl, rfl⟩
    · cases same
      exact absurd id other
  · exact fun place held => absurd (List.mem_of_getElem? held) absent
  · exact .inr ⟨{ last with nextBlockId := next }, by simp⟩

theorem next_of_getLast? {found : ChainEntry} (linked : Linked (front ++ entry :: back))
    (here : (numbered 0 front).getLast? = some found) : found.entry.nextBlockId = entry.blockId := by
  rcases List.eq_nil_or_concat' front with rfl | ⟨others, last, rfl⟩
  · cases here
  · rw [getLast?_numbered_concat] at here
    cases here
    have follows := linked.follows others.length last (by simp)
    rw [follows, idAt, getElem?_ids]
    simp

def Upserted (base : Contents) (file block : Int64) (chain : List FileBlock) (later : Writes) : Prop :=
  ∃ next, Edited base file chain next later ∧ ids next ⊆ block :: ids chain

section

variable {info : BlockMeta} {replicas : BlockStorage} {new : FileBlock}
variable (before : base.Stands file chain) (sized : info.Sized) (listed : replicas.Sized)
include before sized listed

theorem ensures_putBlock {places : List (Nat × FileBlock)} {place : Nat} (linked : Linked next)
    (inserts : Inserts chain next (places ++ [(place, new)]) info) (known : ids next ⊆ info.id :: ids chain) :
    Ensures base (do
      putEntry file (UInt64.ofNat place) new
      Scoped.put (Key.blockMeta info.id).bytes info
      addReplicas info.id replicas
      pure (UInt64.ofNat place)) (.apply .empty (entriesAt file places)) fun _ later =>
        Upserted base file info.id chain later := by
  refine .bind (.put (.bind (.put (.bind (ensures_addReplicas listed fun merged fit => .pure ⟨next, ?_, known⟩)))))
  have edited := edited_insertion inserts linked before sized fit
  rwa [insertion, entriesAt, List.map_append, List.append_assoc, Writes.apply_append] at edited

theorem ensures_put_present (same : info.id = entry.blockId) (split : chain = front ++ entry :: back) :
    Ensures base (do
      ((numbered 0 front).getLast?).forM (relink file · info.id)
      putEntry file (UInt64.ofNat front.length)
        { blockId := info.id, numberBytes := info.numberBytes, nextBlockId := entry.nextBlockId }
      Scoped.put (Key.blockMeta info.id).bytes info
      addReplicas info.id replicas
      pure (UInt64.ofNat front.length)) .empty fun _ later => Upserted base file info.id chain later := by
  let new : FileBlock := { blockId := info.id, numberBytes := info.numberBytes, nextBlockId := entry.nextBlockId }
  have linked : Linked (front ++ entry :: back) := split ▸ before.linked
  have inserts : Inserts chain (front ++ new :: back) ([] ++ [(front.length, new)]) info :=
    split ▸ inserts_replaced rfl rfl same
  have replaced : Linked (front ++ new :: back) := linked_replaced linked same rfl
  have order : ids (front ++ new :: back) = ids chain := by simp [split, ids, new, same]
  have written := ensures_putBlock before sized listed replaced inserts
    (order.symm ▸ List.subset_cons_self _ _)
  refine .bind ?_
  cases found : (numbered 0 front).getLast? with
  | none => exact .pure written
  | some predecessor =>
    -- The entry before names the block already.
    have named := next_of_getLast? linked found
    change Ensures base (relink file predecessor info.id) _ _
    rw [relink, if_pos (named.trans same.symm)]
    exact .pure written

theorem ensures_put_absent (positive : 0 < info.id) (absent : info.id ∉ ids chain) :
    Ensures base (do
      ((numbered 0 chain).getLast?).forM (relink file · info.id)
      putEntry file (UInt64.ofNat chain.length)
        { blockId := info.id, numberBytes := info.numberBytes, nextBlockId := 0 }
      Scoped.put (Key.blockMeta info.id).bytes info
      addReplicas info.id replicas
      pure (UInt64.ofNat chain.length)) .empty fun _ later => Upserted base file info.id chain later := by
  let new : FileBlock := { blockId := info.id, numberBytes := info.numberBytes, nextBlockId := 0 }
  refine .bind ?_
  rcases List.eq_nil_or_concat' chain with rfl | ⟨front, last, rfl⟩
  · have inserts : Inserts [] [new] ([] ++ [(0, new)]) info := inserts_first rfl rfl
    exact .pure (ensures_putBlock before sized listed (linked_single positive _) inserts (by simp [ids]))
  · have loose : last.nextBlockId ≠ info.id := by
      have follows := before.linked.follows front.length last (by simp)
      rw [follows, idAt, getElem?_ids]
      simpa using (Int64.ne_of_lt positive)
    have place : (front ++ [last]).length = front.length + 1 := by simp
    rw [getLast?_numbered_concat, Nat.zero_add, place]
    change Ensures base (relink file _ info.id) _ _
    rw [relink, if_neg loose]
    refine .put ?_
    have inserts : Inserts (front ++ [last]) (front ++ [{ last with nextBlockId := info.id }, new])
        ([(front.length, { last with nextBlockId := info.id })] ++ [(front.length + 1, new)]) info :=
      inserts_appended rfl rfl absent info.id
    exact ensures_putBlock before sized listed (linked_appended before.linked positive absent _) inserts
      (by simp [ids])

end

theorem ensures_upsert {info : BlockMeta} {replicas : BlockStorage} (before : base.Stands file chain)
    (sized : info.Sized) (listed : replicas.Sized) :
    Ensures base (upsert file block info replicas) .empty fun _ later => Upserted base file block chain later := by
  refine .bind (.lift fun _ _ => .bind (.lift fun _ required => .bind (.lift fun _ _ => ?_)))
  refine .bind (ensures_entries ((Contents.write_empty base).symm ▸ before) fun _ => ?_)
  have fit : { info with id := block }.Sized := sized
  by_cases member : block ∈ ids chain
  · obtain ⟨entry, known, same⟩ := List.mem_map.1 member
    obtain ⟨front, back, split⟩ := List.append_of_mem known
    have absent : block ∉ ids front := by
      have distinct := before.linked.distinct
      rw [split, ids, List.map_append, List.nodup_append] at distinct
      exact fun member => distinct.2.2 _ member _ List.mem_cons_self same.symm
    have written := ensures_put_present before fit listed same.symm split
    dsimp only at written
    rwa [position_of_present split same absent]
  · have written := ensures_put_absent before fit listed (pos_of_requirePositive required) member
    dsimp only at written
    rwa [position_of_absent member]

end Chain

end FsMeta
