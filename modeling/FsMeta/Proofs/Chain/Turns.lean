import FsMeta.Proofs.Chain.Standing
import FsMeta.Proofs.Store.Crew

set_option autoImplicit false

/-!
How one transaction changes a chain, and why that fits onto what others have made of the chain meanwhile.
Whoever changes which blocks there are writes the last entry, and whoever writes what a block is writes
its entry too. So where two transactions write nothing in common, each finds its entries as it left them.
-/
namespace FsMeta.Chain

variable {old now : Contents} {file : Int64} {chain next current latest : List FileBlock} {writes : Writes}
variable {index : UInt64} {id : Int64}

def Parts (writes : Writes) (id : Int64) : Prop := writes.Touch (.blockMeta id) ∨ writes.Touch (.blockStorage id)

-- The entry that is written when blocks come or go; in an empty chain, the first one that comes.
def guardKey (file : Int64) (chain : List FileBlock) : Key := .fileBlock file (UInt64.ofNat (chain.length - 1))

structure Turned (now : Contents) (file : Int64) (chain next : List FileBlock) (writes : Writes) : Prop where
  stands : (now.write writes).Stands file next
  guarded : ids next = ids chain ∨ writes.Touch (guardKey file chain)
  parts : ∀ (index : UInt64) (id : Int64),
    (ids chain)[index.toNat]? = some id ∨ (ids next)[index.toNat]? = some id →
      Parts writes id → writes.Touch (.fileBlock file index)
  fresh : ∀ (index : UInt64) (id : Int64), (ids next)[index.toNat]? = some id →
    (ids chain)[index.toNat]? ≠ some id → writes.Touch (.blockMeta id) ∧ writes.Touch (.blockStorage id)

def Concerns (file : Int64) (blocks : List Int64) : Key → Prop
  | .fileBlock other _ => other = file
  | .blockMeta id | .blockStorage id => id ∈ blocks
  | .inode _ | .child _ _ => False

theorem Concerns.mono {file : Int64} {blocks more : List Int64} {key : Key} (concerns : Concerns file blocks key)
    (less : blocks ⊆ more) : Concerns file more key := by
  cases key with
  | blockMeta id => exact less concerns
  | blockStorage id => exact less concerns
  | fileBlock other index => exact concerns
  | inode id => exact concerns
  | child parent name => exact concerns

structure Edited (old : Contents) (file : Int64) (chain next : List FileBlock) (writes : Writes) : Prop extends
    Turned old file chain next writes where
  before : old.Stands file chain
  scope : ∀ bytes, (writes.find? bytes).isSome →
    ∃ key : Key, key.bytes = bytes ∧ Concerns file (ids chain ++ ids next) key

/-- What the others have left in place, as far as these writes go. -/
structure Fits (old now : Contents) (file : Int64) (chain current : List FileBlock) (writes : Writes) : Prop where
  stands : now.Stands file current
  same : ∀ key : Key, writes.Touch key → now key.bytes = old key.bytes
  guarded : writes.Touch (guardKey file chain) → ids current = ids chain
  parts : ∀ (index : UInt64) (id : Int64), (ids chain)[index.toNat]? = some id →
    writes.Touch (.fileBlock file index) →
      now (Key.blockMeta id).bytes = old (Key.blockMeta id).bytes ∧
        now (Key.blockStorage id).bytes = old (Key.blockStorage id).bytes

theorem getElem?_ids (chain : List FileBlock) (place : Nat) :
    (ids chain)[place]? = chain[place]?.map FileBlock.blockId := List.getElem?_map

theorem exists_of_ids_eq {other : List FileBlock} {place : Nat} {entry : FileBlock} (same : ids chain = ids other)
    (held : chain[place]? = some entry) : ∃ found, other[place]? = some found := by
  have known : (ids other)[place]? = some entry.blockId := by rw [← same, getElem?_ids, held, Option.map_some]
  rw [getElem?_ids] at known
  obtain ⟨found, there, _⟩ := Option.map_eq_some_iff.1 known
  exact ⟨found, there⟩

theorem exists_place (linked : Linked chain) (member : id ∈ ids chain) :
    ∃ index : UInt64, (ids chain)[index.toNat]? = some id := by
  obtain ⟨place, held⟩ := List.mem_iff_getElem?.1 member
  obtain ⟨within, _⟩ := List.getElem?_eq_some_iff.1 held
  rw [length_ids] at within
  exact ⟨UInt64.ofNat place, by rwa [linked.toNat_place within]⟩

theorem index_unique (linked : Linked chain) {other : UInt64} (one : (ids chain)[index.toNat]? = some id)
    (two : (ids chain)[other.toNat]? = some id) : index = other := by
  obtain ⟨within, _⟩ := List.getElem?_eq_some_iff.1 one
  exact UInt64.toNat_inj.1 ((List.getElem?_inj within linked.distinct).1 (one.trans two.symm))

theorem concerns_of_parts (edited : Edited old file chain next writes) (parts : Parts writes id) :
    id ∈ ids chain ++ ids next := by
  rcases parts with touch | touch
  · obtain ⟨key, same, concerns⟩ := edited.scope _ touch
    cases Key.bytes_injective same
    exact concerns
  · obtain ⟨key, same, concerns⟩ := edited.scope _ touch
    cases Key.bytes_injective same
    exact concerns

theorem Edited.named (edited : Edited old file chain next writes) (bytes : Bytes)
    (written : (writes.find? bytes).isSome) : ∃ key : Key, key.bytes = bytes :=
  (edited.scope bytes written).imp fun _ => And.left

theorem Turned.getElem?_of_not_touch (turned : Turned now file chain next writes) (before : now.Stands file chain)
    (untouched : ¬ writes.Touch (.fileBlock file index)) : next[index.toNat]? = chain[index.toNat]? := by
  refine Option.ext fun entry => ?_
  rw [← turned.stands.entry_iff, ← before.entry_iff, Contents.write_of_not_touch untouched]

theorem Edited.getElem?_of_not_touch (edited : Edited old file chain next writes)
    (untouched : ¬ writes.Touch (.fileBlock file index)) : next[index.toNat]? = chain[index.toNat]? :=
  edited.toTurned.getElem?_of_not_touch edited.before untouched

theorem Edited.current_of_touch (edited : Edited old file chain next writes)
    (fits : Fits old now file chain current writes) (touch : writes.Touch (.fileBlock file index)) :
    current[index.toNat]? = chain[index.toNat]? := by
  refine Option.ext fun entry => ?_
  rw [← fits.stands.entry_iff, ← edited.before.entry_iff, fits.same _ touch]

/-- The chain that comes of it: the entries that are written, and for the rest the ones that the others
have left. The blocks are those of the one or of the other. -/
structure Merged (file : Int64) (chain next current latest : List FileBlock) (writes : Writes) : Prop where
  written : ∀ index : UInt64, writes.Touch (.fileBlock file index) →
    latest[index.toNat]? = next[index.toNat]?
  kept : ∀ index : UInt64, ¬ writes.Touch (.fileBlock file index) →
    latest[index.toNat]? = current[index.toNat]?
  order : ids latest = ids current ∧ ids next = ids chain ∨ ids latest = ids next ∧ ids current = ids chain

section

open Classical

noncomputable def overlay (places : UInt64 → Prop) (front back : List FileBlock) : List FileBlock :=
  back.mapIdx fun place entry => if places (UInt64.ofNat place) then front[place]?.getD entry else entry

variable {places : UInt64 → Prop} {front back : List FileBlock}
variable (agree : ∀ index, places index → (ids front)[index.toNat]? = (ids back)[index.toNat]?)
include agree

theorem getElem?_overlay (index : UInt64) : (overlay places front back)[index.toNat]? =
    if places index then front[index.toNat]? else back[index.toNat]? := by
  rw [overlay, List.getElem?_mapIdx, UInt64.ofNat_toNat]
  split
  · rename_i known
    have same := agree index known
    rw [getElem?_ids, getElem?_ids] at same
    cases here : back[index.toNat]? <;> cases there : front[index.toNat]? <;> simp_all
  · cases back[index.toNat]? <;> rfl

theorem ids_overlay (short : back.length < UInt64.size) : ids (overlay places front back) = ids back := by
  refine List.ext_getElem? fun place => ?_
  rcases Nat.lt_or_ge place UInt64.size with within | beyond
  · rw [← UInt64.toNat_ofNat_of_lt' within, getElem?_ids, getElem?_overlay agree]
    split
    · rename_i known
      rw [← getElem?_ids, agree _ known]
    · rw [getElem?_ids]
  · rw [List.getElem?_eq_none (by rw [length_ids, overlay, List.length_mapIdx]; omega),
      List.getElem?_eq_none (by rw [length_ids]; omega)]

end

theorem Edited.exists_merged (edited : Edited old file chain next writes)
    (fits : Fits old now file chain current writes) :
    ∃ latest, Merged file chain next current latest writes := by
  rcases edited.guarded with order | touch
  · -- The blocks stay, so the written entries are put into what the others have left.
    have agree (index : UInt64) (touch : writes.Touch (.fileBlock file index)) :
        (ids next)[index.toNat]? = (ids current)[index.toNat]? := by
      rw [order, getElem?_ids, getElem?_ids, edited.current_of_touch fits touch]
    refine ⟨overlay (fun index => writes.Touch (.fileBlock file index)) next current, ?_, ?_, ?_⟩
    · intro index touch
      rw [getElem?_overlay agree, if_pos touch]
    · intro index untouched
      rw [getElem?_overlay agree, if_neg untouched]
    · exact .inl ⟨ids_overlay agree fits.stands.linked.length_lt, order⟩
  · -- The others have left the blocks, so what they have written is put into the new chain.
    have order := fits.guarded touch
    have agree (index : UInt64) (untouched : ¬ writes.Touch (.fileBlock file index)) :
        (ids current)[index.toNat]? = (ids next)[index.toNat]? := by
      rw [order, getElem?_ids, getElem?_ids, edited.getElem?_of_not_touch untouched]
    refine ⟨overlay (fun index => ¬ writes.Touch (.fileBlock file index)) current next, ?_, ?_, ?_⟩
    · intro index touch
      rw [getElem?_overlay agree, if_neg (not_not_intro touch)]
    · intro index untouched
      rw [getElem?_overlay agree, if_pos untouched]
    · exact .inr ⟨ids_overlay agree edited.stands.linked.length_lt, order⟩

namespace Merged

variable (merged : Merged file chain next current latest writes) (edited : Edited old file chain next writes)
variable (fits : Fits old now file chain current writes)
include merged edited fits

theorem follows {entry : FileBlock} (held : latest[index.toNat]? = some entry) :
    entry.nextBlockId = idAt latest (index.toNat + 1) := by
  by_cases touch : writes.Touch (.fileBlock file index)
  · rw [merged.written index touch] at held
    have own := edited.stands.linked.follows _ _ held
    rcases merged.order with ⟨order, same⟩ | ⟨order, _⟩
    · obtain ⟨before, here⟩ := exists_of_ids_eq same held
      have there : current[index.toNat]? = some before := (edited.current_of_touch fits touch).trans here
      calc entry.nextBlockId
        _ = idAt next (index.toNat + 1) := own
        _ = idAt chain (index.toNat + 1) := by rw [idAt, idAt, same]
        _ = before.nextBlockId := (edited.before.linked.follows _ _ here).symm
        _ = idAt current (index.toNat + 1) := fits.stands.linked.follows _ _ there
        _ = idAt latest (index.toNat + 1) := by rw [idAt, idAt, order]
    · rwa [idAt, order]
  · rw [merged.kept index touch] at held
    have own := fits.stands.linked.follows _ _ held
    rcases merged.order with ⟨order, _⟩ | ⟨order, same⟩
    · rwa [idAt, order]
    · obtain ⟨before, here⟩ := exists_of_ids_eq same held
      have there : next[index.toNat]? = some before := (edited.getElem?_of_not_touch touch).trans here
      calc entry.nextBlockId
        _ = idAt current (index.toNat + 1) := own
        _ = idAt chain (index.toNat + 1) := by rw [idAt, idAt, same]
        _ = before.nextBlockId := (edited.before.linked.follows _ _ here).symm
        _ = idAt next (index.toNat + 1) := edited.stands.linked.follows _ _ there
        _ = idAt latest (index.toNat + 1) := by rw [idAt, idAt, order]

theorem linked : Linked latest := by
  have inner : (ids latest).Nodup ∧ (∀ id ∈ ids latest, 0 < id) ∧ latest.length < UInt64.size := by
    rw [← length_ids]
    rcases merged.order with ⟨order, _⟩ | ⟨order, _⟩
    · have linked := fits.stands.linked
      rw [order, length_ids]
      exact ⟨linked.distinct, linked.positive, linked.length_lt⟩
    · have linked := edited.stands.linked
      rw [order, length_ids]
      exact ⟨linked.distinct, linked.positive, linked.length_lt⟩
  obtain ⟨distinct, positive, short⟩ := inner
  refine ⟨distinct, positive, fun place entry held => ?_⟩
  obtain ⟨within, _⟩ := List.getElem?_eq_some_iff.1 held
  have number : (UInt64.ofNat place).toNat = place := UInt64.toNat_ofNat_of_lt' (Nat.lt_trans within short)
  rw [← number] at held ⊢
  exact merged.follows edited fits held

-- Nothing was written about a block whose entry was not written.
theorem not_parts (untouched : ¬ writes.Touch (.fileBlock file index))
    (known : (ids current)[index.toNat]? = some id) : ¬ Parts writes id := by
  intro parts
  have place : ∃ other : UInt64, writes.Touch (.fileBlock file other) ∧
      ((ids chain)[other.toNat]? = some id ∨ (ids next)[other.toNat]? = some id) := by
    rcases List.mem_append.1 (concerns_of_parts edited parts) with member | member
    · obtain ⟨other, held⟩ := exists_place edited.before.linked member
      exact ⟨other, edited.parts other id (.inl held) parts, .inl held⟩
    · obtain ⟨other, held⟩ := exists_place edited.stands.linked member
      exact ⟨other, edited.parts other id (.inr held) parts, .inr held⟩
  obtain ⟨other, touch, held⟩ := place
  apply untouched
  rcases merged.order with ⟨_, order⟩ | ⟨_, order⟩
  · rw [order, or_self, getElem?_ids, ← edited.current_of_touch fits touch, ← getElem?_ids] at held
    rwa [index_unique fits.stands.linked known held]
  · rw [order] at known
    rcases held with held | held
    · rwa [index_unique edited.before.linked known held]
    · rw [getElem?_ids, ← edited.getElem?_of_not_touch untouched, ← getElem?_ids] at known
      rwa [index_unique edited.stands.linked known held]

theorem backs {entry : FileBlock} (held : latest[index.toNat]? = some entry) : (now.write writes).Backs entry := by
  by_cases touch : writes.Touch (.fileBlock file index)
  · rw [merged.written index touch] at held
    have known : (ids next)[index.toNat]? = some entry.blockId := by rw [getElem?_ids, held, Option.map_some]
    -- What is not written about the block was there before, and the others have left it.
    have left (missing : ¬ (writes.Touch (.blockMeta entry.blockId) ∧
        writes.Touch (.blockStorage entry.blockId))) :=
      fits.parts index entry.blockId (by_contra fun new => missing (edited.fresh index _ known new)) touch
    obtain ⟨⟨info, stored, named⟩, replicas, lie⟩ := edited.stands.backed entry (List.mem_of_getElem? held)
    constructor
    · exact ⟨info, stored.publish fun untouched => (left fun both => untouched both.1).1, named⟩
    · exact ⟨replicas, lie.publish fun untouched => (left fun both => untouched both.2).2⟩
  · rw [merged.kept index touch] at held
    have known : (ids current)[index.toNat]? = some entry.blockId := by rw [getElem?_ids, held, Option.map_some]
    obtain ⟨noInfo, noReplicas⟩ := not_or.1 (merged.not_parts edited fits touch known)
    exact (fits.stands.backed entry (List.mem_of_getElem? held)).of_not_touch noInfo noReplicas

theorem stands : (now.write writes).Stands file latest := by
  apply fits.stands.write edited.named (merged.linked edited fits)
  · intro index
    by_cases touch : writes.Touch (.fileBlock file index)
    · rw [merged.written index touch, ← edited.stands.entries, Contents.write_of_touch touch]
    · rw [merged.kept index touch, ← fits.stands.entries, Contents.write_of_not_touch touch]
  · exact fun index entry held => merged.backs edited fits held

theorem turned : Turned now file current latest writes := by
  refine ⟨merged.stands edited fits, ?_, fun index id known parts => ?_, fun index id known new => ?_⟩
  · rcases merged.order with ⟨order, _⟩ | ⟨order, same⟩
    · exact .inl order
    · rcases edited.guarded with kept | touch
      · exact .inl (by rw [order, kept, same])
      · right
        rwa [guardKey, ← length_ids, same, length_ids]
  · by_contra untouched
    have latestKnown : (ids latest)[index.toNat]? = (ids current)[index.toNat]? := by
      rw [getElem?_ids, getElem?_ids, merged.kept index untouched]
    rw [latestKnown, or_self] at known
    exact merged.not_parts edited fits untouched known parts
  · rcases merged.order with ⟨order, _⟩ | ⟨order, same⟩
    · rw [order] at known
      exact absurd known new
    · rw [order] at known
      rw [same] at new
      exact edited.fresh index id known new

end Merged

end FsMeta.Chain
