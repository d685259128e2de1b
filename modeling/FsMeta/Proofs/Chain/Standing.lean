import FsMeta.Chain.Entry
import FsMeta.Proofs.Record.Block
import FsMeta.Proofs.Stored
import Mathlib.Data.List.Nodup

set_option autoImplicit false

namespace FsMeta

namespace Chain

def ids (chain : List FileBlock) : List Int64 := chain.map FileBlock.blockId

-- Which block has that place; zero behind the end.
def idAt (chain : List FileBlock) (place : Nat) : Int64 := ((ids chain)[place]?).getD 0

structure Linked (chain : List FileBlock) : Prop where
  distinct : (ids chain).Nodup
  positive : ∀ id ∈ ids chain, 0 < id
  follows : ∀ (place : Nat) (entry : FileBlock), chain[place]? = some entry →
    entry.nextBlockId = idAt chain (place + 1)

def numbered : (start : Nat) → List FileBlock → List ChainEntry
  | _, [] => []
  | start, entry :: rest => { index := UInt64.ofNat start, entry } :: numbered (start + 1) rest

end Chain

namespace Contents

open Chain (Linked)

structure Backs (contents : Contents) (entry : FileBlock) : Prop where
  info : ∃ info : BlockMeta, contents.Holds (.blockMeta entry.blockId) info ∧
    info.id = entry.blockId ∧ info.numberBytes = entry.numberBytes
  replicas : ∃ replicas : BlockStorage, contents.Holds (.blockStorage entry.blockId) replicas

structure Lists (contents : Contents) (file : Int64) (found : List ChainEntry) : Prop where
  ascending : found.Pairwise fun one two => one.index < two.index
  entries : ∀ entry ∈ found, contents.Holds (.fileBlock file entry.index) entry.entry
  keyed : ∀ key, (contents key).isSome → (Key.fileBlocks file).isPrefixOf key = true →
    ∃ entry ∈ found, key = (Key.fileBlock file entry.index).bytes

structure Stands (contents : Contents) (file : Int64) (chain : List FileBlock) : Prop where
  linked : Linked chain
  entries : ∀ index : UInt64,
    contents (Key.fileBlock file index).bytes = chain[index.toNat]?.map Record.encode
  keyed : ∀ key, (contents key).isSome → (Key.fileBlocks file).isPrefixOf key = true →
    ∃ index, key = (Key.fileBlock file index).bytes
  backed : ∀ entry ∈ chain, contents.Backs entry

end Contents

namespace Chain

variable {chain front back : List FileBlock} {entry last : FileBlock} {place : Nat}

@[simp] theorem length_ids (chain : List FileBlock) : (ids chain).length = chain.length := List.length_map _

theorem linked_nil : Linked [] where
  distinct := List.nodup_nil
  positive := by simp [ids]
  follows := by simp

theorem linked_iff : Linked chain ↔ (ids chain).Nodup ∧ (∀ id ∈ ids chain, 0 < id) ∧
    chain.map FileBlock.nextBlockId = (ids chain ++ [0]).tail := by
  -- Place by place, the next ids are the ids one place on, with a zero behind the last.
  have shifted : (∀ (place : Nat) (entry : FileBlock), chain[place]? = some entry →
      entry.nextBlockId = idAt chain (place + 1)) ↔
      chain.map FileBlock.nextBlockId = (ids chain ++ [0]).tail := by
    have behind (place : Nat) : (ids chain ++ [0]).tail[place]? =
        chain[place]?.map fun _ => idAt chain (place + 1) := by
      rw [List.getElem?_tail, idAt]
      rcases Nat.lt_or_ge place chain.length with within | beyond
      · rw [List.getElem?_eq_getElem within, Option.map_some]
        rcases Nat.lt_or_ge (place + 1) (ids chain).length with inside | outside
        · rw [List.getElem?_append_left inside, List.getElem?_eq_getElem inside]
          rfl
        · have last : place + 1 = (ids chain).length := by
            rw [length_ids] at outside ⊢
            omega
          rw [last, List.getElem?_concat_length, List.getElem?_eq_none (Nat.le_refl _)]
          rfl
      · rw [List.getElem?_eq_none beyond, List.getElem?_eq_none (by simp; omega)]
        rfl
    constructor
    · intro follows
      refine List.ext_getElem? fun place => ?_
      rw [List.getElem?_map, behind]
      cases held : chain[place]? with
      | none => rfl
      | some entry => rw [Option.map_some, Option.map_some, follows place entry held]
    · intro same place entry held
      have here := congrArg (·[place]?) same
      simpa only [List.getElem?_map, behind, held, Option.map_some, Option.some.injEq] using here
  constructor
  · exact fun linked => ⟨linked.distinct, linked.positive, shifted.1 linked.follows⟩
  · exact fun ⟨distinct, positive, same⟩ => ⟨distinct, positive, shifted.2 same⟩

theorem nexts_front (linked : Linked (front ++ last :: back)) :
    front.map FileBlock.nextBlockId = (ids front ++ [last.blockId]).tail := by
  have same := (linked_iff.1 linked).2.2
  have split : (ids (front ++ last :: back) ++ [0]).tail =
      (ids front ++ [last.blockId]).tail ++ (ids back ++ [0]) := by
    rw [← List.tail_append_of_ne_nil (by simp)]
    simp [ids]
  rw [List.map_append, split] at same
  exact (List.append_inj same (by simp)).1

theorem getElem?_numbered (start : Nat) (chain : List FileBlock) (place : Nat) :
    (numbered start chain)[place]? =
      chain[place]?.map fun entry => { index := UInt64.ofNat (start + place), entry } := by
  induction chain generalizing start place with
  | nil => rfl
  | cons entry rest ih =>
    cases place with
    | zero => rfl
    | succ place =>
      rw [numbered, List.getElem?_cons_succ, List.getElem?_cons_succ, ih, Nat.add_right_comm, Nat.add_assoc]

@[simp] theorem length_numbered (start : Nat) (chain : List FileBlock) :
    (numbered start chain).length = chain.length := by
  induction chain generalizing start with
  | nil => rfl
  | cons entry rest ih => simp [numbered, ih]

theorem index_getElem_numbered (within : place < (numbered 0 chain).length) :
    (numbered 0 chain)[place].index = UInt64.ofNat place := by
  have found := getElem?_numbered 0 chain place
  rw [List.getElem?_eq_getElem within] at found
  obtain ⟨entry, _, same⟩ := Option.map_eq_some_iff.1 found.symm
  rw [← same, Nat.zero_add]

theorem numbered_append (start : Nat) (front back : List FileBlock) :
    numbered start (front ++ back) = numbered start front ++ numbered (start + front.length) back := by
  induction front generalizing start with
  | nil => rfl
  | cons entry rest ih =>
    rw [List.cons_append, numbered, numbered, ih, List.length_cons, List.cons_append, Nat.add_assoc,
      Nat.add_comm 1]

theorem mem_numbered {start : Nat} {found : ChainEntry} : found ∈ numbered start chain ↔
    ∃ place entry, chain[place]? = some entry ∧ found = { index := UInt64.ofNat (start + place), entry } := by
  simp only [List.mem_iff_getElem?, getElem?_numbered, Option.map_eq_some_iff, @eq_comm _ found]

/-- There are no more blocks than there are ids, so every place has its index. -/
theorem Linked.length_lt (linked : Linked chain) : chain.length < UInt64.size := by
  have range : ∀ id ∈ ids chain, 0 < id.toInt ∧ id.toInt < 2 ^ 63 := by
    intro id member
    exact ⟨Int64.lt_iff_toInt_lt.1 (linked.positive id member), Int64.toInt_lt _⟩
  have distinct : ((ids chain).map fun id => id.toInt.toNat).Nodup := by
    refine List.Nodup.map_on (fun one member two also same => Int64.toInt_inj.1 ?_) linked.distinct
    have first := range one member
    have second := range two also
    omega
  have listed : ((ids chain).map fun id => id.toInt.toNat) ⊆ List.range (2 ^ 63) := by
    intro n member
    obtain ⟨id, known, rfl⟩ := List.mem_map.1 member
    have bounds := range id known
    exact List.mem_range.2 (by omega)
  have bound := (distinct.subperm listed).length_le
  rw [List.length_map, length_ids, List.length_range] at bound
  exact Nat.lt_of_le_of_lt bound (by decide)

theorem Linked.toNat_place (linked : Linked chain) (within : place < chain.length) :
    (UInt64.ofNat place).toNat = place :=
  UInt64.toNat_ofNat_of_lt' (Nat.lt_trans within linked.length_lt)

theorem Linked.ascending (linked : Linked chain) :
    (numbered 0 chain).Pairwise fun one two => one.index < two.index := by
  rw [List.pairwise_iff_getElem]
  intro one two first second less
  rw [length_numbered] at first second
  rw [index_getElem_numbered, index_getElem_numbered, UInt64.lt_iff_toNat_lt, linked.toNat_place first,
    linked.toNat_place second]
  exact less

end Chain

theorem Contents.Backs.of_not_touch {contents : Contents} {entry : FileBlock} {writes : Writes}
    (backs : contents.Backs entry) (noInfo : ¬ writes.Touch (.blockMeta entry.blockId))
    (noReplicas : ¬ writes.Touch (.blockStorage entry.blockId)) : (contents.write writes).Backs entry := by
  obtain ⟨⟨info, held, named⟩, replicas, stored⟩ := backs
  constructor
  · refine ⟨info, ?_, named⟩
    rwa [Contents.Holds, Contents.write_of_not_touch noInfo]
  · refine ⟨replicas, ?_⟩
    rwa [Contents.Holds, Contents.write_of_not_touch noReplicas]

theorem Contents.Backs.of_written {contents : Contents} {entry : FileBlock} {writes : Writes} {info : BlockMeta}
    {replicas : BlockStorage} (id : entry.blockId = info.id) (size : entry.numberBytes = info.numberBytes)
    (sized : info.Sized) (listed : replicas.Sized)
    (described : writes.find? (Key.blockMeta info.id).bytes = some (some (Record.encode info)))
    (placed : writes.find? (Key.blockStorage info.id).bytes = some (some (Record.encode replicas))) :
    (contents.write writes).Backs entry := by
  obtain ⟨found, decoded, _⟩ := Record.exists_decode_blockStorage listed
  constructor
  · refine ⟨info, ⟨_, ?_, Record.decode_encode_blockMeta sized⟩, id.symm, size.symm⟩
    rw [id, write_apply, described]
    rfl
  · refine ⟨found, _, ?_, decoded⟩
    rw [id, write_apply, placed]
    rfl

theorem Contents.Backs.congr {contents : Contents} {entry other : FileBlock} (backs : contents.Backs entry)
    (id : other.blockId = entry.blockId) (size : other.numberBytes = entry.numberBytes) :
    contents.Backs other := by
  obtain ⟨info, replicas⟩ := backs
  constructor
  · rwa [id, size]
  · rwa [id]

namespace Contents.Stands

open Chain (numbered)

variable {contents : Contents} {file : Int64} {chain other : List FileBlock} {entry : FileBlock} {place : Nat}

theorem entry_iff (stands : contents.Stands file chain) {index : UInt64} :
    contents (Key.fileBlock file index).bytes = some (Record.encode entry) ↔
      chain[index.toNat]? = some entry := by
  rw [stands.entries, Option.map_eq_some_iff]
  constructor
  · rintro ⟨found, held, same⟩
    rwa [← Record.encode_fileBlock_injective same]
  · exact fun held => ⟨entry, held, rfl⟩

theorem write {next : List FileBlock} {writes : Writes} (stands : contents.Stands file chain)
    (named : ∀ bytes, (writes.find? bytes).isSome → ∃ key : Key, key.bytes = bytes) (linked : Chain.Linked next)
    (entries : ∀ index : UInt64,
      contents.write writes (Key.fileBlock file index).bytes = next[index.toNat]?.map Record.encode)
    (backs : ∀ (index : UInt64) (entry : FileBlock), next[index.toNat]? = some entry →
      (contents.write writes).Backs entry) : (contents.write writes).Stands file next := by
  refine ⟨linked, entries, fun key written begins => ?_, fun entry member => ?_⟩
  · cases found : writes.find? key with
    | none =>
      rw [write_apply, found, Option.getD_none] at written
      exact stands.keyed key written begins
    | some value =>
      obtain ⟨other, rfl⟩ := named key (by simp [found])
      obtain ⟨index, rfl⟩ := Key.eq_fileBlock_of_isPrefixOf begins
      exact ⟨index, rfl⟩
  · obtain ⟨place, held⟩ := List.mem_iff_getElem?.1 member
    obtain ⟨within, _⟩ := List.getElem?_eq_some_iff.1 held
    rw [← linked.toNat_place within] at held
    exact backs _ entry held

theorem unique (stands : contents.Stands file chain) (also : contents.Stands file other) : chain = other := by
  refine List.ext_getElem? fun place => ?_
  rcases Nat.lt_or_ge place UInt64.size with within | beyond
  · have number : (UInt64.ofNat place).toNat = place := UInt64.toNat_ofNat_of_lt' within
    refine Option.ext fun entry => ?_
    rw [← number, ← stands.entry_iff, also.entry_iff]
  · have one := stands.linked.length_lt
    have two := also.linked.length_lt
    rw [List.getElem?_eq_none (by omega), List.getElem?_eq_none (by omega)]

theorem lists (stands : contents.Stands file chain) : contents.Lists file (numbered 0 chain) where
  ascending := stands.linked.ascending
  entries := by
    intro found member
    obtain ⟨place, entry, held, rfl⟩ := Chain.mem_numbered.1 member
    obtain ⟨within, _⟩ := List.getElem?_eq_some_iff.1 held
    refine ⟨_, ?_, Record.decode_encode_fileBlock entry⟩
    rw [stands.entry_iff, Nat.zero_add, stands.linked.toNat_place within]
    exact held
  keyed := by
    intro key written begins
    obtain ⟨index, rfl⟩ := stands.keyed key written begins
    rw [stands.entries, Option.isSome_map] at written
    obtain ⟨entry, held⟩ := Option.isSome_iff_exists.1 written
    refine ⟨{ index, entry }, Chain.mem_numbered.2 ⟨index.toNat, entry, held, ?_⟩, rfl⟩
    rw [Nat.zero_add, UInt64.ofNat_toNat]

end Contents.Stands

theorem mapM_of_forall_ok {ε α β : Type} {f : α → Except ε β} {g : α → β} {elements : List α}
    (done : ∀ element ∈ elements, f element = .ok (g element)) : elements.mapM f = .ok (elements.map g) := by
  induction elements with
  | nil => rfl
  | cons element rest ih =>
    obtain ⟨first, others⟩ := List.forall_mem_cons.1 done
    rw [List.mapM_cons, first, ih others]
    rfl

namespace Contents.Lists

variable {contents : Contents} {file : Int64} {found : List ChainEntry}

def pairOf (contents : Contents) (file : Int64) (entry : ChainEntry) : Bytes × Bytes :=
  let key := (Key.fileBlock file entry.index).bytes
  (key, (contents key).getD [])

theorem mem_pairs (lists : contents.Lists file found) (key value : Bytes) :
    (key, value) ∈ found.map (pairOf contents file) ↔
      contents key = some value ∧ (Key.fileBlocks file).isPrefixOf key = true := by
  constructor
  · intro member
    obtain ⟨entry, listed, same⟩ := List.mem_map.1 member
    obtain ⟨bytes, held, _⟩ := lists.entries entry listed
    cases same
    rw [held]
    exact ⟨rfl, Key.begins (.fileBlock file _)⟩
  · rintro ⟨held, begins⟩
    obtain ⟨entry, listed, rfl⟩ := lists.keyed key (by simp [held]) begins
    exact List.mem_map.2 ⟨entry, listed, by rw [pairOf, held]; rfl⟩

theorem ascending_pairs (lists : contents.Lists file found) :
    Table.Ascending (found.map (pairOf contents file)) := by
  rw [Table.Ascending, List.pairwise_map]
  exact lists.ascending.imp fun less => Key.fileBlock_lt file less

theorem entriesOfPairs_pairs (lists : contents.Lists file found) :
    Chain.entriesOfPairs file (found.map (pairOf contents file)) = .ok found := by
  have each : ∀ entry ∈ found, (Chain.entryOfPair file ∘ pairOf contents file) entry = .ok (id entry) := by
    intro entry member
    obtain ⟨bytes, held, decoded⟩ := lists.entries entry member
    simp only [Function.comp, pairOf, held, Option.getD_some, Chain.entryOfPair, Key.fileBlockIndex_bytes, decoded]
    rfl
  rw [Chain.entriesOfPairs, List.mapM_map, mapM_of_forall_ok each, List.map_id]

end Contents.Lists

namespace Chain

variable {base : Contents} {writes : Writes} {file : Int64} {chain : List FileBlock} {found : List ChainEntry}

theorem ensures_entries_listed (lists : (base.write writes).Lists file found)
    {post : List ChainEntry → Writes → Prop}
    (holds : 0 < file → post found writes) : Scoped.Ensures base (entries file) writes post := by
  refine .bind (.lift fun _ positive => .bind (.scan_exact fun pairs ascending members => ?_))
  have same : pairs = found.map (Contents.Lists.pairOf (base.write writes) file) := by
    refine Table.eq_of_ascending ascending lists.ascending_pairs fun ⟨key, value⟩ => ?_
    rw [members, lists.mem_pairs]
  rw [same]
  refine .lift fun read listed => ?_
  rw [lists.entriesOfPairs_pairs] at listed
  cases listed
  exact holds (pos_of_requirePositive positive)

theorem ensures_entries (stands : (base.write writes).Stands file chain) {post : List ChainEntry → Writes → Prop}
    (holds : 0 < file → post (numbered 0 chain) writes) : Scoped.Ensures base (entries file) writes post :=
  ensures_entries_listed stands.lists holds

end Chain

end FsMeta
