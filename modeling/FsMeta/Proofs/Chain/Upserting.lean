import FsMeta.Chain.Upsert
import FsMeta.Proofs.Chain.Resolution
import FsMeta.Proofs.Service.Replicas
import Mathlib.Data.List.ModifyLast

set_option autoImplicit false

namespace FsMeta

structure BlockMeta.Counts (info : BlockMeta) : Prop where
  generation : 0 ≤ info.generation
  numberBytes : 0 ≤ info.numberBytes
  replication : 0 ≤ info.replication
  collectionId : 0 ≤ info.collectionId

theorem BlockMeta.demands_validate (info : BlockMeta) : Demands info.validate info.Counts := by
  have same : info.Counts ↔ ¬ (info.generation < 0 ∨ info.numberBytes < 0 ∨ info.replication < 0 ∨
      info.collectionId < 0) := by
    simp only [not_or, Int64.not_lt, Int32.not_lt]
    exact ⟨fun ⟨a, b, c, d⟩ => ⟨a, b, c, d⟩, fun ⟨a, b, c, d⟩ => ⟨a, b, c, d⟩⟩
  rw [same]
  exact ⟨fun valid => if_neg valid, fun low => ⟨_, if_pos (not_not.1 low), rfl⟩⟩

section

variable {α β : Type} (f : α → α) (elements : List α)

theorem getLast?_modifyLast : (elements.modifyLast f).getLast? = elements.getLast?.map f := by
  rcases List.eq_nil_or_concat' elements with rfl | ⟨others, last, rfl⟩
  · rfl
  · rw [List.modifyLast_concat]
    simp

variable {f}

theorem map_modifyLast {g : α → β} (same : ∀ element, g (f element) = g element) :
    (elements.modifyLast f).map g = elements.map g := by
  rcases List.eq_nil_or_concat' elements with rfl | ⟨others, last, rfl⟩
  · rfl
  · rw [List.modifyLast_concat]
    simp [same]

end

namespace Chain

open Scoped (Yields)

variable {block : Int64} {chain front back : List ChainEntry} {entry : ChainEntry} {index : UInt64} {next : Int64}

inductive Spot (block : Int64) (chain : List ChainEntry) :
    List ChainEntry → UInt64 → Int64 → List ChainEntry → Prop where
  | present {front : List ChainEntry} {entry : ChainEntry} {back : List ChainEntry}
    (split : chain = front ++ entry :: back) (own : entry.entry.blockId = block)
    (first : ∀ found ∈ front, found.entry.blockId ≠ block) :
    Spot block chain front entry.index entry.entry.nextBlockId back
  | absent (others : ∀ found ∈ chain, found.entry.blockId ≠ block) : Spot block chain chain (appendIndex chain) 0 []

def naming (block : Int64) (entry : ChainEntry) : ChainEntry :=
  { entry with entry := { entry.entry with nextBlockId := block } }

@[simp] theorem isFor_iff {entry : ChainEntry} : isFor block entry = true ↔ entry.entry.blockId = block := by
  simp [isFor]

theorem exists_spot (block : Int64) (chain : List ChainEntry) : ∃ front index next back,
    Spot block chain front index next back := by
  by_cases member : ∃ found ∈ chain, found.entry.blockId = block
  · obtain ⟨front, entry, back, split, own, first⟩ : ∃ front entry back, chain = front ++ entry :: back ∧
        entry.entry.blockId = block ∧ ∀ found ∈ front, found.entry.blockId ≠ block := by
      induction chain with
      | nil => simp at member
      | cons head rest ih =>
        by_cases here : head.entry.blockId = block
        · exact ⟨[], head, rest, rfl, here, by simp⟩
        · obtain ⟨front, entry, back, rfl, own, first⟩ := ih (by simpa [here] using member)
          exact ⟨head :: front, entry, back, rfl, own, List.forall_mem_cons.2 ⟨here, first⟩⟩
    exact ⟨_, _, _, _, .present split own first⟩
  · exact ⟨_, _, _, _, .absent fun found among same => member ⟨found, among, same⟩⟩

namespace Spot

variable (spot : Spot block chain front index next back)
include spot

theorem position_eq : position chain block = { index, next, predecessor := front.getLast? } := by
  cases spot with
  | @present front entry back split own first =>
    have others : ∀ found ∈ front, (! isFor block found) = true := by simpa [isFor] using first
    have missing : front.find? (isFor block) = none := by simpa using first
    rw [split, position, List.find?_append, missing, Option.none_or, List.find?_cons_of_pos (by simpa using own),
      List.takeWhile_append_of_pos others, List.takeWhile_cons_of_neg (by simpa using own), List.append_nil]
  | absent others =>
    have missing : chain.find? (isFor block) = none := by simpa using others
    rw [position, missing]

theorem mem_chain {found : ChainEntry} (member : found ∈ front ∨ found ∈ back) : found ∈ chain := by
  cases spot with
  | present split own first =>
    rw [split]
    rcases member with before | after
    · exact List.mem_append_left _ before
    · exact List.mem_append_right _ (List.mem_cons_of_mem _ after)
  | absent others => simpa using member

theorem front_ne : ∀ found ∈ front, found.entry.blockId ≠ block := by
  cases spot with
  | present split own first => exact first
  | absent others => exact others

theorem subset : chain.map ChainEntry.index ⊆ front.map ChainEntry.index ++ index :: back.map ChainEntry.index := by
  cases spot with
  | present split own first => simp [split]
  | absent others => simp

theorem ascending (order : chain.Pairwise fun one two => one.index < two.index)
    (bound : ∀ found ∈ chain, found.index.toNat < 2 ^ 64 - 1) :
    (front.map ChainEntry.index ++ index :: back.map ChainEntry.index).Pairwise (· < ·) := by
  cases spot with
  | present split own first =>
    rw [split] at order
    simpa using List.pairwise_map.2 order
  | absent others =>
    rw [List.map_nil, List.pairwise_append]
    refine ⟨List.pairwise_map.2 order, List.pairwise_singleton _ _, fun one member two last => ?_⟩
    rw [List.mem_singleton.1 last]
    obtain ⟨found, among, rfl⟩ := List.mem_map.1 member
    rcases List.eq_nil_or_concat' chain with rfl | ⟨before, final, rfl⟩
    · cases among
    · have room := bound final (by simp)
      have follows : appendIndex (before ++ [final]) = final.index + 1 := by rw [appendIndex, List.getLast?_concat]
      have number : (final.index + 1).toNat = final.index.toNat + 1 := by
        rw [UInt64.toNat_add, UInt64.toNat_one]
        exact Nat.mod_eq_of_lt (by omega)
      have most : found.index.toNat ≤ final.index.toNat := by
        rcases List.mem_append.1 among with earlier | same
        · have less := (List.pairwise_append.1 order).2.2 found earlier final (List.mem_singleton_self _)
          exact Nat.le_of_lt (UInt64.lt_iff_toNat_lt.1 less)
        · exact Nat.le_of_eq (by rw [List.mem_singleton.1 same])
      rw [follows, UInt64.lt_iff_toNat_lt, number]
      omega

end Spot

def filled (front : List ChainEntry) (index : UInt64) (entry : FileBlock) (back : List ChainEntry) : List ChainEntry :=
  front.modifyLast (naming entry.blockId) ++ { index, entry } :: back

theorem indexes_filled (front : List ChainEntry) (index : UInt64) (entry : FileBlock) (back : List ChainEntry) :
    (filled front index entry back).map ChainEntry.index =
      front.map ChainEntry.index ++ index :: back.map ChainEntry.index := by
  rw [filled, List.map_append, map_modifyLast (f := naming entry.blockId) _ fun _ => rfl]
  rfl

theorem Spot.filled (spot : Spot block chain front index next back) (size : Int64) :
    Spot block (Chain.filled front index (FileBlock.mk block size next) back) (front.modifyLast (naming block)) index
      next back := by
  have split : Chain.filled front index (FileBlock.mk block size next) back = front.modifyLast (naming block) ++
      { index, entry := FileBlock.mk block size next } :: back := rfl
  refine .present split rfl fun found member same => ?_
  have among : found.entry.blockId ∈ (front.modifyLast (naming block)).map (·.entry.blockId) :=
    List.mem_map_of_mem member
  rw [map_modifyLast (f := naming block) _ fun _ => rfl] at among
  obtain ⟨other, listed, equal⟩ := List.mem_map.1 among
  exact spot.front_ne other listed (equal.trans same)

end Chain

namespace Contents

open Chain (Spot filled naming)

variable {contents : Contents} {file block : Int64} {info : BlockMeta} {replicas : BlockStorage}
variable {chain front back : List ChainEntry} {last : ChainEntry} {index : UInt64} {next : Int64} {place : Bytes}

def renamed (contents : Contents) (file block : Int64) : Option ChainEntry → Contents
  | none => contents
  | some last => contents.revise (.fileBlock file last.index) last.entry (naming block last).entry

def gathered (contents : Contents) (block : Int64) (replicas : BlockStorage) : BlockStorage where
  id := block
  nodes := BlockStorage.joined (contents.replicas block) replicas.nodes

def upserted (contents : Contents) (file block : Int64) (info : BlockMeta) (replicas : BlockStorage)
    (last : Option ChainEntry) (index : UInt64) (next : Int64) : Contents :=
  (((contents.renamed file block last).put (.fileBlock file index)
    (some (Record.encode (FileBlock.mk block info.numberBytes next)))).put (.blockMeta block)
    (some (Record.encode { info with id := block }))).put (.blockStorage block)
    (some (Record.encode (contents.gathered block replicas)))

theorem renamed_other {last : Option ChainEntry}
    (differ : ∀ entry, last = some entry → place ≠ (Key.fileBlock file entry.index).bytes) :
    contents.renamed file block last place = contents place := by
  cases last with
  | none => rfl
  | some entry => exact revise_other (differ entry rfl) _ _

theorem renamed_key {last : Option ChainEntry} {key : Key} (differ : ∀ index, key ≠ .fileBlock file index) :
    contents.renamed file block last key.bytes = contents key.bytes :=
  renamed_other fun _ _ same => differ _ (Key.bytes_injective same)

theorem upserted_other {last : Option ChainEntry}
    (before : ∀ entry, last = some entry → place ≠ (Key.fileBlock file entry.index).bytes)
    (entry : place ≠ (Key.fileBlock file index).bytes) (described : place ≠ (Key.blockMeta block).bytes)
    (gathered : place ≠ (Key.blockStorage block).bytes) :
    contents.upserted file block info replicas last index next place = contents place := by
  rw [upserted, put, if_neg gathered, put, if_neg described, put, if_neg entry, renamed_other before]

theorem upserted_parts {last : Option ChainEntry} :
    contents.upserted file block info replicas last index next (Key.fileBlock file index).bytes =
        some (Record.encode (FileBlock.mk block info.numberBytes next)) ∧
      contents.upserted file block info replicas last index next (Key.blockMeta block).bytes =
        some (Record.encode { info with id := block }) ∧
      contents.upserted file block info replicas last index next (Key.blockStorage block).bytes =
        some (Record.encode (contents.gathered block replicas)) := by
  refine ⟨?_, ?_, put_self _ _⟩
  · rw [upserted, put_other (by simp), put_other (by simp), put_self]
  · rw [upserted, put_other (by simp), put_self]

theorem holds_renamed (differ : last.index ≠ index)
    (held : contents.Holds (.fileBlock file last.index) last.entry) :
    (contents.upserted file block info replicas (some last) index next).Holds (.fileBlock file last.index)
      (naming block last).entry := by
  have named : (contents.renamed file block (some last)).Holds (.fileBlock file last.index) (naming block last).entry :=
    holds_revise held (Record.decode_encode_fileBlock _)
  simpa [upserted, differ] using named

section

variable (lists : contents.Lists file chain)
include lists

theorem upserted_kept {found : ChainEntry} (member : found ∈ chain) (here : found.index ≠ index)
    (before : ∀ last, front.getLast? = some last → found.index ≠ last.index) :
    (contents.upserted file block info replicas front.getLast? index next).Holds (.fileBlock file found.index)
      found.entry := by
  rw [Holds, upserted_other (by simpa using before) (by simpa using here) (by simp) (by simp)]
  exact lists.entries found member

variable (spot : Spot block chain front index next back)
include spot

-- Only the last entry in front of the spot is another one.
theorem upserted_front (order : (front.map ChainEntry.index ++ index :: back.map ChainEntry.index).Pairwise (· < ·)) :
    ∀ found ∈ front.modifyLast (naming block),
      (contents.upserted file block info replicas front.getLast? index next).Holds (.fileBlock file found.index)
        found.entry := by
  obtain ⟨ahead, _, apart⟩ := List.pairwise_append.1 order
  have below {found : ChainEntry} (member : found ∈ front) : found.index ≠ index :=
    UInt64.ne_of_lt (apart _ (List.mem_map_of_mem member) _ List.mem_cons_self)
  intro found member
  rcases List.eq_nil_or_concat' front with rfl | ⟨others, last, rfl⟩
  · cases member
  · rw [List.map_append] at ahead
    have least := (List.pairwise_append.1 ahead).2.2
    rw [List.modifyLast_concat] at member
    rcases List.mem_append.1 member with earlier | same
    · have among := List.mem_append_left [last] earlier
      refine upserted_kept lists (spot.mem_chain (.inl among)) (below among) fun final same => ?_
      rw [List.getLast?_concat, Option.some.injEq] at same
      exact same ▸ UInt64.ne_of_lt (least _ (List.mem_map_of_mem earlier) _ (by simp))
    · rw [List.mem_singleton.1 same, List.getLast?_concat]
      have among : last ∈ others ++ [last] := by simp
      exact holds_renamed (below among) (lists.entries last (spot.mem_chain (.inl among)))

theorem Lists.upserted (bound : ∀ found ∈ chain, found.index.toNat < 2 ^ 64 - 1) :
    (contents.upserted file block info replicas front.getLast? index next).Lists file
      (filled front index (FileBlock.mk block info.numberBytes next) back) := by
  have order := spot.ascending lists.ascending bound
  have indexes := Chain.indexes_filled front index (FileBlock.mk block info.numberBytes next) back
  refine lists.changed ?_ (fun found member => ?_) (fun key begins written => ?_) fun found member gone => ?_
  · rwa [← List.pairwise_map, indexes]
  · rcases List.mem_append.1 member with before | rest
    · exact upserted_front lists spot order found before
    · obtain ⟨_, behind, apart⟩ := List.pairwise_append.1 order
      rcases List.mem_cons.1 rest with rfl | after
      · exact ⟨_, upserted_parts.1, Record.decode_encode_fileBlock _⟩
      · have above := (List.pairwise_cons.1 behind).1 _ (List.mem_map_of_mem after)
        refine upserted_kept lists (spot.mem_chain (.inr after)) (UInt64.ne_of_lt above).symm fun last final => ?_
        have below := apart _ (List.mem_map_of_mem (List.mem_of_getLast? final)) _ List.mem_cons_self
        exact (UInt64.ne_of_lt (UInt64.lt_trans below above)).symm
  · -- A key of the file that was written is that of the spot, or of the entry before it.
    by_cases here : key = (Key.fileBlock file index).bytes
    · exact .inr ⟨⟨index, _⟩, List.mem_append_right _ List.mem_cons_self, here⟩
    · by_cases before : ∃ last, front.getLast? = some last ∧ key = (Key.fileBlock file last.index).bytes
      · obtain ⟨last, final, same⟩ := before
        refine .inr ⟨naming block last, List.mem_append_left _ (List.mem_of_getLast? ?_), same⟩
        rw [getLast?_modifyLast, final]
        rfl
      · have off {other : Key} (marker : other.marker ≠ .fileBlock) : key ≠ other.bytes := by
          rintro rfl
          exact marker (Key.marker_of_isPrefixOf begins)
        rw [upserted_other (fun last final same => before ⟨last, final, same⟩) here (off (by simp [Key.marker]))
          (off (by simp [Key.marker]))] at written
        exact .inl written
  · have among : found.index ∈ (filled front index (FileBlock.mk block info.numberBytes next) back).map
        ChainEntry.index := indexes ▸ spot.subset (List.mem_map_of_mem member)
    obtain ⟨other, listed, same⟩ := List.mem_map.1 among
    exact absurd same (gone other listed)

end

theorem Readable.congr {α : Type} [Record α] {key : Key} {other : Contents} (readable : contents.Readable α key)
    (same : other key.bytes = contents key.bytes) : other.Readable α key := by
  simpa only [Readable, Holds, same] using readable

theorem gathered_congr {other : Contents}
    (same : other (Key.blockStorage block).bytes = contents (Key.blockStorage block).bytes) :
    other.gathered block replicas = contents.gathered block replicas := by
  rw [gathered, gathered, replicas_congr same]

theorem holds_gathered (readable : contents.Readable BlockStorage (.blockStorage block)) (listed : replicas.Sized)
    (short : (BlockStorage.joined (contents.replicas block) replicas.nodes).length < UInt64.size) :
    Record.decode (Record.encode (contents.gathered block replicas)) = .ok (contents.gathered block replicas) := by
  refine Record.decode_encode_blockStorage (fun location member => ?_) short
  rcases BlockStorage.mem_joined.1 member with old | new
  · rcases readable with absent | ⟨stored, held⟩
    · rw [replicas_of_absent absent] at old
      cases old
    · rw [replicas_of_holds held] at old
      obtain ⟨bytes, _, decoded⟩ := held
      exact Record.sized_blockStorage decoded location old
  · exact listed location new

theorem upserted_upserted (readable : contents.Readable BlockStorage (.blockStorage block)) (listed : replicas.Sized)
    (short : (BlockStorage.joined (contents.replicas block) replicas.nodes).length < UInt64.size) :
    let after := contents.upserted file block info replicas front.getLast? index next
    after.upserted file block info replicas (front.modifyLast (naming block)).getLast? index next = after := by
  intro after
  obtain ⟨entry, described, gathered⟩ : after _ = _ ∧ after _ = _ ∧ after _ = _ := upserted_parts
  have known : after.replicas block = BlockStorage.joined (contents.replicas block) replicas.nodes :=
    replicas_of_holds ⟨_, gathered, holds_gathered readable listed short⟩
  have same : after.gathered block replicas = contents.gathered block replicas := by
    rw [Contents.gathered, known, BlockStorage.joined_joined]
    rfl
  have named : after.renamed file block (front.modifyLast (naming block)).getLast? = after := by
    rw [getLast?_modifyLast]
    cases front.getLast? with
    | none => rfl
    | some last => exact if_pos rfl
  rw [upserted, named, same, put_same entry, put_same described, put_same gathered]

end Contents

namespace Chain

open Scoped (Yields)

variable {base : Contents} {writes : Writes} {file block : Int64} {info : BlockMeta} {replicas : BlockStorage}
variable {chain front back : List ChainEntry} {index : UInt64} {next : Int64}

theorem yields_index (positive : 0 < file) (lists : (base.write writes).Lists file chain)
    (spot : Spot block chain front index next back) {post : Except Error UInt64 → Writes → Prop}
    (holds : post (.ok index) writes) : Yields base (Chain.index file block) writes post := by
  have place := congrArg Position.index spot.position_eq
  refine .bind (yields_entries_listed positive lists ?_)
  cases found : chain.find? (isFor block) with
  | none =>
    simp only [position, found] at place ⊢
    exact .pure (place ▸ holds)
  | some entry =>
    simp only [position, found] at place ⊢
    exact .pure (place ▸ holds)

theorem yields_renamed (last : Option ChainEntry) {post : Except Error PUnit → Writes → Prop}
    (holds : ∀ later, base.write later = (base.write writes).renamed file block last → post (.ok ⟨⟩) later) :
    Yields base (last.forM (relink file · block)) writes post := by
  cases last with
  | none => exact .pure (holds _ rfl)
  | some entry =>
    have same : (naming block entry).entry = entry.entry ↔ entry.entry.nextBlockId = block := by
      constructor
      · exact fun same => (congrArg FileBlock.nextBlockId same).symm
      · rintro rfl
        rfl
    change Yields base (relink file entry block) writes post
    rw [relink]
    split
    · rename_i named
      refine .pure (holds _ ?_)
      rw [Contents.renamed, Contents.revise, if_pos (same.2 named)]
    · rename_i other
      refine .put (holds _ ?_)
      rw [Contents.renamed, Contents.revise, if_neg (mt same.1 other), Contents.write_insert]
      rfl

theorem yields_addReplicas (readable : (base.write writes).Readable BlockStorage (.blockStorage block))
    {post : Except Error Unit → Writes → Prop} (holds : ∀ later, base.write later = (base.write writes).put
      (.blockStorage block) (some (Record.encode ((base.write writes).gathered block replicas))) →
        post (.ok ()) later) : Yields base (addReplicas block replicas) writes post := by
  refine .bind (yields_find? readable (fun absent => .put (holds _ ?_)) fun known held => .put (holds _ ?_))
  · rw [Contents.write_insert, Contents.gathered, Contents.replicas_of_absent absent, BlockStorage.merge_eq]
    rfl
  · rw [Contents.write_insert, Contents.gathered, Contents.replicas_of_holds held, BlockStorage.merge_eq]
    rfl

theorem yields_upsert_refused (refused : ¬ (0 < file ∧ 0 < block ∧ info.Counts)) :
    Yields base (upsert file block info replicas) .empty fun result _ =>
      ∃ error, result = .error error ∧ error.kind = .invalidArgument := by
  refine .demand (demands_requirePositive _ file) (fun error _ kind => ⟨error, rfl, kind⟩) fun one => ?_
  refine .demand (demands_requirePositive _ block) (fun error _ kind => ⟨error, rfl, kind⟩) fun two => ?_
  refine .demand (BlockMeta.demands_validate _) (fun error _ kind => ⟨error, rfl, kind⟩) fun counts => ?_
  exact absurd ⟨one, two, counts.generation, counts.numberBytes, counts.replication, counts.collectionId⟩ refused

theorem yields_upsert_replicas (positive : 0 < file) (own : 0 < block) (counts : info.Counts)
    (lists : base.Lists file chain) (spot : Spot block chain front index next back)
    {post : Except Error UInt64 → Writes → Prop}
    (holds : ∀ between, base.write between =
        ((base.renamed file block front.getLast?).put (.fileBlock file index)
          (some (Record.encode (FileBlock.mk block info.numberBytes next)))).put (.blockMeta block)
            (some (Record.encode { info with id := block })) →
      base.write between (Key.blockStorage block).bytes = base (Key.blockStorage block).bytes →
        Yields base (addReplicas block replicas >>= fun _ => pure index) between post) :
    Yields base (upsert file block info replicas) .empty post := by
  have whole : base.write .empty = base := Contents.write_empty base
  refine .demand (demands_requirePositive _ file) (fun _ low => absurd positive low) fun _ => ?_
  refine .demand (demands_requirePositive _ block) (fun _ low => absurd own low) fun _ => ?_
  refine .demand (BlockMeta.demands_validate _) (fun _ low => absurd ?_ low) fun _ => ?_
  · exact ⟨counts.generation, counts.numberBytes, counts.replication, counts.collectionId⟩
  refine .bind (yields_entries_listed positive (whole.symm ▸ lists) ?_)
  dsimp only
  rw [spot.position_eq]
  refine .bind (yields_renamed _ fun one renamed => ?_)
  rw [whole] at renamed
  refine .bind (.put (.bind (.put (holds _ ?_ ?_))))
  · rw [Contents.write_insert, Contents.write_insert, renamed]
  · rw [Contents.write_insert, Contents.write_insert, Contents.put_other (by simp), Contents.put_other (by simp),
      renamed, Contents.renamed_key (by simp)]

theorem yields_upsert (positive : 0 < file) (own : 0 < block) (counts : info.Counts) (lists : base.Lists file chain)
    (readable : base.Readable BlockStorage (.blockStorage block)) (spot : Spot block chain front index next back) :
    Yields base (upsert file block info replicas) .empty fun result later => result = .ok index ∧
      base.write later = base.upserted file block info replicas front.getLast? index next := by
  refine yields_upsert_replicas positive own counts lists spot fun between known stays => ?_
  refine .bind (yields_addReplicas (readable.congr stays) fun later same => .pure ⟨rfl, ?_⟩)
  rw [same, Contents.gathered_congr stays, known]
  rfl

theorem yields_upsert_unreadable (positive : 0 < file) (own : 0 < block) (counts : info.Counts)
    (lists : base.Lists file chain) (unreadable : ¬ base.Readable BlockStorage (.blockStorage block)) :
    Yields base (upsert file block info replicas) .empty fun result _ =>
      ∃ what, result = .error (.serialization what) := by
  obtain ⟨front, index, next, back, spot⟩ := exists_spot block chain
  refine yields_upsert_replicas positive own counts lists spot fun between _ stays => ?_
  have still : ¬ (base.write between).Readable BlockStorage (.blockStorage block) :=
    fun readable => unreadable (readable.congr stays.symm)
  exact .bind (.bind (yields_find?_unreadable still fun what => ⟨what, rfl⟩))

theorem chain_of_run {engine : Engine} (read : (engine.run .never (entries file)).1 = .ok chain) :
    0 < file ∧ engine.storage.store.committed.Lists file chain := by
  obtain ⟨_, positive, lists⟩ := (engine.run_ensures .never ensures_entries_read).2 chain read
  rw [Contents.write_empty] at lists
  exact ⟨positive, lists⟩

theorem upsert_exact {engine : Engine} {file block : Int64} {info : BlockMeta} {replicas : BlockStorage}
    (clear : engine.Clear (upsert file block info replicas)) :
    let before := engine.storage.store.committed
    let result := (engine.run .never (upsert file block info replicas)).1
    let later := (engine.run .never (upsert file block info replicas)).2
    let after := later.storage.store.committed
    (¬ (0 < file ∧ 0 < block ∧ info.Counts) →
      (∃ error, result = .error error ∧ error.kind = .invalidArgument) ∧ after = before) ∧
    ∀ chain, 0 < block → info.Counts → (engine.run .never (entries file)).1 = .ok chain →
      (¬ before.Readable BlockStorage (.blockStorage block) →
        (∃ what, result = .error (.serialization what)) ∧ after = before) ∧
      ((∀ found ∈ chain, found.index.toNat < 2 ^ 64 - 1) → before.Readable BlockStorage (.blockStorage block) →
        engine.Clear (Chain.index file block) →
        ∃ front index next back, Spot block chain front index next back ∧
          (engine.run .never (Chain.index file block)).1 = .ok index ∧ result = .ok index ∧
          after.Lists file (filled front index (FileBlock.mk block info.numberBytes next) back) ∧
          after (Key.blockMeta block).bytes = some (Record.encode { info with id := block }) ∧
          after (Key.blockStorage block).bytes = some (Record.encode ({
            id := block, nodes := BlockStorage.joined (before.replicas block) replicas.nodes } : BlockStorage)) ∧
          (∀ place, (∀ last, front.getLast? = some last → place ≠ (Key.fileBlock file last.index).bytes) →
            place ≠ (Key.fileBlock file index).bytes → place ≠ (Key.blockMeta block).bytes →
            place ≠ (Key.blockStorage block).bytes → after place = before place) ∧
          (replicas.Sized → (BlockStorage.joined (before.replicas block) replicas.nodes).length < UInt64.size →
            later.Clear (upsert file block info replicas) →
            (later.run .never (upsert file block info replicas)).1 = .ok index ∧
              (later.run .never (upsert file block info replicas)).2.storage.store.committed = after)) := by
  intro before result later after
  refine ⟨fun refused => ?_, fun chain own counts read => ⟨fun unreadable => ?_, fun bound readable asks => ?_⟩⟩
  · obtain ⟨_, ⟨error, failed, kind⟩, ended⟩ := engine.run_yields clear (yields_upsert_refused refused)
    exact ⟨⟨error, failed, kind⟩, ended.failed error failed⟩
  · obtain ⟨positive, lists⟩ := chain_of_run read
    obtain ⟨_, ⟨what, failed⟩, ended⟩ :=
      engine.run_yields clear (yields_upsert_unreadable positive own counts lists unreadable)
    exact ⟨⟨what, failed⟩, ended.failed _ failed⟩
  obtain ⟨positive, lists⟩ := chain_of_run read
  obtain ⟨front, index, next, back, spot⟩ := exists_spot block chain
  have whole : before.write .empty = before := Contents.write_empty before
  have told : Yields before (Chain.index file block) .empty fun result _ => result = .ok index :=
    yields_index positive (whole.symm ▸ lists) spot rfl
  obtain ⟨_, foretold, _⟩ := engine.run_yields asks told
  obtain ⟨_, ⟨done, same⟩, ended⟩ :=
    engine.run_yields clear (yields_upsert positive own counts lists readable spot)
  have same : after = before.upserted file block info replicas front.getLast? index next :=
    (ended.done index done).trans same
  have listed : after.Lists file (filled front index (FileBlock.mk block info.numberBytes next) back) :=
    same ▸ lists.upserted spot bound
  obtain ⟨_, described, gathered⟩ : _ ∧ after _ = _ ∧ after _ = _ := same ▸ Contents.upserted_parts
  refine ⟨front, index, next, back, spot, foretold, done, listed, described, gathered, ?_, ?_⟩
  · intro place last entry info replicas
    rw [same, Contents.upserted_other last entry info replicas]
  · -- The block stands at its spot now, so the same call finds it there and writes what is stored already.
    intro fit short again
    have legible : after.Readable BlockStorage (.blockStorage block) :=
      .inr ⟨_, _, gathered, Contents.holds_gathered readable fit short⟩
    obtain ⟨_, ⟨twice, still⟩, ended⟩ :=
      later.run_yields again (yields_upsert positive own counts listed legible (spot.filled info.numberBytes))
    refine ⟨twice, (ended.done index twice).trans (still.trans ?_)⟩
    rw [show later.storage.store.committed = _ from same]
    exact (Contents.upserted_upserted readable fit short).trans same.symm

-- A file with a gap in its chain, and an entry that names a block which is not there.
def stale : Engine := .holding
  [(.fileBlock 1 0, Record.encode (FileBlock.mk 10 5 99)), (.fileBlock 1 2, Record.encode (FileBlock.mk 11 7 0))]

theorem upsert_exact_stale :
    let info : BlockMeta := { numberBytes := 8 }
    let replicas : BlockStorage := { nodes := [{ dataNodeId := "a", storageId := "b" }] }
    (∃ index, (stale.run .never (Chain.index 1 11)).1 = .ok index ∧
      (stale.run .never (upsert 1 11 info replicas)).1 = .ok index ∧
      ((stale.run .never (upsert 1 11 info replicas)).2.run .never
          (upsert 1 11 info replicas)).2.storage.store.committed =
        (stale.run .never (upsert 1 11 info replicas)).2.storage.store.committed) ∧
    (stale.run .never (upsert 1 0 info replicas)).2.storage.store.committed = stale.storage.store.committed := by
  intro info replicas
  have starts {α : Type} (action : Scoped α) : stale.Clear action := Engine.clear_ofEntries _ (by decide +kernel)
  obtain ⟨_, puts⟩ := upsert_exact (starts (upsert 1 11 info replicas))
  have counts : info.Counts := ⟨by decide, by decide, by decide, by decide⟩
  have sized : replicas.Sized := by
    intro location member
    rw [List.mem_singleton.1 member]
    exact ⟨by decide, by decide⟩
  obtain ⟨_, adds⟩ := puts [⟨0, FileBlock.mk 10 5 99⟩, ⟨2, FileBlock.mk 11 7 0⟩] (by decide) counts (by decide +kernel)
  obtain ⟨_, index, _, _, _, told, done, _, _, _, _, repeats⟩ :=
    adds (by decide) (.inl (by decide +kernel)) (starts _)
  have further : (stale.run .never (upsert 1 11 info replicas)).2.Clear (upsert 1 11 info replicas) :=
    (starts (upsert 1 11 info replicas)).next (only_upsert 1 11 info replicas _ .empty) (by decide +kernel)
      (by decide +kernel) (by decide +kernel) (by decide +kernel)
  obtain ⟨_, stays⟩ := repeats sized (by decide +kernel) further
  obtain ⟨refuses, _⟩ := upsert_exact (starts (upsert 1 0 info replicas))
  exact ⟨⟨index, told, done, stays⟩, (refuses fun valid => absurd valid.2.1 (by decide)).2⟩

end Chain

end FsMeta
