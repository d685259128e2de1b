import FsMeta.Proofs.Chain.Resolution
import FsMeta.Proofs.Chain.Sizes

set_option autoImplicit false

namespace FsMeta

namespace Chain

variable {file : Int64} {chain : List ChainBlock} {index : UInt64} {id : Int64}

def keys (file : Int64) (chain : List ChainBlock) : List Key :=
  (chain.map ChainBlock.toChainEntry).flatMap (ChainEntry.keys file)

@[simp] theorem keys_append (file : Int64) (front back : List ChainBlock) :
    keys file (front ++ back) = keys file front ++ keys file back := by simp [keys]

@[simp] theorem keys_cons (file : Int64) (head : ChainBlock) (rest : List ChainBlock) :
    keys file (head :: rest) = head.keys file ++ keys file rest := by simp [keys]

@[simp] theorem keys_cutTo (file : Int64) (found : ChainBlock) (size : Int64) :
    (found.cutTo size).keys file = found.keys file := rfl

@[simp] theorem entry_mem_keys {owner : Int64} :
    .fileBlock owner index ∈ keys file chain ↔ owner = file ∧ ∃ found ∈ chain, found.index = index := by
  simp only [keys, ChainEntry.keys, List.mem_flatMap, List.mem_map, exists_exists_and_eq_and, List.mem_cons,
    Key.fileBlock.injEq, reduceCtorEq, List.not_mem_nil, or_false, @eq_comm _ index]
  tauto

@[simp] theorem info_mem_keys : .blockMeta id ∈ keys file chain ↔ ∃ found ∈ chain, found.entry.blockId = id := by
  simp [keys, ChainEntry.keys, @eq_comm _ id]

@[simp] theorem replicas_mem_keys :
    .blockStorage id ∈ keys file chain ↔ ∃ found ∈ chain, found.entry.blockId = id := by
  simp [keys, ChainEntry.keys, @eq_comm _ id]

def Before (one two : ChainBlock) : Prop := one.index < two.index ∧ one.entry.blockId ≠ two.entry.blockId

theorem not_mem_keys {found : ChainBlock} (apart : ∀ other ∈ chain, Before found other) {key : Key}
    (own : key ∈ found.keys file) : key ∉ keys file chain := by
  simp only [ChainEntry.keys, List.mem_cons, List.not_mem_nil, or_false] at own
  rcases own with rfl | rfl | rfl
  · rw [entry_mem_keys]
    rintro ⟨_, other, among, same⟩
    exact UInt64.ne_of_lt (apart other among).1 same.symm
  · rw [info_mem_keys]
    rintro ⟨other, among, same⟩
    exact (apart other among).2 same.symm
  · rw [replicas_mem_keys]
    rintro ⟨other, among, same⟩
    exact (apart other among).2 same.symm

end Chain

namespace Contents

open Chain (Before Ends keys)

variable {contents : Contents} {file : Int64} {chain front back : List ChainBlock} {last found : ChainBlock}
variable {residual left size less : Int64} {place : Bytes}

structure Intact (contents : Contents) (file : Int64) (chain : List ChainBlock) : Prop extends
    contents.Resolved file chain where
  distinct : (chain.map fun found => found.entry.blockId).Nodup
  own : ∀ found ∈ chain, found.block.id = found.entry.blockId

def cut (contents : Contents) (file : Int64) (last : ChainBlock) (residual : Int64) (back : List ChainBlock) :
    Contents :=
  ((contents.erase (keys file back)).revise (.fileBlock file last.index) last.entry (last.cutTo residual).entry).revise
    (.blockMeta last.entry.blockId) last.block.info (last.cutTo residual).block.info

theorem Describes.sized (describes : contents.Describes found) : found.block.info.Sized := by
  obtain ⟨bytes, _, decoded⟩ := describes.info
  exact Record.sized_blockMeta decoded

theorem Intact.pairwise (intact : contents.Intact file chain) : chain.Pairwise Before :=
  (List.pairwise_map.1 intact.lists.ascending).and (List.pairwise_map.1 intact.distinct)

theorem cut_of_not_mem (absent : place ∉ (keys file back).map Key.bytes)
    (entry : place ≠ (Key.fileBlock file last.index).bytes)
    (info : place ≠ (Key.blockMeta last.entry.blockId).bytes) : contents.cut file last residual back place =
      contents place := by
  rw [cut, revise_other info, revise_other entry, erase_of_not_mem absent]

section

variable (pairwise : (front ++ last :: back).Pairwise Before)
include pairwise

theorem last_not_mem {key : Key} (own : key ∈ last.keys file) : key ∉ keys file back := by
  obtain ⟨_, behind, _⟩ := List.pairwise_append.1 pairwise
  exact Chain.not_mem_keys (List.pairwise_cons.1 behind).1 own

theorem cut_of_mem {key : Key} (member : key ∈ keys file back) :
    contents.cut file last residual back key.bytes = none := by
  have differ : ∀ own ∈ last.keys file, key ≠ own := fun own among same => last_not_mem pairwise among (same ▸ member)
  have entry : key ≠ .fileBlock file last.index := differ _ (by simp [ChainEntry.keys])
  have info : key ≠ .blockMeta last.entry.blockId := differ _ (by simp [ChainEntry.keys])
  rw [cut, revise_other (by simpa using info), revise_other (by simpa using entry), erase_of_mem member]

theorem cut_front (contents : Contents) (file residual : Int64) (member : found ∈ front) {key : Key}
    (own : key ∈ found.keys file) : contents.cut file last residual back key.bytes = contents key.bytes := by
  obtain ⟨_, _, apart⟩ := List.pairwise_append.1 pairwise
  have absent : key ∉ keys file (last :: back) := Chain.not_mem_keys (apart found member) own
  simp only [Chain.keys_cons, ChainEntry.keys, List.mem_append, List.mem_cons, not_or] at absent
  obtain ⟨⟨entry, info, _⟩, behind⟩ := absent
  exact cut_of_not_mem (by simpa using behind) (by simpa using entry) (by simpa using info)

theorem cut_last (residual : Int64) (describes : contents.Describes last)
    (held : contents.Holds (.fileBlock file last.index) last.entry) :
    (contents.cut file last residual back).Holds (.fileBlock file last.index) (last.cutTo residual).entry ∧
      (contents.cut file last residual back).Describes (last.cutTo residual) := by
  have absent {key : Key} (own : key ∈ last.keys file) : key.bytes ∉ (keys file back).map Key.bytes := by
    simpa using last_not_mem pairwise own
  have sized : (last.cutTo residual).block.info.Sized := describes.sized
  refine ⟨?_, ?_, ?_⟩
  · rw [Holds, cut, revise_other (by simp)]
    refine holds_revise ?_ (Record.decode_encode_fileBlock _)
    rwa [Holds, erase_of_not_mem (absent (by simp [ChainEntry.keys]))]
  · refine holds_revise ?_ (Record.decode_encode_blockMeta sized)
    rw [Holds, revise_other (by simp), erase_of_not_mem (absent (by simp [ChainEntry.keys]))]
    exact describes.info
  · obtain ⟨stored, ⟨bytes, known, decoded⟩, nodes⟩ := describes.replicas
    have same : contents.cut file last residual back (Key.blockStorage last.entry.blockId).bytes =
        contents (Key.blockStorage last.entry.blockId).bytes :=
      cut_of_not_mem (absent (by simp [ChainEntry.keys])) (by simp) (by simp)
    exact ⟨stored, ⟨bytes, same.trans known, decoded⟩, nodes⟩

end

theorem of_cut {bytes : Bytes} (held : contents.cut file last residual back place = some bytes) :
    place = (Key.fileBlock file last.index).bytes ∨ place = (Key.blockMeta last.entry.blockId).bytes ∨
      contents place = some bytes := by
  by_cases entry : place = (Key.fileBlock file last.index).bytes
  · exact .inl entry
  · by_cases info : place = (Key.blockMeta last.entry.blockId).bytes
    · exact .inr (.inl info)
    · rw [cut, revise_other info, revise_other entry] at held
      exact .inr (.inr (of_erase held))

theorem Intact.cut (intact : contents.Intact file (front ++ last :: back)) (residual : Int64) :
    (contents.cut file last residual back).Intact file (front ++ [last.cutTo residual]) := by
  have pairwise := intact.pairwise
  obtain ⟨first, behind, apart⟩ := List.pairwise_append.1 pairwise
  have here : last ∈ front ++ last :: back := by simp
  have stored {found : ChainBlock} (member : found ∈ front ++ last :: back) :
      contents.Holds (.fileBlock file found.index) found.entry :=
    intact.lists.entries _ (List.mem_map_of_mem member)
  obtain ⟨entry, described⟩ := cut_last pairwise residual (intact.describes last here) (stored here)
  -- In each part the front is untouched, the last block is the one that is written, and the back is gone.
  refine ⟨⟨?_, fun found member => ?_⟩, ?_, fun found member => ?_⟩
  · apply intact.lists.changed
    · rw [List.pairwise_map, List.pairwise_append]
      refine ⟨first.imp And.left, List.pairwise_singleton _ _, fun one member two among => ?_⟩
      rw [List.mem_singleton.1 among]
      exact (apart one member last List.mem_cons_self).1
    · intro found member
      obtain ⟨block, among, rfl⟩ := List.mem_map.1 member
      rcases List.mem_append.1 among with before | same
      · have own : .fileBlock file block.index ∈ block.keys file := by simp [ChainEntry.keys]
        rw [Holds, cut_front pairwise contents file residual before own]
        exact stored (List.mem_append_left _ before)
      · rw [List.mem_singleton.1 same]
        exact entry
    · intro key _ written
      obtain ⟨bytes, held⟩ := Option.isSome_iff_exists.1 written
      rcases of_cut held with rfl | rfl | before
      · exact .inr ⟨(last.cutTo residual).toChainEntry, by simp, rfl⟩
      · exact .inl (intact.describes last here).info.isSome
      · exact .inl (by rw [before]; rfl)
    · intro found member gone
      obtain ⟨block, among, rfl⟩ := List.mem_map.1 member
      rcases List.mem_append.1 among with before | after
      · exact absurd rfl (gone block.toChainEntry (List.mem_map_of_mem (List.mem_append_left _ before)))
      · rcases List.mem_cons.1 after with rfl | after
        · exact absurd rfl (gone (block.cutTo residual).toChainEntry (by simp))
        · exact cut_of_mem pairwise (Chain.entry_mem_keys.2 ⟨rfl, block, after, rfl⟩)
  · rcases List.mem_append.1 member with before | same
    · have describes := intact.describes found (List.mem_append_left _ before)
      have info : .blockMeta found.entry.blockId ∈ found.keys file := by simp [ChainEntry.keys]
      have replicas : .blockStorage found.entry.blockId ∈ found.keys file := by simp [ChainEntry.keys]
      constructor
      · rw [Holds, cut_front pairwise contents file residual before info]
        exact describes.info
      · simpa only [Holds, cut_front pairwise contents file residual before replicas] using describes.replicas
    · rw [List.mem_singleton.1 same]
      exact described
  · refine intact.distinct.sublist ?_
    simp [ChainBlock.cutTo]
  · rcases List.mem_append.1 member with before | same
    · exact intact.own found (List.mem_append_left _ before)
    · rw [List.mem_singleton.1 same]
      exact intact.own last here

theorem Intact.erase (intact : contents.Intact file chain) :
    (contents.erase (keys file chain)).Intact file [] := by
  refine ⟨⟨intact.lists.changed .nil (by simp) (fun key _ written => ?_) fun found member _ => ?_, by simp⟩, .nil,
    by simp⟩
  · obtain ⟨bytes, held⟩ := Option.isSome_iff_exists.1 written
    exact .inl (by rw [of_erase held]; rfl)
  · obtain ⟨block, among, rfl⟩ := List.mem_map.1 member
    exact erase_of_mem (Chain.entry_mem_keys.2 ⟨rfl, block, among, rfl⟩)

theorem erase_cut (front : List ChainBlock) : (contents.cut file last residual back).erase
    (keys file (front ++ [last.cutTo residual])) = contents.erase (keys file (front ++ last :: back)) := by
  have entry : .fileBlock file last.index ∈ keys file (front ++ [last.cutTo residual]) :=
    Chain.entry_mem_keys.2 ⟨rfl, last.cutTo residual, by simp, rfl⟩
  have info : .blockMeta last.entry.blockId ∈ keys file (front ++ [last.cutTo residual]) :=
    Chain.info_mem_keys.2 ⟨last.cutTo residual, by simp, rfl⟩
  rw [cut, erase_revise info, erase_revise entry, erase_erase]
  refine erase_congr fun key => ?_
  simp only [Chain.keys_append, Chain.keys_cons, Chain.keys_cutTo, List.mem_append]
  tauto

theorem cut_cut_front (mid : List ChainBlock) :
    (contents.cut file last residual back).cut file found left (mid ++ [last.cutTo residual]) =
      contents.cut file found left (mid ++ last :: back) := by
  rw [cut, erase_cut]
  rfl

def Tidy (contents : Contents) (file : Int64) (found : ChainBlock) : Prop :=
  contents (Key.fileBlock file found.index).bytes = some (Record.encode found.entry) ∨
    found.entry.numberBytes = found.block.numberBytes

section

variable (most : left ≤ residual) (bound : residual ≤ last.block.numberBytes)
include most bound

-- What is said of the block is written in one step, and the entry in two.
theorem cut_cut_eq : (contents.cut file last residual back).cut file (last.cutTo residual) left [] =
    (((contents.erase (keys file back)).revise (.fileBlock file last.index) last.entry
      (last.cutTo residual).entry).revise (.fileBlock file last.index) (last.cutTo residual).entry
      (last.cutTo left).entry).revise (.blockMeta last.entry.blockId) last.block.info (last.cutTo left).block.info := by
  have differ : Key.blockMeta last.entry.blockId ≠ .fileBlock file last.index := by simp
  -- The size only falls, so if it ends where it began, it did not change on the way.
  have seen : (last.cutTo left).block.info = last.block.info →
      (last.cutTo residual).block.info = last.block.info := by
    intro same
    have size : left = last.block.numberBytes := congrArg BlockMeta.numberBytes same
    rw [Int64.le_antisymm bound (size ▸ most)]
    rfl
  rw [← revise_revise fun same => .inr (seen same), ← revise_comm differ]
  rfl

theorem cut_cut_other (other : place ≠ (Key.fileBlock file last.index).bytes) :
    (contents.cut file last residual back).cut file (last.cutTo residual) left [] place =
      contents.cut file last left back place := by
  rw [cut_cut_eq most bound, cut]
  simp only [revise_apply, other, and_false, if_false]

theorem cut_cut (tidy : contents.Tidy file last)
    (apart : (Key.fileBlock file last.index).bytes ∉ (keys file back).map Key.bytes) :
    (contents.cut file last residual back).cut file (last.cutTo residual) left [] =
      contents.cut file last left back := by
  have seen (same : (last.cutTo left).entry = last.entry) :
      (contents.erase (keys file back)) (Key.fileBlock file last.index).bytes =
        some (Record.encode (last.cutTo left).entry) ∨ (last.cutTo residual).entry = last.entry := by
    rcases tidy with written | agrees
    · left
      rw [erase_of_not_mem apart, written, same]
    · right
      have size : left = last.entry.numberBytes := congrArg FileBlock.numberBytes same
      rw [Int64.le_antisymm most (size ▸ agrees ▸ bound)] at same
      exact same
  rw [cut_cut_eq most bound, revise_revise seen, cut]

end

def truncated (contents : Contents) (file : Int64) (chain : List ChainBlock) (size : Int64) : Contents :=
  if size = 0 then contents.erase (keys file chain)
  else
    match Chain.cut? size 0 chain with
    | some found => contents.cut file found.last found.residual found.dropped
    | none => contents

theorem truncated_zero (contents : Contents) (file : Int64) (chain : List ChainBlock) :
    contents.truncated file chain 0 = contents.erase (keys file chain) := if_pos rfl

theorem truncated_of_ends (sums : Chain.Summable chain) (ends : Ends chain size front last residual back) :
    contents.truncated file chain size = contents.cut file last residual back := by
  have positive := ends.pos
  rw [truncated, if_neg (Int64.ne_of_lt positive).symm, ends.cut?_eq sums]

def Matches (one two : Contents) (file : Int64) : Prop :=
  ∀ place, two place = one place ∨ ∃ (index : UInt64) (entry : FileBlock),
    place = (Key.fileBlock file index).bytes ∧ one.Holds (.fileBlock file index) entry ∧
      two.Holds (.fileBlock file index) entry

end Contents

namespace Chain

open Contents (Matches)

variable {base : Contents} {file size less residual : Int64} {chain rest dropped front back : List ChainBlock}
variable {last : ChainBlock}

inductive Remains (chain : List ChainBlock) (size : Int64) : List ChainBlock → List ChainBlock → Prop where
  | nothing (zero : size = 0) : Remains chain size [] chain
  | upTo {front : List ChainBlock} {last : ChainBlock} {residual : Int64} {back : List ChainBlock}
    (ends : Ends chain size front last residual back) : Remains chain size (front ++ [last.cutTo residual]) back

theorem exists_remains (valid : 0 ≤ size) (within : size.toInt ≤ sizes chain) :
    ∃ rest dropped, Remains chain size rest dropped := by
  rcases Int64.lt_or_eq_of_le valid with positive | zero
  · obtain ⟨front, last, residual, back, ends⟩ := exists_ends positive within
    exact ⟨_, _, .upTo ends⟩
  · exact ⟨_, _, .nothing zero.symm⟩

namespace Remains

variable (remains : Remains chain size rest dropped)
include remains

theorem sizes_eq : sizes rest = size.toInt := by
  cases remains with
  | nothing zero => simp [zero]
  | upTo ends => exact ends.sizes_rest

variable (sums : Summable chain)
include sums

theorem intact (intact : base.Intact file chain) : (base.truncated file chain size).Intact file rest := by
  cases remains with
  | nothing zero =>
    rw [zero, Contents.truncated_zero]
    exact intact.erase
  | upTo ends =>
    rw [Contents.truncated_of_ends sums ends]
    exact (ends.split ▸ intact : base.Intact file _).cut _

theorem gone (intact : base.Intact file chain) : ∀ key ∈ keys file dropped,
    base.truncated file chain size key.bytes = none := by
  cases remains with
  | nothing zero =>
    intro key member
    rw [zero, Contents.truncated_zero, Contents.erase_of_mem member]
  | upTo ends =>
    intro key member
    rw [Contents.truncated_of_ends sums ends]
    exact Contents.cut_of_mem (ends.split ▸ intact.pairwise) member

theorem others {place : Bytes} (absent : place ∉ (keys file dropped).map Key.bytes)
    (apart : ∀ last, rest.getLast? = some last → place ≠ (Key.fileBlock file last.index).bytes ∧
      place ≠ (Key.blockMeta last.entry.blockId).bytes) :
    base.truncated file chain size place = base place := by
  cases remains with
  | nothing zero => rw [zero, Contents.truncated_zero, Contents.erase_of_not_mem absent]
  | upTo ends =>
    rw [Contents.truncated_of_ends sums ends]
    obtain ⟨entry, info⟩ := apart _ List.getLast?_concat
    exact Contents.cut_of_not_mem absent entry info

theorem summable : Summable rest := by
  have whole : fits (sizes rest) = true := remains.sizes_eq ▸ fits_toInt size
  intro fewer leads
  cases remains with
  | nothing zero =>
    rw [List.prefix_nil.1 leads]
    exact sums [] List.nil_prefix
  | upTo ends =>
    rcases List.prefix_concat_iff.1 leads with same | before
    · exact same ▸ whole
    · exact sums fewer (before.trans (ends.split ▸ List.prefix_append _ _))

theorem twice (within : size.toInt ≤ sizes chain) (valid : 0 ≤ less)
    (most : less ≤ size) :
    let once := base.truncated file chain less
    let two := (base.truncated file chain size).truncated file rest less
    two = once ∨ ∃ front last residual left back, Ends chain size front last residual back ∧
      Ends chain less front last left back ∧ left ≤ residual ∧
      two = (base.cut file last residual back).cut file (last.cutTo residual) left [] := by
  intro once two
  have fewer : Summable rest := remains.summable sums
  rcases Int64.lt_or_eq_of_le valid with positive | rfl
  · have reach : less.toInt ≤ sizes chain := Int.le_trans (Int64.le_iff_toInt_le.1 most) within
    obtain ⟨others, other, left, behind, also⟩ := exists_ends positive reach
    cases remains with
    | nothing zero => exact absurd most (zero ▸ Int64.not_le.2 positive)
    | upTo ends =>
      have first : base.truncated file chain size = base.cut file _ _ _ := Contents.truncated_of_ends sums ends
      -- If the block that was cut is dropped now, nothing shows that it was cut. Otherwise it is cut twice.
      rcases ends.within most also with ⟨mid, rfl, again⟩ | ⟨rfl, rfl, rfl, shorter, again⟩
      · left
        simp only [two, once, first, Contents.truncated_of_ends fewer again, Contents.truncated_of_ends sums also,
          Contents.cut_cut_front]
      · exact .inr ⟨_, _, _, left, _, ends, also, shorter, by
          simp only [two, first, Contents.truncated_of_ends fewer again]⟩
  · left
    simp only [two, once, Contents.truncated_zero]
    cases remains with
    | nothing zero =>
      rw [zero, Contents.truncated_zero]
      rfl
    | upTo ends => rw [Contents.truncated_of_ends sums ends, Contents.erase_cut, ends.split]

theorem matches_twice (intact : base.Intact file chain) (within : size.toInt ≤ sizes chain) (valid : 0 ≤ less)
    (most : less ≤ size) : Matches (base.truncated file chain less)
      ((base.truncated file chain size).truncated file rest less) file := by
  rcases remains.twice sums within valid most with same | ⟨front, last, residual, left, back, ends, also, shorter, same⟩
  · exact fun place => .inl (congrFun same place)
  · intro place
    by_cases here : place = (Key.fileBlock file last.index).bytes
    · have whole : base.Intact file (front ++ last :: back) := ends.split ▸ intact
      have stored {found : Contents} {chain : List ChainBlock} {block : ChainBlock}
          (known : found.Intact file chain) (member : block ∈ chain) :
          found.Holds (.fileBlock file block.index) block.entry :=
        known.lists.entries _ (List.mem_map_of_mem member)
      refine .inr ⟨last.index, (last.cutTo left).entry, here, ?_, ?_⟩
      · rw [Contents.truncated_of_ends sums also]
        have member : last.cutTo left ∈ front ++ [last.cutTo left] := by simp
        exact stored (whole.cut left) member
      · rw [same]
        have member : (last.cutTo residual).cutTo left ∈ front ++ [(last.cutTo residual).cutTo left] := by simp
        exact stored ((whole.cut residual).cut left) member
    · left
      rw [same, Contents.cut_cut_other shorter ends.bound here, Contents.truncated_of_ends sums also]

theorem twice_of_tidy (intact : base.Intact file chain) (tidy : ∀ found ∈ chain, base.Tidy file found)
    (within : size.toInt ≤ sizes chain) (valid : 0 ≤ less) (most : less ≤ size) :
    (base.truncated file chain size).truncated file rest less = base.truncated file chain less := by
  rcases remains.twice sums within valid most with same | ⟨front, last, residual, left, back, ends, also, shorter, same⟩
  · exact same
  · have whole : (front ++ last :: back).Pairwise Before := ends.split ▸ intact.pairwise
    rw [same, Contents.truncated_of_ends sums also]
    refine Contents.cut_cut shorter ends.bound (tidy last (by simp [ends.split])) ?_
    have own : .fileBlock file last.index ∈ last.keys file := by simp [ChainEntry.keys]
    simpa using Contents.last_not_mem whole own

end Remains

section

open Scoped (Yields)

variable {writes : Writes}

theorem yields_removeBlocks (found : List ChainBlock) {post : Except Error PUnit → Writes → Prop}
    (holds : ∀ later, base.write later = (base.write writes).erase (keys file found) → post (.ok ⟨⟩) later) :
    Yields base (found.forM fun entry => remove file entry.toChainEntry) writes post := by
  induction found generalizing writes with
  | nil => exact .pure (holds _ rfl)
  | cons first rest ih =>
    refine .bind (.bind (.delete (.bind (.delete (.delete (ih fun later same => holds later ?_))))))
    simpa only [keys_cons, ChainEntry.keys, List.cons_append, List.nil_append, Contents.write_insert,
      Contents.erase_put_none] using same

theorem yields_shorten {found : ChainBlock} (own : found.block.id = found.entry.blockId)
    {post : Except Error Unit → Writes → Prop} (holds : ∀ later, base.write later =
      ((base.write writes).revise (.fileBlock file found.index) found.entry (found.cutTo residual).entry).revise
        (.blockMeta found.entry.blockId) found.block.info (found.cutTo residual).block.info → post (.ok ()) later) :
    Yields base (shorten file found residual) writes post := by
  have info (kept : found.block.numberBytes = residual) :
      (found.cutTo residual).block.info = found.block.info := by
    subst kept
    rfl
  have other (changed : found.block.numberBytes ≠ residual) :
      (found.cutTo residual).block.info ≠ found.block.info :=
    fun same => changed (congrArg BlockMeta.numberBytes same).symm
  -- The entry and the meta are written only where they change.
  rw [shorten, own]
  dsimp only
  split
  · rename_i entry
    have entry : (found.cutTo residual).entry ≠ found.entry := entry
    refine .bind (.put ?_)
    dsimp only
    split
    · rename_i changed
      refine .put (holds _ ?_)
      rw [Contents.revise, if_neg (other changed), Contents.revise, if_neg entry]
      simp only [Contents.write_insert]
      rfl
    · rename_i kept
      refine .pure (holds _ ?_)
      rw [Contents.revise, if_pos (info (not_not.1 kept)), Contents.revise, if_neg entry, Contents.write_insert]
      rfl
  · rename_i entry
    have entry : (found.cutTo residual).entry = found.entry := not_not.1 entry
    split
    · rename_i changed
      refine .put (holds _ ?_)
      rw [Contents.revise, if_neg (other changed), Contents.revise, if_pos entry, Contents.write_insert]
      rfl
    · rename_i kept
      refine .pure (holds _ ?_)
      rw [Contents.revise, if_pos (info (not_not.1 kept)), Contents.revise, if_pos entry]

inductive Refuses (file : Int64) (chain : List ChainBlock) (size : Int64) : Error → Prop where
  | negative (low : size < 0) : Refuses file chain size (.invalid s!"truncate size {size} is negative")
  | overflows (valid : 0 ≤ size) (beyond : ¬ Summable chain) :
    Refuses file chain size (.corrupted s!"file {file} size overflows i64")
  | short (valid : 0 ≤ size) (sums : Summable chain) (less : sizes chain < size.toInt) : Refuses file chain size
    (.invalid s!"cannot truncate file {file} of {sizes chain} bytes to {size} bytes")

theorem yields_truncate_refused (positive : 0 < file) (resolved : base.Resolved file chain) {error : Error}
    (refuses : Refuses file chain size error) :
    Yields base (truncate file size) .empty fun result _ => result = .error error := by
  rw [truncate]
  dsimp only
  have reads {post : Except Error (List ChainBlock) → Writes → Prop} (holds : post (.ok chain) .empty) :
      Yields base (Chain.resolved file) .empty post :=
    yields_resolved positive ((Contents.write_empty base).symm ▸ resolved) holds
  cases refuses with
  | negative low =>
    rw [if_pos low]
    exact .bind (.throw rfl)
  | overflows valid beyond =>
    rw [if_neg (Int64.not_lt.2 valid)]
    refine .bind (reads ?_)
    dsimp only
    rw [total?_of_not_summable beyond]
    exact .throw rfl
  | short valid sums less =>
    rw [if_neg (Int64.not_lt.2 valid)]
    refine .bind (reads ?_)
    dsimp only
    obtain ⟨total, known, exact⟩ := total?_of_summable sums
    rw [known]
    dsimp only
    rw [if_pos (Int64.lt_iff_toInt_lt.2 (exact ▸ less))]
    refine .bind (.throw ?_)
    rw [← exact]
    rfl

theorem yields_truncate (positive : 0 < file) (intact : base.Intact file chain) (valid : 0 ≤ size)
    (sums : Summable chain) (within : size.toInt ≤ sizes chain) :
    Yields base (truncate file size) .empty fun result later => result = .ok () ∧
      base.write later = base.truncated file chain size := by
  rw [truncate]
  dsimp only
  rw [if_neg (Int64.not_lt.2 valid)]
  refine .bind (yields_resolved positive ((Contents.write_empty base).symm ▸ intact.toResolved) ?_)
  dsimp only
  obtain ⟨total, known, exact⟩ := total?_of_summable sums
  rw [known]
  dsimp only
  rw [if_neg (Int64.not_lt.2 (Int64.le_iff_toInt_le.2 (exact ▸ within)))]
  rcases Int64.lt_or_eq_of_le valid with positive | rfl
  · obtain ⟨front, last, residual, back, ends⟩ := exists_ends positive within
    have own : last.block.id = last.entry.blockId := intact.own last (by simp [ends.split])
    rw [if_neg (Int64.ne_of_lt positive).symm, ends.cut?_eq sums]
    dsimp only
    refine .bind (yields_removeBlocks back fun between gone => yields_shorten own fun later same => ⟨rfl, ?_⟩)
    rw [same, gone, Contents.write_empty, Contents.truncated_of_ends sums ends]
    rfl
  · rw [if_pos rfl]
    refine yields_removeBlocks chain fun later gone => ⟨rfl, ?_⟩
    rw [gone, Contents.write_empty, Contents.truncated_zero]

end

theorem run_truncate {engine : Engine} (clear : engine.Clear (truncate file size)) (positive : 0 < file)
    (intact : engine.storage.store.committed.Intact file chain) (valid : 0 ≤ size) (sums : Summable chain)
    (within : size.toInt ≤ sizes chain) :
    (engine.run .never (truncate file size)).1 = .ok () ∧
      (engine.run .never (truncate file size)).2.storage.store.committed =
        engine.storage.store.committed.truncated file chain size := by
  obtain ⟨written, ⟨done, same⟩, ended⟩ :=
    engine.run_yields clear (yields_truncate positive intact valid sums within)
  exact ⟨done, (ended.done () done).trans same⟩

theorem truncate_exact {engine : Engine} {file size : Int64} {chain : List ChainBlock}
    (clear : engine.Clear (truncate file size)) (read : (engine.run .never (resolved file)).1 = .ok chain)
    (distinct : (chain.map fun found => found.entry.blockId).Nodup)
    (own : ∀ found ∈ chain, found.block.id = found.entry.blockId) :
    let before := engine.storage.store.committed
    let result := (engine.run .never (truncate file size)).1
    let later := (engine.run .never (truncate file size)).2
    let after := later.storage.store.committed
    (∀ error, Refuses file chain size error → result = .error error ∧ after = before) ∧
      (0 ≤ size → Summable chain → size.toInt ≤ sizes chain → result = .ok () ∧
        (∃ rest dropped, Remains chain size rest dropped ∧ sizes rest = size.toInt ∧ after.Intact file rest ∧
          (∀ key ∈ keys file dropped, after key.bytes = none) ∧
          ∀ place, place ∉ (keys file dropped).map Key.bytes →
            (∀ last, rest.getLast? = some last → place ≠ (Key.fileBlock file last.index).bytes ∧
              place ≠ (Key.blockMeta last.entry.blockId).bytes) → after place = before place) ∧
        ∀ less, 0 ≤ less → less ≤ size → later.Clear (truncate file less) → engine.Clear (truncate file less) →
          let twice := later.run .never (truncate file less)
          let once := engine.run .never (truncate file less)
          twice.1 = .ok () ∧ once.1 = .ok () ∧
            once.2.storage.store.committed.Matches twice.2.storage.store.committed file ∧
            ((∀ found ∈ chain, before.Tidy file found) →
              twice.2.storage.store.committed = once.2.storage.store.committed)) := by
  intro before result later after
  obtain ⟨positive, known⟩ := resolved_of_run read
  have intact : before.Intact file chain := ⟨known, distinct, own⟩
  refine ⟨fun error refuses => ?_, fun valid sums within => ?_⟩
  · obtain ⟨written, failed, ended⟩ := engine.run_yields clear (yields_truncate_refused positive known refuses)
    exact ⟨failed, ended.failed error failed⟩
  obtain ⟨done, same⟩ := run_truncate clear positive intact valid sums within
  have same : after = before.truncated file chain size := same
  obtain ⟨rest, dropped, remains⟩ := exists_remains valid within
  have left : after.Intact file rest := same ▸ remains.intact sums intact
  refine ⟨done, ⟨rest, dropped, remains, remains.sizes_eq, left, ?_, fun place absent apart => ?_⟩, ?_⟩
  · rw [same]
    exact remains.gone sums intact
  · rw [same]
    exact remains.others sums absent apart
  · intro less valid most further direct twice once
    -- Both ways go by the chain they find: the second truncation finds what the first has left.
    have below := Int64.le_iff_toInt_le.1 most
    have reach : less.toInt ≤ sizes rest := remains.sizes_eq ▸ below
    obtain ⟨again, two⟩ := run_truncate further positive left valid (remains.summable sums) reach
    obtain ⟨first, one⟩ := run_truncate direct positive intact valid sums (by omega)
    refine ⟨again, first, ?_, fun tidy => ?_⟩
    · rw [one, two, show later.storage.store.committed = _ from same]
      exact remains.matches_twice sums intact within valid most
    · rw [one, two, show later.storage.store.committed = _ from same]
      exact remains.twice_of_tidy sums intact tidy within valid most

-- A file of two blocks, with a gap between their indexes.
def gapped : Engine := .holding
  [(.fileBlock 1 0, Record.encode (FileBlock.mk 10 5 11)), (.fileBlock 1 2, Record.encode (FileBlock.mk 11 7 0)),
    (.blockMeta 10, Record.encode ({ id := 10, numberBytes := 5 } : BlockMeta)),
    (.blockMeta 11, Record.encode ({ id := 11, numberBytes := 7 } : BlockMeta)),
    (.blockStorage 10, Record.encode ({ id := 10 } : BlockStorage)),
    (.blockStorage 11, Record.encode ({ id := 11 } : BlockStorage))]

def gappedChain : List ChainBlock :=
  [{ index := 0, entry := FileBlock.mk 10 5 11, block := { id := 10, numberBytes := 5 } },
    { index := 2, entry := FileBlock.mk 11 7 0, block := { id := 11, numberBytes := 7 } }]

theorem truncate_exact_gapped :
    (gapped.run .never (truncate 1 8)).1 = .ok () ∧
      ((gapped.run .never (truncate 1 8)).2.run .never (truncate 1 4)).2.storage.store.committed =
        (gapped.run .never (truncate 1 4)).2.storage.store.committed := by
  have starts (size : Int64) : gapped.Clear (truncate 1 size) := Engine.clear_ofEntries _ (by decide +kernel)
  have further : (gapped.run .never (truncate 1 8)).2.Clear (truncate 1 4) :=
    (starts 8).next (only_truncate 1 8 _ .empty) (by decide +kernel) (by decide +kernel) (by decide +kernel)
      (by decide +kernel)
  have agree : ∀ found ∈ gappedChain, found.entry.numberBytes = found.block.numberBytes := by decide
  have read : (gapped.run .never (resolved 1)).1 = .ok gappedChain := by decide +kernel
  obtain ⟨_, cuts⟩ := truncate_exact (starts 8) read (by decide) (by decide)
  obtain ⟨done, _, again⟩ := cuts (by decide) (by decide +kernel) (by decide +kernel)
  obtain ⟨_, _, _, same⟩ := again 4 (by decide) (by decide) further (starts 4)
  exact ⟨done, same fun found member => .inr (agree found member)⟩

-- A block of ten bytes whose entry says four, and has a byte too many.
def padded : Engine := .holding
  [(.fileBlock 1 0, Record.encode (FileBlock.mk 10 4 0) ++ [255]),
    (.blockMeta 10, Record.encode ({ id := 10, numberBytes := 10 } : BlockMeta)),
    (.blockStorage 10, Record.encode ({ id := 10 } : BlockStorage))]

/-- An entry that says too little grows with the block. It is not written again by one that says the same, but it
is if another was written in between. -/
theorem truncate_twice_padded :
    let chain : List ChainBlock :=
      [{ index := 0, entry := FileBlock.mk 10 4 0, block := { id := 10, numberBytes := 10 } }]
    let twice := (padded.run .never (truncate 1 7)).2.run .never (truncate 1 4)
    let once := padded.run .never (truncate 1 4)
    (padded.run .never (resolved 1)).1 = .ok chain ∧ (chain.map fun found => found.entry.blockId).Nodup ∧
      (∀ found ∈ chain, found.block.id = found.entry.blockId) ∧ (7 : Int64).toInt ≤ sizes chain ∧
      (padded.run .never (truncate 1 7)).2.storage.store.committed (Key.fileBlock 1 0).bytes =
        some (Record.encode (FileBlock.mk 10 7 0)) ∧
      twice.1 = .ok () ∧ once.1 = .ok () ∧
      twice.2.storage.store.committed (Key.fileBlock 1 0).bytes ≠
        once.2.storage.store.committed (Key.fileBlock 1 0).bytes := by
  decide +kernel

end Chain

end FsMeta
