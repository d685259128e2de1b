import FsMeta.Proofs.Chain.Shortening
import FsMeta.Proofs.Service.Updating
import Mathlib.Data.List.DropRight

set_option autoImplicit false

namespace FsMeta

def ChainBlock.ending (found : ChainBlock) : ChainBlock := { found with entry := { found.entry with nextBlockId := 0 } }

namespace Chain

variable {chain front back rest dropped : List ChainBlock} {last : ChainBlock} {size residual : Int64}

def hollow (found : ChainBlock) : Bool := found.block.numberBytes == 0

def Agrees (chain : List ChainBlock) : Prop :=
  ∀ found ∈ chain, 0 ≤ found.block.numberBytes ∧ found.entry.numberBytes = found.block.numberBytes

theorem hollow_iff {found : ChainBlock} : hollow found = true ↔ found.block.numberBytes = 0 := beq_iff_eq

theorem cutTo_whole (agrees : last.entry.numberBytes = last.block.numberBytes) :
    last.cutTo last.block.numberBytes = last.ending := by
  obtain ⟨⟨index, id, size, next⟩, block⟩ := last
  obtain rfl : size = block.numberBytes := agrees
  rfl

theorem Agrees.sizes_nonneg (agrees : Agrees chain) : 0 ≤ sizes chain := by
  induction chain with
  | nil => exact Int.le_refl _
  | cons head rest ih =>
    obtain ⟨⟨valid, _⟩, others⟩ := List.forall_mem_cons.1 agrees
    have here := Int64.le_iff_toInt_le.1 valid
    have behind := ih others
    rw [sizes_cons]
    exact Int.add_nonneg here behind

theorem Agrees.hollow_of_sizes (agrees : Agrees chain) (flat : sizes chain ≤ 0) :
    ∀ found ∈ chain, hollow found = true := by
  induction chain with
  | nil => simp
  | cons head rest ih =>
    obtain ⟨⟨valid, _⟩, others⟩ := List.forall_mem_cons.1 agrees
    have here := Int64.le_iff_toInt_le.1 valid
    have behind := Agrees.sizes_nonneg others
    rw [sizes_cons] at flat
    rw [Int64.toInt_zero] at here
    refine List.forall_mem_cons.2 ⟨hollow_iff.2 (Int64.toInt_inj.1 ?_), ih others (by omega)⟩
    rw [Int64.toInt_zero]
    omega

theorem Agrees.summable (agrees : Agrees chain) (sum : sizes chain = size.toInt) : Summable chain := by
  rintro fewer ⟨more, rfl⟩
  have front := Agrees.sizes_nonneg fun found member => agrees found (List.mem_append_left more member)
  have behind := Agrees.sizes_nonneg fun found member => agrees found (List.mem_append_right fewer member)
  have most := size.toInt_lt
  rw [sizes_append] at sum
  simp only [fits, Bool.and_eq_true, decide_eq_true_eq, Int64.toInt_minValue, Int64.toInt_maxValue]
  omega

theorem Ends.whole (ends : Ends chain size front last residual back) (agrees : Agrees chain)
    (sum : sizes chain = size.toInt) : residual = last.block.numberBytes ∧ ∀ found ∈ back, hollow found = true := by
  have exact := ends.exact
  have bound := Int64.le_iff_toInt_le.1 ends.bound
  rw [ends.split] at agrees sum
  have behind : Agrees back := fun found member => agrees found (by simp [member])
  have least := behind.sizes_nonneg
  rw [sizes_append, sizes_cons] at sum
  exact ⟨Int64.toInt_inj.1 (by omega), behind.hollow_of_sizes (by omega)⟩

theorem trim_eq (front : List ChainBlock) (behind : ∀ found ∈ back, hollow found = true)
    (solid : ¬ hollow last = true) : (front ++ last :: back).rdropWhile hollow = front ++ [last] ∧
      (front ++ last :: back).rtakeWhile hollow = back := by
  -- The blocks are dropped from the end, so the induction starts there.
  induction back using List.reverseRecOn with
  | nil => exact ⟨List.rdropWhile_concat_neg _ _ _ solid, List.rtakeWhile_concat_neg _ _ _ solid⟩
  | append_singleton back final ih =>
    have empty := behind final (by simp)
    obtain ⟨kept, gone⟩ := ih fun found member => behind found (List.mem_append_left _ member)
    rw [← List.cons_append, ← List.append_assoc, List.rdropWhile_concat_pos _ _ _ empty, kept,
      List.rtakeWhile_concat_pos _ _ _ empty, gone]
    exact ⟨rfl, rfl⟩

theorem Remains.trimmed (remains : Remains chain size rest dropped) (agrees : Agrees chain)
    (sum : sizes chain = size.toInt) :
    rest = (chain.rdropWhile hollow).modifyLast ChainBlock.ending ∧ dropped = chain.rtakeWhile hollow := by
  cases remains with
  | nothing zero =>
    have all := agrees.hollow_of_sizes (by rw [sum, zero]; exact Int.le_refl 0)
    rw [List.rdropWhile_eq_nil_iff.2 all, List.rtakeWhile_eq_self_iff.2 all]
    exact ⟨rfl, rfl⟩
  | @upTo front last residual back ends =>
    obtain ⟨rfl, behind⟩ := ends.whole agrees sum
    have solid : ¬ hollow last = true := fun empty => Int64.ne_of_lt ends.positive (hollow_iff.1 empty).symm
    obtain ⟨kept, gone⟩ := trim_eq front behind solid
    rw [ends.split, kept, gone, List.modifyLast_concat, cutTo_whole (agrees last (by simp [ends.split])).2]
    exact ⟨rfl, rfl⟩

end Chain

namespace Contents

open Chain (Agrees Remains hollow keys sizes)

variable {base : Contents} {file size : Int64} {chain rest dropped : List ChainBlock}

theorem truncated_other (remains : Remains chain size rest dropped) (agrees : Agrees chain)
    (sum : sizes chain = size.toInt) {place : Bytes} (absent : place ∉ (keys file dropped).map Key.bytes)
    (apart : ∀ last, rest.getLast? = some last → place ≠ (Key.fileBlock file last.index).bytes) :
    base.truncated file chain size place = base place := by
  cases remains with
  | nothing zero => rw [zero, truncated_zero, erase_of_not_mem absent]
  | @upTo front last residual back ends =>
    obtain ⟨rfl, _⟩ := ends.whole agrees sum
    have entry : place ≠ (Key.fileBlock file last.index).bytes :=
      apart (last.cutTo last.block.numberBytes) List.getLast?_concat
    have info : (last.cutTo last.block.numberBytes).block.info = last.block.info := rfl
    rw [truncated_of_ends (agrees.summable sum) ends, cut, info, revise, if_pos rfl, revise_other entry,
      erase_of_not_mem absent]

theorem truncated_same (remains : Remains chain size rest []) (agrees : Agrees chain) (sum : sizes chain = size.toInt)
    (linked : Chain.Linked (chain.map fun found => found.entry)) : base.truncated file chain size = base := by
  cases remains with
  | nothing zero =>
    rw [zero, truncated_zero]
    rfl
  | @upTo front last residual _ ends =>
    obtain ⟨rfl, _⟩ := ends.whole agrees sum
    have held : (chain.map fun found => found.entry)[front.length]? = some last.entry := by simp [ends.split]
    have final : last.entry.nextBlockId = 0 := by
      rw [linked.follows _ _ held, ends.split]
      simp [Chain.idAt, Chain.ids]
    have entry : (last.cutTo last.block.numberBytes).entry = last.entry := by
      rw [Chain.cutTo_whole (agrees last (by simp [ends.split])).2, ChainBlock.ending, ← final]
    have info : (last.cutTo last.block.numberBytes).block.info = last.block.info := rfl
    rw [truncated_of_ends (agrees.summable sum) ends, cut, info, entry, revise, if_pos rfl, revise, if_pos rfl]
    rfl

structure Trimmed (before after : Contents) (file : Int64) (chain : List ChainBlock) : Prop where
  left : after.Intact file ((chain.rdropWhile hollow).modifyLast ChainBlock.ending)
  gone : ∀ key ∈ keys file (chain.rtakeWhile hollow), after key.bytes = none
  others : ∀ place, place ∉ (keys file (chain.rtakeWhile hollow)).map Key.bytes →
    (∀ last, (chain.rdropWhile hollow).getLast? = some last → place ≠ (Key.fileBlock file last.index).bytes) →
      after place = before place
  same_iff : after = before ↔ ∀ last, chain.getLast? = some last → last.block.numberBytes ≠ 0

theorem Intact.trimmed (intact : base.Intact file chain) (linked : Chain.Linked (chain.map fun found => found.entry))
    (agrees : Agrees chain) (sum : sizes chain = size.toInt) :
    base.Trimmed (base.truncated file chain size) file chain := by
  have valid : 0 ≤ size := Int64.le_iff_toInt_le.2 (sum ▸ agrees.sizes_nonneg)
  obtain ⟨rest, dropped, remains⟩ := Chain.exists_remains valid (Int.le_of_eq sum.symm)
  obtain ⟨left, tail⟩ := remains.trimmed agrees sum
  have sums := agrees.summable sum
  have gone : ∀ key ∈ keys file (chain.rtakeWhile hollow), base.truncated file chain size key.bytes = none :=
    tail ▸ remains.gone sums intact
  refine ⟨left ▸ remains.intact sums intact, gone, fun place absent apart => ?_, fun same last final bare => ?_,
    fun solid => ?_⟩
  · refine truncated_other remains agrees sum (tail ▸ absent) fun last final => ?_
    rw [left, getLast?_modifyLast] at final
    obtain ⟨found, listed, rfl⟩ := Option.map_eq_some_iff.1 final
    exact apart found listed
  · -- An empty block at the end was stored, and it is gone.
    obtain ⟨front, rfl⟩ := List.getLast?_eq_some_iff.1 final
    have among : last ∈ (front ++ [last]).rtakeWhile hollow := by
      rw [List.rtakeWhile_concat_pos _ _ _ (Chain.hollow_iff.2 bare)]
      simp
    have lost := gone _ (Chain.entry_mem_keys.2 ⟨rfl, last, among, rfl⟩)
    have held := intact.lists.entries last.toChainEntry (by simp)
    rw [same] at lost
    exact not_holds_of_absent lost _ held
  · have nothing : dropped = [] := by
      rw [tail, List.rtakeWhile_eq_nil_iff]
      exact fun filled empty => solid _ (List.getLast?_eq_some_getLast filled) (Chain.hollow_iff.1 empty)
    exact truncated_same (nothing ▸ remains) agrees sum linked

end Contents

namespace Service

variable {service : Service} {id size : Int64} {node : INode} {chain : List ChainBlock}

theorem run_truncateFile (available : service.availability = .available)
    (clear : service.engine.Clear (shortenFile id size)) (positive : 0 < id)
    (held : (calls.contents service).Holds (.inode id) node) (kind : node.kind = .file)
    (intact : (calls.contents service).Intact id chain) (valid : 0 ≤ size) (sums : Chain.Summable chain)
    (within : size.toInt ≤ Chain.sizes chain) :
    (service.run .never (truncateFile id size)).1 = .ok () ∧
      calls.contents (service.run .never (truncateFile id size)).2 =
        (calls.contents service).truncated id chain size := by
  obtain ⟨_, ⟨done, same⟩, ended⟩ := service.engine.run_yields clear
    (yields_file positive held kind (Chain.yields_truncate positive intact valid sums within))
  rw [truncateFile, run_available available]
  exact ⟨done, (ended.done () done).trans same⟩

theorem truncate_total (available : service.availability = .available)
    (clear : service.engine.Clear (shortenFile id size)) (held : (calls.contents service).Holds (.inode id) node)
    (kind : node.kind = .file) (read : (service.engine.run .never (Chain.resolved id)).1 = .ok chain)
    (linked : Chain.Linked (chain.map fun found => found.entry))
    (own : ∀ found ∈ chain, found.block.id = found.entry.blockId) (agrees : Chain.Agrees chain)
    (sum : Chain.sizes chain = size.toInt) :
    let truncated := service.run .never (truncateFile id size)
    truncated.1 = .ok () ∧ (calls.contents service).Trimmed (calls.contents truncated.2) id chain := by
  intro truncated
  obtain ⟨positive, resolved⟩ := Chain.resolved_of_run read
  have distinct : (chain.map fun found => found.entry.blockId).Nodup := by
    have ids := linked.distinct
    rwa [Chain.ids, List.map_map] at ids
  have intact : (calls.contents service).Intact id chain := ⟨resolved, distinct, own⟩
  have valid : 0 ≤ size := Int64.le_iff_toInt_le.2 (sum ▸ agrees.sizes_nonneg)
  obtain ⟨done, same⟩ := run_truncateFile available clear positive held kind intact valid (agrees.summable sum)
    (Int.le_of_eq sum.symm)
  refine ⟨done, ?_⟩
  rw [same]
  exact intact.trimmed linked agrees sum

-- A file of one block, and another one that has just been allocated behind it.
def spare : Service where
  engine := .holding
    [(.inode 1, Record.encode (plainFile 1 9 "a")), (.child 9 "a", Record.encode (ChildLink.mk 1)),
      (.fileBlock 1 0, Record.encode (FileBlock.mk 10 5 11)), (.fileBlock 1 1, Record.encode (FileBlock.mk 11 0 0)),
      (.blockMeta 10, Record.encode ({ id := 10, numberBytes := 5 } : BlockMeta)),
      (.blockMeta 11, Record.encode ({ id := 11 } : BlockMeta)),
      (.blockStorage 10, Record.encode ({ id := 10 } : BlockStorage)),
      (.blockStorage 11, Record.encode ({ id := 11 } : BlockStorage))]

def spareChain : List ChainBlock :=
  [{ index := 0, entry := FileBlock.mk 10 5 11, block := { id := 10, numberBytes := 5 } },
    { index := 1, entry := FileBlock.mk 11 0 0, block := { id := 11 } }]

theorem linked_spare : Chain.Linked (spareChain.map fun found => found.entry) :=
  Chain.linked_iff.2 (by simp [Chain.ids, spareChain])

theorem truncate_total_spare :
    let truncated := spare.run .never (truncateFile 1 5)
    truncated.1 = .ok () ∧ (calls.contents spare).Trimmed (calls.contents truncated.2) 1 spareChain := by
  have held : (calls.contents spare).Holds (.inode 1) (plainFile 1 9 "a") :=
    ⟨_, by decide +kernel, Record.decode_encode_inode ⟨by decide, by decide, by decide⟩⟩
  exact truncate_total rfl (Engine.clear_ofEntries _ (by decide +kernel)) held rfl (by decide +kernel)
    linked_spare (by decide) (by simp [Chain.Agrees, spareChain]) (by decide +kernel)

/-- The chain is linked from end to end, and its sizes are those of its blocks. Still the second block is gone once
the file was truncated to its own size, and the first one does not name it any more. -/
theorem truncate_total_drops :
    let chain := spareChain
    let truncated := spare.run .never (truncateFile 1 5)
    (spare.engine.run .never (Chain.resolved 1)).1 = .ok chain ∧
      chain.map ChainBlock.toChainEntry = Chain.numbered 0 (chain.map fun found => found.entry) ∧
      Chain.Linked (chain.map fun found => found.entry) ∧
      (∀ found ∈ chain, found.block.id = found.entry.blockId) ∧ Chain.Agrees chain ∧
      Chain.sizes chain = (5 : Int64).toInt ∧ truncated.1 = .ok () ∧
      (calls.contents spare (Key.fileBlock 1 1).bytes).isSome ∧
      calls.contents truncated.2 (Key.fileBlock 1 1).bytes = none ∧
      calls.contents truncated.2 (Key.blockMeta 11).bytes = none ∧
      calls.contents truncated.2 (Key.blockStorage 11).bytes = none ∧
      calls.contents truncated.2 (Key.fileBlock 1 0).bytes = some (Record.encode (FileBlock.mk 10 5 0)) := by
  intro chain truncated
  refine ⟨by decide +kernel, by decide, linked_spare, by decide, by simp [Chain.Agrees, chain, spareChain], ?_⟩
  decide +kernel

end Service

end FsMeta
