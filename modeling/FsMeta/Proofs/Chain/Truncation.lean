import FsMeta.Chain.Truncation
import FsMeta.Proofs.Chain.Edits

set_option autoImplicit false

namespace FsMeta.Chain

open Scoped (Ensures)

variable {base : Contents} {writes : Writes} {file : Int64} {chain front back : List FileBlock}
variable {last : FileBlock}

structure Resolves (found : ChainBlock) : Prop where
  id : found.block.id = found.entry.blockId
  size : found.block.numberBytes = found.entry.numberBytes
  sized : found.block.info.Sized

theorem ensures_resolve {entry : ChainEntry} (backs : (base.write writes).Backs entry.entry) :
    Ensures base (resolve file entry) writes fun found later =>
      later = writes ∧ found.toChainEntry = entry ∧ Resolves found := by
  obtain ⟨⟨info, held, id, size⟩, _⟩ := backs
  refine .bind (ensures_part fun found known => .bind (ensures_part fun replicas _ => .pure ⟨rfl, rfl, ?_⟩))
  obtain rfl := known.unique held
  obtain ⟨bytes, _, decoded⟩ := held
  have sized : found.Sized := Record.sized_blockMeta decoded
  exact ⟨id, size, sized⟩

theorem ensures_mapM_resolve {elements : List ChainEntry}
    (backs : ∀ entry ∈ elements, (base.write writes).Backs entry.entry) :
    Ensures base (elements.mapM (resolve file)) writes fun found later =>
      later = writes ∧ found.map ChainBlock.toChainEntry = elements ∧ ∀ block ∈ found, Resolves block := by
  induction elements with
  | nil => exact .pure ⟨rfl, rfl, by simp⟩
  | cons entry rest ih =>
    obtain ⟨first, others⟩ := List.forall_mem_cons.1 backs
    rw [List.mapM_cons]
    refine .bind ((ensures_resolve first).mono ?_)
    rintro found _ ⟨rfl, same, resolves⟩
    refine .bind ((ih others).mono ?_)
    rintro more _ ⟨rfl, listed, all⟩
    refine .pure ⟨rfl, by rw [List.map_cons, same, listed], ?_⟩
    rw [List.forall_mem_cons]
    exact ⟨resolves, all⟩

theorem ensures_resolved (stands : (base.write writes).Stands file chain) :
    Ensures base (resolved file) writes fun found later =>
      later = writes ∧ found.map ChainBlock.toChainEntry = numbered 0 chain ∧ ∀ block ∈ found, Resolves block := by
  refine .bind (ensures_entries stands fun _ => ensures_mapM_resolve fun entry member => ?_)
  obtain ⟨place, found, held, rfl⟩ := mem_numbered.1 member
  exact stands.backed found (List.mem_of_getElem? held)

theorem split_numbered {start : Nat} {before after : List ChainEntry} {found : ChainEntry}
    (same : before ++ found :: after = numbered start chain) : ∃ front last back, chain = front ++ last :: back ∧
      before = numbered start front ∧ found = { index := UInt64.ofNat (start + front.length), entry := last } ∧
      after = numbered (start + front.length + 1) back := by
  induction before generalizing start chain with
  | nil =>
    cases chain with
    | nil => cases same
    | cons last back =>
      rw [numbered] at same
      cases same
      exact ⟨[], last, back, rfl, rfl, rfl, rfl⟩
  | cons head rest ih =>
    cases chain with
    | nil => cases same
    | cons first others =>
      rw [numbered, List.cons_append, List.cons.injEq] at same
      obtain ⟨front, last, back, rfl, rfl, rfl, rfl⟩ := ih same.2
      have moved : start + 1 + front.length = start + (first :: front).length := by
        rw [List.length_cons]
        omega
      exact ⟨first :: front, last, back, rfl, by rw [same.1, numbered], by rw [moved], by rw [moved]⟩

def ending (file : Int64) (place : Nat) (terminal : FileBlock) (described : Option BlockMeta) :
    List (Key × Option Bytes) :=
  (.fileBlock file (UInt64.ofNat place), some (Record.encode terminal)) ::
    described.toList.map fun info => (.blockMeta terminal.blockId, some (Record.encode info))

def truncation (file : Int64) (front back : List FileBlock) (terminal : FileBlock)
    (described : Option BlockMeta) : Writes :=
  (Writes.apply .empty (removals file (numbered (front.length + 1) back))).apply
    (ending file front.length terminal described)

structure Terminates (last terminal : FileBlock) (described : Option BlockMeta) : Prop where
  id : terminal.blockId = last.blockId
  ends : terminal.nextBlockId = 0
  size : described = none → terminal.numberBytes = last.numberBytes
  info : ∀ info, described = some info →
    info.id = terminal.blockId ∧ info.numberBytes = terminal.numberBytes ∧ info.Sized

section

variable {terminal : FileBlock} {described : Option BlockMeta}
variable (terminates : Terminates last terminal described)
include terminates

theorem ids_cut : ids (front ++ last :: back) = ids (front ++ [terminal]) ++ ids back := by
  simp [ids, terminates.id]

variable (linked : Linked (front ++ last :: back))
include linked

theorem linked_cut : Linked (front ++ [terminal]) := by
  have nexts := nexts_front linked
  obtain ⟨distinct, positive, _⟩ := linked_iff.1 linked
  rw [ids_cut terminates] at distinct positive
  rw [linked_iff]
  refine ⟨distinct.of_append_left, fun id member => positive id (List.mem_append_left _ member), ?_⟩
  have split : (ids (front ++ [terminal]) ++ [0]).tail = (ids front ++ [last.blockId]).tail ++ [0] := by
    rw [← List.tail_append_of_ne_nil (by simp)]
    simp [ids, terminates.id]
  rw [split, ← nexts]
  simp [terminates.ends]

omit terminates in
theorem touch_truncation_entry {index : UInt64} :
    (truncation file front back terminal described).Touch (.fileBlock file index) ↔
      front.length ≤ index.toNat ∧ index.toNat < (front ++ last :: back).length := by
  have bound := linked.length_lt
  rw [List.length_append, List.length_cons] at bound ⊢
  rw [truncation, Writes.touch_apply, touch_removals_entry (by omega)]
  have first : (∃ value, (Key.fileBlock file index, value) ∈ ending file front.length terminal described) ↔
      index.toNat = front.length := by
    rw [← ofNat_eq_iff (by omega)]
    simp [ending]
  rw [first]
  omega

omit linked in
theorem id_of_parts_truncation {id : Int64} (parts : Parts (truncation file front back terminal described) id) :
    id ∈ ids (last :: back) := by
  have own : terminal.blockId ∈ ids (last :: back) := by simp [ids, terminates.id]
  have behind (removed : Parts (.apply .empty (removals file (numbered (front.length + 1) back))) id) :
      id ∈ ids (last :: back) := List.mem_cons_of_mem _ (touch_removals_parts removed)
  rcases parts with touch | touch
  · rcases Writes.touch_apply.1 touch with ⟨value, member⟩ | removed
    · have known : ∃ info, described = some info ∧ terminal.blockId = id ∧ some (Record.encode info) = value := by
        simpa [ending] using member
      obtain ⟨_, _, rfl, _⟩ := known
      exact own
    · exact behind (.inl removed)
  · rcases Writes.touch_apply.1 touch with ⟨value, member⟩ | removed
    · simp [ending] at member
    · exact behind (.inr removed)

omit terminates in
theorem place_of_id {place : Nat} {id : Int64} (held : (ids (front ++ last :: back))[place]? = some id)
    (member : id ∈ ids (last :: back)) : front.length ≤ place := by
  by_contra before
  have distinct := linked.distinct
  rw [ids, List.map_append, List.nodup_append] at distinct
  rw [ids, List.map_append, List.getElem?_append_left (by rw [List.length_map]; omega)] at held
  exact distinct.2.2 id (List.mem_of_getElem? held) id member rfl

omit terminates linked in
theorem find?_truncation_info {info : BlockMeta} (resized : described = some info) :
    (truncation file front back terminal described).find? (Key.blockMeta terminal.blockId).bytes =
      some (some (Record.encode info)) := by
  refine Writes.find?_apply_of_mem (by simp [ending, resized]) fun value member => ?_
  simpa [ending, resized, eq_comm] using member

theorem backs_truncation (before : base.Stands file (front ++ last :: back)) :
    (base.write (truncation file front back terminal described)).Backs terminal := by
  have backs : base.Backs last := before.backed last (by simp)
  have apart : ¬ Parts (.apply .empty (removals file (numbered (front.length + 1) back))) last.blockId := by
    intro parts
    have distinct := linked.distinct
    rw [ids, List.map_append, List.nodup_append, List.map_cons, List.nodup_cons] at distinct
    exact distinct.2.1.1 (touch_removals_parts parts)
  obtain ⟨noInfo, noReplicas⟩ := not_or.1 apart
  have placed : ¬ (truncation file front back terminal described).Touch (.blockStorage last.blockId) := by
    rw [truncation, Writes.touch_apply]
    rintro (⟨value, member⟩ | removed)
    · simp [ending] at member
    · exact noReplicas removed
  cases resized : described with
  | none =>
    have kept : ¬ (truncation file front back terminal none).Touch (.blockMeta last.blockId) := by
      rw [truncation, Writes.touch_apply]
      rintro (⟨value, member⟩ | removed)
      · simp [ending] at member
      · exact noInfo removed
    exact (backs.of_not_touch kept (resized ▸ placed)).congr terminates.id (terminates.size resized)
  | some info =>
    obtain ⟨id, size, sized⟩ := terminates.info info resized
    obtain ⟨_, replicas, stored⟩ := backs
    constructor
    · refine ⟨info, ⟨_, ?_, Record.decode_encode_blockMeta sized⟩, id, size⟩
      rw [Contents.write_apply, find?_truncation_info rfl]
      rfl
    · refine ⟨replicas, ?_⟩
      rwa [terminates.id, Contents.Holds, Contents.write_of_not_touch (resized ▸ placed)]

omit linked in
theorem concerns_of_truncation {bytes : Bytes}
    (written : ((truncation file front back terminal described).find? bytes).isSome) :
    ∃ key : Key, key.bytes = bytes ∧ Concerns file (ids (front ++ last :: back)) key := by
  rcases Writes.exists_of_find?_apply written with ⟨⟨key, value⟩, member, same⟩ | removed
  · refine ⟨key, same, ?_⟩
    rcases List.mem_cons.1 member with first | described
    · cases first
      rfl
    · obtain ⟨info, _, same⟩ := List.mem_map.1 described
      cases same
      change terminal.blockId ∈ ids (front ++ last :: back)
      simp [ids, terminates.id]
  · obtain ⟨key, same, concerns⟩ := concerns_of_removals removed
    refine ⟨key, same, concerns.mono ?_⟩
    rw [ids_cut terminates]
    exact List.subset_append_right _ _

omit terminates in
theorem find?_truncation_entry {index : UInt64} (touch : front.length ≤ index.toNat ∧
    index.toNat < (front ++ last :: back).length) :
    (truncation file front back terminal described).find? (Key.fileBlock file index).bytes =
      some ((front ++ [terminal])[index.toNat]?.map Record.encode) := by
  have bound := linked.length_lt
  have length : (front ++ last :: back).length = front.length + back.length + 1 := List.length_append
  have same : index = UInt64.ofNat front.length ↔ index.toNat = front.length := ofNat_eq_iff (by omega)
  by_cases here : index.toNat = front.length
  · rw [here, List.getElem?_concat_length]
    refine Writes.find?_apply_of_mem (by simp [ending, same.2 here]) fun value member => ?_
    simpa [ending, same.2 here] using member
  · have absent : ∀ edit ∈ ending file front.length terminal described,
        edit.1.bytes ≠ (Key.fileBlock file index).bytes := by
      intro edit member
      rw [ne_eq, Key.bytes_inj]
      rcases List.mem_cons.1 member with rfl | described
      · simpa [eq_comm, same] using here
      · obtain ⟨info, _, rfl⟩ := List.mem_map.1 described
        simp
    rw [truncation, Writes.find?_apply_of_not_mem absent, List.getElem?_eq_none (by simp; omega)]
    exact find?_removals ((touch_removals_entry (by omega)).2 (by omega))

theorem edited_truncation (before : base.Stands file (front ++ last :: back)) :
    Edited base file (front ++ last :: back) (front ++ [terminal])
      (truncation file front back terminal described) := by
  have order : ids (front ++ last :: back) = ids (front ++ [terminal]) ++ ids back := ids_cut terminates
  have touches (index : UInt64) :
      (truncation file front back terminal described).Touch (.fileBlock file index) ↔
        front.length ≤ index.toNat ∧ index.toNat < (front ++ last :: back).length := touch_truncation_entry linked
  have kept {place : Nat} {id : Int64} (held : (ids (front ++ [terminal]))[place]? = some id) :
      (ids (front ++ last :: back))[place]? = some id := by
    obtain ⟨within, _⟩ := List.getElem?_eq_some_iff.1 held
    rwa [order, List.getElem?_append_left within]
  apply edited_of_touched before (linked_cut terminates linked)
  · intro bytes written
    obtain ⟨key, same, concerns⟩ := concerns_of_truncation terminates written
    exact ⟨key, same, concerns.mono (List.subset_append_left _ _)⟩
  · right
    have bound := linked.length_lt
    rw [guardKey, touches, UInt64.toNat_ofNat_of_lt' (by omega)]
    simp
  · intro index id known parts
    have held := known.elim (fun held => held) kept
    obtain ⟨within, _⟩ := List.getElem?_eq_some_iff.1 held
    rw [length_ids] at within
    rw [touches]
    exact ⟨place_of_id linked held (id_of_parts_truncation terminates parts), within⟩
  · exact fun index id held new => absurd (kept held) new
  · intro index untouched
    rw [touches] at untouched
    rcases Nat.lt_or_ge index.toNat front.length with within | beyond
    · rw [List.getElem?_append_left within, List.getElem?_append_left within]
    · have length : (front ++ last :: back).length = front.length + back.length + 1 := List.length_append
      rw [List.getElem?_eq_none (by simp; omega), List.getElem?_eq_none (by omega)]
  · intro index touch
    rw [Contents.write_apply, find?_truncation_entry linked ((touches index).1 touch)]
    rfl
  · intro index entry touch held
    have place := ((touches index).1 touch).1
    rw [List.getElem?_append_right place] at held
    obtain rfl : entry = terminal := by simpa using List.mem_of_getElem? held
    exact backs_truncation terminates linked before

end

theorem nil_of_next_eq_zero (linked : Linked (front ++ last :: back)) (ends : last.nextBlockId = 0) :
    back = [] := by
  cases back with
  | nil => rfl
  | cons next rest =>
    have follows := linked.follows front.length last (by simp)
    rw [ends, idAt, getElem?_ids] at follows
    have positive := linked.positive next.blockId (by simp [ids])
    have zero : 0 = next.blockId := by simpa using follows
    exact absurd positive (zero ▸ Int64.lt_irrefl)

/-- The last block may end where it did before: then there is nothing behind it, and nothing is written. -/
theorem ensures_shorten {found : ChainBlock} {residual : Int64}
    (before : base.Stands file (front ++ last :: back)) (resolves : Resolves found)
    (here : found.toChainEntry = { index := UInt64.ofNat front.length, entry := last }) :
    Ensures base (shorten file found residual) (.apply .empty (removals file (numbered (front.length + 1) back)))
      fun _ later => ∃ next, Edited base file (front ++ last :: back) next later ∧
        ids next ⊆ ids (front ++ last :: back) := by
  obtain ⟨place, own⟩ : found.index = UInt64.ofNat front.length ∧ found.entry = last := by
    constructor
    · exact congrArg ChainEntry.index here
    · exact congrArg ChainEntry.entry here
  have id := own ▸ resolves.id
  have size := own ▸ resolves.size
  let terminal : FileBlock := { blockId := found.block.id, numberBytes := residual, nextBlockId := 0 }
  have cut {described : Option BlockMeta} (terminates : Terminates last terminal described) :
      ∃ next, Edited base file (front ++ last :: back) next (truncation file front back terminal described) ∧
        ids next ⊆ ids (front ++ last :: back) := by
    refine ⟨front ++ [terminal], edited_truncation terminates before.linked before, ?_⟩
    rw [ids_cut terminates]
    exact List.subset_append_left _ _
  rw [shorten, place, own]
  dsimp only
  -- The entry is written if it changes, and the meta only if the entry was and its size differs.
  split
  · refine .bind (.put ?_)
    split
    · let resized : BlockMeta := { found.block.info with numberBytes := residual }
      have terminates : Terminates last terminal (some resized) := by
        refine ⟨id, rfl, fun missing => (by cases missing), fun info same => ?_⟩
        cases same
        exact ⟨rfl, rfl, resolves.sized⟩
      exact .put (cut terminates)
    · rename_i same
      have terminates : Terminates last terminal none := by
        refine ⟨id, rfl, fun _ => ?_, fun info same => (by cases same)⟩
        exact (not_not.1 same).symm.trans size
      exact .pure (cut terminates)
  · rename_i same
    have ends : terminal = last := not_not.1 same
    have kept : found.block.numberBytes = residual := size.trans (congrArg FileBlock.numberBytes ends).symm
    obtain rfl := nil_of_next_eq_zero before.linked (congrArg FileBlock.nextBlockId ends).symm
    rw [if_neg (not_not_intro kept)]
    exact .pure ⟨_, edited_empty before, List.Subset.refl _⟩

theorem ensures_truncate {size : Int64} (before : base.Stands file chain) :
    Ensures base (truncate file size) .empty fun _ later =>
      ∃ next, Edited base file chain next later ∧ ids next ⊆ ids chain := by
  rw [truncate]
  dsimp only
  split
  · exact .bind .throw
  · refine .bind ((ensures_resolved ((Contents.write_empty base).symm ▸ before)).mono ?_)
    rintro found _ ⟨rfl, listed, resolves⟩
    split
    · split
      · exact .bind .throw
      · split
        · refine ensures_removeAll ChainBlock.toChainEntry found ?_
          rw [listed]
          exact ⟨[], edited_removed before, List.nil_subset _⟩
        · split
          · rename_i cut cuts
            obtain ⟨others, rfl⟩ := split_of_cut? cuts
            rw [List.map_append, List.map_cons] at listed
            obtain ⟨front, last, back, rfl, _, here, behind⟩ := split_numbered listed
            rw [Nat.zero_add] at here behind
            refine .bind (ensures_removeAll ChainBlock.toChainEntry cut.dropped ?_)
            rw [behind]
            exact ensures_shorten before (resolves cut.last (by simp)) here
          · exact .throw
    · exact .throw

end FsMeta.Chain
