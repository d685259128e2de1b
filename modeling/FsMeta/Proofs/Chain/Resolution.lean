import FsMeta.Chain.Block
import FsMeta.Proofs.Chain.Erasure
import FsMeta.Proofs.Service.Atomicity

set_option autoImplicit false

namespace FsMeta

theorem Block.ofParts_info {block : Block} {replicas : BlockStorage} (same : replicas.nodes = block.storage) :
    Block.ofParts block.info replicas = block := by
  rw [ofParts, same]
  rfl

def ChainEntry.keys (file : Int64) (entry : ChainEntry) : List Key :=
  [.fileBlock file entry.index, .blockMeta entry.entry.blockId, .blockStorage entry.entry.blockId]

namespace Contents

structure Describes (contents : Contents) (found : ChainBlock) : Prop where
  info : contents.Holds (.blockMeta found.entry.blockId) found.block.info
  replicas : ∃ replicas : BlockStorage, contents.Holds (.blockStorage found.entry.blockId) replicas ∧
    replicas.nodes = found.block.storage

structure Resolved (contents : Contents) (file : Int64) (chain : List ChainBlock) : Prop where
  lists : contents.Lists file (chain.map ChainBlock.toChainEntry)
  describes : ∀ found ∈ chain, contents.Describes found

def erase (contents : Contents) (keys : List Key) : Contents :=
  fun key => if key ∈ keys.map Key.bytes then none else contents key

/-- One record is exchanged for another. It is not written again if it stays the same. -/
def revise {α : Type} [Record α] [DecidableEq α] (contents : Contents) (key : Key) (old new : α) : Contents :=
  if new = old then contents else contents.put key (some (Record.encode new))

section

variable {contents : Contents} {keys : List Key} {key : Key} {place : Bytes}

theorem erase_of_mem (member : key ∈ keys) : contents.erase keys key.bytes = none :=
  if_pos (List.mem_map_of_mem member)

theorem erase_of_not_mem (absent : place ∉ keys.map Key.bytes) : contents.erase keys place = contents place :=
  if_neg absent

@[simp] theorem mem_map_bytes : key.bytes ∈ keys.map Key.bytes ↔ key ∈ keys :=
  List.mem_map_of_injective fun _ _ => Key.bytes_injective

theorem of_erase {bytes : Bytes} (held : contents.erase keys place = some bytes) : contents place = some bytes := by
  rw [erase] at held
  split at held
  · cases held
  · exact held

theorem erase_put_none (contents : Contents) (key : Key) (rest : List Key) :
    (contents.put key none).erase rest = contents.erase (key :: rest) := by
  funext place
  simp only [erase, put, List.map_cons, List.mem_cons]
  split
  · rename_i member
    rw [if_pos (.inr member)]
  · rename_i absent
    simp only [absent, or_false]

theorem erase_erase (contents : Contents) (keys more : List Key) :
    (contents.erase keys).erase more = contents.erase (keys ++ more) := by
  funext place
  simp only [erase, List.map_append, List.mem_append]
  by_cases one : place ∈ keys.map Key.bytes
  · simp only [one, true_or, if_true, ite_self]
  · simp only [one, false_or, if_false]

theorem erase_congr {more : List Key} (same : ∀ key, key ∈ keys ↔ key ∈ more) :
    contents.erase keys = contents.erase more := by
  funext place
  simp only [erase, List.mem_map, same]

theorem erase_put (member : key ∈ keys) (value : Option Bytes) :
    (contents.put key value).erase keys = contents.erase keys := by
  funext place
  rw [erase, erase]
  split
  · rfl
  · rename_i absent
    rw [put, if_neg]
    rintro rfl
    exact absent (mem_map_bytes.2 member)

end

section

variable {contents : Contents} {α : Type} [Record α] [DecidableEq α] {keys : List Key} {key other : Key}
variable {old between new : α} {place : Bytes}

theorem erase_revise (member : key ∈ keys) (old new : α) :
    (contents.revise key old new).erase keys = contents.erase keys := by
  rw [revise]
  split
  · rfl
  · exact erase_put member _

theorem revise_apply (contents : Contents) (key : Key) (old new : α) (place : Bytes) :
    contents.revise key old new place =
      if new ≠ old ∧ place = key.bytes then some (Record.encode new) else contents place := by
  rw [revise]
  split
  · rename_i same
    rw [if_neg fun both => both.1 same]
  · rename_i differ
    simp only [put, ne_eq, differ, not_false_eq_true, true_and]

theorem revise_other (differ : place ≠ key.bytes) (old new : α) :
    contents.revise key old new place = contents place := by
  rw [revise_apply, if_neg fun both => differ both.2]

theorem holds_revise (held : contents.Holds key old) (restores : Record.decode (Record.encode new) = .ok new) :
    (contents.revise key old new).Holds key new := by
  rw [revise]
  split
  · rename_i same
    exact same ▸ held
  · exact holds_put_self restores

theorem revise_comm {β : Type} [Record β] [DecidableEq β] (differ : key ≠ other) (old new : α) (first last : β) :
    (contents.revise key old new).revise other first last = (contents.revise other first last).revise key old new := by
  have apart : key.bytes ≠ other.bytes := by simpa using differ
  funext place
  by_cases here : place = key.bytes
  · simp [revise_apply, here, apart]
  · simp [revise_apply, here]

/-- The step between is not seen, unless it was all that made the record be written. -/
theorem revise_revise (seen : new = old → contents key.bytes = some (Record.encode new) ∨ between = old) :
    (contents.revise key old between).revise key between new = contents.revise key old new := by
  funext place
  by_cases here : place = key.bytes
  · subst here
    by_cases same : new = old
    · rcases seen same with written | stayed
      · simp only [revise_apply, same, and_true]
        split <;> simp_all
      · simp [revise_apply, same, stayed]
    · by_cases again : new = between
      · subst again
        simp [revise_apply]
      · simp [revise_apply, same, again]
  · simp [revise_apply, here]

end

theorem Lists.changed {before after : Contents} {file : Int64} {found next : List ChainEntry}
    (lists : before.Lists file found) (ascending : next.Pairwise fun one two => one.index < two.index)
    (entries : ∀ entry ∈ next, after.Holds (.fileBlock file entry.index) entry.entry)
    (known : ∀ key, (Key.fileBlocks file).isPrefixOf key = true → (after key).isSome →
      (before key).isSome ∨ ∃ entry ∈ next, key = (Key.fileBlock file entry.index).bytes)
    (gone : ∀ entry ∈ found, (∀ other ∈ next, other.index ≠ entry.index) →
      after (Key.fileBlock file entry.index).bytes = none) : after.Lists file next where
  ascending := ascending
  entries := entries
  keyed := by
    intro key written begins
    rcases known key begins written with stored | listed
    · obtain ⟨entry, member, rfl⟩ := lists.keyed key stored begins
      by_contra absent
      rw [gone entry member fun other among same => absent ⟨other, among, by rw [same]⟩] at written
      cases written
    · exact listed

end Contents

def Engine.holding (records : List (Key × Bytes)) : Engine :=
  let operations := records.map fun (key, value) => Journal.Operation.put key.bytes value
  .ofStore (.ofEntries [{ lsn := 1, commitTime := 1, timestamp := 0, operations }])

theorem Engine.exists_of_holding {records : List (Key × Bytes)} {place bytes : Bytes}
    (held : (holding records).storage.store.committed place = some bytes) :
    ∃ key, (key, bytes) ∈ records ∧ key.bytes = place := by
  have loaded : (holding records).storage.store.committed =
      (records.map fun (key, value) => Journal.Operation.put key.bytes value).foldl Contents.operate .empty := by
    rw [holding, ofStore, Store.committed, Store.readAt_ofEntries _ (UInt64.le_refl _), Contents.replay]
    simp
  rw [loaded] at held
  clear loaded
  induction records using List.reverseRecOn with
  | nil => cases held
  | append_singleton records last ih =>
    obtain ⟨key, value⟩ := last
    rw [List.map_append, List.foldl_append] at held
    simp only [List.map_cons, List.map_nil, List.foldl_cons, List.foldl_nil, Contents.operate] at held
    split at held
    · rename_i same
      cases held
      exact ⟨key, by simp, same.symm⟩
    · obtain ⟨other, member, same⟩ := ih held
      exact ⟨other, List.mem_append_left _ member, same⟩

namespace Chain

open Scoped (Ensures Yields)

variable {base : Contents} {writes : Writes} {file : Int64} {chain : List ChainBlock} {found : List ChainEntry}

theorem yields_part {α : Type} [Record α] {entry : ChainEntry} {name : String} {key : Key} {value : α}
    (held : (base.write writes).Holds key value) {post : Except Error α → Writes → Prop}
    (holds : post (.ok value) writes) : Yields base (part α file entry name key) writes post := by
  refine .bind (yields_find? (.inr ⟨value, held⟩) (fun absent => ?_) fun found also => .pure ?_)
  · exact absurd held (Contents.not_holds_of_absent absent value)
  · rwa [also.unique held]

theorem yields_resolve {found : ChainBlock} (describes : (base.write writes).Describes found)
    {post : Except Error ChainBlock → Writes → Prop} (holds : post (.ok found) writes) :
    Yields base (resolve file found.toChainEntry) writes post := by
  obtain ⟨info, replicas, held, nodes⟩ := describes
  refine .bind (yields_part info (.bind (yields_part held (.pure ?_))))
  rwa [Block.ofParts_info nodes]

theorem yields_mapM_resolve (describes : ∀ found ∈ chain, (base.write writes).Describes found)
    {post : Except Error (List ChainBlock) → Writes → Prop} (holds : post (.ok chain) writes) :
    Yields base ((chain.map ChainBlock.toChainEntry).mapM (resolve file)) writes post := by
  induction chain generalizing post with
  | nil => exact .pure holds
  | cons first rest ih =>
    obtain ⟨here, others⟩ := List.forall_mem_cons.1 describes
    rw [List.map_cons, List.mapM_cons]
    exact .bind (yields_resolve here (.bind (ih others (.pure holds))))

theorem yields_entries_listed (positive : 0 < file) (lists : (base.write writes).Lists file found)
    {post : Except Error (List ChainEntry) → Writes → Prop} (holds : post (.ok found) writes) :
    Yields base (entries file) writes post := by
  refine .demand (demands_requirePositive _ file) (fun _ low => absurd positive low) fun _ => ?_
  refine .bind (.scan fun pairs ascending members => .lift ?_)
  have same : pairs = found.map (Contents.Lists.pairOf (base.write writes) file) := by
    refine Table.eq_of_ascending ascending lists.ascending_pairs fun ⟨key, value⟩ => ?_
    rw [members, lists.mem_pairs]
  rwa [same, lists.entriesOfPairs_pairs]

theorem yields_resolved (positive : 0 < file) (resolved : (base.write writes).Resolved file chain)
    {post : Except Error (List ChainBlock) → Writes → Prop} (holds : post (.ok chain) writes) :
    Yields base (Chain.resolved file) writes post :=
  .bind (yields_entries_listed positive resolved.lists (yields_mapM_resolve resolved.describes holds))

theorem of_entryOfPair {key bytes : Bytes} {entry : ChainEntry} (read : entryOfPair file (key, bytes) = .ok entry) :
    key = (Key.fileBlock file entry.index).bytes ∧ Record.decode bytes = .ok entry.entry := by
  obtain ⟨index, place, read⟩ := exists_ok_of_bind read
  obtain ⟨stored, decoded, same⟩ := exists_ok_of_bind read
  cases same
  exact ⟨Key.eq_of_fileBlockIndex place, decoded⟩

theorem keys_of_entriesOfPairs {pairs : List (Bytes × Bytes)} (read : entriesOfPairs file pairs = .ok found) :
    pairs.map Prod.fst = found.map fun entry => (Key.fileBlock file entry.index).bytes := by
  induction pairs generalizing found with
  | nil =>
    cases read
    rfl
  | cons pair rest ih =>
    rw [entriesOfPairs, List.mapM_cons] at read
    obtain ⟨entry, first, read⟩ := exists_ok_of_bind read
    obtain ⟨others, listed, same⟩ := exists_ok_of_bind read
    cases same
    rw [List.map_cons, List.map_cons, ih listed, (of_entryOfPair first).1]

theorem ensures_entries_read : Ensures base (entries file) writes fun found later => later = writes ∧ 0 < file ∧
    (base.write writes).Lists file found := by
  refine .bind (.lift fun _ positive => .bind (.scan_exact fun pairs ascending members => .lift fun found read => ?_))
  refine ⟨rfl, pos_of_requirePositive positive, ?_, fun entry member => ?_, fun key written begins => ?_⟩
  · have order : (pairs.map Prod.fst).Pairwise (· < ·) := List.pairwise_map.2 ascending
    rw [keys_of_entriesOfPairs read, List.pairwise_map] at order
    refine order.imp fun {one two} less => ?_
    by_contra above
    rcases UInt64.lt_or_eq_of_le (UInt64.not_lt.1 above) with before | same
    · exact List.lt_asymm less (Key.fileBlock_lt file before)
    · rw [same] at less
      exact List.lt_irrefl _ less
  · obtain ⟨⟨key, bytes⟩, among, known⟩ := exists_of_mem_mapM read member
    obtain ⟨rfl, decoded⟩ := of_entryOfPair known
    exact ⟨bytes, ((members _ _).1 among).1, decoded⟩
  · obtain ⟨bytes, held⟩ := Option.isSome_iff_exists.1 written
    have among : key ∈ pairs.map Prod.fst := List.mem_map_of_mem ((members key bytes).2 ⟨held, begins⟩)
    rw [keys_of_entriesOfPairs read] at among
    obtain ⟨entry, member, same⟩ := List.mem_map.1 among
    exact ⟨entry, member, same.symm⟩

theorem ensures_resolve_described (entry : ChainEntry) : Ensures base (resolve file entry) writes fun found later =>
    later = writes ∧ found.toChainEntry = entry ∧ (base.write writes).Describes found :=
  .bind (ensures_part fun _ info => .bind (ensures_part fun replicas held =>
    .pure ⟨rfl, rfl, info, replicas, held, rfl⟩))

theorem ensures_mapM_described (found : List ChainEntry) :
    Ensures base (found.mapM (resolve file)) writes fun chain later => later = writes ∧
      chain.map ChainBlock.toChainEntry = found ∧ ∀ block ∈ chain, (base.write writes).Describes block := by
  induction found with
  | nil => exact .pure ⟨rfl, rfl, by simp⟩
  | cons entry rest ih =>
    rw [List.mapM_cons]
    refine .bind ((ensures_resolve_described entry).mono ?_)
    rintro first _ ⟨rfl, rfl, describes⟩
    refine .bind (ih.mono ?_)
    rintro others _ ⟨rfl, rfl, all⟩
    exact .pure ⟨rfl, rfl, List.forall_mem_cons.2 ⟨describes, all⟩⟩

theorem ensures_resolved_read : Ensures base (resolved file) writes fun chain later => later = writes ∧ 0 < file ∧
    (base.write writes).Resolved file chain := by
  refine .bind (ensures_entries_read.mono ?_)
  rintro found _ ⟨rfl, positive, lists⟩
  refine (ensures_mapM_described found).mono ?_
  rintro chain _ ⟨rfl, rfl, describes⟩
  exact ⟨rfl, positive, lists, describes⟩

theorem resolved_of_run {engine : Engine} (read : (engine.run .never (resolved file)).1 = .ok chain) :
    0 < file ∧ engine.storage.store.committed.Resolved file chain := by
  obtain ⟨_, positive, known⟩ := (engine.run_ensures .never ensures_resolved_read).2 chain read
  rw [Contents.write_empty] at known
  exact ⟨positive, known⟩

end Chain

end FsMeta
