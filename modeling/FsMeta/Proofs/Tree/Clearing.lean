import FsMeta.Proofs.Chain.Erasure
import FsMeta.Proofs.Store.Replay
import FsMeta.Proofs.Tree.Exclusion
import FsMeta.Proofs.Tree.Guards

set_option autoImplicit false

namespace FsMeta

namespace Contents

variable {contents base now : Contents} {id file directory : Int64} {key : Bytes} {node : INode}

def OfKind (contents : Contents) (kind : INode.Kind) (id : Int64) : Prop :=
  ∃ node : INode, contents.Holds (.inode id) node ∧ node.kind = kind

theorem OfKind.unique {kind other : INode.Kind} (one : contents.OfKind kind id) (two : contents.OfKind other id) :
    kind = other := by
  obtain ⟨node, held, rfl⟩ := one
  obtain ⟨also, again, rfl⟩ := two
  rw [held.unique again]

def Leads (contents : Contents) (directory : Int64) (key : Bytes) (child : Int64) : Prop :=
  (Key.children directory).isPrefixOf key = true ∧
    ∃ bytes, contents key = some bytes ∧ Record.decode bytes = .ok (ChildLink.mk child)

structure Legible (contents : Contents) : Prop where
  inodes : ∀ id, contents.Readable INode (.inode id)
  placed : ∀ (id : Int64) (node : INode), contents.Holds (.inode id) node → node.Placed id ∧ 0 < id
  links : ∀ directory key bytes, contents key = some bytes → (Key.children directory).isPrefixOf key = true →
    ∃ link : ChildLink, Record.decode bytes = .ok link
  chains : ∀ file, contents.Chained file

theorem Legible.readable_link (legible : contents.Legible) (parent : Int64) (name : String) :
    contents.Readable ChildLink (.child parent name) := by
  exact readable_of_decodes fun bytes held => legible.links parent _ bytes held (Key.child parent name).begins

inductive Sound (key bytes : Bytes) : Prop
  | inode (id : Int64) (node : INode) (place : key = (Key.inode id).bytes) (value : bytes = Record.encode node)
    (placed : node.Placed id) (positive : 0 < id)
  | link (parent : Int64) (name : String) (link : ChildLink) (place : key = (Key.child parent name).bytes)
    (value : bytes = Record.encode link)
  | entry (file : Int64) (index : UInt64) (entry : FileBlock) (place : key = (Key.fileBlock file index).bytes)
    (value : bytes = Record.encode entry)
  | block (id : Int64) (place : key = (Key.blockMeta id).bytes ∨ key = (Key.blockStorage id).bytes)

theorem Sound.inode_decodes {bytes : Bytes} (sound : Sound (Key.inode id).bytes bytes) :
    ∃ node : INode, Record.decode bytes = .ok node ∧ node.Placed id ∧ 0 < id := by
  rcases sound with ⟨_, node, place, rfl, placed, positive⟩ | ⟨_, _, _, place, _⟩ | ⟨_, _, _, place, _⟩ |
    ⟨_, place | place⟩
  · cases Key.bytes_injective place
    exact ⟨node, Record.decode_encode_inode placed.sized, placed, positive⟩
  all_goals cases Key.bytes_injective place

theorem legible_of_sound (sound : ∀ key bytes, contents key = some bytes → Sound key bytes) : contents.Legible where
  inodes id := by
    refine readable_of_decodes fun bytes held => ?_
    obtain ⟨node, decoded, _⟩ := (sound _ bytes held).inode_decodes
    exact ⟨node, decoded⟩
  placed := by
    rintro id node ⟨bytes, held, decoded⟩
    obtain ⟨other, same, known⟩ := (sound _ bytes held).inode_decodes
    rw [decoded] at same
    cases same
    exact known
  links directory key bytes held begins := by
    rcases sound key bytes held with ⟨_, _, rfl, _⟩ | ⟨_, _, link, rfl, rfl⟩ | ⟨_, _, _, rfl, _⟩ | ⟨_, rfl | rfl⟩
    · cases Key.marker_of_isPrefixOf begins
    · exact ⟨link, Record.decode_encode_link link⟩
    all_goals cases Key.marker_of_isPrefixOf begins
  chains file key bytes held begins := by
    rcases sound key bytes held with ⟨_, _, rfl, _⟩ | ⟨_, _, _, rfl, _⟩ | ⟨_, index, entry, rfl, rfl⟩ | ⟨_, rfl | rfl⟩
    · cases Key.marker_of_isPrefixOf begins
    · cases Key.marker_of_isPrefixOf begins
    · cases Key.owner_of_isPrefixOf begins
      exact ⟨index, entry, rfl, Record.decode_encode_fileBlock entry⟩
    all_goals cases Key.marker_of_isPrefixOf begins

theorem legible_replay {entries : List Journal.Entry}
    (sound : ∀ entry ∈ entries, ∀ key bytes, .put key bytes ∈ entry.operations → Sound key bytes) :
    (replay entries).Legible := by
  refine legible_of_sound (List.foldlRecOn (motive := fun contents : Contents =>
    ∀ key bytes, contents key = some bytes → Sound key bytes) _ operate (fun _ _ held => nomatch held) ?_)
  intro contents held operation member key bytes later
  obtain ⟨entry, among, member⟩ := List.mem_flatMap.1 member
  cases operation with
  | put place value =>
    dsimp only [operate] at later
    split at later
    · rename_i same
      cases later
      exact same ▸ sound entry among place _ member
    · exact held key bytes later
  | delete place =>
    dsimp only [operate] at later
    split at later
    · cases later
    · exact held key bytes later

inductive Taken (contents : Contents) (root : Int64) : Int64 → Prop
  | root : Taken contents root root
  | child {directory child : Int64} {key : Bytes} (taken : Taken contents root directory)
    (isDirectory : contents.OfKind .directory directory) (leads : contents.Leads directory key child)
    (stored : (contents (Key.inode child).bytes).isSome) : Taken contents root child

theorem Taken.stored {root : Int64} (taken : contents.Taken root id) (isDirectory : contents.OfKind .directory root) :
    (contents (Key.inode id).bytes).isSome := by
  cases taken with
  | root =>
    obtain ⟨node, held, _⟩ := isDirectory
    exact held.isSome
  | child _ _ _ stored => exact stored

/-- The keys that the walk has emptied: those of the inodes that are gone, with their chains if they are files,
and the links of the directories that were visited, but for those that are left. -/
def Emptied (base : Contents) (gone visited : List Int64) (left : List (Bytes × Bytes)) (key : Bytes) : Prop :=
  (∃ id ∈ gone, key = (Key.inode id).bytes ∨ base.OfKind .file id ∧ base.OfChain id key) ∨
    (∃ directory ∈ visited, (Key.children directory).isPrefixOf key = true) ∧ key ∉ left.map Prod.fst

variable {gone visited : List Int64} {left : List (Bytes × Bytes)}

theorem OfChain.marker (ofChain : contents.OfChain file key) {m : Marker}
    (begins : (Key.headed m id).isPrefixOf key = true) : m = .fileBlock ∨ m = .blockMeta ∨ m = .blockStorage := by
  rcases ofChain with chain | ⟨block, _, rfl | rfl⟩
  · exact .inl (Key.eq_of_isPrefixOf begins chain).1
  · exact .inr (.inl (Key.marker_of_isPrefixOf begins).symm)
  · exact .inr (.inr (Key.marker_of_isPrefixOf begins).symm)

theorem emptied_inode : base.Emptied gone visited left (Key.inode id).bytes ↔ id ∈ gone := by
  constructor
  · rintro (⟨other, member, same | ⟨_, chain⟩⟩ | ⟨⟨directory, _, begins⟩, _⟩)
    · cases Key.bytes_injective same
      exact member
    · have marker := chain.marker (Key.inode id).begins
      simp [Key.marker] at marker
    · cases (Key.eq_of_isPrefixOf begins (Key.inode id).begins).1
  · exact fun member => .inl ⟨id, member, .inl rfl⟩

theorem emptied_child (begins : (Key.children directory).isPrefixOf key = true) :
    base.Emptied gone visited left key ↔ directory ∈ visited ∧ key ∉ left.map Prod.fst := by
  constructor
  · rintro (⟨other, _, rfl | ⟨_, chain⟩⟩ | ⟨⟨other, member, also⟩, passed⟩)
    · cases (Key.eq_of_isPrefixOf begins (Key.inode other).begins).1
    · have marker := chain.marker begins
      simp at marker
    · rw [(Key.eq_of_isPrefixOf begins also).2]
      exact ⟨member, passed⟩
  · exact fun ⟨member, passed⟩ => .inr ⟨⟨directory, member, begins⟩, passed⟩

theorem emptied_entry (begins : (Key.fileBlocks file).isPrefixOf key = true) (kept : file ∉ gone) :
    ¬ base.Emptied gone visited left key := by
  rintro (⟨other, member, rfl | ⟨_, chain | ⟨block, _, rfl | rfl⟩⟩⟩ | ⟨⟨directory, _, also⟩, _⟩)
  · cases (Key.eq_of_isPrefixOf begins (Key.inode other).begins).1
  · rw [(Key.eq_of_isPrefixOf begins chain).2] at kept
    exact kept member
  · cases Key.marker_of_isPrefixOf begins
  · cases Key.marker_of_isPrefixOf begins
  · cases (Key.eq_of_isPrefixOf begins also).1

theorem emptied_cons : base.Emptied (id :: gone) visited left key ↔
    base.Emptied gone visited left key ∨ key = (Key.inode id).bytes ∨ base.OfKind .file id ∧ base.OfChain id key := by
  simp only [Emptied, List.mem_cons, exists_eq_or_imp]
  exact or_assoc.trans or_comm

theorem emptied_left {value : Bytes} (passed : key ∉ left.map Prod.fst)
    (begins : ∃ directory ∈ visited, (Key.children directory).isPrefixOf key = true) {other : Bytes} :
    base.Emptied gone visited left other ↔ base.Emptied gone visited ((key, value) :: left) other ∨ other = key := by
  by_cases same : other = key
  · subst same
    exact iff_of_true (.inr ⟨begins, passed⟩) (.inr rfl)
  · simp only [Emptied, List.map_cons, List.mem_cons, same, false_or, or_false]

theorem Without.ofChain_iff (without : base.Without now (base.Emptied gone visited left)) (kept : file ∉ gone) :
    now.OfChain file key ↔ base.OfChain file key := by
  have names {block : Int64} : now.Names file block ↔ base.Names file block := by
    simp only [Names]
    refine exists_congr fun place => exists_congr fun bytes => exists_congr fun entry => ?_
    refine and_congr_right fun begins => ?_
    rw [without.kept place (emptied_entry begins kept)]
  simp only [OfChain, names]

theorem Without.chained (without : base.Without now (base.Emptied gone visited left)) (chained : base.Chained file) :
    now.Chained file :=
  fun key bytes held begins => chained key bytes (without.of_some held).1 begins

end Contents

namespace Tree

open Contents (Emptied)
open Scoped (Yields)

variable {base now between later : Contents} {writes : Writes} {root id : Int64} {removal after : Removal}
variable {gone more : List Int64} {key value : Bytes} {left : List (Bytes × Bytes)} {node child : INode}

/-- What the walk has done so far. These inodes are gone; of those that are directories each was found, and a
link of a visited directory is left, or it leads to an inode that is gone, or to the root. -/
structure Clearing (base : Contents) (root : Int64) (removal : Removal) (left : List (Bytes × Bytes))
    (gone : List Int64) (now : Contents) : Prop where
  without : base.Without now (Emptied base gone removal.visited left)
  distinct : gone.Nodup
  counted : removal.removed = gone.length
  spared : root ∉ gone
  taken : ∀ id ∈ gone, base.Taken root id
  found : ∀ id, removal.Found id ↔ id = root ∨ id ∈ gone ∧ base.OfKind .directory id
  first : root ∈ removal.visited ∨ removal.pending = [root] ∧ removal.visited = []
  followed : ∀ directory ∈ removal.visited, ∀ key child, base.Leads directory key child →
    (base (Key.inode child).bytes).isSome → child = root ∨ child ∈ gone ∨ key ∈ left.map Prod.fst
  listed : ∀ pair ∈ left, base pair.1 = some pair.2 ∧
    ∃ directory ∈ removal.visited, (Key.children directory).isPrefixOf pair.1 = true
  apart : (left.map Prod.fst).Nodup

structure Takes (base : Contents) (root : Int64) (now : Contents) (removal : Removal) (id : Int64) (after : Removal)
    (later : Contents) : Prop where
  held : ∃ child : INode, now.Holds (.inode id) child
  differ : id ≠ root
  without : now.Without later fun key => key = (Key.inode id).bytes ∨ base.OfKind .file id ∧ base.OfChain id key
  visited : after.visited = removal.visited
  counted : after.removed = removal.removed + 1
  found : ∀ other, after.Found other ↔ removal.Found other ∨ other = id ∧ base.OfKind .directory other
  pending : after.pending.length ≤ removal.pending.length + 1

namespace Clearing

theorem start (base : Contents) (root : Int64) : Clearing base root { pending := [root] } [] [] base where
  without := (Contents.Without.refl base).congr fun key _ => iff_of_false not_false (by simp [Emptied])
  distinct := List.nodup_nil
  counted := rfl
  spared := List.not_mem_nil
  taken := by simp
  found := by simp [Removal.Found]
  first := .inr ⟨rfl, rfl⟩
  followed := by simp
  listed := by simp
  apart := List.nodup_nil

theorem taken_of_found (clearing : Clearing base root removal left gone now) (isDirectory : base.OfKind .directory root)
    (found : removal.Found id) : base.Taken root id ∧ base.OfKind .directory id := by
  rcases (clearing.found id).1 found with rfl | ⟨member, directory⟩
  · exact ⟨.root, isDirectory⟩
  · exact ⟨clearing.taken id member, directory⟩

theorem opened (clearing : Clearing base root removal left gone now) (visited : id ∈ removal.visited) :
    root ∈ removal.visited := by
  rcases clearing.first with opened | ⟨_, unvisited⟩
  · exact opened
  · rw [unvisited] at visited
    cases visited

theorem stored_iff (clearing : Clearing base root removal left gone now) (node : INode) :
    now.Holds (.inode id) node ↔ base.Holds (.inode id) node ∧ id ∉ gone := by
  rw [clearing.without.holds_iff, Contents.emptied_inode]

theorem advance (clearing : Clearing base root removal ((key, value) :: left) gone now)
    (decoded : Record.decode value = .ok (ChildLink.mk id))
    (without : base.Without later fun other =>
      Emptied base more removal.visited ((key, value) :: left) other ∨ other = key)
    (visited : after.visited = removal.visited) (grown : gone ⊆ more) (distinct : more.Nodup)
    (counted : after.removed = more.length) (spared : root ∉ more) (taken : ∀ id ∈ more, base.Taken root id)
    (found : ∀ id, after.Found id ↔ id = root ∨ id ∈ more ∧ base.OfKind .directory id)
    (reached : (base (Key.inode id).bytes).isSome → id = root ∨ id ∈ more) :
    Clearing base root after left more later := by
  obtain ⟨⟨held, begins⟩, listed⟩ := List.forall_mem_cons.1 clearing.listed
  obtain ⟨passed, apart⟩ := List.nodup_cons.1 clearing.apart
  have ⟨_, among, _⟩ := begins
  constructor
  · rw [visited]
    exact without.congr fun other _ => (Contents.emptied_left passed begins).symm
  · exact distinct
  · exact counted
  · exact spared
  · exact taken
  · exact found
  · exact .inl (visited ▸ clearing.opened among)
  · intro directory member place child leads stored
    rw [visited] at member
    rcases clearing.followed directory member place child leads stored with same | going | waits
    · exact .inl same
    · exact .inr (.inl (grown going))
    · rcases List.mem_cons.1 waits with rfl | waits
      -- This is the link that was dealt with just now.
      · obtain ⟨_, bytes, again, link⟩ := leads
        rw [held] at again
        cases again
        rw [decoded] at link
        cases link
        exact (reached stored).imp_right .inl
      · exact .inr (.inr waits)
  · rwa [visited]
  · exact apart

theorem pass (clearing : Clearing base root removal ((key, value) :: left) gone now)
    (decoded : Record.decode value = .ok (ChildLink.mk id)) (without : now.Without later (· = key))
    (reached : (base (Key.inode id).bytes).isSome → id = root ∨ id ∈ gone) :
    Clearing base root removal left gone later :=
  clearing.advance decoded (clearing.without.trans without) rfl (List.Subset.refl _) clearing.distinct
    clearing.counted clearing.spared clearing.taken clearing.found reached

theorem take (clearing : Clearing base root removal ((key, value) :: left) gone now)
    (isDirectory : base.OfKind .directory root) (decoded : Record.decode value = .ok (ChildLink.mk id))
    (takes : Takes base root now removal id after between) (without : between.Without later (· = key)) :
    Clearing base root after left (id :: gone) later := by
  obtain ⟨child, held⟩ := takes.held
  obtain ⟨before, fresh⟩ := (clearing.stored_iff child).1 held
  obtain ⟨holds, directory, member, begins⟩ := clearing.listed (key, value) List.mem_cons_self
  obtain ⟨taken, opened⟩ := clearing.taken_of_found isDirectory (.inr member)
  have goes := clearing.without.trans (takes.without.trans without)
  refine clearing.advance decoded (goes.congr fun other _ => ?_) takes.visited
    (List.subset_cons_self _ _) (List.nodup_cons.2 ⟨fresh, clearing.distinct⟩) ?_ ?_ ?_ (fun other => ?_)
    fun _ => .inr List.mem_cons_self
  · rw [Contents.emptied_cons]
    exact or_assoc.symm
  · rw [takes.counted, clearing.counted, List.length_cons]
  · exact List.not_mem_cons_of_ne_of_not_mem takes.differ.symm clearing.spared
  · exact List.forall_mem_cons.2 ⟨.child taken opened ⟨begins, value, holds, decoded⟩ before.isSome, clearing.taken⟩
  · rw [takes.found, clearing.found, List.mem_cons]
    grind

theorem skip (clearing : Clearing base root removal [] gone now) {rest : List Int64}
    (pending : removal.pending = id :: rest) (visited : id ∈ removal.visited) :
    Clearing base root { removal with pending := rest } [] gone now := by
  refine { clearing with found := fun other => ?_, first := .inl ?_ }
  · rw [← clearing.found, Removal.Found, Removal.Found, pending, List.mem_cons]
    grind
  · exact clearing.opened visited

theorem enter (clearing : Clearing base root removal [] gone now) {rest : List Int64} {pairs : List (Bytes × Bytes)}
    (pending : removal.pending = id :: rest) (fresh : id ∉ removal.visited) (ascending : Table.Ascending pairs)
    (members : ∀ key value, (key, value) ∈ pairs ↔
      now key = some value ∧ (Key.children id).isPrefixOf key = true) :
    Clearing base root { removal with pending := rest, visited := id :: removal.visited } pairs gone now := by
  have kept {key : Bytes} (begins : (Key.children id).isPrefixOf key = true) : now key = base key :=
    clearing.without.kept key fun emptied => fresh ((Contents.emptied_child begins).1 emptied).1
  have listed {key value : Bytes} (held : base key = some value)
      (begins : (Key.children id).isPrefixOf key = true) : key ∈ pairs.map Prod.fst :=
    List.mem_map_of_mem ((members key value).2 ⟨(kept begins).trans held, begins⟩)
  have begins {key : Bytes} (member : key ∈ pairs.map Prod.fst) : (Key.children id).isPrefixOf key = true := by
    obtain ⟨⟨_, value⟩, among, rfl⟩ := List.mem_map.1 member
    exact ((members _ value).1 among).2
  constructor
  -- Nothing changes but what is said of the links of this directory: they were kept, and now they are left.
  · refine clearing.without.congr fun key stored => ?_
    obtain ⟨value, held⟩ := Option.isSome_iff_exists.1 stored
    by_cases here : (Key.children id).isPrefixOf key = true
    · rw [Contents.emptied_child here, Contents.emptied_child here]
      exact iff_of_false (fun both => fresh both.1) fun both => both.2 (listed held here)
    · have apart : key ∉ pairs.map Prod.fst := fun member => here (begins member)
      simp only [Emptied, List.exists_mem_cons_iff, here, apart, List.map_nil, List.not_mem_nil, Bool.false_eq_true,
        false_or, not_false_eq_true]
  · exact clearing.distinct
  · exact clearing.counted
  · exact clearing.spared
  · exact clearing.taken
  · intro other
    rw [← clearing.found, Removal.Found, Removal.Found, pending, List.mem_cons, List.mem_cons]
    grind
  · left
    rcases clearing.first with opened | ⟨only, _⟩
    · exact List.mem_cons_of_mem _ opened
    · cases pending.symm.trans only
      exact List.mem_cons_self
  · intro directory member key child leads stored
    rcases List.mem_cons.1 member with rfl | member
    · obtain ⟨here, bytes, held, _⟩ := leads
      exact .inr (.inr (listed held here))
    · refine (clearing.followed directory member key child leads stored).imp_right fun known => ?_
      exact .inl (known.resolve_right List.not_mem_nil)
  · rintro ⟨key, value⟩ member
    obtain ⟨held, here⟩ := (members key value).1 member
    exact ⟨(kept here).symm.trans held, id, List.mem_cons_self, here⟩
  · refine List.pairwise_map.2 (ascending.imp fun {one two} less same => ?_)
    rw [same] at less
    exact List.lt_irrefl _ less

theorem taken_iff (clearing : Clearing base root removal [] gone now) (isDirectory : base.OfKind .directory root)
    (done : removal.pending = []) : base.Taken root id ↔ id = root ∨ id ∈ gone := by
  constructor
  · intro taken
    induction taken with
    | root => exact .inl rfl
    | @child directory child key _ kind leads stored ih =>
      have found : removal.Found directory := (clearing.found directory).2 (ih.imp_right fun member => ⟨member, kind⟩)
      have visited : directory ∈ removal.visited := found.resolve_left (by simp [done])
      refine (clearing.followed directory visited key child leads stored).imp_right fun known => ?_
      exact known.resolve_right List.not_mem_nil
  · rintro (rfl | member)
    · exact .root
    · exact clearing.taken id member

end Clearing

section

variable (legible : base.Legible) (isDirectory : base.OfKind .directory root)
include legible isDirectory

theorem yields_removeLinked (clearing : Clearing base root removal left gone (base.write writes))
    (opened : root ∈ removal.visited) :
    Yields base (removeLinked removal id) writes fun result later => ∃ after, result = .ok after ∧
      (after = removal ∧ later = writes ∧ ((base (Key.inode id).bytes).isSome → id = root ∨ id ∈ gone) ∨
        Takes base root (base.write writes) removal id after (base.write later)) := by
  refine .bind (yields_find? (clearing.without.readable (legible.inodes id)) (fun absent => ?_) fun child held => ?_)
  · refine .pure ⟨removal, rfl, .inl ⟨rfl, rfl, fun known => .inr ?_⟩⟩
    by_contra fresh
    rw [clearing.without.kept _ fun emptied => fresh (Contents.emptied_inode.1 emptied)] at absent
    simp [absent] at known
  have ⟨before, fresh⟩ := (clearing.stored_iff child).1 held
  obtain ⟨placed, positive⟩ := legible.placed id child before
  dsimp only
  rw [placed.own]
  split
  · rename_i kind
    have isFile : base.OfKind .file id := ⟨child, before, kind⟩
    refine .bind ((Chain.yields_deleteAll positive (clearing.without.chained (legible.chains id))).mono ?_)
    rintro _ between ⟨⟨_, rfl⟩, erased⟩
    refine .bind (.delete (.pure ⟨removal.withFile, rfl, .inr ⟨⟨child, held⟩, ?_, ?_, rfl, rfl, ?_, Nat.le_succ _⟩⟩))
    · rintro rfl
      cases isFile.unique isDirectory
    · refine (erased.trans (.delete base between (Key.inode id).bytes)).congr fun key _ => ?_
      rw [clearing.without.ofChain_iff fresh, and_iff_right isFile, or_comm]
    · refine fun other => (or_iff_left ?_).symm
      rintro ⟨rfl, directory⟩
      cases isFile.unique directory
  · rename_i kind
    have directory : base.OfKind .directory id := ⟨child, before, kind⟩
    split
    -- It is still there although it was found, so the link leads back to the root.
    · rename_i visited
      have found : removal.Found id := .inr (List.contains_iff_mem.1 visited)
      have same : id = root := ((clearing.found id).1 found).resolve_right fun both => fresh both.1
      exact .pure ⟨removal, rfl, .inl ⟨rfl, rfl, fun _ => .inl same⟩⟩
    · rename_i unvisited
      refine .bind (.delete (.pure ⟨removal.withDirectory id, rfl, .inr ⟨⟨child, held⟩, ?_, ?_, rfl, rfl, ?_, ?_⟩⟩))
      · rintro rfl
        exact unvisited (List.contains_iff_mem.2 opened)
      · refine (Contents.Without.delete base writes (Key.inode id).bytes).congr fun key _ => ?_
        rw [or_iff_left fun both => nomatch both.1.unique directory]
      · intro other
        simp only [Removal.Found, Removal.withDirectory, List.mem_cons]
        grind
      · exact Nat.le_refl _

theorem yields_removeChild (clearing : Clearing base root removal ((key, value) :: left) gone (base.write writes)) :
    Yields base (removeChild removal (key, value)) writes fun result later => ∃ after more, result = .ok after ∧
      Clearing base root after left more (base.write later) ∧
      after.pending.length + gone.length ≤ removal.pending.length + more.length := by
  obtain ⟨stored, directory, member, begins⟩ := clearing.listed (key, value) List.mem_cons_self
  obtain ⟨⟨id⟩, decoded⟩ := legible.links directory key value stored begins
  refine .bind (.lift ?_)
  rw [decoded]
  refine .bind ((yields_removeLinked legible isDirectory clearing (clearing.opened member)).mono ?_)
  rintro _ between ⟨after, rfl, ⟨rfl, rfl, reached⟩ | takes⟩
  · refine .bind (.delete (.pure ⟨after, gone, rfl, ?_, Nat.le_refl _⟩))
    exact clearing.pass decoded (.delete base between key) reached
  · refine .bind (.delete (.pure ⟨after, id :: gone, rfl, ?_, ?_⟩))
    · exact clearing.take isDirectory decoded takes (.delete base between key)
    · have pending := takes.pending
      rw [List.length_cons]
      omega

theorem yields_removeChildren {pairs : List (Bytes × Bytes)}
    (clearing : Clearing base root removal pairs gone (base.write writes)) :
    Yields base (pairs.foldlM removeChild removal) writes fun result later => ∃ after more, result = .ok after ∧
      Clearing base root after [] more (base.write later) ∧
      after.pending.length + gone.length ≤ removal.pending.length + more.length := by
  induction pairs generalizing writes removal gone with
  | nil => exact .pure ⟨removal, gone, rfl, clearing, Nat.le_refl _⟩
  | cons pair rest ih =>
    obtain ⟨key, value⟩ := pair
    rw [List.foldlM_cons]
    refine .bind ((yields_removeChild legible isDirectory clearing).mono ?_)
    rintro _ between ⟨after, more, rfl, clearing, first⟩
    refine (ih clearing).mono ?_
    rintro _ later ⟨last, most, rfl, clearing, further⟩
    exact ⟨last, most, rfl, clearing, by omega⟩

/-- The walk comes to its end: each step takes one pending directory, and no more become pending than there are
inodes. -/
theorem yields_removeBelow {count bound : Nat} (counts : base.AtMost count)
    (clearing : Clearing base root removal [] gone (base.write writes))
    (room : removal.pending.length + count < bound + gone.length) :
    Yields base (removeBelow bound removal) writes fun result later => ∃ after more, result = .ok after ∧
      after.pending = [] ∧ Clearing base root after [] more (base.write later) := by
  induction bound generalizing writes removal gone with
  -- All that is gone was stored before, so the bound does not run out.
  | zero =>
    have few := length_le_of_stored counts clearing.distinct fun id member =>
      (clearing.taken id member).stored isDirectory
    omega
  | succ bound ih =>
    rw [removeBelow]
    cases pending : removal.pending with
    | nil => exact .pure ⟨removal, gone, rfl, pending, clearing⟩
    | cons id rest =>
      rw [pending, List.length_cons] at room
      dsimp only
      split
      · rename_i visited
        exact ih (clearing.skip pending (List.contains_iff_mem.1 visited)) (by dsimp only; omega)
      · rename_i fresh
        have fresh : id ∉ removal.visited := fun member => fresh (List.contains_iff_mem.2 member)
        refine .bind (.scan fun pairs ascending members => .bind ?_)
        have opened := clearing.enter pending fresh ascending members
        refine (yields_removeChildren legible isDirectory opened).mono ?_
        rintro _ between ⟨after, more, rfl, clearing, lengths⟩
        dsimp only at lengths
        exact ih clearing (by omega)

end

end Tree

end FsMeta
