import FsMeta.Proofs.Tree.Walk

set_option autoImplicit false

namespace FsMeta

namespace Contents

def Bare (contents : Contents) (left : List Bytes) (id : Int64) : Prop :=
  ∀ name, contents (Key.child id name).bytes = none ∨ (Key.child id name).bytes ∈ left

def Cleared (earlier later : Contents) : Prop :=
  ∀ (id : Int64) (node : INode), earlier.Holds (.inode id) node →
    (∀ found : INode, ¬ later.Holds (.inode id) found) →
      ∀ name, later (Key.child id name).bytes = none

def Childless (contents : Contents) : Prop :=
  ∀ (id : Int64) (node : INode), contents.Holds (.inode id) node → node.kind = .file →
    ∀ name, contents (Key.child id name).bytes = none

variable {contents earlier later : Contents} {left : List Bytes} {id : Int64}

theorem bare_nil : contents.Bare [] id ↔ ∀ name, contents (Key.child id name).bytes = none := by
  simp [Bare]

theorem Bare.mono (bare : contents.Bare left id) {more : List Bytes} (less : left ⊆ more) :
    contents.Bare more id := fun name => (bare name).imp_right fun member => less member

theorem Bare.thinned (bare : earlier.Bare left id) (thinned : Thinned earlier later) : later.Bare left id := by
  intro name
  rcases thinned (.child id name) trivial with same | gone
  · rw [same]
    exact bare name
  · exact .inl gone

end Contents

namespace Tree

open Contents (Bare Cleared Thinned)
open Scoped (Ensures)

variable {base earlier now : Contents} {writes : Writes} {root id : Int64} {removal : Removal}
variable {left : List Bytes}

structure Sweeping (earlier now : Contents) (root : Int64) (removal : Removal) (left : List Bytes) : Prop where
  thinned : Thinned earlier now
  gone : ∀ (id : Int64) (node : INode), earlier.Holds (.inode id) node →
    (∀ found : INode, ¬ now.Holds (.inode id) found) → id ∈ removal.pending ∨ now.Bare left id
  visited : ∀ id ∈ removal.visited, now.Bare left id
  root : root ∈ removal.pending ∨ now.Bare left root

theorem sweeping_start {contents : Contents} {pending : List Int64}
    (started : root ∈ pending ∨ contents.Bare [] root) :
    Sweeping contents contents root { pending } [] where
  thinned := .refl contents
  gone := fun _ node held gone => absurd held (gone node)
  visited := by simp
  root := started

namespace Sweeping

variable (sweeping : Sweeping earlier now root removal left)
include sweeping

theorem thin {next : Contents} {later : Removal} {rest : List Bytes} (thinned : Thinned now next)
    (bare : ∀ id, now.Bare left id → next.Bare rest id)
    (goes : ∀ (id : Int64) (node : INode), now.Holds (.inode id) node →
      (∀ found : INode, ¬ next.Holds (.inode id) found) → id ∈ later.pending ∨ next.Bare rest id)
    (pends : removal.pending ⊆ later.pending) (visits : later.visited = removal.visited) :
    Sweeping earlier next root later rest where
  thinned := sweeping.thinned.trans thinned
  gone := by
    intro id node held gone
    by_cases still : ∃ found : INode, now.Holds (.inode id) found
    · obtain ⟨found, still⟩ := still
      exact goes id found still gone
    · exact (sweeping.gone id node held (not_exists.1 still)).imp (pends ·) (bare id)
  visited := fun id member => bare id (sweeping.visited id (visits ▸ member))
  root := sweeping.root.imp (pends ·) (bare root)

theorem delete_link {key : Bytes} (link : ∀ id, (Key.inode id).bytes ≠ key) {rest : List Bytes}
    (split : left = key :: rest) : Sweeping earlier (now.drop key) root removal rest := by
  refine sweeping.thin (Contents.thinned_drop now key) (fun id bare name => ?_) (fun id node held gone => ?_)
    (fun _ member => member) rfl
  · subst split
    rw [Contents.drop]
    split
    · exact .inl rfl
    · rename_i differ
      exact (bare name).imp_right fun member => (List.mem_cons.1 member).resolve_left differ
  · exact absurd ((Contents.holds_drop (link id)).2 held) (gone node)

theorem delete_inode (later : Removal) (goes : id ∈ later.pending ∨ now.Bare left id)
    (pends : removal.pending ⊆ later.pending) (visits : later.visited = removal.visited) :
    Sweeping earlier (now.drop (Key.inode id).bytes) root later left := by
  have thinned := Contents.thinned_drop now (Key.inode id).bytes
  refine sweeping.thin thinned (fun other bare => bare.thinned thinned) (fun other node held gone => ?_) pends
    visits
  by_cases same : other = id
  · rw [same]
    exact goes.imp_right (·.thinned thinned)
  · have still : Key.bytes (.inode other) ≠ Key.bytes (.inode id) := by simpa using same
    exact absurd ((Contents.holds_drop still).2 held) (gone node)

theorem spare {next : Contents} (same : ∀ key : Key, key.OnTree → next key.bytes = now key.bytes) :
    Sweeping earlier next root removal left := by
  have thinned : Thinned now next := fun key tree => .inl (same key tree)
  refine sweeping.thin thinned (fun id bare => bare.thinned thinned) (fun id node held gone => ?_)
    (fun _ member => member) rfl
  have still : next.Holds (.inode id) node := by
    rw [Contents.Holds, same (.inode id) trivial]
    exact held
  exact absurd still (gone node)

theorem pop (later : Removal) {rest : List Int64} {more : List Bytes}
    (pending : removal.pending = id :: rest) (less : left ⊆ more) (bare : now.Bare more id)
    (pends : later.pending = rest) (visits : ∀ other ∈ later.visited, other = id ∨ other ∈ removal.visited) :
    Sweeping earlier now root later more := by
  have opened (other : Int64) (known : other ∈ removal.pending ∨ now.Bare left other) :
      other ∈ later.pending ∨ now.Bare more other := by
    rw [pending, List.mem_cons] at known
    rcases known with (same | member) | known
    · exact .inr (same ▸ bare)
    · exact .inl (pends ▸ member)
    · exact .inr (known.mono less)
  constructor
  · exact sweeping.thinned
  · exact fun other node held gone => opened other (sweeping.gone other node held gone)
  · intro other member
    rcases visits other member with same | member
    · exact same ▸ bare
    · exact (sweeping.visited other member).mono less
  · exact opened root sweeping.root

theorem cleared (done : removal.pending = []) (swept : left = []) : earlier.Cleared now := by
  intro id node held gone
  rcases sweeping.gone id node held gone with member | bare
  · rw [done] at member
    cases member
  · subst swept
    exact Contents.bare_nil.1 bare

end Sweeping

section

variable (owned : earlier.Owned) (childless : earlier.Childless)
include owned childless

theorem Sweeping.removed {key : Bytes} {after : Removal} {later : Writes}
    (sweeping : Sweeping earlier (base.write writes) root removal (key :: left))
    (link : ∀ id, (Key.inode id).bytes ≠ key) (removed : Removed base writes removal key id after later) :
    Sweeping earlier (base.write later) root after left := by
  cases removed with
  | absent gone =>
    rw [Contents.write_insert_none]
    exact sweeping.delete_link link rfl
  | visited held kind visited =>
    rw [Contents.write_insert_none]
    exact sweeping.delete_link link rfl
  | @file child held kind between discarded =>
    have before := sweeping.thinned.inode held
    have spared := sweeping.spare fun key tree =>
      Contents.eq_of_offTree base (discarded.mono fun _ _ => And.left) tree
    have bare := Contents.bare_nil.2 (childless _ child before kind)
    have deleted := spared.delete_inode removal.withFile
      (.inr ((bare.thinned spared.thinned).mono (by simp))) (fun _ member => member) rfl
    rw [Contents.write_insert_none, Contents.write_insert_none, (owned _ child before).1]
    exact deleted.delete_link link rfl
  | @directory child held kind fresh =>
    have pending : id ∈ (removal.withDirectory id).pending := List.mem_cons_self
    have deleted := sweeping.delete_inode (removal.withDirectory id) (.inl pending) (List.subset_cons_self _ _) rfl
    rw [Contents.write_insert_none, Contents.write_insert_none, (owned _ child (sweeping.thinned.inode held)).1]
    exact deleted.delete_link link rfl

theorem keeps_sweeping : Keeps base fun removal left writes =>
    Sweeping earlier (base.write writes) root removal (left.map Prod.fst) where
  skips removal id rest writes pending visited sweeping :=
    sweeping.pop { removal with pending := rest } pending (List.Subset.refl _) (sweeping.visited id visited) rfl
      fun _ member => .inr member
  opens removal id rest pairs writes pending fresh members sweeping := by
    have bare : (base.write writes).Bare (pairs.map Prod.fst) id := by
      intro name
      cases held : base.write writes (Key.child id name).bytes with
      | none => exact .inl rfl
      | some value =>
        have listed := (members _ value).2 ⟨held, (Key.child id name).begins⟩
        exact .inr (List.mem_map.2 ⟨_, listed, rfl⟩)
    exact sweeping.pop _ pending (List.nil_subset _) bare rfl (by simp)
  removes removal after key value left writes later id link _ begins decoded removed sweeping := by
    have link (other : Int64) : (Key.inode other).bytes ≠ key := by
      rintro rfl
      cases Key.marker_of_isPrefixOf begins
    exact sweeping.removed owned childless link removed

end

theorem ensures_unlink_clears {node : INode} (cleared : earlier.Cleared (base.write writes)) :
    Ensures base (unlink node) writes fun _ later => earlier.Cleared (base.write later) := by
  refine ensures_unlink cleared ?_
  rw [Contents.write_insert_none]
  intro id found held gone name
  have link : (Key.inode id).bytes ≠ (Key.child node.parentId node.name).bytes := by simp
  have before := cleared id found held (fun other still => gone other ((Contents.holds_drop link).2 still)) name
  rw [Contents.drop, before, ite_self]

theorem ensures_deleteDirectory_clears (id : Int64) (owned : (base.write writes).Owned)
    (childless : (base.write writes).Childless) :
    Ensures base (deleteDirectory id) writes fun _ later => (base.write writes).Cleared (base.write later) := by
  refine .bind (.bind (.lift fun _ _ => ensures_find fun node held => ?_))
  dsimp only
  split
  · exact .bind .throw
  · refine .bind (.visibleCount_le fun count counts => .bind ?_)
    have start : Sweeping (base.write writes) (base.write writes) id { pending := [id] } [] :=
      sweeping_start (.inl List.mem_cons_self)
    refine (ensures_removeBelow_walk (keeps_sweeping owned childless) owned.identified counts (.start _) start
      (by simp; omega)).mono ?_
    intro after between ⟨done, sweeping⟩
    have bare : (base.write between).Bare [] id := sweeping.root.resolve_left (by simp [done])
    have deleted := sweeping.delete_inode _ (.inr bare) (fun _ member => member) rfl
    refine .bind (.delete (.bind ((ensures_unlink_clears ?_).mono fun _ _ cleared => .pure cleared)))
    rw [Contents.write_insert_none]
    exact deleted.cleared done rfl

theorem ensures_deleteFile_clears (id : Int64) (childless : (base.write writes).Childless) :
    Ensures base (deleteFile id) writes fun _ later => (base.write writes).Cleared (base.write later) := by
  refine .bind (.bind (.lift fun _ _ => ensures_find fun node held => ?_))
  dsimp only
  split
  · exact .bind .throw
  · rename_i file
    have kind : node.kind = .file := INode.kind_eq_file (by simpa using file)
    have bare := Contents.bare_nil.2 (childless id node held kind)
    have start : Sweeping (base.write writes) (base.write writes) id { pending := [] } [] :=
      sweeping_start (.inr bare)
    refine .bind ((Chain.only_deleteAll id base writes).mono fun _ between extended => ?_)
    have spared := start.spare fun key tree =>
      Contents.eq_of_offTree base (extended.mono fun _ _ => And.left) tree
    have deleted := spared.delete_inode _ (.inr (bare.thinned spared.thinned)) (fun _ member => member) rfl
    refine .bind (.delete (ensures_unlink_clears ?_))
    rw [Contents.write_insert_none]
    exact deleted.cleared rfl rfl

end Tree

end FsMeta
