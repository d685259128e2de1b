import FsMeta.Proofs.Scope
import FsMeta.Proofs.Tree.Weave
import FsMeta.Tree.Create
import FsMeta.Tree.Move
import FsMeta.Tree.Removal

set_option autoImplicit false

namespace FsMeta.Tree

open Scoped (Ensures)

variable {base : Contents} {writes : Writes} {hand : List Int64} {whole : Prop}
variable {id parent : Int64} {name : String} {node : INode}

section

variable (kept : (base.write writes).Kept)
include kept

theorem ensures_inode? {post : Option INode → Writes → Prop}
    (absent : (∀ node, ¬ (base.write writes).HasInode id node) → post none writes)
    (present : ∀ node, (base.write writes).HasInode id node → post (some node) writes) :
    Ensures base (inode? id) writes post := by
  apply Ensures.find?
  · intro missing
    apply absent
    rintro node ⟨held, _⟩
    rw [missing] at held
    cases held
  · intro bytes node held decoded
    exact present node (kept.inode_of_decode held decoded)

theorem ensures_inode {post : INode → Writes → Prop}
    (present : ∀ node, (base.write writes).HasInode id node → post node writes) :
    Ensures base (inode id) writes post := by
  refine .bind (.lift fun _ _ => .find fun bytes node held decoded => ?_)
  exact present node (kept.inode_of_decode held decoded)

theorem ensures_link? {post : Option ChildLink → Writes → Prop}
    (absent : (∀ id, ¬ (base.write writes).HasLink parent name id) → post none writes)
    (present : ∀ id, (base.write writes).HasLink parent name id → post (some ⟨id⟩) writes) :
    Ensures base (link? parent name) writes post := by
  apply Ensures.find?
  · intro missing
    apply absent
    intro id held
    rw [Contents.HasLink, missing] at held
    cases held
  · intro bytes found held decoded
    exact present found.id (kept.link_of_decode held decoded)

-- Where a name is free for an inode, a link leads to that inode if there is one.
theorem ensures_link?_free {post : Option ChildLink → Writes → Prop}
    (holds : ∀ found, (∀ id, requireFree parent name id found = .ok () →
      ∀ other, (base.write writes).HasLink parent name other → other = id) → post found writes) :
    Ensures base (link? parent name) writes post := by
  apply ensures_link? kept
  · intro absent
    apply holds
    intro id _ other link
    exact absurd link (absent other)
  · intro found link
    apply holds
    intro id required other same
    rw [requireFree] at required
    split at required
    · rename_i own
      rw [← own]
      exact same.unique link
    · cases required

end

structure Held (base : Contents) (writes : Writes) (whole : Prop) (id parent : Int64) (name : String) :
    Prop where
  woven : Woven base writes [id] whole
  only : ∀ place title, (base.write writes).HasLink place title id → place = parent ∧ title = name

theorem Woven.hold (woven : Woven base writes [] whole) (inode : (base.write writes).HasInode id node) :
    Held base writes whole id node.parentId node.name := by
  constructor
  · exact woven.take id
  · intro place title link
    obtain ⟨other, same, rfl, rfl⟩ := woven.tied.down place title id (by simp) link
    simp [same.unique inode]

theorem Woven.hold_absent (woven : Woven base writes [] whole)
    (absent : ∀ node, ¬ (base.write writes).HasInode id node) (parent : Int64) (name : String) :
    Held base writes whole id parent name := by
  constructor
  · exact woven.take id
  · intro place title link
    obtain ⟨node, inode, _⟩ := woven.tied.down place title id (by simp) link
    exact absurd inode (absent node)

namespace Held

theorem kept (held : Held base writes whole id parent name) : (base.write writes).Kept :=
  held.woven.tied.kept

theorem elsewhere (held : Held base writes whole id parent name)
    (foreign : ¬ (base.write writes).HasLink parent name id) (place : Int64) (title : String) :
    Held base writes whole id place title := by
  constructor
  · exact held.woven
  · intro other also link
    obtain ⟨rfl, rfl⟩ := held.only other also link
    exact absurd link foreign

theorem setInode (held : Held base writes whole id parent name) {value : Option Bytes}
    (kept : ((base.write writes).put (.inode id) value).Kept) :
    Held base (writes.insert (Key.inode id).bytes value) whole id parent name := by
  constructor
  · exact held.woven.setInode (by simp) kept
  · intro place title link
    exact held.only place title (by simpa using link)

theorem cut (held : Held base writes whole id parent name)
    (own : (base.write writes).HasLink parent name id) (place : Int64) (title : String) :
    Held base (writes.insert (Key.child parent name).bytes none) whole id place title := by
  constructor
  · apply held.woven.setLink (held.kept.put_none _)
    · intro other link
      simp [link.unique own]
    · intro other link
      simp at link
  · intro other also link
    rw [Contents.write_insert] at link
    obtain ⟨rfl, rfl⟩ := held.only other also link.of_put_none
    simp at link

-- An inode that was written is let go when the one link to it is put.
theorem link (held : Held base writes whole id node.parentId node.name)
    (free : ∀ other, (base.write writes).HasLink node.parentId node.name other → other = id)
    (inode : (base.write writes).HasInode id node) (touch : writes.Touch (.inode id)) :
    Woven base (writes.insert (Key.child node.parentId node.name).bytes
      (some (Record.encode (ChildLink.mk id)))) [] whole := by
  have linked : ((base.write writes).put (.child node.parentId node.name)
      (some (Record.encode (ChildLink.mk id)))).HasLink node.parentId node.name id :=
    Contents.hasLink_put_self
  have woven := held.woven.setLink (held.kept.put_link node.parentId node.name id)
    (fun other link => by simp [free other link]) (fun other link => by simp [link.unique linked])
  apply woven.release
  · exact Writes.touch_insert touch
  · intro place title link
    refine ⟨node, by simpa using inode, ?_⟩
    by_cases same : Key.child place title = Key.child node.parentId node.name
    · cases same
      simp
    · have before : (base.write writes).HasLink place title id := by simpa [same] using link
      obtain ⟨rfl, rfl⟩ := held.only place title before
      simp
  · intro other present
    have before : (base.write writes).HasInode id other := by simpa using present
    rw [before.unique inode, Contents.write_insert]
    exact linked

-- An inode that was deleted is let go when no link to it is left.
theorem gone (held : Held base writes whole id parent name) (touch : writes.Touch (.inode id))
    (absent : ∀ node, ¬ (base.write writes).HasInode id node)
    (foreign : ¬ (base.write writes).HasLink parent name id) : Woven base writes [] whole := by
  apply held.woven.release touch
  · intro place title link
    obtain ⟨rfl, rfl⟩ := held.only place title link
    exact absurd link foreign
  · intro node inode
    exact absurd inode (absent node)

end Held

theorem Held.ensures_unlink (held : Held base writes whole id node.parentId node.name)
    (placed : node.Placed id) {post : Unit → Writes → Prop}
    (foreign : ¬ (base.write writes).HasLink node.parentId node.name id → post () writes)
    (own : (base.write writes).HasLink node.parentId node.name id →
      post () (writes.insert (Key.child node.parentId node.name).bytes none)) :
    Ensures base (unlink node) writes post := by
  have usable : (decide (node.parentId ≤ 0) || node.name.isEmpty) = false := by
    simp [placed.parent, placed.name]
  rw [unlink, if_neg (by simp [usable])]
  apply Ensures.bind
  apply ensures_link? held.kept
  · intro absent
    exact .pure (foreign (absent id))
  · intro found link
    dsimp only
    split
    · rename_i same
      apply Ensures.delete
      apply own
      rwa [← placed.own, ← same]
    · rename_i differ
      apply Ensures.pure
      apply foreign
      intro other
      apply differ
      rw [placed.own]
      exact link.unique other

theorem ensures_prepareReplacement (woven : Woven base writes [] whole) {existing : INode}
    (inode : (base.write writes).HasInode node.id existing) :
    Ensures base (prepareReplacement existing node) writes fun _ later =>
      Held base later whole node.id node.parentId node.name := by
  have held := woven.hold inode
  refine .bind (.lift fun _ _ => ?_)
  split
  · apply held.ensures_unlink inode.2
    · exact fun foreign => held.elsewhere foreign _ _
    · exact fun own => held.cut own _ _
  · rename_i stays
    simp only [Bool.or_eq_true, decide_eq_true_eq, not_or, Decidable.not_not] at stays
    rw [← stays.1, ← stays.2]
    exact .pure held

theorem placed_of_wellFormed (wellFormed : requireWellFormed node = .ok ()) (sized : node.Sized) :
    node.Placed node.id := by
  rw [requireWellFormed] at wellFormed
  cases first : requirePositive "inode id" node.id with
  | error error =>
    rw [first] at wellFormed
    cases wellFormed
  | ok done =>
    cases second : requirePositive "parent id" node.parentId with
    | error error =>
      rw [first, second] at wellFormed
      cases wellFormed
    | ok done =>
      cases empty : node.name.isEmpty with
      | true =>
        rw [first, second, empty] at wellFormed
        cases wellFormed
      | false => exact ⟨rfl, pos_of_requirePositive second, empty, sized⟩

theorem ensures_touch (woven : Woven base writes hand whole) {post : Unit → Writes → Prop}
    (holds : ∀ written, base.write written = base.write writes → Woven base written hand whole →
      post () written) :
    Ensures base (touch id) writes post := by
  apply Ensures.bind
  apply ensures_inode? woven.tied.kept
  · intro _
    exact .pure (holds writes rfl woven)
  · intro node inode
    apply Ensures.put
    apply holds
    · rw [Contents.write_insert]
      exact Contents.put_same inode.1
    · exact woven.touch inode.1

theorem ensures_link (held : Held base writes whole node.id node.parentId node.name)
    (free : ∀ other, (base.write writes).HasLink node.parentId node.name other → other = node.id)
    (placed : node.Placed node.id) :
    Ensures base (do putInode node.id node; putLink node.parentId node.name node.id) writes
      fun _ later => Woven base later [] whole := by
  apply Ensures.bind
  apply Ensures.put
  apply Ensures.put
  apply Held.link
  · exact held.setInode (held.kept.put_inode placed)
  · simpa using free
  · rw [Contents.write_insert]
    exact Contents.hasInode_put_self placed
  · exact Writes.touch_insert_self _ _ _

theorem ensures_create (sized : node.Sized) (woven : Woven base writes [] whole) :
    Ensures base (create node) writes fun _ later => Woven base later [] whole := by
  refine .bind (.lift fun _ wellFormed => ?_)
  have placed := placed_of_wellFormed wellFormed sized
  have link (later : Writes) (held : Held base later whole node.id node.parentId node.name) :
      Ensures base (do
        requireFree node.parentId node.name node.id (← link? node.parentId node.name)
        touch node.parentId
        putInode node.id node
        putLink node.parentId node.name node.id) later fun _ last => Woven base last [] whole := by
    refine .bind (ensures_link?_free held.kept fun found free => .bind (.lift fun _ required => ?_))
    refine .bind (ensures_touch held.woven fun written same woven => ?_)
    apply ensures_link
    · constructor
      · exact woven
      · rw [same]
        exact held.only
    · rw [same]
      exact free _ required
    · exact placed
  apply Ensures.bind
  apply ensures_inode? woven.tied.kept
  · intro absent
    exact link writes (woven.hold_absent absent _ _)
  · intro existing inode
    apply Ensures.bind
    apply (ensures_prepareReplacement woven inode).mono
    exact fun _ => link

theorem ensures_requireNotAbove (kept : (base.write writes).Kept) {post : Unit → Writes → Prop}
    (holds : post () writes) (bound : Nat) (seen : List Int64) (current : INode) :
    Ensures base (requireNotAbove id bound seen current) writes post := by
  induction bound generalizing seen current with
  | zero => exact .pure holds
  | succ bound ih =>
    rw [requireNotAbove]
    split
    · exact .throw
    · split
      · exact .pure holds
      · apply Ensures.bind
        apply ensures_inode? kept
        · exact fun _ => .pure holds
        · exact fun parent _ => ih _ parent

theorem ensures_move (woven : Woven base writes [] whole) {target : INode} {source destination : Int64}
    (inode : (base.write writes).HasInode id node)
    (link : (base.write writes).HasLink source node.name id)
    (directory : (base.write writes).HasInode destination target) (positive : 0 < destination) :
    Ensures base (move node target id source destination) writes fun _ later =>
      Woven base later [] whole := by
  have kept := woven.tied.kept
  -- The link that is followed is the one that the inode names.
  obtain ⟨other, same, rfl, _⟩ := woven.tied.down source node.name id (by simp) link
  cases same.unique inode
  refine .bind (.visibleCount fun count => .bind ?_)
  apply ensures_requireNotAbove kept
  refine .bind (ensures_link?_free kept fun found free => .bind (.lift fun _ required => ?_))
  have only := free id required
  let moved : INode := { node with parentId := destination }
  let touched := writes.insert (Key.inode destination).bytes (some (Record.encode target))
  let written := touched.insert (Key.inode id).bytes (some (Record.encode moved))
  have placed : moved.Placed id := inode.2.withParent positive
  have view : base.write touched = base.write writes := by
    rw [Contents.write_insert]
    exact Contents.put_same directory.1
  have held : Held base touched whole id node.parentId node.name :=
    (woven.touch directory.1).hold (by rwa [view])
  have stored : (base.write written).HasInode id moved := by
    rw [Contents.write_insert]
    exact Contents.hasInode_put_self placed
  have links (place : Int64) (title : String) (other : Int64) :
      (base.write written).HasLink place title other ↔ (base.write writes).HasLink place title other := by
    rw [Contents.write_insert, Contents.hasLink_put (by simp), view]
  have cut : Held base (written.insert (Key.child node.parentId node.name).bytes none) whole id
      moved.parentId moved.name :=
    (held.setInode (held.kept.put_inode placed)).cut ((links _ _ _).2 link) _ _
  refine .bind (.put (.bind (.put (.bind (.delete (.put ?_))))))
  apply cut.link
  · intro other present
    rw [Contents.write_insert] at present
    exact only other ((links _ _ _).1 present.of_put_none)
  · simpa using stored
  · exact Writes.touch_insert (Writes.touch_insert_self _ _ _)

theorem ensures_reparent {source destination : Int64} (woven : Woven base writes [] whole) :
    Ensures base (reparent id source destination) writes fun _ later => Woven base later [] whole := by
  have kept := woven.tied.kept
  refine .bind (.lift fun _ _ => .bind (.lift fun _ _ => .bind (.lift fun _ required => ?_)))
  refine .bind (ensures_inode kept fun node inode => .bind (.find fun bytes found held decoded => ?_))
  have link := kept.link_of_decode held decoded
  refine .bind (.lift fun _ linked => .bind (ensures_inode kept fun target directory => ?_))
  rw [requireLinked] at linked
  split at linked
  · rename_i own
    rw [own] at link
    dsimp only
    split
    · exact .bind .throw
    · split
      · exact ensures_move woven inode link directory (pos_of_requirePositive required)
      · exact .pure woven
  · cases linked

theorem ensures_unlink_deleted (held : Held base writes whole id node.parentId node.name)
    (placed : node.Placed id) :
    Ensures base (unlink node) (writes.insert (Key.inode id).bytes none) fun _ later =>
      Woven base later [] whole := by
  have deleted := held.setInode (held.kept.put_none _)
  have touch : Writes.Touch (writes.insert (Key.inode id).bytes none) (.inode id) :=
    Writes.touch_insert_self _ _ _
  apply deleted.ensures_unlink placed
  · exact deleted.gone touch (by simp)
  · intro own
    apply (deleted.cut own node.parentId node.name).gone
    · exact Writes.touch_insert touch
    · simp
    · simp

theorem ensures_deleteAll (kept : (base.write writes).Kept) {post : Nat → Writes → Prop}
    (holds : post 0 writes) : Ensures base (Chain.deleteAll id) writes post := by
  refine .bind (.bind (.lift fun _ _ => .bind (.scan fun pairs _ seen => .lift fun chain read => ?_)))
  cases pairs with
  | nil =>
    cases read
    exact .bind (.pure (.pure holds))
  | cons pair rest =>
    obtain ⟨held, begins⟩ := seen pair List.mem_cons_self
    exact absurd begins fun begins => kept.no_fileBlock held begins

theorem ensures_deleteFile (woven : Woven base writes [] whole) :
    Ensures base (deleteFile id) writes fun _ later => Woven base later [] whole := by
  have kept := woven.tied.kept
  refine .bind (ensures_inode kept fun node inode => ?_)
  dsimp only
  split
  · exact .bind .throw
  · refine .bind (ensures_deleteAll kept (.bind (.delete ?_)))
    exact ensures_unlink_deleted (woven.hold inode) inode.2

theorem ensures_deleteChild (woven : Woven base writes [] whole) :
    Ensures base (deleteChild parent name) writes fun _ later => Woven base later [] False :=
  .bind (.lift fun _ _ => .bind (.lift fun _ _ => .delete (woven.cut parent name)))

end FsMeta.Tree
