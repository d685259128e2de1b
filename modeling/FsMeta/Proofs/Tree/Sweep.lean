import FsMeta.Proofs.Tree.Operations

set_option autoImplicit false

namespace FsMeta.Tree

open Scoped (Ensures)

variable {base : Contents} {writes : Writes} {hand : List Int64} {whole : Prop}
variable {root parent id place : Int64} {name title : String} {removal : Removal}

theorem Woven.remove (woven : Woven base writes hand whole) (free : id ∉ hand)
    (link : (base.write writes).HasLink place title id) :
    Woven base ((writes.insert (Key.inode id).bytes none).insert (Key.child place title).bytes none)
      hand whole := by
  let deleted : Writes := writes.insert (Key.inode id).bytes none
  have view : base.write deleted = (base.write writes).put (.inode id) none :=
    Contents.write_insert _ _ _ _
  have taken : Woven base deleted (id :: hand) whole :=
    (woven.take id).setInode List.mem_cons_self (woven.tied.kept.put_none _)
  have linked : (base.write deleted).HasLink place title id := by simpa [view] using link
  have cut : Woven base (deleted.insert (Key.child place title).bytes none) (id :: hand) whole := by
    apply taken.setLink (taken.tied.kept.put_none _)
    · intro other same
      simp [same.unique linked]
    · intro other same
      simp at same
  apply cut.release
  · exact Writes.touch_insert (Writes.touch_insert_self _ _ _)
  · intro other also left
    rw [Contents.write_insert] at left
    have before : (base.write writes).HasLink other also id := by simpa [view] using left.of_put_none
    obtain ⟨node, inode, rfl, rfl⟩ := woven.tied.down other also id free before
    obtain ⟨same, present, rfl, rfl⟩ := woven.tied.down place title id free link
    cases present.unique inode
    simp at left
  · intro node inode
    simp [view] at inode

/-- What is pending or visited has no inode any more, but for the root. -/
structure Sweep (base : Contents) (writes : Writes) (whole : Prop) (root parent : Int64) (name : String)
    (removal : Removal) : Prop where
  held : Held base writes whole root parent name
  cleared : ∀ id, id ∈ removal.pending ∨ id ∈ removal.visited →
    id = root ∨ ∀ node, ¬ (base.write writes).HasInode id node

theorem ensures_removeLinked (kept : (base.write writes).Kept) {post : Removal → Writes → Prop}
    (stays : (∀ node, (base.write writes).HasInode id node → id ∈ removal.visited) → post removal writes)
    (deletes : ∀ later, (∀ other, other ∈ later.pending ∨ other ∈ later.visited →
      other = id ∨ other ∈ removal.pending ∨ other ∈ removal.visited) →
      post later (writes.insert (Key.inode id).bytes none)) :
    Ensures base (removeLinked removal id) writes post := by
  apply Ensures.bind
  apply ensures_inode? kept
  · intro absent
    apply Ensures.pure
    apply stays
    exact fun node inode => absurd inode (absent node)
  · intro child inode
    cases inode.2.own
    dsimp only
    split
    · refine .bind (ensures_deleteAll kept (.bind (.delete (.pure ?_))))
      apply deletes
      exact fun other member => .inr member
    · split
      · rename_i visited
        apply Ensures.pure
        apply stays
        exact fun _ _ => List.contains_iff_mem.1 visited
      · refine .bind (.delete (.pure ?_))
        apply deletes
        intro other member
        simpa [Removal.withDirectory, or_assoc] using member

namespace Sweep

-- The inode is there unless it is the root's, so only a link to the root can go alone.
theorem delete_link (sweep : Sweep base writes whole root parent name removal)
    (link : (base.write writes).HasLink place title id)
    (known : ∀ node, (base.write writes).HasInode id node → id ∈ removal.visited) :
    Sweep base (writes.insert (Key.child place title).bytes none) whole root parent name removal := by
  have same : id = root := by
    by_cases same : id = root
    · exact same
    · obtain ⟨node, inode, _⟩ := sweep.held.woven.tied.down place title id (by simpa) link
      have absent := (sweep.cleared id (.inr (known node inode))).resolve_left same
      exact absurd inode (absent node)
  subst same
  obtain ⟨rfl, rfl⟩ := sweep.held.only place title link
  constructor
  · exact sweep.held.cut link _ _
  · intro other member
    simpa using sweep.cleared other member

theorem delete_both (sweep : Sweep base writes whole root parent name removal)
    (link : (base.write writes).HasLink place title id) {later : Removal}
    (members : ∀ other, other ∈ later.pending ∨ other ∈ later.visited →
      other = id ∨ other ∈ removal.pending ∨ other ∈ removal.visited) :
    Sweep base ((writes.insert (Key.inode id).bytes none).insert (Key.child place title).bytes none)
      whole root parent name later := by
  have held := sweep.held
  have view : base.write (writes.insert (Key.inode id).bytes none) =
      (base.write writes).put (.inode id) none := Contents.write_insert _ _ _ _
  constructor
  · by_cases same : id = root
    · subst same
      obtain ⟨rfl, rfl⟩ := held.only place title link
      apply (held.setInode (held.kept.put_none _)).cut
      simpa using link
    · constructor
      · exact held.woven.remove (by simpa) link
      · intro other also left
        rw [Contents.write_insert] at left
        exact held.only other also (by simpa [view] using left.of_put_none)
  · intro other member
    have left (node : INode) (inode : ((base.write writes).put (.inode id) none).HasInode other node) :
        (base.write writes).HasInode other node := inode.of_put_none
    rcases members other member with rfl | member
    · simp
    · apply (sweep.cleared other member).imp_right
      intro absent node inode
      exact absent node (left node (by simpa using inode))

theorem ensures_removeChild (sweep : Sweep base writes whole root parent name removal)
    (link : (base.write writes).HasLink place title id) :
    Ensures base (removeChild removal ((Key.child place title).bytes, Record.encode (ChildLink.mk id)))
      writes fun after later => Sweep base later whole root parent name after ∧
        ∀ other also child, Key.child other also ≠ Key.child place title →
          (base.write writes).HasLink other also child → (base.write later).HasLink other also child := by
  refine .bind (.lift fun read decoded => ?_)
  rw [Record.decode_encode_link] at decoded
  cases decoded
  apply Ensures.bind
  apply ensures_removeLinked sweep.held.kept
  · intro known
    refine .bind (.delete (.pure ?_))
    constructor
    · exact sweep.delete_link link known
    · intro other also child differ held
      simpa [differ] using held
  · intro after members
    refine .bind (.delete (.pure ?_))
    constructor
    · exact sweep.delete_both link members
    · intro other also child differ held
      simpa [differ] using held

theorem ensures_removeChildren {pairs : List (Bytes × Bytes)} (ascending : Table.Ascending pairs)
    (links : ∀ pair ∈ pairs, ∃ place title id,
      pair = ((Key.child place title).bytes, Record.encode (ChildLink.mk id)) ∧
        (base.write writes).HasLink place title id)
    (sweep : Sweep base writes whole root parent name removal) :
    Ensures base (pairs.foldlM removeChild removal) writes fun after later =>
      Sweep base later whole root parent name after := by
  induction pairs generalizing writes removal with
  | nil => exact .pure sweep
  | cons pair rest ih =>
    obtain ⟨place, title, id, rfl, link⟩ := links pair List.mem_cons_self
    have below := List.pairwise_cons.1 ascending
    rw [List.foldlM_cons]
    apply Ensures.bind
    apply (sweep.ensures_removeChild link).mono
    intro after later ⟨sweep, others⟩
    apply ih below.2
    · intro pair member
      obtain ⟨other, also, child, rfl, held⟩ := links pair (List.mem_cons_of_mem _ member)
      have differ : Key.child other also ≠ Key.child place title := by
        intro same
        have less := below.1 _ member
        rw [same] at less
        exact List.lt_irrefl _ less
      exact ⟨other, also, child, rfl, others other also child differ held⟩
    · exact sweep

theorem ensures_removeBelow (sweep : Sweep base writes whole root parent name removal) (bound : Nat) :
    Ensures base (removeBelow bound removal) writes fun after later =>
      Sweep base later whole root parent name after := by
  induction bound generalizing writes removal with
  | zero => exact .pure sweep
  | succ bound ih =>
    rw [removeBelow]
    cases pending : removal.pending with
    | nil => exact .pure sweep
    | cons id rest =>
      dsimp only
      split
      · apply ih
        constructor
        · exact sweep.held
        · intro other member
          apply sweep.cleared other
          simp only [pending, List.mem_cons]
          exact member.imp_left .inr
      · refine .bind (.scan fun pairs ascending seen => .bind ?_)
        apply (ensures_removeChildren ascending _ _).mono
        · exact fun after later sweep => ih sweep
        · rintro ⟨key, value⟩ listed
          obtain ⟨held, begins⟩ := seen _ listed
          obtain ⟨other, title, child, rfl, rfl⟩ := sweep.held.kept.child held begins
          exact ⟨other, title, child, rfl, held⟩
        · constructor
          · exact sweep.held
          · intro other member
            apply sweep.cleared other
            simp only [pending, List.mem_cons] at member ⊢
            grind

end Sweep

theorem ensures_deleteDirectory (woven : Woven base writes [] whole) :
    Ensures base (deleteDirectory id) writes fun _ later => Woven base later [] whole := by
  refine .bind (ensures_inode woven.tied.kept fun node inode => ?_)
  dsimp only
  split
  · exact .bind .throw
  · have start : Sweep base writes whole id node.parentId node.name { pending := [id] } :=
      ⟨woven.hold inode, fun other member => .inl (by simpa using member)⟩
    refine .bind (.visibleCount fun count => .bind ?_)
    apply (start.ensures_removeBelow _).mono
    intro after later sweep
    refine .bind (.delete (.bind ?_))
    apply (ensures_unlink_deleted sweep.held inode.2).mono
    exact fun _ _ woven => .pure woven

end FsMeta.Tree
