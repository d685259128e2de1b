import FsMeta.Proofs.Tree.Records

set_option autoImplicit false

/-!
Links and inodes that agree. A transaction works on its own view; of the inodes that it has in hand the
links may be loose for a while. What it does with the links of an inode shows in the inode's record too,
which is what other transactions run into.
-/
namespace FsMeta

namespace Tree

/-- A link leads to an inode that names it, and an inode has its link. The ids in hand are left out,
and the second half holds only as long as no link was taken away on its own. -/
structure Tied (contents : Contents) (hand : List Int64) (whole : Prop) : Prop where
  kept : contents.Kept
  down : ∀ parent name id, id ∉ hand → contents.HasLink parent name id →
    ∃ node, contents.HasInode id node ∧ node.parentId = parent ∧ node.name = name
  up : whole → ∀ id node, id ∉ hand → contents.HasInode id node →
    contents.HasLink node.parentId node.name id

/-- No link to the inode came, and none went as long as no link is taken away on its own. -/
structure Quiet (earlier later : Contents) (id : Int64) (whole : Prop) : Prop where
  came : ∀ parent name, later.HasLink parent name id → earlier.HasLink parent name id
  went : whole → ∀ parent name, earlier.HasLink parent name id → later.HasLink parent name id

/-- A transaction's view is tied, and the links to an inode are as they were unless it is written. -/
structure Woven (base : Contents) (writes : Writes) (hand : List Int64) (whole : Prop) : Prop where
  tied : Tied (base.write writes) hand whole
  quiet : ∀ id, id ∉ hand → ¬ writes.Touch (.inode id) → Quiet base (base.write writes) id whole

variable {base : Contents} {writes : Writes} {hand : List Int64} {whole : Prop}

theorem Tied.weaken {part : Prop} {contents : Contents} (tied : Tied contents hand whole)
    (less : part → whole) : Tied contents hand part :=
  { tied with up := fun full => tied.up (less full) }

theorem Quiet.refl (contents : Contents) (id : Int64) (whole : Prop) : Quiet contents contents id whole :=
  ⟨fun _ _ link => link, fun _ _ _ link => link⟩

theorem Quiet.trans {earlier between later : Contents} {id : Int64} (one : Quiet earlier between id whole)
    (two : Quiet between later id whole) : Quiet earlier later id whole where
  came := fun parent name link => one.came parent name (two.came parent name link)
  went := fun full parent name link => two.went full parent name (one.went full parent name link)

theorem Quiet.weaken {part : Prop} {earlier later : Contents} {id : Int64}
    (quiet : Quiet earlier later id whole) (less : part → whole) : Quiet earlier later id part :=
  ⟨quiet.came, fun full => quiet.went (less full)⟩

theorem Tied.woven (tied : Tied base [] whole) : Woven base .empty [] whole := by
  have same : base.write .empty = base := Contents.write_of_isEmpty base rfl
  constructor
  · rwa [same]
  · intro id _ _
    rw [same]
    exact .refl base id whole

namespace Woven

theorem take (woven : Woven base writes hand whole) (id : Int64) :
    Woven base writes (id :: hand) whole where
  tied :=
    { kept := woven.tied.kept
      down := fun parent name other free =>
        woven.tied.down parent name other (List.not_mem_of_not_mem_cons free)
      up := fun full other node free =>
        woven.tied.up full other node (List.not_mem_of_not_mem_cons free) }
  quiet := fun other free => woven.quiet other (List.not_mem_of_not_mem_cons free)

theorem weaken {part : Prop} (woven : Woven base writes hand whole) (less : part → whole) :
    Woven base writes hand part where
  tied := woven.tied.weaken less
  quiet := fun id free untouched => (woven.quiet id free untouched).weaken less

theorem release {id : Int64} (woven : Woven base writes (id :: hand) whole)
    (touch : writes.Touch (.inode id))
    (down : ∀ parent name, (base.write writes).HasLink parent name id →
      ∃ node, (base.write writes).HasInode id node ∧ node.parentId = parent ∧ node.name = name)
    (up : ∀ node, (base.write writes).HasInode id node →
      (base.write writes).HasLink node.parentId node.name id) : Woven base writes hand whole := by
  constructor
  · constructor
    · exact woven.tied.kept
    · intro parent name other free link
      by_cases same : other = id
      · subst same
        exact down parent name link
      · exact woven.tied.down parent name other (by simp [same, free]) link
    · intro full other node free inode
      by_cases same : other = id
      · subst same
        exact up node inode
      · exact woven.tied.up full other node (by simp [same, free]) inode
  · intro other free untouched
    by_cases same : other = id
    · subst same
      exact absurd touch untouched
    · exact woven.quiet other (by simp [same, free]) untouched

theorem insert (woven : Woven base writes hand whole) {key : Key} {value : Option Bytes}
    (kept : ((base.write writes).put key value).Kept)
    (inodes : ∀ id node, id ∉ hand → (((base.write writes).put key value).HasInode id node ↔
      (base.write writes).HasInode id node))
    (links : ∀ parent name id, id ∉ hand →
      (((base.write writes).put key value).HasLink parent name id ↔
        (base.write writes).HasLink parent name id)) :
    Woven base (writes.insert key.bytes value) hand whole := by
  constructor
  · rw [Contents.write_insert]
    constructor
    · exact kept
    · intro parent name id free link
      have before := (links parent name id free).1 link
      obtain ⟨node, inode, named⟩ := woven.tied.down parent name id free before
      exact ⟨node, (inodes id node free).2 inode, named⟩
    · intro full id node free inode
      have before := (inodes id node free).1 inode
      exact (links _ _ id free).2 (woven.tied.up full id node free before)
  · intro id free untouched
    have quiet := woven.quiet id free fun touch => untouched (Writes.touch_insert touch)
    rw [Contents.write_insert]
    constructor
    · intro parent name link
      exact quiet.came parent name ((links parent name id free).1 link)
    · intro full parent name link
      exact (links parent name id free).2 (quiet.went full parent name link)

-- What an inode in hand says is nobody's business.
theorem setInode (woven : Woven base writes hand whole) {id : Int64} (held : id ∈ hand)
    {value : Option Bytes} (kept : ((base.write writes).put (.inode id) value).Kept) :
    Woven base (writes.insert (Key.inode id).bytes value) hand whole := by
  apply woven.insert kept
  · intro other node free
    apply Contents.hasInode_put
    rintro same
    cases same
    exact free held
  · intro parent name other _
    exact Contents.hasLink_put (by simp)

theorem setLink (woven : Woven base writes hand whole) {parent : Int64} {name : String}
    {value : Option Bytes} (kept : ((base.write writes).put (.child parent name) value).Kept)
    (before : ∀ id, (base.write writes).HasLink parent name id → id ∈ hand)
    (after : ∀ id, ((base.write writes).put (.child parent name) value).HasLink parent name id →
      id ∈ hand) :
    Woven base (writes.insert (Key.child parent name).bytes value) hand whole := by
  apply woven.insert kept
  · intro id node _
    exact Contents.hasInode_put (by simp)
  · intro place title id free
    by_cases same : Key.child place title = Key.child parent name
    · cases same
      exact ⟨fun link => absurd (after id link) free, fun link => absurd (before id link) free⟩
    · exact Contents.hasLink_put same

theorem touch (woven : Woven base writes hand whole) {key : Key} {value : Option Bytes}
    (same : (base.write writes) key.bytes = value) :
    Woven base (writes.insert key.bytes value) hand whole := by
  have view := Contents.put_same same
  apply woven.insert
  · rw [view]
    exact woven.tied.kept
  · simp [view]
  · simp [view]

theorem cut (woven : Woven base writes [] whole) (parent : Int64) (name : String) :
    Woven base (writes.insert (Key.child parent name).bytes none) [] False := by
  constructor
  · rw [Contents.write_insert]
    constructor
    · exact woven.tied.kept.put_none _
    · intro place title id free link
      obtain ⟨node, inode, named⟩ := woven.tied.down place title id free link.of_put_none
      exact ⟨node, by simpa using inode, named⟩
    · exact False.elim
  · intro id free untouched
    have quiet := woven.quiet id free fun touch => untouched (Writes.touch_insert touch)
    rw [Contents.write_insert]
    constructor
    · intro place title link
      exact quiet.came place title link.of_put_none
    · exact False.elim

end Woven

end Tree

end FsMeta
