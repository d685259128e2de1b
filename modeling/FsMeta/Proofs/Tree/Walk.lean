import FsMeta.Proofs.Tree.Changes

set_option autoImplicit false

namespace FsMeta

namespace Contents

def Identified (contents : Contents) : Prop :=
  ∀ (id : Int64) (node : INode), contents.Holds (.inode id) node → node.id = id

def drop (contents : Contents) (key : Bytes) : Contents :=
  fun other => if other = key then none else contents other

variable {contents : Contents} {id : Int64}

theorem Owned.identified (owned : contents.Owned) : contents.Identified := fun id node held => (owned id node held).1

theorem Thinned.identified {later : Contents} (thinned : Thinned contents later) (identified : contents.Identified) :
    later.Identified :=
  fun id node held => identified id node (thinned.inode held)

theorem write_insert_none (contents : Contents) (writes : Writes) (key : Bytes) :
    contents.write (writes.insert key none) = (contents.write writes).drop key := by
  funext other
  rw [write_apply, Table.find?_insert, drop]
  split <;> rfl

theorem thinned_drop (contents : Contents) (key : Bytes) : Thinned contents (contents.drop key) := by
  intro other _
  rw [drop]
  split
  · exact .inr rfl
  · exact .inl rfl

theorem holds_drop {node : INode} {key : Bytes} (differ : (Key.inode id).bytes ≠ key) :
    (contents.drop key).Holds (.inode id) node ↔ contents.Holds (.inode id) node := by
  rw [Holds, Holds, drop, if_neg differ]

theorem drop_self (contents : Contents) (key : Bytes) : contents.drop key key = none := if_pos rfl

theorem drop_other {key other : Bytes} (differ : other ≠ key) : contents.drop key other = contents other :=
  if_neg differ

end Contents

namespace Tree

open Contents (Thinned)
open Scoped (Ensures)

variable {base earlier : Contents} {writes later : Writes} {removal after : Removal} {pushed : List Int64}
variable {key value : Bytes} {id : Int64}

/-- What becomes of a link under that key which leads to that id. In every case the link goes last. -/
inductive Removed (base : Contents) (writes : Writes) (removal : Removal) (key : Bytes) (id : Int64) :
    Removal → Writes → Prop
  | absent (gone : base.write writes (Key.inode id).bytes = none) :
    Removed base writes removal key id removal (writes.insert key none)
  | file {child : INode} (held : (base.write writes).Holds (.inode id) child) (kind : child.kind = .file)
    {between : Writes} (discarded : writes.Extended Discarding between) :
    Removed base writes removal key id removal.withFile
      ((between.insert (Key.inode child.id).bytes none).insert key none)
  | visited {child : INode} (held : (base.write writes).Holds (.inode id) child)
    (kind : child.kind = .directory) (visited : child.id ∈ removal.visited) :
    Removed base writes removal key id removal (writes.insert key none)
  | directory {child : INode} (held : (base.write writes).Holds (.inode id) child)
    (kind : child.kind = .directory) (fresh : child.id ∉ removal.visited) :
    Removed base writes removal key id (removal.withDirectory child.id)
      ((writes.insert (Key.inode child.id).bytes none).insert key none)

theorem Removed.visited_eq (removed : Removed base writes removal key id after later) :
    after.visited = removal.visited := by
  cases removed <;> rfl

theorem Removed.thinned (removed : Removed base writes removal key id after later) :
    Thinned (base.write writes) (base.write later) := by
  cases removed with
  | absent | visited =>
    rw [Contents.write_insert_none]
    exact Contents.thinned_drop _ _
  | directory =>
    rw [Contents.write_insert_none, Contents.write_insert_none]
    exact (Contents.thinned_drop _ _).trans (Contents.thinned_drop _ _)
  | file _ _ discarded =>
    have spared := Contents.thinned_of_deleting base (discarded.mono fun _ _ => And.right)
    rw [Contents.write_insert_none, Contents.write_insert_none]
    exact (spared.trans (Contents.thinned_drop _ _)).trans (Contents.thinned_drop _ _)

theorem ensures_removeChild_removed :
    Ensures base (removeChild removal (key, value)) writes fun after later =>
      ∃ link : ChildLink, Record.decode value = .ok link ∧
        Removed base writes removal key link.id after later := by
  refine .bind (.lift fun link decoded => .bind (.bind ?_))
  refine ensures_find? (fun gone => ?_) fun child held => ?_
  · exact .pure (.bind (.delete (.pure ⟨link, decoded, .absent gone⟩)))
  · dsimp only
    split
    · rename_i kind
      refine .bind ((Chain.only_deleteAll child.id base writes).mono fun _ between discarded => ?_)
      exact .bind (.delete (.pure (.bind (.delete (.pure ⟨link, decoded, .file held kind discarded⟩)))))
    · rename_i kind
      split
      · rename_i visited
        exact .pure (.bind (.delete (.pure
          ⟨link, decoded, .visited held kind (List.contains_iff_mem.1 visited)⟩)))
      · rename_i fresh
        have fresh : child.id ∉ removal.visited := fun member => fresh (List.contains_iff_mem.2 member)
        exact .bind (.delete (.pure (.bind (.delete (.pure ⟨link, decoded, .directory held kind fresh⟩)))))

structure Pushing (earlier now : Contents) (pushed : List Int64) : Prop where
  thinned : Thinned earlier now
  distinct : pushed.Nodup
  taken : ∀ id ∈ pushed, (earlier (Key.inode id).bytes).isSome ∧ now (Key.inode id).bytes = none

namespace Pushing

variable {now next : Contents}

theorem start (contents : Contents) : Pushing contents contents [] := ⟨.refl contents, List.nodup_nil, by simp⟩

theorem thin (pushing : Pushing earlier now pushed) (thinned : Thinned now next) : Pushing earlier next pushed where
  thinned := pushing.thinned.trans thinned
  distinct := pushing.distinct
  taken := by
    intro id member
    obtain ⟨before, gone⟩ := pushing.taken id member
    refine ⟨before, ?_⟩
    rcases thinned (.inode id) trivial with same | lost
    · exact same.trans gone
    · exact lost

theorem drop (pushing : Pushing earlier now pushed) (key : Bytes) : Pushing earlier (now.drop key) pushed :=
  pushing.thin (Contents.thinned_drop now key)

theorem push (pushing : Pushing earlier now pushed) {node : INode} (held : now.Holds (.inode id) node) :
    Pushing earlier (now.drop (Key.inode id).bytes) (id :: pushed) := by
  have fresh : id ∉ pushed := by
    intro member
    obtain ⟨bytes, stored, _⟩ := held
    rw [(pushing.taken id member).2] at stored
    cases stored
  obtain ⟨bytes, before, _⟩ := pushing.thinned.inode held
  have dropped := pushing.drop (Key.inode id).bytes
  refine ⟨dropped.thinned, List.nodup_cons.2 ⟨fresh, pushing.distinct⟩, ?_⟩
  rw [List.forall_mem_cons]
  exact ⟨⟨by rw [before]; rfl, Contents.drop_self _ _⟩, dropped.taken⟩

theorem removed (pushing : Pushing earlier (base.write writes) pushed) (identified : earlier.Identified)
    (removed : Removed base writes removal key id after later) :
    ∃ more, Pushing earlier (base.write later) more ∧
      after.pending.length + pushed.length = removal.pending.length + more.length := by
  have thinned := removed.thinned
  cases removed with
  | absent | visited | file => exact ⟨pushed, pushing.thin thinned, rfl⟩
  | @directory child held kind fresh =>
    rw [Contents.write_insert_none, Contents.write_insert_none, pushing.thinned.identified identified _ child held]
    refine ⟨id :: pushed, (pushing.push held).drop _, ?_⟩
    simp [Removal.withDirectory]
    omega

end Pushing

/-- What is kept on the way: when a directory is passed over that was visited before, when one is opened,
and when one of its links is removed. The links that are left to remove are listed with what they hold. -/
structure Keeps (base : Contents) (inv : Removal → List (Bytes × Bytes) → Writes → Prop) : Prop where
  skips : ∀ (removal : Removal) (id : Int64) (rest : List Int64) (writes : Writes),
    removal.pending = id :: rest → id ∈ removal.visited → inv removal [] writes →
      inv { removal with pending := rest } [] writes
  opens : ∀ (removal : Removal) (id : Int64) (rest : List Int64) (pairs : List (Bytes × Bytes)) (writes : Writes),
    removal.pending = id :: rest → id ∉ removal.visited →
    (∀ key value, (key, value) ∈ pairs ↔
      base.write writes key = some value ∧ (Key.children id).isPrefixOf key = true) →
    inv removal [] writes → inv { removal with pending := rest, visited := id :: removal.visited } pairs writes
  removes : ∀ (removal after : Removal) (key value : Bytes) (left : List (Bytes × Bytes)) (writes later : Writes)
    (id : Int64) (link : ChildLink), id ∈ removal.visited → (Key.children id).isPrefixOf key = true →
      Record.decode value = .ok link → Removed base writes removal key link.id after later →
        inv removal ((key, value) :: left) writes → inv after left later

section

variable {inv : Removal → List (Bytes × Bytes) → Writes → Prop} (keeps : Keeps base inv)
variable (identified : earlier.Identified)
include keeps identified

theorem ensures_removeChildren_walk {pairs : List (Bytes × Bytes)}
    (pushing : Pushing earlier (base.write writes) pushed) (visited : id ∈ removal.visited)
    (begins : ∀ pair ∈ pairs, (Key.children id).isPrefixOf pair.1 = true) (kept : inv removal pairs writes) :
    Ensures base (pairs.foldlM removeChild removal) writes fun after later =>
      inv after [] later ∧ ∃ more, Pushing earlier (base.write later) more ∧
        after.pending.length + pushed.length = removal.pending.length + more.length := by
  induction pairs generalizing writes removal pushed with
  | nil => exact .pure ⟨kept, pushed, pushing, rfl⟩
  | cons pair rest ih =>
    obtain ⟨first, begins⟩ := List.forall_mem_cons.1 begins
    rw [List.foldlM_cons]
    refine .bind (ensures_removeChild_removed.mono fun after between ⟨link, decoded, removed⟩ => ?_)
    obtain ⟨more, pushing, lengths⟩ := pushing.removed identified removed
    have kept := keeps.removes _ _ _ _ _ _ _ id link visited first decoded removed kept
    refine (ih pushing (removed.visited_eq ▸ visited) begins kept).mono ?_
    rintro last later ⟨kept, most, pushing, further⟩
    exact ⟨kept, most, pushing, by omega⟩

/-- The bound is not reached: every step takes one pending directory, and no more are pushed than there
are inodes. -/
theorem ensures_removeBelow_walk {count bound : Nat} (counts : earlier.AtMost count)
    (pushing : Pushing earlier (base.write writes) pushed) (kept : inv removal [] writes)
    (room : removal.pending.length + count < bound + pushed.length) :
    Ensures base (removeBelow bound removal) writes fun after later => after.pending = [] ∧ inv after [] later := by
  induction bound generalizing writes removal pushed with
  | zero =>
    have few := length_le_of_stored counts pushing.distinct fun id member => (pushing.taken id member).1
    omega
  | succ bound ih =>
    rw [removeBelow]
    cases pending : removal.pending with
    | nil => exact .pure ⟨pending, kept⟩
    | cons id rest =>
      rw [pending, List.length_cons] at room
      dsimp only
      split
      · rename_i visited
        refine ih pushing (keeps.skips _ _ _ _ pending (List.contains_iff_mem.1 visited) kept) ?_
        dsimp only
        omega
      · rename_i fresh
        have fresh : id ∉ removal.visited := fun member => fresh (List.contains_iff_mem.2 member)
        refine .bind (.scan_exact fun pairs _ members => .bind ?_)
        have begins : ∀ pair ∈ pairs, (Key.children id).isPrefixOf pair.1 = true :=
          fun pair member => ((members pair.1 pair.2).1 member).2
        have kept := keeps.opens _ _ _ pairs _ pending fresh members kept
        refine (ensures_removeChildren_walk keeps identified pushing List.mem_cons_self begins kept).mono ?_
        rintro after between ⟨kept, more, pushing, lengths⟩
        refine ih pushing kept ?_
        dsimp only at lengths
        omega

end

end Tree

end FsMeta
