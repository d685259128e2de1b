import FsMeta.Proofs.Tree.Weave

set_option autoImplicit false

namespace FsMeta

namespace Contents

variable {contents other : Contents} {writes : Writes}
variable {id parent : Int64} {name : String} {node : INode}

theorem HasLink.of_eq (link : contents.HasLink parent name id)
    (same : contents (Key.child parent name).bytes = other (Key.child parent name).bytes) :
    other.HasLink parent name id := same.symm.trans link

theorem HasInode.of_eq (inode : contents.HasInode id node)
    (same : contents (Key.inode id).bytes = other (Key.inode id).bytes) : other.HasInode id node :=
  ⟨same.symm.trans inode.1, inode.2⟩

theorem Kept.write (kept : contents.Kept) (view : (other.write writes).Kept) :
    (contents.write writes).Kept := by
  intro place bytes held
  cases written : writes.find? place with
  | none =>
    rw [write_apply, written] at held
    exact kept place bytes held
  | some value =>
    apply view place bytes
    rw [write_apply, written] at held ⊢
    exact held

end Contents

namespace Tree

def Traced (base : Contents) (past : List Writes) (whole : Prop) : Prop :=
  ∀ (count : Nat) (writes : Writes), past[count]? = some writes → ∀ id, ¬ writes.Touch (.inode id) →
    Quiet (base.after (past.take count)) (base.after (past.take (count + 1))) id whole

variable {base : Contents} {past : List Writes} {writes : Writes} {whole : Prop} {born : Nat}

namespace Traced

theorem weaken {part : Prop} (traced : Traced base past whole) (less : part → whole) :
    Traced base past part :=
  fun count writes found id untouched => (traced count writes found id untouched).weaken less

theorem nil : Traced base [] whole := by
  intro count writes found
  cases found

theorem append (traced : Traced base past whole)
    (last : ∀ id, ¬ writes.Touch (.inode id) →
      Quiet (base.after past) ((base.after past).write writes) id whole) :
    Traced base (past ++ [writes]) whole := by
  intro count other found id untouched
  rcases Nat.lt_or_ge count past.length with earlier | later
  · rw [List.getElem?_append_left earlier] at found
    rw [List.take_append_of_le_length earlier, List.take_append_of_le_length (Nat.le_of_lt earlier)]
    exact traced count other found id untouched
  · have bound : count < (past ++ [writes]).length := (List.getElem?_eq_some_iff.1 found).1
    have same : count = past.length := by
      rw [List.length_append, List.length_singleton] at bound
      omega
    subst same
    rw [List.getElem?_concat_length] at found
    cases found
    have all : (past ++ [writes]).take (past.length + 1) = past ++ [writes] :=
      List.take_of_length_le (by simp)
    rw [all, List.take_left, Contents.after_append, Contents.after_singleton]
    exact last id untouched

theorem quiet (traced : Traced base past whole) (bound : born ≤ past.length) {id : Int64}
    (untouched : ∀ writes ∈ past.drop born, ¬ writes.Touch (.inode id)) :
    Quiet (base.after (past.take born)) (base.after past) id whole := by
  have upTo (more : Nat) (within : born + more ≤ past.length) :
      Quiet (base.after (past.take born)) (base.after (past.take (born + more))) id whole := by
    induction more with
    | zero => exact .refl _ _ _
    | succ more ih =>
      have before := ih (by omega)
      have found : past[born + more]? = some past[born + more] := List.getElem?_eq_getElem (by omega)
      have member : past[born + more] ∈ past.drop born :=
        List.mem_drop_iff_getElem.2 ⟨more, by omega, rfl⟩
      exact before.trans (traced _ _ found id (untouched _ member))
  have all := upTo (past.length - born) (by omega)
  rwa [Nat.add_sub_cancel' bound, List.take_length] at all

end Traced

structure Apart (old now : Contents) (writes : Writes) (whole : Prop) : Prop where
  same : ∀ key, writes.Touch key → now key.bytes = old key.bytes
  quiet : ∀ id, writes.Touch (.inode id) → Quiet old now id whole

theorem Traced.apart (traced : Traced base past whole) (bound : born ≤ past.length)
    (fresh : ∀ earlier ∈ past.drop born, ∀ key, (writes.find? key).isSome → earlier.find? key = none) :
    Apart (base.after (past.take born)) (base.after past) writes whole where
  same := by
    intro key touch
    have split := congrArg base.after (List.take_append_drop born past)
    rw [Contents.after_append] at split
    rw [← split]
    exact Contents.after_apply_of_unwritten fun earlier member => fresh earlier member key.bytes touch
  quiet := by
    intro id touch
    apply traced.quiet bound
    intro earlier member written
    rw [Writes.Touch, fresh earlier member _ touch] at written
    cases written

section

variable {old now : Contents}

theorem Woven.quiet_publish (woven : Woven old writes [] whole) (apart : Apart old now writes whole)
    {id : Int64} (untouched : ¬ writes.Touch (.inode id)) : Quiet now (now.write writes) id whole := by
  constructor
  · intro parent name link
    by_cases touch : writes.Touch (.child parent name)
    · have seen : (old.write writes).HasLink parent name id := link.of_eq (Contents.write_of_touch touch)
      have found := (woven.quiet id (by simp) untouched).came parent name seen
      exact found.of_eq (apart.same _ touch).symm
    · exact link.of_eq (Contents.write_of_not_touch touch)
  · intro full parent name link
    by_cases touch : writes.Touch (.child parent name)
    · have found : old.HasLink parent name id := link.of_eq (apart.same _ touch)
      have seen := (woven.quiet id (by simp) untouched).went full parent name found
      exact seen.of_eq (Contents.write_of_touch touch)
    · exact link.of_eq (Contents.write_of_not_touch touch).symm

theorem Woven.publish (woven : Woven old writes [] whole) (apart : Apart old now writes whole)
    (tied : Tied now [] whole) : Tied (now.write writes) [] whole := by
  constructor
  · exact tied.kept.write woven.tied.kept
  · intro parent name id free link
    by_cases written : writes.Touch (.inode id)
    · have seen : (old.write writes).HasLink parent name id := by
        by_cases touch : writes.Touch (.child parent name)
        · exact link.of_eq (Contents.write_of_touch touch)
        · have current : now.HasLink parent name id := link.of_eq (Contents.write_of_not_touch touch)
          have found := (apart.quiet id written).came parent name current
          exact found.of_eq (Contents.write_of_not_touch touch).symm
      obtain ⟨node, inode, named⟩ := woven.tied.down parent name id free seen
      exact ⟨node, inode.of_eq (Contents.write_of_touch written), named⟩
    · have current := (woven.quiet_publish apart written).came parent name link
      obtain ⟨node, inode, named⟩ := tied.down parent name id free current
      exact ⟨node, inode.of_eq (Contents.write_of_not_touch written).symm, named⟩
  · intro full id node free inode
    by_cases written : writes.Touch (.inode id)
    · have present : (old.write writes).HasInode id node := inode.of_eq (Contents.write_of_touch written)
      have seen := woven.tied.up full id node free present
      by_cases touch : writes.Touch (.child node.parentId node.name)
      · exact seen.of_eq (Contents.write_of_touch touch)
      · have found : old.HasLink node.parentId node.name id :=
          seen.of_eq (Contents.write_of_not_touch touch)
        have current := (apart.quiet id written).went full _ _ found
        exact current.of_eq (Contents.write_of_not_touch touch).symm
    · have present : now.HasInode id node := inode.of_eq (Contents.write_of_not_touch written)
      have current := tied.up full id node free present
      exact (woven.quiet_publish apart written).went full _ _ current

end

end Tree

end FsMeta
