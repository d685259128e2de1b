import FsMeta.Proofs.Tree.Records
import Mathlib.Logic.Relation

set_option autoImplicit false

namespace FsMeta.Contents

open Relation (ReflTransGen TransGen)

variable {contents earlier later : Contents} {id other parent destination : Int64}

def Parent (contents : Contents) (id parent : Int64) : Prop :=
  ∃ node : INode, contents.Holds (.inode id) node ∧ node.parentId = parent

def Reaches (contents : Contents) : Int64 → Int64 → Prop := ReflTransGen contents.Parent

def Acyclic (contents : Contents) : Prop := ∀ id, ¬ TransGen contents.Parent id id

def Owned (contents : Contents) : Prop :=
  ∀ (id : Int64) (node : INode), contents.Holds (.inode id) node → node.id = id ∧ 0 < id

theorem Parent.unique {second : Int64} (one : contents.Parent id parent) (two : contents.Parent id second) :
    parent = second := by
  obtain ⟨node, held, rfl⟩ := one
  obtain ⟨_, again, rfl⟩ := two
  rw [held.unique again]

theorem reaches_iff {node : INode} (here : contents.Holds (.inode id) node) (differ : id ≠ other) :
    contents.Reaches id other ↔ contents.Reaches node.parentId other := by
  have up : contents.Parent id node.parentId := ⟨node, here, rfl⟩
  constructor
  · intro reaches
    rcases reaches.cases_head with same | ⟨above, step, rest⟩
    · exact absurd same differ
    · rwa [up.unique step]
  · exact fun reaches => .head up reaches

theorem not_reaches_of_absent (absent : contents (Key.inode id).bytes = none) (differ : id ≠ other) :
    ¬ contents.Reaches id other := by
  intro reaches
  rcases reaches.cases_head with same | ⟨_, ⟨above, stored, _⟩, _⟩
  · exact differ same
  · exact not_holds_of_absent absent above stored

theorem owned_empty : Owned empty := by
  rintro id node ⟨bytes, held, _⟩
  cases held

theorem acyclic_empty : Acyclic empty := by
  intro id cycle
  obtain ⟨parent, ⟨node, ⟨bytes, held, _⟩, _⟩, _⟩ := TransGen.head'_iff.1 cycle
  cases held

theorem Acyclic.mono (acyclic : earlier.Acyclic)
    (goes : ∀ id parent, later.Parent id parent → earlier.Parent id parent) : later.Acyclic :=
  fun id cycle => acyclic id (TransGen.mono goes id id cycle)

def Moved (earlier later : Contents) (id destination : Int64) : Prop :=
  ∀ other parent, later.Parent other parent ↔
    if other = id then parent = destination else earlier.Parent other parent

namespace Moved

variable (moved : Moved earlier later id destination)
include moved

theorem parent_self : later.Parent id destination := by
  rw [moved, if_pos rfl]

theorem parent_iff (differ : other ≠ id) {parent : Int64} :
    later.Parent other parent ↔ earlier.Parent other parent := by
  rw [moved, if_neg differ]

-- A way up that ends at the inode does not need the step that it has changed.
theorem reaches_of_earlier (reaches : earlier.Reaches other id) : later.Reaches other id := by
  induction reaches using ReflTransGen.head_induction_on with
  | refl => exact .refl
  | @head place above step _ ih =>
    by_cases same : place = id
    · rw [same]
      exact .refl
    · exact .head ((moved.parent_iff same).2 step) ih

theorem reaches_of_later (apart : ¬ earlier.Reaches destination id)
    (reaches : later.Reaches destination other) : earlier.Reaches destination other := by
  induction reaches with
  | refl => exact .refl
  | @tail place above _ step ih =>
    by_cases same : place = id
    · rw [same] at ih
      exact absurd ih apart
    · exact ih.tail ((moved.parent_iff same).1 step)

-- A way up was there before, or it goes through the inode that was moved.
theorem transGen_cases {top : Int64} (climbs : TransGen later.Parent other top) :
    TransGen earlier.Parent other top ∨ later.Reaches other id ∧ later.Reaches destination top := by
  induction climbs with
  | @single above step =>
    by_cases same : other = id
    · subst same
      rw [step.unique moved.parent_self]
      exact .inr ⟨.refl, .refl⟩
    · exact .inl (.single ((moved.parent_iff same).1 step))
  | @tail place above climbs step ih =>
    rcases ih with before | ⟨through, after⟩
    · by_cases same : place = id
      · subst same
        rw [step.unique moved.parent_self]
        exact .inr ⟨climbs.to_reflTransGen, .refl⟩
      · exact .inl (before.tail ((moved.parent_iff same).1 step))
    · exact .inr ⟨through, after.tail step⟩

theorem acyclic_iff (acyclic : earlier.Acyclic) :
    later.Acyclic ↔ ¬ earlier.Reaches destination id := by
  constructor
  · intro after below
    exact after id (.head' moved.parent_self (moved.reaches_of_earlier below))
  · intro apart place cycle
    rcases moved.transGen_cases cycle with before | ⟨through, after⟩
    · exact acyclic place before
    · exact apart (moved.reaches_of_later apart (after.trans through))

end Moved

end FsMeta.Contents
