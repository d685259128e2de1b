import FsMeta.Proofs.Record.Replicas
import Mathlib.Data.Finset.Basic

set_option autoImplicit false

namespace FsMeta

theorem pairwise_eraseDups {α : Type} [DecidableEq α] (keep : α → Bool) (elements : List α) :
    (elements.filter keep).eraseDups.Pairwise fun one other => elements.idxOf one < elements.idxOf other := by
  induction elements using List.reverseRecOn with
  | nil => exact List.Pairwise.nil
  | append_singleton elements last ih =>
    have known {one : α} (member : one ∈ (elements.filter keep).eraseDups) : one ∈ elements :=
      List.mem_of_mem_filter (List.mem_eraseDups.1 member)
    -- Whatever was met before keeps its place.
    have before : (elements.filter keep).eraseDups.Pairwise fun one other =>
        (elements ++ [last]).idxOf one < (elements ++ [last]).idxOf other := by
      refine ih.imp_of_mem fun one other ordered => ?_
      rwa [List.idxOf_append_of_mem (known one), List.idxOf_append_of_mem (known other)]
    cases kept : keep last with
    | false => simpa [kept] using before
    | true =>
      have split : (elements ++ [last]).filter keep = elements.filter keep ++ [last] := by simp [kept]
      rw [split, eraseDups_concat]
      split
      · exact before
      · rename_i fresh
        have unmet : last ∉ elements := fun member => fresh (List.mem_filter.2 ⟨member, kept⟩)
        refine List.pairwise_append.2 ⟨before, List.pairwise_singleton _ _, fun one member other final => ?_⟩
        rw [List.mem_singleton.1 final, List.idxOf_append_of_mem (known member),
          List.idxOf_append_of_notMem unmet]
        exact Nat.lt_of_lt_of_le (List.idxOf_lt_length_of_mem (known member)) (Nat.le_add_right _ _)

namespace BlockStorage

variable {replicas : BlockStorage} {location : StorageLocation}

theorem mem_added {nodes : List StorageLocation} {last : StorageLocation} :
    location ∈ added nodes last ↔ location ∈ nodes ∨ location = last := by
  rw [added]
  split
  · rename_i known
    exact ⟨.inl, fun either => either.elim (fun member => member) fun same => same ▸ known⟩
  · rw [List.mem_append, List.mem_singleton]

theorem joined_added (nodes more : List StorageLocation) (last : StorageLocation) :
    joined nodes (added more last) = added (joined nodes more) last := by
  rw [added]
  split
  · rename_i known
    rw [added, if_pos (mem_joined.2 (.inr known))]
  · exact joined_concat nodes more last

theorem joined_assoc (nodes more rest : List StorageLocation) :
    joined (joined nodes more) rest = joined nodes (joined more rest) := by
  induction rest using List.reverseRecOn with
  | nil => simp [joined]
  | append_singleton rest last ih => rw [joined_concat, joined_concat, joined_added, ih]

inductive Change where
  | insert (location : StorageLocation)
  | merge (other : BlockStorage)
  | remove (location : StorageLocation)
  deriving Repr, DecidableEq

namespace Change

def perform (replicas : BlockStorage) : Change → BlockStorage
  | .insert location => (replicas.insert location).1
  | .merge other => replicas.merge other
  | .remove location => (replicas.remove location).1

def onMembers (members : Finset StorageLocation) : Change → Finset StorageLocation
  | .insert location => members ∪ {location}
  | .merge other => members ∪ other.nodes.toFinset
  | .remove location => members \ {location}

end Change

structure Lists (replicas : BlockStorage) (members : Finset StorageLocation) : Prop where
  distinct : replicas.nodes.Nodup
  member : ∀ location, location ∈ replicas.nodes ↔ location ∈ members

namespace Lists

variable {members : Finset StorageLocation}

theorem perform (lists : replicas.Lists members) (change : Change) :
    (change.perform replicas).Lists (change.onMembers members) := by
  cases change with
  | insert location =>
    constructor
    · rw [Change.perform, nodes_insert]
      exact nodup_added lists.distinct location
    · intro other
      rw [Change.perform, nodes_insert, Change.onMembers, Finset.mem_union, Finset.mem_singleton, ← lists.member]
      exact mem_added
  | merge other =>
    constructor
    · rw [Change.perform, nodes_merge lists.distinct]
      exact nodup_eraseDups _
    · intro location
      rw [Change.perform, merge_eq, Change.onMembers, Finset.mem_union, List.mem_toFinset, ← lists.member]
      exact mem_joined
  | remove location =>
    constructor
    · rw [Change.perform, nodes_remove lists.distinct]
      exact lists.distinct.erase location
    · intro other
      rw [Change.perform, nodes_remove lists.distinct, lists.distinct.mem_erase_iff, Change.onMembers,
        Finset.mem_sdiff, Finset.mem_singleton, lists.member, and_comm]

theorem run (lists : replicas.Lists members) (changes : List Change) :
    (changes.foldl Change.perform replicas).Lists (changes.foldl Change.onMembers members) := by
  induction changes generalizing replicas members with
  | nil => exact lists
  | cons change rest ih => exact ih (lists.perform change)

theorem insert_iff (lists : replicas.Lists members) (location : StorageLocation) :
    (replicas.insert location).2 = true ↔ members ∪ {location} ≠ members := by
  rw [Ne, Finset.union_eq_left, Finset.singleton_subset_iff, ← lists.member, insert]
  split
  · rename_i known
    simpa [contains] using known
  · rename_i fresh
    simpa [contains] using fresh

theorem remove_iff (lists : replicas.Lists members) (location : StorageLocation) :
    (replicas.remove location).2 = true ↔ members \ {location} ≠ members := by
  have kept :
      (replicas.nodes.filter (· ≠ location)).length = replicas.nodes.length ↔ location ∉ replicas.nodes := by
    rw [List.length_filter_eq_length_iff]
    refine ⟨fun others member => ?_, fun absent other member => ?_⟩
    · simpa using others location member
    · exact decide_eq_true fun same => absent (same ▸ member)
  rw [Ne, Finset.sdiff_eq_self_iff_disjoint, Finset.disjoint_singleton_right, ← lists.member, ← kept, remove,
    bne_iff_ne]

end Lists

theorem merge_algebra (first second third : BlockStorage) :
    (∃ more, first.merge second = { first with nodes := first.nodes ++ more } ∧
      (∀ location, location ∈ more ↔ location ∈ second.nodes ∧ location ∉ first.nodes) ∧
      more.Pairwise fun one other => second.nodes.idxOf one < second.nodes.idxOf other) ∧
    (first.merge second).merge second = first.merge second ∧
    (first.merge second).merge third = first.merge (second.merge third) ∧
    (first.nodes.Nodup → ∀ changes : List Change,
      let reached := changes.foldl Change.perform first
      let members := changes.foldl Change.onMembers first.nodes.toFinset
      reached.nodes.Nodup ∧
        (∀ location, location ∈ reached.nodes ↔ location ∈ members) ∧
        (∀ location, (reached.insert location).2 = true ↔ members ∪ {location} ≠ members) ∧
        ∀ location, (reached.remove location).2 = true ↔ members \ {location} ≠ members) := by
  refine ⟨?_, ?_, ?_, ?_⟩
  · refine ⟨_, merge_eq first second, fun location => ?_, pairwise_eraseDups _ _⟩
    rw [List.mem_eraseDups, List.mem_filter, decide_eq_true_iff]
  · simp only [merge_eq, joined_joined]
  · simp only [merge_eq, joined_assoc]
  · intro distinct changes reached members
    have initial : first.Lists first.nodes.toFinset := ⟨distinct, fun _ => List.mem_toFinset.symm⟩
    have lists : reached.Lists members := initial.run changes
    exact ⟨lists.distinct, lists.member, lists.insert_iff, lists.remove_iff⟩

def near : StorageLocation := ⟨"dn1", "s1"⟩

def far : StorageLocation := ⟨"dn2", "s1"⟩

def lone : BlockStorage := { id := 9, nodes := [near] }

-- A set that was decoded may have repeats.
def repeated : BlockStorage := { id := 9, nodes := [far, near, far] }

theorem merge_algebra_repeated :
    let changes : List Change := [.merge repeated, .remove near, .insert far, .insert near]
    let reached := changes.foldl Change.perform lone
    let members := changes.foldl Change.onMembers lone.nodes.toFinset
    lone.nodes.Nodup ∧ (lone.merge repeated).nodes = [near, far] ∧
      reached.nodes = [far, near] ∧ reached.nodes.Nodup ∧
      (reached.insert far).2 = false ∧ members ∪ {far} = members ∧
      (reached.remove far).2 = true ∧ members \ {far} ≠ members := by
  intro changes reached members
  have distinct : lone.nodes.Nodup := by decide
  have unchanged : (reached.insert far).2 = false := by decide
  have changed : (reached.remove far).2 = true := by decide
  obtain ⟨_, _, _, laws⟩ := merge_algebra lone repeated repeated
  obtain ⟨nodup, _, inserted, removed⟩ := laws distinct changes
  refine ⟨distinct, by decide, by decide, nodup, unchanged, ?_, changed, (removed far).1 changed⟩
  by_contra grown
  exact Bool.false_ne_true (unchanged.symm.trans ((inserted far).2 grown))

end BlockStorage

end FsMeta
