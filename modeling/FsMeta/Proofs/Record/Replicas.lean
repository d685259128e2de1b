import FsMeta.Proofs.Record.Block
import Mathlib.Data.List.Nodup

set_option autoImplicit false

namespace FsMeta

namespace Layout

theorem restores_blockStorage {replicas : BlockStorage} (sized : replicas.Sized)
    (short : replicas.nodes.length < UInt64.size) : blockStorage.Restores replicas := by
  rw [blockStorage]
  refine Restores.iso (Restores.pair (restores_int64 _) ?_) rfl
  exact restores_list (fun location member => restores_storageLocation (sized location member)) short

end Layout

theorem Record.decode_encode_blockStorage {replicas : BlockStorage} (sized : replicas.Sized)
    (short : replicas.nodes.length < UInt64.size) : decode (encode replicas) = .ok replicas :=
  decode_encode (Layout.restores_blockStorage sized short)

section

variable {α : Type} [DecidableEq α] {nodes : List α} {last : α}

theorem eraseDups_of_nodup (distinct : nodes.Nodup) : nodes.eraseDups = nodes := by
  induction nodes with
  | nil => rfl
  | cons first rest ih =>
    obtain ⟨fresh, distinct⟩ := List.nodup_cons.1 distinct
    have kept : rest.filter (fun other => !other == first) = rest := by
      rw [List.filter_eq_self]
      intro other member
      simp only [Bool.not_eq_true', beq_eq_false_iff_ne]
      rintro rfl
      exact fresh member
    rw [List.eraseDups_cons, kept, ih distinct]

theorem eraseDups_concat (nodes : List α) (last : α) :
    (nodes ++ [last]).eraseDups = if last ∈ nodes then nodes.eraseDups else nodes.eraseDups ++ [last] := by
  rw [List.eraseDups_append]
  split
  · rename_i known
    simp [List.removeAll, known]
  · rename_i fresh
    simp [List.removeAll, fresh, List.eraseDups_cons]

theorem nodup_eraseDups (nodes : List α) : nodes.eraseDups.Nodup := by
  induction nodes using List.reverseRecOn with
  | nil => exact List.nodup_nil
  | append_singleton nodes last ih =>
    rw [eraseDups_concat]
    split
    · exact ih
    · rename_i fresh
      rw [← List.concat_eq_append]
      exact ih.concat (by rwa [List.mem_eraseDups])

end

namespace BlockStorage

variable {replicas : BlockStorage} {location : StorageLocation}

def added (nodes : List StorageLocation) (location : StorageLocation) : List StorageLocation :=
  if location ∈ nodes then nodes else nodes ++ [location]

def union (nodes more : List StorageLocation) : List StorageLocation := (nodes ++ more).eraseDups

theorem nodes_insert (replicas : BlockStorage) (location : StorageLocation) :
    (replicas.insert location).1.nodes = added replicas.nodes location := by
  rw [insert, added, contains]
  split <;> split <;> simp_all

theorem nodes_merge (distinct : replicas.nodes.Nodup) (other : BlockStorage) :
    (replicas.merge other).nodes = union replicas.nodes other.nodes := by
  obtain ⟨id, more⟩ := other
  rw [union]
  induction more using List.reverseRecOn with
  | nil =>
    rw [List.append_nil, eraseDups_of_nodup distinct]
    rfl
  | append_singleton more last ih =>
    have step : replicas.merge { id, nodes := more ++ [last] } =
        ((replicas.merge { id, nodes := more }).insert last).1 := by
      rw [merge, merge, List.foldl_append]
      rfl
    rw [step, nodes_insert, ih, added, ← List.append_assoc, eraseDups_concat]
    simp only [List.mem_eraseDups]

def joined (nodes more : List StorageLocation) : List StorageLocation :=
  nodes ++ (more.filter (· ∉ nodes)).eraseDups

theorem mem_joined {nodes more : List StorageLocation} :
    location ∈ joined nodes more ↔ location ∈ nodes ∨ location ∈ more := by
  simp only [joined, List.mem_append, List.mem_eraseDups, List.mem_filter, decide_not, Bool.not_eq_true',
    decide_eq_false_iff_not]
  tauto

theorem joined_joined (nodes more : List StorageLocation) : joined (joined nodes more) more = joined nodes more := by
  have nothing : more.filter (· ∉ joined nodes more) = [] := by
    rw [List.filter_eq_nil_iff]
    intro location member
    simpa using mem_joined.2 (.inr member)
  rw [joined, nothing, List.eraseDups_nil, List.append_nil]

theorem joined_concat (nodes more : List StorageLocation) (last : StorageLocation) :
    joined nodes (more ++ [last]) = added (joined nodes more) last := by
  rw [added]
  by_cases known : last ∈ nodes
  · rw [if_pos (mem_joined.2 (.inl known))]
    simp [joined, known]
  · have kept : (more ++ [last]).filter (· ∉ nodes) = more.filter (· ∉ nodes) ++ [last] := by simp [known]
    have among : last ∈ more.filter (· ∉ nodes) ↔ last ∈ more := by simp [known]
    simp only [mem_joined, known, false_or]
    rw [joined, kept, eraseDups_concat]
    simp only [among]
    split
    · rfl
    · rw [joined, List.append_assoc]

theorem merge_eq (replicas other : BlockStorage) :
    replicas.merge other = { replicas with nodes := joined replicas.nodes other.nodes } := by
  obtain ⟨id, more⟩ := other
  dsimp only
  induction more using List.reverseRecOn with
  | nil => simp [merge, joined]
  | append_singleton more last ih =>
    have step : replicas.merge { id, nodes := more ++ [last] } =
        ((replicas.merge { id, nodes := more }).insert last).1 := by
      rw [merge, merge, List.foldl_append]
      rfl
    have id : ∀ set : BlockStorage, (set.insert last).1.id = set.id := by
      intro set
      rw [insert]
      split <;> rfl
    rw [step, ih, BlockStorage.mk.injEq, nodes_insert, joined_concat]
    exact ⟨id _, rfl⟩

theorem nodup_added {nodes : List StorageLocation} (distinct : nodes.Nodup) (location : StorageLocation) :
    (added nodes location).Nodup := by
  rw [added]
  split
  · exact distinct
  · rename_i fresh
    rw [← List.concat_eq_append]
    exact distinct.concat fresh

theorem added_of_unchanged (same : (replicas.insert location).2 = false) :
    added replicas.nodes location = replicas.nodes := by
  rw [← nodes_insert]
  rw [insert] at same ⊢
  split
  · rfl
  · rename_i fresh
    rw [if_neg fresh] at same
    cases same

theorem nodes_remove (distinct : replicas.nodes.Nodup) (location : StorageLocation) :
    (replicas.remove location).1.nodes = replicas.nodes.erase location := by
  rw [distinct.erase_eq_filter]
  refine List.filter_congr fun other _ => ?_
  rw [bne, beq_eq_decide, decide_not]

theorem erase_of_unchanged (distinct : replicas.nodes.Nodup) (same : (replicas.remove location).2 = false) :
    replicas.nodes.erase location = replicas.nodes := by
  rw [← nodes_remove distinct]
  have length : (replicas.remove location).1.nodes.length = replicas.nodes.length := by
    simpa [remove] using same
  exact List.filter_sublist.eq_of_length length

theorem Sized.remove (sized : replicas.Sized) (location : StorageLocation) : (replicas.remove location).1.Sized :=
  fun found member => sized found (List.mem_of_mem_filter member)

end BlockStorage

end FsMeta
