import FsMeta.Table

set_option autoImplicit false

namespace FsMeta.Table

variable {α β : Type}

theorem mem_of_lookup {key : Bytes} {value : α} {entries : List (Bytes × α)}
    (found : lookup key entries = some value) : (key, value) ∈ entries := by
  induction entries with
  | nil => simp [lookup] at found
  | cons head rest ih =>
    rw [lookup_cons] at found
    split at found
    · rename_i same
      obtain ⟨k, v⟩ := head
      simp_all
    · exact List.mem_cons_of_mem _ (ih found)

theorem lookup_of_mem {key : Bytes} {value : α} {entries : List (Bytes × α)}
    (sorted : Ascending entries) (member : (key, value) ∈ entries) :
    lookup key entries = some value := by
  induction entries with
  | nil => simp at member
  | cons head rest ih =>
    obtain ⟨above, sortedRest⟩ := List.pairwise_cons.1 sorted
    rw [lookup_cons]
    rcases List.mem_cons.1 member with rfl | member
    · simp
    · have differ : head.1 ≠ key := fun same =>
        List.lt_irrefl key (same ▸ above (key, value) member)
      simp [differ, ih sortedRest member]

theorem mem_entries_iff (table : Table α) (key : Bytes) (value : α) :
    (key, value) ∈ table.entries ↔ table.find? key = some value :=
  ⟨lookup_of_mem table.ascending, mem_of_lookup⟩

theorem find?_eq_none_of_isEmpty {table : Table α} (bare : table.entries.isEmpty) (key : Bytes) :
    table.find? key = none := by
  simp [find?, List.isEmpty_iff.1 bare, lookup]

theorem exists_find?_of_not_isEmpty {table : Table α} (filled : table.entries.isEmpty = false) :
    ∃ key value, table.find? key = some value := by
  cases listed : table.entries with
  | nil => simp [listed] at filled
  | cons head rest =>
    exact ⟨head.1, head.2, (mem_entries_iff table head.1 head.2).1 (by simp [listed])⟩

theorem eq_of_ascending {entries other : List (Bytes × α)} (sorted : Ascending entries)
    (also : Ascending other) (same : ∀ pair, pair ∈ entries ↔ pair ∈ other) : entries = other := by
  have distinct {pairs : List (Bytes × α)} (sorted : Ascending pairs) : pairs.Nodup := by
    refine sorted.imp ?_
    rintro x y below rfl
    exact List.lt_irrefl _ below
  have perm : entries.Perm other := (List.perm_ext_iff_of_nodup (distinct sorted) (distinct also)).2 same
  refine perm.eq_of_pairwise (fun x y _ _ below above => ?_) sorted also
  exact absurd (List.lt_trans below above) (List.lt_irrefl _)

theorem eq_of_find?_eq {a b : Table α} (same : ∀ key, a.find? key = b.find? key) : a = b := by
  have equal : a.entries = b.entries := by
    refine eq_of_ascending a.ascending b.ascending fun ⟨key, value⟩ => ?_
    rw [mem_entries_iff, mem_entries_iff, same key]
  cases a
  cases b
  simpa using equal

@[simp] theorem find?_filter (table : Table α) (keep : Bytes → Bool) (key : Bytes) :
    (table.filter keep).find? key = if keep key then table.find? key else none := by
  rw [filter, find?_filterMap]
  cases table.find? key <;> simp

theorem find?_foldl_change (change : β → Option α → Option α) (edits : List (Bytes × β))
    (sorted : Ascending edits) (table : Table α) (key : Bytes) :
    (edits.foldl (fun table (k, v) => table.alter k (change v)) table).find? key =
      (lookup key edits).elim (table.find? key) fun v => change v (table.find? key) := by
  induction edits generalizing table with
  | nil => rfl
  | cons head rest ih =>
    obtain ⟨k, v⟩ := head
    obtain ⟨above, sortedRest⟩ := List.pairwise_cons.1 sorted
    rw [List.foldl_cons, ih sortedRest, lookup_cons]
    by_cases same : k = key
    · subst same
      have absent : lookup k rest = none := lookup_eq_none above
      simp [absent, find?_alter]
    · simp [find?_alter, same, Ne.symm same]

end FsMeta.Table
