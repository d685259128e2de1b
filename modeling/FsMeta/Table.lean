import FsMeta.Bytes

set_option autoImplicit false

namespace FsMeta

abbrev Table.Ascending {α : Type} (entries : List (Bytes × α)) : Prop :=
  entries.Pairwise (·.1 < ·.1)

structure Table (α : Type) where
  entries : List (Bytes × α)
  ascending : Table.Ascending entries

namespace Table

variable {α β : Type}

theorem below_or_eq {a b : Bytes} (h : ¬ a < b) : b < a ∨ b = a :=
  List.le_iff_lt_or_eq.1 (List.not_lt.1 h)

def lookup (key : Bytes) (entries : List (Bytes × α)) : Option α :=
  (entries.find? (·.1 = key)).map Prod.snd

def altered (key : Bytes) (change : Option α → Option α) :
    List (Bytes × α) → List (Bytes × α)
  | [] => (change none).toList.map (key, ·)
  | (k, v) :: rest =>
    if key < k then (change none).toList.map (key, ·) ++ (k, v) :: rest
    else if key = k then (change (some v)).toList.map (key, ·) ++ rest
    else (k, v) :: altered key change rest

theorem mem_altered {key : Bytes} {change : Option α → Option α} {entries : List (Bytes × α)}
    {entry : Bytes × α} (h : entry ∈ altered key change entries) :
    entry.1 = key ∨ entry ∈ entries := by
  induction entries with
  | nil => simp_all only [altered, List.mem_map]; obtain ⟨v, _, rfl⟩ := h; exact .inl rfl
  | cons head rest ih =>
    obtain ⟨k, v⟩ := head
    simp only [altered] at h
    split at h
    · rcases List.mem_append.1 h with h | h
      · obtain ⟨v, _, rfl⟩ := List.mem_map.1 h; exact .inl rfl
      · exact .inr h
    · split at h
      · rcases List.mem_append.1 h with h | h
        · obtain ⟨v, _, rfl⟩ := List.mem_map.1 h; exact .inl rfl
        · exact .inr (List.mem_cons_of_mem _ h)
      · rcases List.mem_cons.1 h with h | h
        · exact .inr (h ▸ List.mem_cons_self)
        · exact (ih h).imp_right (List.mem_cons_of_mem _)

theorem pairwise_single_append {key : Bytes} (value : Option α) {entries : List (Bytes × α)}
    (sorted : Ascending entries) (above : ∀ entry ∈ entries, key < entry.1) :
    Ascending (value.toList.map (key, ·) ++ entries) := by
  cases value with
  | none => exact sorted
  | some v => exact List.pairwise_cons.2 ⟨above, sorted⟩

theorem pairwise_altered (key : Bytes) (change : Option α → Option α)
    {entries : List (Bytes × α)} (sorted : Ascending entries) :
    Ascending (altered key change entries) := by
  induction entries with
  | nil =>
    have single : Ascending ((change none).toList.map (key, ·) ++ []) :=
      pairwise_single_append (change none) sorted (by simp)
    simpa [altered] using single
  | cons head rest ih =>
    obtain ⟨k, v⟩ := head
    obtain ⟨above, sortedRest⟩ := List.pairwise_cons.1 sorted
    simp only [altered]
    split
    · rename_i below
      exact pairwise_single_append _ sorted fun entry mem => by
        rcases List.mem_cons.1 mem with rfl | mem
        · exact below
        · exact List.lt_trans below (above entry mem)
    · rename_i notBelow
      split
      · rename_i same
        subst same
        exact pairwise_single_append _ sortedRest above
      · rename_i differ
        refine List.pairwise_cons.2 ⟨fun entry mem => ?_, ih sortedRest⟩
        rcases mem_altered mem with same | mem
        · exact same ▸ (below_or_eq notBelow).resolve_right (Ne.symm differ)
        · exact above entry mem

theorem lookup_eq_none {key : Bytes} {entries : List (Bytes × α)}
    (above : ∀ entry ∈ entries, key < entry.1) : lookup key entries = none := by
  simp only [lookup, Option.map_eq_none_iff, List.find?_eq_none, decide_eq_true_eq]
  intro entry mem same
  exact List.lt_irrefl key (same ▸ above entry mem)

theorem lookup_cons (key : Bytes) (entry : Bytes × α) (rest : List (Bytes × α)) :
    lookup key (entry :: rest) = if entry.1 = key then some entry.2 else lookup key rest := by
  by_cases h : entry.1 = key <;> simp [lookup, h]

theorem lookup_single_append (key other : Bytes) (value : Option α) (rest : List (Bytes × α)) :
    lookup other (value.toList.map (key, ·) ++ rest)
      = if key = other then value <|> lookup other rest else lookup other rest := by
  cases value with
  | none => simp
  | some v => exact lookup_cons other (key, v) rest

theorem lookup_altered (key other : Bytes) (change : Option α → Option α)
    {entries : List (Bytes × α)} (sorted : Ascending entries) :
    lookup other (altered key change entries)
      = if other = key then change (lookup key entries) else lookup other entries := by
  induction entries with
  | nil =>
    have step := lookup_single_append key other (change none) ([] : List (Bytes × α))
    simp only [List.append_nil] at step
    by_cases h : other = key
    · subst h
      cases found : change none <;> simp_all [altered, lookup]
    · simp [altered, step, h, Ne.symm h]
  | cons head rest ih =>
    obtain ⟨k, v⟩ := head
    obtain ⟨above, sortedRest⟩ := List.pairwise_cons.1 sorted
    simp only [altered]
    -- The key belongs in front of this entry, at it or behind it.
    split
    · rename_i below
      have absent : lookup key ((k, v) :: rest) = none := lookup_eq_none fun entry mem => by
        rcases List.mem_cons.1 mem with rfl | mem
        · exact below
        · exact List.lt_trans below (above entry mem)
      rw [lookup_single_append]
      by_cases h : other = key
      · subst h; simp only [absent, if_true]; cases change none <;> rfl
      · simp [h, Ne.symm h]
    · split
      · rename_i same
        subst same
        have absent : lookup key rest = none := lookup_eq_none above
        rw [lookup_single_append, lookup_cons, lookup_cons]
        by_cases h : other = key
        · subst h; simp only [absent, if_true]; cases change (some v) <;> rfl
        · simp [h, Ne.symm h]
      · rename_i differ
        rw [lookup_cons, ih sortedRest, lookup_cons, lookup_cons]
        by_cases h : k = other
        · subst h; simp [Ne.symm differ]
        · simp [h, Ne.symm differ]

theorem lookup_filterMap (keep : Bytes → α → Option β) (key : Bytes)
    {entries : List (Bytes × α)} (sorted : Ascending entries) :
    lookup key (entries.filterMap fun (k, v) => (keep k v).map (k, ·))
      = (lookup key entries).bind (keep key) := by
  induction entries with
  | nil => rfl
  | cons head rest ih =>
    obtain ⟨k, v⟩ := head
    obtain ⟨above, sortedRest⟩ := List.pairwise_cons.1 sorted
    rw [lookup_cons]
    by_cases same : k = key
    · subst same
      have absent : lookup k rest = none := lookup_eq_none above
      cases kept : keep k v <;> simp_all [lookup_cons]
    · cases kept : keep k v <;> simp_all [lookup_cons]

def empty : Table α := ⟨[], List.Pairwise.nil⟩

instance : Inhabited (Table α) := ⟨empty⟩

def find? (table : Table α) (key : Bytes) : Option α := lookup key table.entries

def alter (table : Table α) (key : Bytes) (change : Option α → Option α) : Table α :=
  ⟨altered key change table.entries, pairwise_altered key change table.ascending⟩

def insert (table : Table α) (key : Bytes) (value : α) : Table α :=
  table.alter key fun _ => some value

def erase (table : Table α) (key : Bytes) : Table α := table.alter key fun _ => none

def filterMap (table : Table α) (keep : Bytes → α → Option β) : Table β where
  entries := table.entries.filterMap fun (key, value) => (keep key value).map (key, ·)
  ascending := by
    refine List.Pairwise.filterMap _ (fun a b below c hc d hd => ?_) table.ascending
    obtain ⟨x, _, rfl⟩ := Option.map_eq_some_iff.1 hc
    obtain ⟨y, _, rfl⟩ := Option.map_eq_some_iff.1 hd
    exact below

def filter (table : Table α) (keep : Bytes → Bool) : Table α :=
  table.filterMap fun key value => if keep key then some value else none

def overlay (table : Table α) (edits : Table (Option α)) : Table α :=
  edits.entries.foldl (fun table (key, value) => table.alter key fun _ => value) table

def size (table : Table α) : Nat := table.entries.length

@[simp] theorem find?_empty (key : Bytes) : (empty : Table α).find? key = none := rfl

theorem find?_alter (table : Table α) (key other : Bytes) (change : Option α → Option α) :
    (table.alter key change).find? other
      = if other = key then change (table.find? key) else table.find? other :=
  lookup_altered key other change table.ascending

@[simp] theorem find?_insert (table : Table α) (key other : Bytes) (value : α) :
    (table.insert key value).find? other = if other = key then some value else table.find? other :=
  find?_alter table key other _

@[simp] theorem find?_erase (table : Table α) (key other : Bytes) :
    (table.erase key).find? other = if other = key then none else table.find? other :=
  find?_alter table key other _

theorem find?_filterMap (table : Table α) (keep : Bytes → α → Option β) (key : Bytes) :
    (table.filterMap keep).find? key = (table.find? key).bind (keep key) :=
  lookup_filterMap keep key table.ascending

theorem find?_foldl_alter (edits : List (Bytes × Option α)) (sorted : Ascending edits)
    (table : Table α) (key : Bytes) :
    (edits.foldl (fun table (k, v) => table.alter k fun _ => v) table).find? key
      = (lookup key edits).getD (table.find? key) := by
  induction edits generalizing table with
  | nil => rfl
  | cons head rest ih =>
    obtain ⟨k, v⟩ := head
    obtain ⟨above, sortedRest⟩ := List.pairwise_cons.1 sorted
    rw [List.foldl_cons, ih sortedRest, find?_alter, lookup_cons]
    by_cases same : k = key
    · subst same
      have absent : lookup k rest = none := lookup_eq_none above
      simp [absent]
    · simp [same, Ne.symm same]

theorem find?_overlay (table : Table α) (edits : Table (Option α)) (key : Bytes) :
    (table.overlay edits).find? key = (edits.find? key).getD (table.find? key) :=
  find?_foldl_alter edits.entries edits.ascending table key

end Table

end FsMeta
