import FsMeta.Proofs.Store.Readers

set_option autoImplicit false

namespace FsMeta

abbrev Contents := Bytes → Option Bytes

abbrev Writes := Table (Option Bytes)

namespace Contents

def empty : Contents := fun _ => none

-- A write set takes effect as a whole. A write without a value is a delete.
def write (contents : Contents) (writes : Writes) : Contents :=
  fun key => (writes.find? key).getD (contents key)

def after (contents : Contents) (past : List Writes) : Contents := past.foldl write contents

@[simp] theorem write_apply (contents : Contents) (writes : Writes) (key : Bytes) :
    contents.write writes key = (writes.find? key).getD (contents key) := rfl

theorem write_of_isEmpty (contents : Contents) {writes : Writes} (bare : writes.entries.isEmpty) :
    contents.write writes = contents := by
  funext key
  simp [Table.find?_eq_none_of_isEmpty bare]

theorem write_empty (contents : Contents) : contents.write .empty = contents := write_of_isEmpty contents rfl

@[simp] theorem after_nil (contents : Contents) : contents.after [] = contents := rfl

@[simp] theorem after_append (contents : Contents) (past later : List Writes) :
    contents.after (past ++ later) = (contents.after past).after later := List.foldl_append

@[simp] theorem after_singleton (contents : Contents) (writes : Writes) :
    contents.after [writes] = contents.write writes := rfl

theorem after_apply_of_unwritten {contents : Contents} {past : List Writes} {key : Bytes}
    (unwritten : ∀ writes ∈ past, writes.find? key = none) :
    contents.after past key = contents key := by
  induction past generalizing contents with
  | nil => rfl
  | cons writes rest ih =>
    have first : writes.find? key = none := unwritten writes List.mem_cons_self
    have others : ∀ later ∈ rest, later.find? key = none := fun later member =>
      unwritten later (List.mem_cons_of_mem _ member)
    change (contents.write writes).after rest key = contents key
    rw [ih others]
    simp [first]

end Contents

namespace Store

def readAt (store : Store) (time : UInt64) : Contents :=
  fun key => Version.valueAt time (store.versions key)

def committed (store : Store) : Contents := store.readAt store.clock

theorem find?_visibleAt (store : Store) (time : UInt64) (key : Bytes) :
    (store.visibleAt time).find? key = store.readAt time key := by
  rw [visibleAt, Table.find?_filterMap, readAt, versions]
  cases store.history.find? key <;> rfl

end Store

namespace Transaction

def reads (tx : Transaction) (store : Store) : Contents :=
  (store.readAt tx.snapshot).write tx.writes

theorem find?_view (tx : Transaction) (store : Store) (key : Bytes) :
    (tx.view store).find? key = tx.reads store key := by
  rw [view, Table.find?_overlay, Store.find?_visibleAt]
  rfl

theorem get_of_open {tx : Transaction} (unfinished : tx.finished = false) (store : Store)
    (key : Bytes) : tx.get store key = .ok (tx.reads store key) := by
  have found : (store.history.find? key).bind (Version.valueAt tx.snapshot) =
      store.readAt tx.snapshot key := by
    rw [Store.readAt, Store.versions]
    cases store.history.find? key <;> rfl
  simp only [get, requireOpen, unfinished, reads, Contents.write_apply, found]
  cases tx.writes.find? key <;> rfl

theorem get_begin (store : Store) (key : Bytes) :
    (begin store).1.get (begin store).2 key = .ok (store.committed key) := by
  have unfinished : (begin store).1.finished = false := rfl
  rw [get_of_open unfinished]
  rfl

theorem iterate_congr {tx : Transaction} {store other : Store}
    (same : tx.reads store = tx.reads other) (start : Bytes) (stop : Option Bytes) :
    tx.iterate store start stop = tx.iterate other start stop := by
  have views : tx.view store = tx.view other := by
    refine Table.eq_of_find?_eq fun key => ?_
    rw [find?_view, find?_view, same]
  rw [iterate, iterate, views]

theorem within_iff (start : Bytes) (stop : Option Bytes) (key : Bytes) :
    within start stop key ↔ start ≤ key ∧ ∀ bound, stop = some bound → key < bound := by
  cases stop <;> simp [within]

theorem iterate_of_open {tx : Transaction} (unfinished : tx.finished = false) (store : Store)
    (start : Bytes) (stop : Option Bytes) :
    ∃ pairs, tx.iterate store start stop = .ok pairs ∧ Table.Ascending pairs ∧
      ∀ key value, (key, value) ∈ pairs ↔
        tx.reads store key = some value ∧ start ≤ key ∧ ∀ bound, stop = some bound → key < bound := by
  let range := (tx.view store).filter (within start stop)
  refine ⟨range.entries, ?_, range.ascending, fun key value => ?_⟩
  · simp only [iterate, requireOpen, unfinished]
    rfl
  · rw [Table.mem_entries_iff, Table.find?_filter, find?_view, ← within_iff]
    by_cases inside : within start stop key <;> simp [inside]

end Transaction

end FsMeta
