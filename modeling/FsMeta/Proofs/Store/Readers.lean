import FsMeta.Proofs.Table
import FsMeta.Store.Commit

set_option autoImplicit false

namespace FsMeta

namespace Version

-- Whether the key was committed after that time, as far as its history still shows it.
def overtakes (time : UInt64) (versions : List Version) : Bool :=
  versions.head?.any (time < ·.commitTime)

theorem valueAt_cons (time : UInt64) (version : Version) (older : List Version) :
    valueAt time (version :: older) =
      if version.commitTime ≤ time then version.value else valueAt time older := by
  by_cases seen : version.commitTime ≤ time <;> simp [valueAt, seen]

theorem valueAt_pruned {horizon time : UInt64} (reach : horizon ≤ time) (versions : List Version) :
    valueAt time (pruned horizon versions) = valueAt time versions := by
  induction versions with
  | nil => rfl
  | cons version older ih =>
    rw [pruned]
    split
    · rename_i old
      simp [valueAt_cons, UInt64.le_trans old reach]
    · simp [valueAt_cons, ih]

end Version

namespace Store

open Version

def versions (store : Store) (key : Bytes) : List Version := (store.history.find? key).getD []

theorem recorded_cases (horizon commitTime : UInt64) (value : Option Bytes)
    (versions : Option (List Version)) :
    (recorded horizon commitTime value versions).getD [] =
      if commitTime ≤ horizon then (if value = none then [] else [⟨commitTime, value⟩])
      else ⟨commitTime, value⟩ :: pruned horizon (versions.getD []) := by
  by_cases reached : commitTime ≤ horizon
  · cases value <;> simp [recorded, pruned, gone, reached]
  · have stays (older : List Version) : gone horizon (⟨commitTime, value⟩ :: older) = false := by
      cases older <;> simp [gone, reached]
    simp [recorded, pruned, reached, stays]

theorem valueAt_recorded {horizon time : UInt64} (reach : horizon ≤ time) (commitTime : UInt64)
    (value : Option Bytes) (versions : Option (List Version)) :
    valueAt time ((recorded horizon commitTime value versions).getD []) =
      if commitTime ≤ time then value else valueAt time (versions.getD []) := by
  rw [recorded_cases]
  by_cases reached : commitTime ≤ horizon
  · have seen : commitTime ≤ time := UInt64.le_trans reached reach
    cases value <;> simp [reached, seen, valueAt]
  · simp [reached, valueAt_cons, valueAt_pruned reach]

theorem overtakes_recorded {horizon time : UInt64} (reach : horizon ≤ time) (commitTime : UInt64)
    (value : Option Bytes) (versions : Option (List Version)) :
    overtakes time ((recorded horizon commitTime value versions).getD []) =
      decide (time < commitTime) := by
  rw [recorded_cases]
  by_cases reached : commitTime ≤ horizon
  · have seen : ¬ time < commitTime := UInt64.not_lt.2 (UInt64.le_trans reached reach)
    cases value <;> simp [reached, overtakes, seen]
  · simp [reached, overtakes]

theorem find?_record (store : Store) (horizon commitTime : UInt64) (writes : Table (Option Bytes)) (key : Bytes) :
    (store.record horizon commitTime writes.entries).history.find? key =
      (writes.find? key).elim (store.history.find? key) fun value =>
        recorded horizon commitTime value (store.history.find? key) :=
  Table.find?_foldl_change (recorded horizon commitTime) writes.entries writes.ascending store.history key

theorem versions_record (store : Store) (horizon commitTime : UInt64) (writes : Table (Option Bytes))
    (key : Bytes) :
    (store.record horizon commitTime writes.entries).versions key =
      (writes.find? key).elim (store.versions key) fun value =>
        (recorded horizon commitTime value (store.history.find? key)).getD [] := by
  rw [versions, find?_record]
  cases writes.find? key <;> rfl

end Store

end FsMeta
