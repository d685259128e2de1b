import FsMeta.Proofs.Bytes
import FsMeta.Proofs.Store.Contents

set_option autoImplicit false

namespace FsMeta

namespace Bytes

theorem exists_above?_le {start key : Bytes} (reached : start ≤ key) (differs : ¬ start <+: key) :
    ∃ stop, above? start = some stop ∧ stop ≤ key := by
  induction start generalizing key with
  | nil => exact absurd List.nil_prefix differs
  | cons first rest ih =>
    cases key with
    | nil => exact absurd (List.nil_lt_cons first rest) reached
    | cons head tail =>
      rcases List.cons_le_cons_iff.1 reached with less | ⟨rfl, further⟩
      · cases bounds : above? rest with
        | some stop => exact ⟨first :: stop, by simp [above?, bounds], List.cons_le_cons_iff.2 (.inl less)⟩
        | none =>
          rw [UInt8.lt_iff_toNat_lt] at less
          have top := head.toNat_lt
          have room : first ≠ 0xff := by
            rintro rfl
            simp at less
            omega
          have value : (first + 1).toNat = first.toNat + 1 := by
            rw [UInt8.toNat_add, UInt8.toNat_one]
            omega
          refine ⟨[first + 1], by simp [above?, bounds, room], List.cons_le_cons_iff.2 ?_⟩
          rcases Nat.lt_or_eq_of_le (Nat.succ_le_of_lt less) with below | same
          · exact .inl (UInt8.lt_iff_toNat_lt.2 (value ▸ below))
          · exact .inr ⟨UInt8.toNat_inj.1 (value.trans same), List.nil_le _⟩
      · have apart : ¬ rest <+: tail := fun begins => differs (List.cons_prefix_cons.2 ⟨rfl, begins⟩)
        obtain ⟨stop, bounds, below⟩ := ih further apart
        exact ⟨first :: stop, by simp [above?, bounds], List.cons_le_cons_iff.2 (.inr ⟨rfl, below⟩)⟩

theorem lt_above?_iff {start key : Bytes} (reached : start ≤ key) :
    (∀ stop, above? start = some stop → key < stop) ↔ start.isPrefixOf key = true := by
  rw [List.isPrefixOf_iff_prefix]
  constructor
  · intro below
    by_contra differs
    obtain ⟨stop, bounds, above⟩ := exists_above?_le reached differs
    exact above (below stop bounds)
  · exact fun begins stop bounds => lt_above? bounds begins

end Bytes

structure Listing (seen : Contents) (start : Bytes) (stop : Option Bytes) (pairs : List (Bytes × Bytes)) :
    Prop where
  ascending : Table.Ascending pairs
  held : ∀ key value, (key, value) ∈ pairs → seen key = some value ∧ start ≤ key
  whole : ∀ key value, seen key = some value → start ≤ key → (∀ bound, stop = some bound → key < bound) →
    (key, value) ∈ pairs

structure Gathers (seen : Contents) (scanned : Bytes) (pairs : List (Bytes × Bytes)) : Prop where
  ascending : Table.Ascending pairs
  members : ∀ key value, (key, value) ∈ pairs ↔ seen key = some value ∧ scanned.isPrefixOf key = true

variable {seen : Contents} {scanned : Bytes} {pairs : List (Bytes × Bytes)}

theorem takeWhile_begins (ascending : Table.Ascending pairs) (above : ∀ pair ∈ pairs, scanned ≤ pair.1) :
    (pairs.takeWhile fun pair => scanned.isPrefixOf pair.1) =
      pairs.filter fun pair => scanned.isPrefixOf pair.1 := by
  induction pairs with
  | nil => rfl
  | cons pair rest ih =>
    obtain ⟨below, ascending⟩ := List.pairwise_cons.1 ascending
    obtain ⟨first, above⟩ := List.forall_mem_cons.1 above
    rw [List.takeWhile_cons, List.filter_cons, ih ascending above]
    split
    · rfl
    · rename_i apart
      rw [List.isPrefixOf_iff_prefix] at apart
      symm
      rw [List.filter_eq_nil_iff]
      intro other member begins
      have before := Bytes.lt_of_not_begins first apart (List.isPrefixOf_iff_prefix.1 begins)
      exact List.lt_asymm before (below other member)

theorem Listing.gathers (listing : Listing seen scanned (Bytes.above? scanned) pairs) :
    Gathers seen scanned (pairs.takeWhile fun pair => scanned.isPrefixOf pair.1) := by
  rw [takeWhile_begins listing.ascending fun pair member => (listing.held pair.1 pair.2 member).2]
  constructor
  · exact listing.ascending.sublist List.filter_sublist
  · intro key value
    rw [List.mem_filter]
    constructor
    · rintro ⟨member, begins⟩
      exact ⟨(listing.held key value member).1, begins⟩
    · rintro ⟨found, begins⟩
      have reached := Bytes.le_of_begins (List.isPrefixOf_iff_prefix.1 begins)
      exact ⟨listing.whole key value found reached ((Bytes.lt_above?_iff reached).2 begins), begins⟩

theorem Transaction.iterate_listing {tx : Transaction} (unfinished : tx.finished = false) (store : Store)
    (start : Bytes) (stop : Option Bytes) (loose : Bool) : ∃ pairs,
      tx.iterate store start (if loose then none else stop) = .ok pairs ∧
        Listing (tx.reads store) start stop pairs := by
  obtain ⟨pairs, listed, ascending, members⟩ :=
    iterate_of_open unfinished store start (if loose then none else stop)
  refine ⟨pairs, listed, ascending, fun key value member => ?_, fun key value found reached below => ?_⟩
  · obtain ⟨found, reached, _⟩ := (members key value).1 member
    exact ⟨found, reached⟩
  · refine (members key value).2 ⟨found, reached, fun bound ends => ?_⟩
    cases loose with
    | true => cases ends
    | false => exact below bound ends

end FsMeta
