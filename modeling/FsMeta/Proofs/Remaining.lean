import FsMeta.Proofs.Record.Reading
import FsMeta.Proofs.Stored

set_option autoImplicit false

namespace FsMeta

namespace Contents

variable {contents earlier between later : Contents} {goes leaves : Bytes → Prop} {α : Type} [Record α]
variable {key : Key} {value : α}

structure Without (earlier later : Contents) (goes : Bytes → Prop) : Prop where
  gone : ∀ key, goes key → later key = none
  kept : ∀ key, ¬ goes key → later key = earlier key

namespace Without

theorem refl (contents : Contents) : contents.Without contents fun _ => False := ⟨fun _ => False.elim, fun _ _ => rfl⟩

theorem delete (contents : Contents) (writes : Writes) (key : Bytes) :
    (contents.write writes).Without (contents.write (writes.insert key none)) (· = key) where
  gone := by
    rintro _ rfl
    rw [write_apply, Table.find?_insert, if_pos rfl]
    rfl
  kept other differ := by
    rw [write_apply, Table.find?_insert, if_neg differ]
    rfl

theorem trans (one : earlier.Without between goes) (two : between.Without later leaves) :
    earlier.Without later fun key => goes key ∨ leaves key where
  gone := by
    intro key known
    by_cases last : leaves key
    · exact two.gone key last
    · rw [two.kept key last]
      exact one.gone key (known.resolve_right last)
  kept := by
    intro key stays
    obtain ⟨first, last⟩ := not_or.1 stays
    rw [two.kept key last, one.kept key first]

theorem congr (without : earlier.Without later goes)
    (same : ∀ key, (earlier key).isSome → (goes key ↔ leaves key)) : earlier.Without later leaves := by
  have absent {key : Bytes} (before : earlier key = none) : later key = none := by
    by_cases known : goes key
    · exact without.gone key known
    · rw [without.kept key known, before]
  constructor
  · intro key leaves
    cases held : earlier key with
    | none => exact absent held
    | some value => exact without.gone key ((same key (by rw [held]; rfl)).2 leaves)
  · intro key stays
    cases held : earlier key with
    | none => exact absent held
    | some value => rw [← held, without.kept key fun known => stays ((same key (by rw [held]; rfl)).1 known)]

theorem of_some (without : earlier.Without later goes) {key value : Bytes} (held : later key = some value) :
    earlier key = some value ∧ ¬ goes key := by
  by_cases known : goes key
  · rw [without.gone key known] at held
    cases held
  · exact ⟨without.kept key known ▸ held, known⟩

theorem holds_iff (without : earlier.Without later goes) :
    later.Holds key value ↔ earlier.Holds key value ∧ ¬ goes key.bytes := by
  constructor
  · rintro ⟨bytes, held, decoded⟩
    obtain ⟨before, stays⟩ := without.of_some held
    exact ⟨⟨bytes, before, decoded⟩, stays⟩
  · rintro ⟨⟨bytes, held, decoded⟩, stays⟩
    exact ⟨bytes, (without.kept _ stays).trans held, decoded⟩

end Without

end Contents

end FsMeta
