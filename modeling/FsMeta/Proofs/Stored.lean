import FsMeta.Proofs.Key
import FsMeta.Proofs.Scope

set_option autoImplicit false

namespace FsMeta

theorem pos_of_requirePositive {field : String} {id : Int64} (required : requirePositive field id = .ok ()) :
    0 < id := by
  rw [requirePositive] at required
  split at required
  · cases required
  · rename_i positive
    exact Int64.not_le.1 positive

def Writes.Touch (writes : Writes) (key : Key) : Prop := (writes.find? key.bytes).isSome

theorem Writes.touch_insert {writes : Writes} {key other : Key} {value : Option Bytes}
    (touch : writes.Touch other) : Writes.Touch (writes.insert key.bytes value) other := by
  rw [Touch, Table.find?_insert]
  split
  · rfl
  · exact touch

theorem Writes.touch_insert_self (writes : Writes) (key : Key) (value : Option Bytes) :
    Writes.Touch (writes.insert key.bytes value) key := by
  rw [Touch, Table.find?_insert, if_pos rfl]
  rfl

namespace Writes

variable {writes : Writes} {edits : List (Key × Option Bytes)} {key : Key} {value : Option Bytes}

def apply (writes : Writes) (edits : List (Key × Option Bytes)) : Writes :=
  edits.foldl (fun writes edit => writes.insert edit.1.bytes edit.2) writes

theorem apply_append (writes : Writes) (edits more : List (Key × Option Bytes)) :
    apply writes (edits ++ more) = apply (apply writes edits) more := List.foldl_append

theorem find?_apply_of_not_mem {bytes : Bytes} (absent : ∀ edit ∈ edits, edit.1.bytes ≠ bytes) :
    (apply writes edits).find? bytes = writes.find? bytes := by
  induction edits generalizing writes with
  | nil => rfl
  | cons edit rest ih =>
    obtain ⟨first, others⟩ := List.forall_mem_cons.1 absent
    refine (ih others).trans ?_
    rw [Table.find?_insert, if_neg first.symm]

theorem find?_apply_of_mem (member : (key, value) ∈ edits)
    (only : ∀ other, (key, other) ∈ edits → other = value) :
    (apply writes edits).find? key.bytes = some value := by
  induction edits generalizing writes with
  | nil => cases member
  | cons edit rest ih =>
    by_cases later : (key, value) ∈ rest
    · exact ih later fun other also => only other (List.mem_cons_of_mem _ also)
    · have first : edit = (key, value) := ((List.mem_cons.1 member).resolve_right later).symm
      subst first
      have absent : ∀ edit ∈ rest, edit.1.bytes ≠ key.bytes := by
        rintro ⟨other, found⟩ also same
        obtain rfl : other = key := Key.bytes_injective same
        rw [only found (List.mem_cons_of_mem _ also)] at also
        exact later also
      change (apply (writes.insert key.bytes value) rest).find? key.bytes = some value
      rw [find?_apply_of_not_mem absent, Table.find?_insert, if_pos rfl]

theorem exists_of_find?_apply {bytes : Bytes} (found : ((apply writes edits).find? bytes).isSome) :
    (∃ edit ∈ edits, edit.1.bytes = bytes) ∨ (writes.find? bytes).isSome := by
  by_cases listed : ∃ edit ∈ edits, edit.1.bytes = bytes
  · exact .inl listed
  · right
    rwa [find?_apply_of_not_mem fun edit member same => listed ⟨edit, member, same⟩] at found

theorem touch_apply : Touch (apply writes edits) key ↔ (∃ value, (key, value) ∈ edits) ∨ writes.Touch key := by
  constructor
  · intro touch
    rcases exists_of_find?_apply touch with ⟨⟨other, value⟩, member, same⟩ | before
    · cases Key.bytes_injective same
      exact .inl ⟨value, member⟩
    · exact .inr before
  · intro known
    induction edits generalizing writes with
    | nil => exact known.resolve_left fun ⟨_, member⟩ => by cases member
    | cons edit rest ih =>
      apply ih
      rcases known with ⟨value, member⟩ | before
      · rcases List.mem_cons.1 member with rfl | later
        · exact .inr (touch_insert_self _ _ _)
        · exact .inl ⟨value, later⟩
      · exact .inr (touch_insert before)

end Writes

namespace Contents

def Holds {α : Type} [Record α] (contents : Contents) (key : Key) (value : α) : Prop :=
  ∃ bytes, contents key.bytes = some bytes ∧ Record.decode bytes = .ok value

def put (contents : Contents) (key : Key) (value : Option Bytes) : Contents :=
  fun other => if other = key.bytes then value else contents other

section

variable {contents : Contents} {key other : Key}

@[simp] theorem write_insert (contents : Contents) (writes : Writes) (key : Key) (value : Option Bytes) :
    contents.write (writes.insert key.bytes value) = (contents.write writes).put key value := by
  funext other
  rw [write_apply, Table.find?_insert, put]
  split <;> rfl

theorem put_self (key : Key) (value : Option Bytes) : contents.put key value key.bytes = value :=
  if_pos rfl

theorem put_other (differ : other ≠ key) (value : Option Bytes) :
    contents.put key value other.bytes = contents other.bytes := by
  have bytes : other.bytes ≠ key.bytes := fun same => differ (Key.bytes_injective same)
  exact if_neg bytes

theorem of_put_none {place bytes : Bytes} (held : contents.put key none place = some bytes) :
    contents place = some bytes := by
  rw [put] at held
  split at held
  · cases held
  · exact held

theorem put_same {value : Option Bytes} (same : contents key.bytes = value) :
    contents.put key value = contents := by
  funext other
  rw [put]
  split
  · rename_i equal
    rw [equal, same]
  · rfl

end

section

variable {contents : Contents} {α : Type} [Record α] {key other : Key} {value : α}

theorem Holds.unique {one two : α} (first : contents.Holds key one) (second : contents.Holds key two) :
    one = two := by
  obtain ⟨bytes, held, decoded⟩ := first
  obtain ⟨_, same, again⟩ := second
  rw [held] at same
  cases same
  rw [decoded] at again
  cases again
  rfl

theorem not_holds_of_absent (absent : contents key.bytes = none) (value : α) : ¬ contents.Holds key value := by
  rintro ⟨bytes, held, _⟩
  rw [absent] at held
  cases held

theorem holds_put_self (restores : Record.decode (Record.encode value) = .ok value) :
    (contents.put key (some (Record.encode value))).Holds key value :=
  ⟨_, put_self _ _, restores⟩

@[simp] theorem holds_put (differ : other ≠ key) (written : Option Bytes) :
    (contents.put key written).Holds other value ↔ contents.Holds other value := by
  rw [Holds, Holds, put_other differ]

end

section

variable {contents other : Contents} {writes : Writes} {key : Key}

theorem write_of_touch (touch : writes.Touch key) :
    contents.write writes key.bytes = other.write writes key.bytes := by
  obtain ⟨value, written⟩ := Option.isSome_iff_exists.1 touch
  rw [write_apply, write_apply, written]
  rfl

theorem write_of_not_touch (untouched : ¬ writes.Touch key) :
    contents.write writes key.bytes = contents key.bytes := by
  have unwritten : writes.find? key.bytes = none := by simpa [Writes.Touch] using untouched
  rw [write_apply, unwritten]
  rfl

theorem Holds.publish {α : Type} [Record α] {value : α} (held : (other.write writes).Holds key value)
    (same : ¬ writes.Touch key → contents key.bytes = other key.bytes) :
    (contents.write writes).Holds key value := by
  obtain ⟨bytes, held, decoded⟩ := held
  refine ⟨bytes, ?_, decoded⟩
  by_cases touch : writes.Touch key
  · exact (write_of_touch touch).trans held
  · rw [write_of_not_touch touch] at held ⊢
    rwa [same touch]

theorem holds_write_of_same {α : Type} [Record α] {value : α}
    (same : writes.Touch key → contents key.bytes = other key.bytes)
    (kept : (other.write writes).Holds key value ↔ other.Holds key value) :
    (contents.write writes).Holds key value ↔ contents.Holds key value := by
  by_cases touch : writes.Touch key
  · rw [Holds, Holds, write_of_touch touch, same touch]
    exact kept
  · rw [Holds, Holds, write_of_not_touch touch]

end

end Contents

section

open Scoped (Ensures)

variable {base : Contents} {writes : Writes} {α : Type} [Record α] {key : Key}

theorem ensures_find? {post : Option α → Writes → Prop}
    (absent : base.write writes key.bytes = none → post none writes)
    (present : ∀ value, (base.write writes).Holds key value → post (some value) writes) :
    Ensures base (Scoped.find? α key.bytes) writes post :=
  .find? absent fun bytes value held decoded => present value ⟨bytes, held, decoded⟩

theorem ensures_find {post : α → Writes → Prop}
    (present : ∀ value, (base.write writes).Holds key value → post value writes) :
    Ensures base (Scoped.find α key.bytes) writes post :=
  .find fun bytes value held decoded => present value ⟨bytes, held, decoded⟩

end

end FsMeta
