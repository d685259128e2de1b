import FsMeta.Proofs.Journal.Frames

set_option autoImplicit false

namespace FsMeta.Journal

structure Frame where
  bytes : Bytes
  entry : Entry
  isSealed : Sealed bytes entry

def Frame.ofEntry (entry : Entry) (fits : entry.Fits) : Frame :=
  ⟨entry.image, entry, entry.sealed_image fits⟩

theorem Frame.framed (frame : Frame) : Framed frame.bytes frame.entry := frame.isSealed.framed

theorem Frame.length_pos (frame : Frame) : 0 < frame.bytes.length := by
  refine List.length_pos_iff.2 fun empty => ?_
  have whole := frame.framed.whole [] 0
  rw [empty, List.append_nil, Cursor.next_nil] at whole
  cases whole

def joined (frames : List Frame) : Bytes := frames.flatMap Frame.bytes

def upTo : Nat → List Frame → List Frame
  | _, [] => []
  | count, frame :: rest =>
    if frame.bytes.length ≤ count then frame :: upTo (count - frame.bytes.length) rest else []

def topLsn : UInt64 → List Frame → UInt64
  | last, [] => last
  | _, frame :: rest => topLsn frame.entry.lsn rest

abbrev Ascending (last : UInt64) (frames : List Frame) : Prop :=
  (last :: frames.map fun frame => frame.entry.lsn).Pairwise (· < ·)

@[simp] theorem joined_cons (frame : Frame) (rest : List Frame) :
    joined (frame :: rest) = frame.bytes ++ joined rest := List.flatMap_cons

@[simp] theorem joined_append (frames more : List Frame) :
    joined (frames ++ more) = joined frames ++ joined more := List.flatMap_append

theorem length_le_joined (frames : List Frame) : frames.length ≤ (joined frames).length := by
  induction frames with
  | nil => simp
  | cons frame rest ih =>
    have positive := frame.length_pos
    simp only [List.length_cons, joined_cons, List.length_append]
    omega

theorem isPrefix_upTo (count : Nat) (frames : List Frame) : upTo count frames <+: frames := by
  induction frames generalizing count with
  | nil => exact List.prefix_rfl
  | cons frame rest ih =>
    rw [upTo]
    split
    · exact List.cons_prefix_cons.2 ⟨rfl, ih _⟩
    · exact List.nil_prefix

theorem ascending_upTo {last : UInt64} {frames : List Frame} (ascending : Ascending last frames)
    (count : Nat) : Ascending last (upTo count frames) :=
  ascending.sublist (((isPrefix_upTo count frames).sublist.map _).cons_cons last)

theorem upTo_of_le {count : Nat} {frames : List Frame} (all : (joined frames).length ≤ count) :
    upTo count frames = frames := by
  induction frames generalizing count with
  | nil => rfl
  | cons frame rest ih =>
    rw [joined_cons, List.length_append] at all
    rw [upTo, if_pos (by omega), ih (by omega)]

theorem upTo_append_singleton (count : Nat) (frames : List Frame) (last : Frame) :
    upTo count (frames ++ [last]) =
      if (joined frames).length + last.bytes.length ≤ count then frames ++ [last]
      else upTo count frames := by
  induction frames generalizing count with
  | nil => simp [upTo, joined]
  | cons frame rest ih =>
    simp only [List.cons_append, upTo, ih, joined_cons, List.length_append]
    by_cases first : frame.bytes.length ≤ count
    · have same : (joined rest).length + last.bytes.length ≤ count - frame.bytes.length ↔
          frame.bytes.length + (joined rest).length + last.bytes.length ≤ count := by omega
      simp only [first, if_true, same]
      split <;> rfl
    · have beyond : ¬ frame.bytes.length + (joined rest).length + last.bytes.length ≤ count := by omega
      simp [first, beyond]

theorem exists_take_joined (count : Nat) (frames : List Frame) :
    ∃ torn, Unreadable torn ∧ (joined frames).take count = joined (upTo count frames) ++ torn := by
  induction frames generalizing count with
  | nil => exact ⟨[], fun filled => absurd rfl filled, by simp [joined, upTo]⟩
  | cons frame rest ih =>
    rw [upTo]
    split
    · rename_i fits
      obtain ⟨torn, unreadable, split⟩ := ih (count - frame.bytes.length)
      refine ⟨torn, unreadable, ?_⟩
      rw [joined_cons, joined_cons, List.take_append, List.take_of_length_le fits, split,
        List.append_assoc]
    · rename_i short
      refine ⟨frame.bytes.take count, frame.framed.torn count (by omega), ?_⟩
      rw [joined_cons, List.take_append_of_le_length (by omega)]
      rfl

theorem topLsn_eq (last : UInt64) (frames : List Frame) :
    topLsn last frames = (frames.getLast?.map (Entry.lsn ∘ Frame.entry)).getD last := by
  induction frames generalizing last with
  | nil => rfl
  | cons frame rest ih =>
    rw [topLsn, ih]
    cases rest with
    | nil => rfl
    | cons other more => simp [List.getLast?_cons]

theorem topLsn_append (last : UInt64) (frames more : List Frame) :
    topLsn last (frames ++ more) = topLsn (topLsn last frames) more := by
  induction frames generalizing last with
  | nil => rfl
  | cons frame rest ih => exact ih frame.entry.lsn

theorem topLsn_concat (last : UInt64) (frames : List Frame) (frame : Frame) :
    topLsn last (frames ++ [frame]) = frame.entry.lsn := by
  rw [topLsn_append, topLsn, topLsn]

theorem ascending_cons {last : UInt64} {frame : Frame} {rest : List Frame} :
    Ascending last (frame :: rest) ↔ last < frame.entry.lsn ∧ Ascending frame.entry.lsn rest := by
  constructor
  · intro ascending
    obtain ⟨above, others⟩ := List.pairwise_cons.1 ascending
    exact ⟨above _ List.mem_cons_self, others⟩
  · rintro ⟨above, others⟩
    refine List.pairwise_cons.2 ⟨fun lsn member => ?_, others⟩
    rcases List.mem_cons.1 member with rfl | member
    · exact above
    · exact UInt64.lt_trans above ((List.pairwise_cons.1 others).1 lsn member)

theorem ascending_append {last : UInt64} {frames more : List Frame} :
    Ascending last (frames ++ more) ↔ Ascending last frames ∧ Ascending (topLsn last frames) more := by
  induction frames generalizing last with
  | nil => simp [topLsn]
  | cons frame rest ih =>
    rw [List.cons_append, ascending_cons, ascending_cons, ih, topLsn, and_assoc]

theorem toNat_add_one {lsn : UInt64} (room : lsn.toNat + 1 < UInt64.size) :
    (lsn + 1).toNat = lsn.toNat + 1 := by
  rw [UInt64.toNat_add, UInt64.toNat_one, Nat.mod_eq_of_lt room]

theorem exists_joined_unreadable (bytes : Bytes) :
    ∃ frames tail, bytes = joined frames ++ tail ∧ Unreadable tail := by
  induction length : bytes.length using Nat.strongRecOn generalizing bytes with
  | ind size ih =>
    rcases exists_sealed_or_unreadable bytes with ⟨front, entry, rest, isSealed, whole⟩ | unreadable
    · let frame : Frame := ⟨front, entry, isSealed⟩
      have positive : 0 < front.length := frame.length_pos
      have shorter : rest.length < size := by
        rw [← length, whole, List.length_append]
        omega
      obtain ⟨frames, tail, split, unreadable⟩ := ih rest.length shorter rest rfl
      refine ⟨frame :: frames, tail, ?_, unreadable⟩
      rw [joined_cons, List.append_assoc, ← split]
      exact whole
    · exact ⟨[], bytes, rfl, unreadable⟩

/-- Bytes at which recovery ends when it has come to that sequence number. -/
def Stops (last : UInt64) (tail : Bytes) : Prop :=
  Unreadable tail ∨ ∃ (frame : Frame) (rest : Bytes), tail = frame.bytes ++ rest ∧ frame.entry.lsn ≤ last

theorem exists_ascending_append (last : UInt64) (frames : List Frame) :
    ∃ kept more, frames = kept ++ more ∧ Ascending last kept ∧
      ∀ tail, Unreadable tail → Stops (topLsn last kept) (joined more ++ tail) := by
  induction frames generalizing last with
  | nil => exact ⟨[], [], rfl, by simp, fun tail unreadable => .inl unreadable⟩
  | cons frame rest ih =>
    by_cases above : last < frame.entry.lsn
    · obtain ⟨kept, more, rfl, ascending, stops⟩ := ih frame.entry.lsn
      exact ⟨frame :: kept, more, rfl, ascending_cons.2 ⟨above, ascending⟩, stops⟩
    · refine ⟨[], frame :: rest, rfl, by simp, fun tail _ => ?_⟩
      rw [joined_cons, List.append_assoc]
      exact .inr ⟨frame, _, rfl, UInt64.not_lt.1 above⟩

theorem exists_joined_stops (bytes : Bytes) :
    ∃ frames tail, bytes = joined frames ++ tail ∧ Ascending 0 frames ∧ Stops (topLsn 0 frames) tail := by
  obtain ⟨frames, tail, rfl, unreadable⟩ := exists_joined_unreadable bytes
  obtain ⟨kept, more, rfl, ascending, stops⟩ := exists_ascending_append 0 frames
  refine ⟨kept, joined more ++ tail, ?_, ascending, stops tail unreadable⟩
  rw [joined_append, List.append_assoc]

theorem Frame.eq_of_append {frame other : Frame} {rest more : Bytes}
    (same : frame.bytes ++ rest = other.bytes ++ more) : frame = other := by
  have first := frame.framed.whole rest 0
  rw [same, other.framed.whole more 0] at first
  simp only [Prod.mk.injEq, Except.ok.injEq, Option.some.injEq, Cursor.ofBytes, Cursor.mk.injEq,
    Nat.zero_add] at first
  obtain ⟨entry, _, length⟩ := first
  have bytes : frame.bytes = other.bytes := List.append_inj_left same length.symm
  cases frame
  cases other
  simp_all

theorem Frame.not_unreadable (frame : Frame) (rest : Bytes) : ¬ Unreadable (frame.bytes ++ rest) := by
  intro unreadable
  have filled : frame.bytes ++ rest ≠ [] := by
    have positive := frame.length_pos
    intro empty
    rw [(List.append_eq_nil_iff.1 empty).1] at positive
    cases positive
  obtain ⟨what, failed⟩ := unreadable filled 0
  rw [frame.framed.whole] at failed
  cases failed

theorem isPrefix_of_unreadable {frames others : List Frame} {tail : Bytes} (unreadable : Unreadable tail)
    (front : joined others <+: joined frames ++ tail) : others <+: frames := by
  induction frames generalizing others with
  | nil =>
    cases others with
    | nil => exact List.prefix_rfl
    | cons other more =>
      obtain ⟨rest, split⟩ := front
      rw [joined_cons, List.append_assoc] at split
      change _ = tail at split
      rw [← split] at unreadable
      exact absurd unreadable (other.not_unreadable _)
  | cons frame rest ih =>
    cases others with
    | nil => exact List.nil_prefix
    | cons other more =>
      obtain ⟨behind, split⟩ := front
      rw [joined_cons, joined_cons, List.append_assoc, List.append_assoc] at split
      have same : other = frame := Frame.eq_of_append split
      subst same
      have others : more <+: rest := ih ⟨behind, List.append_cancel_left split⟩
      exact List.cons_prefix_cons.2 ⟨rfl, others⟩

theorem isPrefix_of_ascending {last : UInt64} {frames others : List Frame} {tail : Bytes}
    (stops : Stops (topLsn last frames) tail) (ascending : Ascending last others)
    (front : joined others <+: joined frames ++ tail) : others <+: frames := by
  rcases stops with unreadable | ⟨frame, rest, rfl, below⟩
  · exact isPrefix_of_unreadable unreadable front
  · obtain ⟨more, torn, rfl, unreadable⟩ := exists_joined_unreadable rest
    have all : others <+: frames ++ frame :: more := by
      apply isPrefix_of_unreadable unreadable
      rwa [joined_append, joined_cons, List.append_assoc, List.append_assoc]
    rcases Nat.lt_or_ge frames.length others.length with longer | within
    · -- A longer one would go on with the frame whose number does not grow.
      have next : frames ++ [frame] <+: others := by
        apply List.prefix_of_prefix_length_le _ all
        · rw [List.length_append, List.length_singleton]
          exact longer
        · exact ⟨more, by rw [List.append_assoc]; rfl⟩
      have ordered : Ascending last (frames ++ [frame]) :=
        ascending.sublist ((next.sublist.map _).cons_cons last)
      have above := (ascending_cons.1 (ascending_append.1 ordered).2).1
      exact absurd above (UInt64.not_lt.2 below)
    · exact List.prefix_of_prefix_length_le all (List.prefix_append _ _) within

def Orderly (content : Bytes) : Prop :=
  ∀ frames : List Frame, joined frames <+: content → Ascending 0 frames

theorem orderly_joined {frames : List Frame} (ascending : Ascending 0 frames) {tail : Bytes}
    (unreadable : Unreadable tail) : Orderly (joined frames ++ tail) := by
  intro others front
  have leads := isPrefix_of_unreadable unreadable front
  exact ascending.sublist ((leads.sublist.map _).cons_cons 0)

end FsMeta.Journal
