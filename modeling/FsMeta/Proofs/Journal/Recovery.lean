import FsMeta.Journal.Scan
import FsMeta.Proofs.Journal.Sequence

set_option autoImplicit false

namespace FsMeta.Journal

theorem within_stops {last : UInt64} {tail : Bytes} (stops : Stops last tail) (bound position : Nat) :
    Scan.within (bound + 1) last (Cursor.ofBytes tail position) =
      .ok { damaged := !tail.isEmpty, validLength := position } := by
  cases tail with
  | nil => rfl
  | cons byte rest =>
    rcases stops with unreadable | ⟨frame, behind, begins, below⟩
    · obtain ⟨what, failed⟩ := unreadable (List.cons_ne_nil _ _) position
      have ended : (Cursor.ofBytes (byte :: rest) position).next =
          (.error (.journalCorruption what), (Cursor.ofBytes (byte :: rest) position).next.2) :=
        Prod.ext failed rfl
      rw [Scan.within, ended]
      rfl
    · rw [begins, Scan.within, frame.framed.whole, ← begins]
      simp only [below, if_true]
      rfl

theorem within_joined {frames : List Frame} {last : UInt64} (ascending : Ascending last frames)
    {tail : Bytes} (stops : Stops (topLsn last frames) tail) {bound : Nat}
    (enough : frames.length < bound) (position : Nat) :
    Scan.within bound last (Cursor.ofBytes (joined frames ++ tail) position) =
      .ok { entries := frames.map Frame.entry, damaged := !tail.isEmpty,
            validLength := position + (joined frames).length } := by
  induction frames generalizing last bound position with
  | nil =>
    obtain ⟨bound, rfl⟩ := Nat.exists_eq_add_one.2 enough
    exact within_stops stops bound position
  | cons frame rest ih =>
    obtain ⟨bound, rfl⟩ := Nat.exists_eq_add_one.2 (Nat.zero_lt_of_lt enough)
    obtain ⟨above, ascending⟩ := ascending_cons.1 ascending
    have later : ¬ frame.entry.lsn ≤ last := UInt64.not_le.2 above
    have others := ih ascending stops (Nat.lt_of_succ_lt_succ enough) (position + frame.bytes.length)
    rw [joined_cons, List.append_assoc, Scan.within, frame.framed.whole]
    simp only [later, if_false, others]
    simp [Functor.map, Except.map, Scan.follow, Nat.add_assoc]

def Report.of (frames : List Frame) (tail : Bytes) : Report where
  recovered := frames.length
  corrupted := if tail.isEmpty then 0 else 1
  lastLsn := topLsn 0 frames
  truncated := !tail.isEmpty

theorem Report.of_damage (frames : List Frame) (tail : Bytes) :
    (0 < (of frames tail).corrupted ↔ joined frames ≠ joined frames ++ tail) ∧
      ((of frames tail).truncated = true ↔ joined frames ≠ joined frames ++ tail) := by
  cases tail <;> simp [of]

theorem recover_joined {frames : List Frame} (ascending : Ascending 0 frames) {tail : Bytes}
    (stops : Stops (topLsn 0 frames) tail) :
    recover (.regular (joined frames ++ tail)) =
      .ok (frames.map Frame.entry, .of frames tail, .regular (joined frames)) := by
  have enough : frames.length < (joined frames ++ tail).length + 1 := by
    have counted := length_le_joined frames
    rw [List.length_append]
    omega
  have scanned := within_joined ascending stops enough 0
  have scan : Scan.ofSource (.bytes (joined frames ++ tail)) = _ := scanned
  simp only [recover, File.source, scan]
  cases tail with
  | nil =>
    rw [List.append_nil]
    simp [bind, Except.bind, pure, Except.pure, Scan.report, Scan.lastLsn, topLsn_eq, Report.of]
  | cons byte rest =>
    have inside : 0 + (joined frames).length ≤ (joined frames ++ byte :: rest).length := by
      rw [List.length_append]
      omega
    simp only [bind, Except.bind, List.isEmpty_cons, Bool.not_false, if_true, File.setLength, inside]
    rw [Nat.zero_add, List.take_left]
    simp [pure, Except.pure, Scan.report, Scan.lastLsn, topLsn_eq, Report.of]

theorem recover_undamaged {frames : List Frame} (ascending : Ascending 0 frames) :
    ∃ report, recover (.regular (joined frames)) =
        .ok (frames.map Frame.entry, report, .regular (joined frames)) ∧
      report.corrupted = 0 ∧ report.truncated = false := by
  have empty : Unreadable [] := fun filled => absurd rfl filled
  have recovered := recover_joined ascending (.inl empty)
  rw [List.append_nil] at recovered
  exact ⟨_, recovered, rfl, rfl⟩

def Cursor.positionAfter : Nat → Cursor → Nat
  | 0, cursor => cursor.position
  | count + 1, cursor => positionAfter count cursor.next.2

-- Where the frames end can be told from their number, too, by reading as many of them again.
theorem positionAfter_joined (frames : List Frame) (tail : Bytes) (position : Nat) :
    Cursor.positionAfter frames.length (Cursor.ofBytes (joined frames ++ tail) position) =
      position + (joined frames).length := by
  induction frames generalizing position with
  | nil => rfl
  | cons frame rest ih =>
    rw [List.length_cons, joined_cons, List.append_assoc, Cursor.positionAfter, frame.framed.whole, ih,
      List.length_append, Nat.add_assoc]

theorem good_entriesWithin {frames : List Frame} {tail : Bytes} (unreadable : Unreadable tail)
    {bound : Nat} (enough : frames.length < bound) (position : Nat) :
    good (Cursor.entriesWithin bound (Cursor.ofBytes (joined frames ++ tail) position)) =
      frames.map Frame.entry := by
  induction frames generalizing bound position with
  | nil =>
    obtain ⟨bound, rfl⟩ := Nat.exists_eq_add_one.2 enough
    cases tail with
    | nil => rfl
    | cons byte rest =>
      obtain ⟨what, failed⟩ := unreadable (List.cons_ne_nil _ _) position
      have ended : (Cursor.ofBytes (byte :: rest) position).next =
          (.error (.journalCorruption what), (Cursor.ofBytes (byte :: rest) position).next.2) :=
        Prod.ext failed rfl
      change good (Cursor.entriesWithin (bound + 1) (Cursor.ofBytes (byte :: rest) position)) = []
      rw [Cursor.entriesWithin, ended]
      rfl
  | cons frame rest ih =>
    obtain ⟨bound, rfl⟩ := Nat.exists_eq_add_one.2 (Nat.zero_lt_of_lt enough)
    have others := ih (Nat.lt_of_succ_lt_succ enough) (position + frame.bytes.length)
    rw [joined_cons, List.append_assoc, Cursor.entriesWithin, frame.framed.whole, List.map_cons, ← others]
    rfl

/-- A reader that does not look at the sequence numbers takes every frame at the front. -/
theorem good_entries_joined (frames : List Frame) {tail : Bytes} (unreadable : Unreadable tail) :
    good (Cursor.entries { source := .bytes (joined frames ++ tail) }) = frames.map Frame.entry := by
  have enough : frames.length < (joined frames ++ tail).length + 1 := by
    have counted := length_le_joined frames
    rw [List.length_append]
    omega
  exact good_entriesWithin unreadable enough 0

end FsMeta.Journal
