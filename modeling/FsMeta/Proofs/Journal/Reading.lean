import FsMeta.Proofs.Journal.Decoding

set_option autoImplicit false

namespace FsMeta.Journal

namespace Source

/-- Reading until so many bytes are there, or the file has no more: each call gives some of the bytes that
are still wanted, or is interrupted and made again. -/
inductive Fills : (rest : Bytes) → (count : Nat) → (got left : Bytes) → Prop
  | full {rest : Bytes} : Fills rest 0 [] rest
  | ended {count : Nat} : Fills [] count [] []
  | interrupted {rest got left : Bytes} {count : Nat} (again : Fills rest count got left) :
      Fills rest count got left
  | part {piece rest got left : Bytes} {count : Nat} (filled : piece ≠ []) (wanted : piece.length ≤ count)
      (more : Fills rest (count - piece.length) got left) : Fills (piece ++ rest) count (piece ++ got) left

theorem fills_iff {rest got left : Bytes} {count : Nat} :
    Fills rest count got left ↔ Source.read (.bytes rest) count = .ok (got, .bytes left) := by
  simp only [Source.read, Except.ok.injEq, Prod.mk.injEq, Source.bytes.injEq]
  constructor
  · intro fills
    induction fills with
    | full => exact ⟨rfl, rfl⟩
    | ended => exact ⟨List.take_nil, List.drop_nil⟩
    | interrupted _ ih => exact ih
    | part _ wanted _ ih =>
      rw [List.take_append, List.drop_append, List.take_of_length_le wanted, List.drop_of_length_le wanted,
        ih.1, ih.2]
      exact ⟨rfl, rfl⟩
  · rintro ⟨rfl, rfl⟩
    by_cases wanted : count = 0
    · subst wanted
      exact .full
    by_cases empty : rest = []
    · subst empty
      rw [List.take_nil, List.drop_nil]
      exact .ended
    have last : Fills (rest.drop count) (count - (rest.take count).length) [] (rest.drop count) := by
      rcases Nat.le_total count rest.length with enough | short
      · rw [List.length_take_of_le enough, Nat.sub_self]
        exact .full
      · rw [List.drop_of_length_le short]
        exact .ended
    have fills : Fills (rest.take count ++ rest.drop count) count (rest.take count ++ []) (rest.drop count) :=
      .part (by simp [wanted, empty]) (List.length_take_le _ _) last
    rwa [List.take_append_drop, List.append_nil] at fills

end Source

def Damage.readAt (offset : Nat) : Damage → Damage
  | incompleteHeader found => tornHeader offset found
  | lengthOutOfRange length => lengthOutOfRangeAt length offset
  | incompleteBody expected found =>
    tornBody offset (found - headerLength) (UInt32.ofNat (expected - headerLength))
  | damage => damage

theorem Entry.readAt_of_ofBody {header : Header} {body : Bytes} {damage : Damage}
    (refused : Entry.ofBody header body = .error damage) (offset : Nat) : damage.readAt offset = damage := by
  rw [Entry.ofBody] at refused
  by_cases right : Crc32.checksum body = header.checksum
  · simp only [right, ne_eq, not_true_eq_false, if_false] at refused
    cases read : Entry.layout.read body with
    | error fault =>
      simp only [read] at refused
      cases refused
      rfl
    | ok entry =>
      simp only [read] at refused
      split at refused
      · cases refused
      · cases refused
        rfl
  · simp only [right, ne_eq, not_false_eq_true, if_true] at refused
    cases refused
    rfl

namespace Cursor

theorem next_of_frame {bytes : Bytes} {entry : Entry} {length : Nat}
    (decoded : Entry.ofFrame bytes = .ok (entry, length)) (position : Nat) :
    (Cursor.ofBytes bytes position).next =
      (.ok (some entry), Cursor.ofBytes (bytes.drop length) (position + length)) := by
  obtain ⟨frame, rest, isSealed, rfl, rfl⟩ := Entry.ofFrame_eq_ok_iff.1 decoded
  rw [isSealed.framed.whole, List.drop_left]

theorem next_header_all (header : Header) (behind : Bytes) (position : Nat) :
    (Cursor.ofBytes (header.bytes ++ behind) position).next =
      if header.tooLong then
        (.error (Damage.lengthOutOfRangeAt header.length position).error, Cursor.ofBytes behind position)
      else (Cursor.ofBytes behind position).nextBody header := by
  have enough : headerLength ≤ (header.bytes ++ behind).length := by
    rw [List.length_append, Header.length_bytes]
    omega
  rw [next_of_long enough, List.take_left' header.length_bytes, List.drop_left' header.length_bytes,
    Header.ofBytes_bytes]

theorem next_of_damage {bytes : Bytes} {damage : Damage} (filled : bytes ≠ [])
    (refused : Entry.ofFrame bytes = .error damage) (position : Nat) :
    ∃ left, (Cursor.ofBytes bytes position).next =
      (.error (damage.readAt position).error, Cursor.ofBytes left position) := by
  by_cases short : bytes.length < headerLength
  · rw [Entry.ofFrame_of_short short] at refused
    cases refused
    have all : bytes.take headerLength = bytes := List.take_of_length_le (Nat.le_of_lt short)
    refine ⟨bytes.drop headerLength, ?_⟩
    simp only [Cursor.ofBytes, next, Source.read, all, filled, short, if_true, if_false]
    rfl
  obtain ⟨header, behind, rfl⟩ := Header.exists_front (Nat.not_lt.1 short)
  rw [Entry.ofFrame_header] at refused
  rw [next_header_all]
  by_cases inRange : header.tooLong
  · rw [if_pos inRange] at refused ⊢
    cases refused
    exact ⟨behind, rfl⟩
  rw [if_neg inRange] at refused ⊢
  by_cases missing : behind.length < header.length.toNat
  · rw [if_pos missing] at refused
    cases refused
    have all : behind.take header.length.toNat = behind := List.take_of_length_le (Nat.le_of_lt missing)
    refine ⟨behind.drop header.length.toNat, ?_⟩
    simp only [Cursor.ofBytes, nextBody, Source.read, all, missing, if_true, Damage.readAt,
      Nat.add_sub_cancel_left, UInt32.ofNat_toNat]
  · rw [if_neg missing] at refused
    rw [nextBody_of_long (Nat.not_lt.1 missing)]
    cases body : Entry.ofBody header (behind.take header.length.toNat) with
    | error found =>
      rw [body] at refused
      cases refused
      rw [Entry.readAt_of_ofBody body]
      exact ⟨_, rfl⟩
    | ok entry =>
      rw [body] at refused
      cases refused

def answer (bytes : Bytes) (position : Nat) : Except Error (Option Entry) × Nat :=
  if bytes = [] then (.ok none, position)
  else match Entry.ofFrame bytes with
    | .ok (entry, length) => (.ok (some entry), position + length)
    | .error damage => (.error (damage.readAt position).error, position)

theorem next_eq_answer (bytes : Bytes) (position : Nat) :
    let call := (Cursor.ofBytes bytes position).next
    (call.1, call.2.position) = answer bytes position := by
  rw [answer]
  split
  · rename_i empty
    subst empty
    rfl
  · rename_i filled
    cases decoded : Entry.ofFrame bytes with
    | ok found =>
      rw [next_of_frame decoded]
      rfl
    | error damage =>
      obtain ⟨left, failed⟩ := next_of_damage filled decoded position
      rw [failed]
      rfl

end Cursor

structure Found where
  entry : Entry
  start : Nat
  stop : Nat

structure Survey where
  found : List Found
  stop : Nat
  fault : Option Damage

def Survey.behind (survey : Survey) (found : Found) : Survey :=
  { survey with found := found :: survey.found }

def Survey.outcome (survey : Survey) : Except Error Unit :=
  match survey.fault with
  | none => .ok ()
  | some damage => .error (damage.readAt survey.stop).error

theorem Entry.length_of_ofFrame {bytes : Bytes} {entry : Entry} {length : Nat}
    (decoded : Entry.ofFrame bytes = .ok (entry, length)) : 0 < length ∧ length ≤ bytes.length := by
  obtain ⟨frame, rest, isSealed, rfl, rfl⟩ := Entry.ofFrame_eq_ok_iff.1 decoded
  refine ⟨Frame.length_pos ⟨frame, entry, isSealed⟩, ?_⟩
  rw [List.length_append]
  omega

def survey (offset : Nat) (bytes : Bytes) : Survey :=
  if bytes = [] then { found := [], stop := offset, fault := none }
  else match _ : Entry.ofFrame bytes with
    | .error damage => { found := [], stop := offset, fault := some damage }
    | .ok (entry, length) =>
      (survey (offset + length) (bytes.drop length)).behind ⟨entry, offset, offset + length⟩
termination_by bytes.length
decreasing_by
  have progress := Entry.length_of_ofFrame ‹_›
  rw [List.length_drop]
  omega

theorem survey_stop (offset : Nat) (bytes : Bytes) :
    ∃ front rest, bytes = front ++ rest ∧ (survey offset bytes).stop = offset + front.length ∧
      match (survey offset bytes).fault with
      | none => rest = []
      | some damage => rest ≠ [] ∧ Entry.ofFrame rest = .error damage := by
  fun_induction survey offset bytes with
  | case1 offset => exact ⟨[], [], rfl, rfl, rfl⟩
  | case2 offset bytes filled damage refused => exact ⟨[], bytes, rfl, rfl, filled, refused⟩
  | case3 offset bytes filled entry length decoded ih =>
    obtain ⟨front, rest, behind, stop, fault⟩ := ih
    have within := (Entry.length_of_ofFrame decoded).2
    refine ⟨bytes.take length ++ front, rest, ?_, ?_, fault⟩
    · rw [List.append_assoc, ← behind, List.take_append_drop]
    · rw [Survey.behind, stop, List.length_append, List.length_take_of_le within, Nat.add_assoc]

theorem survey_last (offset : Nat) (bytes : Bytes) :
    (survey offset bytes).stop = ((survey offset bytes).found.getLast?.map Found.stop).getD offset := by
  fun_induction survey offset bytes with
  | case1 offset => rfl
  | case2 offset bytes filled damage refused => rfl
  | case3 offset bytes filled entry length decoded ih =>
    rw [Survey.behind, ih, List.getLast?_cons]
    cases (survey (offset + length) (bytes.drop length)).found.getLast? <;> rfl

namespace Cursor

/-- Calls one after another up to the first that gives no entry: the entries with the positions before and
after their call, how the last call ended, and the position then. -/
inductive Reads : Cursor → List Found → Except Error Unit → Nat → Prop
  | ended {cursor after : Cursor} (call : cursor.next = (.ok none, after)) :
      Reads cursor [] (.ok ()) after.position
  | failed {cursor after : Cursor} {error : Error} (call : cursor.next = (.error error, after)) :
      Reads cursor [] (.error error) after.position
  | read {cursor after : Cursor} {entry : Entry} {found : List Found} {outcome : Except Error Unit}
      {stop : Nat} (call : cursor.next = (.ok (some entry), after)) (more : Reads after found outcome stop) :
      Reads cursor (⟨entry, cursor.position, after.position⟩ :: found) outcome stop

theorem Reads.unique {cursor : Cursor} {found others : List Found} {outcome other : Except Error Unit}
    {stop place : Nat} (one : Reads cursor found outcome stop) (two : Reads cursor others other place) :
    found = others ∧ outcome = other ∧ stop = place := by
  -- A cursor has one next answer, so both runs take the same step.
  induction one generalizing others other place with
  | ended call =>
    cases two with
    | ended again =>
      rw [call] at again
      cases again
      exact ⟨rfl, rfl, rfl⟩
    | failed again | read again =>
      rw [call] at again
      cases again
  | failed call =>
    cases two with
    | failed again =>
      rw [call] at again
      cases again
      exact ⟨rfl, rfl, rfl⟩
    | ended again | read again =>
      rw [call] at again
      cases again
  | read call _ ih =>
    cases two with
    | read again more =>
      rw [call] at again
      cases again
      obtain ⟨rfl, rfl, rfl⟩ := ih more
      exact ⟨rfl, rfl, rfl⟩
    | ended again | failed again =>
      rw [call] at again
      cases again

theorem reads_survey (offset : Nat) (bytes : Bytes) :
    (Cursor.ofBytes bytes offset).Reads (survey offset bytes).found (survey offset bytes).outcome
      (survey offset bytes).stop := by
  fun_induction survey offset bytes with
  | case1 offset => exact .ended (next_nil offset)
  | case2 offset bytes filled damage refused =>
    obtain ⟨left, call⟩ := next_of_damage filled refused offset
    exact .failed call
  | case3 offset bytes filled entry length decoded ih => exact .read (next_of_frame decoded offset) ih

theorem reads_exact (bytes : Bytes) :
    let all := survey 0 bytes
    let rest := bytes.drop all.stop
    (∀ unread count got left, Source.Fills unread count got left ↔
      Source.read (.bytes unread) count = .ok (got, .bytes left)) ∧
    (∀ left position, let call := (Cursor.ofBytes left position).next
      (call.1, call.2.position) = answer left position) ∧
    (∀ found outcome stop, (Cursor.ofBytes bytes 0).Reads found outcome stop ↔
      found = all.found ∧ outcome = all.outcome ∧ stop = all.stop) ∧
    (all.outcome = .ok () ↔ rest = []) ∧
    ((∃ what, all.outcome = .error (.journalCorruption what)) ↔
      rest ≠ [] ∧ ∃ damage, Entry.ofFrame rest = .error damage) ∧
    all.stop = (all.found.getLast?.map Found.stop).getD 0 := by
  intro all rest
  obtain ⟨front, behind, whole, stop, fault⟩ := survey_stop 0 bytes
  have left : rest = behind := by
    have length : all.stop = front.length := by rw [← Nat.zero_add front.length, ← stop]
    simp only [rest, length, whole, List.drop_left]
  have read := reads_survey 0 bytes
  refine ⟨fun _ _ _ _ => Source.fills_iff, next_eq_answer, ?run, ?clean, ?corrupted, survey_last 0 bytes⟩
  case run =>
    intro found outcome stop
    constructor
    · exact fun reads => reads.unique read
    · rintro ⟨rfl, rfl, rfl⟩
      exact read
  -- Whether the survey ended clean or damaged decides both of these.
  all_goals
    rw [left, Survey.outcome]
    change match all.fault with | none => _ | some damage => _ at fault
    cases damaged : all.fault with
    | none =>
      rw [damaged] at fault
      simp [fault]
    | some damage =>
      rw [damaged] at fault
      simp [fault.1, fault.2, Damage.error]

end Cursor

end FsMeta.Journal
