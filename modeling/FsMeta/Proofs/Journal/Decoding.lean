import FsMeta.Proofs.Journal.Sequence

set_option autoImplicit false

namespace FsMeta.Journal

theorem Header.exists_front {bytes : Bytes} (enough : headerLength ≤ bytes.length) :
    ∃ (header : Header) (behind : Bytes), bytes = header.bytes ++ behind := by
  refine ⟨Header.ofBytes (bytes.take headerLength), bytes.drop headerLength, ?_⟩
  rw [Header.bytes_ofBytes (by rw [List.length_take]; omega), List.take_append_drop]

namespace Entry

theorem ofFrame_of_short {bytes : Bytes} (short : bytes.length < headerLength) :
    ofFrame bytes = .error (.incompleteHeader bytes.length) := if_pos short

theorem ofFrame_header (header : Header) (behind : Bytes) :
    ofFrame (header.bytes ++ behind) =
      if header.tooLong then .error (.lengthOutOfRange header.length)
      else if behind.length < header.length.toNat then
        .error (.incompleteBody (headerLength + header.length.toNat) (headerLength + behind.length))
      else (ofBody header (behind.take header.length.toNat)).map
        fun entry => (entry, headerLength + header.length.toNat) := by
  have length : (header.bytes ++ behind).length = headerLength + behind.length := by
    rw [List.length_append, Header.length_bytes]
  have front : (header.bytes ++ behind).take headerLength = header.bytes :=
    List.take_left' header.length_bytes
  have rest : (header.bytes ++ behind).drop headerLength = behind := List.drop_left' header.length_bytes
  rw [ofFrame, if_neg (by omega), front, Header.ofBytes_bytes, rest]
  simp only [length, Nat.add_lt_add_iff_left]
  cases ofBody header (behind.take header.length.toNat) <;> rfl

theorem ofFrame_eq_ok_iff {bytes : Bytes} {entry : Entry} {length : Nat} :
    ofFrame bytes = .ok (entry, length) ↔
      ∃ frame rest, Sealed frame entry ∧ bytes = frame ++ rest ∧ length = frame.length := by
  constructor
  · intro decoded
    -- Every check that refuses ends the decoding, so each of them has been passed.
    by_cases short : bytes.length < headerLength
    · rw [ofFrame_of_short short] at decoded
      cases decoded
    obtain ⟨header, behind, rfl⟩ := Header.exists_front (Nat.not_lt.1 short)
    rw [ofFrame_header] at decoded
    by_cases inRange : header.tooLong
    · rw [if_pos inRange] at decoded
      cases decoded
    by_cases missing : behind.length < header.length.toNat
    · rw [if_neg inRange, if_pos missing] at decoded
      cases decoded
    rw [if_neg inRange, if_neg missing] at decoded
    cases body : ofBody header (behind.take header.length.toNat) with
    | error damage =>
      rw [body] at decoded
      cases decoded
    | ok found =>
      rw [body] at decoded
      cases decoded
      obtain ⟨checksum, read, numbered⟩ := (ofBody_eq_ok_iff _ _ _).1 body
      have size : (behind.take header.length.toNat).length = header.length.toNat :=
        List.length_take_of_le (Nat.not_lt.1 missing)
      have small : header.length.toNat ≤ maxBodyLength := by simpa [Header.tooLong] using inRange
      refine ⟨header.bytes ++ behind.take header.length.toNat, behind.drop header.length.toNat,
        ⟨header, _, ⟨size, small, checksum, read, numbered⟩, rfl⟩, ?_, ?_⟩
      · rw [List.append_assoc, List.take_append_drop]
      · rw [List.length_append, Header.length_bytes, size]
  · rintro ⟨frame, rest, ⟨header, body, seals, rfl⟩, rfl, rfl⟩
    have possible : header.tooLong = false := decide_eq_false (Nat.not_lt.2 seals.inRange)
    have present : ¬ (body ++ rest).length < header.length.toNat := by
      rw [List.length_append, seals.length]
      omega
    have decoded : ofBody header body = .ok entry :=
      (ofBody_eq_ok_iff _ _ _).2 ⟨seals.checksum, seals.decoded, seals.numbered⟩
    rw [List.append_assoc, ofFrame_header, possible, if_neg Bool.false_ne_true, if_neg present,
      List.take_left' seals.length, decoded, List.length_append, Header.length_bytes, seals.length]
    rfl

theorem ofFrame_torn {frame torn : Bytes} {entry : Entry} (isSealed : Sealed frame entry) (part : torn <+: frame)
    (short : torn ≠ frame) : ∃ damage, ofFrame torn = .error damage := by
  cases decoded : ofFrame torn with
  | error damage => exact ⟨damage, rfl⟩
  | ok found =>
    -- A frame at the front of the part would be read from it, but nothing can be.
    obtain ⟨front, rest, inside, rfl, _⟩ := ofFrame_eq_ok_iff.1 decoded
    have fewer : (front ++ rest).length < frame.length :=
      Nat.lt_of_le_of_ne part.length_le fun same => short (part.eq_of_length same)
    have unreadable := isSealed.framed.torn _ fewer
    rw [← List.prefix_iff_eq_take.1 part] at unreadable
    exact absurd unreadable (Frame.not_unreadable ⟨front, found.1, inside⟩ rest)

theorem frame_delimited (entry : Entry) :
    ((∃ error, entry.frame = .error error) ↔ maxBodyLength < entry.body.length) ∧
      ∀ frame, entry.frame = .ok frame →
        (∀ rest, ofFrame (frame ++ rest) = .ok (entry, frame.length)) ∧
        ∀ torn, torn <+: frame → torn ≠ frame →
          ∃ damage, ofFrame torn = .error damage ∧ damage.error = .journalCorruption damage.message := by
  constructor
  · constructor
    · rintro ⟨error, failed⟩
      by_contra fits
      rw [(frame_eq_ok_iff entry _).2 ⟨Nat.not_lt.1 fits, rfl⟩] at failed
      cases failed
    · intro large
      exact ⟨_, if_pos large⟩
  · intro frame written
    obtain ⟨fits, rfl⟩ := (frame_eq_ok_iff entry frame).1 written
    have isSealed := sealed_image fits
    constructor
    · intro rest
      exact ofFrame_eq_ok_iff.2 ⟨_, rest, isSealed, rfl, rfl⟩
    · intro torn part short
      obtain ⟨damage, refused⟩ := ofFrame_torn isSealed part short
      exact ⟨damage, refused, rfl⟩

theorem frame_delimited_mixed :
    let entry : Entry := ⟨18446744073709551615, 7, 0, [.put [97] [], .delete [0, 255]]⟩
    ∃ frame, entry.frame = .ok frame ∧ ofFrame (frame ++ [1]) = .ok (entry, frame.length) ∧
      ∃ damage, ofFrame (frame.take 20) = .error damage ∧ damage.error = .journalCorruption damage.message := by
  intro entry
  have fits : entry.Fits := Nat.le_trans (m := 100) (by decide +kernel) (by decide)
  have written := (frame_eq_ok_iff entry _).2 ⟨fits, rfl⟩
  have long : 20 < entry.image.length := by
    rw [image, List.length_append, Header.length_bytes]
    have body : 4 < entry.body.length := by decide +kernel
    rw [headerLength]
    omega
  obtain ⟨whole, torn⟩ := (frame_delimited entry).2 _ written
  refine ⟨entry.image, written, whole [1], torn _ (List.take_prefix 20 _) fun same => ?_⟩
  have length := congrArg List.length same
  rw [List.length_take] at length
  omega

end Entry

end FsMeta.Journal
