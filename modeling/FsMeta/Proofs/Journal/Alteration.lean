import FsMeta.Proofs.Journal.Checksum
import FsMeta.Proofs.Journal.Decoding

set_option autoImplicit false

namespace FsMeta.Journal

def Damage.Contradicts : Damage → Prop
  | checksum _ stored computed => stored ≠ computed
  | lsnMismatch header body => header ≠ body
  | _ => False

theorem exists_between {front back other rest : Bytes} (whole : front ++ back = other ++ rest)
    (inside : front.length ≤ other.length) : ∃ between, other = front ++ between ∧ back = between ++ rest := by
  obtain ⟨between, rfl⟩ : front <+: other :=
    List.prefix_of_prefix_length_le ⟨back, rfl⟩ (whole ▸ List.prefix_append other rest) inside
  refine ⟨between, rfl, ?_⟩
  rwa [List.append_assoc, List.append_cancel_left_eq] at whole

namespace Entry

theorem ofFrame_header_bytes {header : Header} {body : Bytes} (length : body.length = header.length.toNat)
    (inRange : header.length.toNat ≤ maxBodyLength) :
    ofFrame (header.bytes ++ body) =
      (ofBody header body).map fun entry => (entry, headerLength + header.length.toNat) := by
  have possible : header.tooLong = false := decide_eq_false (Nat.not_lt.2 inRange)
  have present : ¬ body.length < header.length.toNat := Nat.not_lt.2 (Nat.le_of_eq length.symm)
  rw [ofFrame_header, possible, if_neg Bool.false_ne_true, if_neg present,
    List.take_of_length_le (Nat.le_of_eq length)]

theorem ofBody_of_checksum {header : Header} {body : Bytes} (differs : header.checksum ≠ Crc32.checksum body) :
    ∃ damage : Damage, damage.Contradicts ∧ ofBody header body = .error damage := by
  refine ⟨.checksum header.lsn header.checksum (Crc32.checksum body), differs, ?_⟩
  rw [ofBody, if_pos differs.symm]

theorem ofBody_of_other_header {entry : Entry} (fits : entry.Fits) {header : Header}
    (length : header.length = entry.header.length) (other : header ≠ entry.header) :
    ∃ damage : Damage, damage.Contradicts ∧ ofBody header entry.body = .error damage := by
  by_cases same : header.checksum = Crc32.checksum entry.body
  · have differs : header.lsn ≠ entry.lsn := by
      intro numbered
      apply other
      cases header
      simp only at numbered same length
      rw [numbered, same, length]
      rfl
    refine ⟨.lsnMismatch header.lsn entry.lsn, differs, ?_⟩
    have read : layout.read entry.body = .ok entry := (restores fits).read
    simp only [ofBody, same, read, ne_eq, not_true_eq_false, if_false, if_neg differs.symm]
  · exact ofBody_of_checksum same

theorem ofFrame_altered_header {entry : Entry} (fits : entry.Fits) {before old new after : Bytes}
    (written : entry.header.bytes = before ++ old ++ after) (length : new.length = old.length)
    (altered : new ≠ old) (place : before.length + old.length ≤ 12) :
    ∃ damage : Damage, damage.Contradicts ∧
      ofFrame (before ++ new ++ after ++ entry.body) = .error damage := by
  have stands : (before ++ new ++ after).length = headerLength := by
    rw [← entry.header.length_bytes, written]
    simp [length]
  let header := Header.ofBytes (before ++ new ++ after)
  have bytes : header.bytes = before ++ new ++ after := Header.bytes_ofBytes stands
  -- The length stands behind the change.
  have sized : header.length = entry.header.length := by
    have behind (word : Bytes) (same : word.length = old.length) :
        (before ++ word ++ after).drop 12 = after.drop (12 - (before.length + old.length)) := by
      have front : (before ++ word).length = before.length + old.length := by
        rw [List.length_append, same]
      rw [List.drop_append, List.drop_eq_nil_of_le (by omega), List.nil_append, front]
    have kept : (before ++ new ++ after).drop 12 = entry.header.bytes.drop 12 := by
      rw [written, behind new length, behind old rfl]
    calc header.length
        = (Header.ofBytes entry.header.bytes).length := by
          simp only [header, Header.ofBytes, kept]
      _ = entry.header.length := by rw [Header.ofBytes_bytes]
  have other : header ≠ entry.header := by
    intro same
    rw [← same, bytes] at written
    exact altered (by simpa using written)
  have seals := entry.seals fits
  obtain ⟨damage, contradicts, refused⟩ := ofBody_of_other_header fits sized other
  refine ⟨damage, contradicts, ?_⟩
  rw [← bytes, ofFrame_header_bytes (sized ▸ seals.length) (sized ▸ seals.inRange), refused]
  rfl

theorem ofFrame_altered_body {entry : Entry} (fits : entry.Fits) {before old new after : Bytes}
    (written : entry.body = before ++ old ++ after) (short : old.length ≤ 4)
    (length : new.length = old.length) (altered : new ≠ old) :
    ∃ damage : Damage, damage.Contradicts ∧
      ofFrame (entry.header.bytes ++ (before ++ new ++ after)) = .error damage := by
  have seals := entry.seals fits
  have differs : entry.header.checksum ≠ Crc32.checksum (before ++ new ++ after) := by
    rw [← seals.checksum, written]
    exact (Crc32.checksum_ne short length altered).symm
  have sized : (before ++ new ++ after).length = entry.header.length.toNat := by
    rw [← seals.length, written]
    simp [length]
  obtain ⟨damage, contradicts, refused⟩ := ofBody_of_checksum differs
  refine ⟨damage, contradicts, ?_⟩
  rw [ofFrame_header_bytes sized seals.inRange, refused]
  rfl

theorem ofFrame_altered {entry : Entry} {before old new after : Bytes}
    (written : entry.frame = .ok (before ++ old ++ after)) (short : old.length ≤ 4)
    (length : new.length = old.length) (altered : new ≠ old)
    (place : before.length + old.length ≤ 12 ∨ headerLength ≤ before.length) :
    ∃ damage : Damage, damage.Contradicts ∧
      ofFrame (before ++ new ++ after) = .error damage ∧
      damage.error = .journalCorruption damage.message := by
  obtain ⟨fits, whole⟩ := (frame_eq_ok_iff _ _).1 written
  have long : entry.header.bytes.length = 16 := entry.header.length_bytes
  rcases place with inHeader | inBody
  · have inside : (before ++ old).length ≤ entry.header.bytes.length := by
      rw [List.length_append]
      omega
    obtain ⟨rest, front, rfl⟩ := exists_between whole inside
    obtain ⟨damage, contradicts, refused⟩ := ofFrame_altered_header fits front length altered inHeader
    refine ⟨damage, contradicts, ?_, rfl⟩
    rw [← List.append_assoc]
    exact refused
  · rw [List.append_assoc] at whole
    obtain ⟨front, rfl, body⟩ := exists_between whole.symm (long ▸ inBody)
    rw [← List.append_assoc] at body
    obtain ⟨damage, contradicts, refused⟩ := ofFrame_altered_body fits body short length altered
    refine ⟨damage, contradicts, ?_, rfl⟩
    simpa using refused

-- A commit time of seven that is read as one of five.
theorem ofFrame_altered_commit_time :
    ∃ damage : Damage, damage.Contradicts ∧
      ofFrame ([0, 0, 0, 0, 0, 0, 0, 1, 0xd9, 0xc8, 0x67, 0x70, 0, 0, 0, 32, 1, 0, 0, 0, 0, 0, 0, 0] ++ [5, 0] ++
        List.replicate 22 0) = .error damage ∧
      damage.error = .journalCorruption damage.message := by
  let entry : Entry := { lsn := 1, commitTime := 7, timestamp := 0, operations := [] }
  have fits : entry.Fits := Nat.le_trans (m := 100) (by decide +kernel) (by decide)
  have written := (frame_eq_ok_iff entry _).2 ⟨fits, rfl⟩
  have image : entry.image = [0, 0, 0, 0, 0, 0, 0, 1, 0xd9, 0xc8, 0x67, 0x70, 0, 0, 0, 32, 1, 0, 0, 0, 0, 0, 0, 0]
      ++ [7, 0] ++ List.replicate 22 0 := by decide +kernel
  rw [image] at written
  exact ofFrame_altered written (by decide) (by decide) (by decide) (by decide)

end Entry

end FsMeta.Journal
