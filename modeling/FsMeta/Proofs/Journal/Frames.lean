import FsMeta.Journal.Cursor
import FsMeta.Proofs.Record.Layout

set_option autoImplicit false

namespace FsMeta.Journal

open Layout

theorem length_le_flatMap {α : Type} {write : α → Bytes} {element : α} {elements : List α}
    (member : element ∈ elements) : (write element).length ≤ (elements.flatMap write).length := by
  rw [List.flatMap_def]
  exact (List.sublist_flatten_of_mem (List.mem_map_of_mem member)).length_le

theorem length_bytes_write (bytes : Bytes) : (Layout.bytes.write bytes).length = 8 + bytes.length := by
  have flat : bytes.flatMap Layout.byte.write = bytes.map fun byte => UInt8.ofNat byte.toNat := by
    induction bytes with
    | nil => rfl
    | cons byte rest ih => simp [Layout.byte, Layout.iso, number, Bytes.littleEndian]
  simp [Layout.bytes, Layout.list, flat, uint64, Layout.iso, number]

namespace Operation

theorem restores {operation : Operation}
    (small : (Operation.layout.write operation).length < UInt64.size) :
    Operation.layout.Restores operation := by
  intro rest
  cases operation with
  | put key value =>
    simp only [layout, List.length_append, length_bytes_write] at small
    have first : Layout.bytes.Restores key := restores_bytes (by omega)
    have second : Layout.bytes.Restores value := restores_bytes (by omega)
    simp only [layout, List.append_assoc, restores_uint32 0 _, bind, Except.bind, if_true]
    simp only [first _, second _]
    rfl
  | delete key =>
    simp only [layout, List.length_append, length_bytes_write] at small
    have first : Layout.bytes.Restores key := restores_bytes (by omega)
    simp only [layout, List.append_assoc, restores_uint32 1 _, bind, Except.bind]
    simp only [first _]
    rfl

theorem length_write_pos (operation : Operation) : 0 < (Operation.layout.write operation).length := by
  cases operation <;> simp only [layout, List.length_append, length_bytes_write] <;> omega

end Operation

namespace Entry

def body (entry : Entry) : Bytes := layout.write entry

def header (entry : Entry) : Header where
  lsn := entry.lsn
  checksum := Crc32.checksum entry.body
  length := UInt32.ofNat entry.body.length

def image (entry : Entry) : Bytes := entry.header.bytes ++ entry.body

def Fits (entry : Entry) : Prop := entry.body.length ≤ maxBodyLength

theorem frame_eq_ok_iff (entry : Entry) (frame : Bytes) :
    entry.frame = .ok frame ↔ entry.Fits ∧ frame = entry.image := by
  rw [Entry.frame, Fits, body]
  split
  · rename_i large
    simp [Nat.not_le.2 large]
  · rename_i small
    simp only [Nat.not_lt.1 small, true_and, Except.ok.injEq]
    exact eq_comm

theorem restores {entry : Entry} (fits : entry.Fits) : Entry.layout.Restores entry := by
  have inside : (entry.operations.flatMap Operation.layout.write).length ≤ entry.body.length := by
    simp only [body, layout, Layout.iso, Layout.pair, Layout.list, List.length_append]
    omega
  have bound : entry.body.length < UInt64.size := Nat.lt_of_le_of_lt fits (by decide)
  have counted : entry.operations.length ≤ (entry.operations.flatMap Operation.layout.write).length := by
    induction entry.operations with
    | nil => simp
    | cons operation rest ih =>
      have positive := operation.length_write_pos
      simp only [List.length_cons, List.flatMap_cons, List.length_append]
      omega
  have operations : (Layout.list Operation.layout).Restores entry.operations := by
    have count : entry.operations.length < UInt64.size :=
      Nat.lt_of_le_of_lt (Nat.le_trans counted inside) bound
    refine restores_list (fun operation member => Operation.restores ?_) count
    have part : (Operation.layout.write operation).length ≤
        (entry.operations.flatMap Operation.layout.write).length := length_le_flatMap member
    exact Nat.lt_of_le_of_lt (Nat.le_trans part inside) bound
  have stamped : (uint64.pair (Layout.list Operation.layout)).Restores
      (entry.timestamp, entry.operations) := (restores_uint64 _).pair operations
  have fields : (uint64.pair (uint64.pair (uint64.pair (Layout.list Operation.layout)))).Restores
      (entry.lsn, entry.commitTime, entry.timestamp, entry.operations) :=
    (restores_uint64 _).pair ((restores_uint64 _).pair stamped)
  rw [Entry.layout]
  refine Restores.iso ?_ rfl
  exact fields

end Entry

namespace Header

@[simp] theorem length_bytes (header : Header) : header.bytes.length = headerLength := by
  simp [bytes, headerLength]

theorem ofBytes_bytes (header : Header) : ofBytes header.bytes = header := by
  have lsn : header.bytes.take 8 = Bytes.bigEndian 8 header.lsn.toNat := by
    simp [bytes]
  have checksum : (header.bytes.drop 8).take 4 = Bytes.bigEndian 4 header.checksum.toNat := by
    simp [bytes]
  have length : (header.bytes.drop 12).take 4 = Bytes.bigEndian 4 header.length.toNat := by
    have front : (Bytes.bigEndian 8 header.lsn.toNat ++
        Bytes.bigEndian 4 header.checksum.toNat).length = 12 := by simp
    rw [bytes, List.drop_left' front, List.take_of_length_le (by simp)]
  rw [ofBytes, lsn, checksum, length, Bytes.ofBigEndian_bigEndian header.lsn.toNat_lt,
    Bytes.ofBigEndian_bigEndian header.checksum.toNat_lt,
    Bytes.ofBigEndian_bigEndian header.length.toNat_lt, UInt64.ofNat_toNat, UInt32.ofNat_toNat,
    UInt32.ofNat_toNat]

theorem bytes_ofBytes {bytes : Bytes} (length : bytes.length = headerLength) :
    (ofBytes bytes).bytes = bytes := by
  rw [headerLength] at length
  have wide (part : Bytes) (width : Nat) (size : part.length = width) :
      Bytes.ofBigEndian part < 256 ^ width := size ▸ Bytes.ofBigEndian_lt part
  have part (piece : Bytes) (width : Nat) (size : piece.length = width) :
      Bytes.bigEndian width (Bytes.ofBigEndian piece) = piece := size ▸ Bytes.bigEndian_ofBigEndian piece
  have first : (bytes.take 8).length = 8 := by simp [length]
  have second : ((bytes.drop 8).take 4).length = 4 := by simp [length]
  have third : ((bytes.drop 12).take 4).length = 4 := by simp [length]
  have last : (bytes.drop 12).take 4 = bytes.drop 12 := List.take_of_length_le (by simp [length])
  rw [Header.bytes, ofBytes, UInt64.toNat_ofNat_of_lt' (wide _ 8 first),
    UInt32.toNat_ofNat_of_lt' (wide _ 4 second), UInt32.toNat_ofNat_of_lt' (wide _ 4 third),
    part _ 8 first, part _ 4 second, part _ 4 third, last, List.append_assoc]
  have tail : (bytes.drop 8).take 4 ++ bytes.drop 12 = bytes.drop 8 := by
    rw [← List.drop_drop (i := 4) (j := 8), List.take_append_drop]
  rw [tail, List.take_append_drop]

structure Seals (header : Header) (body : Bytes) (entry : Entry) : Prop where
  length : body.length = header.length.toNat
  inRange : header.length.toNat ≤ maxBodyLength
  checksum : Crc32.checksum body = header.checksum
  decoded : Entry.layout.read body = .ok entry
  numbered : entry.lsn = header.lsn

end Header

def Sealed (bytes : Bytes) (entry : Entry) : Prop :=
  ∃ (header : Header) (body : Bytes), header.Seals body entry ∧ bytes = header.bytes ++ body

theorem Entry.ofBody_eq_ok_iff (header : Header) (body : Bytes) (entry : Entry) :
    Entry.ofBody header body = .ok entry ↔ Crc32.checksum body = header.checksum ∧
      Entry.layout.read body = .ok entry ∧ entry.lsn = header.lsn := by
  rw [Entry.ofBody]
  by_cases right : Crc32.checksum body = header.checksum
  · cases decoded : Entry.layout.read body with
    | error fault => simp [right]
    | ok found =>
      by_cases numbered : found.lsn = header.lsn
      · simp only [right, numbered, ne_eq, not_true_eq_false, if_false, if_true, Except.ok.injEq,
          true_and]
        exact ⟨fun same => ⟨same, same ▸ numbered⟩, And.left⟩
      · simp only [right, numbered, ne_eq, not_true_eq_false, if_false, Except.ok.injEq, true_and,
          reduceCtorEq, false_iff, not_and]
        rintro rfl same
        exact numbered same
  · simp [right]

namespace Cursor

def ofBytes (bytes : Bytes) (position : Nat) : Cursor := { source := .bytes bytes, position }

theorem next_nil (position : Nat) : (Cursor.ofBytes [] position).next = (.ok none, Cursor.ofBytes [] position) :=
  rfl

theorem next_of_short {bytes : Bytes} (filled : bytes ≠ []) (short : bytes.length < headerLength)
    (position : Nat) :
    (Cursor.ofBytes bytes position).next.1 =
      .error (Damage.tornHeader position bytes.length).error := by
  have all : bytes.take headerLength = bytes := List.take_of_length_le (Nat.le_of_lt short)
  simp only [Cursor.ofBytes, next, Source.read, all, filled, short, if_true, if_false]

theorem nextBody_of_short {bytes : Bytes} {header : Header} (short : bytes.length < header.length.toNat)
    (position : Nat) :
    ((Cursor.ofBytes bytes position).nextBody header).1 =
      .error (Damage.tornBody position bytes.length header.length).error := by
  have all : bytes.take header.length.toNat = bytes := List.take_of_length_le (Nat.le_of_lt short)
  simp only [Cursor.ofBytes, nextBody, Source.read, all, short, if_true]

end Cursor

def Unreadable (bytes : Bytes) : Prop :=
  bytes ≠ [] → ∀ position, ∃ what,
    (Cursor.ofBytes bytes position).next.1 = .error (.journalCorruption what)

structure Framed (bytes : Bytes) (entry : Entry) : Prop where
  whole : ∀ rest position, (Cursor.ofBytes (bytes ++ rest) position).next =
    (.ok (some entry), Cursor.ofBytes rest (position + bytes.length))
  torn : ∀ count < bytes.length, Unreadable (bytes.take count)

namespace Cursor

theorem next_of_long {bytes : Bytes} (enough : headerLength ≤ bytes.length) (position : Nat) :
    (Cursor.ofBytes bytes position).next =
      let header := Header.ofBytes (bytes.take headerLength)
      let passed := Cursor.ofBytes (bytes.drop headerLength) position
      if header.tooLong then (.error (Damage.lengthOutOfRangeAt header.length position).error, passed)
      else passed.nextBody header := by
  have length : (bytes.take headerLength).length = headerLength := by
    rw [List.length_take]
    omega
  have filled : bytes.take headerLength ≠ [] := by
    intro empty
    rw [empty] at length
    cases length
  simp only [Cursor.ofBytes, next, Source.read, filled, length, Nat.lt_irrefl, if_false]

theorem nextBody_of_long {bytes : Bytes} {header : Header} (enough : header.length.toNat ≤ bytes.length)
    (position : Nat) :
    (Cursor.ofBytes bytes position).nextBody header =
      let passed := Cursor.ofBytes (bytes.drop header.length.toNat) position
      match Entry.ofBody header (bytes.take header.length.toNat) with
      | .error damage => (.error damage.error, passed)
      | .ok entry =>
        (.ok (some entry), { passed with position := position + headerLength + header.length.toNat }) := by
  have length : (bytes.take header.length.toNat).length = header.length.toNat := by
    rw [List.length_take]
    omega
  cases decoded : Entry.ofBody header (bytes.take header.length.toNat) with
  | error damage => simp only [Cursor.ofBytes, nextBody, Source.read, length, Nat.lt_irrefl, if_false, decoded]
  | ok entry => simp only [Cursor.ofBytes, nextBody, Source.read, length, Nat.lt_irrefl, if_false, decoded]

-- The header stands whole in front, so it is read as it was written.
theorem next_header {header : Header} (inRange : header.length.toNat ≤ maxBodyLength) (body : Bytes)
    (position : Nat) :
    (Cursor.ofBytes (header.bytes ++ body) position).next =
      (Cursor.ofBytes body position).nextBody header := by
  have length := header.length_bytes
  have head : (header.bytes ++ body).take headerLength = header.bytes := by
    rw [← length, List.take_left]
  have rest : (header.bytes ++ body).drop headerLength = body := by
    rw [← length, List.drop_left]
  have short : header.tooLong = false := decide_eq_false (Nat.not_lt.2 inRange)
  rw [next_of_long (by rw [List.length_append, length]; omega), head, rest, Header.ofBytes_bytes]
  simp [short]

end Cursor

theorem Header.Seals.framed {header : Header} {body : Bytes} {entry : Entry}
    (seals : header.Seals body entry) : Framed (header.bytes ++ body) entry := by
  have decoded : Entry.ofBody header body = .ok entry :=
    (Entry.ofBody_eq_ok_iff _ _ _).2 ⟨seals.checksum, seals.decoded, seals.numbered⟩
  constructor
  · intro rest position
    rw [List.append_assoc, Cursor.next_header seals.inRange, Cursor.nextBody_of_long]
    · simp only [← seals.length, List.take_left, List.drop_left, decoded, List.length_append,
        Header.length_bytes, Nat.add_assoc]
      rfl
    · rw [List.length_append, seals.length]
      omega
  · intro count short filled position
    rw [List.length_append, Header.length_bytes] at short
    by_cases inHeader : count < headerLength
    · have length : ((header.bytes ++ body).take count).length < headerLength := by
        rw [List.length_take]
        omega
      exact ⟨_, Cursor.next_of_short filled length position⟩
    · have split : (header.bytes ++ body).take count =
          header.bytes ++ body.take (count - headerLength) := by
        have front : header.bytes.length ≤ count := by
          rw [Header.length_bytes]
          omega
        rw [List.take_append, List.take_of_length_le front, Header.length_bytes]
      have missing : (body.take (count - headerLength)).length < header.length.toNat := by
        rw [List.length_take, ← seals.length]
        omega
      rw [split, Cursor.next_header seals.inRange]
      exact ⟨_, Cursor.nextBody_of_short missing position⟩

theorem Sealed.framed {bytes : Bytes} {entry : Entry} (isSealed : Sealed bytes entry) :
    Framed bytes entry := by
  obtain ⟨header, body, seals, rfl⟩ := isSealed
  exact seals.framed

theorem exists_sealed_or_unreadable (bytes : Bytes) :
    (∃ frame entry rest, Sealed frame entry ∧ bytes = frame ++ rest) ∨ Unreadable bytes := by
  by_cases short : bytes.length < headerLength
  · exact .inr fun filled position => ⟨_, Cursor.next_of_short filled short position⟩
  have enough : headerLength ≤ bytes.length := Nat.not_lt.1 short
  let header := Header.ofBytes (bytes.take headerLength)
  let behind := bytes.drop headerLength
  let body := behind.take header.length.toNat
  have front : header.bytes = bytes.take headerLength :=
    Header.bytes_ofBytes (by rw [List.length_take]; omega)
  have whole : bytes = header.bytes ++ behind := by
    rw [front, List.take_append_drop]
  -- The reader looks at the length, then at what is there of the body, then at the body itself.
  by_cases inRange : header.length.toNat ≤ maxBodyLength
  · by_cases missing : behind.length < header.length.toNat
    · right
      intro _ position
      rw [whole, Cursor.next_header inRange]
      exact ⟨_, Cursor.nextBody_of_short missing position⟩
    · have present : header.length.toNat ≤ behind.length := Nat.not_lt.1 missing
      cases decoded : Entry.ofBody header body with
      | error damage =>
        right
        intro _ position
        rw [whole, Cursor.next_header inRange, Cursor.nextBody_of_long present]
        simp only [body] at decoded
        simp only [decoded]
        exact ⟨_, rfl⟩
      | ok entry =>
        left
        obtain ⟨checksum, read, numbered⟩ := (Entry.ofBody_eq_ok_iff _ _ _).1 decoded
        have length : body.length = header.length.toNat := by
          rw [List.length_take]
          omega
        refine ⟨header.bytes ++ body, entry, behind.drop header.length.toNat,
          ⟨header, body, ⟨length, inRange, checksum, read, numbered⟩, rfl⟩, ?_⟩
        rw [List.append_assoc, List.take_append_drop]
        exact whole
  · right
    intro _ position
    have long : header.tooLong = true := decide_eq_true (Nat.not_le.1 inRange)
    rw [Cursor.next_of_long enough]
    simp only [header] at long
    simp only [long, if_true]
    exact ⟨_, rfl⟩

namespace Entry

theorem seals {entry : Entry} (fits : entry.Fits) : entry.header.Seals entry.body entry := by
  have bound : entry.body.length < UInt32.size := Nat.lt_of_le_of_lt fits (by decide)
  have length : entry.header.length.toNat = entry.body.length := UInt32.toNat_ofNat_of_lt' bound
  constructor
  · exact length.symm
  · rw [length]
    exact fits
  · rfl
  · exact (restores fits).read
  · rfl

theorem sealed_image {entry : Entry} (fits : entry.Fits) : Sealed entry.image entry :=
  ⟨_, _, seals fits, rfl⟩

theorem framed {entry : Entry} (fits : entry.Fits) : Framed entry.image entry := (sealed_image fits).framed

end Entry

end FsMeta.Journal
