import FsMeta.Text.Utf8

set_option autoImplicit false

namespace FsMeta.Utf8

theorem continues_ofNat {n : Nat} (least : 0x80 ≤ n) (most : n ≤ 0xbf) :
    continues (UInt8.ofNat n) = true := by
  simp only [continues, Bool.and_eq_true, decide_eq_true_eq, UInt8.le_iff_toNat_le,
    UInt8.toNat_ofNat', UInt8.reduceToNat]
  omega

/-- The second byte is not in the ranges of overlong forms, of surrogates and beyond U+10FFFF. -/
theorem follows_ofNat {lead n : Nat} (bound : lead < 256) (least : 0x80 ≤ n) (most : n ≤ 0xbf)
    (first : lead = 0xe0 → 0xa0 ≤ n) (second : lead = 0xed → n ≤ 0x9f)
    (third : lead = 0xf0 → 0x90 ≤ n) (fourth : lead = 0xf4 → n ≤ 0x8f) :
    follows (UInt8.ofNat lead) (UInt8.ofNat n) = true := by
  have small : n % 256 = n := Nat.mod_eq_of_lt (by omega)
  have whole : lead % 256 = lead := Nat.mod_eq_of_lt bound
  simp only [follows, continues, ← UInt8.toNat_inj, UInt8.le_iff_toNat_le, UInt8.toNat_ofNat',
    UInt8.reduceToNat, small, whole]
  repeat' split
  all_goals
    simp only [Bool.and_eq_true, decide_eq_true_eq]
    omega

theorem width_ofNat {n : Nat} (bound : n < 256) : width (UInt8.ofNat n) =
    if n < 0x80 then 1 else if 0xc2 ≤ n ∧ n ≤ 0xdf then 2 else if 0xe0 ≤ n ∧ n ≤ 0xef then 3
    else if 0xf0 ≤ n ∧ n ≤ 0xf4 then 4 else 0 := by
  have whole : n % 256 = n := Nat.mod_eq_of_lt bound
  simp only [width, Bool.and_eq_true, decide_eq_true_eq, UInt8.le_iff_toNat_le, UInt8.lt_iff_toNat_lt,
    UInt8.toNat_ofNat', UInt8.reduceToNat, whole]

theorem low_ofNat {n : Nat} (bound : n < 64) : low (UInt8.ofNat (n + 0x80)) = n := by
  simp only [low, UInt8.toNat_ofNat']
  omega

section

variable {a b c d : UInt8} (rest : Bytes)

theorem pieces_one (lead : width a = 1) :
    pieces (a :: rest) = .char (Char.ofNat a.toNat) :: pieces rest := by
  rw [pieces.eq_def]
  simp only [lead]

theorem pieces_two (lead : width a = 2) (second : continues b = true) :
    pieces (a :: b :: rest) =
      .char (Char.ofNat (a.toNat % 32 * 64 + low b)) :: pieces rest := by
  rw [pieces.eq_def]
  simp only [lead, second, if_true]

theorem pieces_three (lead : width a = 3) (second : follows a b = true)
    (third : continues c = true) :
    pieces (a :: b :: c :: rest) =
      .char (Char.ofNat (a.toNat % 16 * 4096 + low b * 64 + low c)) :: pieces rest := by
  rw [pieces.eq_def]
  simp only [lead, second, third, if_true]

theorem pieces_four (lead : width a = 4) (second : follows a b = true)
    (third : continues c = true) (fourth : continues d = true) :
    pieces (a :: b :: c :: d :: rest) =
      .char (Char.ofNat (a.toNat % 8 * 262144 + low b * 4096 + low c * 64 + low d))
        :: pieces rest := by
  rw [pieces.eq_def]
  simp only [lead, second, third, fourth, if_true]

end

theorem pieces_encodeChar (char : Char) (rest : Bytes) :
    pieces (String.utf8EncodeChar char ++ rest) = .char char :: pieces rest := by
  have valid : char.toNat < 0xd800 ∨ 0xdfff < char.toNat ∧ char.toNat < 0x110000 := char.valid
  have decoded {n : Nat} (same : n = char.toNat) : Char.ofNat n = char := by
    rw [same, Char.ofNat_toNat]
  have value : char.val.toNat = char.toNat := rfl
  simp only [String.utf8EncodeChar, value]
  generalize char.toNat = v at valid decoded
  have number {n : Nat} (bound : n < 256) : (UInt8.ofNat n).toNat = n :=
    UInt8.toNat_ofNat_of_lt' bound
  have tail (n : Nat) : continues (UInt8.ofNat (n % 64 + 0x80)) = true :=
    continues_ofNat (by omega) (by omega)
  have bits (n : Nat) : low (UInt8.ofNat (n % 64 + 0x80)) = n % 64 :=
    low_ofNat (Nat.mod_lt _ (by decide))
  -- One case per length of the encoding; in each the bits that were spread out are put together again.
  by_cases one : v ≤ 0x7f
  · have lead : width (UInt8.ofNat v) = 1 := by
      rw [width_ofNat (by omega), if_pos (by omega)]
    rw [if_pos one, List.singleton_append, pieces_one rest lead, number (by omega), decoded rfl]
  rw [if_neg one]
  by_cases two : v ≤ 0x7ff
  · have lead : width (UInt8.ofNat (v / 64 % 32 + 0xc0)) = 2 := by
      rw [width_ofNat (by omega), if_neg (by omega), if_pos (by omega)]
    rw [if_pos two]
    refine (pieces_two rest lead (tail v)).trans ?_
    rw [number (by omega), bits, decoded (by omega)]
  rw [if_neg two]
  by_cases three : v ≤ 0xffff
  · have lead : width (UInt8.ofNat (v / 4096 % 16 + 0xe0)) = 3 := by
      rw [width_ofNat (by omega), if_neg (by omega), if_neg (by omega), if_pos (by omega)]
    have second : follows (UInt8.ofNat (v / 4096 % 16 + 0xe0)) (UInt8.ofNat (v / 64 % 64 + 0x80)) =
        true := by
      apply follows_ofNat <;> omega
    rw [if_pos three]
    refine (pieces_three rest lead second (tail v)).trans ?_
    rw [number (by omega), bits, bits, decoded (by omega)]
  · have lead : width (UInt8.ofNat (v / 262144 % 8 + 0xf0)) = 4 := by
      rw [width_ofNat (by omega), if_neg (by omega), if_neg (by omega), if_neg (by omega),
        if_pos (by omega)]
    have second : follows (UInt8.ofNat (v / 262144 % 8 + 0xf0)) (UInt8.ofNat (v / 4096 % 64 + 0x80)) =
        true := by
      apply follows_ofNat <;> omega
    rw [if_neg three]
    refine (pieces_four rest lead second (tail (v / 64)) (tail v)).trans ?_
    rw [number (by omega), bits, bits, bits, decoded (by omega)]

theorem pieces_encode (chars : List Char) :
    pieces (chars.flatMap String.utf8EncodeChar) = chars.map .char := by
  induction chars with
  | nil => rfl
  | cons char rest ih => rw [List.flatMap_cons, pieces_encodeChar, ih, List.map_cons]

theorem charsFrom_map_char (index : Nat) (chars : List Char) :
    charsFrom index (chars.map .char) = .ok chars := by
  induction chars generalizing index with
  | nil => rfl
  | cons char rest ih =>
    rw [List.map_cons, charsFrom, ih]
    rfl

theorem decode_encode (text : String) : decode (encode text) = .ok text := by
  rw [decode, encode, pieces_encode, charsFrom_map_char]
  simp [Functor.map, Except.map]

theorem encode_injective {a b : String} (same : encode a = encode b) : a = b := by
  have decoded := decode_encode a
  rw [same, decode_encode] at decoded
  cases decoded
  rfl

theorem encodeChar_ofNat {n : Nat} (valid : n.isValidChar) :
    String.utf8EncodeChar (Char.ofNat n) =
      if n ≤ 0x7f then [.ofNat n]
      else if n ≤ 0x7ff then [.ofNat (n / 64 % 32 + 0xc0), .ofNat (n % 64 + 0x80)]
      else if n ≤ 0xffff then
        [.ofNat (n / 4096 % 16 + 0xe0), .ofNat (n / 64 % 64 + 0x80), .ofNat (n % 64 + 0x80)]
      else [.ofNat (n / 262144 % 8 + 0xf0), .ofNat (n / 4096 % 64 + 0x80),
        .ofNat (n / 64 % 64 + 0x80), .ofNat (n % 64 + 0x80)] := by
  have value : (Char.ofNat n).val.toNat = n := by
    rw [Char.ofNat, dif_pos valid]
    rfl
  simp only [String.utf8EncodeChar, value]

theorem low_lt (byte : UInt8) : low byte < 64 := Nat.mod_lt _ (by decide)

theorem toNat_of_continues {byte : UInt8} (tail : continues byte = true) :
    byte.toNat = low byte + 0x80 := by
  simp only [continues, Bool.and_eq_true, decide_eq_true_eq, UInt8.le_iff_toNat_le, UInt8.reduceToNat] at tail
  rw [low]
  omega

theorem toNat_of_follows {lead byte : UInt8} (second : follows lead byte = true) :
    byte.toNat = low byte + 0x80 ∧ (lead.toNat = 0xe0 → 0x20 ≤ low byte) ∧
      (lead.toNat = 0xed → low byte < 0x20) ∧ (lead.toNat = 0xf0 → 0x10 ≤ low byte) ∧
      (lead.toNat = 0xf4 → low byte < 0x10) := by
  simp only [follows, continues, ← UInt8.toNat_inj, UInt8.reduceToNat] at second
  simp only [low]
  repeat' split at second
  all_goals
    simp only [Bool.and_eq_true, decide_eq_true_eq, UInt8.le_iff_toNat_le, UInt8.reduceToNat] at second
    omega

theorem width_eq (byte : UInt8) : width byte =
    if byte.toNat < 0x80 then 1 else if 0xc2 ≤ byte.toNat ∧ byte.toNat ≤ 0xdf then 2
    else if 0xe0 ≤ byte.toNat ∧ byte.toNat ≤ 0xef then 3
    else if 0xf0 ≤ byte.toNat ∧ byte.toNat ≤ 0xf4 then 4 else 0 := by
  have same := width_ofNat byte.toNat_lt
  rwa [UInt8.ofNat_toNat] at same

theorem ofNat_eq (byte : UInt8) {n : Nat} (same : n = byte.toNat) : UInt8.ofNat n = byte := by
  rw [same, UInt8.ofNat_toNat]

section

variable {a b c d : UInt8}

theorem encodeChar_one (lead : width a = 1) :
    String.utf8EncodeChar (Char.ofNat a.toNat) = [a] := by
  have bound : a.toNat < 0x80 := by
    rw [width_eq] at lead
    grind
  rw [encodeChar_ofNat (.inl (by omega)), if_pos (by omega), UInt8.ofNat_toNat]

theorem encodeChar_two (lead : width a = 2) (second : continues b = true) :
    String.utf8EncodeChar (Char.ofNat (a.toNat % 32 * 64 + low b)) = [a, b] := by
  have bounds : 0xc2 ≤ a.toNat ∧ a.toNat ≤ 0xdf := by
    rw [width_eq] at lead
    grind
  have tail := toNat_of_continues second
  have small := low_lt b
  rw [encodeChar_ofNat (.inl (by omega)), if_neg (by omega), if_pos (by omega),
    ofNat_eq a (by omega), ofNat_eq b (by omega)]

theorem encodeChar_three (lead : width a = 3) (second : follows a b = true) (third : continues c = true) :
    String.utf8EncodeChar (Char.ofNat (a.toNat % 16 * 4096 + low b * 64 + low c)) = [a, b, c] := by
  have bounds : 0xe0 ≤ a.toNat ∧ a.toNat ≤ 0xef := by
    rw [width_eq] at lead
    grind
  obtain ⟨middle, least, most, _, _⟩ := toNat_of_follows second
  have tail := toNat_of_continues third
  have small := low_lt b
  have less := low_lt c
  have valid : (a.toNat % 16 * 4096 + low b * 64 + low c).isValidChar := by
    rw [Nat.isValidChar]
    omega
  rw [encodeChar_ofNat valid, if_neg (by omega), if_neg (by omega), if_pos (by omega),
    ofNat_eq a (by omega), ofNat_eq b (by omega), ofNat_eq c (by omega)]

theorem encodeChar_four (lead : width a = 4) (second : follows a b = true) (third : continues c = true)
    (fourth : continues d = true) :
    String.utf8EncodeChar (Char.ofNat (a.toNat % 8 * 262144 + low b * 4096 + low c * 64 + low d)) =
      [a, b, c, d] := by
  have bounds : 0xf0 ≤ a.toNat ∧ a.toNat ≤ 0xf4 := by
    rw [width_eq] at lead
    grind
  obtain ⟨middle, _, _, least, most⟩ := toNat_of_follows second
  have tail := toNat_of_continues third
  have last := toNat_of_continues fourth
  have small := low_lt b
  have less := low_lt c
  have final := low_lt d
  have valid : (a.toNat % 8 * 262144 + low b * 4096 + low c * 64 + low d).isValidChar := by
    rw [Nat.isValidChar]
    omega
  rw [encodeChar_ofNat valid, if_neg (by omega), if_neg (by omega), if_neg (by omega),
    ofNat_eq a (by omega), ofNat_eq b (by omega), ofNat_eq c (by omega),
    ofNat_eq d (by omega)]

end

theorem charsFrom_cons_ok {index : Nat} {char : Char} {rest : List Piece} {chars : List Char}
    (read : charsFrom index (.char char :: rest) = .ok chars) :
    ∃ others, charsFrom (index + char.utf8Size) rest = .ok others ∧ chars = char :: others := by
  rw [charsFrom] at read
  cases tail : charsFrom (index + char.utf8Size) rest with
  | error fault =>
    rw [tail] at read
    cases read
  | ok others =>
    rw [tail] at read
    cases read
    exact ⟨others, rfl, rfl⟩

theorem encode_chars {bytes : Bytes} {index : Nat} {chars : List Char}
    (read : charsFrom index (pieces bytes) = .ok chars) : chars.flatMap String.utf8EncodeChar = bytes := by
  fun_induction pieces bytes generalizing index chars
  case case1 =>
    cases read
    rfl
  case case2 a rest one ih =>
    obtain ⟨others, later, rfl⟩ := charsFrom_cons_ok read
    rw [List.flatMap_cons, encodeChar_one one, ih later]
    rfl
  case case4 a two b rest second ih =>
    obtain ⟨others, later, rfl⟩ := charsFrom_cons_ok read
    rw [List.flatMap_cons, encodeChar_two two second, ih later]
    rfl
  case case8 a three b second c rest third ih =>
    obtain ⟨others, later, rfl⟩ := charsFrom_cons_ok read
    rw [List.flatMap_cons, encodeChar_three three second third, ih later]
    rfl
  case case14 a four b second c third d rest fourth ih =>
    obtain ⟨others, later, rfl⟩ := charsFrom_cons_ok read
    rw [List.flatMap_cons, encodeChar_four four second third fourth, ih later]
    rfl
  all_goals cases read

theorem encode_of_decode {bytes : Bytes} {text : String} (decoded : decode bytes = .ok text) :
    encode text = bytes := by
  rw [decode] at decoded
  cases read : charsFrom 0 (pieces bytes) with
  | error fault =>
    rw [read] at decoded
    cases decoded
  | ok chars =>
    rw [read] at decoded
    cases decoded
    rw [encode, String.toList_ofList]
    exact encode_chars read

theorem decode?_eq_some_iff {bytes : Bytes} {text : String} : decode? bytes = some text ↔ bytes = encode text := by
  constructor
  · intro read
    cases decoded : decode bytes with
    | error fault => simp [decode?, decoded, Except.toOption] at read
    | ok found =>
      simp only [decode?, decoded, Except.toOption, Option.some.injEq] at read
      rw [← read, encode_of_decode decoded]
  · rintro rfl
    rw [decode?, decode_encode]
    rfl

end FsMeta.Utf8
