import FsMeta.Json.Lexer
import FsMeta.Json.Printer
import FsMeta.Proofs.Text.Utf8
import Mathlib.Data.List.TakeDrop
import Mathlib.Data.Option.Basic

set_option autoImplicit false

namespace FsMeta.Json

def spelledBytes (chars : List Char) : Bytes := chars.flatMap String.utf8EncodeChar

@[simp] theorem spelledBytes_nil : spelledBytes [] = [] := rfl

@[simp] theorem spelledBytes_cons (c : Char) (rest : List Char) :
    spelledBytes (c :: rest) = String.utf8EncodeChar c ++ spelledBytes rest := rfl

@[simp] theorem spelledBytes_append (front back : List Char) :
    spelledBytes (front ++ back) = spelledBytes front ++ spelledBytes back := List.flatMap_append

def Bare (byte : UInt8) : Prop := 0x20 ≤ byte ∧ byte ≠ 0x22 ∧ byte ≠ 0x5c

theorem literal_bare {byte : UInt8} (isBare : Bare byte) (rest : Bytes) :
    literal (byte :: rest) = (literal rest).map fun found => (.byte byte :: found.1, found.2) := by
  obtain ⟨visible, quote, escape⟩ := isBare
  have allowed : (0x20 ≤ byte && byte != 0x5c) = true := by simp [visible, escape]
  rw [literal.eq_5 byte rest quote (fun _ _ _ _ _ same _ => escape same) fun _ _ same _ => escape same, allowed]
  cases literal rest <;> rfl

theorem literal_bares {bytes : Bytes} (bares : ∀ byte ∈ bytes, Bare byte) (rest : Bytes) :
    literal (bytes ++ rest) = (literal rest).map fun found => (bytes.map .byte ++ found.1, found.2) := by
  induction bytes with
  | nil => simp
  | cons byte bytes ih =>
    obtain ⟨first, others⟩ := List.forall_mem_cons.1 bares
    rw [List.cons_append, literal_bare first, ih others, Option.map_map]
    rfl

theorem atomBytes_map_byte (bytes : Bytes) (others : List Atom) :
    atomBytes (bytes.map .byte ++ others) = (bytes ++ ·) <$> atomBytes others := by
  induction bytes with
  | nil => simp
  | cons byte bytes ih =>
    rw [List.map_cons, List.cons_append, atomBytes, ih]
    cases atomBytes others <;> rfl

-- A code unit below the surrogates stands for itself, whatever comes next.
theorem atomBytes_unit {unit : Nat} (low : unit < 0xd800) (others : List Atom) :
    atomBytes (.unit unit :: others) = (encodePoint unit ++ ·) <$> atomBytes others := by
  have notLead : isLead unit = false := by simp [isLead]; omega
  have notTrail : isTrail unit = false := by simp [isTrail]; omega
  rcases others with _ | ⟨_ | _, _⟩ <;> simp [atomBytes, notLead, notTrail]

theorem bare_of_high {n : Nat} (high : 0x80 ≤ n) (bound : n < 256) : Bare (UInt8.ofNat n) := by
  have value : (UInt8.ofNat n).toNat = n := UInt8.toNat_ofNat_of_lt' bound
  simp only [Bare, UInt8.le_iff_toNat_le, ne_eq, ← UInt8.toNat_inj, value, UInt8.reduceToNat]
  omega

theorem utf8EncodeChar_ascii {c : Char} (ascii : c.toNat < 0x80) :
    String.utf8EncodeChar c = [UInt8.ofNat c.toNat] := if_pos (Nat.le_of_lt_succ ascii)

theorem bare_encodeChar {c : Char} (visible : ¬ c.toNat < 0x20) (quote : c ≠ '"') (escape : c ≠ '\\') :
    ∀ byte ∈ String.utf8EncodeChar c, Bare byte := by
  by_cases ascii : c.toNat < 0x80
  · have value : (UInt8.ofNat c.toNat).toNat = c.toNat :=
      UInt8.toNat_ofNat_of_lt' (Nat.lt_trans ascii (by decide))
    have notQuote : c.toNat ≠ 0x22 := fun same => quote (Char.toNat_inj.1 same)
    have notEscape : c.toNat ≠ 0x5c := fun same => escape (Char.toNat_inj.1 same)
    rw [utf8EncodeChar_ascii ascii, List.forall_mem_singleton]
    simp only [Bare, UInt8.le_iff_toNat_le, ne_eq, ← UInt8.toNat_inj, value, UInt8.reduceToNat]
    omega
  · have valid : c.toNat < 0x110000 := by
      rcases c.valid with small | large
      · exact Nat.lt_trans small (by decide)
      · exact large.2
    have value : c.val.toNat = c.toNat := rfl
    have single : ¬ c.toNat ≤ 0x7f := by omega
    intro byte among
    rw [String.utf8EncodeChar, value, if_neg single] at among
    repeat' split at among
    all_goals simp only [List.mem_cons, List.not_mem_nil, or_false] at among
    · rcases among with rfl | rfl <;> apply bare_of_high <;> omega
    · rcases among with rfl | rfl | rfl <;> apply bare_of_high <;> omega
    · rcases among with rfl | rfl | rfl | rfl <;> apply bare_of_high <;> omega

theorem literal_letter {letter value : UInt8} (known : letterEscape? letter = some value)
    (notUnit : letter ≠ 0x75) (rest : Bytes) :
    literal (0x5c :: letter :: rest) = (literal rest).map fun found => (.byte value :: found.1, found.2) := by
  rw [literal.eq_4 letter rest fun _ _ _ _ _ same _ => notUnit same, known]
  cases literal rest <;> rfl

theorem codeUnit?_control {n : Nat} (control : n < 0x20) :
    spelledBytes (shownControl n) = [0x5c, 0x75, 0x30, 0x30, UInt8.ofNat (Nat.digitChar (n / 16)).toNat,
        UInt8.ofNat (Nat.digitChar (n % 16)).toNat] ∧
      codeUnit? 0x30 0x30 (UInt8.ofNat (Nat.digitChar (n / 16)).toNat)
        (UInt8.ofNat (Nat.digitChar (n % 16)).toNat) = some n := by
  revert n
  decide +kernel

theorem literal_control {n : Nat} (control : n < 0x20) (rest : Bytes) :
    literal (spelledBytes (shownControl n) ++ rest) =
      (literal rest).map fun found => (.unit n :: found.1, found.2) := by
  obtain ⟨spelled, unit⟩ := codeUnit?_control control
  rw [spelled]
  simp only [List.cons_append, List.nil_append]
  rw [literal.eq_3, unit]
  cases literal rest <;> rfl

structure Shows (c : Char) (atoms : List Atom) : Prop where
  read : ∀ rest, literal (spelledBytes (shown c) ++ rest) =
    (literal rest).map fun found => (atoms ++ found.1, found.2)
  encoded : ∀ others, atomBytes (atoms ++ others) = (String.utf8EncodeChar c ++ ·) <$> atomBytes others

theorem shows_letter {c : Char} {value letter : UInt8} (spelled : spelledBytes (shown c) = [0x5c, letter])
    (known : letterEscape? letter = some value) (notUnit : letter ≠ 0x75)
    (encoded : String.utf8EncodeChar c = [value]) : Shows c [.byte value] where
  read rest := by
    rw [spelled]
    exact literal_letter known notUnit rest
  encoded others := by
    rw [encoded]
    exact atomBytes_map_byte [value] others

theorem shows_control {c : Char} (spelled : shown c = shownControl c.toNat) (control : c.toNat < 0x20) :
    Shows c [.unit c.toNat] where
  read rest := by
    rw [spelled]
    exact literal_control control rest
  encoded others := by
    have unit := atomBytes_unit (Nat.lt_trans control (by decide)) others
    rwa [encodePoint, Char.ofNat_toNat] at unit

theorem shows_bare {c : Char} (spelled : shown c = [c])
    (bares : ∀ byte ∈ String.utf8EncodeChar c, Bare byte) : Shows c ((String.utf8EncodeChar c).map .byte) where
  read rest := by
    rw [spelled, spelledBytes_cons, spelledBytes_nil, List.append_nil]
    exact literal_bares bares rest
  encoded others := atomBytes_map_byte _ others

def lettered : List Char := ['"', '\\', '\n', '\r', '\t', '\x08', '\x0c']

theorem shown_of_not_lettered {c : Char} (other : c ∉ lettered) :
    shown c = if c.toNat < 0x20 then shownControl c.toNat else [c] := by
  rw [shown.eq_def]
  split
  case h_8 => rfl
  all_goals exact absurd (by decide) other

theorem exists_shows (c : Char) : ∃ atoms, Shows c atoms := by
  by_cases letter : c ∈ lettered
  · simp only [lettered, List.mem_cons, List.not_mem_nil, or_false] at letter
    rcases letter with rfl | rfl | rfl | rfl | rfl | rfl | rfl <;>
      exact ⟨_, shows_letter rfl rfl (by decide) rfl⟩
  have spelled := shown_of_not_lettered letter
  by_cases control : c.toNat < 0x20
  · rw [if_pos control] at spelled
    exact ⟨_, shows_control spelled control⟩
  · rw [if_neg control] at spelled
    have quote : c ≠ '"' := fun same => letter (same ▸ by decide)
    have escape : c ≠ '\\' := fun same => letter (same ▸ by decide)
    exact ⟨_, shows_bare spelled (bare_encodeChar control quote escape)⟩

theorem exists_atoms (chars : List Char) :
    ∃ atoms, atomBytes atoms = some (spelledBytes chars) ∧
      ∀ rest, literal (spelledBytes (chars.flatMap shown) ++ 0x22 :: rest) = some (atoms, rest) := by
  induction chars with
  | nil => exact ⟨[], rfl, fun rest => rfl⟩
  | cons c chars ih =>
    obtain ⟨first, shows⟩ := exists_shows c
    obtain ⟨others, encoded, read⟩ := ih
    refine ⟨first ++ others, ?_, fun rest => ?_⟩
    · rw [shows.encoded, encoded]
      rfl
    · rw [List.flatMap_cons, spelledBytes_append, List.append_assoc, shows.read, read]
      rfl

theorem token?_quote (rest : Bytes) :
    token? (0x22 :: rest) = (literal rest).map fun found => (.text (content found.1), found.2) := rfl

theorem token?_quoted (s : String) (rest : Bytes) :
    token? (spelledBytes (quoted s) ++ rest) = some (.text (some s), rest) := by
  obtain ⟨atoms, encoded, read⟩ := exists_atoms s.toList
  have spelled : spelledBytes (quoted s) ++ rest =
      0x22 :: (spelledBytes (s.toList.flatMap shown) ++ 0x22 :: rest) := by
    rw [quoted, List.cons_append, spelledBytes_cons, spelledBytes_append, List.append_assoc, List.append_assoc]
    rfl
  have whole : content atoms = some s := by
    rw [content, encoded]
    change (Utf8.decode (Utf8.encode s)).toOption = some s
    rw [Utf8.decode_encode]
    rfl
  rw [spelled, token?_quote, read, Option.map_some, whole]

def Ends (rest : Bytes) : Prop :=
  ∀ byte ∈ rest.head?, isDigit byte = false ∧ byte ≠ 0x2e ∧ byte ≠ 0x65 ∧ byte ≠ 0x45

section

variable {rest : Bytes}

theorem Ends.no_digit (ends : Ends rest) : (rest.head?.map isDigit).getD false = false := by
  rcases rest with _ | ⟨byte, rest⟩
  · rfl
  · exact (ends byte rfl).1

theorem Ends.takeWhile (ends : Ends rest) : rest.takeWhile isDigit = [] := by
  rcases rest with _ | ⟨byte, rest⟩
  · rfl
  · rw [List.takeWhile_cons, (ends byte rfl).1]
    rfl

theorem Ends.dropWhile (ends : Ends rest) : rest.dropWhile isDigit = rest := by
  rcases rest with _ | ⟨byte, rest⟩
  · rfl
  · rw [List.dropWhile_cons, (ends byte rfl).1]
    rfl

theorem Ends.fraction? (ends : Ends rest) : fraction? rest = some ([], rest) := by
  rcases rest with _ | ⟨byte, rest⟩
  · rfl
  · exact Json.fraction?.eq_2 _ fun _ same => (ends byte rfl).2.1 (List.cons.inj same).1

theorem Ends.exponent? (ends : Ends rest) : exponent? rest = some (none, rest) := by
  rcases rest with _ | ⟨byte, rest⟩
  · rfl
  · exact if_neg (not_or.2 (ends byte rfl).2.2)

def digitByte (c : Char) : UInt8 := UInt8.ofNat c.toNat

theorem isDigit_digitByte {c : Char} (digit : c.isDigit = true) :
    isDigit (digitByte c) = true ∧ String.utf8EncodeChar c = [digitByte c] ∧ Char.ofNat (digitByte c).toNat = c := by
  obtain ⟨least, most⟩ : 48 ≤ c.toNat ∧ c.toNat ≤ 57 := by
    simpa [Char.isDigit, UInt32.le_iff_toNat_le] using digit
  have value : (digitByte c).toNat = c.toNat := UInt8.toNat_ofNat_of_lt' (Nat.lt_of_le_of_lt most (by decide))
  refine ⟨?_, utf8EncodeChar_ascii (by omega), ?_⟩
  · simp only [isDigit, Bool.and_eq_true, decide_eq_true_eq, UInt8.le_iff_toNat_le, value, UInt8.reduceToNat]
    omega
  · rw [value, Char.ofNat_toNat]

theorem spelledBytes_digits {digits : List Char} (all : ∀ c ∈ digits, c.isDigit = true) :
    spelledBytes digits = digits.map digitByte := by
  induction digits with
  | nil => rfl
  | cons c digits ih =>
    obtain ⟨first, others⟩ := List.forall_mem_cons.1 all
    rw [spelledBytes_cons, (isDigit_digitByte first).2.1, ih others]
    rfl

theorem digitChars_map {digits : List Char} (all : ∀ c ∈ digits, c.isDigit = true) :
    digitChars (digits.map digitByte) = digits := by
  rw [digitChars, List.map_map]
  exact (List.map_congr_left fun c among => (isDigit_digitByte (all c among)).2.2).trans (List.map_id digits)

theorem someDigits?_digits {digits : List Char} (all : ∀ c ∈ digits, c.isDigit = true) (nonempty : digits ≠ [])
    (ends : Ends rest) : someDigits? (digits.map digitByte ++ rest) = some (digits, rest) := by
  have digitBytes : ∀ byte ∈ digits.map digitByte, isDigit byte = true := by
    simp only [List.mem_map, forall_exists_index, and_imp, forall_apply_eq_imp_iff₂]
    exact fun c among => (isDigit_digitByte (all c among)).1
  obtain ⟨c, others, rfl⟩ := List.exists_cons_of_ne_nil nonempty
  rw [someDigits?, List.span_eq_takeWhile_dropWhile, List.takeWhile_append_of_pos digitBytes,
    List.dropWhile_append_of_pos digitBytes, ends.takeWhile, ends.dropWhile, List.append_nil]
  simp only [List.map_cons]
  rw [← List.map_cons, digitChars_map all]

theorem isDigit_toDigits (n : Nat) : ∀ c ∈ Nat.toDigits 10 n, c.isDigit = true :=
  fun _ among => Nat.isDigit_of_mem_toDigits (by decide) (by decide) among

theorem head_toDigits {n : Nat} (positive : 0 < n) :
    ∃ c others, Nat.toDigits 10 n = c :: others ∧ digitByte c ≠ 0x30 := by
  induction n using Nat.strongRecOn with
  | ind n ih =>
    by_cases small : n < 10
    · have leading : ∀ n < 10, 0 < n → digitByte (Nat.digitChar n) ≠ 0x30 := by decide
      exact ⟨Nat.digitChar n, [], Nat.toDigits_of_lt_base small, leading n small positive⟩
    · obtain ⟨c, others, digits, leading⟩ := ih (n / 10) (by omega) (by omega)
      refine ⟨c, others ++ [Nat.digitChar (n % 10)], ?_, leading⟩
      rw [Nat.toDigits_of_base_le (by decide) (Nat.le_of_not_lt small), digits, List.cons_append]

theorem whole?_toDigits (n : Nat) (ends : Ends rest) :
    whole? ((Nat.toDigits 10 n).map digitByte ++ rest) = some (Nat.toDigits 10 n, rest) := by
  rcases Nat.eq_zero_or_pos n with rfl | positive
  · rw [Nat.toDigits_zero]
    change whole? (0x30 :: rest) = _
    rw [whole?, ends.no_digit]
    rfl
  · obtain ⟨c, others, digits, leading⟩ := head_toDigits positive
    have read := someDigits?_digits (isDigit_toDigits n) Nat.toDigits_ne_nil ends
    rw [digits, List.map_cons, List.cons_append] at read ⊢
    rw [whole?.eq_2 _ fun _ same => leading (List.cons.inj same).1, read]

theorem unsigned?_toDigits (negative : Bool) (n : Nat) (ends : Ends rest) :
    unsigned? negative ((Nat.toDigits 10 n).map digitByte ++ rest) =
      some (.number { negative, whole := Nat.toDigits 10 n }, rest) := by
  rw [unsigned?, whole?_toDigits n ends]
  simp only [Option.bind_eq_bind, Option.bind_some, ends.fraction?, ends.exponent?]
  rfl

theorem token?_digit {byte : UInt8} (digit : isDigit byte = true) (rest : Bytes) :
    token? (byte :: rest) = unsigned? false (byte :: rest) := by
  have among : byte ∈ [0x30, 0x31, 0x32, 0x33, 0x34, 0x35, 0x36, 0x37, 0x38, 0x39] := by
    simp only [isDigit, Bool.and_eq_true, decide_eq_true_eq, UInt8.le_iff_toNat_le] at digit
    simp only [List.mem_cons, List.not_mem_nil, ← UInt8.toNat_inj, UInt8.reduceToNat] at digit ⊢
    omega
  simp only [List.mem_cons, List.not_mem_nil, or_false] at among
  rcases among with rfl | rfl | rfl | rfl | rfl | rfl | rfl | rfl | rfl | rfl <;> rfl

theorem token?_ofInt (n : Int) (ends : Ends rest) :
    token? (spelledBytes (Number.ofInt n).spelled ++ rest) = some (.number (.ofInt n), rest) := by
  have digits := isDigit_toDigits n.natAbs
  have spelled : (Number.ofInt n).spelled = (if n < 0 then ['-'] else []) ++ Nat.toDigits 10 n.natAbs := by
    simp [Number.spelled, Number.ofInt]
  rw [spelled, spelledBytes_append, spelledBytes_digits digits, List.append_assoc]
  by_cases negative : n < 0
  · rw [if_pos negative]
    change unsigned? true ((Nat.toDigits 10 n.natAbs).map digitByte ++ rest) = _
    rw [unsigned?_toDigits true _ ends, Number.ofInt, decide_eq_true negative]
  · rw [if_neg negative, spelledBytes_nil, List.nil_append]
    have read := unsigned?_toDigits false n.natAbs ends
    obtain ⟨c, others, whole⟩ := List.exists_cons_of_ne_nil (Nat.toDigits_ne_nil (n := n.natAbs) (b := 10))
    have first := (isDigit_digitByte (digits c (whole ▸ List.mem_cons_self))).1
    rw [Number.ofInt, decide_eq_false negative]
    rw [whole] at read ⊢
    exact (token?_digit first _).trans read

end

def Token.Written : Token → Prop
  | .number literal => ∃ n, literal = .ofInt n
  | .text content => content.isSome
  | _ => True

def Token.IsNumber : Token → Prop
  | .number _ => True
  | _ => False

/-- No two numbers may stand side by side. -/
inductive Legible : List Token → Prop
  | nil : Legible []
  | cons {token : Token} {rest : List Token} (written : token.Written)
      (apart : token.IsNumber → ∀ next ∈ rest.head?, ¬ next.IsNumber) (others : Legible rest) :
      Legible (token :: rest)

theorem token?_spelled {token : Token} (written : token.Written) {rest : Bytes} (ends : token.IsNumber → Ends rest) :
    token? (spelledBytes token.spelled ++ rest) = some (token, rest) := by
  match token with
  | .number literal =>
    obtain ⟨n, rfl⟩ := written
    exact token?_ofInt n (ends trivial)
  | .text (some s) => exact token?_quoted s rest
  | .null | .bool true | .bool false | .beginArray | .endArray | .beginObject | .endObject | .comma | .colon => rfl

theorem ends_nil : Ends [] := by simp [Ends]

theorem ends_spelled {token : Token} (other : ¬ token.IsNumber) (rest : Bytes) :
    Ends (spelledBytes token.spelled ++ rest) := by
  intro first start
  match token with
  | .number _ => exact absurd trivial other
  | .text _ | .null | .bool true | .bool false | .beginArray | .endArray | .beginObject | .endObject | .comma
  | .colon =>
    cases start
    decide

theorem ends_flatMap {tokens : List Token} (apart : ∀ next ∈ tokens.head?, ¬ next.IsNumber) :
    Ends (spelledBytes (tokens.flatMap Token.spelled)) := by
  rcases tokens with _ | ⟨next, tokens⟩
  · exact ends_nil
  · rw [List.flatMap_cons, spelledBytes_append]
    exact ends_spelled (apart next rfl) _

theorem spelled_ne_nil {token : Token} (written : token.Written) : spelledBytes token.spelled ≠ [] := by
  intro empty
  have read := token?_spelled written fun _ => ends_nil
  rw [empty] at read
  cases read

theorem not_blank {byte : UInt8} {rest : Bytes} {found : Token × Bytes} (read : token? (byte :: rest) = some found) :
    blank byte = false := by
  rw [Bool.eq_false_iff]
  intro blanks
  simp only [blank, Bool.or_eq_true, beq_iff_eq] at blanks
  rcases blanks with ((rfl | rfl) | rfl) | rfl <;> cases read

theorem tokensWithin_token (bound : Nat) {bytes rest : Bytes} {token : Token}
    (read : token? bytes = some (token, rest)) :
    tokensWithin (bound + 1) bytes = (token :: ·) <$> tokensWithin bound rest := by
  rcases bytes with _ | ⟨byte, bytes⟩
  · cases read
  · rw [tokensWithin, List.dropWhile_cons, not_blank read]
    simp only [Bool.false_eq_true, if_false, read, Option.bind_eq_bind, Option.bind_some]
    cases tokensWithin bound rest <;> rfl

theorem tokensWithin_spelled {tokens : List Token} (legible : Legible tokens) {bound : Nat}
    (enough : tokens.length ≤ bound) :
    tokensWithin bound (spelledBytes (tokens.flatMap Token.spelled)) = some tokens := by
  induction legible generalizing bound with
  | nil => cases bound <;> rfl
  | @cons token rest written apart others ih =>
    obtain ⟨bound, rfl⟩ := Nat.exists_eq_add_one.2 (Nat.zero_lt_of_lt enough)
    have read := token?_spelled written fun number => ends_flatMap (apart number)
    rw [List.flatMap_cons, spelledBytes_append, tokensWithin_token bound read, ih (Nat.le_of_succ_le_succ enough)]
    rfl

theorem Legible.length_le {tokens : List Token} (legible : Legible tokens) :
    tokens.length ≤ (spelledBytes (tokens.flatMap Token.spelled)).length := by
  induction legible with
  | nil => exact Nat.le_refl 0
  | @cons token rest written apart others ih =>
    have nonempty := List.length_pos_iff.2 (spelled_ne_nil written)
    rw [List.flatMap_cons, spelledBytes_append, List.length_append, List.length_cons]
    omega

theorem scan_spelled {tokens : List Token} (legible : Legible tokens) :
    scan (spelledBytes (tokens.flatMap Token.spelled)) = some tokens :=
  tokensWithin_spelled legible legible.length_le

end FsMeta.Json
