import FsMeta.Json.Value
import FsMeta.Text.Utf8

set_option autoImplicit false

namespace FsMeta.Json

def blank (byte : UInt8) : Bool :=
  byte == 0x20 || byte == 0x0a || byte == 0x0d || byte == 0x09

def isDigit (byte : UInt8) : Bool := 0x30 ≤ byte && byte ≤ 0x39

def hexValue? (byte : UInt8) : Option Nat :=
  if isDigit byte then some (byte.toNat - 0x30)
  else if 0x61 ≤ byte && byte ≤ 0x66 then some (byte.toNat - 0x61 + 10)
  else if 0x41 ≤ byte && byte ≤ 0x46 then some (byte.toNat - 0x41 + 10)
  else none

-- What a string literal is made of: bytes, and code units written as numbers.
inductive Atom where
  | byte (value : UInt8)
  | unit (value : Nat)
  deriving Repr, DecidableEq

def codeUnit? (a b c d : UInt8) : Option Nat := do
  let a ← hexValue? a
  let b ← hexValue? b
  let c ← hexValue? c
  let d ← hexValue? d
  pure (((a * 16 + b) * 16 + c) * 16 + d)

def letterEscape? (byte : UInt8) : Option UInt8 :=
  match Char.ofNat byte.toNat with
  | '"' => some 0x22
  | '\\' => some 0x5c
  | '/' => some 0x2f
  | 'b' => some 0x08
  | 'f' => some 0x0c
  | 'n' => some 0x0a
  | 'r' => some 0x0d
  | 't' => some 0x09
  | _ => none

-- The literal up to its closing quote, and what follows.
def literal : Bytes → Option (List Atom × Bytes)
  | [] => none
  | 0x22 :: rest => some ([], rest)
  | 0x5c :: 0x75 :: a :: b :: c :: d :: rest => do
    let unit ← codeUnit? a b c d
    let (atoms, rest) ← literal rest
    pure (.unit unit :: atoms, rest)
  | 0x5c :: byte :: rest => do
    let value ← letterEscape? byte
    let (atoms, rest) ← literal rest
    pure (.byte value :: atoms, rest)
  | byte :: rest => do
    guard (0x20 ≤ byte && byte != 0x5c)
    let (atoms, rest) ← literal rest
    pure (.byte byte :: atoms, rest)

def isLead (unit : Nat) : Bool := 0xd800 ≤ unit && unit < 0xdc00

def isTrail (unit : Nat) : Bool := 0xdc00 ≤ unit && unit < 0xe000

def encodePoint (point : Nat) : Bytes := String.utf8EncodeChar (Char.ofNat point)

def atomBytes : List Atom → Option Bytes
  | [] => some []
  | .byte value :: rest => (value :: ·) <$> atomBytes rest
  | .unit lead :: .unit trail :: rest =>
    if isLead lead then
      if isTrail trail then
        (encodePoint (0x10000 + (lead - 0xd800) * 0x400 + (trail - 0xdc00)) ++ ·) <$> atomBytes rest
      else none
    else if isTrail lead then none
    else (encodePoint lead ++ ·) <$> atomBytes (.unit trail :: rest)
  | .unit unit :: rest =>
    if isLead unit || isTrail unit then none else (encodePoint unit ++ ·) <$> atomBytes rest

def content (atoms : List Atom) : Option String := atomBytes atoms >>= Utf8.decode?

def digitChars (digits : Bytes) : List Char := digits.map fun byte => Char.ofNat byte.toNat

def someDigits? (bytes : Bytes) : Option (List Char × Bytes) :=
  match bytes.span isDigit with
  | ([], _) => none
  | (digits, rest) => some (digitChars digits, rest)

def whole? : Bytes → Option (List Char × Bytes)
  | 0x30 :: rest => if (rest.head?.map isDigit).getD false then none else some (['0'], rest)
  | bytes => someDigits? bytes

def fraction? : Bytes → Option (List Char × Bytes)
  | 0x2e :: rest => someDigits? rest
  | bytes => some ([], bytes)

def exponent? : Bytes → Option (Option (Bool × List Char) × Bytes)
  | byte :: rest =>
    if byte = 0x65 ∨ byte = 0x45 then do
      let (negative, rest) := match rest with
        | 0x2b :: rest => (false, rest)
        | 0x2d :: rest => (true, rest)
        | _ => (false, rest)
      let (digits, rest) ← someDigits? rest
      pure (some (negative, digits), rest)
    else some (none, byte :: rest)
  | [] => some (none, [])

def unsigned? (negative : Bool) (bytes : Bytes) : Option (Token × Bytes) := do
  let (whole, rest) ← whole? bytes
  let (fraction, rest) ← fraction? rest
  let (exponent, rest) ← exponent? rest
  pure (.number { negative, whole, fraction, exponent }, rest)

def word? (word : String) (token : Token) (bytes : Bytes) : Option (Token × Bytes) :=
  (Utf8.encode word).isPrefixOf? bytes |>.map fun rest => (token, rest)

def token? : Bytes → Option (Token × Bytes)
  | [] => none
  | byte :: rest =>
    match Char.ofNat byte.toNat with
    | '[' => some (.beginArray, rest)
    | ']' => some (.endArray, rest)
    | '\x7b' => some (.beginObject, rest)
    | '\x7d' => some (.endObject, rest)
    | ',' => some (.comma, rest)
    | ':' => some (.colon, rest)
    | 'n' => word? "null" .null (byte :: rest)
    | 't' => word? "true" (.bool true) (byte :: rest)
    | 'f' => word? "false" (.bool false) (byte :: rest)
    | '"' => (literal rest).map fun (atoms, rest) => (.text (content atoms), rest)
    | '-' => unsigned? true rest
    | _ => if isDigit byte then unsigned? false (byte :: rest) else none

-- Each token takes at least one byte, so the length of the input is enough of a bound.
def tokensWithin : (bound : Nat) → Bytes → Option (List Token)
  | 0, bytes => if bytes.all blank then some [] else none
  | bound + 1, bytes =>
    match bytes.dropWhile blank with
    | [] => some []
    | bytes => do
      let (token, rest) ← token? bytes
      let more ← tokensWithin bound rest
      pure (token :: more)

def scan (bytes : Bytes) : Option (List Token) := tokensWithin bytes.length bytes

end FsMeta.Json
