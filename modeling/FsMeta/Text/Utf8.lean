import FsMeta.Bytes

set_option autoImplicit false

/-!
UTF-8. A byte string is cut into pieces: characters, and maximal ill-formed sequences. Strict reading
refuses the first ill-formed piece and names its place; lossy reading puts U+FFFD for each.
-/
namespace FsMeta.Utf8

inductive Piece where
  | char (c : Char)
  | bad (length : Nat)
  | unfinished
  deriving Repr, DecidableEq

inductive Fault where
  | bad (length index : Nat)
  | unfinished (index : Nat)
  deriving Repr, DecidableEq

def Fault.message : Fault → String
  | .bad length index => s!"invalid utf-8 sequence of {length} bytes from index {index}"
  | .unfinished index => s!"incomplete utf-8 byte sequence from index {index}"

def continues (byte : UInt8) : Bool := 0x80 ≤ byte && byte ≤ 0xbf

-- Overlong forms, surrogates and values above U+10FFFF are excluded by the second byte.
def follows (lead byte : UInt8) : Bool :=
  if lead = 0xe0 then 0xa0 ≤ byte && byte ≤ 0xbf
  else if lead = 0xed then 0x80 ≤ byte && byte ≤ 0x9f
  else if lead = 0xf0 then 0x90 ≤ byte && byte ≤ 0xbf
  else if lead = 0xf4 then 0x80 ≤ byte && byte ≤ 0x8f
  else continues byte

def width (lead : UInt8) : Nat :=
  if lead < 0x80 then 1
  else if 0xc2 ≤ lead && lead ≤ 0xdf then 2
  else if 0xe0 ≤ lead && lead ≤ 0xef then 3
  else if 0xf0 ≤ lead && lead ≤ 0xf4 then 4
  else 0

def low (byte : UInt8) : Nat := byte.toNat % 64

def pieces : Bytes → List Piece
  | [] => []
  | a :: rest =>
    match width a with
    | 1 => .char (Char.ofNat a.toNat) :: pieces rest
    | 2 =>
      match rest with
      | [] => [.unfinished]
      | b :: rest' =>
        if continues b then .char (Char.ofNat (a.toNat % 32 * 64 + low b)) :: pieces rest'
        else .bad 1 :: pieces (b :: rest')
    | 3 =>
      match rest with
      | [] => [.unfinished]
      | b :: rest' =>
        if follows a b then
          match rest' with
          | [] => [.unfinished]
          | c :: rest'' =>
            if continues c then
              .char (Char.ofNat (a.toNat % 16 * 4096 + low b * 64 + low c)) :: pieces rest''
            else .bad 2 :: pieces (c :: rest'')
        else .bad 1 :: pieces (b :: rest')
    | 4 =>
      match rest with
      | [] => [.unfinished]
      | b :: rest' =>
        if follows a b then
          match rest' with
          | [] => [.unfinished]
          | c :: rest'' =>
            if continues c then
              match rest'' with
              | [] => [.unfinished]
              | d :: rest''' =>
                if continues d then
                  .char (Char.ofNat
                    (a.toNat % 8 * 262144 + low b * 4096 + low c * 64 + low d)) :: pieces rest'''
                else .bad 3 :: pieces (d :: rest''')
            else .bad 2 :: pieces (c :: rest'')
        else .bad 1 :: pieces (b :: rest')
    | _ => .bad 1 :: pieces rest

def charsFrom : (index : Nat) → List Piece → Except Fault (List Char)
  | _, [] => .ok []
  | index, .char c :: rest => (c :: ·) <$> charsFrom (index + c.utf8Size) rest
  | index, .bad length :: _ => .error (.bad length index)
  | index, .unfinished :: _ => .error (.unfinished index)

def decode (bytes : Bytes) : Except Fault String :=
  String.ofList <$> charsFrom 0 (pieces bytes)

def decode? (bytes : Bytes) : Option String := (decode bytes).toOption

def lossy (bytes : Bytes) : String :=
  String.ofList <| (pieces bytes).map fun
    | .char c => c
    | _ => Char.ofNat 0xfffd

def encode (text : String) : Bytes := text.toList.flatMap String.utf8EncodeChar

end FsMeta.Utf8
