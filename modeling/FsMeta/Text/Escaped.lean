import FsMeta.Bytes

set_option autoImplicit false

namespace FsMeta.Escaped

def hexDigit (n : Nat) : Char := Nat.digitChar (n % 16)

def hexByte (byte : UInt8) : List Char :=
  [hexDigit (byte.toNat / 16), hexDigit byte.toNat]

def shown (byte : UInt8) : List Char :=
  match Char.ofNat byte.toNat with
  | '\t' => ['\\', 't']
  | '\r' => ['\\', 'r']
  | '\n' => ['\\', 'n']
  | '\'' => ['\\', '\'']
  | '"' => ['\\', '"']
  | '\\' => ['\\', '\\']
  | c => if 0x20 ≤ byte && byte ≤ 0x7e then [c] else '\\' :: 'x' :: hexByte byte

def text (bytes : Bytes) : String := String.ofList (bytes.flatMap shown)

end FsMeta.Escaped
