import FsMeta.Text.Printable

set_option autoImplicit false

namespace FsMeta.Quoted

def hexDigits (n : Nat) : List Char := Nat.toDigits 16 n

def shown (c : Char) : List Char :=
  match c with
  | '"' => ['\\', '"']
  | '\\' => ['\\', '\\']
  | '\n' => ['\\', 'n']
  | '\r' => ['\\', 'r']
  | '\t' => ['\\', 't']
  | '\x00' => ['\\', '0']
  | c =>
    if Printable.hidden c then '\\' :: 'u' :: '\x7b' :: hexDigits c.toNat ++ ['\x7d'] else [c]

def text (name : String) : String :=
  String.ofList ('"' :: name.toList.flatMap shown ++ ['"'])

end FsMeta.Quoted
