import FsMeta.Json.Value

set_option autoImplicit false

namespace FsMeta.Json

def shownControl (n : Nat) : List Char :=
  ['\\', 'u', '0', '0', Nat.digitChar (n / 16), Nat.digitChar (n % 16)]

def shown (c : Char) : List Char :=
  match c with
  | '"' => ['\\', '"']
  | '\\' => ['\\', '\\']
  | '\n' => ['\\', 'n']
  | '\r' => ['\\', 'r']
  | '\t' => ['\\', 't']
  | '\x08' => ['\\', 'b']
  | '\x0c' => ['\\', 'f']
  | c => if c.toNat < 0x20 then shownControl c.toNat else [c]

def quoted (s : String) : List Char := '"' :: s.toList.flatMap shown ++ ['"']

def Number.spelled (number : Number) : List Char :=
  (if number.negative then ['-'] else []) ++ number.whole
    ++ (if number.fraction.isEmpty then [] else '.' :: number.fraction)
    ++ match number.exponent with
      | none => []
      | some (negative, digits) => 'e' :: (if negative then ['-'] else []) ++ digits

def Token.spelled : Token → List Char
  | .beginArray => ['[']
  | .endArray => [']']
  | .beginObject => ['\x7b']
  | .endObject => ['\x7d']
  | .comma => [',']
  | .colon => [':']
  | .null => ['n', 'u', 'l', 'l']
  | .bool true => ['t', 'r', 'u', 'e']
  | .bool false => ['f', 'a', 'l', 's', 'e']
  | .number literal => literal.spelled
  | .text content => quoted (content.getD "")

def render (value : Json) : String := String.ofList (value.tokens.flatMap Token.spelled)

def line (indent : Nat) : List Char := '\n' :: List.replicate (2 * indent) ' '

mutual

def lines (indent : Nat) : Json → List Char
  | .array [] => ['[', ']']
  | .array (element :: rest) =>
    '[' :: line (indent + 1) ++ lines (indent + 1) element ++ elementLines indent rest
  | .object [] => ['\x7b', '\x7d']
  | .object ((key, value) :: rest) =>
    '\x7b' :: line (indent + 1) ++ quoted (key.getD "") ++ [':', ' ']
      ++ lines (indent + 1) value ++ memberLines indent rest
  | value => value.tokens.flatMap Token.spelled

def elementLines (indent : Nat) : List Json → List Char
  | [] => line indent ++ [']']
  | element :: rest =>
    ',' :: line (indent + 1) ++ lines (indent + 1) element ++ elementLines indent rest

def memberLines (indent : Nat) : List (Option String × Json) → List Char
  | [] => line indent ++ ['\x7d']
  | (key, value) :: rest =>
    ',' :: line (indent + 1) ++ quoted (key.getD "") ++ [':', ' ']
      ++ lines (indent + 1) value ++ memberLines indent rest

end

def renderIndented (value : Json) : String := String.ofList (lines 0 value)

end FsMeta.Json
