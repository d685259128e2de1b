set_option autoImplicit false

namespace FsMeta.Numeral

inductive Fault where
  | empty
  | invalidDigit
  | tooLarge
  | tooSmall
  deriving Repr, DecidableEq

def Fault.message : Fault → String
  | .empty => "cannot parse integer from empty string"
  | .invalidDigit => "invalid digit found in string"
  | .tooLarge => "number too large to fit in target type"
  | .tooSmall => "number too small to fit in target type"

def digit? (c : Char) : Option Nat :=
  if c.isDigit then some (c.toNat - '0'.toNat) else none

-- The value so far stays within the limit, so the first digit that leaves it is where reading ends.
def magnitude (limit : Nat) (beyond : Fault) : (value : Nat) → List Char → Except Fault Nat
  | value, [] => .ok value
  | value, c :: rest =>
    match digit? c with
    | none => .error .invalidDigit
    | some d =>
      if value * 10 + d ≤ limit then magnitude limit beyond (value * 10 + d) rest
      else .error beyond

def unsigned (limit : Nat) : List Char → Except Fault Nat
  | [] => .error .empty
  | ['+'] => .error .invalidDigit
  | '+' :: digits => magnitude limit .tooLarge 0 digits
  | digits => magnitude limit .tooLarge 0 digits

def uint64 (text : String) : Except Fault UInt64 :=
  UInt64.ofNat <$> unsigned (UInt64.size - 1) text.toList

def int64 (text : String) : Except Fault Int64 :=
  match text.toList with
  | ['-'] => .error .invalidDigit
  | '-' :: digits => (fun n => Int64.ofInt (-(n : Int))) <$> magnitude (UInt64.size / 2) .tooSmall 0 digits
  | digits => Int64.ofNat <$> unsigned (UInt64.size / 2 - 1) digits

end FsMeta.Numeral
