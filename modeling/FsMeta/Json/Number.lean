set_option autoImplicit false

/-!
Number literals. An integer field takes a literal with neither fraction nor exponent; a literal that is
only kept has to be finite as a double, judged from the digits that fit into 64 bits.
-/
namespace FsMeta.Json

structure Number where
  negative : Bool
  whole : List Char
  fraction : List Char := []
  exponent : Option (Bool × List Char) := none
  deriving Repr, DecidableEq

namespace Number

def digit (c : Char) : Nat := c.toNat - '0'.toNat

def value (digits : List Char) : Nat := digits.foldl (fun n c => n * 10 + digit c) 0

def ofInt (n : Int) : Number where
  negative := n < 0
  whole := Nat.toDigits 10 n.natAbs

-- Minus zero is no integer: it reads as a double.
def int? (number : Number) : Option Int :=
  if number.fraction = [] ∧ number.exponent = none then
    match number.negative, value number.whole with
    | false, n => some n
    | true, 0 => none
    | true, n => some (-n)
  else none

-- The digits that still fit into 64 bits, and how many they are.
def fitting : (significand taken : Nat) → List Char → Nat × Nat
  | significand, taken, [] => (significand, taken)
  | significand, taken, c :: rest =>
    if significand * 10 + digit c < UInt64.size then
      fitting (significand * 10 + digit c) (taken + 1) rest
    else (significand, taken)

-- The nearest number of 53 significant bits, a tie going to the even one.
def roundToDouble (n : Nat) : Nat :=
  if n < 1 <<< 53 then n
  else
    let shift := n.log2 - 52
    let kept := n >>> shift
    let left := n % (1 <<< shift)
    let half := 1 <<< (shift - 1)
    if left > half ∨ (left = half ∧ kept % 2 = 1) then (kept + 1) <<< shift else kept <<< shift

-- Halfway between the greatest double and the next power of two.
def firstInfinite : Nat := ((1 <<< 54) - 1) <<< 970

def scaledFinite (significand : Nat) (exponent : Int) : Bool :=
  significand == 0 || exponent < 0 ||
    (exponent ≤ 308 &&
      roundToDouble significand * roundToDouble (Nat.pow 10 exponent.toNat) < firstInfinite)

def finite (number : Number) : Bool :=
  let (wholePart, taken) := fitting 0 0 number.whole
  let (significand, placed) := fitting wholePart 0 number.fraction
  let start : Int := (number.whole.length - taken : Nat) - (placed : Int)
  match number.exponent with
  | none => scaledFinite significand start
  | some (negative, digits) =>
    if value digits < 1 <<< 31 then
      scaledFinite significand (if negative then start - value digits else start + value digits)
    else significand == 0 || negative

end Number

end FsMeta.Json
