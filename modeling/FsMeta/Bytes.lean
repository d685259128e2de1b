set_option autoImplicit false

namespace FsMeta

abbrev Bytes := List UInt8

namespace Bytes

/-- The least byte string above all that begin with the given one; none if only 0xff occurs. -/
def above? : Bytes → Option Bytes
  | [] => none
  | first :: rest =>
    match above? rest with
    | some next => some (first :: next)
    | none => if first = 0xff then none else some [first + 1]

def bigEndian : (width : Nat) → Nat → Bytes
  | 0, _ => []
  | width + 1, n => bigEndian width (n / 256) ++ [UInt8.ofNat n]

def ofBigEndian (bytes : Bytes) : Nat :=
  bytes.foldl (fun n byte => n * 256 + byte.toNat) 0

def littleEndian : (width : Nat) → Nat → Bytes
  | 0, _ => []
  | width + 1, n => UInt8.ofNat n :: littleEndian width (n / 256)

def ofLittleEndian : Bytes → Nat
  | [] => 0
  | byte :: rest => byte.toNat + 256 * ofLittleEndian rest

-- The pieces between the separators, so always one more than there are separators.
def splitOn (separator : UInt8) : Bytes → List Bytes
  | [] => [[]]
  | byte :: rest =>
    if byte = separator then [] :: splitOn separator rest
    else match splitOn separator rest with
      | [] => [[byte]]
      | piece :: pieces => (byte :: piece) :: pieces

@[simp] theorem length_bigEndian (width n : Nat) : (bigEndian width n).length = width := by
  induction width generalizing n with
  | zero => rfl
  | succ width ih => simp [bigEndian, ih]

@[simp] theorem length_littleEndian (width n : Nat) : (littleEndian width n).length = width := by
  induction width generalizing n with
  | zero => rfl
  | succ width ih => simp [littleEndian, ih]

end Bytes

end FsMeta
