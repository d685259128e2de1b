import FsMeta.Proofs.Bytes
import FsMeta.Journal.Crc32

set_option autoImplicit false

/-!
What the checksum notices. A shift of the register is linear and loses nothing, so bytes that follow
keep two registers apart, and up to four bytes go into the register as one word: no two such words lead
to the same checksum, wherever they stand.
-/
namespace FsMeta.Crc32

def bit (register : UInt32) (place : Nat) : Bool := register.toBitVec.getLsbD place

theorem bit_ext {register other : UInt32} (same : ∀ place < 32, bit register place = bit other place) :
    register = other :=
  UInt32.toBitVec_inj.1 (BitVec.eq_of_getLsbD_eq fun place inside => same place inside)

theorem bit_high {register : UInt32} {place : Nat} (high : 32 ≤ place) : bit register place = false :=
  BitVec.getLsbD_of_ge _ _ high

theorem bit_xor (register other : UInt32) (place : Nat) :
    bit (register ^^^ other) place = (bit register place ^^ bit other place) := by
  simp [bit]

theorem bit_ofNat (n place : Nat) : bit (UInt32.ofNat n) place = (decide (place < 32) && n.testBit place) := by
  simp [bit, UInt32.ofNat, BitVec.getLsbD_ofNat]

theorem low_bit (register : UInt32) : register &&& 1 = 1 ↔ bit register 0 = true := by
  have low : (register &&& 1).toNat = register.toNat % 2 := by
    rw [UInt32.toNat_and]
    exact Nat.and_one_is_mod _
  have tested : bit register 0 = decide (register.toNat % 2 = 1) := by
    simp [bit, BitVec.getLsbD, Nat.testBit_zero]
  rw [tested, decide_eq_true_iff, ← low, ← UInt32.toNat_inj]
  rfl

theorem bit_shift (register : UInt32) (place : Nat) :
    bit (shift register) place = (bit register (place + 1) ^^ (bit register 0 && bit polynomial place)) := by
  have moved : bit (register >>> 1) place = bit register (place + 1) := by
    simp [bit, Nat.add_comm]
  rw [shift]
  cases low : bit register 0 with
  | true => rw [if_pos ((low_bit register).2 low), bit_xor, moved, Bool.true_and]
  | false =>
    have clear : ¬ register &&& 1 = 1 := fun set => by simp [(low_bit register).1 set] at low
    rw [if_neg clear, moved, Bool.false_and, Bool.xor_false]

theorem shift_xor (register other : UInt32) : shift (register ^^^ other) = shift register ^^^ shift other := by
  refine bit_ext fun place _ => ?_
  simp only [bit_shift, bit_xor]
  grind

-- The polynomial has its top bit set, so the top bit of the result is the bit that was moved out.
theorem shift_injective {register other : UInt32} (same : shift register = shift other) :
    register = other := by
  have step (place : Nat) := congrArg (bit · place) same
  simp only [bit_shift] at step
  have low : bit register 0 = bit other 0 := by
    have top := step 31
    have set : bit polynomial 31 = true := by decide
    simpa [bit_high, set] using top
  refine bit_ext fun place _ => ?_
  cases place with
  | zero => exact low
  | succ place => simpa [low] using step place

theorem shift_double {n : Nat} (fits : 2 * n < UInt32.size) :
    shift (UInt32.ofNat (2 * n)) = UInt32.ofNat n := by
  refine bit_ext fun place inside => ?_
  simp only [bit_shift, bit_ofNat]
  have even : (2 * n).testBit 0 = false := by simp
  have moved : (2 * n).testBit (place + 1) = n.testBit place := by
    rw [Nat.testBit_succ, Nat.mul_div_cancel_left n Nat.two_pos]
  simp only [even, moved, inside, decide_true, Bool.and_false, Bool.false_and, Bool.xor_false, Bool.true_and]
  by_cases last : place + 1 < 32
  · simp [last]
  · have top : place = 31 := by omega
    have small : n < 2 ^ 31 := by
      rw [UInt32.size] at fits
      omega
    simp [top, Nat.testBit_lt_two_pow small]

theorem shifts_add (count more : Nat) (register : UInt32) :
    shifts (count + more) register = shifts more (shifts count register) := by
  induction count generalizing register with
  | zero => rw [Nat.zero_add, shifts]
  | succ count ih => rw [Nat.succ_add, shifts, shifts, ih]

theorem shifts_xor (count : Nat) (register other : UInt32) :
    shifts count (register ^^^ other) = shifts count register ^^^ shifts count other := by
  induction count generalizing register other with
  | zero => rfl
  | succ count ih => rw [shifts, shifts, shifts, shift_xor, ih]

theorem shifts_injective {count : Nat} {register other : UInt32}
    (same : shifts count register = shifts count other) : register = other := by
  induction count generalizing register other with
  | zero => exact same
  | succ count ih => exact shift_injective (ih same)

-- As long as the bits that are moved out are all clear, a shift only halves.
theorem shifts_scaled {count n : Nat} (fits : 2 ^ count * n < UInt32.size) :
    shifts count (UInt32.ofNat (2 ^ count * n)) = UInt32.ofNat n := by
  induction count with
  | zero => rw [shifts, Nat.pow_zero, Nat.one_mul]
  | succ count ih =>
    have double : 2 ^ (count + 1) * n = 2 * (2 ^ count * n) := by
      rw [Nat.pow_succ, Nat.mul_comm (2 ^ count) 2, Nat.mul_assoc]
    rw [double] at fits ⊢
    rw [shifts, shift_double fits]
    exact ih (by omega)

theorem ofNat_cons (byte : UInt8) (n : Nat) :
    UInt32.ofNat (byte.toNat + 2 ^ 8 * n) = byte.toUInt32 ^^^ UInt32.ofNat (2 ^ 8 * n) := by
  have small : byte.toNat < 2 ^ 8 := byte.toNat_lt
  have wide : byte.toUInt32 = UInt32.ofNat byte.toNat := by simp
  refine bit_ext fun place inside => ?_
  rw [wide, bit_xor, bit_ofNat, bit_ofNat, bit_ofNat, Nat.add_comm]
  rw [Nat.testBit_two_pow_mul_add n small, Nat.testBit_two_pow_mul]
  by_cases low : place < 8
  · simp [low, Nat.not_le.2 low]
  · have clear : byte.toNat.testBit place = false :=
      Nat.testBit_lt_two_pow (Nat.lt_of_lt_of_le small (Nat.pow_le_pow_right Nat.two_pos (Nat.not_lt.1 low)))
    simp [low, Nat.not_lt.1 low, clear]

theorem foldl_absorb {word : Bytes} (short : word.length ≤ 4) (register : UInt32) :
    word.foldl absorb register =
      shifts (8 * word.length) (register ^^^ UInt32.ofNat (Bytes.ofLittleEndian word)) := by
  induction word generalizing register with
  | nil => simp [Bytes.ofLittleEndian, shifts]
  | cons byte rest ih =>
    rw [List.length_cons] at short
    have bound : Bytes.ofLittleEndian rest < 256 ^ 3 :=
      Nat.lt_of_lt_of_le (Bytes.ofLittleEndian_lt rest) (Nat.pow_le_pow_right (by decide) (by omega))
    have fits : 2 ^ 8 * Bytes.ofLittleEndian rest < UInt32.size := by
      rw [UInt32.size]
      omega
    calc (byte :: rest).foldl absorb register
        = rest.foldl absorb (shifts 8 (register ^^^ byte.toUInt32)) := rfl
      _ = shifts (8 * rest.length) (shifts 8 (register ^^^ byte.toUInt32) ^^^
            shifts 8 (UInt32.ofNat (2 ^ 8 * Bytes.ofLittleEndian rest))) := by
          rw [ih (by omega), shifts_scaled fits]
      _ = shifts (8 * rest.length) (shifts 8 (register ^^^
            UInt32.ofNat (Bytes.ofLittleEndian (byte :: rest)))) := by
          rw [← shifts_xor, UInt32.xor_assoc, ← ofNat_cons]
          rfl
      _ = _ := by rw [← shifts_add, List.length_cons, Nat.mul_succ, Nat.add_comm]

theorem foldl_absorb_injective (bytes : Bytes) {register other : UInt32}
    (same : bytes.foldl absorb register = bytes.foldl absorb other) : register = other := by
  induction bytes generalizing register other with
  | nil => exact same
  | cons byte rest ih =>
    have first : register ^^^ byte.toUInt32 = other ^^^ byte.toUInt32 := shifts_injective (ih same)
    simpa using first

theorem checksum_ne {before old new after : Bytes} (short : old.length ≤ 4)
    (length : new.length = old.length) (altered : new ≠ old) :
    checksum (before ++ new ++ after) ≠ checksum (before ++ old ++ after) := by
  intro same
  apply altered
  have folded : (before ++ new ++ after).foldl absorb 0xffffffff =
      (before ++ old ++ after).foldl absorb 0xffffffff := by
    simpa [checksum] using same
  rw [List.foldl_append, List.foldl_append, List.foldl_append, List.foldl_append] at folded
  have words := foldl_absorb_injective after folded
  rw [foldl_absorb short, foldl_absorb (by omega), length] at words
  have word : UInt32.ofNat (Bytes.ofLittleEndian new) = UInt32.ofNat (Bytes.ofLittleEndian old) := by
    simpa using shifts_injective words
  have fits (bytes : Bytes) (few : bytes.length ≤ 4) : Bytes.ofLittleEndian bytes < UInt32.size :=
    Nat.lt_of_lt_of_le (Bytes.ofLittleEndian_lt bytes) (Nat.pow_le_pow_right (by decide) few)
  have number : Bytes.ofLittleEndian new = Bytes.ofLittleEndian old := by
    have both := congrArg UInt32.toNat word
    rwa [UInt32.toNat_ofNat_of_lt' (fits new (by omega)), UInt32.toNat_ofNat_of_lt' (fits old short)] at both
  rw [← Bytes.littleEndian_ofLittleEndian new, ← Bytes.littleEndian_ofLittleEndian old, number, length]

-- The check value of CRC-32/IEEE, of the digits one to nine.
example : checksum [0x31, 0x32, 0x33, 0x34, 0x35, 0x36, 0x37, 0x38, 0x39] = 0xcbf43926 := by
  decide +kernel

end FsMeta.Crc32
