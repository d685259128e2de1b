import FsMeta.Json.Number

set_option autoImplicit false

namespace FsMeta.Json.Number

theorem value_toDigits (n : Nat) : value (Nat.toDigits 10 n) = n := by
  have digits := Nat.ofDigitChars_ten_toDigits (n := n)
  rw [Nat.ofDigitChars_eq_foldl] at digits
  simpa only [value, digit, Nat.mul_comm] using digits

theorem int?_ofInt (n : Int) : (ofInt n).int? = some n := by
  rw [int?, if_pos ⟨rfl, rfl⟩]
  simp only [ofInt, value_toDigits]
  by_cases negative : n < 0
  · obtain ⟨k, magnitude⟩ := Nat.exists_eq_add_one.2 (Int.natAbs_pos.2 (Int.ne_of_lt negative))
    simp only [negative, decide_true, magnitude]
    rw [Option.some.injEq]
    omega
  · simp only [negative, decide_false]
    rw [Option.some.injEq]
    omega

theorem le_foldl_digit (start : Nat) (digits : List Char) :
    start ≤ digits.foldl (fun n c => n * 10 + digit c) start := by
  induction digits generalizing start with
  | nil => exact Nat.le_refl start
  | cons c rest ih =>
    have longer := ih (start * 10 + digit c)
    rw [List.foldl_cons]
    omega

theorem fitting_all {start taken : Nat} {digits : List Char}
    (fits : digits.foldl (fun n c => n * 10 + digit c) start < UInt64.size) :
    fitting start taken digits =
      (digits.foldl (fun n c => n * 10 + digit c) start, taken + digits.length) := by
  induction digits generalizing start taken with
  | nil => rfl
  | cons c rest ih =>
    rw [List.foldl_cons] at fits ⊢
    have first : start * 10 + digit c < UInt64.size := Nat.lt_of_le_of_lt (le_foldl_digit _ rest) fits
    rw [fitting, if_pos first, ih fits, List.length_cons, Nat.add_right_comm, Nat.add_assoc]

theorem roundToDouble_le (n : Nat) : roundToDouble n ≤ 2 * n := by
  rw [roundToDouble]
  split
  · omega
  · rename_i large
    have positive : n ≠ 0 := by
      rintro rfl
      exact large (by decide)
    have unit : 2 ^ (n.log2 - 52) ≤ n :=
      Nat.le_trans (Nat.pow_le_pow_right (by decide) (Nat.sub_le _ _)) (Nat.log2_self_le positive)
    have kept : n >>> (n.log2 - 52) * 2 ^ (n.log2 - 52) ≤ n := by
      rw [Nat.shiftRight_eq_div_pow]
      exact Nat.div_mul_le_self _ _
    simp only [Nat.shiftLeft_eq]
    split
    · rw [Nat.add_mul, Nat.one_mul]
      omega
    · omega

theorem fitting_toDigits {n : Nat} (fits : n < UInt64.size) :
    fitting 0 0 (Nat.toDigits 10 n) = (n, (Nat.toDigits 10 n).length) := by
  have whole : (Nat.toDigits 10 n).foldl (fun n c => n * 10 + digit c) 0 = n := value_toDigits n
  rw [fitting_all (by rw [whole]; exact fits), whole, Nat.zero_add]

theorem scaledFinite_zero {n : Nat} (fits : n < UInt64.size) : scaledFinite n 0 = true := by
  have bound : 2 * UInt64.size ≤ firstInfinite := by decide +kernel
  have one : roundToDouble (Nat.pow 10 (Int.toNat 0)) = 1 := by decide
  have rounded := roundToDouble_le n
  have small : roundToDouble n * 1 < firstInfinite := by omega
  rw [scaledFinite, one, decide_eq_true small]
  simp

theorem finite_ofInt {n : Int} (fits : n.natAbs < UInt64.size) : (ofInt n).finite = true := by
  simp only [finite, ofInt, fitting_toDigits fits, fitting, Nat.sub_self]
  exact scaledFinite_zero fits

end FsMeta.Json.Number
