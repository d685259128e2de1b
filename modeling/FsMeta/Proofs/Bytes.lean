import FsMeta.Bytes
import Mathlib.Algebra.Group.Nat.Defs
import Mathlib.Data.List.Induction

set_option autoImplicit false

namespace FsMeta.Bytes

theorem ofBigEndian_append_singleton (bytes : Bytes) (byte : UInt8) :
    ofBigEndian (bytes ++ [byte]) = ofBigEndian bytes * 256 + byte.toNat := by
  simp [ofBigEndian]

theorem ofBigEndian_bigEndian {width n : Nat} (fits : n < 256 ^ width) :
    ofBigEndian (bigEndian width n) = n := by
  induction width generalizing n with
  | zero =>
    have zero : n = 0 := by simpa using fits
    simp [zero, bigEndian, ofBigEndian]
  | succ width ih =>
    have rest : n / 256 < 256 ^ width := by
      rw [Nat.pow_succ] at fits
      exact Nat.div_lt_of_lt_mul (by rwa [Nat.mul_comm])
    rw [bigEndian, ofBigEndian_append_singleton, ih rest, UInt8.toNat_ofNat']
    omega

theorem ofBigEndian_lt (bytes : Bytes) : ofBigEndian bytes < 256 ^ bytes.length := by
  induction bytes using List.reverseRecOn with
  | nil => exact Nat.one_pos
  | append_singleton front last ih =>
    have small : last.toNat < 256 := last.toNat_lt
    rw [ofBigEndian_append_singleton, List.length_append, List.length_singleton, Nat.pow_succ]
    omega

theorem bigEndian_ofBigEndian (bytes : Bytes) :
    bigEndian bytes.length (ofBigEndian bytes) = bytes := by
  induction bytes using List.reverseRecOn with
  | nil => rfl
  | append_singleton front last ih =>
    have small : last.toNat < 256 := last.toNat_lt
    have quotient : (ofBigEndian front * 256 + last.toNat) / 256 = ofBigEndian front := by omega
    have digit : UInt8.ofNat (ofBigEndian front * 256 + last.toNat) = last := by
      apply UInt8.toNat_inj.1
      rw [UInt8.toNat_ofNat']
      omega
    rw [ofBigEndian_append_singleton, List.length_append, List.length_singleton, bigEndian, quotient,
      digit, ih]

theorem append_lt_append {front other : Bytes} (less : front < other) (long : front.length = other.length)
    (rest more : Bytes) : front ++ rest < other ++ more := by
  induction front generalizing other with
  | nil =>
    cases other with
    | nil => exact absurd less (List.lt_irrefl _)
    | cons _ _ => cases long
  | cons head tail ih =>
    cases other with
    | nil => cases long
    | cons first others =>
      rcases List.cons_lt_cons_iff.1 less with below | ⟨rfl, further⟩
      · exact List.cons_lt_cons_iff.2 (.inl below)
      · exact List.cons_lt_cons_iff.2 (.inr ⟨rfl, ih further (Nat.succ.inj long)⟩)

theorem bigEndian_lt {width n m : Nat} (less : n < m) (fits : m < 256 ^ width) :
    bigEndian width n < bigEndian width m := by
  induction width generalizing n m with
  | zero => omega
  | succ width ih =>
    have rest : m / 256 < 256 ^ width := by
      rw [Nat.pow_succ] at fits
      exact Nat.div_lt_of_lt_mul (by rwa [Nat.mul_comm])
    rw [bigEndian, bigEndian]
    rcases Nat.lt_or_ge (n / 256) (m / 256) with below | above
    · exact append_lt_append (ih below rest) (by simp) _ _
    · have same : n / 256 = m / 256 := by omega
      have digits : UInt8.ofNat n < UInt8.ofNat m := by
        rw [UInt8.lt_iff_toNat_lt, UInt8.toNat_ofNat', UInt8.toNat_ofNat']
        omega
      rw [same]
      exact List.append_left_lt (List.cons_lt_cons_iff.2 (.inl digits))

theorem ofLittleEndian_littleEndian {width n : Nat} (fits : n < 256 ^ width) :
    ofLittleEndian (littleEndian width n) = n := by
  induction width generalizing n with
  | zero =>
    have zero : n = 0 := by simpa using fits
    simp [zero, littleEndian, ofLittleEndian]
  | succ width ih =>
    have rest : n / 256 < 256 ^ width := by
      rw [Nat.pow_succ] at fits
      exact Nat.div_lt_of_lt_mul (by rwa [Nat.mul_comm])
    rw [littleEndian, ofLittleEndian, ih rest, UInt8.toNat_ofNat']
    omega

theorem ofLittleEndian_lt (bytes : Bytes) : ofLittleEndian bytes < 256 ^ bytes.length := by
  induction bytes with
  | nil => exact Nat.one_pos
  | cons first rest ih =>
    have small : first.toNat < 256 := first.toNat_lt
    rw [ofLittleEndian, List.length_cons, Nat.pow_succ]
    omega

theorem littleEndian_ofLittleEndian (bytes : Bytes) :
    littleEndian bytes.length (ofLittleEndian bytes) = bytes := by
  induction bytes with
  | nil => rfl
  | cons first rest ih =>
    have small : first.toNat < 256 := first.toNat_lt
    have quotient : (first.toNat + 256 * ofLittleEndian rest) / 256 = ofLittleEndian rest := by omega
    have digit : UInt8.ofNat (first.toNat + 256 * ofLittleEndian rest) = first := by
      apply UInt8.toNat_inj.1
      rw [UInt8.toNat_ofNat']
      omega
    rw [List.length_cons, ofLittleEndian, littleEndian, quotient, digit, ih]

-- In the order of bytes, what begins with a string comes right behind it.
theorem le_of_begins {start key : Bytes} (begins : start <+: key) : start ≤ key := by
  induction start generalizing key with
  | nil => exact List.nil_le key
  | cons first rest ih =>
    obtain ⟨more, rfl⟩ := begins
    exact List.cons_le_cons_iff.2 (.inr ⟨rfl, ih ⟨more, rfl⟩⟩)

theorem lt_of_not_begins {start key other : Bytes} (above : start ≤ key) (differs : ¬ start <+: key)
    (begins : start <+: other) : other < key := by
  induction start generalizing key other with
  | nil => exact absurd (List.nil_prefix) differs
  | cons first rest ih =>
    obtain ⟨more, rfl⟩ := begins
    cases key with
    | nil => exact absurd (List.nil_lt_cons first rest) above
    | cons head tail =>
      rcases List.cons_le_cons_iff.1 above with less | ⟨rfl, further⟩
      · exact List.cons_lt_cons_iff.2 (.inl less)
      · have apart : ¬ rest <+: tail := fun begins => differs (List.cons_prefix_cons.2 ⟨rfl, begins⟩)
        exact List.cons_lt_cons_iff.2 (.inr ⟨rfl, ih further apart ⟨more, rfl⟩⟩)

theorem lt_above? {start stop key : Bytes} (bounds : above? start = some stop) (begins : start <+: key) :
    key < stop := by
  induction start generalizing stop key with
  | nil => cases bounds
  | cons first rest ih =>
    obtain ⟨more, rfl⟩ := begins
    rw [above?] at bounds
    cases next : above? rest with
    | some next =>
      simp only [next, Option.some.injEq] at bounds
      subst bounds
      exact List.cons_lt_cons_iff.2 (.inr ⟨rfl, ih next ⟨more, rfl⟩⟩)
    | none =>
      simp only [next] at bounds
      split at bounds
      · cases bounds
      · rename_i less
        cases bounds
        refine List.cons_lt_cons_iff.2 (.inl ?_)
        rw [UInt8.lt_iff_toNat_lt]
        have bound := first.toNat_lt
        have differ : first.toNat ≠ 255 := fun same => less (UInt8.toNat_inj.1 same)
        rw [UInt8.toNat_add, UInt8.toNat_one]
        omega

end FsMeta.Bytes
