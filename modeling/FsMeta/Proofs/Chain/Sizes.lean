import FsMeta.Chain.Truncation

set_option autoImplicit false

namespace FsMeta

def ChainBlock.cutTo (found : ChainBlock) (size : Int64) : ChainBlock where
  index := found.index
  entry := { found.entry with numberBytes := size, nextBlockId := 0 }
  block := { found.block with numberBytes := size }

namespace Chain

variable {chain front back : List ChainBlock} {last : ChainBlock} {residual : Int64}

def sizes : List ChainBlock → Int
  | [] => 0
  | head :: rest => head.block.numberBytes.toInt + sizes rest

def Summable (chain : List ChainBlock) : Prop := ∀ front, front <+: chain → fits (sizes front) = true

theorem summable_iff_fits :
    Summable chain ↔ ∀ front, front <+: chain → fits ((0 : Int64).toInt + sizes front) = true := by
  simp only [Summable, Int64.toInt_zero, Int.zero_add]

structure Ends (chain : List ChainBlock) (size : Int64) (front : List ChainBlock) (last : ChainBlock)
    (residual : Int64) (back : List ChainBlock) : Prop where
  split : chain = front ++ last :: back
  short : ∀ fewer, fewer <+: front → sizes fewer < size.toInt
  exact : sizes front + residual.toInt = size.toInt
  positive : 0 < residual
  bound : residual ≤ last.block.numberBytes

@[simp] theorem sizes_nil : sizes [] = 0 := rfl

@[simp] theorem sizes_cons (head : ChainBlock) (rest : List ChainBlock) :
    sizes (head :: rest) = head.block.numberBytes.toInt + sizes rest := rfl

@[simp] theorem sizes_append (front back : List ChainBlock) : sizes (front ++ back) = sizes front + sizes back := by
  induction front with
  | nil => simp
  | cons head rest ih => rw [List.cons_append, sizes_cons, sizes_cons, ih, Int.add_assoc]

theorem forall_prefix_cons {head : ChainBlock} {rest : List ChainBlock} {holds : List ChainBlock → Prop} :
    (∀ front, front <+: head :: rest → holds front) ↔
      holds [] ∧ ∀ front, front <+: rest → holds (head :: front) := by
  constructor
  · exact fun all => ⟨all [] List.nil_prefix, fun front leads => all _ (List.prefix_cons_inj head |>.2 leads)⟩
  · rintro ⟨start, others⟩ front leads
    cases front with
    | nil => exact start
    | cons first more =>
      obtain ⟨rfl, behind⟩ := List.cons_prefix_cons.1 leads
      exact others more behind

theorem toInt_add_of_fits {one two : Int64} (fit : fits (one.toInt + two.toInt) = true) :
    (one + two).toInt = one.toInt + two.toInt := by
  simp only [fits, Bool.and_eq_true, decide_eq_true_eq, Int64.toInt_minValue, Int64.toInt_maxValue] at fit
  rw [Int64.toInt_add, Int.bmod_eq_of_le (by omega) (by omega)]

theorem total?_of_fits {start : Int64}
    (sums : ∀ front, front <+: chain → fits (start.toInt + sizes front) = true) :
    ∃ total, total? start chain = some total ∧ total.toInt = start.toInt + sizes chain := by
  induction chain generalizing start with
  | nil => exact ⟨start, rfl, (Int.add_zero _).symm⟩
  | cons head rest ih =>
    obtain ⟨_, others⟩ := forall_prefix_cons.1 sums
    have here : fits (start.toInt + head.block.numberBytes.toInt) = true := by simpa using others [] List.nil_prefix
    simp only [sizes_cons, ← Int.add_assoc, ← toInt_add_of_fits here] at others
    obtain ⟨total, known, exact⟩ := ih others
    refine ⟨total, by rw [total?, if_pos here, known], ?_⟩
    rw [exact, toInt_add_of_fits here, sizes_cons, Int.add_assoc]

theorem fits_toInt (size : Int64) : fits size.toInt = true := by
  have least := size.le_toInt
  have most := size.toInt_lt
  simp only [fits, Bool.and_eq_true, decide_eq_true_eq, Int64.toInt_minValue, Int64.toInt_maxValue]
  omega

theorem fits_of_total? {start total : Int64} (known : total? start chain = some total) :
    ∀ front, front <+: chain → fits (start.toInt + sizes front) = true := by
  induction chain generalizing start with
  | nil =>
    intro front leads
    rw [List.prefix_nil.1 leads, sizes_nil, Int.add_zero]
    exact fits_toInt start
  | cons head rest ih =>
    rw [total?] at known
    split at known
    · rename_i here
      simp only [forall_prefix_cons, sizes_nil, Int.add_zero, sizes_cons, ← Int.add_assoc,
        ← toInt_add_of_fits here]
      exact ⟨fits_toInt start, ih known⟩
    · cases known

theorem total?_of_summable (sums : Summable chain) :
    ∃ total, total? 0 chain = some total ∧ total.toInt = sizes chain := by
  simpa only [Int64.toInt_zero, Int.zero_add] using total?_of_fits (summable_iff_fits.1 sums)

theorem total?_of_not_summable (overflows : ¬ Summable chain) : total? 0 chain = none := by
  cases known : total? 0 chain with
  | none => rfl
  | some total => exact absurd (summable_iff_fits.2 (fits_of_total? known)) overflows

theorem summable_iff : Summable chain ↔ (total? 0 chain).isSome := by
  by_cases sums : Summable chain
  · obtain ⟨total, known, _⟩ := total?_of_summable sums
    simp [sums, known]
  · simp [sums, total?_of_not_summable sums]

instance (chain : List ChainBlock) : Decidable (Summable chain) := decidable_of_iff _ summable_iff.symm

theorem exists_end {size : Int} (positive : 0 < size) (within : size ≤ sizes chain) : ∃ front last back,
    chain = front ++ last :: back ∧ (∀ fewer, fewer <+: front → sizes fewer < size) ∧
      size ≤ sizes front + last.block.numberBytes.toInt := by
  induction chain generalizing size with
  | nil => exact absurd positive (Int.not_lt.2 within)
  | cons head rest ih =>
    rw [sizes_cons] at within
    by_cases here : size ≤ head.block.numberBytes.toInt
    · refine ⟨[], head, rest, rfl, fun fewer leads => ?_, by simpa using here⟩
      rwa [List.prefix_nil.1 leads]
    · have left : size - head.block.numberBytes.toInt ≤ sizes rest := by omega
      obtain ⟨front, last, back, rfl, short, reaches⟩ := ih (by omega) left
      refine ⟨head :: front, last, back, rfl, forall_prefix_cons.2 ⟨positive, fun fewer leads => ?_⟩, ?_⟩
      · have less := short fewer leads
        rw [sizes_cons]
        omega
      · rw [sizes_cons]
        omega

theorem exists_ends {size : Int64} (positive : 0 < size) (within : size.toInt ≤ sizes chain) :
    ∃ front last residual back, Ends chain size front last residual back := by
  have above : 0 < size.toInt := Int64.lt_iff_toInt_lt.1 positive
  obtain ⟨front, last, back, split, short, reaches⟩ := exists_end above within
  have less := short front List.prefix_rfl
  have most := last.block.numberBytes.toInt_lt
  have residual : (Int64.ofInt (size.toInt - sizes front)).toInt = size.toInt - sizes front :=
    Int64.toInt_ofInt_of_le (by omega) (by omega)
  refine ⟨front, last, Int64.ofInt (size.toInt - sizes front), back, split, short, ?_, ?_, ?_⟩
  · omega
  · rw [Int64.lt_iff_toInt_lt, residual, Int64.toInt_zero]
    omega
  · rw [Int64.le_iff_toInt_le, residual]
    omega

/-- The sums are those of the sizes, and what stays of the last block is at most all of it. -/
theorem cut?_append {size before : Int64}
    (sums : ∀ fewer, fewer <+: front ++ last :: back → fits (before.toInt + sizes fewer) = true)
    (short : ∀ fewer, fewer <+: front → before.toInt + sizes fewer < size.toInt)
    (reaches : size.toInt ≤ before.toInt + sizes front + last.block.numberBytes.toInt) :
    ∃ residual, cut? size before (front ++ last :: back) = some { last, residual, dropped := back } ∧
      residual.toInt = size.toInt - (before.toInt + sizes front) := by
  induction front generalizing before with
  | nil =>
    obtain ⟨_, others⟩ := forall_prefix_cons.1 sums
    have here : fits (before.toInt + last.block.numberBytes.toInt) = true := by simpa using others [] List.nil_prefix
    have less := short [] List.prefix_rfl
    rw [sizes_nil, Int.add_zero] at less reaches
    have most := last.block.numberBytes.toInt_lt
    refine ⟨size - before, ?_, ?_⟩
    · rw [List.nil_append, cut?, if_pos (by rwa [Int64.le_iff_toInt_le, toInt_add_of_fits here])]
    · rw [Int64.toInt_sub, Int.bmod_eq_of_le (by omega) (by omega), sizes_nil, Int.add_zero]
  | cons head rest ih =>
    obtain ⟨_, others⟩ := forall_prefix_cons.1 sums
    have here : fits (before.toInt + head.block.numberBytes.toInt) = true := by simpa using others [] List.nil_prefix
    simp only [forall_prefix_cons, sizes_cons, ← Int.add_assoc, ← toInt_add_of_fits here] at others short reaches ⊢
    obtain ⟨_, short⟩ := short
    have beyond : before + head.block.numberBytes < size := by
      simpa [Int64.lt_iff_toInt_lt] using short [] List.nil_prefix
    obtain ⟨residual, cuts, exact⟩ := ih others short reaches
    exact ⟨residual, by rw [List.cons_append, cut?, if_neg (Int64.not_le.2 beyond), cuts], exact⟩

namespace Ends

variable {size less : Int64} (ends : Ends chain size front last residual back)
include ends

theorem cut?_eq (sums : Summable chain) : cut? size 0 chain = some { last, residual, dropped := back } := by
  have bound := Int64.le_iff_toInt_le.1 ends.bound
  have exact := ends.exact
  have split := ends.split
  subst split
  obtain ⟨stays, cuts, left⟩ :=
    cut?_append (summable_iff_fits.1 sums) (by simpa using ends.short) (by simp; omega)
  rw [Int64.toInt_zero, Int.zero_add] at left
  rw [cuts, Int64.toInt_inj.1 (show stays.toInt = residual.toInt by omega)]

theorem pos : 0 < size := by
  have above := ends.short [] List.nil_prefix
  rwa [Int64.lt_iff_toInt_lt]

theorem sizes_rest : sizes (front ++ [last.cutTo residual]) = size.toInt := by
  simpa [ChainBlock.cutTo] using ends.exact

theorem within {others behind : List ChainBlock} {other : ChainBlock} {left : Int64} (most : less ≤ size)
    (also : Ends chain less others other left behind) :
    (∃ mid, behind = mid ++ last :: back ∧
      Ends (front ++ [last.cutTo residual]) less others other left (mid ++ [last.cutTo residual])) ∨
    others = front ∧ other = last ∧ behind = back ∧ left ≤ residual ∧
      Ends (front ++ [last.cutTo residual]) less front (last.cutTo residual) left [] := by
  have order := Int64.le_iff_toInt_le.1 most
  have split := ends.split.symm.trans also.split
  have exact := ends.exact
  have bound := Int64.le_iff_toInt_le.1 ends.bound
  have here (same : front = others) : others = front ∧ other = last ∧ behind = back ∧ left ≤ residual ∧
      Ends (front ++ [last.cutTo residual]) less front (last.cutTo residual) left [] := by
    subst same
    obtain ⟨rfl, rfl⟩ := List.cons.inj (List.append_cancel_left split)
    have least : left ≤ residual := by
      have also := also.exact
      rw [Int64.le_iff_toInt_le]
      omega
    exact ⟨rfl, rfl, rfl, least, rfl, also.short, also.exact, also.positive, least⟩
  rcases List.append_eq_append_iff.1 split with ⟨mid, more, same⟩ | ⟨mid, more, same⟩
  · cases mid with
    | nil => exact .inr (here (by simpa using more.symm))
    | cons head rest =>
      -- The other front would reach the end of this block already.
      obtain ⟨rfl, rfl⟩ := List.cons.inj same
      have reached := also.short (front ++ [last]) ⟨rest, by rw [more, List.append_assoc]; rfl⟩
      rw [sizes_append, sizes_cons, sizes_nil] at reached
      omega
  · cases mid with
    | nil => exact .inr (here (by simpa using more))
    | cons head rest =>
      obtain ⟨rfl, rfl⟩ := List.cons.inj same
      refine .inl ⟨rest, rfl, ?_, also.short, also.exact, also.positive, also.bound⟩
      rw [more, List.append_assoc]
      rfl

end Ends

end Chain

end FsMeta
