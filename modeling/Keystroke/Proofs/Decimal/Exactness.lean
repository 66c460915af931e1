import Keystroke.Proofs.Decimal.NormalForm
import Keystroke.Proofs.Digits.Accumulation

/-!
# Sums, differences and products are exact

A rational number with finitely many decimal places has a normal form, and arithmetic returns it:
`add`, `sub` and `mul` that of the exact result, `div` that of the exact quotient cut off. It does
not matter how the operands are written. They may carry any zeros at either end, a zero may carry a
sign, and either side of the point may be empty.
-/

namespace Keystroke

namespace Decimal

variable {a b n : Decimal} {q : ℚ}

/-- The decimal is made of digits, is in normal form and stands for `q`. -/
structure IsNormalFormOf (n : Decimal) (q : ℚ) : Prop where
  digits : n.WellFormed
  normal : n.IsNormal
  value : n.value = q

/-- The factors are not both too long for their product to be computed in words. -/
def FactorsFit (a b : Decimal) : Prop := min a.digitCount b.digitCount ≤ Digits.factorLimit

instance (a b : Decimal) : Decidable (a.FactorsFit b) := inferInstanceAs (Decidable (_ ≤ _))

theorem FactorsFit.symm (h : a.FactorsFit b) : b.FactorsFit a := by
  rw [FactorsFit, Nat.min_comm]
  exact h

/-- A sign is there below zero and nowhere else. -/
theorem IsNormalFormOf.negative_iff (h : n.IsNormalFormOf q) : n.negative = true ↔ q < 0 := by
  rw [← h.value, ← isBelowZero_iff, isBelowZero, Bool.and_eq_true, Bool.not_eq_true']
  exact ⟨fun hsign => ⟨hsign, h.normal.sign hsign⟩, And.left⟩

theorem IsNormalFormOf.not_negative (h : n.IsNormalFormOf q) (hzero : q = 0) :
    n.negative = false := by
  rw [← Bool.not_eq_true, h.negative_iff, hzero]
  exact lt_irrefl 0

section Operations

theorem isNormalFormOf_add (ha : a.WellFormed) (hb : b.WellFormed) :
    (a.add b).IsNormalFormOf (a.value + b.value) :=
  ⟨wellFormed_add ha hb, isNormal_add a b, value_add ha hb⟩

theorem isNormalFormOf_sub (ha : a.WellFormed) (hb : b.WellFormed) :
    (a.sub b).IsNormalFormOf (a.value - b.value) :=
  ⟨wellFormed_sub ha hb, isNormal_sub a b, value_sub ha hb⟩

theorem isNormalFormOf_mul (ha : a.WellFormed) (hb : b.WellFormed) (hfits : a.FactorsFit b) :
    (a.mul b).IsNormalFormOf (a.value * b.value) :=
  ⟨wellFormed_mul ha hb, isNormal_mul a b, value_mul ha hb hfits⟩

theorem exists_isNormalFormOf_div (ha : a.WellFormed) (hb : b.WellFormed) (scale : Nat)
    (hzero : b.value ≠ 0) :
    ∃ n, a.div b scale = .ok n ∧ n.IsNormalFormOf (truncate scale (a.value / b.value)) := by
  obtain ⟨n, hn, hdigits, hvalue⟩ := div_eq_ok ha hb scale hzero
  exact ⟨n, hn, hdigits, (isNormal_of_div hn).1, hvalue⟩

end Operations

section Sum

/-- Sums and differences are the normal forms of the exact ones. -/
theorem add_sub_exact (a b : Decimal) (ha : a.WellFormed) (hb : b.WellFormed) :
    (a.add b).IsNormalFormOf (a.value + b.value) ∧
      (a.value + b.value = 0 → (a.add b).negative = false) ∧
      (a.sub b).IsNormalFormOf (a.value - b.value) ∧
      (a.value - b.value = 0 → (a.sub b).negative = false) := by
  have hsum := isNormalFormOf_add ha hb
  have hdifference := isNormalFormOf_sub ha hb
  exact ⟨hsum, hsum.not_negative, hdifference, hdifference.not_negative⟩

/-- Ten and a negative hundredth, both with needless zeros. The sum borrows across the point from
places that are written on one side only. -/
theorem add_sub_exact_borrowing :
    let a : Decimal := ⟨false, [0, 1, 0], []⟩
    let b : Decimal := ⟨true, [], [0, 1, 0]⟩
    a.WellFormed ∧ b.WellFormed ∧
      a.add b = ⟨false, [9], [9, 9]⟩ ∧ a.sub b = ⟨false, [1, 0], [0, 1]⟩ ∧
      (⟨false, [9], [9, 9]⟩ : Decimal).IsNormalFormOf (a.value + b.value) ∧
      (⟨false, [1, 0], [0, 1]⟩ : Decimal).IsNormalFormOf (a.value - b.value) := by
  intro a b
  have ha : a.WellFormed := by decide
  have hb : b.WellFormed := by decide
  have hadd : a.add b = ⟨false, [9], [9, 9]⟩ := by decide +kernel
  have hsub : a.sub b = ⟨false, [1, 0], [0, 1]⟩ := by cbv
  obtain ⟨hsum, -, hdifference, -⟩ := add_sub_exact a b ha hb
  exact ⟨ha, hb, hadd, hsub, hadd ▸ hsum, hsub ▸ hdifference⟩

end Sum

section Product

/-- A product is the normal form of the exact one, as long as one of the factors has no more than
`Digits.factorLimit` digits. It is computed in 32-bit columns, none of which ever overflows. -/
theorem mul_exact_in_words (a b : Decimal) (ha : a.WellFormed) (hb : b.WellFormed)
    (hfits : min a.digitCount b.digitCount ≤ Digits.factorLimit) :
    (a.scaled a.scale).MultipliesInWords (b.scaled b.scale) ∧
      (a.mul b).IsNormalFormOf (a.value * b.value) ∧
      (a.value * b.value = 0 → (a.mul b).negative = false) := by
  have hproduct := isNormalFormOf_mul ha hb hfits
  refine ⟨?_, hproduct, hproduct.not_negative⟩
  apply Digits.multipliesInWords (ha.scaled _) (hb.scaled _)
  rw [length_scaled_self, length_scaled_self]
  exact hfits

/-- A negative factor, and one that has no integer part and a needless zero. Six columns are filled
with two products at most, and carrying leaves a digit in each. -/
theorem mul_exact_in_words_signed :
    let a : Decimal := ⟨true, [9, 9], [9]⟩
    let b : Decimal := ⟨false, [], [9, 9, 0]⟩
    a.WellFormed ∧ b.WellFormed ∧ min a.digitCount b.digitCount ≤ Digits.factorLimit ∧
      Digits.carried [9, 9, 9] [9, 9, 0] 0 = [0, 81, 162, 162, 81, 0] ∧
      Digits.carried [9, 9, 9] [9, 9, 0] 5 = [0, 1, 0, 9, 8, 9] ∧
      a.mul b = ⟨true, [9, 8], [9, 0, 1]⟩ ∧
      Digits.MultipliesInWords [9, 9, 9] [9, 9, 0] ∧
      (⟨true, [9, 8], [9, 0, 1]⟩ : Decimal).IsNormalFormOf (a.value * b.value) := by
  intro a b
  have ha : a.WellFormed := by decide
  have hb : b.WellFormed := by decide
  have hfits : min a.digitCount b.digitCount ≤ Digits.factorLimit := by decide
  have hmul : a.mul b = ⟨true, [9, 8], [9, 0, 1]⟩ := by decide +kernel
  obtain ⟨hwords, hproduct, -⟩ := mul_exact_in_words a b ha hb hfits
  exact ⟨ha, hb, hfits, by decide, by decide, hmul, hwords, hmul ▸ hproduct⟩

end Product

end Decimal

end Keystroke
