import Keystroke.Decimal.Arithmetic
import Keystroke.Proofs.Decimal.Value
import Keystroke.Proofs.Digits.Product
import Keystroke.Proofs.Digits.Quotient
import Mathlib.Data.Rat.Floor

/-!
# Decimal arithmetic is arithmetic of rational numbers

Sums, differences and products are exact. A quotient is the exact one cut off, towards zero,
after the given number of places. Products are exact as long as one factor has at most
`Digits.factorLimit` digits.
-/

namespace Keystroke

namespace Decimal

variable {a b : Decimal}

/-- All digits of a number, before and after the point. -/
def digitCount (n : Decimal) : Nat := n.integer.length + n.fraction.length

/-- A rational number cut off, towards zero, after `scale` decimal places. -/
def truncate (scale : Nat) (q : ℚ) : ℚ :=
  (if 0 ≤ q then ⌊q * 10 ^ scale⌋ else ⌈q * 10 ^ scale⌉) / 10 ^ scale

section Sum

theorem wellFormed_add (ha : a.WellFormed) (hb : b.WellFormed) : (a.add b).WellFormed := by
  have hx := ha.scaled (Nat.max a.scale b.scale)
  have hy := hb.scaled (Nat.max a.scale b.scale)
  rw [add]
  split_ifs with hsign hlt
  · exact wellFormed_ofScaled _ _ (hx.add hy)
  · rw [Digits.compare_eq_lt_iff hx hy] at hlt
    exact wellFormed_ofScaled _ _ (hy.sub hx hlt.le)
  · rw [Digits.compare_eq_lt_iff hx hy, not_lt] at hlt
    exact wellFormed_ofScaled _ _ (hx.sub hy hlt)

theorem value_add (ha : a.WellFormed) (hb : b.WellFormed) :
    (a.add b).value = a.value + b.value := by
  have hx := ha.scaled (Nat.max a.scale b.scale)
  have hy := hb.scaled (Nat.max a.scale b.scale)
  rw [value_eq_scaled (Nat.le_max_left a.scale b.scale),
    value_eq_scaled (Nat.le_max_right a.scale b.scale), add]
  split_ifs with hsign hlt
  · rw [value_ofScaled, Digits.value_add hx hy, hsign, ← signed_add, ← add_div, ← Nat.cast_add]
  · rw [Digits.compare_eq_lt_iff hx hy] at hlt
    rw [value_ofScaled, Digits.value_sub hy hx hlt.le, Nat.cast_sub hlt.le, sub_div, signed_sub,
      Bool.eq_not.mpr hsign, signed_not, sub_eq_neg_add]
  · rw [Digits.compare_eq_lt_iff hx hy, not_lt] at hlt
    rw [value_ofScaled, Digits.value_sub hx hy hlt, Nat.cast_sub hlt, sub_div, signed_sub,
      Bool.eq_not.mpr (Ne.symm hsign), signed_not, sub_eq_add_neg]

end Sum

section Difference

theorem wellFormed_negate (ha : a.WellFormed) : a.negate.WellFormed := by
  rw [negate]
  split_ifs
  · exact ha
  · exact ha

theorem value_negate (a : Decimal) : a.negate.value = -a.value := by
  rw [negate]
  split_ifs with hzero
  · rw [isZero_iff_value] at hzero
    rw [hzero, neg_zero]
  · exact signed_not a.negative a.magnitude

theorem wellFormed_sub (ha : a.WellFormed) (hb : b.WellFormed) : (a.sub b).WellFormed :=
  wellFormed_add ha (wellFormed_negate hb)

theorem value_sub (ha : a.WellFormed) (hb : b.WellFormed) :
    (a.sub b).value = a.value - b.value := by
  rw [sub, value_add ha (wellFormed_negate hb), value_negate, ← sub_eq_add_neg]

end Difference

section Product

theorem wellFormed_mul (ha : a.WellFormed) (hb : b.WellFormed) : (a.mul b).WellFormed :=
  wellFormed_ofScaled _ _ ((ha.scaled _).mul (hb.scaled _))

theorem value_mul (ha : a.WellFormed) (hb : b.WellFormed)
    (hfits : min a.digitCount b.digitCount ≤ Digits.factorLimit) :
    (a.mul b).value = a.value * b.value := by
  rw [digitCount, ← length_scaled_self, digitCount, ← length_scaled_self] at hfits
  rw [mul, value_ofScaled, Digits.value_mul (ha.scaled _) (hb.scaled _) hfits,
    value_eq_scaled (Nat.le_refl a.scale), value_eq_scaled (Nat.le_refl b.scale),
    signed_mul_signed, div_mul_div_comm, ← pow_add, Nat.cast_mul]

end Product

section Quotient

theorem div_eq_error (scale : Nat) (hzero : b.value = 0) :
    a.div b scale = .error { kind := .divisionByZero } := by
  rw [div, if_pos ((isZero_iff_value b).mpr hzero)]

theorem truncate_signed (scale : Nat) (negative : Bool) {q : ℚ} (hq : 0 ≤ q) :
    truncate scale (signed negative q) = signed negative (⌊q * 10 ^ scale⌋ / 10 ^ scale) := by
  cases negative with
  | false => rw [signed_false, signed_false, truncate, if_pos hq]
  | true =>
    rcases hq.eq_or_lt with rfl | hpos
    · simp [truncate]
    · have hneg : ¬ 0 ≤ -q := by linarith
      rw [signed_true, signed_true, truncate, if_neg hneg, neg_mul, Int.ceil_neg, Int.cast_neg,
        neg_div]

/-- The two strings of digits that are divided: both operands as whole numbers, and as many
further zeros behind the dividend as the quotient gets places. -/
theorem magnitude_div_eq (a b : Decimal) (scale : Nat) :
    a.magnitude / b.magnitude * 10 ^ scale =
      (Digits.value (a.scaled a.scale ++ List.replicate (b.scale + scale) 0) : ℚ) /
        Digits.value (b.scaled b.scale ++ List.replicate a.scale 0) := by
  rw [Digits.value_append_zeros, Digits.value_append_zeros,
    magnitude_eq_scaled (Nat.le_refl a.scale), magnitude_eq_scaled (Nat.le_refl b.scale)]
  push_cast
  rw [pow_add]
  field_simp

/-- What is divided are digits, and the divisor is not zero. -/
theorem div_operands (ha : a.WellFormed) (hb : b.WellFormed) (scale : Nat) (hzero : b.value ≠ 0) :
    Digits.WellFormed (a.scaled a.scale ++ List.replicate (b.scale + scale) 0) ∧
      Digits.WellFormed (b.scaled b.scale ++ List.replicate a.scale 0) ∧
      0 < Digits.value (b.scaled b.scale ++ List.replicate a.scale 0) := by
  refine ⟨by simp [ha.scaled, Digits.wellFormed_zeros],
    by simp [hb.scaled, Digits.wellFormed_zeros], ?_⟩
  rw [Digits.value_append_zeros]
  refine Nat.mul_pos (Nat.pos_of_ne_zero ?_) (by positivity)
  intro hvalue
  rw [value_eq_scaled (Nat.le_refl b.scale), hvalue] at hzero
  simp at hzero

/-- Division by a number other than zero succeeds, and cuts off the exact quotient. -/
theorem div_eq_ok (ha : a.WellFormed) (hb : b.WellFormed) (scale : Nat) (hzero : b.value ≠ 0) :
    ∃ q, a.div b scale = .ok q ∧ q.WellFormed ∧
      q.value = truncate scale (a.value / b.value) := by
  obtain ⟨hdividend, hdivisor, hpos⟩ := div_operands ha hb scale hzero
  have hnonzero : b.isZero = false := by
    rw [← Bool.not_eq_true, isZero_iff_value]
    exact hzero
  refine ⟨_, by rw [div, hnonzero]; rfl, wellFormed_ofScaled _ _ (hdividend.div hdivisor hpos), ?_⟩
  rw [value_ofScaled, Digits.value_div hdividend hdivisor hpos, value, value, signed_div_signed,
    truncate_signed _ _ (div_nonneg a.magnitude_nonneg b.magnitude_nonneg), magnitude_div_eq,
    Rat.floor_natCast_div_natCast, ← Int.natCast_div, Int.cast_natCast]

end Quotient

end Decimal

end Keystroke
