import Keystroke.Proofs.Decimal.Arithmetic
import Mathlib.Data.Sign.Basic

/-!
# Results in normal form

A decimal is in normal form if it is written without needless zeros and signs. Whatever comes out
of `ofScaled` is in normal form, however many zeros the string of digits has at either end, and has
no more digits after the point than it was asked for. Results of arithmetic are made by `ofScaled`
only, so that a quotient which is cut off to nothing is a plain zero, also where the exact quotient
is negative.
-/

namespace Keystroke

namespace Decimal

/-- The integer part is a single zero or starts with another digit, the fraction does not end in a
zero, and a zero has no sign. -/
structure IsNormal (n : Decimal) : Prop where
  integer : n.integer = [0] ∨ n.integer.headD 0 ≠ 0
  fraction : n.fraction.getLast? ≠ some 0
  sign : n.negative = true → n.isZero = false

instance : DecidablePred IsNormal := fun n =>
  decidable_of_iff ((n.integer = [0] ∨ n.integer.headD 0 ≠ 0) ∧
      n.fraction.getLast? ≠ some 0 ∧ (n.negative = true → n.isZero = false))
    ⟨fun h => ⟨h.1, h.2.1, h.2.2⟩, fun h => ⟨h.integer, h.fraction, h.sign⟩⟩

section OfScaled

theorem dropLeadingZeros_cases (a : Digits) :
    dropLeadingZeros a = [0] ∨ (dropLeadingZeros a).headD 0 ≠ 0 := by
  unfold dropLeadingZeros
  split
  · exact .inl rfl
  · next d rest hsome => exact .inr (Digits.ne_zero_of_significant hsome)

theorem getLast?_dropTrailingZeros_ne (a : Digits) : (dropTrailingZeros a).getLast? ≠ some 0 := by
  intro hzero
  -- Seen from its end, the string loses its zeros in front.
  rw [dropTrailingZeros, List.getLast?_reverse] at hzero
  obtain ⟨rest, hrest⟩ := List.head?_eq_some_iff.mp hzero
  exact Digits.ne_zero_of_significant hrest rfl

theorem length_dropTrailingZeros_le (a : Digits) : (dropTrailingZeros a).length ≤ a.length := by
  obtain ⟨k, hk⟩ := exists_append_zeros a
  have hlength := congrArg List.length hk
  rw [List.length_append] at hlength
  omega

theorem isNormal_ofScaled (negative : Bool) (digits : Digits) (scale : Nat) :
    (ofScaled negative digits scale).IsNormal where
  integer := dropLeadingZeros_cases _
  fraction := getLast?_dropTrailingZeros_ne _
  sign := by
    rw [negative_ofScaled, Bool.and_eq_true, Bool.not_eq_true']
    exact And.right

/-- Of the places after the point, some may be left out and none is added. -/
theorem scale_ofScaled_le (negative : Bool) (digits : Digits) (scale : Nat) :
    (ofScaled negative digits scale).scale ≤ scale := by
  apply (length_dropTrailingZeros_le _).trans
  rw [List.length_drop]
  omega

end OfScaled

section Results

theorem isNormal_add (a b : Decimal) : (a.add b).IsNormal := by
  rw [add]
  split_ifs
  · exact isNormal_ofScaled _ _ _
  · exact isNormal_ofScaled _ _ _
  · exact isNormal_ofScaled _ _ _

theorem isNormal_sub (a b : Decimal) : (a.sub b).IsNormal := isNormal_add a b.negate

theorem isNormal_mul (a b : Decimal) : (a.mul b).IsNormal := isNormal_ofScaled _ _ _

end Results

section Quotient

variable {a b q : Decimal}

/-- A number cut off, towards zero, is its magnitude cut off, with its sign. -/
theorem truncate_eq_sign_mul (scale : Nat) (q : ℚ) :
    truncate scale q = SignType.sign q * (⌊|q| * 10 ^ scale⌋ / 10 ^ scale) := by
  rcases lt_trichotomy q 0 with hneg | rfl | hpos
  · rw [sign_neg hneg, abs_of_neg hneg]
    have hflip := truncate_signed scale true (neg_pos.mpr hneg).le
    rw [signed_true, signed_true, neg_neg] at hflip
    rw [hflip]
    simp
  · simp [truncate]
  · rw [sign_pos hpos, abs_of_pos hpos, truncate, if_pos hpos.le]
    simp

theorem isNormal_of_div {scale : Nat} (h : a.div b scale = .ok q) :
    q.IsNormal ∧ q.scale ≤ scale := by
  unfold div at h
  split at h
  · cases h
  · cases h
    exact ⟨isNormal_ofScaled _ _ _, scale_ofScaled_le _ _ _⟩

/-- Division fails for one reason only, and exactly where the divisor stands for zero. Otherwise it
gives the exact quotient, cut off towards zero after `scale` places and in normal form: a result
that is zero has no sign. -/
theorem div_truncates (a b : Decimal) (ha : a.WellFormed) (hb : b.WellFormed) (scale : Nat) :
    (∀ fault, a.div b scale = .error fault ↔
        fault = { kind := .divisionByZero } ∧ b.value = 0) ∧
      (b.value ≠ 0 → ∃ q, a.div b scale = .ok q ∧ q.WellFormed ∧ q.IsNormal ∧ q.scale ≤ scale ∧
        q.value = SignType.sign (a.value / b.value) *
          (⌊|a.value / b.value| * 10 ^ scale⌋ / 10 ^ scale) ∧
        (q.value = 0 → q.negative = false)) := by
  constructor
  · intro fault
    constructor
    · intro hfault
      by_cases hzero : b.value = 0
      · rw [div_eq_error scale hzero] at hfault
        exact ⟨(Except.error.inj hfault).symm, hzero⟩
      · obtain ⟨q, hq, -⟩ := div_eq_ok ha hb scale hzero
        rw [hq] at hfault
        cases hfault
    · rintro ⟨rfl, hzero⟩
      exact div_eq_error scale hzero
  · intro hzero
    obtain ⟨q, hq, hdigits, hvalue⟩ := div_eq_ok ha hb scale hzero
    obtain ⟨hnormal, hscale⟩ := isNormal_of_div hq
    refine ⟨q, hq, hdigits, hnormal, hscale, ?_, ?_⟩
    · rw [hvalue, truncate_eq_sign_mul]
    · intro hvanishes
      rw [← isZero_iff_value] at hvanishes
      apply Bool.eq_false_iff.mpr
      intro hsign
      rw [hnormal.sign hsign] at hvanishes
      cases hvanishes

/-- A tenth, with a sign and a needless zero, divided by three tenths without an integer part. The
quotient is cut off to a zero without a sign when it gets no places, and keeps its sign with two. -/
theorem div_truncates_vanishing :
    let a : Decimal := ⟨true, [0, 0], [1]⟩
    let b : Decimal := ⟨false, [], [3, 0]⟩
    a.WellFormed ∧ b.WellFormed ∧ b.value ≠ 0 ∧
      a.div b 0 = .ok ⟨false, [0], []⟩ ∧ a.div b 2 = .ok ⟨true, [0], [3, 3]⟩ ∧
      (⟨true, [0], [3, 3]⟩ : Decimal).value = SignType.sign (a.value / b.value) *
        (⌊|a.value / b.value| * 10 ^ 2⌋ / 10 ^ 2) := by
  intro a b
  have ha : a.WellFormed := by decide
  have hb : b.WellFormed := by decide
  have hzero : b.value ≠ 0 := by
    rw [ne_eq, ← isZero_iff_value]
    decide
  have hdiv : a.div b 2 = .ok ⟨true, [0], [3, 3]⟩ := by decide +kernel
  obtain ⟨q, hq, -, -, -, hvalue, -⟩ := (div_truncates a b ha hb 2).2 hzero
  refine ⟨ha, hb, hzero, by decide +kernel, hdiv, ?_⟩
  rw [hdiv] at hq
  cases hq
  exact hvalue

end Quotient

end Decimal

end Keystroke
