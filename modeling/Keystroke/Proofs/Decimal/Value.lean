import Keystroke.Decimal.Basic
import Keystroke.Proofs.Digits.Value
import Mathlib.Algebra.Order.Field.Rat
import Mathlib.Order.Compare
import Mathlib.Tactic.FieldSimp
import Mathlib.Tactic.Positivity

/-!
# The numbers behind decimals

The rational number that a decimal stands for, and how the two changes of form respect it:
`scaled` writes all digits as one string with a given number of places after the point, `ofScaled`
turns such a string into normal form. Order of decimals is order of rationals.
-/

namespace Keystroke

namespace Decimal

def WellFormed (n : Decimal) : Prop := n.integer.WellFormed ∧ n.fraction.WellFormed

instance (n : Decimal) : Decidable n.WellFormed := inferInstanceAs (Decidable (_ ∧ _))

def signed (negative : Bool) (q : ℚ) : ℚ := if negative then -q else q

def magnitude (n : Decimal) : ℚ := Digits.value (n.integer ++ n.fraction) / 10 ^ n.scale

/-- The number that a decimal stands for. -/
def value (n : Decimal) : ℚ := signed n.negative n.magnitude

@[simp] theorem signed_false (q : ℚ) : signed false q = q := rfl

@[simp] theorem signed_true (q : ℚ) : signed true q = -q := rfl

@[simp] theorem signed_zero (negative : Bool) : signed negative 0 = 0 := by
  cases negative <;> simp

theorem signed_not (negative : Bool) (q : ℚ) : signed (!negative) q = -signed negative q := by
  cases negative <;> simp

theorem signed_add (negative : Bool) (p q : ℚ) :
    signed negative (p + q) = signed negative p + signed negative q := by
  cases negative with
  | false => rfl
  | true => exact neg_add p q

theorem signed_sub (negative : Bool) (p q : ℚ) :
    signed negative (p - q) = signed negative p - signed negative q := by
  cases negative with
  | false => rfl
  | true =>
    simp only [signed_true]
    ring

theorem signed_mul_signed (r s : Bool) (p q : ℚ) :
    signed r p * signed s q = signed (r != s) (p * q) := by
  cases r <;> cases s <;> simp

theorem signed_div_signed (r s : Bool) (p q : ℚ) :
    signed r p / signed s q = signed (r != s) (p / q) := by
  cases r <;> cases s <;> simp [neg_div, div_neg]

theorem magnitude_nonneg (n : Decimal) : 0 ≤ n.magnitude := by
  unfold magnitude
  positivity

@[simp] theorem value_zero : zero.value = 0 := by
  simp [zero, value, magnitude, Digits.value_cons]

@[simp] theorem value_one : one.value = 1 := by
  simp [one, value, magnitude, scale, Digits.value_cons]

theorem value_ofBool (b : Bool) : (ofBool b).value = if b then 1 else 0 := by
  cases b <;> simp [ofBool]

@[simp] theorem wellFormed_zero : zero.WellFormed := by
  decide

theorem wellFormed_ofBool (b : Bool) : (ofBool b).WellFormed := by
  cases b <;> decide

theorem isZero_iff_magnitude (n : Decimal) : n.isZero = true ↔ n.magnitude = 0 := by
  have hten : (10 : ℚ) ^ n.scale ≠ 0 := by positivity
  rw [isZero, Bool.and_eq_true, Digits.isZero_iff_value_eq_zero,
    Digits.isZero_iff_value_eq_zero, magnitude, div_eq_zero_iff, Nat.cast_eq_zero,
    Digits.value_append]
  simp [hten]

theorem isZero_iff_value (n : Decimal) : n.isZero = true ↔ n.value = 0 := by
  rw [isZero_iff_magnitude, value]
  cases n.negative <;> simp

section Scaled

theorem WellFormed.scaled {n : Decimal} (hn : n.WellFormed) (scale : Nat) :
    (n.scaled scale).WellFormed := by
  simp [Decimal.scaled, hn.1, hn.2, Digits.wellFormed_zeros]

theorem length_scaled_self (n : Decimal) :
    (n.scaled n.scale).length = n.integer.length + n.fraction.length := by
  simp [scaled]

theorem magnitude_eq_scaled {n : Decimal} {scale : Nat} (h : n.scale ≤ scale) :
    n.magnitude = Digits.value (n.scaled scale) / 10 ^ scale := by
  have hten : (10 : ℚ) ^ scale = 10 ^ n.scale * 10 ^ (scale - n.scale) := by
    rw [← pow_add, Nat.add_sub_cancel' h]
  rw [scaled, Digits.value_append_zeros, magnitude, hten]
  push_cast
  field_simp

theorem value_eq_scaled {n : Decimal} {scale : Nat} (h : n.scale ≤ scale) :
    n.value = signed n.negative (Digits.value (n.scaled scale) / 10 ^ scale) := by
  rw [value, magnitude_eq_scaled h]

end Scaled

section OfScaled

theorem exists_zeros_append (a : Digits) : ∃ k, a = List.replicate k 0 ++ a.significant := by
  induction a with
  | nil => exact ⟨0, rfl⟩
  | cons d a ih =>
    by_cases hd : d = 0
    · obtain ⟨k, hk⟩ := ih
      refine ⟨k + 1, ?_⟩
      subst hd
      rw [Digits.significant, List.dropWhile_cons, if_pos (by rfl), ← Digits.significant,
        List.replicate_succ, List.cons_append, ← hk]
    · refine ⟨0, ?_⟩
      rw [Digits.significant, List.dropWhile_cons, if_neg (by simpa using hd)]
      rfl

theorem exists_append_zeros (a : Digits) :
    ∃ k, a = dropTrailingZeros a ++ List.replicate k 0 := by
  obtain ⟨k, hk⟩ := exists_zeros_append a.reverse
  refine ⟨k, ?_⟩
  have hreversed := congrArg List.reverse hk
  simpa [dropTrailingZeros, Digits.significant] using hreversed

/-- Zeros at the end of a fraction change its digits, but not the part of a whole that it is. -/
theorem fraction_dropTrailingZeros (a : Digits) :
    (Digits.value (dropTrailingZeros a) : ℚ) / 10 ^ (dropTrailingZeros a).length =
      Digits.value a / 10 ^ a.length := by
  obtain ⟨k, hk⟩ := exists_append_zeros a
  generalize dropTrailingZeros a = b at hk
  rw [hk, Digits.value_append_zeros, List.length_append, List.length_replicate, pow_add]
  push_cast
  field_simp

@[simp] theorem value_dropLeadingZeros (a : Digits) :
    Digits.value (dropLeadingZeros a) = Digits.value a := by
  unfold dropLeadingZeros
  split
  · next hnone =>
    rw [← Digits.value_significant a, hnone]
    rfl
  · next hsome => rw [← Digits.value_significant a, hsome]

theorem magnitude_eq_add (n : Decimal) :
    n.magnitude = Digits.value n.integer + Digits.value n.fraction / 10 ^ n.fraction.length := by
  rw [magnitude, Digits.value_append, scale]
  push_cast
  field_simp

theorem magnitude_ofScaled (negative : Bool) (digits : Digits) (scale : Nat) :
    (ofScaled negative digits scale).magnitude = Digits.value digits / 10 ^ scale := by
  have hpadded := Digits.value_zeros_append (scale - digits.length) digits
  rw [magnitude_eq_add, ofScaled, value_dropLeadingZeros, fraction_dropTrailingZeros]
  generalize hp : List.replicate (scale - digits.length) 0 ++ digits = padded at hpadded
  have hlength : (padded.drop (padded.length - scale)).length = scale := by
    have : scale ≤ padded.length := by
      rw [← hp, List.length_append, List.length_replicate]
      omega
    rw [List.length_drop]
    omega
  have hsplit := Digits.value_append (padded.take (padded.length - scale))
    (padded.drop (padded.length - scale))
  rw [List.take_append_drop, hpadded, hlength] at hsplit
  rw [hlength, hsplit]
  push_cast
  field_simp

theorem negative_ofScaled (negative : Bool) (digits : Digits) (scale : Nat) :
    (ofScaled negative digits scale).negative =
      (negative && !(ofScaled negative digits scale).isZero) := rfl

/-- A string of digits in normal form is the same number. A zero loses its sign, which makes no
difference. -/
theorem value_ofScaled (negative : Bool) (digits : Digits) (scale : Nat) :
    (ofScaled negative digits scale).value =
      signed negative (Digits.value digits / 10 ^ scale) := by
  rw [value, magnitude_ofScaled]
  by_cases hzero : (ofScaled negative digits scale).isZero = true
  · rw [isZero_iff_magnitude, magnitude_ofScaled] at hzero
    simp [hzero]
  · rw [negative_ofScaled]
    simp [hzero]

theorem wellFormed_ofScaled (negative : Bool) {digits : Digits} (scale : Nat)
    (h : digits.WellFormed) : (ofScaled negative digits scale).WellFormed := by
  have hpadded : Digits.WellFormed (List.replicate (scale - digits.length) 0 ++ digits) := by
    simp [h, Digits.wellFormed_zeros]
  constructor
  · have hlead : ∀ a : Digits, a.WellFormed → (dropLeadingZeros a).WellFormed := by
      intro a ha
      unfold dropLeadingZeros
      split
      · decide
      · next hsome => exact hsome ▸ ha.significant
    exact hlead _ (hpadded.of_subset (List.take_subset _ _))
  · have htrail : ∀ a : Digits, a.WellFormed → (dropTrailingZeros a).WellFormed := by
      intro a ha
      rw [dropTrailingZeros, Digits.wellFormed_reverse]
      exact (Digits.wellFormed_reverse.mpr ha).significant
    exact htrail _ (hpadded.of_subset (List.drop_subset _ _))

end OfScaled

section Order

variable {a b : Decimal}

theorem isBelowZero_iff (n : Decimal) : n.isBelowZero = true ↔ n.value < 0 := by
  have hnonneg := n.magnitude_nonneg
  rw [isBelowZero, Bool.and_eq_true, Bool.not_eq_true', ← Bool.not_eq_true,
    isZero_iff_magnitude, value]
  cases n.negative with
  | false => simpa using hnonneg
  | true => simpa using hnonneg.lt_iff_ne'.symm

theorem value_of_not_isBelowZero (h : a.isBelowZero = false) : a.value = a.magnitude := by
  rw [value]
  cases hsign : a.negative with
  | false => rfl
  | true =>
    have hzero : a.magnitude = 0 := by
      rw [← isZero_iff_magnitude]
      simpa [isBelowZero, hsign] using h
    simp [hzero]

theorem value_of_isBelowZero (h : a.isBelowZero = true) : a.value = -a.magnitude := by
  rw [isBelowZero, Bool.and_eq_true] at h
  rw [value, h.1, signed_true]

theorem compareMagnitude_eq (ha : a.WellFormed) (hb : b.WellFormed) :
    a.compareMagnitude b = cmp a.magnitude b.magnitude := by
  have hten : (0 : ℚ) < 10 ^ max a.scale b.scale := by positivity
  rw [compareMagnitude, Digits.compare_eq (ha.scaled _) (hb.scaled _),
    magnitude_eq_scaled (Nat.le_max_left a.scale b.scale),
    magnitude_eq_scaled (Nat.le_max_right a.scale b.scale)]
  generalize Digits.value (a.scaled _) = x
  generalize Digits.value (b.scaled _) = y
  rcases lt_trichotomy x y with hlt | rfl | hgt
  · rw [compare_lt_iff_lt.mpr hlt, eq_comm, cmp_eq_lt_iff]
    gcongr
  · rw [compare_eq_iff_eq.mpr rfl, cmp_self_eq_eq]
  · rw [compare_gt_iff_gt.mpr hgt, eq_comm, cmp_eq_gt_iff]
    gcongr

/-- The order of decimals is the order of the numbers they stand for. -/
theorem compare_eq_cmp (ha : a.WellFormed) (hb : b.WellFormed) :
    a.compare b = cmp a.value b.value := by
  have hsignA := isBelowZero_iff a
  have hsignB := isBelowZero_iff b
  rw [compare]
  cases hA : a.isBelowZero with
  | false =>
    have hA' : 0 ≤ a.value := not_lt.mp fun h => by simp [hsignA.mpr h] at hA
    cases hB : b.isBelowZero with
    | false =>
      rw [value_of_not_isBelowZero hA, value_of_not_isBelowZero hB]
      exact compareMagnitude_eq ha hb
    | true =>
      exact (lt_of_lt_of_le (hsignB.mp hB) hA').cmp_eq_gt.symm
  | true =>
    cases hB : b.isBelowZero with
    | false =>
      have hB' : 0 ≤ b.value := not_lt.mp fun h => by simp [hsignB.mpr h] at hB
      exact (lt_of_lt_of_le (hsignA.mp hA) hB').cmp_eq_lt.symm
    | true =>
      have hanti : StrictAnti fun q : ℚ => -q := fun _ _ h => neg_lt_neg h
      rw [value_of_isBelowZero hA, value_of_isBelowZero hB,
        hanti.cmp_map_eq a.magnitude b.magnitude]
      exact compareMagnitude_eq hb ha

/-- Decimals are equal if the numbers they stand for are. -/
theorem same_iff_value_eq (ha : a.WellFormed) (hb : b.WellFormed) :
    a.same b = true ↔ a.value = b.value := by
  rw [same, compare_eq_cmp ha hb, beq_iff_eq, cmp_eq_eq_iff]

end Order

end Decimal

end Keystroke
