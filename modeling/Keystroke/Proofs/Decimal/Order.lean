import Keystroke.Decimal.Arithmetic
import Keystroke.Proofs.Decimal.Value

/-!
# The order of decimals is total

Comparing two decimals compares the numbers they stand for, whatever zeros they are written with
and whatever sign a zero carries. So it is a total order in which exactly those are equal that
stand for the same number, and the four tests answer `1` or `0` as they would for numbers.
-/

namespace Keystroke

def Comparator.relation : Comparator → ℚ → ℚ → Prop
  | .greater => (· > ·)
  | .greaterEqual => (· ≥ ·)
  | .less => (· < ·)
  | .lessEqual => (· ≤ ·)

instance (t : Comparator) : DecidableRel t.relation :=
  match t with
  | .greater => inferInstanceAs (DecidableRel ((· > ·) : ℚ → ℚ → Prop))
  | .greaterEqual => inferInstanceAs (DecidableRel ((· ≥ ·) : ℚ → ℚ → Prop))
  | .less => inferInstanceAs (DecidableRel ((· < ·) : ℚ → ℚ → Prop))
  | .lessEqual => inferInstanceAs (DecidableRel ((· ≤ ·) : ℚ → ℚ → Prop))

theorem Comparator.holds_cmp_iff (t : Comparator) (p q : ℚ) :
    t.holds (cmp p q) = true ↔ t.relation p q := by
  cases t with
  | greater =>
    rw [holds, beq_iff_eq, cmp_eq_gt_iff]
    rfl
  | greaterEqual =>
    rw [holds, bne_iff_ne, Ne, cmp_eq_lt_iff, not_lt]
    rfl
  | less =>
    rw [holds, beq_iff_eq, cmp_eq_lt_iff]
    rfl
  | lessEqual =>
    rw [holds, bne_iff_ne, Ne, cmp_eq_gt_iff, not_lt]
    rfl

namespace Decimal

variable {a b c : Decimal}

theorem isLE_compare_iff (ha : a.WellFormed) (hb : b.WellFormed) :
    (a.compare b).isLE = true ↔ a.value ≤ b.value := by
  rw [compare_eq_cmp ha hb, Ordering.isLE_iff_ne_gt, cmp_eq_gt_iff, not_lt]

theorem apply_eq_ite (t : Comparator) (ha : a.WellFormed) (hb : b.WellFormed) :
    t.apply a b = if t.relation a.value b.value then one else zero := by
  rw [Comparator.apply, compare_eq_cmp ha hb]
  by_cases hrel : t.relation a.value b.value
  · rw [if_pos hrel, (t.holds_cmp_iff _ _).mpr hrel]
    rfl
  · rw [if_neg hrel, Bool.eq_false_iff.mpr (mt (t.holds_cmp_iff _ _).mp hrel)]
    rfl

/-- The order of decimals is the order of numbers: it is the same in both directions, transitive
and total, decimals are equal in it if they are the same number, and the tests answer
accordingly. -/
theorem compare_numeric (a b c : Decimal) (ha : a.WellFormed) (hb : b.WellFormed)
    (hc : c.WellFormed) :
    a.compare b = cmp a.value b.value ∧
      b.compare a = (a.compare b).swap ∧
      ((a.compare b).isLE = true → (b.compare c).isLE = true → (a.compare c).isLE = true) ∧
      ((a.compare b).isLE = true ∨ (b.compare a).isLE = true) ∧
      (a.same b = true ↔ a.compare b = .eq) ∧
      (a.same b = true ↔ a.value = b.value) ∧
      ∀ t : Comparator, t.apply a b = if t.relation a.value b.value then one else zero := by
  refine ⟨compare_eq_cmp ha hb, ?_, ?_, ?_, beq_iff_eq, same_iff_value_eq ha hb,
    fun t => apply_eq_ite t ha hb⟩
  · rw [compare_eq_cmp ha hb, compare_eq_cmp hb ha, cmp_swap]
  · rw [isLE_compare_iff ha hb, isLE_compare_iff hb hc, isLE_compare_iff ha hc]
    exact le_trans
  · rw [isLE_compare_iff ha hb, isLE_compare_iff hb ha]
    exact le_total _ _

/-- A zero with a sign, a zero without digits and a number without an integer part. The zeros are
the same number, and neither is below the other. -/
theorem compare_numeric_signedZero :
    let a : Decimal := ⟨true, [0], [0, 0]⟩
    let b : Decimal := ⟨false, [], []⟩
    let c : Decimal := ⟨false, [], [0, 5, 0]⟩
    a.WellFormed ∧ b.WellFormed ∧ c.WellFormed ∧
      a.same b = true ∧ a.value = b.value ∧
      (a.compare b).isLE = true ∧ (b.compare c).isLE = true ∧ (a.compare c).isLE = true ∧
      Comparator.less.apply a b = zero ∧ ¬ Comparator.less.relation a.value b.value := by
  intro a b c
  have ha : a.WellFormed := by decide
  have hb : b.WellFormed := by decide
  have hc : c.WellFormed := by decide
  have hsame : a.same b = true := by decide
  have hab : (a.compare b).isLE = true := by decide
  have hbc : (b.compare c).isLE = true := by decide
  obtain ⟨-, -, htrans, -, -, hvalue, htest⟩ := compare_numeric a b c ha hb hc
  refine ⟨ha, hb, hc, hsame, hvalue.mp hsame, hab, hbc, htrans hab hbc, by decide, ?_⟩
  intro hless
  have hone := htest .less
  rw [if_pos hless] at hone
  exact absurd hone (by decide)

end Decimal

end Keystroke
