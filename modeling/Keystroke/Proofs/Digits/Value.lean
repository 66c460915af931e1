import Keystroke.Digits
import Mathlib.Tactic.Ring
import Mathlib.Tactic.Linarith

/-!
# The numbers behind digit strings

The value of a string in terms of its pieces, the value of a string that is written from its last
place on, and what order, sum and difference of strings mean for values. Strings may carry any
number of leading zeros; bytes that are no digits are excluded by `WellFormed`.
-/

namespace Keystroke

namespace Digits

section Value

theorem foldl_value (a : Digits) (n : Nat) :
    a.foldl (fun n d => 10 * n + d.toNat) n = n * 10 ^ a.length + value a := by
  induction a generalizing n with
  | nil => simp [value]
  | cons d a ih =>
    rw [value, List.foldl_cons, List.foldl_cons, ih, ih (10 * 0 + d.toNat), List.length_cons,
      pow_succ]
    ring

@[simp] theorem value_nil : value [] = 0 := rfl

theorem value_append (a b : Digits) : value (a ++ b) = value a * 10 ^ b.length + value b := by
  rw [value, List.foldl_append, ← value, foldl_value]

theorem value_cons (d : Digit) (a : Digits) :
    value (d :: a) = d.toNat * 10 ^ a.length + value a := by
  rw [value, List.foldl_cons, foldl_value]
  simp

@[simp] theorem value_replicate_zero (n : Nat) : value (List.replicate n 0) = 0 := by
  induction n with
  | zero => rfl
  | succ n ih => simp [List.replicate_succ, value_cons, ih]

theorem value_append_zeros (a : Digits) (n : Nat) :
    value (a ++ List.replicate n 0) = value a * 10 ^ n := by
  simp [value_append]

theorem value_zeros_append (n : Nat) (a : Digits) :
    value (List.replicate n 0 ++ a) = value a := by
  simp [value_append]

@[simp] theorem value_significant (a : Digits) : value a.significant = value a := by
  induction a with
  | nil => rfl
  | cons d a ih =>
    rw [significant, List.dropWhile_cons]
    split
    · next hd =>
      obtain rfl : d = 0 := by simpa using hd
      rw [← significant, ih, value_cons]
      simp
    · rfl

theorem isZero_iff_value_eq_zero (a : Digits) : a.isZero = true ↔ value a = 0 := by
  induction a with
  | nil => simp [isZero]
  | cons d a ih =>
    have hd : (d == 0) = true ↔ d.toNat = 0 := by
      rw [beq_iff_eq, ← UInt8.toNat_inj]
      rfl
    rw [isZero, List.all_cons, Bool.and_eq_true, ← isZero, ih, hd, value_cons]
    simp

/-- The value of a string that is written from its last place on. -/
def valueReversed : Digits → Nat
  | [] => 0
  | d :: a => d.toNat + 10 * valueReversed a

@[simp] theorem value_reverse (a : Digits) : value a.reverse = valueReversed a := by
  induction a with
  | nil => rfl
  | cons d a ih =>
    rw [List.reverse_cons, value_append, ih, value_cons, valueReversed]
    simp
    ring

@[simp] theorem valueReversed_reverse (a : Digits) : valueReversed a.reverse = value a := by
  rw [← value_reverse, List.reverse_reverse]

end Value

section WellFormed

@[simp] theorem wellFormed_nil : WellFormed [] := by
  simp [WellFormed]

@[simp] theorem wellFormed_cons {d : Digit} {a : Digits} :
    WellFormed (d :: a) ↔ d.toNat ≤ 9 ∧ WellFormed a := by
  simp only [WellFormed, List.forall_mem_cons, UInt8.le_iff_toNat_le]
  rfl

@[simp] theorem wellFormed_append {a b : Digits} :
    WellFormed (a ++ b) ↔ WellFormed a ∧ WellFormed b := by
  simp only [WellFormed, List.forall_mem_append]

@[simp] theorem wellFormed_reverse {a : Digits} : WellFormed a.reverse ↔ WellFormed a := by
  simp [WellFormed]

theorem wellFormed_zeros (n : Nat) : WellFormed (List.replicate n 0) := by
  intro d hd
  rw [List.eq_of_mem_replicate hd]
  decide

/-- Part of a string of digits is a string of digits. -/
theorem WellFormed.of_subset {a b : Digits} (hb : WellFormed b) (h : a ⊆ b) : WellFormed a :=
  fun d hd => hb d (h hd)

theorem WellFormed.significant {a : Digits} (ha : WellFormed a) : WellFormed a.significant :=
  ha.of_subset (List.dropWhile_subset _)

theorem value_lt {a : Digits} (ha : WellFormed a) : value a < 10 ^ a.length := by
  induction a with
  | nil => simp
  | cons d a ih =>
    obtain ⟨hd, ha⟩ := wellFormed_cons.mp ha
    calc value (d :: a) = d.toNat * 10 ^ a.length + value a := value_cons d a
      _ < d.toNat * 10 ^ a.length + 10 ^ a.length := Nat.add_lt_add_left (ih ha) _
      _ = (d.toNat + 1) * 10 ^ a.length := by ring
      _ ≤ 10 * 10 ^ a.length := Nat.mul_le_mul_right _ (by omega)
      _ = 10 ^ (d :: a).length := by rw [List.length_cons, pow_succ, Nat.mul_comm]

end WellFormed

section Compare

theorem compare_digit (x y : Digit) : Ord.compare x y = Ord.compare x.toNat y.toNat := by
  simp only [Ord.compare, compareOfLessAndEq, UInt8.lt_iff_toNat_lt, ← UInt8.toNat_inj]

/-- The leading places decide, and the rest only if they are equal. -/
theorem compare_place {m n v w unit : Nat} (hv : v < unit) (hw : w < unit) :
    (Ord.compare m n).then (Ord.compare v w) =
      Ord.compare (m * unit + v) (n * unit + w) := by
  rcases lt_trichotomy m n with hlt | rfl | hgt
  · have hscaled : (m + 1) * unit ≤ n * unit := Nat.mul_le_mul_right unit hlt
    have htotal : m * unit + v < n * unit + w := by linarith
    rw [compare_lt_iff_lt.mpr hlt, compare_lt_iff_lt.mpr htotal]
    rfl
  · rw [compare_eq_iff_eq.mpr rfl, Ordering.eq_then]
    rcases lt_trichotomy v w with hlt | rfl | hgt
    · rw [compare_lt_iff_lt.mpr hlt, compare_lt_iff_lt.mpr (by omega)]
    · rw [compare_eq_iff_eq.mpr rfl, compare_eq_iff_eq.mpr rfl]
    · rw [compare_gt_iff_gt.mpr hgt, compare_gt_iff_gt.mpr (by omega)]
  · have hscaled : (n + 1) * unit ≤ m * unit := Nat.mul_le_mul_right unit hgt
    have htotal : n * unit + w < m * unit + v := by linarith
    rw [compare_gt_iff_gt.mpr hgt, compare_gt_iff_gt.mpr htotal]
    rfl

/-- Strings of one length are ordered like their values. -/
theorem compareAligned_eq {a b : Digits} (ha : WellFormed a) (hb : WellFormed b)
    (hlength : a.length = b.length) :
    compareAligned a b = Ord.compare (value a) (value b) := by
  induction a generalizing b with
  | nil =>
    cases b with
    | nil => rfl
    | cons y b => simp at hlength
  | cons x a ih =>
    cases b with
    | nil => simp at hlength
    | cons y b =>
      obtain ⟨-, ha⟩ := wellFormed_cons.mp ha
      obtain ⟨-, hb⟩ := wellFormed_cons.mp hb
      have hlength : a.length = b.length := by simpa using hlength
      rw [compareAligned, ih ha hb hlength, compare_digit, value_cons, value_cons, hlength]
      exact compare_place (hlength ▸ value_lt ha) (value_lt hb)

theorem eq_of_compareAligned {a b : Digits} (h : compareAligned a b = .eq) : a = b := by
  induction a generalizing b with
  | nil =>
    cases b with
    | nil => rfl
    | cons y b => cases h
  | cons x a ih =>
    cases b with
    | nil => cases h
    | cons y b =>
      rw [compareAligned, Ordering.then_eq_eq, compare_digit, compare_eq_iff_eq,
        UInt8.toNat_inj] at h
      rw [h.1, ih h.2]

/-- Strings of one length with the same value are the same. -/
theorem eq_of_value_eq {a b : Digits} (ha : WellFormed a) (hb : WellFormed b)
    (hlength : a.length = b.length) (hvalue : value a = value b) : a = b := by
  apply eq_of_compareAligned
  rw [compareAligned_eq ha hb hlength, compare_eq_iff_eq]
  exact hvalue

/-- The first of the significant digits is not a zero. -/
theorem ne_zero_of_significant {a : Digits} {d : Digit} {rest : Digits}
    (h : a.significant = d :: rest) : d ≠ 0 := by
  intro hzero
  have hhead := List.head?_dropWhile_not (· == 0) a
  rw [← significant, h] at hhead
  simp [hzero] at hhead

/-- Without leading zeros the number of places bounds the value from below. -/
theorem le_value_of_significant {a : Digits} {d : Digit} {rest : Digits}
    (h : a.significant = d :: rest) : 10 ^ rest.length ≤ value (d :: rest) := by
  have hd : d ≠ 0 := ne_zero_of_significant h
  have hpos : 1 ≤ d.toNat := by
    rw [Nat.one_le_iff_ne_zero]
    exact fun hzero => hd (UInt8.toNat_inj.mp hzero)
  rw [value_cons]
  nlinarith [Nat.mul_le_mul_right (10 ^ rest.length) hpos]

/-- A string with fewer significant places is the smaller number. -/
theorem value_lt_of_length_lt {a b : Digits} (ha : WellFormed a)
    (h : a.significant.length < b.significant.length) : value a < value b := by
  rw [← value_significant a, ← value_significant b]
  cases hb : b.significant with
  | nil => simp [hb] at h
  | cons d rest =>
    rw [hb, List.length_cons] at h
    calc value a.significant < 10 ^ a.significant.length := value_lt ha.significant
      _ ≤ 10 ^ rest.length := Nat.pow_le_pow_right (by decide) (by omega)
      _ ≤ value (d :: rest) := le_value_of_significant hb

/-- The order of strings is the order of numbers. -/
theorem compare_eq {a b : Digits} (ha : WellFormed a) (hb : WellFormed b) :
    compare a b = Ord.compare (value a) (value b) := by
  rw [compare]
  rcases lt_trichotomy a.significant.length b.significant.length with hlt | heq | hgt
  · rw [compare_lt_iff_lt.mpr hlt, compare_lt_iff_lt.mpr (value_lt_of_length_lt ha hlt)]
    rfl
  · rw [compare_eq_iff_eq.mpr heq, Ordering.eq_then,
      compareAligned_eq ha.significant hb.significant heq, value_significant, value_significant]
  · rw [compare_gt_iff_gt.mpr hgt, compare_gt_iff_gt.mpr (value_lt_of_length_lt hb hgt)]
    rfl

/-- Strings with the same value differ in leading zeros only. -/
theorem significant_eq_of_value_eq {a b : Digits} (ha : WellFormed a) (hb : WellFormed b)
    (hvalue : value a = value b) : a.significant = b.significant := by
  have hsame : compare a b = .eq := by
    rw [compare_eq ha hb, compare_eq_iff_eq]
    exact hvalue
  rw [compare, Ordering.then_eq_eq] at hsame
  exact eq_of_compareAligned hsame.2

theorem compare_eq_lt_iff {a b : Digits} (ha : WellFormed a) (hb : WellFormed b) :
    compare a b = .lt ↔ value a < value b := by
  rw [compare_eq ha hb, compare_lt_iff_lt]

end Compare

section Sum

/-- The digit that stays in a place and the carry into the places behind it make up the sum in that
place. -/
theorem place_spec {sum : Digit} {rest : Digits} {v : Nat} (hsum : sum.toNat ≤ 19)
    (hrest : (sum / 10).toNat ≤ 1 →
      WellFormed rest ∧ valueReversed rest = v + (sum / 10).toNat) :
    WellFormed (sum % 10 :: rest) ∧ valueReversed (sum % 10 :: rest) = sum.toNat + 10 * v := by
  have hdigit : (sum % 10).toNat = sum.toNat % 10 := UInt8.toNat_mod sum 10
  have hcarry : (sum / 10).toNat = sum.toNat / 10 := UInt8.toNat_div sum 10
  obtain ⟨hwf, hvalue⟩ := hrest (by omega)
  rw [wellFormed_cons, valueReversed]
  exact ⟨⟨by omega, hwf⟩, by omega⟩

/-- A sum place by place has the value of the sum. A carry is at most one, so no place of the sum
exceeds a byte. -/
theorem addReversed_spec {a b : Digits} (carry : Digit) (ha : WellFormed a) (hb : WellFormed b)
    (hcarry : carry.toNat ≤ 1) :
    WellFormed (addReversed carry a b) ∧
      valueReversed (addReversed carry a b) =
        valueReversed a + valueReversed b + carry.toNat := by
  fun_induction addReversed carry a b with
  | case1 carry hpos =>
    refine ⟨?_, by simp [valueReversed]⟩
    rw [wellFormed_cons]
    exact ⟨by omega, wellFormed_nil⟩
  | case2 carry hzero =>
    have hzero : carry.toNat = 0 := by
      simpa [UInt8.lt_iff_toNat_lt] using hzero
    simp [valueReversed, hzero]
  | case3 carry x a ih =>
    obtain ⟨hx, ha⟩ := wellFormed_cons.mp ha
    have hsum : (x + carry).toNat = x.toNat + carry.toNat := by
      rw [UInt8.toNat_add]
      omega
    obtain ⟨hwf, hvalue⟩ := place_spec (by omega) (ih ha hb)
    refine ⟨hwf, ?_⟩
    simp only [valueReversed] at hvalue ⊢
    omega
  | case4 carry y b ih =>
    obtain ⟨hy, hb⟩ := wellFormed_cons.mp hb
    have hsum : (y + carry).toNat = y.toNat + carry.toNat := by
      rw [UInt8.toNat_add]
      omega
    obtain ⟨hwf, hvalue⟩ := place_spec (by omega) (ih ha hb)
    refine ⟨hwf, ?_⟩
    simp only [valueReversed] at hvalue ⊢
    omega
  | case5 carry x a y b ih =>
    obtain ⟨hx, ha⟩ := wellFormed_cons.mp ha
    obtain ⟨hy, hb⟩ := wellFormed_cons.mp hb
    have hsum : (x + y + carry).toNat = x.toNat + y.toNat + carry.toNat := by
      rw [UInt8.toNat_add, UInt8.toNat_add]
      omega
    obtain ⟨hwf, hvalue⟩ := place_spec (by omega) (ih ha hb)
    refine ⟨hwf, ?_⟩
    simp only [valueReversed] at hvalue ⊢
    omega

theorem WellFormed.add {a b : Digits} (ha : WellFormed a) (hb : WellFormed b) :
    WellFormed (a.add b) := by
  rw [Digits.add, wellFormed_reverse]
  exact (addReversed_spec 0 (wellFormed_reverse.mpr ha) (wellFormed_reverse.mpr hb)
    (by decide)).1

theorem value_add {a b : Digits} (ha : WellFormed a) (hb : WellFormed b) :
    value (a.add b) = value a + value b := by
  have hspec := addReversed_spec 0 (wellFormed_reverse.mpr ha) (wellFormed_reverse.mpr hb)
    (by decide)
  simpa [Digits.add] using hspec.2

end Sum

section Difference

/-- The last place of a number and the places before it. Where there is none it counts as zero. -/
theorem valueReversed_eq_headD {b : Digits} (hb : WellFormed b) :
    (b.headD 0).toNat ≤ 9 ∧ WellFormed b.tail ∧
      valueReversed b = (b.headD 0).toNat + 10 * valueReversed b.tail := by
  cases b with
  | nil => simp [valueReversed]
  | cons y b => simpa [valueReversed] using wellFormed_cons.mp hb

/-- A place and the borrow from it are taken away together. They fit into a byte. -/
theorem toNat_add_borrow {y borrow : Digit} (hy : y.toNat ≤ 9) (hborrow : borrow.toNat ≤ 1) :
    (y + borrow).toNat = y.toNat + borrow.toNat := by
  rw [UInt8.toNat_add]
  omega

/-- A place that borrows ten still fits into a byte. -/
theorem toNat_add_ten {x : Digit} (hx : x.toNat ≤ 9) : (x + 10).toNat = x.toNat + 10 := by
  rw [UInt8.toNat_add]
  change (x.toNat + 10) % 256 = _
  omega

/-- A difference place by place has the value of the difference. The borrow into a place never
exceeds what the places behind it still hold, so none is left over at the end. -/
theorem subReversed_spec {a b : Digits} (borrow : Digit) (ha : WellFormed a)
    (hb : WellFormed b) (hborrow : borrow.toNat ≤ 1)
    (hle : valueReversed b + borrow.toNat ≤ valueReversed a) :
    WellFormed (subReversed borrow a b) ∧
      valueReversed (subReversed borrow a b) + valueReversed b + borrow.toNat =
        valueReversed a := by
  induction a generalizing b borrow with
  | nil =>
    simp only [valueReversed] at hle
    simp only [subReversed, valueReversed, wellFormed_nil, true_and]
    omega
  | cons x a ih =>
    obtain ⟨hx, ha⟩ := wellFormed_cons.mp ha
    obtain ⟨hy, hrest, hvalue⟩ := valueReversed_eq_headD hb
    have htaken := toNat_add_borrow hy hborrow
    rw [valueReversed] at hle ⊢
    rw [subReversed]
    split
    · next hfits =>
      have hplace := UInt8.toNat_sub_of_le _ _ hfits
      rw [UInt8.le_iff_toNat_le] at hfits
      obtain ⟨hwf, hdiff⟩ := ih 0 ha hrest (by decide) (by simp; omega)
      rw [wellFormed_cons, valueReversed, hplace]
      simp only [UInt8.toNat_zero] at hdiff
      exact ⟨⟨by omega, hwf⟩, by omega⟩
    · next hborrows =>
      have hten := toNat_add_ten hx
      have hplace : (x + 10 - (b.headD 0 + borrow)).toNat =
          (x + 10).toNat - (b.headD 0 + borrow).toNat :=
        UInt8.toNat_sub_of_le _ _ (UInt8.le_iff_toNat_le.mpr (by omega))
      rw [UInt8.le_iff_toNat_le] at hborrows
      obtain ⟨hwf, hdiff⟩ := ih 1 ha hrest (by decide) (by simp; omega)
      rw [wellFormed_cons, valueReversed, hplace]
      simp only [UInt8.toNat_one] at hdiff
      exact ⟨⟨by omega, hwf⟩, by omega⟩

theorem WellFormed.sub {a b : Digits} (ha : WellFormed a) (hb : WellFormed b)
    (hle : value b ≤ value a) : WellFormed (a.sub b) := by
  rw [Digits.sub, wellFormed_reverse]
  exact (subReversed_spec 0 (wellFormed_reverse.mpr ha) (wellFormed_reverse.mpr hb)
    (by decide) (by simpa using hle)).1

theorem value_sub {a b : Digits} (ha : WellFormed a) (hb : WellFormed b)
    (hle : value b ≤ value a) : value (a.sub b) = value a - value b := by
  have hspec := subReversed_spec 0 (wellFormed_reverse.mpr ha)
    (wellFormed_reverse.mpr hb) (by decide) (by simpa using hle)
  rw [Digits.sub, value_reverse]
  simp only [valueReversed_reverse, UInt8.toNat_zero] at hspec
  omega

end Difference

end Digits

end Keystroke
