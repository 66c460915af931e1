import Keystroke.Proofs.Decimal.Exactness

/-!
# One normal form for each number

Whatever arithmetic returns is in normal form, and two decimals in normal form that stand for the
same number are the same, digit for digit. The number that a result stands for depends on the values
of the operands only. So what holds for numbers holds for the digits: equal operands give identical
results, and sums and products obey the laws of commutativity, associativity and distributivity to
the last digit.
-/

namespace Keystroke

namespace Decimal

section Uniqueness

variable {m n : Decimal} {p q : ℚ}

theorem IsNormal.dropLeadingZeros_integer (h : n.IsNormal) :
    dropLeadingZeros n.integer = n.integer := by
  rcases h.integer with hzero | hlead
  · rw [hzero]
    rfl
  · cases hn : n.integer with
    | nil => simp [hn] at hlead
    | cons d rest =>
      have hd : d ≠ 0 := by simpa [hn] using hlead
      rw [dropLeadingZeros, Digits.significant, List.dropWhile_cons, if_neg (by simpa using hd)]

theorem IsNormal.dropTrailingZeros_fraction (h : n.IsNormal) :
    dropTrailingZeros n.fraction = n.fraction := by
  obtain ⟨k, hk⟩ := exists_append_zeros n.fraction
  cases k with
  | zero => simpa using hk.symm
  | succ k =>
    have hlast := h.fraction
    rw [hk] at hlast
    simp [List.replicate_succ'] at hlast

theorem dropLeadingZeros_of_value_eq {a b : Digits} (ha : a.WellFormed) (hb : b.WellFormed)
    (h : Digits.value a = Digits.value b) : dropLeadingZeros a = dropLeadingZeros b := by
  unfold dropLeadingZeros
  rw [Digits.significant_eq_of_value_eq ha hb h]

/-- The digits after the point, filled up with zeros to `scale` places. -/
def fractionTo (n : Decimal) (scale : Nat) : Digits :=
  n.fraction ++ List.replicate (scale - n.scale) 0

theorem scaled_eq_append (n : Decimal) (scale : Nat) :
    n.scaled scale = n.integer ++ n.fractionTo scale :=
  List.append_assoc _ _ _

theorem length_fractionTo {scale : Nat} (h : n.scale ≤ scale) :
    (n.fractionTo scale).length = scale := by
  rw [fractionTo, List.length_append, List.length_replicate, ← Decimal.scale]
  omega

theorem WellFormed.fractionTo (hn : n.WellFormed) (scale : Nat) :
    (n.fractionTo scale).WellFormed := by
  simp [Decimal.fractionTo, hn.2, Digits.wellFormed_zeros]

theorem dropTrailingZeros_fractionTo (n : Decimal) (scale : Nat) :
    dropTrailingZeros (n.fractionTo scale) = dropTrailingZeros n.fraction := by
  rw [dropTrailingZeros, fractionTo, List.reverse_append, List.reverse_replicate,
    List.dropWhile_append_of_pos (by simp), dropTrailingZeros]

/-- All digits in one string fall apart into the integer part and the fraction. -/
theorem value_scaled_div_mod (hn : n.WellFormed) {scale : Nat} (h : n.scale ≤ scale) :
    Digits.value (n.scaled scale) / 10 ^ scale = Digits.value n.integer ∧
      Digits.value (n.scaled scale) % 10 ^ scale = Digits.value (n.fractionTo scale) := by
  have hlt := Digits.value_lt (hn.fractionTo scale)
  rw [length_fractionTo h] at hlt
  rw [Nat.div_mod_unique (by positivity), scaled_eq_append, Digits.value_append,
    length_fractionTo h]
  exact ⟨by ring, hlt⟩

/-- Of two numbers in normal form that differ at most in their signs, the digits are the same. -/
theorem digits_eq_of_magnitude_eq (hm : m.WellFormed) (hn : n.WellFormed) (hm' : m.IsNormal)
    (hn' : n.IsNormal) (h : m.magnitude = n.magnitude) :
    m.integer = n.integer ∧ m.fraction = n.fraction := by
  obtain ⟨scale, hscaleM, hscaleN⟩ : ∃ scale, m.scale ≤ scale ∧ n.scale ≤ scale :=
    ⟨max m.scale n.scale, Nat.le_max_left _ _, Nat.le_max_right _ _⟩
  have hscaled : Digits.value (m.scaled scale) = Digits.value (n.scaled scale) := by
    rw [magnitude_eq_scaled hscaleM, magnitude_eq_scaled hscaleN,
      div_left_inj' (by positivity)] at h
    exact_mod_cast h
  obtain ⟨hintegerM, hfractionM⟩ := value_scaled_div_mod hm hscaleM
  obtain ⟨hintegerN, hfractionN⟩ := value_scaled_div_mod hn hscaleN
  constructor
  · rw [← hm'.dropLeadingZeros_integer, ← hn'.dropLeadingZeros_integer]
    apply dropLeadingZeros_of_value_eq hm.1 hn.1
    rw [← hintegerM, ← hintegerN, hscaled]
  · have hfilled : m.fractionTo scale = n.fractionTo scale := by
      apply Digits.eq_of_value_eq (hm.fractionTo scale) (hn.fractionTo scale)
      · rw [length_fractionTo hscaleM, length_fractionTo hscaleN]
      · rw [← hfractionM, ← hfractionN, hscaled]
    rw [← hm'.dropTrailingZeros_fraction, ← hn'.dropTrailingZeros_fraction,
      ← dropTrailingZeros_fractionTo m scale, ← dropTrailingZeros_fractionTo n scale, hfilled]

theorem signed_injective (negative : Bool) : Function.Injective (signed negative) := by
  cases negative with
  | false => exact Function.injective_id
  | true => exact neg_injective

/-- A number has one normal form. -/
theorem IsNormalFormOf.unique (hm : m.IsNormalFormOf p) (hn : n.IsNormalFormOf q) (h : p = q) :
    m = n := by
  have hsign : m.negative = n.negative := by
    rw [Bool.eq_iff_iff, hm.negative_iff, hn.negative_iff, h]
  have hmagnitude : m.magnitude = n.magnitude := by
    have hvalue : m.value = n.value := by rw [hm.value, hn.value, h]
    rw [Decimal.value, Decimal.value, hsign] at hvalue
    exact signed_injective n.negative hvalue
  obtain ⟨hinteger, hfraction⟩ :=
    digits_eq_of_magnitude_eq hm.digits hn.digits hm.normal hn.normal hmagnitude
  cases m
  cases n
  simp_all

end Uniqueness

section Laws

variable {a a' b b' c : Decimal}

/-- Operands that stand for the same numbers give identical results, or fail alike. -/
theorem apply_eq_of_value_eq (op : Operator) (scale : Option Nat) (ha : a.WellFormed)
    (ha' : a'.WellFormed) (hb : b.WellFormed) (hb' : b'.WellFormed) (hleft : a.value = a'.value)
    (hright : b.value = b'.value) (hfits : op = .times → a.FactorsFit b ∧ a'.FactorsFit b') :
    op.apply scale a b = op.apply scale a' b' := by
  cases op with
  | plus =>
    have hsum : a.add b = a'.add b' :=
      (isNormalFormOf_add ha hb).unique (isNormalFormOf_add ha' hb') (by rw [hleft, hright])
    exact congrArg Except.ok hsum
  | minus =>
    have hdifference : a.sub b = a'.sub b' :=
      (isNormalFormOf_sub ha hb).unique (isNormalFormOf_sub ha' hb') (by rw [hleft, hright])
    exact congrArg Except.ok hdifference
  | times =>
    obtain ⟨hfit, hfit'⟩ := hfits rfl
    have hproduct : a.mul b = a'.mul b' :=
      (isNormalFormOf_mul ha hb hfit).unique (isNormalFormOf_mul ha' hb' hfit')
        (by rw [hleft, hright])
    exact congrArg Except.ok hproduct
  | divide =>
    cases scale with
    | none => rfl
    | some scale =>
      change a.div b scale = a'.div b' scale
      by_cases hzero : b.value = 0
      · rw [div_eq_error scale hzero, div_eq_error scale (hright ▸ hzero)]
      · obtain ⟨q, hq, hquotient⟩ := exists_isNormalFormOf_div ha hb scale hzero
        obtain ⟨q', hq', hquotient'⟩ := exists_isNormalFormOf_div ha' hb' scale (hright ▸ hzero)
        rw [hq, hq', hquotient.unique hquotient' (by rw [hleft, hright])]

theorem add_assoc_digits (ha : a.WellFormed) (hb : b.WellFormed) (hc : c.WellFormed) :
    (a.add b).add c = a.add (b.add c) := by
  have hab := isNormalFormOf_add ha hb
  have hbc := isNormalFormOf_add hb hc
  apply (isNormalFormOf_add hab.digits hc).unique (isNormalFormOf_add ha hbc.digits)
  rw [hab.value, hbc.value, add_assoc]

theorem mul_assoc_digits (ha : a.WellFormed) (hb : b.WellFormed) (hc : c.WellFormed)
    (hab : a.FactorsFit b) (hbc : b.FactorsFit c) (hleft : (a.mul b).FactorsFit c)
    (hright : a.FactorsFit (b.mul c)) : (a.mul b).mul c = a.mul (b.mul c) := by
  have hfirst := isNormalFormOf_mul ha hb hab
  have hlast := isNormalFormOf_mul hb hc hbc
  apply (isNormalFormOf_mul hfirst.digits hc hleft).unique
    (isNormalFormOf_mul ha hlast.digits hright)
  rw [hfirst.value, hlast.value, mul_assoc]

theorem mul_add_digits (ha : a.WellFormed) (hb : b.WellFormed) (hc : c.WellFormed)
    (hab : a.FactorsFit b) (hac : a.FactorsFit c) (hsum : a.FactorsFit (b.add c)) :
    a.mul (b.add c) = (a.mul b).add (a.mul c) := by
  have hbc := isNormalFormOf_add hb hc
  have hleft := isNormalFormOf_mul ha hb hab
  have hright := isNormalFormOf_mul ha hc hac
  apply (isNormalFormOf_mul ha hbc.digits hsum).unique
    (isNormalFormOf_add hleft.digits hright.digits)
  rw [hbc.value, hleft.value, hright.value, mul_add]

/-- Arithmetic returns normal forms, of numbers that the values of the operands determine, and a
number has one normal form. Therefore arithmetic on digits is arithmetic: it does not see how its
operands are written, and keeps the laws of numbers to the last digit. Wherever the value of a
product matters, one of its factors has to be short enough. -/
theorem arithmetic_canonical (a a' b b' c : Decimal) (ha : a.WellFormed) (ha' : a'.WellFormed)
    (hb : b.WellFormed) (hb' : b'.WellFormed) (hc : c.WellFormed) :
    ((a.add b).IsNormal ∧ (a.sub b).IsNormal ∧ (a.mul b).IsNormal ∧
        ∀ scale q, a.div b scale = .ok q → q.IsNormal) ∧
      ((a.add b).IsNormalFormOf (a.value + b.value) ∧
        (a.sub b).IsNormalFormOf (a.value - b.value) ∧
        (a.FactorsFit b → (a.mul b).IsNormalFormOf (a.value * b.value)) ∧
        ∀ scale, b.value ≠ 0 → ∃ q, a.div b scale = .ok q ∧
          q.IsNormalFormOf (truncate scale (a.value / b.value))) ∧
      (a.IsNormal → b.IsNormal → a.value = b.value → a = b) ∧
      (a.same a' = true → b.same b' = true → ∀ (op : Operator) (scale : Option Nat),
        (op = .times → a.FactorsFit b ∧ a'.FactorsFit b') →
        op.apply scale a b = op.apply scale a' b') ∧
      a.add b = b.add a ∧
      (a.add b).add c = a.add (b.add c) ∧
      (a.FactorsFit b → a.mul b = b.mul a) ∧
      (a.FactorsFit b → b.FactorsFit c → (a.mul b).FactorsFit c → a.FactorsFit (b.mul c) →
        (a.mul b).mul c = a.mul (b.mul c)) ∧
      (a.FactorsFit b → a.FactorsFit c → a.FactorsFit (b.add c) →
        a.mul (b.add c) = (a.mul b).add (a.mul c)) := by
  refine ⟨?_, ?_, ?_, ?_, ?_, add_assoc_digits ha hb hc, ?_, mul_assoc_digits ha hb hc,
    mul_add_digits ha hb hc⟩
  · exact ⟨isNormal_add a b, isNormal_sub a b, isNormal_mul a b,
      fun _ _ hq => (isNormal_of_div hq).1⟩
  · exact ⟨isNormalFormOf_add ha hb, isNormalFormOf_sub ha hb, isNormalFormOf_mul ha hb,
      exists_isNormalFormOf_div ha hb⟩
  · intro hnormalA hnormalB hvalue
    exact IsNormalFormOf.unique ⟨ha, hnormalA, rfl⟩ ⟨hb, hnormalB, rfl⟩ hvalue
  · intro hsameA hsameB op scale hfits
    rw [same_iff_value_eq ha ha'] at hsameA
    rw [same_iff_value_eq hb hb'] at hsameB
    exact apply_eq_of_value_eq op scale ha ha' hb hb' hsameA hsameB hfits
  · exact (isNormalFormOf_add ha hb).unique (isNormalFormOf_add hb ha) (add_comm _ _)
  · intro hfits
    exact (isNormalFormOf_mul ha hb hfits).unique (isNormalFormOf_mul hb ha hfits.symm)
      (mul_comm _ _)

/-- Seven and a negative half, each written in two ways and none of them normal, and a third number
without an integer part. -/
theorem arithmetic_canonical_oddlyWritten :
    let a : Decimal := ⟨false, [0, 0, 7], []⟩
    let a' : Decimal := ⟨false, [7], [0]⟩
    let b : Decimal := ⟨true, [], [5, 0]⟩
    let b' : Decimal := ⟨true, [0, 0], [5]⟩
    let c : Decimal := ⟨false, [], [2, 5]⟩
    a.WellFormed ∧ a'.WellFormed ∧ b.WellFormed ∧ b'.WellFormed ∧ c.WellFormed ∧
      ¬ a.IsNormal ∧ ¬ a'.IsNormal ∧ ¬ b.IsNormal ∧ ¬ b'.IsNormal ∧
      a.sub b = ⟨false, [7], [5]⟩ ∧ (⟨false, [7], [5]⟩ : Decimal).IsNormal ∧
      a.div b 3 = .ok ⟨true, [1, 4], []⟩ ∧ (⟨true, [1, 4], []⟩ : Decimal).IsNormal ∧
      a.same a' = true ∧ b.same b' = true ∧ a.FactorsFit b ∧ a'.FactorsFit b' ∧
      Operator.times.apply none a b = .ok ⟨true, [3], [5]⟩ ∧
      Operator.times.apply none a' b' = .ok ⟨true, [3], [5]⟩ ∧
      a.FactorsFit c ∧ a.FactorsFit (b.add c) ∧
      a.mul (b.add c) = ⟨true, [1], [7, 5]⟩ ∧
      (a.mul b).add (a.mul c) = ⟨true, [1], [7, 5]⟩ := by
  intro a a' b b' c
  have ha : a.WellFormed := by decide
  have ha' : a'.WellFormed := by decide
  have hb : b.WellFormed := by decide
  have hb' : b'.WellFormed := by decide
  have hc : c.WellFormed := by decide
  have hodd : ¬ a.IsNormal ∧ ¬ a'.IsNormal ∧ ¬ b.IsNormal ∧ ¬ b'.IsNormal := by decide
  have hsub : a.sub b = ⟨false, [7], [5]⟩ := by cbv
  have hdiv : a.div b 3 = .ok ⟨true, [1, 4], []⟩ := by decide +kernel
  have hsameA : a.same a' = true := by decide
  have hsameB : b.same b' = true := by decide
  have hfits : a.FactorsFit b ∧ a'.FactorsFit b' := by decide
  have hac : a.FactorsFit c := by decide
  have hsum : a.FactorsFit (b.add c) := by decide +kernel
  have htimes : Operator.times.apply none a b = .ok ⟨true, [3], [5]⟩ := by cbv
  have hmul : a.mul (b.add c) = ⟨true, [1], [7, 5]⟩ := by decide +kernel
  obtain ⟨⟨-, hdifference, -, hquotient⟩, -, -, hcongr, -, -, -, -, hdistrib⟩ :=
    arithmetic_canonical a a' b b' c ha ha' hb hb' hc
  have hsameResult := hcongr hsameA hsameB .times none fun _ => hfits
  exact ⟨ha, ha', hb, hb', hc, hodd.1, hodd.2.1, hodd.2.2.1, hodd.2.2.2, hsub, hsub ▸ hdifference,
    hdiv, hquotient 3 _ hdiv, hsameA, hsameB, hfits.1, hfits.2, htimes, hsameResult ▸ htimes, hac,
    hsum, hmul, hdistrib hfits.1 hac hsum ▸ hmul⟩

end Laws

end Decimal

end Keystroke
