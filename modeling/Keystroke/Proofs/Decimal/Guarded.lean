import Keystroke.Proofs.Decimal.Arithmetic
import Keystroke.Proofs.Digits.Guarded

/-!
# Decimal arithmetic meets no hazard

Arithmetic and comparison of decimals, with every operation on digit strings guarded. What the
guards ask for is settled far from where it is needed: both operands are brought to a common number
of places, the greater magnitude is found before the smaller one is taken away from it, and a zero
divisor is refused. For decimals made of digits this is enough in every case, whatever their signs,
lengths and superfluous zeros are.
-/

namespace Keystroke

namespace Decimal

namespace Guarded

open Hazard

def scaled (n : Decimal) (scale : Nat) : Except Hazard Digits :=
  require (n.scale ≤ scale) .placesCut (n.scaled scale)

def ofScaled (negative : Bool) (digits : Digits) (scale : Nat) : Except Hazard Decimal :=
  require (Decimal.ofScaled negative digits scale).WellFormed .notDigit
    (Decimal.ofScaled negative digits scale)

def compareMagnitude (a b : Decimal) : Except Hazard Ordering := do
  let scale := max a.scale b.scale
  return Digits.compare (← scaled a scale) (← scaled b scale)

def compare (a b : Decimal) : Except Hazard Ordering :=
  match a.isBelowZero, b.isBelowZero with
  | false, true => return .gt
  | true, false => return .lt
  | false, false => compareMagnitude a b
  | true, true => compareMagnitude b a

def add (a b : Decimal) : Except Hazard Decimal := do
  let scale := Nat.max a.scale b.scale
  let x ← scaled a scale
  let y ← scaled b scale
  if a.negative = b.negative then ofScaled a.negative (← Digits.Guarded.add x y) scale
  else if Digits.compare x y = .lt then ofScaled b.negative (← Digits.Guarded.sub y x) scale
  else ofScaled a.negative (← Digits.Guarded.sub x y) scale

def sub (a b : Decimal) : Except Hazard Decimal := add a b.negate

def mul (a b : Decimal) : Except Hazard Decimal := do
  let digits ← Digits.Guarded.mul (← scaled a a.scale) (← scaled b b.scale)
  ofScaled (a.negative != b.negative) digits (a.scale + b.scale)

/-- `Decimal.div`, guarded. The refusal of a zero divisor is a result and not a hazard. -/
def div (a b : Decimal) (scale : Nat) : Except Hazard (Except Fault Decimal) :=
  if b.isZero then return .error { kind := .divisionByZero }
  else do
    let dividend := (← scaled a a.scale) ++ List.replicate (b.scale + scale) 0
    let divisor := (← scaled b b.scale) ++ List.replicate a.scale 0
    let quotient ← Digits.Guarded.div dividend divisor
    return .ok (← ofScaled (a.negative != b.negative) quotient scale)

def test (c : Comparator) (a b : Decimal) : Except Hazard Decimal := do
  return ofBool (c.holds (← compare a b))

variable {a b n : Decimal} {scale : Nat}

theorem scaled_eq_ok (h : n.scale ≤ scale) : scaled n scale = .ok (n.scaled scale) :=
  require_of h

theorem ofScaled_eq_ok (negative : Bool) {digits : Digits} (h : digits.WellFormed) :
    ofScaled negative digits scale = .ok (Decimal.ofScaled negative digits scale) :=
  require_of (wellFormed_ofScaled negative scale h)

/-- Both magnitudes are compared with as many places as the longer fraction has. -/
theorem compareMagnitude_eq_ok (a b : Decimal) :
    compareMagnitude a b = .ok (a.compareMagnitude b) := by
  simp only [compareMagnitude, scaled_eq_ok (Nat.le_max_left a.scale b.scale),
    scaled_eq_ok (Nat.le_max_right a.scale b.scale), ok_bind]
  rfl

theorem compare_eq_ok (a b : Decimal) : compare a b = .ok (a.compare b) := by
  rw [compare, Decimal.compare]
  cases a.isBelowZero <;> cases b.isBelowZero <;> simp [compareMagnitude_eq_ok]

theorem add_eq_ok (ha : a.WellFormed) (hb : b.WellFormed) : add a b = .ok (a.add b) := by
  have hx := ha.scaled (Nat.max a.scale b.scale)
  have hy := hb.scaled (Nat.max a.scale b.scale)
  simp only [add, Decimal.add, scaled_eq_ok (Nat.le_max_left a.scale b.scale),
    scaled_eq_ok (Nat.le_max_right a.scale b.scale), ok_bind]
  split_ifs with hsign hlt
  · rw [Digits.Guarded.add_eq_ok hx hy, ok_bind]
    exact ofScaled_eq_ok _ (hx.add hy)
  · rw [Digits.compare_eq_lt_iff hx hy] at hlt
    rw [Digits.Guarded.sub_eq_ok hy hx hlt.le, ok_bind]
    exact ofScaled_eq_ok _ (hy.sub hx hlt.le)
  · rw [Digits.compare_eq_lt_iff hx hy, not_lt] at hlt
    rw [Digits.Guarded.sub_eq_ok hx hy hlt, ok_bind]
    exact ofScaled_eq_ok _ (hx.sub hy hlt)

theorem sub_eq_ok (ha : a.WellFormed) (hb : b.WellFormed) : sub a b = .ok (a.sub b) :=
  add_eq_ok ha (wellFormed_negate hb)

theorem mul_eq_ok (ha : a.WellFormed) (hb : b.WellFormed) : mul a b = .ok (a.mul b) := by
  have hx := ha.scaled a.scale
  have hy := hb.scaled b.scale
  simp only [mul, scaled_eq_ok (Nat.le_refl a.scale), scaled_eq_ok (Nat.le_refl b.scale), ok_bind,
    Digits.Guarded.mul_eq_ok hx hy]
  exact ofScaled_eq_ok _ (hx.mul hy)

theorem div_eq_ok (ha : a.WellFormed) (hb : b.WellFormed) (scale : Nat) :
    div a b scale = .ok (a.div b scale) := by
  rw [div, Decimal.div]
  split_ifs with hzero
  · rfl
  · rw [isZero_iff_value] at hzero
    obtain ⟨hdividend, hdivisor, hpos⟩ := div_operands ha hb scale hzero
    simp only [scaled_eq_ok (Nat.le_refl a.scale), scaled_eq_ok (Nat.le_refl b.scale), ok_bind,
      Digits.Guarded.div_eq_ok hdividend hdivisor hpos,
      ofScaled_eq_ok _ (hdividend.div hdivisor hpos), pure_eq_ok]

theorem test_eq_ok (c : Comparator) (a b : Decimal) : test c a b = .ok (c.apply a b) := by
  rw [test, compare_eq_ok, ok_bind]
  rfl

end Guarded

/-- Decimals made of digits are compared, added, subtracted, multiplied, divided and tested without
any hazard: no sum of bytes exceeds a byte and no difference goes below zero, no carry is dropped,
no borrow is owed and no place but a zero is ignored in the end, every place that is written is a
digit, and nothing is cut off, taken away from less or divided by zero. What the guarded operations
return is what the operations return. -/
theorem arithmetic_without_hazard (a b : Decimal) (scale : Nat) (ha : a.WellFormed)
    (hb : b.WellFormed) :
    Guarded.compare a b = .ok (a.compare b) ∧
      Guarded.add a b = .ok (a.add b) ∧
      Guarded.sub a b = .ok (a.sub b) ∧
      Guarded.mul a b = .ok (a.mul b) ∧
      Guarded.div a b scale = .ok (a.div b scale) ∧
      ∀ c : Comparator, Guarded.test c a b = .ok (c.apply a b) :=
  ⟨Guarded.compare_eq_ok a b, Guarded.add_eq_ok ha hb, Guarded.sub_eq_ok ha hb,
    Guarded.mul_eq_ok ha hb, Guarded.div_eq_ok ha hb scale, fun c => Guarded.test_eq_ok c a b⟩

/-- A negative number with zeros in front, which make it longer than the number that it is added to
and that it divides. -/
theorem arithmetic_without_hazard_padded :
    let a : Decimal := ⟨false, [7], [2, 5]⟩
    let b : Decimal := ⟨true, [0, 0, 3], [5]⟩
    a.WellFormed ∧ b.WellFormed ∧
      Guarded.compare a b = .ok .gt ∧
      Guarded.add a b = .ok ⟨false, [3], [7, 5]⟩ ∧
      Guarded.sub a b = .ok ⟨false, [1, 0], [7, 5]⟩ ∧
      Guarded.mul a b = .ok ⟨true, [2, 5], [3, 7, 5]⟩ ∧
      Guarded.div a b 3 = .ok (.ok ⟨true, [2], [0, 7, 1]⟩) ∧
      Guarded.test .less a b = .ok zero := by
  intro a b
  have ha : a.WellFormed := by decide
  have hb : b.WellFormed := by decide
  have hcompare : a.compare b = .gt := by decide
  have hadd : a.add b = ⟨false, [3], [7, 5]⟩ := by decide +kernel
  have hsub : a.sub b = ⟨false, [1, 0], [7, 5]⟩ := by cbv
  have hmul : a.mul b = ⟨true, [2, 5], [3, 7, 5]⟩ := by decide +kernel
  have hdiv : a.div b 3 = .ok ⟨true, [2], [0, 7, 1]⟩ := by decide +kernel
  have hless : Comparator.less.apply a b = zero := by decide
  obtain ⟨hcompare', hadd', hsub', hmul', hdiv', htest⟩ := arithmetic_without_hazard a b 3 ha hb
  exact ⟨ha, hb, hcompare ▸ hcompare', hadd ▸ hadd', hsub ▸ hsub', hmul ▸ hmul', hdiv ▸ hdiv',
    hless ▸ htest .less⟩

end Decimal

end Keystroke
