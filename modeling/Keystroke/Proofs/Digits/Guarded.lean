import Keystroke.Proofs.Digits.Product
import Keystroke.Proofs.Digits.Quotient

/-!
# Guarded arithmetic on digit strings

The operations on digit strings compute with bytes and do not look at what they are given. A sum of
bytes that is too large starts again from zero, a difference ends with whatever its leading place
owes, and division stops after nine attempts in a place. Here each operation is repeated with a
guard at every step, and the first `Hazard` is reported in place of a result.

On digits no hazard is ever met, as long as the greater number is not taken away from the smaller
one and the divisor is not zero. So the guarded operations return what the operations return.
-/

namespace Keystroke

/-- What arithmetic on bytes passes over in silence. -/
inductive Hazard where
  /-- A sum of bytes is too large for a byte. -/
  | overflow
  /-- A byte is taken away from a smaller one. -/
  | underflow
  /-- A place is written that holds more than nine. -/
  | notDigit
  /-- The places of a sum do not make up the sum. -/
  | carryDropped
  /-- A difference has come to its end and still owes a borrow. -/
  | borrowOwed
  /-- Places that only the subtrahend has are ignored and are not all zero. -/
  | placesIgnored
  /-- A number is taken away from a smaller one. -/
  | minuendTooSmall
  /-- A number is divided by zero. -/
  | divisorZero
  /-- The divisor still fits when all attempts in a place are used up. -/
  | placeUnfinished
  /-- A number is written with fewer places after the point than it has. -/
  | placesCut
  deriving DecidableEq, Repr

/-- The result `x`, or the hazard if the condition fails. -/
def Hazard.require {α : Type} (p : Prop) [Decidable p] (hazard : Hazard) (x : α) :
    Except Hazard α :=
  if p then .ok x else .error hazard

section Require

variable {α β : Type} {p : Prop} [Decidable p]

theorem Hazard.require_of {hazard : Hazard} {x : α} (h : p) :
    Hazard.require p hazard x = .ok x := if_pos h

theorem Hazard.require_eq_ok_iff {hazard : Hazard} {x y : α} :
    Hazard.require p hazard x = .ok y ↔ p ∧ x = y := by
  rw [Hazard.require]
  split_ifs with h <;> simp [h]

@[simp] theorem Hazard.ok_bind (x : α) (f : α → Except Hazard β) :
    (Except.ok x >>= f) = f x := rfl

@[simp] theorem Hazard.pure_eq_ok (x : α) : (pure x : Except Hazard α) = .ok x := rfl

end Require

namespace Digits

namespace Guarded

open Hazard

def plus (x y : Digit) : Except Hazard Digit :=
  require (x.toNat + y.toNat < UInt8.size) .overflow (x + y)

def minus (x y : Digit) : Except Hazard Digit := require (y ≤ x) .underflow (x - y)

/-- A byte that is written as a place of a number. -/
def digit (d : Digit) : Except Hazard Digit := require (d ≤ 9) .notDigit d

/-- One place of a sum, and the carry out of it. -/
def addPlace (x y carry : Digit) : Except Hazard (Digit × Digit) := do
  let sum ← plus (← plus x y) carry
  return (← digit (sum % 10), sum / 10)

/-- `Digits.addReversed`, guarded. A place that is missing counts as zero. -/
def addReversed (carry : Digit) : Digits → Digits → Except Hazard Digits
  | [], [] => if carry > 0 then return [← digit carry] else return []
  | x :: a, [] => do
    let (d, carry) ← addPlace x 0 carry
    return d :: (← addReversed carry a [])
  | [], y :: b => do
    let (d, carry) ← addPlace 0 y carry
    return d :: (← addReversed carry [] b)
  | x :: a, y :: b => do
    let (d, carry) ← addPlace x y carry
    return d :: (← addReversed carry a b)

def add (a b : Digits) : Except Hazard Digits := do
  let sum := (← addReversed 0 a.reverse b.reverse).reverse
  require (value sum = value a + value b) .carryDropped sum

def subReversed (borrow : Digit) : Digits → Digits → Except Hazard Digits
  | [], b => do
    require (borrow = 0) .borrowOwed ()
    require (b.isZero = true) .placesIgnored []
  | x :: a, b => do
    let taken ← plus (b.headD 0) borrow
    if taken ≤ x then
      let d ← digit (← minus x taken)
      return d :: (← subReversed 0 a b.tail)
    else
      let d ← digit (← minus (← plus x 10) taken)
      return d :: (← subReversed 1 a b.tail)

def sub (a b : Digits) : Except Hazard Digits := do
  require (compare a b ≠ .lt) .minuendTooSmall ()
  return (← subReversed 0 a.reverse b.reverse).reverse

def mul (a b : Digits) : Except Hazard Digits :=
  require (a.mul b).WellFormed .notDigit (a.mul b)

def takeAway (b : Digits) : (n : Nat) → (q : Digit) → (rest : Digits) →
    Except Hazard (Digit × Digits)
  | 0, q, rest => require (compare rest b = .lt) .placeUnfinished (q, rest)
  | n + 1, q, rest =>
    if compare rest b = .lt then return (q, rest)
    else do takeAway b n (← plus q 1) (← sub rest b)

def divFrom (b : Digits) : (rest : Digits) → (a : Digits) → Except Hazard Digits
  | _, [] => return []
  | rest, d :: a => do
    let (q, rest) ← takeAway b 9 0 (rest ++ [d])
    return (← digit q) :: (← divFrom b rest a)

def div (a b : Digits) : Except Hazard Digits := do
  require (b.significant ≠ []) .divisorZero ()
  divFrom b.significant [] a

section Bytes

variable {x y z d : Digit}

/-- A sum of bytes passes if it is the sum of the numbers in them. -/
theorem plus_eq_ok_iff : plus x y = .ok z ↔ z.toNat = x.toNat + y.toNat := by
  rw [plus, require_eq_ok_iff, ← UInt8.toNat_inj, UInt8.toNat_add]
  have hz := z.toNat_lt
  simp only [UInt8.size]
  omega

/-- A difference of bytes passes if it is the difference of the numbers in them. -/
theorem minus_eq_ok_iff : minus x y = .ok z ↔ z.toNat + y.toNat = x.toNat := by
  rw [minus, require_eq_ok_iff]
  constructor
  · rintro ⟨hle, rfl⟩
    rw [UInt8.toNat_sub_of_le _ _ hle]
    exact Nat.sub_add_cancel (UInt8.le_iff_toNat_le.mp hle)
  · intro hsum
    have hle : y ≤ x := UInt8.le_iff_toNat_le.mpr (by omega)
    refine ⟨hle, ?_⟩
    rw [← UInt8.toNat_inj, UInt8.toNat_sub_of_le _ _ hle]
    omega

theorem digit_of_le (hd : d.toNat ≤ 9) : digit d = .ok d :=
  require_of (UInt8.le_iff_toNat_le.mpr hd)

end Bytes

variable {a b rest : Digits}

section Sum

/-- Two digits and a carry are far from the limit of a byte, and carry one at most. -/
theorem addPlace_eq_ok {x y carry : Digit} (hx : x.toNat ≤ 9) (hy : y.toNat ≤ 9)
    (hcarry : carry.toNat ≤ 1) :
    addPlace x y carry = .ok ((x + y + carry) % 10, (x + y + carry) / 10) ∧
      ((x + y + carry) / 10).toNat ≤ 1 := by
  have hpair : (x + y).toNat = x.toNat + y.toNat := by
    rw [UInt8.toNat_add]
    omega
  have hsum : (x + y + carry).toNat = (x + y).toNat + carry.toNat := by
    rw [UInt8.toNat_add]
    omega
  have hplace : ((x + y + carry) % 10).toNat = (x + y + carry).toNat % 10 := UInt8.toNat_mod _ _
  have hnext : ((x + y + carry) / 10).toNat = (x + y + carry).toNat / 10 := UInt8.toNat_div _ _
  refine ⟨?_, by omega⟩
  rw [addPlace, plus_eq_ok_iff.mpr hpair, ok_bind, plus_eq_ok_iff.mpr hsum, ok_bind,
    digit_of_le (by omega)]
  rfl

theorem addReversed_eq_ok (carry : Digit) (ha : WellFormed a) (hb : WellFormed b)
    (hcarry : carry.toNat ≤ 1) :
    addReversed carry a b = .ok (Digits.addReversed carry a b) := by
  fun_induction Digits.addReversed carry a b with
  | case1 carry hpos =>
    rw [addReversed, if_pos hpos, digit_of_le (by omega)]
    rfl
  | case2 carry hzero =>
    rw [addReversed, if_neg hzero]
    rfl
  | case3 carry x a ih =>
    obtain ⟨hx, ha⟩ := wellFormed_cons.mp ha
    obtain ⟨hplace, hnext⟩ := addPlace_eq_ok (y := 0) hx (by decide) hcarry
    rw [UInt8.add_zero] at hplace hnext
    simp only [addReversed, hplace, ih ha hb hnext, ok_bind, pure_eq_ok]
  | case4 carry y b ih =>
    obtain ⟨hy, hb⟩ := wellFormed_cons.mp hb
    obtain ⟨hplace, hnext⟩ := addPlace_eq_ok (x := 0) (by decide) hy hcarry
    rw [UInt8.zero_add] at hplace hnext
    simp only [addReversed, hplace, ih ha hb hnext, ok_bind, pure_eq_ok]
  | case5 carry x a y b ih =>
    obtain ⟨hx, ha⟩ := wellFormed_cons.mp ha
    obtain ⟨hy, hb⟩ := wellFormed_cons.mp hb
    obtain ⟨hplace, hnext⟩ := addPlace_eq_ok hx hy hcarry
    simp only [addReversed, hplace, ih ha hb hnext, ok_bind, pure_eq_ok]

theorem add_eq_ok (ha : WellFormed a) (hb : WellFormed b) : add a b = .ok (a.add b) := by
  have hplaces := addReversed_eq_ok 0 (wellFormed_reverse.mpr ha) (wellFormed_reverse.mpr hb)
    (by decide)
  rw [add, hplaces, ok_bind]
  exact require_of (value_add ha hb)

example : add [2, 200] [100] = .error .overflow := by cbv

end Sum

section Difference

theorem isZero_of_valueReversed (h : valueReversed b = 0) : b.isZero = true := by
  have hreversed : isZero b.reverse = true := by
    rw [isZero_iff_value_eq_zero, value_reverse]
    exact h
  simpa [isZero] using hreversed

/-- What the places before still hold pays for the borrow from them. At the end they hold nothing,
so nothing is owed, and the places that are ignored are zeros. -/
theorem subReversed_eq_ok (borrow : Digit) (ha : WellFormed a) (hb : WellFormed b)
    (hborrow : borrow.toNat ≤ 1) (hle : valueReversed b + borrow.toNat ≤ valueReversed a) :
    subReversed borrow a b = .ok (Digits.subReversed borrow a b) := by
  induction a generalizing b borrow with
  | nil =>
    rw [valueReversed] at hle
    have hpaid : borrow = 0 := UInt8.toNat_inj.mp (by simp; omega)
    rw [subReversed, require_of hpaid, ok_bind, require_of (isZero_of_valueReversed (by omega))]
    rfl
  | cons x a ih =>
    obtain ⟨hx, ha⟩ := wellFormed_cons.mp ha
    obtain ⟨hy, hrest, hvalue⟩ := valueReversed_eq_headD hb
    have htaken := toNat_add_borrow hy hborrow
    rw [valueReversed] at hle
    rw [subReversed, plus_eq_ok_iff.mpr htaken, ok_bind, Digits.subReversed]
    split
    · next hfits =>
      have hplace := UInt8.toNat_sub_of_le _ _ hfits
      rw [UInt8.le_iff_toNat_le] at hfits
      have hminus : minus x (b.headD 0 + borrow) = .ok (x - (b.headD 0 + borrow)) :=
        minus_eq_ok_iff.mpr (by omega)
      rw [hminus, ok_bind, digit_of_le (by omega), ok_bind,
        ih 0 ha hrest (by decide) (by simp; omega)]
      rfl
    · next hborrows =>
      have hten := toNat_add_ten hx
      have hplace : (x + 10 - (b.headD 0 + borrow)).toNat =
          (x + 10).toNat - (b.headD 0 + borrow).toNat :=
        UInt8.toNat_sub_of_le _ _ (UInt8.le_iff_toNat_le.mpr (by omega))
      rw [UInt8.le_iff_toNat_le] at hborrows
      have hminus : minus (x + 10) (b.headD 0 + borrow) = .ok (x + 10 - (b.headD 0 + borrow)) :=
        minus_eq_ok_iff.mpr (by omega)
      rw [plus_eq_ok_iff.mpr hten, ok_bind, hminus, ok_bind, digit_of_le (by omega), ok_bind,
        ih 1 ha hrest (by decide) (by simp; omega)]
      rfl

theorem sub_eq_ok (ha : WellFormed a) (hb : WellFormed b) (hle : value b ≤ value a) :
    sub a b = .ok (a.sub b) := by
  have hfits : compare a b ≠ .lt := by
    rw [Ne, compare_eq_lt_iff ha hb, not_lt]
    exact hle
  have hplaces := subReversed_eq_ok 0 (wellFormed_reverse.mpr ha) (wellFormed_reverse.mpr hb)
    (by decide) (by simpa using hle)
  rw [sub, require_of hfits, ok_bind, hplaces]
  rfl

-- Past the first guard, the places give the smaller minuend away.
example : sub [5] [1, 3] = .error .minuendTooSmall := by decide
example : subReversed 0 [5] [3, 1] = .error .placesIgnored := by decide
example : subReversed 0 [1] [2] = .error .borrowOwed := by decide

end Difference

theorem mul_eq_ok (ha : WellFormed a) (hb : WellFormed b) : mul a b = .ok (a.mul b) :=
  require_of (ha.mul hb)

section Quotient

/-- The divisor does not fit any more when the attempts are used up, so they are enough. -/
theorem takeAway_eq_ok {n : Nat} (q : Digit) (hb : WellFormed b) (hrest : WellFormed rest)
    (hfits : value rest < (n + 1) * value b) (hq : q.toNat + n ≤ 9) :
    takeAway b n q rest = .ok (Digits.takeAway b n q rest) := by
  induction n generalizing q rest with
  | zero =>
    apply require_of
    rw [compare_eq_lt_iff hrest hb]
    simpa using hfits
  | succ n ih =>
    rw [takeAway, Digits.takeAway]
    split
    · rfl
    · next hless =>
      obtain ⟨hle, hwell, -⟩ := sub_of_fits hb hrest hless
      have hnext := toNat_add_one (q := q) (by omega)
      have hbound := value_sub_lt_of_fits hb hrest hless hfits
      rw [plus_eq_ok_iff.mpr hnext, ok_bind, sub_eq_ok hrest hb hle, ok_bind]
      exact ih (q + 1) hwell hbound (by omega)

theorem divFrom_eq_ok (hb : WellFormed b) (hrest : WellFormed rest) (ha : WellFormed a)
    (hlt : value rest < value b) : divFrom b rest a = .ok (Digits.divFrom b rest a) := by
  induction a generalizing rest with
  | nil => rfl
  | cons d a ih =>
    obtain ⟨hd, ha⟩ := wellFormed_cons.mp ha
    have hdown : WellFormed (rest ++ [d]) := by simp [hrest, hd]
    have haway := takeAway_eq_ok 0 hb hdown (value_bring_down_lt hd hlt) (by decide)
    obtain ⟨-, hdigit, hwell, -, hless⟩ := takeAway_place hb hrest hd hlt
    simp only [divFrom, haway, ok_bind, digit_of_le hdigit, ih hwell ha hless, pure_eq_ok,
      divFrom_cons]

theorem div_eq_ok (ha : WellFormed a) (hb : WellFormed b) (hpos : 0 < value b) :
    div a b = .ok (a.div b) := by
  have hpos : 0 < value b.significant := by simpa using hpos
  have hnonzero : b.significant ≠ [] := by
    intro hnil
    simp [hnil] at hpos
  rw [div, require_of hnonzero, ok_bind]
  exact divFrom_eq_ok hb.significant wellFormed_nil ha hpos

end Quotient

end Guarded

end Digits

end Keystroke
