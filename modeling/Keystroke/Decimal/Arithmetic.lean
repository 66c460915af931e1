import Keystroke.Decimal.Basic
import Keystroke.Fault
import Keystroke.Symbol

/-!
# Decimal arithmetic

Operands are brought to a common number of digits after the point and then computed with as
strings of digits. Every result is in normal form. Sums, differences and products are exact; a
quotient is cut off, towards zero, after a given number of digits.
-/

namespace Keystroke

namespace Decimal

/-- The sum. Of two numbers with different signs, the greater magnitude gives the sign. -/
def add (a b : Decimal) : Decimal :=
  let scale := Nat.max a.scale b.scale
  let x := a.scaled scale
  let y := b.scaled scale
  if a.negative = b.negative then ofScaled a.negative (x.add y) scale
  else if Digits.compare x y = .lt then ofScaled b.negative (y.sub x) scale
  else ofScaled a.negative (x.sub y) scale

def sub (a b : Decimal) : Decimal := a.add b.negate

/-- The product. Its digits after the point are those of both factors together. -/
def mul (a b : Decimal) : Decimal :=
  let digits := Digits.mul (a.scaled a.scale) (b.scaled b.scale)
  ofScaled (a.negative != b.negative) digits (a.scale + b.scale)

/-- The quotient to `scale` digits after the point. Both operands are made whole numbers first,
and the dividend gets `scale` further zeros. -/
def div (a b : Decimal) (scale : Nat) : Except Fault Decimal :=
  if b.isZero then .error { kind := .divisionByZero }
  else
    let dividend := a.scaled a.scale ++ List.replicate (b.scale + scale) 0
    let divisor := b.scaled b.scale ++ List.replicate a.scale 0
    .ok (ofScaled (a.negative != b.negative) (dividend.div divisor) scale)

end Decimal

/-- Apply an operator. Division needs to be told how many digits to compute. -/
def Operator.apply (op : Operator) (scale : Option Nat) (a b : Decimal) :
    Except Fault Decimal :=
  match op with
  | .plus => .ok (a.add b)
  | .minus => .ok (a.sub b)
  | .times => .ok (a.mul b)
  | .divide =>
    match scale with
    | some scale => a.div b scale
    | none => .error { kind := .divisionPrecisionUndefined }

/-- Apply a test: `1` if it holds and `0` otherwise. -/
def Comparator.apply (c : Comparator) (a b : Decimal) : Decimal :=
  Decimal.ofBool (c.holds (a.compare b))

end Keystroke
