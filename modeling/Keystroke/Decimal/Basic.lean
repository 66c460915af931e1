import Keystroke.Digits

/-!
# Decimal numbers

A decimal has a sign, digits before the point and digits after it. A number that was typed in
keeps its digits as they were typed, leading and trailing zeros included, and either part may be
empty. A computed number is in normal form, which `ofScaled` produces. `compare` is the numeric
order: it does not see how a number is written.
-/

namespace Keystroke

/-- A sign and the digits on both sides of the point. -/
structure Decimal where
  negative : Bool
  integer : Digits
  fraction : Digits
  deriving DecidableEq, Repr

namespace Decimal

def zero : Decimal := ⟨false, [0], []⟩

def one : Decimal := ⟨false, [1], []⟩

instance : Inhabited Decimal := ⟨zero⟩

def ofBool (b : Bool) : Decimal := bif b then one else zero

/-- All digits are zero, whatever the sign. -/
def isZero (n : Decimal) : Bool := n.integer.isZero && n.fraction.isZero

/-- Below zero. A negative sign on a zero does not count. -/
def isBelowZero (n : Decimal) : Bool := n.negative && !n.isZero

/-- The number of digits after the point. -/
def scale (n : Decimal) : Nat := n.fraction.length

/-- All digits in one string, filled up with zeros to `scale` digits after the point. -/
def scaled (n : Decimal) (scale : Nat) : Digits :=
  n.integer ++ n.fraction ++ List.replicate (scale - n.scale) 0

def dropTrailingZeros (a : Digits) : Digits :=
  (a.reverse.dropWhile (· == 0)).reverse

/-- The digits without the zeros in front, or a single zero. -/
def dropLeadingZeros (a : Digits) : Digits :=
  match a.significant with
  | [] => [0]
  | d :: rest => d :: rest

/-- The decimal in normal form whose digits are `digits`, the last `scale` of them after the
point. Short strings are filled up with zeros in front. -/
def ofScaled (negative : Bool) (digits : Digits) (scale : Nat) : Decimal :=
  let padded := List.replicate (scale - digits.length) 0 ++ digits
  let point := padded.length - scale
  let integer := dropLeadingZeros (padded.take point)
  let fraction := dropTrailingZeros (padded.drop point)
  { negative := negative && !(integer.isZero && fraction.isZero), integer, fraction }

/-- The number of the other sign. A zero stays as it is. -/
def negate (n : Decimal) : Decimal :=
  if n.isZero then n else { n with negative := !n.negative }

def compareMagnitude (a b : Decimal) : Ordering :=
  let scale := max a.scale b.scale
  Digits.compare (a.scaled scale) (b.scaled scale)

def compare (a b : Decimal) : Ordering :=
  match a.isBelowZero, b.isBelowZero with
  | false, true => .gt
  | true, false => .lt
  | false, false => a.compareMagnitude b
  | true, true => b.compareMagnitude a

instance : Ord Decimal := ⟨compare⟩

/-- Numeric equality: the same number, however written. -/
def same (a b : Decimal) : Bool := a.compare b == .eq

/-- The greater of two numbers, the second one if they are equal. -/
instance : Max Decimal := ⟨fun a b => if a.compare b = .gt then a else b⟩

/-- The smaller of two numbers, the first one if they are equal. -/
instance : Min Decimal := ⟨fun a b => if a.compare b = .gt then b else a⟩

/-- The numbers in ascending order. Equal numbers keep their order. -/
def sort (ns : List Decimal) : List Decimal :=
  ns.mergeSort fun a b => a.compare b != .gt

end Decimal

end Keystroke
