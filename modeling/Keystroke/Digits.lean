/-!
# Arithmetic on digit strings

Natural numbers written in base ten, most significant digit first, with any number of leading
zeros. A digit is held in a byte. The operations work place by place the way one computes on
paper, and `WellFormed` singles out the strings on which bytes are really digits.

Sums and differences run from the last place to the first, so each has a helper on strings that
are written the other way round.
-/

namespace Keystroke

/-- One place of a number in base ten. -/
abbrev Digit := UInt8

/-- Places of a number, most significant first. -/
abbrev Digits := List Digit

namespace Digits

/-- Every place holds one of `0`, …, `9`. -/
def WellFormed (a : Digits) : Prop := ∀ d ∈ a, d ≤ 9

instance (a : Digits) : Decidable a.WellFormed := List.decidableBAll (· ≤ 9) a

/-- The number that a string of digits stands for. -/
def value (a : Digits) : Nat :=
  a.foldl (fun n d => 10 * n + d.toNat) 0

/-- The digits from the first one that is not zero. -/
def significant (a : Digits) : Digits := a.dropWhile (· == 0)

/-- Zeros only, or no digits at all. -/
def isZero (a : Digits) : Bool := a.all (· == 0)

/-- Order of two strings by their first difference, place by place from the left. -/
def compareAligned : Digits → Digits → Ordering
  | [], [] => .eq
  | [], _ :: _ => .lt
  | _ :: _, [] => .gt
  | x :: a, y :: b => (compare x y).then (compareAligned a b)

/-- Numeric order. Without leading zeros the longer string is the greater number. -/
def compare (a b : Digits) : Ordering :=
  let a := a.significant
  let b := b.significant
  (Ord.compare a.length b.length).then (compareAligned a b)

/-- Sum of two strings that are written from the last place on, with a carry into it. -/
def addReversed (carry : Digit) : Digits → Digits → Digits
  | [], [] => if carry > 0 then [carry] else []
  | x :: a, [] => ((x + carry) % 10) :: addReversed ((x + carry) / 10) a []
  | [], y :: b => ((y + carry) % 10) :: addReversed ((y + carry) / 10) [] b
  | x :: a, y :: b => ((x + y + carry) % 10) :: addReversed ((x + y + carry) / 10) a b

/-- Sum of two numbers. It is one place longer than the longer one if there is a carry left. -/
def add (a b : Digits) : Digits :=
  (addReversed 0 a.reverse b.reverse).reverse

/-- Difference of two strings that are written from the last place on, with a borrow from it.
Places that only the second one has are ignored. -/
def subReversed (borrow : Digit) : Digits → Digits → Digits
  | [], _ => []
  | x :: a, b =>
    let taken := b.headD 0 + borrow
    if taken ≤ x then (x - taken) :: subReversed 0 a b.tail
    else (x + 10 - taken) :: subReversed 1 a b.tail

/-- Difference of two numbers of which the first is not the smaller one. It has as many places
as the first. -/
def sub (a b : Digits) : Digits :=
  (subReversed 0 a.reverse b.reverse).reverse

@[simp] theorem length_subReversed (borrow : Digit) (a b : Digits) :
    (subReversed borrow a b).length = a.length := by
  induction a generalizing borrow b with
  | nil => rfl
  | cons x a ih =>
    simp only [subReversed]
    split <;> simp [ih]

@[simp] theorem length_sub (a b : Digits) : (sub a b).length = a.length := by
  simp [sub]

/-- Add a row of digit products to the columns under it, from the last column on. -/
def addRow : List UInt32 → List UInt32 → List UInt32
  | [], columns => columns
  | row, [] => row
  | p :: row, c :: columns => (p + c) :: addRow row columns

/-- Column sums of the digit products of two strings that are written from the last place on.
There is a column for every place of either string. -/
def columns : Digits → Digits → List UInt32
  | [], b => b.map fun _ => 0
  | x :: a, b => addRow (b.map fun y => x.toUInt32 * y.toUInt32) (0 :: columns a b)

/-- Carry from column to column until each holds a digit. Nothing is carried out of the last
column, which is the leading place. -/
def carryColumns (carry : UInt32) : List UInt32 → Digits
  | [] => []
  | [c] => [(c + carry).toUInt8]
  | c :: rest => ((c + carry) % 10).toUInt8 :: carryColumns ((c + carry) / 10) rest

/-- Product of two numbers, with as many places as both of them together. -/
def mul (a b : Digits) : Digits :=
  (carryColumns 0 (columns a.reverse b.reverse)).reverse

theorem length_addRow {row cs : List UInt32} (h : row.length ≤ cs.length) :
    (addRow row cs).length = cs.length := by
  induction row generalizing cs with
  | nil => simp [addRow]
  | cons p row ih =>
    cases cs with
    | nil => simp at h
    | cons c cs => simpa [addRow] using ih (by simpa using h)

@[simp] theorem length_columns (a b : Digits) : (columns a b).length = a.length + b.length := by
  induction a with
  | nil => simp [columns]
  | cons x a ih =>
    rw [columns, length_addRow] <;> simp only [List.length_cons, List.length_map, ih] <;> omega

@[simp] theorem length_carryColumns (carry : UInt32) (cs : List UInt32) :
    (carryColumns carry cs).length = cs.length := by
  fun_induction carryColumns carry cs with
  | case1 => rfl
  | case2 => rfl
  | case3 _ _ _ _ ih => simpa using ih

@[simp] theorem length_mul (a b : Digits) : (mul a b).length = a.length + b.length := by
  simp [mul]

/-- Take `b` away from `rest` while it fits and at most `n` times. The result counts how often
it was taken, from `q` on, and what is left. -/
def takeAway (b : Digits) : (n : Nat) → (q : Digit) → (rest : Digits) → Digit × Digits
  | 0, q, rest => (q, rest)
  | n + 1, q, rest =>
    if compare rest b = .lt then (q, rest) else takeAway b n (q + 1) (sub rest b)

/-- Long division of the places `a`, with `rest` left over from the places before them. A place
of the quotient is at most nine, so the divisor is taken away at most nine times. -/
def divFrom (b : Digits) : (rest : Digits) → (a : Digits) → Digits
  | _, [] => []
  | rest, d :: a =>
    let (q, rest) := takeAway b 9 0 (rest ++ [d])
    q :: divFrom b rest a

/-- Quotient of two numbers without its fraction, with as many places as the dividend. The
divisor is not zero. -/
def div (a b : Digits) : Digits := divFrom b.significant [] a

@[simp] theorem length_divFrom (b rest a : Digits) : (divFrom b rest a).length = a.length := by
  induction a generalizing rest with
  | nil => rfl
  | cons d a ih => simp [divFrom, ih]

@[simp] theorem length_div (a b : Digits) : (div a b).length = a.length :=
  length_divFrom _ _ _

end Digits

end Keystroke
