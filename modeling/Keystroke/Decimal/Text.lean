import Keystroke.Decimal.Basic
import Keystroke.Fault

/-!
# Decimal text

Reading takes decimal digits and at most one point, and keeps every digit. There is no sign, and
both the empty text and a lone point are numbers without digits. Printing puts a zero where the
integer part is empty, leaves the point out where the fraction is empty, and signs only numbers
below zero.
-/

namespace Keystroke

namespace Digit

/-- The digit that a character stands for. Other characters give a meaningless byte. -/
def ofChar (c : Char) : Digit := (c.toNat - '0'.toNat).toUInt8

def toChar (d : Digit) : Char := Char.ofNat ('0'.toNat + d.toNat)

end Digit

namespace Digits

def toChars (a : Digits) : List Char := a.map Digit.toChar

def ofChars (cs : List Char) : Digits := cs.map Digit.ofChar

def text (a : Digits) : String := String.ofList a.toChars

end Digits

namespace Decimal

/-- Read digits, and after a point more digits, up to the end. -/
def ofChars? (cs : List Char) : Option Decimal :=
  let integer := Digits.ofChars (cs.takeWhile Char.isDigit)
  match cs.dropWhile Char.isDigit with
  | [] => some ⟨false, integer, []⟩
  | c :: rest =>
    if c = '.' ∧ rest.all Char.isDigit then some ⟨false, integer, Digits.ofChars rest⟩
    else none

def ofText? (s : String) : Option Decimal := ofChars? s.toList

/-- Read a text as a decimal. The fault is about the whole text. -/
def read (s : String) : Except Fault Decimal :=
  match ofText? s with
  | some n => .ok n
  | none => .error { kind := .malformedNumber, text := s }

def magnitudeChars (n : Decimal) : List Char :=
  (if n.integer = [] then ['0'] else n.integer.toChars) ++
    (if n.fraction = [] then [] else '.' :: n.fraction.toChars)

def toChars (n : Decimal) : List Char :=
  if n.isBelowZero then '-' :: n.magnitudeChars else n.magnitudeChars

def text (n : Decimal) : String := String.ofList n.toChars

/-- The text of a number inside a frame that marks it as a number. -/
def dump (n : Decimal) : String := "Num(" ++ n.text ++ ")"

end Decimal

end Keystroke
