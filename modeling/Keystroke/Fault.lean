import Keystroke.Span

/-!
# Faults

Every stage stops at its first fault. A fault names its cause, the span of the offending
character, token or statement, and the text or name found there. `Fault.message` is the one
place where faults are put into words.
-/

namespace Keystroke

/-- The four stages a source text passes through. -/
inductive Stage where
  | scan
  | lex
  | parse
  | runtime
  deriving DecidableEq, Repr

namespace Fault

inductive Kind where
  | unexpectedCharacter
  | malformedNumber
  | unknownSymbol
  | expectedIdentifier
  | unexpectedToken
  | missingReturn
  | nestedLabel
  | undefinedVariable
  | undefinedLabel
  | divisionByZero
  | divisionPrecisionUndefined
  | callStackOverflow
  | stepLimitExceeded
  deriving DecidableEq, Repr

namespace Kind

/-- The number by which a cause is known to users. -/
def number : Kind → Nat
  | unexpectedCharacter => 1
  | malformedNumber => 10
  | unknownSymbol => 11
  | expectedIdentifier => 20
  | unexpectedToken => 21
  | missingReturn => 22
  | nestedLabel => 23
  | undefinedVariable => 30
  | undefinedLabel => 31
  | divisionByZero => 32
  | divisionPrecisionUndefined => 33
  | callStackOverflow => 34
  | stepLimitExceeded => 35

/-- The words shown for a cause. None of them begins another one. -/
def wording : Kind → String
  | unexpectedCharacter => "UNEXPECTED CHARACTER"
  | malformedNumber => "MALFORMED NUMBER"
  | unknownSymbol => "UNKNOWN SYMBOL"
  | expectedIdentifier => "EXPECTED IDENTIFIER"
  | unexpectedToken => "UNEXPECTED TOKEN"
  | missingReturn => "MISSING RTN"
  | nestedLabel => "NESTED LBL NOT ALLOWED"
  | undefinedVariable => "UNDEFINED VARIABLE"
  | undefinedLabel => "UNDEFINED LABEL"
  | divisionByZero => "DIVISION BY ZERO"
  | divisionPrecisionUndefined => "DIVISION PRECISION UNDEFINED"
  | callStackOverflow => "CALL STACK OVERFLOW"
  | stepLimitExceeded => "STEP LIMIT EXCEEDED"

def stage : Kind → Stage
  | unexpectedCharacter => .scan
  | malformedNumber | unknownSymbol => .lex
  | expectedIdentifier | unexpectedToken | missingReturn | nestedLabel => .parse
  | undefinedVariable | undefinedLabel | divisionByZero | divisionPrecisionUndefined
  | callStackOverflow | stepLimitExceeded => .runtime

end Kind

end Fault

/-- A cause with the place and the text that it is about. Both may be unknown. -/
structure Fault where
  kind : Fault.Kind
  span : Span := .origin
  text : String := ""
  deriving DecidableEq, Repr

namespace Fault

/-- The same fault at a place that is now known. -/
def inSpan (f : Fault) (span : Span) : Fault := { f with span }

/-- The same fault about a text that is now known. -/
def about (f : Fault) (text : String) : Fault := { f with text }

def stage (f : Fault) : Stage := f.kind.stage

/-- The place as it stands in a message: left out when it is the origin. -/
def place (f : Fault) : String :=
  if f.span = .origin then "" else " AT " ++ f.span.text

/-- The text as it stands in a message: left out when it is empty. -/
def subject (f : Fault) : String :=
  if f.text = "" then "" else "; " ++ f.text

/-- The fault in words: its cause, then its place, then its text. -/
def message (f : Fault) : String :=
  f.kind.wording ++ f.place ++ f.subject

/-- The message inside a frame that marks it as a fault. -/
def dump (f : Fault) : String :=
  "Error \x7b " ++ f.message ++ " \x7d"

end Fault

end Keystroke
