import Keystroke.Program.Basic

/-!
# Events

What a machine reports while it compiles and runs, and how much attention each report asks for.
-/

namespace Keystroke

/-- Severities, from the most to the least severe. -/
inductive Severity where
  | warn
  | debug
  | trace
  deriving DecidableEq, Repr

namespace Severity

/-- Position in the order of severities. The most severe comes first. -/
def rank : Severity → Nat
  | warn => 0
  | debug => 1
  | trace => 2

/-- Someone who listens at severity `level` is told of severity `s`. -/
def admits (level s : Severity) : Bool := s.rank ≤ level.rank

end Severity

/-- Things that happen to a source text and to its program. -/
inductive Event where
  /-- The text was cut into so many lexemes. -/
  | scanned (lexemes : Nat)
  /-- The meaning of so many lexemes was found. -/
  | classified (tokens : Nat)
  /-- A program of so many statements was read. -/
  | parsed (statements : Nat)
  /-- This is the program. -/
  | compiled (p : Program)
  /-- A definition of this label replaces an earlier one. -/
  | redefined (label : String)
  /-- The statement is about to be executed, with so many frames open. -/
  | step (s : Statement) (depth : Nat)
  /-- The label is about to be called, with so many frames open. -/
  | call (label : String) (depth : Nat)
  /-- The program ended after so many statements, with this number on top. -/
  | finished (steps : Nat) (x : Decimal)

def Event.severity : Event → Severity
  | redefined _ => .warn
  | scanned _ | classified _ | parsed _ | call _ _ | finished _ _ => .debug
  | compiled _ | step _ _ => .trace

end Keystroke
