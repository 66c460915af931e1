import Keystroke.Decimal.Basic
import Keystroke.Span
import Keystroke.Symbol

/-!
# Programs

A program is a list of statements. A statement presses a key, calls a label or defines one. A
compiled program defines labels at the top level only; a program made by hand may define one
inside another, where nothing can call it.

A label may be defined more than once. The last definition at the top level is the one that
counts, wherever the call stands.
-/

namespace Keystroke

/-- Keys that work on the registers and the memory. -/
inductive Key where
  | push (n : Decimal)
  | store (name : String)
  | load (name : String)
  | arithmetic (op : Operator)
  | compare (c : Comparator)
  deriving DecidableEq, Repr

/-- One statement, with the span of its first token. -/
inductive Statement where
  | press (span : Span) (key : Key)
  | call (span : Span) (name : String)
  | label (span : Span) (name : String) (body : List Statement)

/-- Statements in the order of the source text. -/
structure Program where
  statements : List Statement

structure Label where
  name : String
  body : List Statement

namespace Key

def variableName : Key → Option String
  | store name | load name => some name
  | push _ | arithmetic _ | compare _ => none

def same : Key → Key → Bool
  | push m, push n => m.same n
  | push _, _ => false
  | k, l => k = l

end Key

namespace Statement

/-- Where a statement starts in the source text. -/
def span : Statement → Span
  | press span _ => span
  | call span _ => span
  | label span _ _ => span

def isLabel : Statement → Bool
  | label _ _ _ => true
  | press _ _ | call _ _ => false

def label? : Statement → Option Label
  | label _ name body => some ⟨name, body⟩
  | press _ _ | call _ _ => none

mutual

/-- The variables that a statement stores or recalls, bodies included. -/
def variableNames : Statement → List String
  | press _ key => key.variableName.toList
  | call _ _ => []
  | label _ _ body => variableNamesOfAll body

/-- The variables that some statements store or recall. -/
def variableNamesOfAll : List Statement → List String
  | [] => []
  | s :: rest => variableNames s ++ variableNamesOfAll rest

end

mutual

/-- The same statement at the same place, with numbers compared by value. -/
def same : Statement → Statement → Bool
  | press s k, press t l => s = t && k.same l
  | call s m, call t n => s = t && m = n
  | label s m b, label t n c => s = t && m = n && sameAll b c
  | press _ _, _ | call _ _, _ | label _ _ _, _ => false

def sameAll : List Statement → List Statement → Bool
  | [], [] => true
  | s :: b, t :: c => same s t && sameAll b c
  | [], _ :: _ | _ :: _, [] => false

end

end Statement

namespace Program

/-- The labels defined at the top level, in order and with those defined again later. -/
def labels (p : Program) : List Label := p.statements.filterMap Statement.label?

/-- The names that the program stores or recalls anywhere, in the order of their characters. -/
def variableNames (p : Program) : List String :=
  ((Statement.variableNamesOfAll p.statements).mergeSort fun a b => a ≤ b).eraseDups

/-- The same program at the same places, with numbers compared by value. -/
def same (p q : Program) : Bool := Statement.sameAll p.statements q.statements

end Program

namespace Label

/-- The body of the last definition of a name. -/
def body? : List Label → String → Option (List Statement)
  | [], _ => none
  | l :: later, name =>
    match body? later name with
    | some body => some body
    | none => if l.name = name then some l.body else none

/-- The names of the definitions that replace an earlier one, where the names in `seen` are
defined before. -/
def redefinedAfter (seen : List String) : List Label → List String
  | [] => []
  | l :: rest =>
    if l.name ∈ seen then l.name :: redefinedAfter seen rest
    else redefinedAfter (l.name :: seen) rest

/-- The names of the definitions that replace an earlier one, in order. -/
def redefined (labels : List Label) : List String := redefinedAfter [] labels

end Label

end Keystroke
