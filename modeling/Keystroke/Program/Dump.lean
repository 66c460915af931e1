import Keystroke.Decimal.Text
import Keystroke.Program.Basic

/-!
# Structure of a program as text

The log shows a compiled program with its spans and its structure, which the listing leaves out.
-/

namespace Keystroke

def Operator.dump : Operator → String
  | .plus => "Plus"
  | .minus => "Minus"
  | .times => "Multiply"
  | .divide => "Divide"

def Comparator.dump : Comparator → String
  | .greater => "Greater"
  | .greaterEqual => "GreaterEqual"
  | .less => "Less"
  | .lessEqual => "LessEqual"

namespace Statement

/-- A name between quotes. Names are letters and digits, so nothing in them is escaped. -/
def quote (name : String) : String := "\"" ++ name ++ "\""

/-- A kind of statement with its parts. -/
def dumpNode (kind : String) (parts : List String) : String :=
  kind ++ "(" ++ ", ".intercalate parts ++ ")"

mutual

def dump : Statement → String
  | press span (.push n) => dumpNode "Push" [span.text, n.dump]
  | press span (.store name) => dumpNode "Store" [span.text, quote name]
  | press span (.load name) => dumpNode "Recall" [span.text, quote name]
  | press span (.arithmetic op) => dumpNode "Arithmetic" [span.text, op.dump]
  | press span (.compare c) => dumpNode "Comparison" [span.text, c.dump]
  | call span name => dumpNode "Execute" [span.text, quote name]
  | label span name body =>
    dumpNode "Label" [span.text, quote name, "[" ++ ", ".intercalate (dumpAll body) ++ "]"]

def dumpAll : List Statement → List String
  | [] => []
  | s :: rest => dump s :: dumpAll rest

end

end Statement

def Program.dump (p : Program) : String :=
  "Program \x7b statements: [" ++ ", ".intercalate (Statement.dumpAll p.statements) ++ "] \x7d"

end Keystroke
