/-!
# Fixed words and symbols

Five words and eight symbols have a fixed meaning. Each is written in exactly one way: words in
lower case, comparators with the sign of equality last.
-/

namespace Keystroke

/-- Words that cannot be names. -/
inductive Keyword where
  | lbl
  | rtn
  | xeq
  | sto
  | rcl
  deriving DecidableEq, Repr

inductive Operator where
  | plus
  | minus
  | times
  | divide
  deriving DecidableEq, Repr

inductive Comparator where
  | greater
  | greaterEqual
  | less
  | lessEqual
  deriving DecidableEq, Repr

namespace Keyword

def text : Keyword → String
  | lbl => "lbl"
  | rtn => "rtn"
  | xeq => "xeq"
  | sto => "sto"
  | rcl => "rcl"

def ofText? (s : String) : Option Keyword :=
  [lbl, rtn, xeq, sto, rcl].find? (·.text = s)

@[simp] theorem ofText?_text (w : Keyword) : ofText? w.text = some w := by
  cases w <;> decide

end Keyword

namespace Operator

def text : Operator → String
  | plus => "+"
  | minus => "-"
  | times => "*"
  | divide => "/"

def ofText? (s : String) : Option Operator :=
  [plus, minus, times, divide].find? (·.text = s)

@[simp] theorem ofText?_text (op : Operator) : ofText? op.text = some op := by
  cases op <;> decide

end Operator

namespace Comparator

def text : Comparator → String
  | greater => ">"
  | greaterEqual => ">="
  | less => "<"
  | lessEqual => "<="

def ofText? (s : String) : Option Comparator :=
  [greater, greaterEqual, less, lessEqual].find? (·.text = s)

@[simp] theorem ofText?_text (c : Comparator) : ofText? c.text = some c := by
  cases c <;> decide

/-- The orders of two numbers on which the test holds. -/
def holds : Comparator → Ordering → Bool
  | greater, o => o == .gt
  | greaterEqual, o => o != .lt
  | less, o => o == .lt
  | lessEqual, o => o != .gt

end Comparator

end Keystroke
