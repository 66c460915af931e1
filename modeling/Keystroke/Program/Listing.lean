import Keystroke.Decimal.Text
import Keystroke.Program.Basic

/-!
# Listings

The listing of a program is a source text for it: the words and symbols of its statements in
order, with one space between them.
-/

namespace Keystroke

def Key.words : Key → List String
  | .push n => [n.text]
  | .store name => [Keyword.sto.text, name]
  | .load name => [Keyword.rcl.text, name]
  | .arithmetic op => [op.text]
  | .compare c => [c.text]

namespace Statement

mutual

def words : Statement → List String
  | press _ key => key.words
  | call _ name => [Keyword.xeq.text, name]
  | label _ name body => [Keyword.lbl.text, name] ++ wordsOfAll body ++ [Keyword.rtn.text]

def wordsOfAll : List Statement → List String
  | [] => []
  | s :: rest => words s ++ wordsOfAll rest

end

def listing (s : Statement) : String := " ".intercalate s.words

end Statement

/-- The source text of a program. -/
def Program.listing (p : Program) : String :=
  " ".intercalate (Statement.wordsOfAll p.statements)

end Keystroke
