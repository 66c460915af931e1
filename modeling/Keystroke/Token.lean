import Keystroke.Lexeme
import Keystroke.Symbol

/-!
# Tokens

A token is a lexeme whose meaning is known: which keyword, operator or comparator it is, or that
it is a name or a numeral. The text and the span are those of the lexeme. A numeral with two
points is refused here.
-/

namespace Keystroke

namespace Token

inductive Kind where
  | name
  | number
  | word (w : Keyword)
  | operator (op : Operator)
  | comparator (c : Comparator)
  deriving DecidableEq, Repr

end Token

/-- A lexeme with its meaning. -/
structure Token where
  kind : Token.Kind
  text : String
  span : Span
  deriving DecidableEq, Repr

namespace Token

def kindOf (lexeme : Lexeme) : Except Fault Kind :=
  match lexeme.kind with
  | .word =>
    match Keyword.ofText? lexeme.text with
    | some w => .ok (.word w)
    | none => .ok .name
  | .number =>
    if lexeme.text.toList.count '.' > 1 then
      .error ⟨.malformedNumber, lexeme.span, lexeme.text⟩
    else .ok .number
  | .operator =>
    match Operator.ofText? lexeme.text with
    | some op => .ok (.operator op)
    | none => .error ⟨.unknownSymbol, lexeme.span, lexeme.text⟩
  | .comparator =>
    match Comparator.ofText? lexeme.text with
    | some c => .ok (.comparator c)
    | none => .error ⟨.unknownSymbol, lexeme.span, lexeme.text⟩

def ofLexeme (lexeme : Lexeme) : Except Fault Token :=
  (kindOf lexeme).map fun kind => ⟨kind, lexeme.text, lexeme.span⟩

/-- The tokens of some lexemes, one for each and in the same order. -/
def ofLexemes (lexemes : List Lexeme) : Except Fault (List Token) :=
  lexemes.mapM ofLexeme

end Token

end Keystroke
