import Keystroke.Fault

/-!
# Lexemes

A source text is cut into lexemes: words, numerals, operators and comparators. The first
character decides the class, and the lexeme then extends as far as its class allows. Blanks
separate lexemes that would otherwise grow together and mean nothing else. Only ASCII characters
belong to any class, so a letter with an accent is as unexpected as a stray sign of equality.
-/

namespace Keystroke

namespace Lexeme

inductive Kind where
  | word
  | number
  | operator
  | comparator
  deriving DecidableEq, Repr

end Lexeme

/-- Characters of a source text that belong together. -/
structure Lexeme where
  kind : Lexeme.Kind
  text : String
  span : Span
  deriving DecidableEq, Repr

namespace Lexeme

/-- Space, tab, line feed, form feed and carriage return. -/
def isBlank (c : Char) : Bool :=
  c = ' ' || c = '\t' || c = '\n' || c = '\x0c' || c = '\r'

/-- Digits and points. A numeral may hold any number of points here. -/
def isNumeral (c : Char) : Bool := c.isDigit || c = '.'

def isOperator (c : Char) : Bool := c = '+' || c = '-' || c = '*' || c = '/'

/-- The two signs a comparator starts with. -/
def isComparator (c : Char) : Bool := c = '>' || c = '<'

namespace Kind

/-- The class of the lexemes that start with this character. -/
def ofFirst? (c : Char) : Option Kind :=
  if c.isAlpha then some word
  else if isNumeral c then some number
  else if isOperator c then some operator
  else if isComparator c then some comparator
  else none

/-- The characters behind the first one that still belong to a lexeme of this class. -/
def extension : Kind → List Char → List Char
  | word, rest => rest.takeWhile Char.isAlphanum
  | number, rest => rest.takeWhile isNumeral
  | operator, _ => []
  | comparator, rest => if rest.head? = some '=' then ['='] else []

end Kind

/-- Cut the characters `cs` into lexemes, where `pos` characters stand before them. -/
def scanFrom (pos : Nat) (cs : List Char) : Except Fault (List Lexeme) :=
  match cs with
  | [] => .ok []
  | c :: rest =>
    if isBlank c then scanFrom (pos + 1) rest
    else
      match Kind.ofFirst? c with
      | none => .error ⟨.unexpectedCharacter, ⟨pos, pos + 1⟩, String.singleton c⟩
      | some kind =>
        let chars := c :: kind.extension rest
        let stop := pos + chars.length
        match scanFrom stop (rest.drop (kind.extension rest).length) with
        | .error fault => .error fault
        | .ok lexemes => .ok (⟨kind, String.ofList chars, ⟨pos, stop⟩⟩ :: lexemes)
termination_by cs.length
decreasing_by
  · simp
  · simp only [List.length_drop, List.length_cons]
    omega

def scan (source : String) : Except Fault (List Lexeme) := scanFrom 0 source.toList

end Lexeme

end Keystroke
