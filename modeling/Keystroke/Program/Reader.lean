import Keystroke.Decimal.Text
import Keystroke.Program.Basic
import Keystroke.Token

/-!
# Reading programs

Numerals, operators and comparators are statements by themselves; `sto`, `rcl` and `xeq` take a
name; `lbl` takes a name and then statements up to `rtn`, none of which is another label. A
statement gets the span of its first token.

The reader takes one token at a time and keeps what it needs to know of the tokens before: the
statements that are complete, the label whose body is being read, and the keyword that waits for
its name. A token is refused if no program continues with it, and at the end of the tokens the
reader says what is missing.

This is the last stage of compiling. A source text is cut into lexemes, the lexemes become tokens,
and the tokens a program. Each stage sees the whole result of the one before, so a fault of an
earlier stage wins over one of a later stage that stands further to the left.
-/

namespace Keystroke

/-- What is done with a name. -/
inductive Verb where
  | store
  | load
  | call
  | define
  deriving DecidableEq, Repr

/-- A label whose `rtn` has not been read. -/
structure OpenLabel where
  /-- Where its `lbl` stands. -/
  span : Span
  name : String
  /-- Statements of the body so far, the latest first. -/
  body : List Statement

/-- A reader between two tokens. -/
structure Reader where
  /-- Complete statements at the top level, the latest first. -/
  statements : List Statement
  /-- The label whose body is being read. -/
  opened : Option OpenLabel
  /-- The keyword that waits for its name, with the place where it stands. -/
  awaiting : Option (Span × Verb)

namespace Reader

def start : Reader := ⟨[], none, none⟩

/-- Put a complete statement where it belongs. -/
def add (r : Reader) (s : Statement) : Reader :=
  match r.opened with
  | none => { r with statements := s :: r.statements }
  | some l => { r with opened := some { l with body := s :: l.body } }

def await (r : Reader) (span : Span) (verb : Verb) : Reader :=
  { r with awaiting := some (span, verb) }

/-- Read the name that the keyword at `span` was waiting for. -/
def named (r : Reader) (span : Span) (name : String) : Verb → Reader
  | .store => r.add (.press span (.store name))
  | .load => r.add (.press span (.load name))
  | .call => r.add (.call span name)
  | .define => { r with opened := some ⟨span, name, []⟩ }

/-- Read the `rtn` of a label. -/
def close (r : Reader) (l : OpenLabel) : Reader :=
  { r with statements := .label l.span l.name l.body.reverse :: r.statements, opened := none }

/-- Read a token that starts a statement or ends a label. -/
def take (r : Reader) (t : Token) : Except Fault Reader :=
  match t.kind with
  | .number =>
    match Decimal.ofText? t.text with
    | some n => .ok (r.add (.press t.span (.push n)))
    | none => .error ⟨.malformedNumber, t.span, t.text⟩
  | .operator op => .ok (r.add (.press t.span (.arithmetic op)))
  | .comparator c => .ok (r.add (.press t.span (.compare c)))
  | .word .sto => .ok (r.await t.span .store)
  | .word .rcl => .ok (r.await t.span .load)
  | .word .xeq => .ok (r.await t.span .call)
  | .word .lbl =>
    match r.opened with
    | none => .ok (r.await t.span .define)
    | some _ => .error ⟨.nestedLabel, t.span, t.text⟩
  | .word .rtn =>
    match r.opened with
    | none => .error ⟨.unexpectedToken, t.span, t.text⟩
    | some l => .ok (r.close l)
  | .name => .error ⟨.unexpectedToken, t.span, t.text⟩

def next (r : Reader) (t : Token) : Except Fault Reader :=
  match r.awaiting with
  | none => r.take t
  | some (span, verb) =>
    if t.kind = .name then .ok ({ r with awaiting := none }.named span t.text verb)
    else .error ⟨.expectedIdentifier, t.span, t.text⟩

/-- End the reading. A keyword without its name is the last token, so what is missing belongs just
behind it. -/
def finish (r : Reader) : Except Fault Program :=
  match r.awaiting, r.opened with
  | some (span, _), _ => .error { kind := .expectedIdentifier, span := span.after }
  | none, some l => .error ⟨.missingReturn, l.span, l.name⟩
  | none, none => .ok ⟨r.statements.reverse⟩

end Reader

def Program.ofTokens (tokens : List Token) : Except Fault Program := do
  let r ← tokens.foldlM Reader.next Reader.start
  r.finish

/-- The program that a source text stands for. -/
def compile (source : String) : Except Fault Program := do
  let lexemes ← Lexeme.scan source
  let tokens ← Token.ofLexemes lexemes
  Program.ofTokens tokens

end Keystroke
