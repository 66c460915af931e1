import Keystroke.Machine.Trace
import Keystroke.Program.Reader

/-!
# From source text to result

`execute` compiles a source text and runs it on a machine with the usual settings. `journal`
does so with any settings and tells what happened, from cutting the text to the end of the run.
-/

namespace Keystroke

/-- Compile a source text and run it with the usual settings. -/
def execute (source : String) : Except Fault Machine :=
  match compile source with
  | .error fault => .error fault
  | .ok p =>
    let r := (Machine.fresh .standard).run p
    match r.fault with
    | some fault => .error fault
    | none => .ok r.machine

/-- The events of compiling: one for each stage that succeeds, and the program itself. -/
def compileEvents (source : String) : List Event :=
  match Lexeme.scan source with
  | .error _ => []
  | .ok lexemes =>
    .scanned lexemes.length ::
      match Token.ofLexemes lexemes with
      | .error _ => []
      | .ok tokens =>
        .classified tokens.length ::
          match Program.ofTokens tokens with
          | .error _ => []
          | .ok p => [.parsed p.statements.length, .compiled p]

structure Journal where
  events : List Event
  fault : Option Fault

/-- Compile a source text, run it on a fresh machine and note what happens. -/
def journal (config : Config) (source : String) : Journal :=
  match compile source with
  | .error fault => ⟨compileEvents source, some fault⟩
  | .ok p =>
    let r := (Machine.fresh config).run p
    ⟨compileEvents source ++ r.events, r.fault⟩

def Journal.heardAt (j : Journal) (level : Severity) : List Event :=
  j.events.filter fun event => level.admits event.severity

end Keystroke
