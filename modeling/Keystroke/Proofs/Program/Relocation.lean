import Keystroke.Program.Reader
import Keystroke.Proofs.Program.Shape
import Keystroke.Proofs.Token

/-!
# Reading does not look at places

The reader copies spans and never decides by them. Moving all tokens, in any way that respects
ends, moves the spans of what is read in the same way: the statements of the program if it is
accepted, the fault if it is not.
-/

namespace Keystroke

def Fault.relocate (place : Span → Span) (f : Fault) : Fault := { f with span := place f.span }

def Statement.relocate (place : Span → Span) : Statement → Statement := Statement.map place id

def OpenLabel.relocate (place : Span → Span) (l : OpenLabel) : OpenLabel :=
  ⟨place l.span, l.name, l.body.map (Statement.relocate place)⟩

namespace Reader

def relocate (place : Span → Span) (r : Reader) : Reader where
  statements := r.statements.map (Statement.relocate place)
  opened := r.opened.map (OpenLabel.relocate place)
  awaiting := r.awaiting.map (Prod.map place id)

variable (place : Span → Span) (r : Reader)

theorem relocate_add (s : Statement) :
    (r.add s).relocate place = (r.relocate place).add (s.relocate place) := by
  obtain ⟨statements, _ | l, awaiting⟩ := r <;> rfl

theorem relocate_named (span : Span) (name : String) (verb : Verb) :
    (r.named span name verb).relocate place =
      (r.relocate place).named (place span) name verb := by
  cases verb with
  | store | load | call => exact relocate_add place r _
  | define => rfl

theorem relocate_close (l : OpenLabel) :
    (r.close l).relocate place = (r.relocate place).close (l.relocate place) := by
  have hlabel : Statement.relocate place (.label l.span l.name l.body.reverse) =
      .label (place l.span) l.name (l.body.map (Statement.relocate place)).reverse := by
    rw [← List.map_reverse, Statement.relocate, Statement.map, Statement.mapAll_eq]
  rw [relocate, close, List.map_cons, hlabel]
  rfl

/-- The result of a stage for tokens at other places. -/
def relocated {α : Type} (place : Span → Span) (move : α → α) (x : Except Fault α) :
    Except Fault α :=
  match x with
  | .ok a => .ok (move a)
  | .error fault => .error (fault.relocate place)

theorem relocate_take (t : Token) :
    (r.relocate place).take (t.relocate place) =
      relocated place (relocate place) (r.take t) := by
  obtain ⟨kind, text, span⟩ := t
  cases kind with
  | name => rfl
  | operator op =>
    exact congrArg Except.ok (relocate_add place r (.press span (.arithmetic op))).symm
  | comparator c =>
    exact congrArg Except.ok (relocate_add place r (.press span (.compare c))).symm
  | number =>
    simp only [take, Token.relocate]
    cases Decimal.ofText? text with
    | none => rfl
    | some n => exact congrArg Except.ok (relocate_add place r (.press span (.push n))).symm
  | word w =>
    obtain ⟨statements, opened, awaiting⟩ := r
    cases w with
    | sto | rcl | xeq => rfl
    | lbl => cases opened <;> rfl
    | rtn =>
      cases opened with
      | none => rfl
      | some l => exact congrArg Except.ok (relocate_close place _ l).symm

theorem relocate_next (t : Token) :
    (r.relocate place).next (t.relocate place) =
      relocated place (relocate place) (r.next t) := by
  obtain ⟨statements, opened, _ | ⟨span, verb⟩⟩ := r
  · exact relocate_take place _ t
  · by_cases hname : t.kind = .name
    · simp only [next, relocate, Option.map_some, Token.relocate, hname, if_true, relocated]
      exact congrArg Except.ok (relocate_named place ⟨statements, opened, none⟩ _ _ _).symm
    · simp only [next, relocate, Option.map_some, Token.relocate, hname, if_false, relocated]
      rfl

theorem relocate_foldlM (tokens : List Token) :
    (tokens.map (Token.relocate place)).foldlM next (r.relocate place) =
      relocated place (relocate place) (tokens.foldlM next r) := by
  induction tokens generalizing r with
  | nil => rfl
  | cons t tokens ih =>
    rw [List.map_cons, List.foldlM_cons, List.foldlM_cons, relocate_next]
    cases r.next t with
    | error fault => rfl
    | ok r₁ => exact ih r₁

variable {place}

theorem relocate_finish (hplace : ∀ span, place span.after = (place span).after) :
    (r.relocate place).finish = relocated place (Program.relocate place) r.finish := by
  obtain ⟨statements, opened, _ | ⟨span, verb⟩⟩ := r
  · cases opened with
    | some l => rfl
    | none =>
      simp only [finish, relocate, relocated, Option.map_none, ← List.map_reverse]
      rfl
  · simp only [finish, relocate, Option.map_some, relocated, Fault.relocate, hplace]
    rfl

end Reader

/-- Moved tokens are read as the moved program. -/
theorem Program.ofTokens_relocate (place : Span → Span)
    (hplace : ∀ span, place span.after = (place span).after) (tokens : List Token) :
    Program.ofTokens (tokens.map (Token.relocate place)) =
      Reader.relocated place (Program.relocate place) (Program.ofTokens tokens) := by
  have hfold := Reader.relocate_foldlM place Reader.start tokens
  have hstart : Reader.start.relocate place = Reader.start := rfl
  rw [hstart] at hfold
  rw [Program.ofTokens, Program.ofTokens, hfold]
  cases tokens.foldlM Reader.next Reader.start with
  | error fault => rfl
  | ok r => exact r.relocate_finish hplace

/-- Tokens that differ in their places only are read as programs that differ in their places
only. -/
theorem Program.ofTokens_of_withoutSpan_eq {ts us : List Token} {p : Program}
    (h : us.map Token.withoutSpan = ts.map Token.withoutSpan)
    (hp : Program.ofTokens ts = .ok p) :
    ∃ q, Program.ofTokens us = .ok q ∧ q.withoutSpans = p.withoutSpans := by
  have hts := Program.ofTokens_relocate (fun _ => .origin) (fun _ => rfl) ts
  have hus := Program.ofTokens_relocate (fun _ => .origin) (fun _ => rfl) us
  have hread := hus.symm.trans ((congrArg Program.ofTokens h).trans hts)
  rw [hp] at hread
  cases hq : Program.ofTokens us with
  | error fault => rw [hq] at hread; cases hread
  | ok q =>
    rw [hq] at hread
    exact ⟨q, rfl, Except.ok.inj hread⟩

end Keystroke
