import Keystroke.Program.Reader
import Keystroke.Proofs.Decimal.Text
import Keystroke.Proofs.Token

/-!
# Well-formed programs

A program is well-formed if it can be written down: its names are names, its numbers are made of
digits and not below zero, and no label stands inside another. The reader never leaves these
programs. Its invariant speaks about the statements it has completed and about the label whose
body it is reading, and one token preserves it as long as tokens that claim to be names are names.
-/

namespace Keystroke

namespace Key

def WellFormed : Key → Prop
  | push n => n.WellFormed ∧ n.isBelowZero = false
  | store name | load name => IsName name
  | arithmetic _ | compare _ => True

instance : DecidablePred WellFormed
  | push _ => inferInstanceAs (Decidable (_ ∧ _))
  | store _ | load _ => inferInstanceAs (Decidable (IsName _))
  | arithmetic _ | compare _ => inferInstanceAs (Decidable True)

end Key

namespace Statement

/-- The statement can be written down inside a label. -/
def IsPlain : Statement → Prop
  | press _ key => key.WellFormed
  | call _ name => IsName name
  | label _ _ _ => False

/-- The statement can be written down at the top level. -/
def WellFormed : Statement → Prop
  | label _ name body => IsName name ∧ ∀ s ∈ body, s.IsPlain
  | s => s.IsPlain

instance : DecidablePred IsPlain
  | press _ key => inferInstanceAs (Decidable key.WellFormed)
  | call _ name => inferInstanceAs (Decidable (IsName name))
  | label _ _ _ => inferInstanceAs (Decidable False)

instance : DecidablePred WellFormed
  | press _ key => inferInstanceAs (Decidable key.WellFormed)
  | call _ name => inferInstanceAs (Decidable (IsName name))
  | label _ _ _ => inferInstanceAs (Decidable (_ ∧ _))

theorem IsPlain.wellFormed {s : Statement} (h : s.IsPlain) : s.WellFormed := by
  cases s with
  | press | call => exact h
  | label => exact h.elim

end Statement

def Program.WellFormed (p : Program) : Prop := ∀ s ∈ p.statements, s.WellFormed

instance (p : Program) : Decidable p.WellFormed :=
  inferInstanceAs (Decidable (∀ s ∈ p.statements, s.WellFormed))

namespace Reader

/-- Everything read so far can be written down. -/
structure WellFormed (r : Reader) : Prop where
  statements : ∀ s ∈ r.statements, s.WellFormed
  opened : ∀ l ∈ r.opened, IsName l.name ∧ ∀ s ∈ l.body, s.IsPlain

namespace WellFormed

variable {r : Reader}

theorem start : Reader.start.WellFormed := by
  constructor
  · intro s hs
    cases hs
  · intro l hl
    cases hl

theorem add (hr : r.WellFormed) {s : Statement} (hs : s.IsPlain) : (r.add s).WellFormed := by
  rw [Reader.add]
  split
  · next hopened =>
    refine ⟨List.forall_mem_cons.mpr ⟨hs.wellFormed, hr.statements⟩, ?_⟩
    intro l hl
    exact hr.opened l hl
  · next l hopened =>
    refine ⟨hr.statements, ?_⟩
    rintro _ ⟨⟩
    obtain ⟨hname, hbody⟩ := hr.opened l hopened
    exact ⟨hname, List.forall_mem_cons.mpr ⟨hs, hbody⟩⟩

theorem await (hr : r.WellFormed) (span : Span) (verb : Verb) :
    (r.await span verb).WellFormed :=
  ⟨hr.statements, hr.opened⟩

theorem named (hr : r.WellFormed) {name : String} (hname : IsName name) (span : Span)
    (verb : Verb) : (r.named span name verb).WellFormed := by
  cases verb with
  | store => exact hr.add hname
  | load => exact hr.add hname
  | call => exact hr.add hname
  | define =>
    refine ⟨hr.statements, ?_⟩
    rintro _ ⟨⟩
    exact ⟨hname, by simp⟩

theorem close (hr : r.WellFormed) {l : OpenLabel} (hl : r.opened = some l) :
    (r.close l).WellFormed := by
  obtain ⟨hname, hbody⟩ := hr.opened l hl
  refine ⟨List.forall_mem_cons.mpr ⟨⟨hname, ?_⟩, hr.statements⟩, ?_⟩
  · intro s hs
    exact hbody s (List.mem_reverse.mp hs)
  · intro l hl
    cases hl

theorem take {r' : Reader} {t : Token} (hr : r.WellFormed) (h : r.take t = .ok r') :
    r'.WellFormed := by
  obtain ⟨kind, text, span⟩ := t
  cases kind with
  | name => cases h
  | number =>
    simp only [Reader.take] at h
    split at h
    · next n hn =>
      cases h
      exact hr.add (Decimal.wellFormed_of_ofText? hn)
    · cases h
  | operator op =>
    cases h
    exact hr.add trivial
  | comparator c =>
    cases h
    exact hr.add trivial
  | word w =>
    cases w with
    | sto | rcl | xeq =>
      cases h
      exact hr.await span _
    | lbl =>
      simp only [Reader.take] at h
      split at h
      · cases h
        exact hr.await span _
      · cases h
    | rtn =>
      simp only [Reader.take] at h
      split at h
      · cases h
      · next l hl =>
        cases h
        exact hr.close hl

theorem next {r' : Reader} {t : Token} (hr : r.WellFormed)
    (ht : t.kind = .name → IsName t.text) (h : r.next t = .ok r') : r'.WellFormed := by
  rw [Reader.next] at h
  split at h
  · exact hr.take h
  · split at h
    · next hkind =>
      cases h
      have hanswered : ({ r with awaiting := none } : Reader).WellFormed :=
        ⟨hr.statements, hr.opened⟩
      exact hanswered.named (ht hkind) _ _
    · cases h

/-- Reading preserves the invariant from the first token to the last. -/
theorem foldlM {tokens : List Token} {r' : Reader} (hr : r.WellFormed)
    (htokens : ∀ t ∈ tokens, t.kind = .name → IsName t.text)
    (h : tokens.foldlM Reader.next r = .ok r') : r'.WellFormed := by
  induction tokens generalizing r with
  | nil =>
    cases h
    exact hr
  | cons t tokens ih =>
    obtain ⟨ht, hrest⟩ := List.forall_mem_cons.mp htokens
    rw [List.foldlM_cons] at h
    cases hnext : r.next t with
    | error fault => rw [hnext] at h; cases h
    | ok r₁ =>
      rw [hnext] at h
      exact ih (hr.next ht hnext) hrest h

theorem finish {p : Program} (hr : r.WellFormed) (h : r.finish = .ok p) : p.WellFormed := by
  rw [Reader.finish] at h
  split at h <;> cases h
  intro s hs
  exact hr.statements s (List.mem_reverse.mp hs)

end WellFormed

end Reader

/-- Compiling succeeds if each stage succeeds on the result of the one before. -/
theorem compile_eq_ok {source : String} {p : Program} :
    compile source = .ok p ↔ ∃ lexemes tokens, Lexeme.scan source = .ok lexemes ∧
      Token.ofLexemes lexemes = .ok tokens ∧ Program.ofTokens tokens = .ok p := by
  constructor
  · intro h
    rw [compile] at h
    cases hscan : Lexeme.scan source with
    | error fault => rw [hscan] at h; cases h
    | ok lexemes =>
      cases htokens : Token.ofLexemes lexemes with
      | error fault => rw [hscan] at h; simp [Bind.bind, Except.bind, htokens] at h
      | ok tokens =>
        refine ⟨lexemes, tokens, rfl, htokens, ?_⟩
        rw [hscan] at h
        simpa [Bind.bind, Except.bind, htokens] using h
  · rintro ⟨lexemes, tokens, hscan, htokens, hread⟩
    rw [compile, hscan]
    simpa [Bind.bind, Except.bind, htokens] using hread

/-- Reading succeeds if the tokens are accepted one by one and nothing is missing at the end. -/
theorem Program.ofTokens_eq_ok {tokens : List Token} {p : Program} :
    Program.ofTokens tokens = .ok p ↔
      ∃ r, tokens.foldlM Reader.next Reader.start = .ok r ∧ r.finish = .ok p := by
  rw [Program.ofTokens]
  cases tokens.foldlM Reader.next Reader.start with
  | error fault => simp [Bind.bind, Except.bind]
  | ok r => simp [Bind.bind, Except.bind]

/-- Pieces that are each read as one statement are read as the list of these statements. -/
theorem Reader.foldlM_flatMap {α : Type} {tokens : α → List Token} {statement : α → Statement}
    (reader : List Statement → Reader) {xs : List α}
    (h : ∀ x ∈ xs, ∀ before,
      (tokens x).foldlM Reader.next (reader before) = .ok (reader (statement x :: before)))
    (before : List Statement) :
    (xs.flatMap tokens).foldlM Reader.next (reader before) =
      .ok (reader ((xs.map statement).reverse ++ before)) := by
  induction xs generalizing before with
  | nil => rfl
  | cons x xs ih =>
    obtain ⟨hx, hrest⟩ := List.forall_mem_cons.mp h
    rw [List.flatMap_cons, List.foldlM_append, hx before]
    refine (ih hrest (statement x :: before)).trans ?_
    rw [List.map_cons, List.reverse_cons, List.append_assoc, List.singleton_append]

/-- Whatever a source text is compiled to can be written down. -/
theorem wellFormed_of_compile {source : String} {p : Program} (h : compile source = .ok p) :
    p.WellFormed := by
  obtain ⟨lexemes, tokens, hscan, htokens, hread⟩ := compile_eq_ok.mp h
  obtain ⟨r, hfold, hfinish⟩ := Program.ofTokens_eq_ok.mp hread
  have hnames := Token.isName_of_mem_ofLexemes (Lexeme.spells_of_mem_scanFrom hscan) htokens
  exact (Reader.WellFormed.start.foldlM hnames hfold).finish hfinish

end Keystroke
