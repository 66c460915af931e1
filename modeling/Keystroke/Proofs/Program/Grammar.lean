import Keystroke.Proofs.Program.WellFormed

/-!
# The grammar of programs

    program := clause*
    clause  := phrase | lbl NAME phrase* rtn
    phrase  := sto NAME | rcl NAME | xeq NAME | NUMBER | operator | comparator

The types below are the derivation trees of this grammar. Their constructors are its productions
and their leaves are tokens of the kinds that a production asks for, so a tree that breaks a rule
cannot be built. `tokens` reads the leaves from left to right and `statement` says what a tree
stands for.

The reader accepts exactly the lists of tokens that are the leaves of a derivation, and returns
the program of the derivation. No two derivations have the same leaves: the first token of a
phrase or clause tells which production it is and the production tells where it ends.
-/

namespace Keystroke

/-- A token of a given kind. Its text may be anything. -/
structure Terminal (kind : Token.Kind) where
  token : Token
  kind_eq : token.kind = kind

/-- Derivations of a statement that is not a label. -/
inductive Phrase where
  | store (keyword : Terminal (.word .sto)) (name : Terminal .name)
  | load (keyword : Terminal (.word .rcl)) (name : Terminal .name)
  | call (keyword : Terminal (.word .xeq)) (name : Terminal .name)
  | number (numeral : Terminal .number) (n : Decimal)
      (reads : Decimal.ofText? numeral.token.text = some n)
  | operator (op : Operator) (symbol : Terminal (.operator op))
  | comparator (c : Comparator) (symbol : Terminal (.comparator c))

/-- Derivations of a statement at the top level. -/
inductive Clause where
  | plain (phrase : Phrase)
  | label (opening : Terminal (.word .lbl)) (name : Terminal .name) (body : List Phrase)
      (closing : Terminal (.word .rtn))

/-- Derivations of a program. -/
structure Derivation where
  clauses : List Clause

namespace Phrase

def tokens : Phrase → List Token
  | store keyword name | load keyword name | call keyword name => [keyword.token, name.token]
  | number numeral _ _ => [numeral.token]
  | operator _ symbol => [symbol.token]
  | comparator _ symbol => [symbol.token]

/-- The statement of a phrase, at the place of its first token. -/
def statement : Phrase → Statement
  | store keyword name => .press keyword.token.span (.store name.token.text)
  | load keyword name => .press keyword.token.span (.load name.token.text)
  | call keyword name => .call keyword.token.span name.token.text
  | number numeral n _ => .press numeral.token.span (.push n)
  | operator op symbol => .press symbol.token.span (.arithmetic op)
  | comparator c symbol => .press symbol.token.span (.compare c)

end Phrase

namespace Clause

def tokens : Clause → List Token
  | plain phrase => phrase.tokens
  | label opening name body closing =>
    opening.token :: name.token :: (body.flatMap Phrase.tokens ++ [closing.token])

def statement : Clause → Statement
  | plain phrase => phrase.statement
  | label opening name body _ =>
    .label opening.token.span name.token.text (body.map Phrase.statement)

end Clause

namespace Derivation

def tokens (d : Derivation) : List Token := d.clauses.flatMap Clause.tokens

def program (d : Derivation) : Program := ⟨d.clauses.map Clause.statement⟩

end Derivation

section Completeness

/-- Between two statements a phrase is read as a whole and put where it belongs. -/
theorem Phrase.foldlM_tokens (x : Phrase) {r : Reader} (hr : r.awaiting = none) :
    x.tokens.foldlM Reader.next r = .ok (r.add x.statement) := by
  obtain ⟨statements, opened, awaiting⟩ := r
  cases hr
  cases x with
  | store keyword name | load keyword name | call keyword name =>
    simp only [tokens, List.foldlM_cons, List.foldlM_nil, Reader.next, Reader.take,
      keyword.kind_eq]
    simp only [Bind.bind, Except.bind, Reader.await, name.kind_eq, if_true]
    rfl
  | number numeral n reads =>
    simp only [tokens, List.foldlM_cons, List.foldlM_nil, Reader.next, Reader.take,
      numeral.kind_eq, reads]
    rfl
  | operator op symbol | comparator c symbol =>
    simp only [tokens, List.foldlM_cons, List.foldlM_nil, Reader.next, Reader.take,
      symbol.kind_eq]
    rfl

/-- At the top level a clause is read as a whole. -/
theorem Clause.foldlM_tokens (x : Clause) (statements : List Statement) :
    x.tokens.foldlM Reader.next ⟨statements, none, none⟩ =
      .ok ⟨x.statement :: statements, none, none⟩ := by
  cases x with
  | plain phrase => exact phrase.foldlM_tokens rfl
  | label opening name body closing =>
    -- The first two tokens open the label, the phrases fill it and the last token closes it.
    have hopen : Reader.next ⟨statements, none, none⟩ opening.token =
        .ok ⟨statements, none, some (opening.token.span, .define)⟩ := by
      simp only [Reader.next, Reader.take, opening.kind_eq]
      rfl
    have hname : Reader.next ⟨statements, none, some (opening.token.span, .define)⟩ name.token =
        .ok ⟨statements, some ⟨opening.token.span, name.token.text, []⟩, none⟩ := by
      simp only [Reader.next, name.kind_eq, if_true]
      rfl
    have hbody := Reader.foldlM_flatMap
      (fun before => ⟨statements, some ⟨opening.token.span, name.token.text, before⟩, none⟩)
      (fun (x : Phrase) (_ : x ∈ body) _ => x.foldlM_tokens rfl) []
    have hclose : ∀ reversed : List Statement, Reader.next
        ⟨statements, some ⟨opening.token.span, name.token.text, reversed⟩, none⟩ closing.token =
        .ok ⟨.label opening.token.span name.token.text reversed.reverse :: statements, none,
          none⟩ := by
      intro reversed
      simp only [Reader.next, Reader.take, closing.kind_eq]
      rfl
    rw [List.append_nil] at hbody
    simp only [tokens, List.foldlM_cons, hopen, hname, List.foldlM_append, hbody, hclose,
      List.foldlM_nil, Bind.bind, Except.bind, Pure.pure, Except.pure, List.reverse_reverse]
    rfl

/-- The leaves of every derivation are accepted and give its program. -/
theorem Derivation.ofTokens_tokens (d : Derivation) :
    Program.ofTokens d.tokens = .ok d.program := by
  have hfold := Reader.foldlM_flatMap (fun before => ⟨before, none, none⟩)
    (fun (x : Clause) (_ : x ∈ d.clauses) before => x.foldlM_tokens before) []
  refine Program.ofTokens_eq_ok.mpr ⟨_, hfold, ?_⟩
  rw [Reader.finish, List.append_nil, List.reverse_reverse]
  rfl

end Completeness

section Soundness

/-- `Reads ts r` says that a reader that has read `ts` and stands at `r` stands inside a
derivation: behind some clauses, or behind some phrases of a label, or behind a keyword that waits
for its name. -/
inductive Reads : List Token → Reader → Prop where
  | outside (clauses : List Clause) :
      Reads (clauses.flatMap Clause.tokens) ⟨(clauses.map Clause.statement).reverse, none, none⟩
  | inside (clauses : List Clause) (opening : Terminal (.word .lbl)) (name : Terminal .name)
      (body : List Phrase) :
      Reads (clauses.flatMap Clause.tokens ++
          opening.token :: name.token :: body.flatMap Phrase.tokens)
        ⟨(clauses.map Clause.statement).reverse,
          some ⟨opening.token.span, name.token.text, (body.map Phrase.statement).reverse⟩, none⟩
  | defining (clauses : List Clause) (opening : Terminal (.word .lbl)) :
      Reads (clauses.flatMap Clause.tokens ++ [opening.token])
        ⟨(clauses.map Clause.statement).reverse, none, some (opening.token.span, .define)⟩
  | naming {ts : List Token} {r : Reader} {verb : Verb} (keyword : Token)
      (phrase : Terminal .name → Phrase) (before : Reads ts r) (between : r.awaiting = none)
      (tokens : ∀ name, (phrase name).tokens = [keyword, name.token])
      (named : ∀ name, r.named keyword.span name.token.text verb = r.add (phrase name).statement) :
      Reads (ts ++ [keyword]) (r.await keyword.span verb)

namespace Reads

variable {ts : List Token} {t : Token} {r r' : Reader}

/-- Reading a whole phrase stays inside a derivation. -/
theorem add (h : Reads ts r) (hr : r.awaiting = none) (x : Phrase) :
    Reads (ts ++ x.tokens) (r.add x.statement) := by
  cases h with
  | outside clauses =>
    have hclauses := outside (clauses ++ [Clause.plain x])
    simpa [Reader.add, Clause.tokens, Clause.statement] using hclauses
  | inside clauses opening name body =>
    simpa [Reader.add] using inside clauses opening name (body ++ [x])
  | defining | naming => cases hr

/-- Reading a token that starts a statement or ends a label stays inside a derivation. -/
theorem take (h : Reads ts r) (hr : r.awaiting = none) (ht : r.take t = .ok r') :
    Reads (ts ++ [t]) r' := by
  cases hkind : t.kind with
  | name => simp [Reader.take, hkind] at ht
  | number =>
    simp only [Reader.take, hkind] at ht
    split at ht
    · next n hn =>
      cases ht
      exact h.add hr (.number ⟨t, hkind⟩ n hn)
    · cases ht
  | operator op =>
    simp only [Reader.take, hkind] at ht
    cases ht
    exact h.add hr (.operator op ⟨t, hkind⟩)
  | comparator c =>
    simp only [Reader.take, hkind] at ht
    cases ht
    exact h.add hr (.comparator c ⟨t, hkind⟩)
  | word w =>
    cases w with
    | sto =>
      simp only [Reader.take, hkind] at ht
      cases ht
      exact naming t (.store ⟨t, hkind⟩) h hr (fun _ => rfl) (fun _ => rfl)
    | rcl =>
      simp only [Reader.take, hkind] at ht
      cases ht
      exact naming t (.load ⟨t, hkind⟩) h hr (fun _ => rfl) (fun _ => rfl)
    | xeq =>
      simp only [Reader.take, hkind] at ht
      cases ht
      exact naming t (.call ⟨t, hkind⟩) h hr (fun _ => rfl) (fun _ => rfl)
    | lbl =>
      cases h with
      | outside clauses =>
        simp only [Reader.take, hkind] at ht
        cases ht
        exact defining clauses ⟨t, hkind⟩
      | inside => simp [Reader.take, hkind] at ht
      | defining | naming => cases hr
    | rtn =>
      cases h with
      | outside => simp [Reader.take, hkind] at ht
      | inside clauses opening name body =>
        simp only [Reader.take, hkind] at ht
        cases ht
        have hclauses := outside (clauses ++ [Clause.label opening name body ⟨t, hkind⟩])
        simpa [Reader.close, Clause.tokens, Clause.statement] using hclauses
      | defining | naming => cases hr

/-- Reading one token stays inside a derivation. -/
theorem next (h : Reads ts r) (ht : r.next t = .ok r') : Reads (ts ++ [t]) r' := by
  cases hr : r.awaiting with
  | none =>
    rw [Reader.next, hr] at ht
    exact h.take hr ht
  | some waiting =>
    simp only [Reader.next, hr] at ht
    split at ht
    · next hkind =>
      cases ht
      cases h with
      | outside | inside => cases hr
      | defining clauses opening =>
        cases hr
        simpa [Reader.named] using inside clauses opening ⟨t, hkind⟩ []
      | @naming ts r verb keyword phrase before between tokens named =>
        cases hr
        have hback : ({ r.await keyword.span verb with awaiting := none } : Reader) = r := by
          rw [Reader.await, ← between]
        rw [hback, named ⟨t, hkind⟩, List.append_assoc, List.singleton_append,
          ← tokens ⟨t, hkind⟩]
        exact before.add between _
    · cases ht

/-- Reading any number of tokens stays inside a derivation. -/
theorem foldlM {us : List Token} (h : Reads ts r) (hus : us.foldlM Reader.next r = .ok r') :
    Reads (ts ++ us) r' := by
  induction us generalizing ts r with
  | nil =>
    cases hus
    rwa [List.append_nil]
  | cons t us ih =>
    rw [List.foldlM_cons] at hus
    cases hnext : r.next t with
    | error fault => rw [hnext] at hus; cases hus
    | ok r₁ =>
      rw [hnext] at hus
      simpa using ih (h.next hnext) hus

/-- A reader that has nothing left to wait for stands at the end of a derivation. -/
theorem finish {p : Program} (h : Reads ts r) (hp : r.finish = .ok p) :
    ∃ d : Derivation, d.tokens = ts ∧ d.program = p := by
  cases h with
  | outside clauses =>
    refine ⟨⟨clauses⟩, rfl, ?_⟩
    rw [Reader.finish, List.reverse_reverse] at hp
    exact Except.ok.inj hp
  | inside | defining => cases hp
  | naming => simp [Reader.finish, Reader.await] at hp

end Reads

end Soundness

section Unambiguity

theorem Terminal.ext_token {kind : Token.Kind} {a b : Terminal kind} (h : a.token = b.token) :
    a = b := by
  cases a
  cases b
  cases h
  rfl

/-- A token is of one kind only. -/
theorem Terminal.kind_unique {kind kind' : Token.Kind} {a : Terminal kind} {b : Terminal kind'}
    (h : a.token = b.token) : kind = kind' := by
  rw [← a.kind_eq, ← b.kind_eq, h]

/-- Where each piece is recognised at its beginning, a list of pieces can be told from what
follows, if no piece begins there. -/
theorem flatMap_append_inj {α β : Type} {f : α → List β}
    (hf : ∀ {x y us vs}, f x ++ us = f y ++ vs → x = y ∧ us = vs) {us vs : List β}
    (hus : ∀ x ws, f x ++ ws ≠ us) (hvs : ∀ x ws, f x ++ ws ≠ vs) {xs ys : List α}
    (h : xs.flatMap f ++ us = ys.flatMap f ++ vs) : xs = ys ∧ us = vs := by
  induction xs generalizing ys with
  | nil =>
    cases ys with
    | nil => exact ⟨rfl, h⟩
    | cons y ys =>
      refine absurd ?_ (hus y (ys.flatMap f ++ vs))
      simpa using h.symm
  | cons x xs ih =>
    cases ys with
    | nil =>
      refine absurd ?_ (hvs x (xs.flatMap f ++ us))
      simpa using h
    | cons y ys =>
      simp only [List.flatMap_cons, List.append_assoc] at h
      obtain ⟨rfl, hrest⟩ := hf h
      obtain ⟨rfl, htail⟩ := ih hrest
      exact ⟨rfl, htail⟩

namespace Phrase

def leading : Phrase → Token.Kind
  | store _ _ => .word .sto
  | load _ _ => .word .rcl
  | call _ _ => .word .xeq
  | number _ _ _ => .number
  | operator op _ => .operator op
  | comparator c _ => .comparator c

theorem exists_leading (x : Phrase) :
    ∃ (first : Terminal x.leading) (rest : List Token), x.tokens = first.token :: rest := by
  cases x with
  | store keyword name | load keyword name | call keyword name => exact ⟨keyword, _, rfl⟩
  | number numeral _ _ => exact ⟨numeral, _, rfl⟩
  | operator op symbol | comparator c symbol => exact ⟨symbol, _, rfl⟩

/-- The first token of a phrase tells the production, and the production tells how many tokens
belong to it. -/
theorem tokens_append_inj {x y : Phrase} {us vs : List Token}
    (h : x.tokens ++ us = y.tokens ++ vs) : x = y ∧ us = vs := by
  have hleading : x.leading = y.leading := by
    obtain ⟨first, rest, hx⟩ := x.exists_leading
    obtain ⟨first', rest', hy⟩ := y.exists_leading
    rw [hx, hy] at h
    exact Terminal.kind_unique (List.cons.inj h).1
  cases x with
  | store keyword name | load keyword name | call keyword name =>
    cases y <;> cases hleading
    rename_i keyword' name'
    simp only [tokens, List.cons_append, List.nil_append, List.cons.injEq] at h
    obtain ⟨hkeyword, hname, hrest⟩ := h
    cases Terminal.ext_token hkeyword
    cases Terminal.ext_token hname
    exact ⟨rfl, hrest⟩
  | number numeral n reads =>
    cases y <;> cases hleading
    rename_i numeral' n' reads'
    simp only [tokens, List.cons_append, List.nil_append, List.cons.injEq] at h
    cases Terminal.ext_token h.1
    -- The same text cannot be read as two numbers.
    cases reads.symm.trans reads'
    exact ⟨rfl, h.2⟩
  | operator op symbol | comparator c symbol =>
    cases y <;> cases hleading
    rename_i symbol'
    simp only [tokens, List.cons_append, List.nil_append, List.cons.injEq] at h
    cases Terminal.ext_token h.1
    exact ⟨rfl, h.2⟩

/-- No phrase starts with `lbl` or `rtn`. -/
theorem leading_ne (x : Phrase) : x.leading ≠ .word .lbl ∧ x.leading ≠ .word .rtn := by
  cases x <;> exact ⟨nofun, nofun⟩

theorem tokens_append_ne {kind : Token.Kind} {x : Phrase} (hkind : x.leading ≠ kind)
    (t : Terminal kind) (us vs : List Token) : x.tokens ++ us ≠ t.token :: vs := by
  obtain ⟨first, rest, hx⟩ := x.exists_leading
  rw [hx]
  intro h
  exact hkind (Terminal.kind_unique (List.cons.inj h).1)

end Phrase

namespace Clause

/-- A label ends at the first `rtn`, and everything else is a phrase. -/
theorem tokens_append_inj {x y : Clause} {us vs : List Token}
    (h : x.tokens ++ us = y.tokens ++ vs) : x = y ∧ us = vs := by
  cases x with
  | plain phrase =>
    cases y with
    | plain phrase' =>
      obtain ⟨rfl, hrest⟩ := Phrase.tokens_append_inj h
      exact ⟨rfl, hrest⟩
    | label opening name body closing =>
      exact absurd h (Phrase.tokens_append_ne phrase.leading_ne.1 opening _ _)
  | label opening name body closing =>
    cases y with
    | plain phrase =>
      exact absurd h.symm (Phrase.tokens_append_ne phrase.leading_ne.1 opening _ _)
    | label opening' name' body' closing' =>
      simp only [tokens, List.cons_append, List.append_assoc, List.nil_append,
        List.cons.injEq] at h
      obtain ⟨hopening, hname, hrest⟩ := h
      cases Terminal.ext_token hopening
      cases Terminal.ext_token hname
      obtain ⟨rfl, hend⟩ := flatMap_append_inj Phrase.tokens_append_inj
        (fun x ws => Phrase.tokens_append_ne x.leading_ne.2 closing ws us)
        (fun x ws => Phrase.tokens_append_ne x.leading_ne.2 closing' ws vs) hrest
      obtain ⟨hclosing, htail⟩ := List.cons.inj hend
      cases Terminal.ext_token hclosing
      exact ⟨rfl, htail⟩

theorem tokens_append_ne_nil (x : Clause) (us : List Token) : x.tokens ++ us ≠ [] := by
  cases x with
  | plain phrase =>
    obtain ⟨first, rest, hphrase⟩ := phrase.exists_leading
    simp [tokens, hphrase]
  | label => simp [tokens]

end Clause

/-- No list of tokens has two derivations. -/
theorem Derivation.injective_tokens : Function.Injective Derivation.tokens := by
  rintro ⟨xs⟩ ⟨ys⟩ h
  have hleaves : xs.flatMap Clause.tokens ++ [] = ys.flatMap Clause.tokens ++ [] := by
    rw [List.append_nil, List.append_nil]
    exact h
  obtain ⟨rfl, -⟩ := flatMap_append_inj Clause.tokens_append_inj
    Clause.tokens_append_ne_nil Clause.tokens_append_ne_nil hleaves
  rfl

end Unambiguity

/-- The grammar is unambiguous, and reading is deriving: a program is read from some tokens if and
only if they are, from the first to the last, the leaves of a derivation of that program. -/
theorem Program.ofTokens_eq_ok_iff_derivation :
    Function.Injective Derivation.tokens ∧
      ∀ (tokens : List Token) (p : Program), Program.ofTokens tokens = .ok p ↔
        ∃ d : Derivation, d.tokens = tokens ∧ d.program = p := by
  refine ⟨Derivation.injective_tokens, ?_⟩
  intro tokens p
  constructor
  · intro h
    obtain ⟨r, hfold, hfinish⟩ := Program.ofTokens_eq_ok.mp h
    exact ((Reads.outside []).foldlM hfold).finish hfinish
  · rintro ⟨d, rfl, rfl⟩
    exact d.ofTokens_tokens

end Keystroke
