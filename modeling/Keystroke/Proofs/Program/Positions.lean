import Keystroke.Proofs.Machine.Failure
import Keystroke.Proofs.Program.Grammar
import Keystroke.Proofs.Program.ViablePrefix
import Keystroke.Proofs.TokenPositions

/-!
# Positions of statements and faults

A statement stands where its first token stands, and a fault where the token or statement stands
that it is about. So what is true of the spans of tokens is true of all of them. The statements of
a compiled program stand in the text one behind the other, each at the word, symbol or numeral that
it starts with. A fault of compiling stands at the characters that it is about, and a fault of a run
at the statement that failed.
-/

namespace Keystroke

section Listed

namespace Statement

mutual

/-- The statement, and behind a label the statements of its body. -/
def listed : Statement → List Statement
  | press span key => [press span key]
  | call span name => [call span name]
  | label span name body => label span name body :: listedOfAll body

def listedOfAll : List Statement → List Statement
  | [] => []
  | s :: rest => listed s ++ listedOfAll rest

end

theorem listedOfAll_eq (ss : List Statement) : listedOfAll ss = ss.flatMap listed := by
  induction ss with
  | nil => rfl
  | cons s ss ih => rw [listedOfAll, ih, List.flatMap_cons]

theorem mem_listed_self (s : Statement) : s ∈ s.listed := by
  cases s <;> simp [listed]

end Statement

def Program.listed (p : Program) : List Statement := Statement.listedOfAll p.statements

theorem Program.listed_eq (p : Program) : p.listed = p.statements.flatMap Statement.listed :=
  Statement.listedOfAll_eq p.statements

/-- What is executed is listed. -/
theorem Program.IsBody.mem_listed {p : Program} {body : List Statement} {s : Statement}
    (h : p.IsBody body) (hs : s ∈ body) : s ∈ p.listed := by
  rw [Program.listed_eq, List.mem_flatMap]
  rcases h with rfl | ⟨l, hl, rfl⟩
  · exact ⟨s, hs, s.mem_listed_self⟩
  · obtain ⟨t, ht, hlabel⟩ := List.mem_filterMap.mp hl
    refine ⟨t, ht, ?_⟩
    cases t with
    | press | call => cases hlabel
    | label span name body =>
      cases hlabel
      rw [Statement.listed, Statement.listedOfAll_eq]
      exact List.mem_cons_of_mem _ (List.mem_flatMap.mpr ⟨s, hs, s.mem_listed_self⟩)

end Listed

section FirstTokens

/-- The text is the word or symbol that a statement starts with, or a numeral that is read as the
number that it pushes. -/
def Statement.StartsWith : Statement → String → Prop
  | press _ (.push n), text => Decimal.ofText? text = some n
  | press _ (.store _), text => text = Keyword.sto.text
  | press _ (.load _), text => text = Keyword.rcl.text
  | press _ (.arithmetic op), text => text = op.text
  | press _ (.compare c), text => text = c.text
  | call _ _, text => text = Keyword.xeq.text
  | label _ _ _, text => text = Keyword.lbl.text

/-- The token stands where the statement does, and the statement starts with it if its text is that
of its kind. -/
structure Token.Starts (t : Token) (s : Statement) : Prop where
  span_eq : t.span = s.span
  startsWith : (∀ text, t.kind.text? = some text → t.text = text) → s.StartsWith t.text

def Phrase.first : Phrase → Token
  | store keyword _ | load keyword _ | call keyword _ => keyword.token
  | number numeral _ _ => numeral.token
  | operator _ symbol => symbol.token
  | comparator _ symbol => symbol.token

def Clause.firsts : Clause → List Token
  | plain phrase => [phrase.first]
  | label opening _ body _ => opening.token :: body.map Phrase.first

def Derivation.firsts (d : Derivation) : List Token := d.clauses.flatMap Clause.firsts

theorem Phrase.first_sublist (x : Phrase) : [x.first].Sublist x.tokens := by
  cases x <;> simp [first, tokens]

theorem Clause.firsts_sublist (x : Clause) : x.firsts.Sublist x.tokens := by
  cases x with
  | plain phrase => exact phrase.first_sublist
  | label opening name body closing =>
    have hbody : (body.map Phrase.first).Sublist (body.flatMap Phrase.tokens) := by
      rw [List.map_eq_flatMap]
      exact List.Sublist.flatMap_right body fun x _ => x.first_sublist
    exact ((hbody.trans (List.sublist_append_left _ _)).cons _).cons_cons _

theorem Derivation.firsts_sublist (d : Derivation) : d.firsts.Sublist d.tokens :=
  List.Sublist.flatMap_right d.clauses fun x _ => x.firsts_sublist

theorem Phrase.starts_first (x : Phrase) : x.first.Starts x.statement := by
  constructor
  · cases x <;> rfl
  · intro h
    cases x with
    | store keyword | load keyword | call keyword =>
      exact h _ (by rw [first, keyword.kind_eq]; rfl)
    | operator op symbol | comparator c symbol =>
      exact h _ (by rw [first, symbol.kind_eq]; rfl)
    | number numeral n reads => exact reads

/-- A phrase is a single statement. -/
theorem Phrase.listed_statement (x : Phrase) : x.statement.listed = [x.statement] := by
  cases x <;> rfl

theorem Clause.starts_firsts (x : Clause) :
    List.Forall₂ Token.Starts x.firsts x.statement.listed := by
  cases x with
  | plain phrase =>
    show List.Forall₂ _ [phrase.first] phrase.statement.listed
    rw [phrase.listed_statement]
    exact .cons phrase.starts_first .nil
  | label opening name body closing =>
    have hbody : Statement.listedOfAll (body.map Phrase.statement) =
        body.map Phrase.statement := by
      rw [Statement.listedOfAll_eq, List.flatMap_map,
        List.flatMap_congr fun x _ => x.listed_statement, ← List.map_eq_flatMap]
    rw [statement, Statement.listed, hbody]
    refine .cons ⟨rfl, fun h => h _ (by rw [opening.kind_eq]; rfl)⟩ ?_
    rw [List.forall₂_map_left_iff, List.forall₂_map_right_iff, List.forall₂_same]
    exact fun x _ => x.starts_first

/-- The first tokens of a derivation start the statements of its program, in the order of the
listing. -/
theorem Derivation.starts_firsts (d : Derivation) :
    List.Forall₂ Token.Starts d.firsts d.program.listed := by
  rw [Program.listed_eq, Derivation.program, List.flatMap_map, firsts]
  induction d.clauses with
  | nil => exact .nil
  | cons x clauses ih =>
    rw [List.flatMap_cons, List.flatMap_cons]
    exact List.rel_append x.starts_firsts ih

end FirstTokens

section Statements

variable {source : String} {p : Program}

/-- The statements of a compiled program start with tokens of its source text. -/
theorem exists_firsts_of_compile (h : compile source = .ok p) :
    ∃ tokens firsts, Token.TokensOf source.toList tokens ∧ firsts.Sublist tokens ∧
      List.Forall₂ Token.Starts firsts p.listed := by
  obtain ⟨lexemes, tokens, hscan, htokens, hread⟩ := compile_eq_ok.mp h
  obtain ⟨r, hfold, hfinish⟩ := Program.ofTokens_eq_ok.mp hread
  obtain ⟨d, rfl, rfl⟩ := ((Reads.outside []).foldlM hfold).finish hfinish
  exact ⟨_, d.firsts, ⟨lexemes, (Lexeme.scanFrom_eq_ok_iff List.length_nil).mp hscan, htokens⟩,
    d.firsts_sublist, d.starts_firsts⟩

theorem exists_shows_of_compile (h : compile source = .ok p) :
    ∀ s ∈ p.listed, ∃ text, s.span.Shows source.toList text ∧ s.StartsWith text := by
  obtain ⟨tokens, firsts, htokens, hfirsts, hstarts⟩ := exists_firsts_of_compile h
  intro s hs
  obtain ⟨t, ht, hstart⟩ := exists_of_mem_forall₂ hstarts s hs
  have hstands := htokens.standsIn t (hfirsts.subset ht)
  exact ⟨t.text, hstart.span_eq ▸ hstands.shows_text, hstart.startsWith hstands.text_eq⟩

theorem ordered_of_compile (h : compile source = .ok p) :
    p.listed.Pairwise fun s later => s.span.stop ≤ later.span.start := by
  obtain ⟨tokens, firsts, htokens, hfirsts, hstarts⟩ := exists_firsts_of_compile h
  refine ordered_of_forall₂ hstarts ?_ (htokens.ordered.sublist hfirsts)
  intro t s hstart
  exact hstart.span_eq

end Statements

section Faults

/-- What stands in the source text at the place of a fault: the text of the fault, unless a name or
an `rtn` is missing at the end of the source, or the fault is that of a statement in a run. -/
def Fault.StandsIn (f : Fault) (cs : List Char) : Prop :=
  match f.kind with
  | .unexpectedCharacter | .malformedNumber | .unexpectedToken | .nestedLabel =>
    f.span.Shows cs f.text
  | .expectedIdentifier =>
    f.span.Shows cs f.text ∨
      f.text = "" ∧ ∃ before last, Token.TokensOf cs (before ++ [last]) ∧ f.span = last.span.after
  | .missingReturn =>
    f.span.Shows cs Keyword.lbl.text ∧ IsName f.text ∧
      ∃ before opening name after, Token.TokensOf cs (before ++ opening :: name :: after) ∧
        opening.span = f.span ∧ name.text = f.text
  | .undefinedVariable => f.span.Shows cs Keyword.rcl.text
  | .undefinedLabel | .callStackOverflow => f.span.Shows cs Keyword.xeq.text
  | .divisionByZero | .divisionPrecisionUndefined => f.span.Shows cs Operator.divide.text
  | .stepLimitExceeded => ∃ text, f.span.Shows cs text
  | .unknownSymbol => False

variable {r : Reader} {t : Token} {tokens : List Token} {fault : Fault}

/-- A token that is refused is what the fault is about. -/
theorem Reader.next_eq_error (h : r.next t = .error fault) :
    fault.kind ∈ [.expectedIdentifier, .malformedNumber, .unexpectedToken, .nestedLabel] ∧
      fault.span = t.span ∧ fault.text = t.text := by
  cases refuses_of_next h <;> exact ⟨by simp, rfl, rfl⟩

/-- Compiling fails at the first stage that fails on the result of the one before. -/
theorem compile_eq_error {source : String} (h : compile source = .error fault) :
    Lexeme.scan source = .error fault ∨
      ∃ lexemes, Lexeme.scan source = .ok lexemes ∧
        (Token.ofLexemes lexemes = .error fault ∨
          ∃ tokens, Token.ofLexemes lexemes = .ok tokens ∧
            Program.ofTokens tokens = .error fault) := by
  rw [compile] at h
  cases hscan : Lexeme.scan source with
  | error other =>
    rw [hscan] at h
    cases h
    exact .inl rfl
  | ok lexemes =>
    refine .inr ⟨lexemes, rfl, ?_⟩
    cases htokens : Token.ofLexemes lexemes with
    | error other =>
      simp only [hscan, htokens, Bind.bind, Except.bind] at h
      cases h
      exact .inl rfl
    | ok tokens =>
      simp only [hscan, htokens, Bind.bind, Except.bind] at h
      exact .inr ⟨tokens, rfl, h⟩

namespace Fault

variable {cs : List Char} {source : String} {p : Program}

theorem standsIn_of_shows (h : fault.span.Shows cs fault.text)
    (hkind : fault.kind ∈ [.unexpectedCharacter, .expectedIdentifier, .malformedNumber,
      .unexpectedToken, .nestedLabel]) :
    fault.stage ≠ .runtime ∧ fault.StandsIn cs := by
  obtain ⟨kind, span, text⟩ := fault
  simp only [List.mem_cons, List.not_mem_nil, or_false] at hkind
  rcases hkind with rfl | rfl | rfl | rfl | rfl
  · exact ⟨nofun, h⟩
  · exact ⟨nofun, .inl h⟩
  · exact ⟨nofun, h⟩
  · exact ⟨nofun, h⟩
  · exact ⟨nofun, h⟩

theorem standsIn_of_ofTokens (htokens : Token.TokensOf cs tokens)
    (h : Program.ofTokens tokens = .error fault) :
    fault.stage ≠ .runtime ∧ fault.StandsIn cs := by
  rcases Program.ofTokens_eq_error h with hfold | ⟨r, hfold, hfinish⟩
  · obtain ⟨before, t, after, r, rfl, -, hnext⟩ := Reader.exists_of_foldlM_error hfold
    obtain ⟨hkind, hspan, htext⟩ := Reader.next_eq_error hnext
    refine standsIn_of_shows ?_ (List.mem_cons_of_mem _ hkind)
    rw [hspan, htext]
    exact (htokens.standsIn t (by simp)).shows_text
  · have hrecalls : r.Recalls tokens := Reader.Recalls.start.foldlM hfold
    rcases hrecalls.finish hfinish with ⟨last, hlast, -, rfl⟩ |
      ⟨-, opening, name, ⟨hopening, hname, before, after, rfl, -⟩, rfl⟩
    · obtain ⟨before, rfl⟩ := List.getLast?_eq_some_iff.mp hlast
      exact ⟨nofun, .inr ⟨rfl, before, last, htokens, rfl⟩⟩
    · have hstands := htokens.standsIn opening (by simp)
      have hshows := hstands.shows_text
      rw [hstands.text_eq Keyword.lbl.text (by rw [hopening]; rfl)] at hshows
      exact ⟨nofun, hshows, htokens.isName (by simp) hname, before, opening, name, after,
        htokens, rfl, rfl⟩

/-- A fault of compiling is not one of a run, and stands where its kind says. -/
theorem standsIn_of_compile (h : compile source = .error fault) :
    fault.stage ≠ .runtime ∧ fault.StandsIn source.toList := by
  rcases compile_eq_error h with hscan | ⟨lexemes, hscan, hlex | ⟨tokens, htokens, hread⟩⟩
  · obtain ⟨hkind, hshows⟩ := Lexeme.shows_of_scan_error hscan
    exact standsIn_of_shows hshows (by simp [hkind])
  · have hlexemes := Lexeme.standsIn_of_scan hscan
    obtain ⟨before, l, after, rfl, -, -, rfl⟩ := (Token.ofLexemes_eq_error_iff hlexemes).mp hlex
    have hstands := hlexemes l (by simp)
    exact standsIn_of_shows ⟨hstands.nonempty, hstands.inRange, hstands.text_eq.symm⟩ (by simp)
  · exact standsIn_of_ofTokens (Token.tokensOf_of_scan hscan htokens) hread

/-- The place of a fault lies in the text. -/
theorem StandsIn.inRange (h : fault.StandsIn cs) :
    fault.span.start ≤ fault.span.stop ∧ fault.span.stop ≤ cs.length := by
  have hshown : ∀ {span : Span} {text : String}, span.Shows cs text →
      span.start ≤ span.stop ∧ span.stop ≤ cs.length := fun hshows =>
    ⟨Nat.le_of_lt hshows.nonempty, hshows.inRange⟩
  obtain ⟨kind, span, text⟩ := fault
  cases kind with
  | expectedIdentifier =>
    rcases h with hshows | ⟨-, before, last, htokens, hspan⟩
    · exact hshown hshows
    · subst hspan
      exact ⟨Nat.le_refl _, (htokens.standsIn last (by simp)).shows_text.inRange⟩
  | missingReturn => exact hshown h.1
  | stepLimitExceeded =>
    obtain ⟨text, hshows⟩ := h
    exact hshown hshows
  | unknownSymbol => exact h.elim
  | _ => exact hshown h

/-- The fault of a statement stands where its kind says, if the statement stands in the text. -/
theorem standsIn_of_fails {m n : Machine} {s : Statement} {text : String}
    (h : m.Fails s fault n) (hshows : s.span.Shows cs text) (hstarts : s.StartsWith text) :
    fault.stage = .runtime ∧ fault.StandsIn cs := by
  cases h with
  | stepLimitExceeded => exact ⟨rfl, text, hshows⟩
  | undefinedVariable | undefinedLabel | callStackOverflow | divisionByZero
  | divisionPrecisionUndefined =>
    subst hstarts
    exact ⟨rfl, hshows⟩

/-- A run fails at a statement of the program that is not a label, and the fault of the run stands
where its kind says. -/
theorem standsIn_of_run {m : Machine} (h : compile source = .ok p)
    (hfault : (m.run p).fault = some fault) :
    fault.stage = .runtime ∧ fault.StandsIn source.toList ∧
      ∃ s ∈ p.listed, s.isLabel = false ∧ s.span = fault.span := by
  obtain ⟨e, s, depth, hreaches, hpending, -, -, hfails⟩ := Machine.exists_fails_of_run hfault
  obtain ⟨hlabel, rest, below, hitems⟩ := Execution.pending?_eq_some hpending
  obtain ⟨body, hbody, hmem⟩ := hreaches.covers.exists_mem hitems
  have hs : s ∈ p.listed := hbody.mem_listed hmem
  obtain ⟨text, hshows, hstarts⟩ := exists_shows_of_compile h s hs
  obtain ⟨hstage, hstands⟩ := standsIn_of_fails hfails hshows hstarts
  exact ⟨hstage, hstands, s, hs, hlabel, hfails.span_eq.symm⟩

end Fault

end Faults

/-- Positions survive from the source text to the faults of a run. The statements of a compiled
program, each label before its body, stand in the text one behind the other, each at the word,
symbol or numeral that it starts with. What refuses to compile has a fault that lies in the text
and stands where its kind says. And if a run of a compiled program fails, on any machine, its fault
stands at the statement that failed. -/
theorem compile_positions (source : String) :
    (∀ p, compile source = .ok p →
      (∀ s ∈ p.listed, ∃ text, s.span.Shows source.toList text ∧ s.StartsWith text) ∧
      (p.listed.Pairwise fun s later => s.span.stop ≤ later.span.start) ∧
      ∀ (m : Machine) (fault : Fault), (m.run p).fault = some fault →
        fault.stage = .runtime ∧ fault.StandsIn source.toList ∧
          ∃ s ∈ p.listed, s.isLabel = false ∧ s.span = fault.span) ∧
    ∀ fault, compile source = .error fault →
      fault.stage ≠ .runtime ∧ fault.StandsIn source.toList ∧
        fault.span.start ≤ fault.span.stop ∧ fault.span.stop ≤ source.length := by
  constructor
  · intro p h
    refine ⟨exists_shows_of_compile h, ordered_of_compile h, ?_⟩
    intro m fault hfault
    exact Fault.standsIn_of_run h hfault
  · intro fault h
    obtain ⟨hstage, hstands⟩ := Fault.standsIn_of_compile h
    exact ⟨hstage, hstands, hstands.inRange⟩

/-- A run that fails inside a label, at the sign of division, and a source text that ends inside a
label. -/
theorem compile_positions_division :
    let source := "lbl f / rtn 0. xeq f"
    let unfinished := " lbl ab sto x"
    let m := Machine.fresh (Config.standard.withCallDepth 1)
    (∃ p, compile source = .ok p ∧
        (∀ s ∈ p.listed, ∃ text, s.span.Shows source.toList text ∧ s.StartsWith text) ∧
        (m.run p).fault = some ⟨.divisionByZero, ⟨6, 7⟩, ""⟩ ∧
        Span.Shows ⟨6, 7⟩ source.toList "/") ∧
      compile unfinished = .error ⟨.missingReturn, ⟨1, 4⟩, "ab"⟩ ∧
      Span.Shows ⟨1, 4⟩ unfinished.toList "lbl" := by
  intro source unfinished m
  have hcompile : compile source = .ok ⟨[.label ⟨0, 3⟩ "f" [.press ⟨6, 7⟩ (.arithmetic .divide)],
      .press ⟨12, 14⟩ (.push ⟨false, [0], []⟩), .call ⟨15, 18⟩ "f"]⟩ :=
    compile_eq_ok.mpr ⟨[⟨.word, "lbl", ⟨0, 3⟩⟩, ⟨.word, "f", ⟨4, 5⟩⟩,
      ⟨.operator, "/", ⟨6, 7⟩⟩, ⟨.word, "rtn", ⟨8, 11⟩⟩, ⟨.number, "0.", ⟨12, 14⟩⟩,
      ⟨.word, "xeq", ⟨15, 18⟩⟩, ⟨.word, "f", ⟨19, 20⟩⟩], _, by decide +kernel, rfl, rfl⟩
  have hscan : Lexeme.scan unfinished = .ok [⟨.word, "lbl", ⟨1, 4⟩⟩, ⟨.word, "ab", ⟨5, 7⟩⟩,
      ⟨.word, "sto", ⟨8, 11⟩⟩, ⟨.word, "x", ⟨12, 13⟩⟩] := by decide +kernel
  have hunfinished : compile unfinished = .error ⟨.missingReturn, ⟨1, 4⟩, "ab"⟩ := by
    rw [compile, hscan]
    rfl
  obtain ⟨hshown, -, hfails⟩ := (compile_positions source).1 _ hcompile
  refine ⟨⟨_, hcompile, hshown, ?_⟩, hunfinished, ?_⟩
  · have hfault := hfails m ⟨.divisionByZero, ⟨6, 7⟩, ""⟩
    exact ⟨by decide +kernel, (hfault (by decide +kernel)).2.1⟩
  · exact ((compile_positions unfinished).2 _ hunfinished).2.1.1

end Keystroke
