import Keystroke.Proofs.Decimal.RoundTrip
import Keystroke.Proofs.Program.Positions

/-!
# Which stage refuses a text

A numeral is looked at three times: by its characters in the scan, by its points when it becomes a
token, and digit by digit when the reader takes its number. Of what passes the first, the other two
refuse the same, so the reader never meets a numeral that it cannot read. In the same way the scan
returns no operator or comparator that has no meaning. So each stage has faults of its own, and a
fault of a later stage shows that all earlier ones have accepted the whole text.
-/

namespace Keystroke

namespace Lexeme

variable {cs : List Char} {l : Lexeme}

theorem StandsIn.isNumeral_iff (hl : l.StandsIn cs) (hnumber : l.kind = .number) :
    Decimal.IsNumeral l.text ↔ ¬ l.IsMalformed := by
  have hadmitted := hl.admitted
  rw [hnumber] at hadmitted
  rw [IsMalformed, not_and, Nat.not_le, Nat.lt_succ_iff]
  exact ⟨fun hnumeral _ => hnumeral.2, fun hpoints => ⟨hadmitted.2, hpoints hnumber⟩⟩

/-- By its points or digit by digit, the same numerals are refused. -/
theorem StandsIn.isMalformed_iff_read (hl : l.StandsIn cs) (hnumber : l.kind = .number) :
    l.IsMalformed ↔ ∃ fault, Decimal.read l.text = .error fault := by
  rw [← not_iff_not, ← hl.isNumeral_iff hnumber, ← Decimal.exists_read_eq_ok_iff]
  cases Decimal.read l.text <;> simp

end Lexeme

namespace Token

variable {cs : List Char} {l : Lexeme} {t : Token} {lexemes : List Lexeme} {tokens : List Token}

theorem exists_ofLexemes_error_iff (hlexemes : ∀ l ∈ lexemes, l.StandsIn cs) :
    (∃ fault, ofLexemes lexemes = .error fault) ↔ ∃ l ∈ lexemes, l.IsMalformed := by
  simp only [ofLexemes_eq_error_iff hlexemes]
  constructor
  · rintro ⟨fault, before, l, after, rfl, -, hl, -⟩
    exact ⟨l, by simp, hl⟩
  · rintro ⟨l, hl, hmalformed⟩
    obtain ⟨m, hm⟩ := Option.isSome_iff_exists.mp
      (List.find?_isSome.mpr ⟨l, hl, decide_eq_true hmalformed⟩ :
        (lexemes.find? fun l => decide l.IsMalformed).isSome = true)
    obtain ⟨hmalformed', before, after, hsplit, hbefore⟩ := List.find?_eq_some_iff_append.mp hm
    refine ⟨_, before, m, after, hsplit, ?_, of_decide_eq_true hmalformed', rfl⟩
    intro first hfirst
    simpa using hbefore first hfirst

/-- Texts and places are copied. -/
theorem map_text_span_of_ofLexemes (h : ofLexemes lexemes = .ok tokens) :
    tokens.map (fun t => (t.text, t.span)) = lexemes.map fun l => (l.text, l.span) := by
  induction ofLexemes_eq_ok.mp h with
  | nil => rfl
  | cons hfirst hrest ih =>
    obtain ⟨-, htext, hspan⟩ := eq_of_ofLexeme hfirst
    rw [List.map_cons, List.map_cons, htext, hspan, ih (ofLexemes_eq_ok.mpr hrest)]

theorem kind_of_ofLexeme (h : ofLexeme l = .ok t) (ht : t.kind = .number) : l.kind = .number := by
  obtain ⟨hkind, -, -⟩ := eq_of_ofLexeme h
  rw [ht] at hkind
  obtain ⟨kind, text, span⟩ := l
  cases kind with
  | number => rfl
  | word | operator | comparator =>
    simp only [kindOf] at hkind
    split at hkind <;> cases hkind

/-- What became a number token is a numeral. -/
theorem isNumeral_of_ofLexeme (hl : l.StandsIn cs) (h : ofLexeme l = .ok t)
    (ht : t.kind = .number) : Decimal.IsNumeral t.text := by
  rw [(eq_of_ofLexeme h).2.1, hl.isNumeral_iff (kind_of_ofLexeme h ht)]
  intro hmalformed
  cases (ofLexeme_of_isMalformed hmalformed).symm.trans h

theorem TokensOf.exists_read (h : TokensOf cs tokens) (ht : t ∈ tokens)
    (hnumber : t.kind = .number) : ∃ n, Decimal.read t.text = .ok n := by
  obtain ⟨lexemes, htokenizes, htokens⟩ := h
  obtain ⟨l, hl, hlexeme⟩ := exists_of_mem_forall₂ (ofLexemes_eq_ok.mp htokens) t ht
  exact Decimal.exists_read_eq_ok_iff.mpr
    (isNumeral_of_ofLexeme (htokenizes.stands l hl).2 hlexeme hnumber)

end Token

theorem Fault.kind_ne_of_stage_parse {fault : Fault} (h : fault.stage = .parse) :
    fault.kind ≠ .malformedNumber ∧ fault.kind ≠ .unknownSymbol := by
  constructor
  all_goals
    intro hkind
    simp [Fault.stage, hkind, Fault.Kind.stage] at h

/-- If all numbers can be read, the reader has no faults but those of its own stage. -/
theorem Program.stage_of_ofTokens {tokens : List Token} {fault : Fault}
    (hnumbers : ∀ t ∈ tokens, t.kind = .number → ∃ n, Decimal.read t.text = .ok n)
    (h : Program.ofTokens tokens = .error fault) : fault.stage = .parse := by
  rcases Program.ofTokens_eq_error h with hfold | ⟨r, -, hfinish⟩
  · obtain ⟨before, t, after, r, rfl, -, hnext⟩ := Reader.exists_of_foldlM_error hfold
    cases Reader.refuses_of_next hnext with
    | malformedNumber hr hkind htext =>
      obtain ⟨n, hn⟩ := hnumbers t (by simp) hkind
      cases (Decimal.read_eq_ok.mp hn).symm.trans htext
    | expectedIdentifier | nestedLabel | strayName | strayReturn => rfl
  · unfold Reader.finish at hfinish
    split at hfinish <;> cases hfinish <;> rfl

section Compile

variable {source : String} {lexemes : List Lexeme} {fault : Fault}

/-- The stage that a fault belongs to is the one that failed, on the result of all before it. -/
theorem stages_of_compile_error (h : compile source = .error fault) :
    (fault.kind = .unexpectedCharacter ∧ Lexeme.scan source = .error fault) ∨
      ∃ lexemes, Lexeme.scan source = .ok lexemes ∧
        ((fault.kind = .malformedNumber ∧ Token.ofLexemes lexemes = .error fault) ∨
          (fault.stage = .parse ∧ ∃ tokens, Token.ofLexemes lexemes = .ok tokens ∧
            Program.ofTokens tokens = .error fault)) := by
  rcases compile_eq_error h with hscan | ⟨lexemes, hscan, hlex | ⟨tokens, htokens, hread⟩⟩
  · exact .inl ⟨(Lexeme.shows_of_scan_error hscan).1, hscan⟩
  · obtain ⟨before, l, after, -, -, -, rfl⟩ :=
      (Token.ofLexemes_eq_error_iff (Lexeme.standsIn_of_scan hscan)).mp hlex
    exact .inr ⟨lexemes, hscan, .inl ⟨rfl, hlex⟩⟩
  · have hnumbers := fun t ht => (Token.tokensOf_of_scan hscan htokens).exists_read (t := t) ht
    exact .inr ⟨lexemes, hscan, .inr ⟨Program.stage_of_ofTokens hnumbers hread, tokens, htokens,
      hread⟩⟩

end Compile

/-- What one stage accepts, the later ones can work on. The lexemes of a text become tokens unless a
numeral among them has several points, and then the first such numeral is the fault. Of the numerals
in a text, these are the ones that cannot be read. The tokens have the texts and the places of the
lexemes, and each number among them can be read, so that the reader refuses none. So a text is never
refused for a symbol without meaning, for a numeral only if it was scanned, and by the reader only
if moreover no numeral in it has several points, wherever the fault of the reader stands. -/
theorem compile_fault_stages (source : String) :
    (∀ lexemes, Lexeme.scan source = .ok lexemes →
      ((∃ fault, Token.ofLexemes lexemes = .error fault) ↔ ∃ l ∈ lexemes, l.IsMalformed) ∧
      (∀ fault, Token.ofLexemes lexemes = .error fault →
        ∃ before l after, lexemes = before ++ l :: after ∧ (∀ m ∈ before, ¬ m.IsMalformed) ∧
          l.IsMalformed ∧ fault = ⟨.malformedNumber, l.span, l.text⟩) ∧
      (∀ l ∈ lexemes, l.kind = .number →
        (l.IsMalformed ↔ ∃ fault, Decimal.read l.text = .error fault)) ∧
      ∀ tokens, Token.ofLexemes lexemes = .ok tokens →
        (tokens.map fun t => (t.text, t.span)) = (lexemes.map fun l => (l.text, l.span)) ∧
        (∀ t ∈ tokens, t.kind = .number → ∃ n, Decimal.read t.text = .ok n) ∧
        ∀ fault, Program.ofTokens tokens = .error fault → fault.kind ≠ .malformedNumber) ∧
    ∀ fault, compile source = .error fault →
      fault.kind ≠ .unknownSymbol ∧
      (fault.kind = .malformedNumber → ∃ lexemes, Lexeme.scan source = .ok lexemes ∧
        ∃ l ∈ lexemes, l.IsMalformed) ∧
      (fault.stage = .parse → ∃ lexemes, Lexeme.scan source = .ok lexemes ∧
        ∀ l ∈ lexemes, ¬ l.IsMalformed) := by
  constructor
  · intro lexemes hscan
    have hstands := Lexeme.standsIn_of_scan hscan
    refine ⟨Token.exists_ofLexemes_error_iff hstands,
      fun fault => (Token.ofLexemes_eq_error_iff hstands).mp,
      fun l hl => (hstands l hl).isMalformed_iff_read, ?_⟩
    intro tokens htokens
    have hnumbers : ∀ t ∈ tokens, t.kind = .number → ∃ n, Decimal.read t.text = .ok n :=
      fun t ht => (Token.tokensOf_of_scan hscan htokens).exists_read ht
    refine ⟨Token.map_text_span_of_ofLexemes htokens, hnumbers, ?_⟩
    intro fault hread
    exact (Fault.kind_ne_of_stage_parse (Program.stage_of_ofTokens hnumbers hread)).1
  · intro fault h
    rcases stages_of_compile_error h with ⟨hkind, -⟩ | ⟨lexemes, hscan, ⟨hkind, hlex⟩ |
      ⟨hstage, tokens, htokens, -⟩⟩
    · simp [Fault.stage, hkind, Fault.Kind.stage]
    · have hmalformed := (Token.exists_ofLexemes_error_iff (Lexeme.standsIn_of_scan hscan)).mp
        ⟨fault, hlex⟩
      refine ⟨by simp [hkind], fun _ => ⟨lexemes, hscan, hmalformed⟩, ?_⟩
      simp [Fault.stage, hkind, Fault.Kind.stage]
    · obtain ⟨hnumber, hsymbol⟩ := Fault.kind_ne_of_stage_parse hstage
      refine ⟨hsymbol, fun hkind => absurd hkind hnumber, fun _ => ⟨lexemes, hscan, ?_⟩⟩
      intro l hl hmalformed
      obtain ⟨other, hother⟩ :=
        (Token.exists_ofLexemes_error_iff (Lexeme.standsIn_of_scan hscan)).mpr ⟨l, hl, hmalformed⟩
      cases hother.symm.trans htokens

/-- Two numerals with several points behind a keyword that misses its name: the first of them is the
fault. Without them it is the name that is missing. -/
theorem compile_fault_stages_numerals :
    let lexemes : List Lexeme :=
      [⟨.word, "sto", ⟨0, 3⟩⟩, ⟨.number, "1..2", ⟨4, 8⟩⟩, ⟨.number, "...", ⟨9, 12⟩⟩]
    Lexeme.scan "sto 1..2 ..." = .ok lexemes ∧
      (∃ before l after, lexemes = before ++ l :: after ∧ (∀ m ∈ before, ¬ m.IsMalformed) ∧
        l.IsMalformed ∧ (⟨.malformedNumber, ⟨4, 8⟩, "1..2"⟩ : Fault) =
          ⟨.malformedNumber, l.span, l.text⟩) ∧
      compile "sto 1..2 ..." = .error ⟨.malformedNumber, ⟨4, 8⟩, "1..2"⟩ ∧
      compile "sto .2" = .error ⟨.expectedIdentifier, ⟨4, 6⟩, ".2"⟩ ∧
      ∃ plain, Lexeme.scan "sto .2" = .ok plain ∧ ∀ l ∈ plain, ¬ l.IsMalformed := by
  intro lexemes
  have hscan : Lexeme.scan "sto 1..2 ..." = .ok lexemes := by decide +kernel
  have hlex : Token.ofLexemes lexemes = .error ⟨.malformedNumber, ⟨4, 8⟩, "1..2"⟩ := rfl
  have hmalformed : compile "sto 1..2 ..." = .error ⟨.malformedNumber, ⟨4, 8⟩, "1..2"⟩ := by
    rw [compile, hscan]
    rfl
  have hplain : Lexeme.scan "sto .2" = .ok [⟨.word, "sto", ⟨0, 3⟩⟩, ⟨.number, ".2", ⟨4, 6⟩⟩] := by
    decide +kernel
  have hmissing : compile "sto .2" = .error ⟨.expectedIdentifier, ⟨4, 6⟩, ".2"⟩ := by
    rw [compile, hplain]
    rfl
  obtain ⟨-, hfirst, -⟩ := (compile_fault_stages "sto 1..2 ...").1 lexemes hscan
  obtain ⟨-, -, hparse⟩ := (compile_fault_stages "sto .2").2 _ hmissing
  exact ⟨hscan, hfirst _ hlex, hmalformed, hmissing, hparse rfl⟩

end Keystroke
