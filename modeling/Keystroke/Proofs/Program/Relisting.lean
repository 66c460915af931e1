import Keystroke.Proofs.Program.Relocation
import Keystroke.Proofs.Program.WellFormed

/-!
# Listings recompile

A well-formed program is listed as the texts of its tokens. Each of these texts is read as its
token again, whatever stands next to it, and the tokens are read as the program, with its numbers
spelled out. So compiling the listing of a program returns the program up to spans, and listing it
again returns the same text.
-/

namespace Keystroke

/-- The tokens that press a key, all at one place. -/
def Key.tokens (span : Span) : Key → List Token
  | .push n => [⟨.number, n.text, span⟩]
  | .store name => [⟨.word .sto, Keyword.sto.text, span⟩, ⟨.name, name, span⟩]
  | .load name => [⟨.word .rcl, Keyword.rcl.text, span⟩, ⟨.name, name, span⟩]
  | .arithmetic op => [⟨.operator op, op.text, span⟩]
  | .compare c => [⟨.comparator c, c.text, span⟩]

namespace Statement

mutual

/-- The tokens of a statement. Those of its own text stand at its place. -/
def tokens : Statement → List Token
  | press span key => key.tokens span
  | call span name => [⟨.word .xeq, Keyword.xeq.text, span⟩, ⟨.name, name, span⟩]
  | label span name body =>
    [⟨.word .lbl, Keyword.lbl.text, span⟩, ⟨.name, name, span⟩] ++ tokensOfAll body ++
      [⟨.word .rtn, Keyword.rtn.text, span⟩]

def tokensOfAll : List Statement → List Token
  | [] => []
  | s :: rest => tokens s ++ tokensOfAll rest

end

theorem tokensOfAll_eq (ss : List Statement) : tokensOfAll ss = ss.flatMap tokens := by
  induction ss with
  | nil => rfl
  | cons s ss ih => rw [tokensOfAll, ih, List.flatMap_cons]

/-- The words of a statement are the texts of its tokens. -/
theorem map_text_tokens (s : Statement) : s.tokens.map Token.text = s.words := by
  induction s using inductionOn with
  | press span key => cases key <;> rfl
  | call span name => rfl
  | label span name body ih =>
    simp only [tokens, words, tokensOfAll_eq, wordsOfAll_eq, List.map_append, List.map_flatMap,
      List.flatMap_congr ih]
    rfl

end Statement

def Program.tokens (p : Program) : List Token := Statement.tokensOfAll p.statements

theorem Program.listing_eq (p : Program) :
    p.listing = " ".intercalate (p.tokens.map Token.text) := by
  rw [Program.listing, Program.tokens, Statement.tokensOfAll_eq, Statement.wordsOfAll_eq,
    List.map_flatMap, List.flatMap_congr fun s _ => Statement.map_text_tokens s]

section Spelling

/-- A printed number is a numeral with at most one point. -/
theorem Token.Spelled.number {n : Decimal} (hn : n.WellFormed) (hsign : n.isBelowZero = false)
    (span : Span) : Token.Spelled ⟨.number, n.text, span⟩ := by
  have hinteger := Digits.isDigit_of_mem_toChars hn.spelledOut.1
  have hfraction := Digits.isDigit_of_mem_toChars hn.spelledOut.2
  have hchars : n.text.toList = _ :=
    String.toList_ofList.trans (Decimal.toChars_of_not_isBelowZero hsign)
  constructor
  · refine Lexeme.Kind.spells_number ?_ ?_
    · rw [hchars]
      intro hempty
      have hnone := (List.append_eq_nil_iff.mp hempty).1
      exact n.integer_spelledOut_ne_nil (List.map_eq_nil_iff.mp hnone)
    · intro c hc
      rw [hchars] at hc
      rcases List.mem_append.mp hc with hbefore | hafter
      · simp [Lexeme.isNumeral, hinteger c hbefore]
      · split_ifs at hafter with hempty
        · cases hafter
        · rcases List.mem_cons.mp hafter with rfl | hafter
          · rfl
          · simp [Lexeme.isNumeral, hfraction c hafter]
  · intro span
    have hpoints : ¬ n.text.toList.count '.' > 1 := by
      rw [hchars, List.count_append, Decimal.count_point_eq_zero hinteger]
      split_ifs
      · simp
      · simp [Decimal.count_point_eq_zero hfraction]
    simp only [Token.kindOf, Token.Kind.lexical, hpoints, if_false]

theorem Key.WellFormed.spelled {key : Key} (h : key.WellFormed) (span : Span) :
    ∀ t ∈ key.tokens span, t.Spelled := by
  cases key with
  | push n => simpa [Key.tokens] using Token.Spelled.number h.1 h.2 span
  | store name => simpa [Key.tokens] using ⟨Token.Spelled.keyword .sto span, .name h span⟩
  | load name => simpa [Key.tokens] using ⟨Token.Spelled.keyword .rcl span, .name h span⟩
  | arithmetic op => simpa [Key.tokens] using Token.Spelled.operator op span
  | compare c => simpa [Key.tokens] using Token.Spelled.comparator c span

theorem Statement.IsPlain.spelled {s : Statement} (h : s.IsPlain) : ∀ t ∈ s.tokens, t.Spelled := by
  cases s with
  | press span key => exact Key.WellFormed.spelled h span
  | call span name =>
    simpa [Statement.tokens] using ⟨Token.Spelled.keyword .xeq span, .name h span⟩
  | label => exact h.elim

theorem Statement.WellFormed.spelled {s : Statement} (h : s.WellFormed) :
    ∀ t ∈ s.tokens, t.Spelled := by
  cases s with
  | press span key => exact Statement.IsPlain.spelled h
  | call span name => exact Statement.IsPlain.spelled h
  | label span name body =>
    obtain ⟨hname, hbody⟩ := h
    intro t ht
    rw [Statement.tokens, Statement.tokensOfAll_eq, List.mem_append, List.mem_append] at ht
    rcases ht with (hfirst | hinside) | hlast
    · rcases List.mem_pair.mp hfirst with rfl | rfl
      · exact .keyword .lbl span
      · exact .name hname span
    · obtain ⟨s, hs, ht⟩ := List.mem_flatMap.mp hinside
      exact (hbody s hs).spelled t ht
    · rw [List.mem_singleton.mp hlast]
      exact .keyword .rtn span

theorem Program.WellFormed.spelled {p : Program} (h : p.WellFormed) :
    ∀ t ∈ p.tokens, t.Spelled := by
  intro t ht
  rw [Program.tokens, Statement.tokensOfAll_eq] at ht
  obtain ⟨s, hs, ht⟩ := List.mem_flatMap.mp ht
  exact (h s hs).spelled t ht

end Spelling

section Reading

def Statement.spelledOut : Statement → Statement := Statement.map id Decimal.spelledOut

/-- Reading a plain statement between two statements puts it where it belongs. -/
theorem Statement.IsPlain.foldlM_tokens {s : Statement} (h : s.IsPlain) {r : Reader}
    (hr : r.awaiting = none) : s.tokens.foldlM Reader.next r = .ok (r.add s.spelledOut) := by
  obtain ⟨statements, opened, awaiting⟩ := r
  cases hr
  cases s with
  | label => exact h.elim
  | call span name => rfl
  | press span key =>
    cases key with
    | store | load | arithmetic | compare => rfl
    | push n =>
      simp only [Statement.tokens, Key.tokens, List.foldlM_cons, Reader.next, Reader.take,
        Decimal.ofText?_text h.1 h.2]
      rfl

/-- If each statement of a list is added to what `reader` has collected, so is the whole list. -/
theorem Reader.foldlM_tokensOfAll (reader : List Statement → Reader) {ss : List Statement}
    (h : ∀ s ∈ ss, ∀ before,
      s.tokens.foldlM Reader.next (reader before) = .ok (reader (s.spelledOut :: before)))
    (before : List Statement) :
    (Statement.tokensOfAll ss).foldlM Reader.next (reader before) =
      .ok (reader ((ss.map .spelledOut).reverse ++ before)) := by
  rw [Statement.tokensOfAll_eq]
  exact Reader.foldlM_flatMap reader h before

/-- Inside a label, plain statements are collected in the body. -/
theorem Reader.foldlM_tokens_body {body : List Statement} (hbody : ∀ s ∈ body, s.IsPlain)
    (statements : List Statement) (span : Span) (name : String) :
    (Statement.tokensOfAll body).foldlM Reader.next ⟨statements, some ⟨span, name, []⟩, none⟩ =
      .ok ⟨statements, some ⟨span, name, (body.map .spelledOut).reverse⟩, none⟩ := by
  have hfold := Reader.foldlM_tokensOfAll
    (fun before => ⟨statements, some ⟨span, name, before⟩, none⟩)
    (fun s hs before => (hbody s hs).foldlM_tokens rfl) []
  rwa [List.append_nil] at hfold

/-- At the top level, a well-formed statement is read as a whole. -/
theorem Statement.WellFormed.foldlM_tokens {s : Statement} (h : s.WellFormed)
    (statements : List Statement) :
    s.tokens.foldlM Reader.next ⟨statements, none, none⟩ =
      .ok ⟨s.spelledOut :: statements, none, none⟩ := by
  cases s with
  | press span key =>
    have hplain : (press span key).IsPlain := h
    exact hplain.foldlM_tokens rfl
  | call span name =>
    have hplain : (call span name).IsPlain := h
    exact hplain.foldlM_tokens rfl
  | label span name body =>
    -- The first two tokens open the label, those of the body fill it and the last one closes it.
    have hopen : [⟨.word .lbl, Keyword.lbl.text, span⟩, ⟨.name, name, span⟩].foldlM Reader.next
        ⟨statements, none, none⟩ = .ok ⟨statements, some ⟨span, name, []⟩, none⟩ := rfl
    rw [Statement.tokens, List.foldlM_append, List.foldlM_append, hopen]
    simp only [Bind.bind, Except.bind, Reader.foldlM_tokens_body h.2]
    have hlabel : Statement.spelledOut (.label span name body) =
        .label span name (body.map .spelledOut).reverse.reverse := by
      rw [List.reverse_reverse, Statement.spelledOut, Statement.map, Statement.mapAll_eq]
      rfl
    rw [hlabel]
    rfl

/-- The tokens of a program are read as the program. -/
theorem Program.ofTokens_tokens {p : Program} (h : p.WellFormed) :
    Program.ofTokens p.tokens = .ok p.spelledOut := by
  have hfold := Reader.foldlM_tokensOfAll (fun before => ⟨before, none, none⟩)
    (fun s hs before => (h s hs).foldlM_tokens before) []
  refine Program.ofTokens_eq_ok.mpr ⟨_, hfold, ?_⟩
  rw [Reader.finish, List.append_nil, List.reverse_reverse]
  rfl

end Reading

/-- Compiling the listing of a well-formed program succeeds and returns the program up to spans,
with its numbers as the listing shows them. -/
theorem compile_listing {p : Program} (h : p.WellFormed) :
    ∃ q, compile p.listing = .ok q ∧ q.withoutSpans = p.spelledOut.withoutSpans := by
  obtain ⟨lexemes, tokens, hscan, htokens, hsame⟩ := Token.ofLexemes_scan_intercalate h.spelled
  rw [← Program.listing_eq] at hscan
  obtain ⟨q, hq, hshape⟩ :=
    Program.ofTokens_of_withoutSpan_eq hsame (Program.ofTokens_tokens h)
  exact ⟨q, compile_eq_ok.mpr ⟨lexemes, tokens, hscan, htokens, hq⟩, hshape⟩

/-- Listing and compiling again loses nothing but places. Compiled programs are well-formed; the
listing of every well-formed program compiles to a program of the same shape with the same
numbers, whose listing is the same text. -/
theorem compile_listing_lossless :
    (∀ source p, compile source = .ok p → p.WellFormed) ∧
      ∀ p : Program, p.WellFormed → ∃ q, compile p.listing = .ok q ∧
        q.withoutSpans = p.spelledOut.withoutSpans ∧
        q.withoutSpans.same p.withoutSpans = true ∧
        q.listing = p.listing := by
  refine ⟨fun _ _ => wellFormed_of_compile, ?_⟩
  intro p hp
  obtain ⟨q, hq, hshape⟩ := compile_listing hp
  refine ⟨q, hq, hshape, ?_, ?_⟩
  · rw [hshape]
    exact p.same_spelledOut
  · rw [← Program.listing_withoutSpans, hshape, Program.listing_withoutSpans,
      Program.listing_spelledOut]

/-- A program that is no source text's: one number has no digit before its point, the other is a
zero with a sign, and the places are out of order. -/
def Program.oddlyWritten : Program :=
  ⟨[.label ⟨7, 2⟩ "half" [.press .origin (.push ⟨false, [], [5, 0]⟩), .call .origin "half"],
    .press ⟨1, 1⟩ (.push ⟨true, [0, 0], []⟩), .press .origin (.store "x2")]⟩

theorem compile_listing_oddlyWritten :
    Program.oddlyWritten.WellFormed ∧
      Program.oddlyWritten.listing = "lbl half 0.50 xeq half rtn 00 sto x2" ∧
      ∃ q, compile Program.oddlyWritten.listing = .ok q ∧ q.WellFormed ∧
        q.withoutSpans = Program.oddlyWritten.spelledOut.withoutSpans ∧
        q.withoutSpans.same Program.oddlyWritten.withoutSpans = true ∧
        q.listing = Program.oddlyWritten.listing := by
  have hwellFormed : Program.oddlyWritten.WellFormed := by decide
  obtain ⟨q, hq, hrest⟩ := compile_listing_lossless.2 Program.oddlyWritten hwellFormed
  exact ⟨hwellFormed, by decide, q, hq, compile_listing_lossless.1 _ q hq, hrest⟩

end Keystroke
