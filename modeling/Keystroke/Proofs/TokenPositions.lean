import Keystroke.Proofs.UnexpectedCharacter

/-!
# Positions of tokens

Spans are made by the scan and copied from there on. The text of a token stands in the source text
at the span of the token, the tokens stand there in order, and the faults of the first two stages
stand at the character or the lexeme that they are about.
-/

namespace Keystroke

theorem exists_of_mem_forall₂ {α β : Type} {R : α → β → Prop} {xs : List α} {ys : List β}
    (h : List.Forall₂ R xs ys) : ∀ y ∈ ys, ∃ x ∈ xs, R x y := by
  induction h with
  | nil => exact nofun
  | @cons x y xs ys hxy hrest ih =>
    rw [List.forall_mem_cons]
    refine ⟨⟨x, List.mem_cons_self, hxy⟩, ?_⟩
    intro z hz
    obtain ⟨w, hw, hwz⟩ := ih z hz
    exact ⟨w, List.mem_cons_of_mem _ hw, hwz⟩

/-- What stands at the places of things in order is in order. -/
theorem ordered_of_forall₂ {α β : Type} {R : α → β → Prop} {f : α → Span} {g : β → Span}
    {xs : List α} {ys : List β} (h : List.Forall₂ R xs ys) (hR : ∀ x y, R x y → f x = g y)
    (hxs : xs.Pairwise fun x later => (f x).stop ≤ (f later).start) :
    ys.Pairwise fun y later => (g y).stop ≤ (g later).start := by
  have hspans : xs.map f = ys.map g := by
    rw [← List.forall₂_eq_eq_eq, List.forall₂_map_left_iff, List.forall₂_map_right_iff]
    exact h.imp hR
  rw [← List.pairwise_map (f := g) (R := fun a b : Span => a.stop ≤ b.start), ← hspans]
  exact List.pairwise_map.mpr hxs

/-- The span is not empty, lies in the text, and these are the characters of the text there. -/
structure Span.Shows (span : Span) (cs : List Char) (text : String) : Prop where
  nonempty : span.start < span.stop
  inRange : span.stop ≤ cs.length
  slice_eq : span.slice cs = text.toList

theorem Keyword.eq_text_of_ofText? {s : String} {w : Keyword} (h : ofText? s = some w) :
    s = w.text := by
  have hfound := List.find?_some h
  exact (of_decide_eq_true hfound).symm

theorem Operator.eq_text_of_ofText? {s : String} {op : Operator} (h : ofText? s = some op) :
    s = op.text := by
  have hfound := List.find?_some h
  exact (of_decide_eq_true hfound).symm

theorem Comparator.eq_text_of_ofText? {s : String} {c : Comparator} (h : ofText? s = some c) :
    s = c.text := by
  have hfound := List.find?_some h
  exact (of_decide_eq_true hfound).symm

theorem Lexeme.Kind.exists_operator {s : String} (h : operator.Admits s.toList) :
    ∃ op : Operator, s = op.text := by
  simp only [Admits, List.mem_cons, List.not_mem_nil, or_false] at h
  rcases h with h | h | h | h
  · exact ⟨.plus, String.toList_inj.mp h⟩
  · exact ⟨.minus, String.toList_inj.mp h⟩
  · exact ⟨.times, String.toList_inj.mp h⟩
  · exact ⟨.divide, String.toList_inj.mp h⟩

theorem Lexeme.Kind.exists_comparator {s : String} (h : comparator.Admits s.toList) :
    ∃ c : Comparator, s = c.text := by
  simp only [Admits, List.mem_cons, List.not_mem_nil, or_false] at h
  rcases h with h | h | h | h
  · exact ⟨.greater, String.toList_inj.mp h⟩
  · exact ⟨.less, String.toList_inj.mp h⟩
  · exact ⟨.greaterEqual, String.toList_inj.mp h⟩
  · exact ⟨.lessEqual, String.toList_inj.mp h⟩

/-- A scan fails at a character that stands where the fault says. -/
theorem Lexeme.shows_of_scan_error {source : String} {fault : Fault}
    (h : scan source = .error fault) :
    fault.kind = .unexpectedCharacter ∧ fault.span.Shows source.toList fault.text := by
  obtain ⟨i, c, -, hc, rfl⟩ := scan_eq_error_iff.mp h
  obtain ⟨hi, rfl⟩ := List.getElem?_eq_some_iff.mp hc
  have hslice : (source.toList.drop i).take 1 = [source.toList[i]] := by
    rw [List.drop_eq_getElem_cons hi]
    rfl
  exact ⟨rfl, Nat.lt_succ_self i, hi, by simpa [Span.slice] using hslice⟩

theorem Lexeme.standsIn_of_scan {source : String} {lexemes : List Lexeme}
    (h : scan source = .ok lexemes) : ∀ l ∈ lexemes, l.StandsIn source.toList :=
  fun l hl => (((scanFrom_eq_ok_iff List.length_nil).mp h).stands l hl).2

/-- A numeral with several points. -/
def Lexeme.IsMalformed (l : Lexeme) : Prop := l.kind = .number ∧ 2 ≤ l.text.toList.count '.'

instance (l : Lexeme) : Decidable l.IsMalformed := inferInstanceAs (Decidable (_ ∧ _))

/-- The text that all tokens of a kind have, if there is one. -/
def Token.Kind.text? : Token.Kind → Option String
  | word w => some w.text
  | operator op => some op.text
  | comparator c => some c.text
  | name | number => none

namespace Token

/-- The text of the token stands in the source text at its span, and is that of its kind. -/
structure StandsIn (t : Token) (cs : List Char) : Prop where
  shows_text : t.span.Shows cs t.text
  text_eq : ∀ text, t.kind.text? = some text → t.text = text

variable {l : Lexeme} {t : Token} {cs : List Char} {lexemes : List Lexeme} {tokens : List Token}
variable {fault : Fault}

theorem eq_of_ofLexeme (h : ofLexeme l = .ok t) :
    kindOf l = .ok t.kind ∧ t.text = l.text ∧ t.span = l.span := by
  rw [ofLexeme] at h
  cases hkind : kindOf l with
  | error fault => rw [hkind] at h; cases h
  | ok kind =>
    rw [hkind] at h
    cases h
    exact ⟨rfl, rfl, rfl⟩

/-- A kind with a fixed text is given to lexemes with this text only. -/
theorem text_eq_of_kindOf {kind : Kind} (h : kindOf l = .ok kind) :
    ∀ text, kind.text? = some text → l.text = text := by
  intro fixed hfixed
  obtain ⟨lexical, text, span⟩ := l
  cases lexical with
  | number =>
    simp only [kindOf] at h
    split at h <;> cases h
    cases hfixed
  | word =>
    simp only [kindOf] at h
    split at h
    · next hword =>
      cases h
      cases hfixed
      exact Keyword.eq_text_of_ofText? hword
    · cases h
      cases hfixed
  | operator =>
    simp only [kindOf] at h
    split at h
    · next hop =>
      cases h
      cases hfixed
      exact Operator.eq_text_of_ofText? hop
    · cases h
  | comparator =>
    simp only [kindOf] at h
    split at h
    · next hc =>
      cases h
      cases hfixed
      exact Comparator.eq_text_of_ofText? hc
    · cases h

theorem standsIn_of_ofLexeme (hl : l.StandsIn cs) (h : ofLexeme l = .ok t) : t.StandsIn cs := by
  obtain ⟨hkind, htext, hspan⟩ := eq_of_ofLexeme h
  refine ⟨?_, ?_⟩
  · rw [htext, hspan]
    exact ⟨hl.nonempty, hl.inRange, hl.text_eq.symm⟩
  · rw [htext]
    exact text_eq_of_kindOf hkind

theorem ofLexeme_of_isMalformed (h : l.IsMalformed) :
    ofLexeme l = .error ⟨.malformedNumber, l.span, l.text⟩ := by
  have hpoints : l.text.toList.count '.' > 1 := h.2
  simp only [ofLexeme, kindOf, h.1, hpoints, if_true]
  rfl

/-- Every other lexeme of a text has a meaning. -/
theorem exists_ofLexeme (hl : l.StandsIn cs) (h : ¬ l.IsMalformed) : ∃ t, ofLexeme l = .ok t := by
  obtain ⟨kind, text, span⟩ := l
  suffices hkind : ∃ k, kindOf ⟨kind, text, span⟩ = .ok k by
    obtain ⟨k, hk⟩ := hkind
    exact ⟨⟨k, text, span⟩, by rw [ofLexeme, hk]; rfl⟩
  cases kind with
  | word =>
    simp only [kindOf]
    split <;> exact ⟨_, rfl⟩
  | number =>
    have hpoints : ¬ text.toList.count '.' > 1 := fun hpoints => h ⟨rfl, hpoints⟩
    exact ⟨.number, by simp only [kindOf, hpoints, if_false]⟩
  | operator =>
    obtain ⟨op, rfl⟩ := Lexeme.Kind.exists_operator hl.admitted
    exact ⟨.operator op, by simp [kindOf]⟩
  | comparator =>
    obtain ⟨c, rfl⟩ := Lexeme.Kind.exists_comparator hl.admitted
    exact ⟨.comparator c, by simp [kindOf]⟩

/-- The lexemes of a text have a meaning up to the first numeral with several points. -/
theorem ofLexemes_eq_error_iff (hlexemes : ∀ l ∈ lexemes, l.StandsIn cs) :
    ofLexemes lexemes = .error fault ↔ ∃ before l after, lexemes = before ++ l :: after ∧
      (∀ m ∈ before, ¬ m.IsMalformed) ∧ l.IsMalformed ∧
      fault = ⟨.malformedNumber, l.span, l.text⟩ := by
  induction lexemes with
  | nil =>
    refine iff_of_false nofun ?_
    rintro ⟨before, l, after, hnil, -⟩
    simp at hnil
  | cons l lexemes ih =>
    obtain ⟨hl, hrest⟩ := List.forall_mem_cons.mp hlexemes
    by_cases hmalformed : l.IsMalformed
    · -- The first lexeme is the first such numeral.
      rw [ofLexemes_cons, ofLexeme_of_isMalformed hmalformed]
      constructor
      · intro h
        exact ⟨[], l, lexemes, rfl, nofun, hmalformed, (Except.error.inj h).symm⟩
      · rintro ⟨before, m, after, hsplit, hbefore, -, rfl⟩
        obtain _ | ⟨first, before⟩ := before
        · obtain ⟨rfl, -⟩ := List.cons.inj hsplit
          rfl
        · obtain ⟨rfl, -⟩ := List.cons.inj hsplit
          exact absurd hmalformed (hbefore l List.mem_cons_self)
    · obtain ⟨t, ht⟩ := exists_ofLexeme hl hmalformed
      have hlater : ofLexemes (l :: lexemes) = .error fault ↔ ofLexemes lexemes = .error fault := by
        rw [ofLexemes_cons, ht]
        show (ofLexemes lexemes).map (t :: ·) = _ ↔ _
        cases ofLexemes lexemes <;> simp [Except.map]
      rw [hlater, ih hrest]
      constructor
      · rintro ⟨before, m, after, rfl, hbefore, hm, hfault⟩
        have hnone : ∀ k ∈ l :: before, ¬ k.IsMalformed :=
          List.forall_mem_cons.mpr ⟨hmalformed, hbefore⟩
        exact ⟨l :: before, m, after, rfl, hnone, hm, hfault⟩
      · rintro ⟨before, m, after, hsplit, hbefore, hm, hfault⟩
        obtain _ | ⟨first, before⟩ := before
        · obtain ⟨rfl, -⟩ := List.cons.inj hsplit
          exact absurd hm hmalformed
        · obtain ⟨rfl, rfl⟩ := List.cons.inj hsplit
          exact ⟨before, m, after, rfl, (List.forall_mem_cons.mp hbefore).2, hm, hfault⟩

def TokensOf (cs : List Char) (tokens : List Token) : Prop :=
  ∃ lexemes, Lexeme.Tokenizes 0 cs lexemes ∧ ofLexemes lexemes = .ok tokens

theorem tokensOf_of_scan {source : String} (hscan : Lexeme.scan source = .ok lexemes)
    (h : ofLexemes lexemes = .ok tokens) : TokensOf source.toList tokens :=
  ⟨lexemes, (Lexeme.scanFrom_eq_ok_iff List.length_nil).mp hscan, h⟩

theorem TokensOf.standsIn (h : TokensOf cs tokens) : ∀ t ∈ tokens, t.StandsIn cs := by
  obtain ⟨lexemes, htokenizes, htokens⟩ := h
  intro t ht
  obtain ⟨l, hl, hlexeme⟩ := exists_of_mem_forall₂ (ofLexemes_eq_ok.mp htokens) t ht
  exact standsIn_of_ofLexeme (htokenizes.stands l hl).2 hlexeme

theorem TokensOf.ordered (h : TokensOf cs tokens) :
    tokens.Pairwise fun t later => t.span.stop ≤ later.span.start := by
  obtain ⟨lexemes, htokenizes, htokens⟩ := h
  refine ordered_of_forall₂ (ofLexemes_eq_ok.mp htokens) ?_ htokenizes.ordered
  intro l t hlexeme
  exact (eq_of_ofLexeme hlexeme).2.2.symm

theorem TokensOf.isName (h : TokensOf cs tokens) (ht : t ∈ tokens) (hname : t.kind = .name) :
    IsName t.text := by
  obtain ⟨lexemes, htokenizes, htokens⟩ := h
  refine isName_of_mem_ofLexemes ?_ htokens t ht hname
  intro l hl
  exact (Lexeme.Kind.admits_iff_spells _ _).mp (htokenizes.stands l hl).2.admitted

end Token

end Keystroke
