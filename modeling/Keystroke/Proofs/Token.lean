import Keystroke.Proofs.Lexeme
import Keystroke.Token
import Mathlib.Data.List.Forall2

/-!
# Names and tokens

A name is a word that is no keyword; the tokens of a source text are names in this sense whenever
their kind says so. In the other direction, a token whose text is written like its kind comes back
when the text is read again. Only its span may differ, since that depends on the texts before.
-/

namespace Keystroke

theorem Keyword.ofText?_eq_none {s : String} :
    Keyword.ofText? s = none ↔ ∀ w : Keyword, s ≠ w.text := by
  constructor
  · rintro h w rfl
    rw [Keyword.ofText?_text] at h
    cases h
  · intro h
    rw [Keyword.ofText?, List.find?_eq_none]
    intro w _ hw
    exact h w (of_decide_eq_true hw).symm

/-- A letter, then letters and digits. -/
def IsWord : List Char → Prop
  | [] => False
  | c :: rest => c.isAlpha = true ∧ ∀ d ∈ rest, d.isAlphanum = true

-- Characters are finitely many, but the test should look at those of the word only.
instance : DecidablePred IsWord
  | [] => inferInstanceAs (Decidable False)
  | _ :: rest => @instDecidableAnd _ _ _ (List.decidableBAll (·.isAlphanum = true) rest)

/-- A word that is not a keyword. -/
def IsName (name : String) : Prop := IsWord name.toList ∧ ∀ w : Keyword, name ≠ w.text

instance (name : String) : Decidable (IsName name) :=
  decidable_of_iff (IsWord name.toList ∧ Keyword.ofText? name = none)
    (and_congr_right fun _ => Keyword.ofText?_eq_none)

namespace Lexeme.Kind

theorem ofFirst?_eq_word {c : Char} : ofFirst? c = some word ↔ c.isAlpha = true := by
  rw [ofFirst?]
  split_ifs <;> simp_all

/-- Letters stand behind the digits. -/
theorem toNat_lt_of_isAlpha {c : Char} (h : c.isAlpha = true) : '9'.toNat < c.toNat := by
  have hcases : c.isUpper = true ∨ c.isLower = true := (Bool.or_eq_true _ _).mp h
  have hnine : '9'.toNat < 'A'.toNat ∧ '9'.toNat < 'a'.toNat := by decide
  rcases hcases with hupper | hlower
  · have hletter : 'A'.val ≤ c.val := (of_decide_eq_true hupper).1
    exact Nat.lt_of_lt_of_le hnine.1 (UInt32.le_iff_toNat_le.mp hletter)
  · have hbounds := (Bool.and_eq_true _ _).mp hlower
    have hletter : 'a'.val ≤ c.val := of_decide_eq_true hbounds.1
    exact Nat.lt_of_lt_of_le hnine.2 (UInt32.le_iff_toNat_le.mp hletter)

theorem ofFirst?_of_isNumeral {c : Char} (hc : isNumeral c = true) :
    ofFirst? c = some number := by
  have hletter : ¬ c.isAlpha = true := by
    intro hletter
    simp only [isNumeral, Bool.or_eq_true, decide_eq_true_eq] at hc
    rcases hc with hdigit | rfl
    · have habove := toNat_lt_of_isAlpha hletter
      have hnine := (Char.isDigit_iff_toNat.mp hdigit).2
      omega
    · exact absurd hletter (by decide)
  rw [ofFirst?, if_neg hletter, if_pos hc]

theorem spells_word {cs : List Char} : word.Spells cs ↔ IsWord cs := by
  cases cs with
  | nil => exact Iff.rfl
  | cons c rest => exact and_congr ofFirst?_eq_word List.takeWhile_eq_self_iff

theorem spells_number {cs : List Char} (hne : cs ≠ []) (h : ∀ c ∈ cs, isNumeral c = true) :
    number.Spells cs := by
  obtain ⟨c, rest, rfl⟩ := List.exists_cons_of_ne_nil hne
  obtain ⟨hc, hrest⟩ := List.forall_mem_cons.mp h
  exact ⟨ofFirst?_of_isNumeral hc, List.takeWhile_eq_self_iff.mpr hrest⟩

end Lexeme.Kind

namespace Token

/-- The class of the lexemes that a kind of tokens comes from. -/
def Kind.lexical : Kind → Lexeme.Kind
  | name | word _ => .word
  | number => .number
  | operator _ => .operator
  | comparator _ => .comparator

def relocate (place : Span → Span) (t : Token) : Token := { t with span := place t.span }

def withoutSpan (t : Token) : Token := t.relocate fun _ => .origin

/-- The text of the token is written like its kind says. -/
structure Spelled (t : Token) : Prop where
  spells : t.kind.lexical.Spells t.text.toList
  kindOf_eq : ∀ span, kindOf ⟨t.kind.lexical, t.text, span⟩ = .ok t.kind

theorem ofLexemes_cons (l : Lexeme) (lexemes : List Lexeme) :
    ofLexemes (l :: lexemes) =
      (ofLexeme l).bind fun t => (ofLexemes lexemes).map (t :: ·) := by
  rw [ofLexemes, List.mapM_cons]
  cases ofLexeme l with
  | error fault => rfl
  | ok t =>
    show (lexemes.mapM ofLexeme).bind _ = (lexemes.mapM ofLexeme).map _
    cases lexemes.mapM ofLexeme <;> rfl

/-- Every lexeme has a token of its own. -/
theorem ofLexemes_eq_ok {lexemes : List Lexeme} {tokens : List Token} :
    ofLexemes lexemes = .ok tokens ↔
      List.Forall₂ (fun lexeme t => ofLexeme lexeme = .ok t) lexemes tokens := by
  induction lexemes generalizing tokens with
  | nil =>
    rw [ofLexemes, List.mapM_nil, List.forall₂_nil_left_iff]
    exact ⟨fun h => (Except.ok.inj h).symm, fun h => congrArg Except.ok h.symm⟩
  | cons lexeme lexemes ih =>
    rw [ofLexemes, List.mapM_cons, List.forall₂_cons_left_iff]
    constructor
    · intro h
      cases hfirst : ofLexeme lexeme with
      | error fault => rw [hfirst] at h; cases h
      | ok t =>
        cases hrest : lexemes.mapM ofLexeme with
        | error fault => rw [hfirst, hrest] at h; cases h
        | ok ts =>
          rw [hfirst, hrest] at h
          cases h
          exact ⟨t, ts, rfl, ih.mp hrest, rfl⟩
    · rintro ⟨t, ts, hfirst, hrest, rfl⟩
      have hmap : lexemes.mapM ofLexeme = .ok ts := ih.mpr hrest
      rw [hfirst, hmap]
      rfl

/-- A token that says it is a name is one. -/
theorem isName_of_ofLexeme {lexeme : Lexeme} {t : Token}
    (hspells : lexeme.kind.Spells lexeme.text.toList) (h : ofLexeme lexeme = .ok t)
    (hname : t.kind = .name) : IsName t.text := by
  obtain ⟨kind, text, span⟩ := lexeme
  -- Only words become names, and only those that are not in the table of keywords.
  cases kind with
  | word =>
    simp only [ofLexeme, kindOf] at h
    cases hkeyword : Keyword.ofText? text with
    | some w => rw [hkeyword] at h; cases h; cases hname
    | none =>
      rw [hkeyword] at h
      cases h
      exact ⟨Lexeme.Kind.spells_word.mp hspells, Keyword.ofText?_eq_none.mp hkeyword⟩
  | number | operator | comparator =>
    simp only [ofLexeme, kindOf] at h
    split at h <;> cases h
    cases hname

theorem isName_of_mem_ofLexemes {lexemes : List Lexeme} {tokens : List Token}
    (hspells : ∀ lexeme ∈ lexemes, lexeme.kind.Spells lexeme.text.toList)
    (h : ofLexemes lexemes = .ok tokens) :
    ∀ t ∈ tokens, t.kind = .name → IsName t.text := by
  induction ofLexemes_eq_ok.mp h with
  | nil => simp
  | @cons lexeme t lexemes tokens hfirst hrest ih =>
    obtain ⟨hlexeme, hlexemes⟩ := List.forall_mem_cons.mp hspells
    exact List.forall_mem_cons.mpr
      ⟨isName_of_ofLexeme hlexeme hfirst, ih hlexemes (ofLexemes_eq_ok.mpr hrest)⟩

namespace Spelled

theorem keyword (w : Keyword) (span : Span) : Spelled ⟨.word w, w.text, span⟩ where
  spells := by
    have hword : ∀ w : Keyword, Lexeme.Kind.word.Spells w.text.toList := by
      rintro (_ | _ | _ | _ | _) <;> decide
    exact hword w
  kindOf_eq := by simp [kindOf, Kind.lexical]

theorem name {name : String} (h : IsName name) (span : Span) : Spelled ⟨.name, name, span⟩ where
  spells := Lexeme.Kind.spells_word.mpr h.1
  kindOf_eq := by simp [kindOf, Kind.lexical, Keyword.ofText?_eq_none.mpr h.2]

theorem operator (op : Operator) (span : Span) : Spelled ⟨.operator op, op.text, span⟩ where
  spells := by
    have hoperator : ∀ op : Operator, Lexeme.Kind.operator.Spells op.text.toList := by
      rintro (_ | _ | _ | _) <;> decide
    exact hoperator op
  kindOf_eq := by simp [kindOf, Kind.lexical]

theorem comparator (c : Comparator) (span : Span) :
    Spelled ⟨.comparator c, c.text, span⟩ where
  spells := by
    have hcomparator : ∀ c : Comparator, Lexeme.Kind.comparator.Spells c.text.toList := by
      rintro (_ | _ | _ | _) <;> decide
    exact hcomparator c
  kindOf_eq := by simp [kindOf, Kind.lexical]

end Spelled

/-- Lexemes written like spelled tokens become these tokens. -/
theorem ofLexemes_of_spelled {ts : List Token} {lexemes : List Lexeme}
    (hts : ∀ t ∈ ts, t.Spelled)
    (h : lexemes.map (fun lexeme => (lexeme.kind, lexeme.text.toList)) =
      ts.map fun t => (t.kind.lexical, t.text.toList)) :
    ∃ tokens, ofLexemes lexemes = .ok tokens ∧
      tokens.map withoutSpan = ts.map withoutSpan := by
  induction ts generalizing lexemes with
  | nil =>
    rw [List.map_nil, List.map_eq_nil_iff] at h
    exact ⟨[], by rw [h]; rfl, rfl⟩
  | cons t ts ih =>
    obtain ⟨ht, hrest⟩ := List.forall_mem_cons.mp hts
    rw [List.map_cons, List.map_eq_cons_iff] at h
    obtain ⟨⟨kind, text, span⟩, lexemes, rfl, hfirst, hlexemes⟩ := h
    obtain ⟨tokens, htokens, hsame⟩ := ih hrest hlexemes
    obtain ⟨rfl, htext⟩ := Prod.mk.inj hfirst
    obtain rfl : text = t.text := String.toList_inj.mp htext
    refine ⟨⟨t.kind, t.text, span⟩ :: tokens, ?_, ?_⟩
    · refine ofLexemes_eq_ok.mpr (.cons ?_ (ofLexemes_eq_ok.mp htokens))
      rw [ofLexeme, ht.kindOf_eq]
      rfl
    · rw [List.map_cons, List.map_cons, hsame]
      rfl

/-- Texts of spelled tokens with one space between them are read as these tokens. -/
theorem ofLexemes_scan_intercalate {ts : List Token} (hts : ∀ t ∈ ts, t.Spelled) :
    ∃ lexemes tokens, Lexeme.scan (" ".intercalate (ts.map text)) = .ok lexemes ∧
      ofLexemes lexemes = .ok tokens ∧ tokens.map withoutSpan = ts.map withoutSpan := by
  have hspells : ∀ x ∈ ts.map fun t => (t.kind.lexical, t.text.toList), x.1.Spells x.2 := by
    intro x hx
    obtain ⟨t, ht, rfl⟩ := List.mem_map.mp hx
    exact (hts t ht).spells
  obtain ⟨lexemes, hscan, htexts⟩ := Lexeme.scanFrom_intercalate hspells 0
  obtain ⟨tokens, htokens, hsame⟩ := ofLexemes_of_spelled hts htexts
  refine ⟨lexemes, tokens, ?_, htokens, hsame⟩
  rw [Lexeme.scan, String.toList_intercalate, ← hscan, List.map_map, List.map_map]
  rfl

end Token

end Keystroke
