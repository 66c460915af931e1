import Keystroke.Proofs.Token

/-!
# Tokenizations

What it means that some lexemes are those of a text, said without scanning it: each lexeme is the
slice of the text at its span, belongs to its class and could not be extended; the spans are in
order and do not overlap; and only blanks stand outside them. Scanning returns these lexemes and
no others, and it fails if there are none.

A tokenization from a position on is determined by the character there. A blank is passed over.
Every other character must be covered by the first lexeme, and the class of that lexeme and its
end follow from the characters. These are the steps of the scan, so the two agree by induction.
-/

namespace Keystroke

namespace Span

def slice (s : Span) (cs : List Char) : List Char := (cs.drop s.start).take (s.stop - s.start)

def Covers (s : Span) (i : Nat) : Prop := s.start ≤ i ∧ i < s.stop

end Span

namespace Lexeme

namespace Kind

/-- The characters are a text of this class. -/
def Admits : Kind → List Char → Prop
  | word, cs => IsWord cs
  | number, cs => cs ≠ [] ∧ ∀ c ∈ cs, c.isDigit = true ∨ c = '.'
  | operator, cs => cs ∈ [['+'], ['-'], ['*'], ['/']]
  | comparator, cs => cs ∈ [['>'], ['<'], ['>', '='], ['<', '=']]

/-- A text of this class could go on with the character. -/
def Extends : Kind → List Char → Char → Prop
  | word, _, c => c.isAlphanum = true
  | number, _, c => c.isDigit = true ∨ c = '.'
  | operator, _, _ => False
  | comparator, cs, c => cs.length = 1 ∧ c = '='

variable {c : Char} {cs more tail : List Char}

theorem isNumeral_iff : isNumeral c = true ↔ c.isDigit = true ∨ c = '.' := by
  simp [isNumeral]

theorem ofFirst?_eq_number : ofFirst? c = some number ↔ isNumeral c = true := by
  constructor
  · intro h
    rw [ofFirst?] at h
    split_ifs at h <;> simp_all
  · exact ofFirst?_of_isNumeral

theorem ofFirst?_eq_operator :
    ofFirst? c = some operator ↔ c = '+' ∨ c = '-' ∨ c = '*' ∨ c = '/' := by
  constructor
  · intro h
    rw [ofFirst?] at h
    split_ifs at h <;> simp_all [isOperator, or_assoc]
  · rintro (rfl | rfl | rfl | rfl) <;> decide

theorem ofFirst?_eq_comparator : ofFirst? c = some comparator ↔ c = '>' ∨ c = '<' := by
  constructor
  · intro h
    rw [ofFirst?] at h
    split_ifs at h <;> simp_all [isComparator]
  · rintro (rfl | rfl) <;> decide

theorem extension_comparator_eq_self :
    comparator.extension cs = cs ↔ cs = [] ∨ cs = ['='] := by
  rw [extension]
  split
  · next hequal =>
    constructor
    · intro h
      exact .inr h.symm
    · rintro (rfl | rfl)
      · cases hequal
      · rfl
  · next hequal =>
    constructor
    · intro h
      exact .inl h.symm
    · rintro (rfl | rfl)
      · rfl
      · exact absurd rfl hequal

/-- The texts of a class are those that a scan takes as a single lexeme. -/
theorem admits_iff_spells (kind : Kind) (cs : List Char) : kind.Admits cs ↔ kind.Spells cs := by
  cases cs with
  | nil => cases kind <;> simp [Admits, Spells, IsWord]
  | cons c rest =>
    cases kind with
    | word =>
      rw [spells_word]
      exact Iff.rfl
    | number =>
      simp only [Admits, Spells, ofFirst?_eq_number, extension, List.takeWhile_eq_self_iff,
        isNumeral_iff]
      simp
    | operator =>
      simp only [Admits, Spells, ofFirst?_eq_operator, extension, List.mem_cons,
        List.cons.injEq, List.not_mem_nil, or_false, eq_comm (a := ([] : List Char))]
      tauto
    | comparator =>
      simp only [Admits, Spells, ofFirst?_eq_comparator, extension_comparator_eq_self,
        List.mem_cons, List.cons.injEq, List.not_mem_nil, or_false]
      tauto

theorem takeWhile_append_eq_iff {p : Char → Bool} :
    (more ++ tail).takeWhile p = more ↔
      more.takeWhile p = more ∧ ∀ d, tail.head? = some d → ¬ p d = true := by
  induction more with
  | nil => cases tail <;> simp [List.takeWhile_cons]
  | cons d more ih =>
    by_cases hd : p d = true
    · simpa [List.takeWhile_cons, hd] using ih
    · simp [hd]

/-- A class takes exactly `more` if it would take all of it alone and the character behind it
could not extend the lexeme. -/
theorem extension_append_eq_iff (kind : Kind) (c : Char) (more tail : List Char) :
    kind.extension (more ++ tail) = more ↔
      kind.extension more = more ∧ ∀ d, tail.head? = some d → ¬ kind.Extends (c :: more) d := by
  cases kind with
  | word => exact takeWhile_append_eq_iff
  | number =>
    simp only [Extends, ← isNumeral_iff]
    exact takeWhile_append_eq_iff
  | operator => simp [extension, Extends]
  | comparator =>
    cases more with
    | nil => cases tail <;> simp [extension, Extends, eq_comm]
    | cons d more => cases tail <;> simp [extension, Extends, eq_comm]

end Kind

/-- The lexeme stands in the text at its span, belongs to its class and goes on as far as the
class allows. -/
structure StandsIn (l : Lexeme) (cs : List Char) : Prop where
  nonempty : l.span.start < l.span.stop
  inRange : l.span.stop ≤ cs.length
  text_eq : l.text.toList = l.span.slice cs
  admitted : l.kind.Admits l.text.toList
  maximal : ∀ c, cs[l.span.stop]? = some c → ¬ l.kind.Extends l.text.toList c

/-- The lexemes are those of the text from position `pos` on. -/
structure Tokenizes (pos : Nat) (cs : List Char) (lexemes : List Lexeme) : Prop where
  stands : ∀ l ∈ lexemes, pos ≤ l.span.start ∧ l.StandsIn cs
  ordered : lexemes.Pairwise fun l later => l.span.stop ≤ later.span.start
  blank : ∀ i c, pos ≤ i → cs[i]? = some c → (∀ l ∈ lexemes, ¬ l.span.Covers i) →
    isBlank c = true

section Steps

variable {before more rest tail : List Char} {c : Char} {kind : Kind} {l : Lexeme}
variable {lexemes : List Lexeme}

theorem standsIn_piece_iff :
    (piece kind before.length (c :: more)).StandsIn (before ++ c :: (more ++ tail)) ↔
      Kind.ofFirst? c = some kind ∧ kind.extension (more ++ tail) = more := by
  have htext : (piece kind before.length (c :: more)).text.toList = c :: more :=
    String.toList_ofList
  have hslice : (piece kind before.length (c :: more)).span.slice (before ++ c :: (more ++ tail)) =
      c :: more := by
    simp [piece, Span.slice]
  have hnext : (before ++ c :: (more ++ tail))[before.length + (c :: more).length]? =
      tail.head? := by
    rw [← List.cons_append, ← List.append_assoc, ← List.length_append,
      List.getElem?_append_right (Nat.le_refl _), Nat.sub_self, List.head?_eq_getElem?]
  constructor
  · intro h
    have hspells := (Kind.admits_iff_spells _ _).mp (htext ▸ h.admitted)
    refine ⟨hspells.1, (kind.extension_append_eq_iff c more tail).mpr ⟨hspells.2, ?_⟩⟩
    intro d hd
    exact htext ▸ h.maximal d (hnext.trans hd)
  · rintro ⟨hkind, hmore⟩
    obtain ⟨halone, hstop⟩ := (kind.extension_append_eq_iff c more tail).mp hmore
    refine ⟨?_, ?_, htext.trans hslice.symm, ?_, ?_⟩
    · simp [piece]
    · simp [piece]
    · rw [htext, Kind.admits_iff_spells]
      exact ⟨hkind, halone⟩
    · intro d hd
      rw [htext]
      exact hstop d (hnext.symm.trans hd)

/-- A lexeme that starts at a character is the one that a scan cuts off there. -/
theorem StandsIn.eq_piece (h : l.StandsIn (before ++ c :: rest))
    (hstart : l.span.start = before.length) :
    ∃ kind, Kind.ofFirst? c = some kind ∧
      l = piece kind before.length (c :: kind.extension rest) := by
  obtain ⟨kind, text, start, stop⟩ := l
  obtain rfl : start = before.length := hstart
  have hnonempty : before.length < stop := h.nonempty
  have hrange : stop ≤ (before ++ c :: rest).length := h.inRange
  rw [List.length_append, List.length_cons] at hrange
  obtain ⟨more, tail, rfl, hstop⟩ :
      ∃ more tail, rest = more ++ tail ∧ stop = before.length + (c :: more).length := by
    refine ⟨rest.take (stop - before.length - 1), rest.drop (stop - before.length - 1), by simp, ?_⟩
    rw [List.length_cons, List.length_take]
    omega
  have htext : text = String.ofList (c :: more) := by
    rw [← String.toList_inj, String.toList_ofList]
    simpa [Span.slice, hstop] using h.text_eq
  subst hstop htext
  obtain ⟨hkind, hextension⟩ := standsIn_piece_iff.mp h
  exact ⟨kind, hkind, by rw [hextension]; rfl⟩

/-- Nothing is left at the end of the text. -/
theorem tokenizes_end (before : List Char) :
    Tokenizes before.length before lexemes ↔ lexemes = [] := by
  constructor
  · intro h
    cases lexemes with
    | nil => rfl
    | cons l later =>
      obtain ⟨hpos, hstands⟩ := h.stands l List.mem_cons_self
      have hnonempty := hstands.nonempty
      have hrange := hstands.inRange
      omega
  · rintro rfl
    refine ⟨nofun, .nil, ?_⟩
    intro i c hi hc
    rw [List.getElem?_eq_none hi] at hc
    cases hc

/-- The character behind `before` is covered by the first lexeme, unless it is blank. -/
theorem Tokenizes.exists_first (h : Tokenizes before.length (before ++ c :: rest) lexemes)
    (hc : isBlank c = false) :
    ∃ kind later, Kind.ofFirst? c = some kind ∧
      lexemes = piece kind before.length (c :: kind.extension rest) :: later := by
  have hcovered : ∃ l ∈ lexemes, l.span.Covers before.length := by
    by_contra hnone
    have hblank := h.blank before.length c (Nat.le_refl _) (by simp)
      (fun l hl hcovers => hnone ⟨l, hl, hcovers⟩)
    rw [hc] at hblank
    cases hblank
  obtain ⟨l, hl, hcovers⟩ := hcovered
  have hstart : l.span.start = before.length := Nat.le_antisymm hcovers.1 (h.stands l hl).1
  cases lexemes with
  | nil => cases hl
  | cons first later =>
    -- Had a later lexeme covered the character, the first one would end before it starts.
    rcases List.mem_cons.mp hl with rfl | hlater
    · obtain ⟨kind, hkind, rfl⟩ := (h.stands l hl).2.eq_piece hstart
      exact ⟨kind, later, hkind, rfl⟩
    · have hbefore := (List.pairwise_cons.mp h.ordered).1 l hlater
      obtain ⟨hpos, hstands⟩ := h.stands first List.mem_cons_self
      have hnonempty := hstands.nonempty
      omega

/-- A blank is passed over. -/
theorem tokenizes_blank (hc : isBlank c = true) :
    Tokenizes before.length (before ++ c :: rest) lexemes ↔
      Tokenizes (before.length + 1) (before ++ c :: rest) lexemes := by
  constructor
  · intro h
    refine ⟨?_, h.ordered, fun i d hi => h.blank i d (Nat.le_of_succ_le hi)⟩
    intro l hl
    obtain ⟨hpos, hstands⟩ := h.stands l hl
    refine ⟨Nat.lt_of_le_of_ne hpos ?_, hstands⟩
    intro hstart
    obtain ⟨kind, hkind, -⟩ := hstands.eq_piece hstart.symm
    rw [(isBlank_excludes hc).1] at hkind
    cases hkind
  · intro h
    refine ⟨fun l hl => ⟨Nat.le_of_succ_le (h.stands l hl).1, (h.stands l hl).2⟩, h.ordered, ?_⟩
    intro i d hi hd huncovered
    rcases Nat.eq_or_lt_of_le hi with rfl | hlater
    · obtain rfl : c = d := by simpa using hd
      exact hc
    · exact h.blank i d hlater hd huncovered

/-- A lexeme is cut off. -/
theorem tokenizes_piece (hkind : Kind.ofFirst? c = some kind)
    (hmore : kind.extension (more ++ tail) = more) :
    Tokenizes before.length (before ++ c :: (more ++ tail)) lexemes ↔
      ∃ later, lexemes = piece kind before.length (c :: more) :: later ∧
        Tokenizes (before.length + (c :: more).length) (before ++ c :: (more ++ tail)) later := by
  constructor
  · intro h
    obtain ⟨first, later, hfirst, rfl⟩ := h.exists_first (isBlank_of_ofFirst? hkind)
    cases hkind.symm.trans hfirst
    rw [hmore] at h ⊢
    obtain ⟨hordered, hlater⟩ := List.pairwise_cons.mp h.ordered
    refine ⟨later, rfl, ?_, hlater, ?_⟩
    · intro l hl
      exact ⟨hordered l hl, (h.stands l (List.mem_cons_of_mem _ hl)).2⟩
    · intro i d hi hd huncovered
      refine h.blank i d (Nat.le_trans (Nat.le_add_right _ _) hi) hd ?_
      intro l hl hcovers
      rcases List.mem_cons.mp hl with rfl | hl
      · exact Nat.not_lt_of_le hi hcovers.2
      · exact huncovered l hl hcovers
  · rintro ⟨later, rfl, h⟩
    refine ⟨?_, ?_, ?_⟩
    · intro l hl
      rcases List.mem_cons.mp hl with rfl | hl
      · exact ⟨Nat.le_refl _, standsIn_piece_iff.mpr ⟨hkind, hmore⟩⟩
      · obtain ⟨hpos, hstands⟩ := h.stands l hl
        exact ⟨Nat.le_trans (Nat.le_add_right _ _) hpos, hstands⟩
    · exact List.pairwise_cons.mpr ⟨fun l hl => (h.stands l hl).1, h.ordered⟩
    · intro i d hi hd huncovered
      refine h.blank i d ?_ hd fun l hl => huncovered l (List.mem_cons_of_mem _ hl)
      by_contra hinside
      exact huncovered _ List.mem_cons_self ⟨hi, Nat.lt_of_not_le hinside⟩

end Steps

/-- A scan that starts behind `before` returns the tokenization from there on. -/
theorem scanFrom_eq_ok_iff {pos : Nat} {before cs : List Char} (hpos : before.length = pos)
    {lexemes : List Lexeme} :
    scanFrom pos cs = .ok lexemes ↔ Tokenizes pos (before ++ cs) lexemes := by
  induction pos, cs using scan_induction generalizing before lexemes with
  | nil pos =>
    subst hpos
    rw [scanFrom_nil, List.append_nil, tokenizes_end, Except.ok.injEq, eq_comm]
  | blank pos c rest hblank ih =>
    subst hpos
    have hlength : (before ++ [c]).length = before.length + 1 := by simp
    rw [scanFrom_blank hblank, tokenizes_blank hblank, ih hlength, List.append_assoc,
      List.singleton_append]
  | unexpected pos c rest hblank hc =>
    subst hpos
    rw [scanFrom_unexpected hblank hc]
    refine iff_of_false nofun fun h => ?_
    obtain ⟨kind, later, hfirst, -⟩ := h.exists_first hblank
    rw [hc] at hfirst
    cases hfirst
  | piece pos kind c more tail hc hmore ih =>
    subst hpos
    have hlength : (before ++ c :: more).length = before.length + (c :: more).length :=
      List.length_append
    have htail : ∀ later, scanFrom (before.length + (c :: more).length) tail = .ok later ↔
        Tokenizes (before.length + (c :: more).length) (before ++ c :: (more ++ tail)) later := by
      intro later
      rw [ih hlength, List.append_assoc, List.cons_append]
    rw [scanFrom_piece hc hmore, tokenizes_piece hc hmore]
    simp only [← htail]
    cases scanFrom (before.length + (c :: more).length) tail with
    | error fault => simp [Except.map]
    | ok later => simp [Except.map, eq_comm]

/-- No class takes a blank. -/
theorem Kind.isBlank_of_mem_extension {kind : Kind} {cs : List Char} {c : Char}
    (hc : c ∈ kind.extension cs) : isBlank c = false := by
  refine Bool.eq_false_iff.mpr fun hblank => ?_
  obtain ⟨-, hletter, hnumeral, hequal⟩ := isBlank_excludes hblank
  cases kind with
  | word => exact absurd (List.mem_takeWhile_imp hc) (by simp [hletter])
  | number => exact absurd (List.mem_takeWhile_imp hc) (by simp [hnumeral])
  | operator => cases hc
  | comparator =>
    rw [extension] at hc
    split at hc
    · exact hequal (List.mem_singleton.mp hc)
    · cases hc

/-- The lexemes hold all characters that are not blank, each once and in order. -/
theorem flatMap_text_of_scanFrom {pos : Nat} {cs : List Char} {lexemes : List Lexeme}
    (h : scanFrom pos cs = .ok lexemes) :
    lexemes.flatMap (·.text.toList) = cs.filter fun c => !isBlank c := by
  induction pos, cs using scan_induction generalizing lexemes with
  | nil pos =>
    rw [scanFrom_nil] at h
    cases h
    rfl
  | blank pos c rest hblank ih =>
    rw [scanFrom_blank hblank] at h
    rw [ih h, List.filter_cons_of_neg (by simp [hblank])]
  | unexpected pos c rest hblank hc =>
    rw [scanFrom_unexpected hblank hc] at h
    cases h
  | piece pos kind c more tail hc hmore ih =>
    rw [scanFrom_piece hc hmore] at h
    cases hscan : scanFrom (pos + (c :: more).length) tail with
    | error fault => rw [hscan] at h; cases h
    | ok later =>
      rw [hscan] at h
      cases h
      have hsolid : ∀ d ∈ c :: more, (!isBlank d) = true := by
        intro d hd
        rcases List.mem_cons.mp hd with rfl | hd
        · simp [isBlank_of_ofFirst? hc]
        · rw [← hmore] at hd
          simp [Kind.isBlank_of_mem_extension hd]
      rw [List.flatMap_cons, ih hscan, ← List.cons_append, List.filter_append,
        List.filter_eq_self.mpr hsolid, piece, String.toList_ofList]

/-- Scanning returns the tokenization of a text if there is one, and fails otherwise. A text has
at most one, and the texts of its lexemes together are what is not blank. -/
theorem scan_eq_ok_iff_tokenizes (source : String) :
    (∀ lexemes, scan source = .ok lexemes ↔ Tokenizes 0 source.toList lexemes) ∧
      (∀ lexemes others, Tokenizes 0 source.toList lexemes → Tokenizes 0 source.toList others →
        lexemes = others) ∧
      ∀ lexemes, Tokenizes 0 source.toList lexemes →
        lexemes.flatMap (·.text.toList) = source.toList.filter fun c => !isBlank c := by
  have hscan : ∀ lexemes, scan source = .ok lexemes ↔ Tokenizes 0 source.toList lexemes := by
    intro lexemes
    exact scanFrom_eq_ok_iff List.length_nil
  refine ⟨hscan, ?_, ?_⟩
  · intro lexemes others hlexemes hothers
    exact Except.ok.inj (((hscan lexemes).mpr hlexemes).symm.trans ((hscan others).mpr hothers))
  · intro lexemes hlexemes
    exact flatMap_text_of_scanFrom ((hscan lexemes).mpr hlexemes)

/-- Four lexemes that touch each other, behind a blank. -/
theorem tokenizes_touching :
    let source := "\tx9.5>=>"
    let lexemes : List Lexeme := [⟨.word, "x9", ⟨1, 3⟩⟩, ⟨.number, ".5", ⟨3, 5⟩⟩,
      ⟨.comparator, ">=", ⟨5, 7⟩⟩, ⟨.comparator, ">", ⟨7, 8⟩⟩]
    Tokenizes 0 source.toList lexemes ∧
      (∀ others, Tokenizes 0 source.toList others → lexemes = others) ∧
      lexemes.flatMap (·.text.toList) = source.toList.filter fun c => !isBlank c := by
  intro source lexemes
  obtain ⟨hscan, hunique, htexts⟩ := scan_eq_ok_iff_tokenizes source
  have hlexemes : Tokenizes 0 source.toList lexemes := (hscan lexemes).mp (by decide +kernel)
  exact ⟨hlexemes, fun others => hunique lexemes others hlexemes, htexts lexemes hlexemes⟩

end Lexeme

end Keystroke
