import Keystroke.Proofs.Program.Concatenation

/-!
# Layout carries no meaning

The lexemes of a text can be written down again with other blanks around them. Blanks in front and
at the end are optional. Between two lexemes one blank is enough, also where they touched each other
in the text that they are from, since no lexeme extends over a blank. The scan then cuts at the
blanks, so it returns the same lexemes at their new places. The stages behind it copy places and
never decide by them, so what they make of the lexemes is the same up to places, be it a program or
a fault.
-/

namespace Keystroke

/-- Blanks to be put around `n` lexemes, in front of the first one and behind each of them. Only
those in front and those behind the last one may be missing. -/
structure Layout (n : Nat) where
  front : String
  gaps : List String
  length_gaps : gaps.length = n
  blank_front : ∀ c ∈ front.toList, Lexeme.isBlank c = true
  blank_gaps : ∀ gap ∈ gaps, ∀ c ∈ gap.toList, Lexeme.isBlank c = true
  apart : ∀ gap ∈ gaps.dropLast, gap ≠ ""

namespace Lexeme

def withoutSpan (l : Lexeme) : Lexeme := l.relocate fun _ => .origin

/-- The texts of some lexemes, each with its gap behind it. -/
def spacedChars (spaced : List (Lexeme × String)) : List Char :=
  spaced.flatMap fun x => x.1.text.toList ++ x.2.toList

/-- Behind a gap comes a blank or nothing, if a gap is empty at the end only. -/
theorem separated_gap {x : Lexeme × String} {spaced : List (Lexeme × String)}
    (hblank : ∀ c ∈ x.2.toList, isBlank c = true)
    (hapart : ∀ y ∈ (x :: spaced).dropLast, y.2 ≠ "") :
    Separated (x.2.toList ++ spacedChars spaced) := by
  intro c hc
  by_cases hempty : x.2 = ""
  · have hlast : spaced = [] := by
      by_contra hne
      exact hapart x (by simp [List.dropLast_cons_of_ne_nil hne]) hempty
    simp [hempty, hlast, spacedChars] at hc
  · obtain ⟨d, rest, hgap⟩ := List.exists_cons_of_ne_nil (mt String.toList_eq_nil_iff.mp hempty)
    rw [hgap] at hblank hc
    cases hc
    exact hblank c List.mem_cons_self

/-- Lexemes with gaps between them are scanned one by one, each at the place where it stands. -/
theorem scanFrom_spacedChars {spaced : List (Lexeme × String)}
    (hspells : ∀ x ∈ spaced, x.1.kind.Spells x.1.text.toList)
    (hblank : ∀ x ∈ spaced, ∀ c ∈ x.2.toList, isBlank c = true)
    (hapart : ∀ x ∈ spaced.dropLast, x.2 ≠ "") (pos : Nat) :
    scanFrom pos (spacedChars spaced) = .ok (spaced.mapIdx fun i x =>
      piece x.1.kind (pos + (spacedChars (spaced.take i)).length) x.1.text.toList) := by
  induction spaced generalizing pos with
  | nil => exact scanFrom_nil pos
  | cons x spaced ih =>
    obtain ⟨hx, hspells⟩ := List.forall_mem_cons.mp hspells
    obtain ⟨hgap, hblank⟩ := List.forall_mem_cons.mp hblank
    have hrest : ∀ y ∈ spaced.dropLast, y.2 ≠ "" := by
      intro y hy
      have hne : spaced ≠ [] := by
        rintro rfl
        cases hy
      exact hapart y (by simp [List.dropLast_cons_of_ne_nil hne, hy])
    have hchars : ∀ l, spacedChars (x :: l) = x.1.text.toList ++ (x.2.toList ++ spacedChars l) :=
      fun l => by simp [spacedChars]
    rw [hchars, scanFrom_spelled hx (separated_gap hgap hapart), scanFrom_blanks hgap,
      ih hspells hblank hrest, List.mapIdx_cons]
    simp only [List.take_succ_cons, hchars, List.length_append, Except.map, Nat.add_assoc]
    rfl

end Lexeme

namespace Layout

variable {n : Nat} (layout : Layout n) (lexemes : List Lexeme)

/-- The text up to the lexeme with this number. -/
def before (i : Nat) : String :=
  layout.front ++ String.ofList (Lexeme.spacedChars ((lexemes.zip layout.gaps).take i))

def source : String := layout.before lexemes n

/-- The lexemes at the places that they have in this layout: each starts behind all that is written
before it. -/
def place : List Lexeme :=
  lexemes.mapIdx fun i l =>
    { l with
      span := ⟨(layout.before lexemes i).length, (layout.before lexemes i).length + l.text.length⟩ }

variable {lexemes}

/-- Spelled lexemes are scanned at their places in a layout. -/
theorem scan_source (layout : Layout lexemes.length)
    (hspells : ∀ l ∈ lexemes, l.kind.Spells l.text.toList) :
    Lexeme.scan (layout.source lexemes) = .ok (layout.place lexemes) := by
  have hfst : (lexemes.zip layout.gaps).map Prod.fst = lexemes :=
    List.map_fst_zip (Nat.le_of_eq layout.length_gaps.symm)
  have hsnd : (lexemes.zip layout.gaps).map Prod.snd = layout.gaps :=
    List.map_snd_zip (Nat.le_of_eq layout.length_gaps)
  have hkinds : ∀ x ∈ lexemes.zip layout.gaps, x.1.kind.Spells x.1.text.toList :=
    fun x hx => hspells x.1 (hfst ▸ List.mem_map_of_mem hx)
  have hblank : ∀ x ∈ lexemes.zip layout.gaps, ∀ c ∈ x.2.toList, Lexeme.isBlank c = true :=
    fun x hx => layout.blank_gaps x.2 (hsnd ▸ List.mem_map_of_mem hx)
  have hapart : ∀ x ∈ (lexemes.zip layout.gaps).dropLast, x.2 ≠ "" := by
    intro x hx
    refine layout.apart x.2 ?_
    rw [← hsnd, ← List.map_dropLast]
    exact List.mem_map_of_mem hx
  have hall : (lexemes.zip layout.gaps).take lexemes.length = lexemes.zip layout.gaps :=
    List.take_of_length_le (by simp)
  have hplace : layout.place lexemes = (lexemes.zip layout.gaps).mapIdx fun i x =>
      Lexeme.piece x.1.kind (0 + layout.front.toList.length +
        (Lexeme.spacedChars ((lexemes.zip layout.gaps).take i)).length) x.1.text.toList := by
    refine List.ext_getElem? fun i => ?_
    have hi : lexemes[i]? = ((lexemes.zip layout.gaps)[i]?).map Prod.fst := by
      rw [← List.getElem?_map, hfst]
    rw [place, List.getElem?_mapIdx, List.getElem?_mapIdx, hi, Option.map_map]
    simp [before, Lexeme.piece, Function.comp_def, String.length_toList]
  rw [Lexeme.scan, source, before, hall, String.toList_append, String.toList_ofList,
    Lexeme.scanFrom_blanks layout.blank_front, Lexeme.scanFrom_spacedChars hkinds hblank hapart,
    hplace]

/-- A layout changes nothing but places. -/
theorem map_withoutSpan_place (layout : Layout n) :
    (layout.place lexemes).map Lexeme.withoutSpan = lexemes.map Lexeme.withoutSpan := by
  refine List.ext_getElem? fun i => ?_
  rw [place, List.getElem?_map, List.getElem?_mapIdx, List.getElem?_map, Option.map_map]
  rfl

end Layout

open Reader (relocated)

/-- Lexemes at other places are read as the program at other places, or refused there. -/
theorem ofTokens_ofLexemes_relocate (place : Span → Span)
    (hplace : ∀ span, place span.after = (place span).after) (lexemes : List Lexeme) :
    (Token.ofLexemes (lexemes.map (Lexeme.relocate place))).bind Program.ofTokens =
      relocated place (Program.relocate place)
        ((Token.ofLexemes lexemes).bind Program.ofTokens) := by
  rw [Token.ofLexemes_relocate]
  cases Token.ofLexemes lexemes with
  | error fault => rfl
  | ok tokens => exact Program.ofTokens_relocate place hplace tokens

/-- Texts whose lexemes differ in their places only are compiled to the same up to places. -/
theorem compile_of_withoutSpan_eq {a b : String} {lexemes others : List Lexeme}
    (ha : Lexeme.scan a = .ok lexemes) (hb : Lexeme.scan b = .ok others)
    (h : others.map Lexeme.withoutSpan = lexemes.map Lexeme.withoutSpan) :
    relocated (fun _ => .origin) Program.withoutSpans (compile b) =
      relocated (fun _ => .origin) Program.withoutSpans (compile a) := by
  have hcompile : ∀ {source : String} {ls : List Lexeme}, Lexeme.scan source = .ok ls →
      relocated (fun _ => .origin) Program.withoutSpans (compile source) =
        (Token.ofLexemes (ls.map Lexeme.withoutSpan)).bind Program.ofTokens := by
    intro source ls hscan
    rw [compile, hscan]
    exact (ofTokens_ofLexemes_relocate (fun _ => .origin) (fun _ => rfl) ls).symm
  rw [hcompile hb, hcompile ha, h]

/-- Results that are the same up to places are two programs or two faults. -/
theorem programs_or_faults_of_relocated_eq {x y : Except Fault Program}
    (h : relocated (fun _ => .origin) Program.withoutSpans y =
      relocated (fun _ => .origin) Program.withoutSpans x) :
    (∃ p q, x = .ok p ∧ y = .ok q ∧ q.withoutSpans = p.withoutSpans) ∨
      ∃ f g, x = .error f ∧ y = .error g ∧ g.kind = f.kind ∧ g.text = f.text := by
  cases x with
  | ok p =>
    cases y with
    | ok q => exact .inl ⟨p, q, rfl, rfl, Except.ok.inj h⟩
    | error g => cases h
  | error f =>
    cases y with
    | ok q => cases h
    | error g =>
      obtain ⟨hkind, -, htext⟩ := Fault.mk.inj (Except.error.inj h)
      exact .inr ⟨f, g, rfl, rfl, hkind, htext⟩

/-- Layout carries no meaning. Whatever blanks are put around the lexemes of a text, the result is
scanned to the same lexemes, each at the place where it is written now. Both texts compile to the
same program up to places, digit for digit, or both are refused for the same cause and with the same
text. -/
theorem compile_layout (source : String) (lexemes : List Lexeme)
    (hscan : Lexeme.scan source = .ok lexemes) (layout : Layout lexemes.length) :
    Lexeme.scan (layout.source lexemes) = .ok (layout.place lexemes) ∧
      ((∃ p q, compile source = .ok p ∧ compile (layout.source lexemes) = .ok q ∧
          q.withoutSpans = p.withoutSpans) ∨
        ∃ f g, compile source = .error f ∧ compile (layout.source lexemes) = .error g ∧
          g.kind = f.kind ∧ g.text = f.text) := by
  have hlaidOut := layout.scan_source (Lexeme.spells_of_mem_scanFrom hscan)
  have hsame := compile_of_withoutSpan_eq hscan hlaidOut layout.map_withoutSpan_place
  exact ⟨hlaidOut, programs_or_faults_of_relocated_eq hsame⟩

/-- Five lexemes of which the first four touch each other, written down with a line end in front,
one gap of two blanks and nothing behind the last one. -/
theorem compile_layout_touching :
    let source := "1>=2sto x"
    let other := "\n1\t>= 2\r\nsto x"
    let lexemes : List Lexeme := [⟨.number, "1", ⟨0, 1⟩⟩, ⟨.comparator, ">=", ⟨1, 3⟩⟩,
      ⟨.number, "2", ⟨3, 4⟩⟩, ⟨.word, "sto", ⟨4, 7⟩⟩, ⟨.word, "x", ⟨8, 9⟩⟩]
    Lexeme.scan source = .ok lexemes ∧
      Lexeme.scan other = .ok [⟨.number, "1", ⟨1, 2⟩⟩, ⟨.comparator, ">=", ⟨3, 5⟩⟩,
        ⟨.number, "2", ⟨6, 7⟩⟩, ⟨.word, "sto", ⟨9, 12⟩⟩, ⟨.word, "x", ⟨13, 14⟩⟩] ∧
      ∃ p q, compile source = .ok p ∧ compile other = .ok q ∧ q.withoutSpans = p.withoutSpans := by
  intro source other lexemes
  have hscan : Lexeme.scan source = .ok lexemes := by decide +kernel
  have hread : compile source = .ok ⟨[.press ⟨0, 1⟩ (.push .one),
      .press ⟨1, 3⟩ (.compare .greaterEqual), .press ⟨3, 4⟩ (.push ⟨false, [2], []⟩),
      .press ⟨4, 7⟩ (.store "x")]⟩ := by
    rw [compile, hscan]
    rfl
  let layout : Layout lexemes.length := {
    front := "\n"
    gaps := ["\t", " ", "\r\n", " ", ""]
    length_gaps := rfl
    blank_front := List.all_eq_true.mp (by decide)
    blank_gaps := fun gap hgap => List.all_eq_true.mp (by
      revert gap
      decide)
    apart := by decide }
  have hsource : layout.source lexemes = other := by decide
  have hplace : layout.place lexemes = [⟨.number, "1", ⟨1, 2⟩⟩, ⟨.comparator, ">=", ⟨3, 5⟩⟩,
      ⟨.number, "2", ⟨6, 7⟩⟩, ⟨.word, "sto", ⟨9, 12⟩⟩, ⟨.word, "x", ⟨13, 14⟩⟩] := by decide
  obtain ⟨hlaidOut, hcompile⟩ := compile_layout source lexemes hscan layout
  rw [hsource] at hlaidOut hcompile
  rw [hplace] at hlaidOut
  refine ⟨hscan, hlaidOut, hcompile.resolve_right ?_⟩
  rintro ⟨f, -, hf, -⟩
  rw [hread] at hf
  cases hf

end Keystroke
