import Keystroke.Lexeme
import Mathlib.Data.List.TakeWhile

/-!
# Scanning separated lexemes

`Kind.Spells` says that some characters are a single lexeme: the first one decides the class and
the class does not stop before the last one. No lexeme extends over a blank, so texts that are
each spelled like this and stand with one space between them are scanned at these spaces and
nowhere else. In the other direction, every lexeme that a scan returns is spelled.
-/

namespace Keystroke

namespace Lexeme

/-- Nothing follows, or a blank does. -/
def Separated (cs : List Char) : Prop := ∀ c ∈ cs.head?, isBlank c = true

theorem separated_nil : Separated [] := by
  intro c hc
  cases hc

theorem separated_space (cs : List Char) : Separated (' ' :: cs) := by
  intro c hc
  cases hc
  rfl

theorem isBlank_cases {c : Char} (hc : isBlank c = true) :
    c = ' ' ∨ c = '\t' ∨ c = '\n' ∨ c = '\x0c' ∨ c = '\r' := by
  simpa [isBlank, or_assoc] using hc

/-- A blank belongs to none of the classes of characters. -/
theorem isBlank_excludes {c : Char} (hc : isBlank c = true) :
    Kind.ofFirst? c = none ∧ c.isAlphanum = false ∧ isNumeral c = false ∧ c ≠ '=' := by
  rcases isBlank_cases hc with rfl | rfl | rfl | rfl | rfl <;> decide

theorem isBlank_of_ofFirst? {c : Char} {kind : Kind} (h : Kind.ofFirst? c = some kind) :
    isBlank c = false := by
  refine Bool.eq_false_iff.mpr fun hblank => ?_
  rw [(isBlank_excludes hblank).1] at h
  cases h

namespace Kind

/-- The characters are one lexeme of this class, up to the last of them. -/
def Spells (kind : Kind) : List Char → Prop
  | [] => False
  | c :: rest => ofFirst? c = some kind ∧ kind.extension rest = rest

instance (kind : Kind) : DecidablePred kind.Spells
  | [] => inferInstanceAs (Decidable False)
  | _ :: _ => inferInstanceAs (Decidable (_ ∧ _))

theorem Spells.ne_nil {kind : Kind} {cs : List Char} (h : kind.Spells cs) : cs ≠ [] := by
  rintro rfl
  exact h

/-- What is taken of a text that is followed by a blank is taken of the text alone. -/
theorem takeWhile_append_separated {p : Char → Bool} {cs tail : List Char}
    (hp : ∀ c, isBlank c = true → p c = false) (htail : Separated tail) :
    (cs ++ tail).takeWhile p = cs.takeWhile p := by
  have hstop : tail.takeWhile p = [] := by
    cases tail with
    | nil => rfl
    | cons c tail =>
      rw [List.takeWhile_cons, hp c (htail c rfl)]
      rfl
  rw [List.takeWhile_append, hstop]
  split
  · next hall =>
    rw [List.append_nil]
    exact ((List.takeWhile_prefix p).eq_of_length hall).symm
  · rfl

/-- No class extends over a blank. -/
theorem extension_append (kind : Kind) (cs : List Char) {tail : List Char}
    (htail : Separated tail) : kind.extension (cs ++ tail) = kind.extension cs := by
  cases kind with
  | word => exact takeWhile_append_separated (fun _ hc => (isBlank_excludes hc).2.1) htail
  | number => exact takeWhile_append_separated (fun _ hc => (isBlank_excludes hc).2.2.1) htail
  | operator => rfl
  | comparator =>
    cases cs with
    | cons c cs => rfl
    | nil =>
      cases tail with
      | nil => rfl
      | cons c tail =>
        have hc : c ≠ '=' := (isBlank_excludes (htail c rfl)).2.2.2
        simp [extension, hc]

/-- What a class takes once, it takes again. -/
theorem extension_extension (kind : Kind) (cs : List Char) :
    kind.extension (kind.extension cs) = kind.extension cs := by
  cases kind with
  | word => exact List.takeWhile_idem
  | number => exact List.takeWhile_idem
  | operator => rfl
  | comparator =>
    by_cases hequal : cs.head? = some '='
    · simp [extension, hequal]
    · simp [extension, hequal]

theorem extension_prefix (kind : Kind) (rest : List Char) : kind.extension rest <+: rest := by
  cases kind with
  | word | number => exact List.takeWhile_prefix _
  | operator => exact List.nil_prefix
  | comparator =>
    rw [extension]
    split
    · next hequal =>
      obtain ⟨tail, rfl⟩ := List.head?_eq_some_iff.mp hequal
      exact List.prefix_append ['='] tail
    · exact List.nil_prefix

/-- Every text splits into what a class takes of it and the rest. -/
theorem exists_extension (kind : Kind) (cs : List Char) :
    ∃ more tail, cs = more ++ tail ∧ kind.extension (more ++ tail) = more := by
  obtain ⟨tail, htail⟩ := kind.extension_prefix cs
  exact ⟨kind.extension cs, tail, htail.symm, by rw [htail]⟩

theorem spells_cons_extension {kind : Kind} {c : Char} (h : ofFirst? c = some kind)
    (rest : List Char) : kind.Spells (c :: kind.extension rest) :=
  ⟨h, kind.extension_extension rest⟩

end Kind

theorem scanFrom_nil (pos : Nat) : scanFrom pos [] = .ok [] := by
  rw [scanFrom]

theorem scanFrom_blank {c : Char} (hc : isBlank c = true) (pos : Nat) (rest : List Char) :
    scanFrom pos (c :: rest) = scanFrom (pos + 1) rest := by
  rw [scanFrom, if_pos hc]

theorem scanFrom_unexpected {c : Char} (hblank : isBlank c = false)
    (hc : Kind.ofFirst? c = none) (pos : Nat) (rest : List Char) :
    scanFrom pos (c :: rest) =
      .error ⟨.unexpectedCharacter, ⟨pos, pos + 1⟩, String.singleton c⟩ := by
  rw [scanFrom, hblank, if_neg Bool.false_ne_true, hc]

/-- The lexeme that is made of the characters `chars` from position `pos` on. -/
def piece (kind : Kind) (pos : Nat) (chars : List Char) : Lexeme :=
  ⟨kind, String.ofList chars, ⟨pos, pos + chars.length⟩⟩

/-- The first character and those that its class takes of the others are cut off as a lexeme. -/
theorem scanFrom_piece {kind : Kind} {c : Char} {more tail : List Char}
    (hc : Kind.ofFirst? c = some kind) (hmore : kind.extension (more ++ tail) = more) (pos : Nat) :
    scanFrom pos (c :: (more ++ tail)) =
      (scanFrom (pos + (c :: more).length) tail).map (piece kind pos (c :: more) :: ·) := by
  rw [scanFrom, isBlank_of_ofFirst? hc, if_neg Bool.false_ne_true, hc]
  simp only [hmore, List.drop_left]
  cases scanFrom (pos + (c :: more).length) tail <;> rfl

/-- Induction along a scan: a text is empty, or it starts with a blank, with a character that no
lexeme starts with, or with a lexeme. -/
theorem scan_induction {motive : Nat → List Char → Prop} (pos : Nat) (cs : List Char)
    (nil : ∀ pos, motive pos [])
    (blank : ∀ pos c rest, isBlank c = true → motive (pos + 1) rest → motive pos (c :: rest))
    (unexpected : ∀ pos c rest, isBlank c = false → Kind.ofFirst? c = none →
      motive pos (c :: rest))
    (piece : ∀ pos kind c more tail, Kind.ofFirst? c = some kind →
      kind.extension (more ++ tail) = more → motive (pos + (c :: more).length) tail →
      motive pos (c :: (more ++ tail))) :
    motive pos cs := by
  have hpiece : ∀ pos kind c rest, Kind.ofFirst? c = some kind →
      motive (pos + (c :: kind.extension rest).length)
        (rest.drop (kind.extension rest).length) → motive pos (c :: rest) := by
    intro pos kind c rest hc hrest
    obtain ⟨more, tail, rfl, hmore⟩ := kind.exists_extension rest
    rw [hmore, List.drop_left] at hrest
    exact piece pos kind c more tail hc hmore hrest
  induction pos, cs using scanFrom.induct with
  | case1 pos => exact nil pos
  | case2 pos c rest hblank ih => exact blank pos c rest hblank ih
  | case3 pos c rest hblank hc => exact unexpected pos c rest (Bool.eq_false_iff.mpr hblank) hc
  | case4 pos c rest _ kind hc _ _ _ _ ih => exact hpiece pos kind c rest hc ih
  | case5 pos c rest _ kind hc _ _ _ _ ih => exact hpiece pos kind c rest hc ih

/-- A lexeme in front of a blank or of the end is cut off there. -/
theorem scanFrom_spelled {kind : Kind} {cs tail : List Char} (hcs : kind.Spells cs)
    (htail : Separated tail) (pos : Nat) :
    scanFrom pos (cs ++ tail) =
      (scanFrom (pos + cs.length) tail).map
        (⟨kind, String.ofList cs, ⟨pos, pos + cs.length⟩⟩ :: ·) := by
  obtain ⟨c, rest, rfl⟩ := List.exists_cons_of_ne_nil hcs.ne_nil
  obtain ⟨hc, hrest⟩ := hcs
  have hextension : kind.extension (rest ++ tail) = rest := by
    rw [kind.extension_append rest htail, hrest]
  exact scanFrom_piece hc hextension pos

/-- Spelled texts with one space between them are scanned one by one. -/
theorem scanFrom_intercalate {texts : List (Kind × List Char)}
    (h : ∀ text ∈ texts, text.1.Spells text.2) (pos : Nat) :
    ∃ lexemes, scanFrom pos ([' '].intercalate (texts.map Prod.snd)) = .ok lexemes ∧
      lexemes.map (fun lexeme => (lexeme.kind, lexeme.text.toList)) = texts := by
  induction texts generalizing pos with
  | nil => exact ⟨[], scanFrom_nil pos, rfl⟩
  | cons text texts ih =>
    obtain ⟨kind, cs⟩ := text
    have hcs : kind.Spells cs := h (kind, cs) List.mem_cons_self
    have hrest : ∀ text ∈ texts, text.1.Spells text.2 := fun text ht =>
      h text (List.mem_cons_of_mem _ ht)
    -- The last text is followed by nothing, the others by a space.
    cases texts with
    | nil =>
      refine ⟨[⟨kind, String.ofList cs, ⟨pos, pos + cs.length⟩⟩], ?_, by simp⟩
      have hscan := scanFrom_spelled hcs separated_nil pos
      rw [List.append_nil, scanFrom_nil] at hscan
      rw [List.map_cons, List.map_nil, List.intercalate_singleton, hscan]
      rfl
    | cons text texts =>
      obtain ⟨lexemes, hscan, htexts⟩ := ih hrest (pos + cs.length + 1)
      refine ⟨⟨kind, String.ofList cs, ⟨pos, pos + cs.length⟩⟩ :: lexemes, ?_, by simp [htexts]⟩
      rw [List.map_cons, List.map_cons, List.intercalate_cons_cons, List.append_assoc,
        List.singleton_append, ← List.map_cons, scanFrom_spelled hcs (separated_space _),
        scanFrom_blank rfl, hscan]
      rfl

/-- Every lexeme of a scan is spelled in its class. -/
theorem spells_of_mem_scanFrom {pos : Nat} {cs : List Char} {lexemes : List Lexeme}
    (h : scanFrom pos cs = .ok lexemes) :
    ∀ lexeme ∈ lexemes, lexeme.kind.Spells lexeme.text.toList := by
  fun_induction scanFrom pos cs generalizing lexemes with
  | case1 => cases h; simp
  | case2 pos c rest hblank ih => exact ih h
  | case3 => cases h
  | case4 => cases h
  | case5 pos c rest hblank kind hkind chars stop found hfound =>
    rename_i ih
    cases h
    intro lexeme hlexeme
    rcases List.mem_cons.mp hlexeme with rfl | hlater
    · rw [String.toList_ofList]
      exact Kind.spells_cons_extension hkind rest
    · exact ih hfound lexeme hlater

end Lexeme

end Keystroke
