import Keystroke.Proofs.Program.Relocation
import Keystroke.Proofs.Program.WellFormed

/-!
# Source texts one behind the other

A source text that compiles can be followed by blanks and by any other text. The second text is then
compiled as if it stood alone and moved to its place: each of the three stages passes over the first
text without a trace that the second could see. The scan is between two lexemes when it comes to
the blanks, the meaning of a lexeme depends on nothing else, and the reader has closed every label
and waits for no name. Faults of the second text are moved in the same way as its statements.
-/

namespace Keystroke

namespace Lexeme

def relocate (place : Span → Span) (l : Lexeme) : Lexeme := { l with span := place l.span }

theorem piece_shift (kind : Kind) (n pos : Nat) (chars : List Char) :
    piece kind (n + pos) chars = (piece kind pos chars).relocate (Span.shift n) := by
  simp [piece, relocate, Span.shift, Nat.add_assoc]

/-- A scan that starts further on moves all places by the same distance. -/
theorem scanFrom_shift (n pos : Nat) (cs : List Char) :
    scanFrom (n + pos) cs =
      Reader.relocated (Span.shift n) (List.map (relocate (Span.shift n))) (scanFrom pos cs) := by
  induction pos, cs using scan_induction with
  | nil pos =>
    rw [scanFrom_nil, scanFrom_nil]
    rfl
  | blank pos c rest hblank ih =>
    rw [scanFrom_blank hblank, scanFrom_blank hblank]
    exact ih
  | unexpected pos c rest hblank hc =>
    rw [scanFrom_unexpected hblank hc, scanFrom_unexpected hblank hc]
    rfl
  | piece pos kind c more tail hc hmore ih =>
    rw [scanFrom_piece hc hmore, scanFrom_piece hc hmore, Nat.add_assoc, ih, piece_shift]
    cases scanFrom (pos + (c :: more).length) tail <;> rfl

theorem scanFrom_blanks {blanks : List Char} (hblanks : ∀ c ∈ blanks, isBlank c = true)
    (pos : Nat) (cs : List Char) :
    scanFrom pos (blanks ++ cs) = scanFrom (pos + blanks.length) cs := by
  induction blanks generalizing pos with
  | nil => rfl
  | cons c blanks ih =>
    obtain ⟨hc, hrest⟩ := List.forall_mem_cons.mp hblanks
    rw [List.cons_append, scanFrom_blank hc, ih hrest, List.length_cons, Nat.add_assoc,
      Nat.add_comm 1]

/-- In front of a blank a scan comes to the end of a lexeme, and what follows is scanned on its
own. -/
theorem scanFrom_append {pos : Nat} {cs tail : List Char} {first : List Lexeme}
    (h : scanFrom pos cs = .ok first) (htail : Separated tail) :
    scanFrom pos (cs ++ tail) = (scanFrom (pos + cs.length) tail).map (first ++ ·) := by
  induction pos, cs using scan_induction generalizing first with
  | nil pos =>
    rw [scanFrom_nil] at h
    cases h
    show scanFrom pos tail = _
    cases scanFrom pos tail <;> rfl
  | blank pos c rest hblank ih =>
    rw [scanFrom_blank hblank] at h
    rw [List.cons_append, scanFrom_blank hblank, ih h, List.length_cons, Nat.add_assoc,
      Nat.add_comm 1]
  | unexpected pos c rest hblank hc =>
    rw [scanFrom_unexpected hblank hc] at h
    cases h
  | piece pos kind c more rest hc hmore ih =>
    rw [scanFrom_piece hc hmore] at h
    cases hrest : scanFrom (pos + (c :: more).length) rest with
    | error fault => rw [hrest] at h; cases h
    | ok later =>
      rw [hrest] at h
      cases h
      have hextension : kind.extension (more ++ (rest ++ tail)) = more := by
        rw [← List.append_assoc, kind.extension_append _ htail, hmore]
      have hlength : pos + (c :: (more ++ rest)).length =
          pos + (c :: more).length + rest.length := by
        simp only [List.length_cons, List.length_append]
        omega
      rw [List.cons_append, List.append_assoc, scanFrom_piece hc hextension, ih hrest, hlength]
      cases scanFrom (pos + (c :: more).length + rest.length) tail <;> rfl

end Lexeme

namespace Token

open Reader (relocated)

variable (place : Span → Span)

/-- What a lexeme means does not depend on where it stands. -/
theorem ofLexeme_relocate (l : Lexeme) :
    ofLexeme (l.relocate place) = relocated place (relocate place) (ofLexeme l) := by
  obtain ⟨kind, text, span⟩ := l
  cases kind with
  | word =>
    simp only [ofLexeme, kindOf, Lexeme.relocate]
    cases Keyword.ofText? text <;> rfl
  | number =>
    simp only [ofLexeme, kindOf, Lexeme.relocate]
    by_cases hpoints : text.toList.count '.' > 1
    · simp only [hpoints, if_true]
      rfl
    · simp only [hpoints, if_false]
      rfl
  | operator =>
    simp only [ofLexeme, kindOf, Lexeme.relocate]
    cases Operator.ofText? text <;> rfl
  | comparator =>
    simp only [ofLexeme, kindOf, Lexeme.relocate]
    cases Comparator.ofText? text <;> rfl

theorem ofLexemes_relocate (lexemes : List Lexeme) :
    ofLexemes (lexemes.map (Lexeme.relocate place)) =
      relocated place (List.map (relocate place)) (ofLexemes lexemes) := by
  induction lexemes with
  | nil => rfl
  | cons l lexemes ih =>
    rw [List.map_cons, ofLexemes_cons, ofLexemes_cons, ofLexeme_relocate, ih]
    cases ofLexeme l with
    | error fault => rfl
    | ok t => cases ofLexemes lexemes <;> rfl

theorem ofLexemes_append {first later : List Lexeme} {tokens : List Token}
    (h : ofLexemes first = .ok tokens) :
    ofLexemes (first ++ later) = (ofLexemes later).map (tokens ++ ·) := by
  rw [ofLexemes] at h
  rw [ofLexemes, List.mapM_append, h]
  show (ofLexemes later).bind _ = _
  cases ofLexemes later <;> rfl

end Token

namespace Reader

/-- The reader of the same tokens behind a program whose statements are `before`, the latest
first. -/
def behind (before : List Statement) (r : Reader) : Reader :=
  { r with statements := r.statements ++ before }

variable (before : List Statement) (r : Reader)

theorem add_behind (s : Statement) : (r.behind before).add s = (r.add s).behind before := by
  obtain ⟨statements, _ | l, awaiting⟩ := r <;> rfl

theorem named_behind (span : Span) (name : String) (verb : Verb) :
    (r.behind before).named span name verb = (r.named span name verb).behind before := by
  cases verb with
  | store | load | call => exact add_behind before r _
  | define => rfl

/-- A token is read in the same way, whatever has been read and completed before. -/
theorem take_behind (t : Token) :
    (r.behind before).take t = (r.take t).map (behind before) := by
  obtain ⟨kind, text, span⟩ := t
  cases kind with
  | name => rfl
  | operator op | comparator c => exact congrArg Except.ok (add_behind before r _)
  | number =>
    simp only [take]
    cases Decimal.ofText? text with
    | none => rfl
    | some n => exact congrArg Except.ok (add_behind before r _)
  | word w =>
    obtain ⟨statements, opened, awaiting⟩ := r
    cases w with
    | sto | rcl | xeq => rfl
    | lbl | rtn => cases opened <;> rfl

theorem next_behind (t : Token) :
    (r.behind before).next t = (r.next t).map (behind before) := by
  obtain ⟨statements, opened, _ | ⟨span, verb⟩⟩ := r
  · exact take_behind before _ t
  · by_cases hname : t.kind = .name
    · simp only [next, behind, hname, if_true]
      exact congrArg Except.ok (named_behind before ⟨statements, opened, none⟩ _ _ _)
    · simp only [next, behind, hname, if_false]
      rfl

theorem foldlM_behind (tokens : List Token) :
    tokens.foldlM next (r.behind before) = (tokens.foldlM next r).map (behind before) := by
  induction tokens generalizing r with
  | nil => rfl
  | cons t tokens ih =>
    rw [List.foldlM_cons, List.foldlM_cons, next_behind]
    cases r.next t with
    | error fault => rfl
    | ok r₁ => exact ih r₁

theorem finish_behind :
    (r.behind before).finish =
      r.finish.map fun q => ⟨before.reverse ++ q.statements⟩ := by
  obtain ⟨statements, opened, _ | ⟨span, verb⟩⟩ := r
  · cases opened with
    | some l => rfl
    | none =>
      show Except.ok (Program.mk (statements ++ before).reverse) = _
      rw [List.reverse_append]
      rfl
  · rfl

/-- A reader that is not missing anything has nothing but its statements. -/
theorem eq_behind_start {p : Program} (h : r.finish = .ok p) :
    r = start.behind p.statements.reverse := by
  obtain ⟨statements, _ | l, _ | ⟨span, verb⟩⟩ := r
  · cases h
    simp [start, behind]
  all_goals cases h

end Reader

/-- Tokens behind those of a whole program are read as a program of their own. -/
theorem Program.ofTokens_append {first : List Token} {p : Program}
    (h : Program.ofTokens first = .ok p) (later : List Token) :
    Program.ofTokens (first ++ later) =
      (Program.ofTokens later).map fun q => ⟨p.statements ++ q.statements⟩ := by
  obtain ⟨r, hfold, hfinish⟩ := Program.ofTokens_eq_ok.mp h
  have hr := r.eq_behind_start hfinish
  rw [Program.ofTokens, List.foldlM_append, hfold, hr]
  show ((later.foldlM Reader.next _).bind Reader.finish) = _
  rw [Reader.foldlM_behind, Program.ofTokens]
  cases later.foldlM Reader.next Reader.start with
  | error fault => rfl
  | ok r₁ =>
    have hend := Reader.finish_behind p.statements.reverse r₁
    rwa [List.reverse_reverse] at hend

/-- The lexemes of a text behind another one and some blanks. -/
theorem Lexeme.scan_append {a w b : String} {first : List Lexeme} (ha : scan a = .ok first)
    (hne : w ≠ "") (hw : ∀ c ∈ w.toList, isBlank c = true) :
    scan (a ++ w ++ b) =
      (Reader.relocated (Span.shift (a ++ w).length)
        (List.map (Lexeme.relocate (Span.shift (a ++ w).length))) (scan b)).map (first ++ ·) := by
  have hseparated : Separated (w.toList ++ b.toList) := by
    obtain ⟨c, rest, hcs⟩ := List.exists_cons_of_ne_nil (mt String.toList_eq_nil_iff.mp hne)
    intro d hd
    rw [hcs] at hd hw
    cases hd
    exact hw c List.mem_cons_self
  have hlength : 0 + a.toList.length + w.toList.length = (a ++ w).length + 0 := by
    rw [← String.length_toList, String.toList_append, List.length_append]
    omega
  rw [scan, String.toList_append, String.toList_append, List.append_assoc,
    scanFrom_append ha hseparated, scanFrom_blanks hw, hlength, scanFrom_shift]
  rfl

/-- What a text is compiled to behind another one and some blanks. -/
theorem compile_append {a w b : String} {p : Program} (ha : compile a = .ok p)
    (hne : w ≠ "") (hw : ∀ c ∈ w.toList, Lexeme.isBlank c = true) :
    compile (a ++ w ++ b) =
      Reader.relocated (Span.shift (a ++ w).length)
        (fun q => ⟨p.statements ++ (q.relocate (Span.shift (a ++ w).length)).statements⟩)
        (compile b) := by
  obtain ⟨first, tokens, hscan, htokens, hread⟩ := compile_eq_ok.mp ha
  generalize hplace : Span.shift (a ++ w).length = place
  have hafter : ∀ span : Span, place span.after = (place span).after := by
    intro span
    rw [← hplace, Span.after_shift]
  have hlexemes := Lexeme.scan_append (b := b) hscan hne hw
  rw [hplace] at hlexemes
  rw [compile, compile, hlexemes]
  cases Lexeme.scan b with
  | error fault => rfl
  | ok later =>
    show (Token.ofLexemes (first ++ later.map (Lexeme.relocate place))).bind Program.ofTokens =
      Reader.relocated place _ ((Token.ofLexemes later).bind Program.ofTokens)
    rw [Token.ofLexemes_append htokens, Token.ofLexemes_relocate]
    cases Token.ofLexemes later with
    | error fault => rfl
    | ok laterTokens =>
      show Program.ofTokens (tokens ++ laterTokens.map (Token.relocate place)) =
        Reader.relocated place _ (Program.ofTokens laterTokens)
      rw [Program.ofTokens_append hread, Program.ofTokens_relocate place hafter]
      cases Program.ofTokens laterTokens <;> rfl

/-- Compiling respects that texts stand one behind the other. If the first one compiles and at least
one blank follows it, then the whole compiles to the statements of both, or to the fault of the
second text, whichever stage that is from. All that comes from the second text is moved by the
number of characters before it. -/
theorem compile_behind_blanks (a w b : String) (p : Program) (ha : compile a = .ok p)
    (hne : w ≠ "") (hw : ∀ c ∈ w.toList, Lexeme.isBlank c = true) :
    let place := Span.shift (a ++ w).length
    (∀ q, compile b = .ok q →
        compile (a ++ w ++ b) =
          .ok ⟨p.statements ++ q.statements.map (Statement.relocate place)⟩) ∧
      ∀ fault, compile b = .error fault →
        compile (a ++ w ++ b) = .error ⟨fault.kind, place fault.span, fault.text⟩ := by
  intro place
  have hwhole := compile_append (b := b) ha hne hw
  constructor
  · intro q hb
    rw [hwhole, hb]
    rfl
  · intro fault hb
    rw [hwhole, hb]
    rfl

/-- A label with a call, then a line end and a space. A label that follows is moved with its body.
In a text with two faults, the name that the reader misses stands before the character that the
scan refuses, and the scan comes first. -/
theorem compile_behind_blanks_label :
    let a := "lbl f 1 rtn xeq f"
    let p : Program := ⟨[.label ⟨0, 3⟩ "f" [.press ⟨6, 7⟩ (.push .one)], .call ⟨12, 15⟩ "f"]⟩
    compile a = .ok p ∧
      compile "lbl g + rtn" = .ok ⟨[.label ⟨0, 3⟩ "g" [.press ⟨6, 7⟩ (.arithmetic .plus)]]⟩ ∧
      compile (a ++ "\n " ++ "lbl g + rtn") = .ok ⟨p.statements ++
        [.label ⟨19, 22⟩ "g" [.press ⟨25, 26⟩ (.arithmetic .plus)]]⟩ ∧
      compile "sto + ?" = .error ⟨.unexpectedCharacter, ⟨6, 7⟩, "?"⟩ ∧
      compile (a ++ "\n " ++ "sto + ?") = .error ⟨.unexpectedCharacter, ⟨25, 26⟩, "?"⟩ := by
  intro a p
  have ha : compile a = .ok p :=
    compile_eq_ok.mpr ⟨[⟨.word, "lbl", ⟨0, 3⟩⟩, ⟨.word, "f", ⟨4, 5⟩⟩, ⟨.number, "1", ⟨6, 7⟩⟩,
      ⟨.word, "rtn", ⟨8, 11⟩⟩, ⟨.word, "xeq", ⟨12, 15⟩⟩, ⟨.word, "f", ⟨16, 17⟩⟩], _,
      by decide +kernel, rfl, rfl⟩
  have hlabel : compile "lbl g + rtn" =
      .ok ⟨[.label ⟨0, 3⟩ "g" [.press ⟨6, 7⟩ (.arithmetic .plus)]]⟩ :=
    compile_eq_ok.mpr ⟨[⟨.word, "lbl", ⟨0, 3⟩⟩, ⟨.word, "g", ⟨4, 5⟩⟩, ⟨.operator, "+", ⟨6, 7⟩⟩,
      ⟨.word, "rtn", ⟨8, 11⟩⟩], _, by decide +kernel, rfl, rfl⟩
  have hscan : Lexeme.scan "sto + ?" = .error ⟨.unexpectedCharacter, ⟨6, 7⟩, "?"⟩ := by
    decide +kernel
  have hfault : compile "sto + ?" = .error ⟨.unexpectedCharacter, ⟨6, 7⟩, "?"⟩ := by
    rw [compile, hscan]
    rfl
  have hne : "\n " ≠ "" := by decide
  have hblank : ∀ c ∈ "\n ".toList, Lexeme.isBlank c = true :=
    List.all_eq_true.mp (by decide)
  have hlength : (a ++ "\n ").length = 19 := by decide
  obtain ⟨hboth, -⟩ := compile_behind_blanks a "\n " "lbl g + rtn" p ha hne hblank
  obtain ⟨-, hmoved⟩ := compile_behind_blanks a "\n " "sto + ?" p ha hne hblank
  rw [hlength] at hboth hmoved
  exact ⟨ha, hlabel, hboth _ hlabel, hfault, hmoved _ hfault⟩

end Keystroke
