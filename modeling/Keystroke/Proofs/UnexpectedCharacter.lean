import Keystroke.Program.Reader
import Keystroke.Proofs.Tokenization
import Mathlib.Order.Bounds.Basic

/-!
# Where a scan fails

A scan cuts off lexemes of any length, but whether it fails at a character depends on that
character and the one before it only. All characters but one either belong to a class or belong to
none. The exception is the sign of equality, which is accepted directly behind the sign of a
comparator and nowhere else. The invariant that carries the proof is that between two lexemes no
comparator has just ended that the next character would extend, so a sign of equality met there is
always unexpected. The fault is about the first character that does not fit, and nothing that
stands behind it can change it.
-/

namespace Keystroke

theorem IsWord.isAlphanum {cs : List Char} (h : IsWord cs) : ∀ c ∈ cs, c.isAlphanum = true := by
  cases cs with
  | nil => exact nofun
  | cons c rest => exact List.forall_mem_cons.mpr ⟨(Bool.or_eq_true _ _).mpr (.inl h.1), h.2⟩

namespace Lexeme

/-- The character may stand anywhere: it is a letter, a digit, a point, a sign of arithmetic, the
start of a comparator or a blank. -/
def IsFamiliar (c : Char) : Prop :=
  c.isAlpha = true ∨ c.isDigit = true ∨ c ∈ ['.', '+', '-', '*', '/', '>', '<'] ∨ isBlank c = true

/-- The character may stand behind these: it is familiar, or it is a sign of equality and directly
behind the start of a comparator. -/
def Fits (before : List Char) (c : Char) : Prop :=
  IsFamiliar c ∨ c = '=' ∧ (before.getLast? = some '>' ∨ before.getLast? = some '<')

def Offends (cs : List Char) (i : Nat) : Prop := ∃ c, cs[i]? = some c ∧ ¬ Fits (cs.take i) c

section Fits

variable {before pre post : List Char} {c d : Char} {cs : List Char} {kind : Kind}

/-- Familiar are the blanks and the characters that a lexeme starts with. -/
theorem isFamiliar_iff : IsFamiliar c ↔ isBlank c = true ∨ ∃ kind, Kind.ofFirst? c = some kind := by
  constructor
  · rintro (halpha | hdigit | hsign | hblank)
    · exact .inr ⟨.word, Kind.ofFirst?_eq_word.mpr halpha⟩
    · exact .inr ⟨.number, Kind.ofFirst?_eq_number.mpr (Kind.isNumeral_iff.mpr (.inl hdigit))⟩
    · refine .inr ?_
      simp only [List.mem_cons, List.not_mem_nil, or_false] at hsign
      rcases hsign with rfl | rfl | rfl | rfl | rfl | rfl | rfl <;> exact ⟨_, rfl⟩
    · exact .inl hblank
  · rintro (hblank | ⟨kind, hkind⟩)
    · exact .inr (.inr (.inr hblank))
    · cases kind with
      | word => exact .inl (Kind.ofFirst?_eq_word.mp hkind)
      | number =>
        rcases Kind.isNumeral_iff.mp (Kind.ofFirst?_eq_number.mp hkind) with hdigit | rfl
        · exact .inr (.inl hdigit)
        · simp [IsFamiliar]
      | operator =>
        rcases Kind.ofFirst?_eq_operator.mp hkind with rfl | rfl | rfl | rfl <;> simp [IsFamiliar]
      | comparator =>
        rcases Kind.ofFirst?_eq_comparator.mp hkind with rfl | rfl <;> simp [IsFamiliar]

theorem isFamiliar_of_isAlphanum (h : c.isAlphanum = true) : IsFamiliar c := by
  rcases (Bool.or_eq_true _ _).mp h with halpha | hdigit
  · exact .inl halpha
  · exact .inr (.inl hdigit)

/-- Every character of a lexeme fits behind those before it. -/
theorem Kind.Admits.fits (h : kind.Admits (pre ++ d :: post)) : Fits (before ++ pre) d := by
  have hd : d ∈ pre ++ d :: post := by simp
  cases kind with
  | word => exact .inl (isFamiliar_of_isAlphanum (IsWord.isAlphanum h d hd))
  | number =>
    rcases h.2 d hd with hdigit | rfl
    · exact .inl (.inr (.inl hdigit))
    · exact .inl (by simp [IsFamiliar])
  | operator =>
    refine .inl ?_
    simp only [Admits, List.mem_cons, List.not_mem_nil, or_false] at h
    rcases h with h | h | h | h <;> rw [h, List.mem_singleton] at hd <;> simp [hd, IsFamiliar]
  | comparator =>
    -- The second character, if there is one, has the start of the comparator before it.
    simp only [Admits, List.mem_cons, List.not_mem_nil, or_false] at h
    obtain _ | ⟨c, pre⟩ := pre
    · have hfirst : d = '>' ∨ d = '<' := by
        rcases h with h | h | h | h <;> simp [(List.cons.inj h).1]
      rcases hfirst with rfl | rfl <;> exact .inl (by simp [IsFamiliar])
    · have hsecond : pre = [] ∧ d = '=' ∧ (c = '>' ∨ c = '<') := by
        rcases h with h | h | h | h <;> simp_all [List.append_eq_singleton_iff]
      obtain ⟨rfl, rfl, hc⟩ := hsecond
      exact .inr ⟨rfl, by simpa [List.getLast?_append] using hc⟩

/-- Only a comparator of one character ends in its start. -/
theorem Kind.Admits.eq_of_getLast? (h : kind.Admits cs)
    (hlast : cs.getLast? = some '>' ∨ cs.getLast? = some '<') :
    kind = comparator ∧ cs.length = 1 := by
  have hmem : '>' ∈ cs ∨ '<' ∈ cs := hlast.imp List.mem_of_getLast? List.mem_of_getLast?
  cases kind with
  | word =>
    exfalso
    rcases hmem with hmem | hmem <;> exact absurd (IsWord.isAlphanum h _ hmem) (by decide)
  | number =>
    exfalso
    rcases hmem with hmem | hmem <;> exact absurd (h.2 _ hmem) (by decide)
  | operator =>
    exfalso
    simp only [Admits, List.mem_cons, List.not_mem_nil, or_false] at h
    rcases h with rfl | rfl | rfl | rfl <;> simp at hmem
  | comparator =>
    refine ⟨rfl, ?_⟩
    simp only [Admits, List.mem_cons, List.not_mem_nil, or_false] at h
    rcases h with rfl | rfl | rfl | rfl <;> simp at hlast ⊢

end Fits

section Scan

variable {before cs chars tail : List Char} {c : Char} {pos i : Nat}

theorem offends_append_cons :
    Offends (before ++ c :: tail) before.length ↔ ¬ Fits before c := by
  simp [Offends]

/-- Nothing offends among characters that each fit behind those before them. -/
theorem not_offends_of_fits
    (h : ∀ pre d post, chars = pre ++ d :: post → Fits (before ++ pre) d)
    (hstart : before.length ≤ i) (hstop : i < before.length + chars.length) :
    ¬ Offends (before ++ (chars ++ tail)) i := by
  obtain ⟨k, rfl⟩ := Nat.exists_eq_add_of_le hstart
  have hk : k < chars.length := by omega
  have hsplit : chars = chars.take k ++ chars[k] :: chars.drop (k + 1) := by simp
  have hlength : before.length + k = (before ++ chars.take k).length := by
    simp [Nat.min_eq_left hk.le]
  have htext : before ++ (chars ++ tail) =
      (before ++ chars.take k) ++ chars[k] :: (chars.drop (k + 1) ++ tail) := by
    rw [List.append_assoc, ← List.cons_append, ← List.append_assoc (chars.take k), ← hsplit]
  rw [htext, hlength, offends_append_cons, not_not]
  exact h _ _ _ hsplit

/-- No comparator has just ended that the next character would extend: a character that fits here
would fit anywhere. -/
def Parted (before cs : List Char) : Prop :=
  ∀ c, cs.head? = some c → Fits before c → IsFamiliar c

theorem parted_nil (cs : List Char) : Parted [] cs := by
  rintro c - (hfamiliar | ⟨-, hlast⟩)
  · exact hfamiliar
  · simp at hlast

theorem parted_blank (hc : isBlank c = true) : Parted (before ++ [c]) cs := by
  rintro d - (hfamiliar | ⟨-, hlast⟩)
  · exact hfamiliar
  · rw [List.getLast?_concat] at hlast
    rcases hlast with hlast | hlast <;> cases hlast <;> cases hc

/-- A lexeme goes on as far as its class allows, so behind it nothing extends a comparator. -/
theorem parted_piece {kind : Kind} (hchars : kind.Admits chars)
    (hstop : ∀ d, tail.head? = some d → ¬ kind.Extends chars d) :
    Parted (before ++ chars) tail := by
  rintro d hd (hfamiliar | ⟨rfl, hlast⟩)
  · exact hfamiliar
  · have hne : chars ≠ [] := ((Kind.admits_iff_spells _ _).mp hchars).ne_nil
    rw [List.getLast?_append_of_ne_nil _ hne] at hlast
    obtain ⟨rfl, hlength⟩ := hchars.eq_of_getLast? hlast
    exact absurd ⟨hlength, rfl⟩ (hstop '=' hd)

/-- What the result of a scan from position `pos` on says about the text: nothing offends there, or
the fault is about the first character that does. -/
def Reports (pos : Nat) (cs : List Char) : Except Fault (List Lexeme) → Prop
  | .ok _ => ∀ i, pos ≤ i → ¬ Offends cs i
  | .error fault => ∃ i c, IsLeast {j | pos ≤ j ∧ Offends cs j} i ∧ cs[i]? = some c ∧
      fault = ⟨.unexpectedCharacter, ⟨i, i + 1⟩, String.singleton c⟩

theorem reports_map (f : List Lexeme → List Lexeme) (r : Except Fault (List Lexeme)) :
    Reports pos cs (r.map f) ↔ Reports pos cs r := by
  cases r <;> exact Iff.rfl

/-- A scan may as well start earlier if nothing offends in between. -/
theorem Reports.of_later {later : Nat} {r : Except Fault (List Lexeme)} (h : Reports later cs r)
    (hle : pos ≤ later) (hfree : ∀ i, pos ≤ i → i < later → ¬ Offends cs i) :
    Reports pos cs r := by
  have hlater : ∀ i, pos ≤ i → Offends cs i → later ≤ i := fun i hi hoffends =>
    Nat.le_of_not_lt fun hlt => hfree i hi hlt hoffends
  cases r with
  | ok lexemes => exact fun i hi hoffends => h i (hlater i hi hoffends) hoffends
  | error fault =>
    obtain ⟨i, c, ⟨⟨hi, hoffends⟩, hleast⟩, hc, hfault⟩ := h
    refine ⟨i, c, ⟨⟨Nat.le_trans hle hi, hoffends⟩, ?_⟩, hc, hfault⟩
    rintro j ⟨hj, hoffends'⟩
    exact hleast ⟨hlater j hj hoffends', hoffends'⟩

/-- A scan that starts between two lexemes finds the first character that does not fit. -/
theorem scanFrom_reports (hpos : before.length = pos) (hparted : Parted before cs) :
    Reports pos (before ++ cs) (scanFrom pos cs) := by
  induction pos, cs using scan_induction generalizing before with
  | nil pos =>
    rw [scanFrom_nil, List.append_nil]
    rintro i hi ⟨c, hc, -⟩
    rw [List.getElem?_eq_none (hpos ▸ hi)] at hc
    cases hc
  | blank pos c rest hblank ih =>
    subst hpos
    have hfits : Fits before c := .inl (isFamiliar_iff.mpr (.inl hblank))
    have hlater : Reports (before.length + 1) (before ++ [c] ++ rest) (scanFrom _ rest) :=
      ih List.length_append (parted_blank hblank)
    rw [scanFrom_blank hblank]
    rw [List.append_assoc, List.singleton_append] at hlater
    refine hlater.of_later (Nat.le_succ _) fun i hi hlt => ?_
    obtain rfl : i = before.length := by omega
    exact fun hoffends => offends_append_cons.mp hoffends hfits
  | unexpected pos c rest hblank hc =>
    subst hpos
    have hstrange : ¬ IsFamiliar c := by simp [isFamiliar_iff, hblank, hc]
    rw [scanFrom_unexpected hblank hc]
    refine ⟨before.length, c, ⟨⟨Nat.le_refl _, ?_⟩, fun j hj => hj.1⟩, by simp, rfl⟩
    exact offends_append_cons.mpr fun hfits => hstrange (hparted c rfl hfits)
  | piece pos kind c more tail hc hmore ih =>
    subst hpos
    obtain ⟨halone, hstop⟩ := (kind.extension_append_eq_iff c more tail).mp hmore
    have hadmits : kind.Admits (c :: more) := (kind.admits_iff_spells _).mpr ⟨hc, halone⟩
    have hlater : Reports (before.length + (c :: more).length) (before ++ c :: more ++ tail)
        (scanFrom _ tail) := ih List.length_append (parted_piece hadmits hstop)
    rw [scanFrom_piece hc hmore, reports_map]
    rw [List.append_assoc] at hlater
    refine hlater.of_later (Nat.le_add_right _ _) fun i hi hlt => ?_
    refine not_offends_of_fits (fun pre d post hsplit => ?_) hi hlt
    exact (hsplit ▸ hadmits).fits

theorem scan_reports (source : String) : Reports 0 source.toList (scan source) :=
  scanFrom_reports List.length_nil (parted_nil source.toList)

theorem not_offends_of_scan {source : String} {lexemes : List Lexeme}
    (h : scan source = .ok lexemes) : ¬ Offends source.toList i := by
  have hreports := scan_reports source
  rw [h] at hreports
  exact hreports i (Nat.zero_le i)

end Scan

/-- Whether a position offends depends on the text up to it only. -/
theorem offends_iff_of_take_eq {cs other : List Char} {i n : Nat} (h : other.take n = cs.take n)
    (hi : i < n) : Offends other i ↔ Offends cs i := by
  have hchar : other[i]? = cs[i]? := by
    rw [← List.getElem?_take_of_lt hi, h, List.getElem?_take_of_lt hi]
  have hbefore : other.take i = cs.take i := by
    rw [← Nat.min_eq_left hi.le, ← List.take_take, h, List.take_take]
  rw [Offends, Offends, hchar, hbefore]

/-- A scan fails at the first character that does not fit, if there is one. -/
theorem scan_eq_error_iff {source : String} {fault : Fault} :
    scan source = .error fault ↔ ∃ i c, IsLeast {j | Offends source.toList j} i ∧
      source.toList[i]? = some c ∧
      fault = ⟨.unexpectedCharacter, ⟨i, i + 1⟩, String.singleton c⟩ := by
  have hfirst : ∀ {fault}, scan source = .error fault → ∃ i c,
      IsLeast {j | Offends source.toList j} i ∧ source.toList[i]? = some c ∧
        fault = ⟨.unexpectedCharacter, ⟨i, i + 1⟩, String.singleton c⟩ := by
    intro fault h
    have hreports := scan_reports source
    rw [h] at hreports
    simpa [Reports] using hreports
  refine ⟨hfirst, ?_⟩
  rintro ⟨i, c, hi, hc, rfl⟩
  cases hscan : scan source with
  | ok lexemes => exact absurd hi.1 (not_offends_of_scan hscan)
  | error fault =>
    obtain ⟨j, d, hj, hd, rfl⟩ := hfirst hscan
    obtain rfl : i = j := hi.unique hj
    obtain rfl : c = d := Option.some.inj (hc.symm.trans hd)
    rfl

theorem scan_eq_error_of_take_eq {source other : String} {fault : Fault} {i : Nat}
    (h : scan source = .error fault) (hi : IsLeast {j | Offends source.toList j} i)
    (hagree : other.toList.take (i + 1) = source.toList.take (i + 1)) :
    scan other = .error fault := by
  obtain ⟨j, c, hj, hc, rfl⟩ := scan_eq_error_iff.mp h
  obtain rfl : i = j := hi.unique hj
  refine scan_eq_error_iff.mpr ⟨i, c, ⟨?_, ?_⟩, ?_, rfl⟩
  · exact (offends_iff_of_take_eq hagree (Nat.lt_succ_self i)).mpr hi.1
  · intro k hk
    by_contra hlt
    have hk' : k < i + 1 := by omega
    exact hlt (hi.2 ((offends_iff_of_take_eq hagree hk').mp hk))
  · rw [← hc, ← List.getElem?_take_of_lt (Nat.lt_succ_self i), hagree,
      List.getElem?_take_of_lt (Nat.lt_succ_self i)]

/-- Failing to scan is local. A text cannot be scanned if and only if it holds a character that does
not fit; the fault is about the first one, and every text that agrees up to that one has the same
fault. So whatever is put behind the text, it compiles to this fault. -/
theorem scan_fails_at_first_offender (source : String) :
    ((∃ fault, scan source = .error fault) ↔ ∃ i, Offends source.toList i) ∧
      ∀ fault, scan source = .error fault →
        ∃ i c, IsLeast {j | Offends source.toList j} i ∧ source.toList[i]? = some c ∧
          fault = ⟨.unexpectedCharacter, ⟨i, i + 1⟩, String.singleton c⟩ ∧
          (∀ other : String, other.toList.take (i + 1) = source.toList.take (i + 1) →
            scan other = .error fault) ∧
          ∀ later : String, compile (source ++ later) = .error fault := by
  constructor
  · constructor
    · rintro ⟨fault, h⟩
      obtain ⟨i, -, hi, -⟩ := scan_eq_error_iff.mp h
      exact ⟨i, hi.1⟩
    · rintro ⟨i, hi⟩
      cases hscan : scan source with
      | ok lexemes => exact absurd hi (not_offends_of_scan hscan)
      | error fault => exact ⟨fault, rfl⟩
  · intro fault h
    obtain ⟨i, c, hi, hc, hfault⟩ := scan_eq_error_iff.mp h
    have hagree : ∀ other : String, other.toList.take (i + 1) = source.toList.take (i + 1) →
        scan other = .error fault := fun _ => scan_eq_error_of_take_eq h hi
    refine ⟨i, c, hi, hc, hfault, hagree, fun later => ?_⟩
    have hlength : i + 1 ≤ source.toList.length := (List.getElem?_eq_some_iff.mp hc).1
    have hscan : scan (source ++ later) = .error fault :=
      hagree _ (by rw [String.toList_append, List.take_append_of_le_length hlength])
    rw [compile, hscan]
    rfl

/-- A second sign of equality, which the comparator before it does not take. The letter with an
accent behind it and the name that is missing before it do not matter. -/
theorem scan_fails_at_first_offender_equality :
    let source := "sto >==2é"
    let fault : Fault := ⟨.unexpectedCharacter, ⟨6, 7⟩, "="⟩
    scan source = .error fault ∧ IsLeast {j | Offends source.toList j} 6 ∧
      scan "sto >== 1" = .error fault ∧ compile (source ++ " ? 3..4") = .error fault := by
  intro source fault
  have hscan : scan source = .error fault := by decide +kernel
  obtain ⟨i, c, hi, -, hfault, hagree, hlater⟩ :=
    (scan_fails_at_first_offender source).2 fault hscan
  obtain rfl : 6 = i := congrArg (fun f : Fault => f.span.start) hfault
  exact ⟨hscan, hi, hagree "sto >== 1" (by decide), hlater " ? 3..4"⟩

end Lexeme

end Keystroke
