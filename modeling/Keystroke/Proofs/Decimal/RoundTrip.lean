import Keystroke.Proofs.Decimal.NormalForm
import Keystroke.Proofs.Decimal.Text

/-!
# Numerals and the decimals they are read as

A numeral is a text of digits with at most one point. These are the texts that can be read, and
reading keeps the digits on both sides of the point as they stand. Printing is the other way round
except at the edges: a text that starts or ends with its point is read, but never printed, and a
number with nothing before its point is printed with a zero there. So neither direction is the
identity, and both domains are stated on which it is.
-/

namespace Keystroke

namespace Digit

variable {c : Char}

theorem toNat_ofChar (hc : c.isDigit = true) : (ofChar c).toNat = c.toNat - '0'.toNat := by
  have hnine := (Char.isDigit_iff_toNat.mp hc).2
  have hbyte : c.toNat - '0'.toNat < 2 ^ 8 := by
    have : '9'.toNat = '0'.toNat + 9 := rfl
    omega
  exact Nat.mod_eq_of_lt hbyte

theorem toChar_ofChar (hc : c.isDigit = true) : toChar (ofChar c) = c := by
  have hzero := (Char.isDigit_iff_toNat.mp hc).1
  rw [toChar, toNat_ofChar hc, Nat.add_sub_cancel' hzero, Char.ofNat_toNat]

end Digit

namespace Digits

variable {cs : List Char}

theorem toChars_ofChars (h : ∀ c ∈ cs, c.isDigit = true) : toChars (ofChars cs) = cs := by
  rw [toChars, ofChars, List.map_map]
  exact (List.map_congr_left fun c hc => Digit.toChar_ofChar (h c hc)).trans (List.map_id cs)

theorem map_toNat_ofChars (h : ∀ c ∈ cs, c.isDigit = true) :
    (ofChars cs).map UInt8.toNat = cs.map fun c => c.toNat - '0'.toNat := by
  rw [ofChars, List.map_map]
  exact List.map_congr_left fun c hc => Digit.toNat_ofChar (h c hc)

/-- The digits of a string are worth what its characters are. -/
theorem value_ofChars (h : ∀ c ∈ cs, c.isDigit = true) :
    value (ofChars cs) = Nat.ofDigitChars 10 cs 0 := by
  have hfold : ∀ a : Digits, value a = (a.map UInt8.toNat).foldl (fun n d => 10 * n + d) 0 :=
    fun a => by rw [value, List.foldl_map]
  rw [hfold, map_toNat_ofChars h, List.foldl_map, Nat.ofDigitChars_eq_foldl]

end Digits

namespace Decimal

/-- Digits and at most one point. -/
def IsNumeral (s : String) : Prop :=
  (∀ c ∈ s.toList, c.isDigit = true ∨ c = '.') ∧ s.toList.count '.' ≤ 1

instance (s : String) : Decidable (IsNumeral s) :=
  @instDecidableAnd _ _ (List.decidableBAll (fun c => c.isDigit = true ∨ c = '.') s.toList) _

/-- What stands before the point, which is all if there is none. -/
def beforePoint (s : String) : List Char := s.toList.takeWhile (· ≠ '.')

def behindPoint (s : String) : List Char := (s.toList.dropWhile (· ≠ '.')).tail

/-- The number that a numeral is written for. -/
def numeralValue (s : String) : ℚ :=
  Nat.ofDigitChars 10 (beforePoint s) 0 +
    Nat.ofDigitChars 10 (behindPoint s) 0 / 10 ^ (behindPoint s).length

section Parts

variable {s : String} {cs a b : List Char} {n : Decimal}

namespace HasParts

/-- The parts are those on the two sides of the point. -/
theorem split_eq (h : HasParts cs a b) :
    cs.takeWhile (· ≠ '.') = a ∧ (cs.dropWhile (· ≠ '.')).tail = b := by
  have ha : ∀ c ∈ a, decide (c ≠ '.') = true := fun c hc =>
    decide_eq_true (ne_point_of_isDigit h.isDigit_before c hc)
  cases h with
  | whole =>
    refine ⟨List.takeWhile_eq_self_iff.mpr ha, ?_⟩
    rw [List.dropWhile_eq_nil_iff.mpr ha, List.tail_nil]
  | pointed =>
    rw [List.takeWhile_append_of_pos ha, List.dropWhile_append_of_pos ha]
    simp

theorem isNumeral (h : HasParts s.toList a b) : IsNumeral s := by
  have hbefore := h.isDigit_before
  have hbehind := h.isDigit_behind
  rw [IsNumeral]
  generalize s.toList = cs at h
  cases h with
  | whole => exact ⟨fun c hc => .inl (hbefore c hc), by simp [count_point_eq_zero hbefore]⟩
  | pointed =>
    refine ⟨?_, by simp [count_point_eq_zero hbefore, count_point_eq_zero hbehind]⟩
    simp only [List.mem_append, List.mem_cons]
    rintro c (hc | rfl | hc)
    · exact .inl (hbefore c hc)
    · exact .inr rfl
    · exact .inl (hbehind c hc)

end HasParts

/-- A numeral is digits, or digits on both sides of its only point. -/
theorem IsNumeral.hasParts (h : IsNumeral s) : ∃ a b, HasParts s.toList a b := by
  obtain ⟨hchars, hcount⟩ := h
  generalize s.toList = cs at hchars hcount
  have hdigits : ∀ {d : List Char}, d ⊆ cs → '.' ∉ d → ∀ c ∈ d, c.isDigit = true := by
    intro d hd hnone c hc
    refine (hchars c (hd hc)).resolve_right ?_
    rintro rfl
    exact hnone hc
  by_cases hpoint : '.' ∈ cs
  · obtain ⟨a, b, rfl, ha⟩ := List.eq_append_cons_of_mem hpoint
    have hb : '.' ∉ b := by
      rw [List.count_append, List.count_cons_self] at hcount
      exact List.count_eq_zero.mp (by omega)
    exact ⟨a, b, .pointed (hdigits (by simp) ha) (hdigits (fun c hc => by simp [hc]) hb)⟩
  · exact ⟨cs, [], .whole (hdigits (fun _ hc => hc) hpoint)⟩

/-- A text has parts if it is a numeral, and then these are what stands on the two sides of its
point. -/
theorem hasParts_iff :
    HasParts s.toList a b ↔ IsNumeral s ∧ a = beforePoint s ∧ b = behindPoint s := by
  constructor
  · intro h
    obtain ⟨hbefore, hbehind⟩ := h.split_eq
    exact ⟨h.isNumeral, hbefore.symm, hbehind.symm⟩
  · rintro ⟨hnumeral, rfl, rfl⟩
    obtain ⟨a, b, h⟩ := hnumeral.hasParts
    obtain ⟨hbefore, hbehind⟩ := h.split_eq
    rwa [beforePoint, hbefore, behindPoint, hbehind]

end Parts

section Reading

variable {s : String} {n : Decimal}

theorem read_eq_ok : read s = .ok n ↔ ofText? s = some n := by
  rw [read]
  cases ofText? s <;> simp

/-- The texts that are read are the numerals, and all their digits are kept. -/
theorem read_eq_ok_iff : read s = .ok n ↔
    IsNumeral s ∧ n = ⟨false, .ofChars (beforePoint s), .ofChars (behindPoint s)⟩ := by
  rw [read_eq_ok, ofText?]
  constructor
  · intro h
    obtain ⟨a, b, hparts⟩ := exists_hasParts_of_ofChars? h
    obtain ⟨hnumeral, rfl, rfl⟩ := hasParts_iff.mp hparts
    exact ⟨hnumeral, Option.some.inj (h.symm.trans hparts.ofChars?_eq)⟩
  · rintro ⟨hnumeral, rfl⟩
    exact (hasParts_iff.mpr ⟨hnumeral, rfl, rfl⟩).ofChars?_eq

theorem exists_read_eq_ok_iff : (∃ n, read s = .ok n) ↔ IsNumeral s := by
  simp [read_eq_ok_iff]

theorem value_of_read (h : read s = .ok n) : n.value = numeralValue s := by
  obtain ⟨hnumeral, rfl⟩ := read_eq_ok_iff.mp h
  have hparts := hasParts_iff.mpr ⟨hnumeral, rfl, rfl⟩
  rw [value, signed_false, magnitude_eq_add, Digits.value_ofChars hparts.isDigit_before,
    Digits.value_ofChars hparts.isDigit_behind, numeralValue]
  simp [Digits.ofChars]

/-- What is printed for the number that a numeral is read as. -/
theorem toList_text_of_read (h : read s = .ok n) :
    n.text.toList = (if beforePoint s = [] then ['0'] else beforePoint s) ++
      if behindPoint s = [] then [] else '.' :: behindPoint s := by
  obtain ⟨hnumeral, rfl⟩ := read_eq_ok_iff.mp h
  have hparts := hasParts_iff.mpr ⟨hnumeral, rfl, rfl⟩
  have hsign : ∀ a b, isBelowZero ⟨false, a, b⟩ = false := fun _ _ => rfl
  rw [text, String.toList_ofList, toChars, hsign, magnitudeChars,
    Digits.toChars_ofChars hparts.isDigit_before, Digits.toChars_ofChars hparts.isDigit_behind]
  simp [Digits.ofChars]

/-- A numeral is printed as it was written if it shows digits before its point and does not end in
it. -/
theorem text_eq_iff_of_read (h : read s = .ok n) :
    n.text = s ↔ beforePoint s ≠ [] ∧ s.toList.getLast? ≠ some '.' := by
  have hparts := hasParts_iff.mpr ⟨(read_eq_ok_iff.mp h).1, rfl, rfl⟩
  rw [← String.toList_inj, toList_text_of_read h]
  generalize beforePoint s = a at hparts
  generalize behindPoint s = b at hparts
  generalize s.toList = cs at hparts
  have ha := ne_point_of_isDigit hparts.isDigit_before
  have hb := ne_point_of_isDigit hparts.isDigit_behind
  by_cases hempty : a = []
  · cases hparts <;> simp [hempty]
  · have hlast : ∀ {d : List Char}, (∀ c ∈ d, c ≠ '.') → d.getLast? ≠ some '.' := fun hd hpoint =>
      hd '.' (List.mem_of_getLast? hpoint) rfl
    cases hparts with
    | whole => simp [hempty, hlast ha]
    | pointed =>
      by_cases hnothing : b = []
      · simp [hempty, hnothing]
      · have hend : (a ++ '.' :: b).getLast? = b.getLast? := by
          obtain ⟨d, hd⟩ := Option.ne_none_iff_exists'.mp (mt List.getLast?_eq_none_iff.mp hnothing)
          simp [List.getLast?_append, List.getLast?_cons, hd]
        simp [hempty, hnothing, hend, hlast hb]

end Reading

section Printing

variable {n : Decimal}

theorem IsNormal.isBelowZero_eq (h : n.IsNormal) : n.isBelowZero = n.negative := by
  cases hnegative : n.negative with
  | false => simp [isBelowZero, hnegative]
  | true => simp [isBelowZero, hnegative, h.sign hnegative]

/-- A number in normal form is printed with all it has. -/
theorem IsNormal.spelledOut_eq (h : n.IsNormal) : n.spelledOut = n := by
  have hinteger : n.integer ≠ [] := by
    intro hempty
    simpa [hempty] using h.integer
  rw [spelledOut, h.isBelowZero_eq, if_neg hinteger]

/-- A number below zero is printed as its absolute value behind a sign. -/
theorem text_of_isBelowZero (h : n.isBelowZero = true) :
    n.text = "-" ++ ({ n with negative := false } : Decimal).text := by
  have habsolute : ({ n with negative := false } : Decimal).toChars = n.magnitudeChars := rfl
  rw [text, text, habsolute, toChars, if_pos h, String.ofList_cons]
  rfl

end Printing

/-- Reading and printing decimals are inverse to each other as far as they can be. Numerals and no
other texts are read, digit for digit and as the number that they are written for, and one is
printed as it was written if and only if it has digits before its point and does not end in it. A
number that is not below zero is read back from its text with a zero in place of an empty integer
part; this is the same number, and the very same digits if they are in normal form. A number below
zero is printed as a sign and its absolute value. -/
theorem read_text_roundTrip :
    (∀ s : String, (∃ n, read s = .ok n) ↔ IsNumeral s) ∧
      (∀ (s : String) (n : Decimal), read s = .ok n →
        n.negative = false ∧
          n.integer.map UInt8.toNat = (beforePoint s).map (fun c => c.toNat - '0'.toNat) ∧
          n.fraction.map UInt8.toNat = (behindPoint s).map (fun c => c.toNat - '0'.toNat) ∧
          n.value = numeralValue s ∧
          (n.text = s ↔ beforePoint s ≠ [] ∧ s.toList.getLast? ≠ some '.')) ∧
      (∀ n : Decimal, n.WellFormed → n.isBelowZero = false →
        ∃ m, read n.text = .ok m ∧
          m = ⟨false, if n.integer = [] then [0] else n.integer, n.fraction⟩ ∧
          m.same n = true ∧ (n.IsNormal → m = n)) ∧
      ∀ n : Decimal, n.isBelowZero = true →
        n.text = "-" ++ ({ n with negative := false } : Decimal).text := by
  refine ⟨fun s => exists_read_eq_ok_iff, ?_, ?_, fun n => text_of_isBelowZero⟩
  · intro s n h
    obtain ⟨hnumeral, hn⟩ := read_eq_ok_iff.mp h
    have hparts := hasParts_iff.mpr ⟨hnumeral, rfl, rfl⟩
    refine ⟨by rw [hn], ?_, ?_, value_of_read h, text_eq_iff_of_read h⟩
    · rw [hn, Digits.map_toNat_ofChars hparts.isDigit_before]
    · rw [hn, Digits.map_toNat_ofChars hparts.isDigit_behind]
  · intro n hn hsign
    refine ⟨n.spelledOut, read_eq_ok.mpr (ofText?_text hn hsign), ?_, n.same_spelledOut,
      IsNormal.spelledOut_eq⟩
    rw [spelledOut, hsign]

/-- A text without digits before its point, one that ends in its point and one with two of them; a
number without integer part, a zero with a sign, and a number below zero. -/
theorem read_text_roundTrip_edges :
    read ".50" = .ok ⟨false, [], [5, 0]⟩ ∧
      (⟨false, [], [5, 0]⟩ : Decimal).value = numeralValue ".50" ∧
      (⟨false, [], [5, 0]⟩ : Decimal).text ≠ ".50" ∧
      read "007." = .ok ⟨false, [0, 0, 7], []⟩ ∧ (⟨false, [0, 0, 7], []⟩ : Decimal).text ≠ "007." ∧
      (¬ ∃ n, read "1..2" = .ok n) ∧
      (∃ m, read (⟨false, [], [5, 0]⟩ : Decimal).text = .ok m ∧ m = ⟨false, [0], [5, 0]⟩ ∧
        m.same ⟨false, [], [5, 0]⟩ = true) ∧
      (∃ m, read (⟨true, [0, 0], [0]⟩ : Decimal).text = .ok m ∧ m = ⟨false, [0, 0], [0]⟩) ∧
      (⟨true, [2], [5]⟩ : Decimal).text = "-" ++ (⟨false, [2], [5]⟩ : Decimal).text := by
  obtain ⟨hread, hkept, hback, hsigned⟩ := read_text_roundTrip
  have hhalf : read ".50" = .ok ⟨false, [], [5, 0]⟩ := by decide
  have hseven : read "007." = .ok ⟨false, [0, 0, 7], []⟩ := by decide
  obtain ⟨-, -, -, hvalue, hhalfText⟩ := hkept _ _ hhalf
  obtain ⟨-, -, -, -, hsevenText⟩ := hkept _ _ hseven
  obtain ⟨m, hm, hdigits, hsame, -⟩ := hback ⟨false, [], [5, 0]⟩ (by decide) (by decide)
  obtain ⟨z, hz, hzero, -, -⟩ := hback ⟨true, [0, 0], [0]⟩ (by decide) (by decide)
  refine ⟨hhalf, hvalue, ?_, hseven, ?_, ?_, ⟨m, hm, hdigits, hsame⟩, ⟨z, hz, hzero⟩, ?_⟩
  · rw [ne_eq, hhalfText]
    decide
  · rw [ne_eq, hsevenText]
    decide
  · rw [hread]
    decide
  · exact hsigned ⟨true, [2], [5]⟩ (by decide)

end Decimal

end Keystroke
