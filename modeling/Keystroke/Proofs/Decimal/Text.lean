import Keystroke.Decimal.Text
import Keystroke.Proofs.Decimal.Value
import Mathlib.Data.List.TakeWhile

/-!
# Printed decimals read back

Reading keeps every digit of a text, so of a number that was printed it returns the digits that
the text shows. These are the digits of the number, except that a zero stands where there was
nothing before the point.
-/

namespace Keystroke

namespace Digit

theorem isDigit_toChar {d : Digit} (hd : d.toNat ≤ 9) : (toChar d).isDigit = true := by
  have hcases : ∀ n ≤ 9, (Char.ofNat ('0'.toNat + n)).isDigit = true := by decide
  exact hcases d.toNat hd

theorem ofChar_toChar {d : Digit} (hd : d.toNat ≤ 9) : ofChar (toChar d) = d := by
  have hcases : ∀ n ≤ 9, ((Char.ofNat ('0'.toNat + n)).toNat - '0'.toNat).toUInt8 = n.toUInt8 := by
    decide
  have hchar := hcases d.toNat hd
  rw [ofChar, toChar, hchar]
  simp

theorem toNat_ofChar_le {c : Char} (hc : c.isDigit = true) : (ofChar c).toNat ≤ 9 := by
  obtain ⟨hlow, hhigh⟩ := Char.isDigit_iff_toNat.mp hc
  have hnine : '9'.toNat = '0'.toNat + 9 := rfl
  rw [ofChar, Nat.toUInt8, UInt8.toNat_ofNat']
  exact Nat.le_trans (Nat.mod_le _ _) (by omega)

end Digit

namespace Digits

theorem isDigit_of_mem_toChars {a : Digits} (ha : WellFormed a) :
    ∀ c ∈ a.toChars, c.isDigit = true := by
  intro c hc
  obtain ⟨d, hd, rfl⟩ := List.mem_map.mp hc
  exact Digit.isDigit_toChar (UInt8.le_iff_toNat_le.mp (ha d hd))

theorem ofChars_toChars {a : Digits} (ha : WellFormed a) : ofChars a.toChars = a := by
  rw [ofChars, toChars, List.map_map]
  refine (List.map_congr_left fun d hd => ?_).trans (List.map_id a)
  exact Digit.ofChar_toChar (UInt8.le_iff_toNat_le.mp (ha d hd))

/-- Strings that differ in leading zeros only are equal as numbers. -/
theorem compare_of_significant_eq {a b : Digits} (h : a.significant = b.significant) :
    compare a b = .eq := by
  have hself : ∀ c : Digits, compareAligned c c = .eq := by
    intro c
    induction c with
    | nil => rfl
    | cons d c ih => rw [compareAligned, ih, compare_digit, compare_eq_iff_eq.mpr rfl]; rfl
  rw [compare, h, hself, compare_eq_iff_eq.mpr rfl]
  rfl

theorem wellFormed_ofChars {cs : List Char} (h : ∀ c ∈ cs, c.isDigit = true) :
    WellFormed (ofChars cs) := by
  intro d hd
  obtain ⟨c, hc, rfl⟩ := List.mem_map.mp hd
  exact UInt8.le_iff_toNat_le.mpr (Digit.toNat_ofChar_le (h c hc))

end Digits

namespace Decimal

/-- The number as its text shows it: signed only below zero, and with a zero where there is
nothing before the point. -/
def spelledOut (n : Decimal) : Decimal :=
  ⟨n.isBelowZero, if n.integer = [] then [0] else n.integer, n.fraction⟩

@[simp] theorem isZero_spelledOut (n : Decimal) : n.spelledOut.isZero = n.isZero := by
  rw [spelledOut, isZero, isZero]
  split
  · next hempty => rw [hempty]; rfl
  · rfl

@[simp] theorem isBelowZero_spelledOut (n : Decimal) :
    n.spelledOut.isBelowZero = n.isBelowZero := by
  rw [isBelowZero, isZero_spelledOut]
  simp [spelledOut, isBelowZero]

theorem integer_spelledOut_ne_nil (n : Decimal) : n.spelledOut.integer ≠ [] := by
  rw [spelledOut]
  split_ifs with hempty
  · exact List.cons_ne_nil 0 []
  · exact hempty

/-- The characters of a number are those of the number spelled out. -/
theorem magnitudeChars_eq (n : Decimal) :
    n.magnitudeChars = n.spelledOut.integer.toChars ++
      if n.fraction = [] then [] else '.' :: n.fraction.toChars := by
  rw [magnitudeChars, spelledOut]
  by_cases hempty : n.integer = []
  · simp only [hempty, if_true]
    rfl
  · simp only [hempty, if_false]

/-- The text of a number shows what it is supposed to show. -/
@[simp] theorem text_spelledOut (n : Decimal) : n.spelledOut.text = n.text := by
  have hmagnitude : n.spelledOut.magnitudeChars = n.magnitudeChars := by
    rw [magnitudeChars, if_neg n.integer_spelledOut_ne_nil, magnitudeChars_eq]
    rfl
  rw [text, toChars, isBelowZero_spelledOut, hmagnitude, text, toChars]

theorem significant_scaled_spelledOut (n : Decimal) (scale : Nat) :
    (n.spelledOut.scaled scale).significant = (n.scaled scale).significant := by
  rw [scaled, scaled, spelledOut]
  by_cases hempty : n.integer = []
  · simp only [hempty, if_true]
    rfl
  · simp only [hempty, if_false]
    rfl

/-- Spelling a number out does not change it. -/
theorem same_spelledOut (n : Decimal) : n.spelledOut.same n = true := by
  have hdown : n.spelledOut.compareMagnitude n = .eq :=
    Digits.compare_of_significant_eq (significant_scaled_spelledOut n _)
  have hup : n.compareMagnitude n.spelledOut = .eq :=
    Digits.compare_of_significant_eq (significant_scaled_spelledOut n _).symm
  rw [same, compare, isBelowZero_spelledOut]
  cases n.isBelowZero with
  | false => exact beq_iff_eq.mpr hdown
  | true => exact beq_iff_eq.mpr hup

section Parts

variable {cs a b : List Char} {n : Decimal}

/-- The characters are the digits `a`, or these with a point and the digits `b` behind them. -/
inductive HasParts : List Char → List Char → List Char → Prop where
  | whole {a : List Char} (ha : ∀ c ∈ a, c.isDigit = true) : HasParts a a []
  | pointed {a b : List Char} (ha : ∀ c ∈ a, c.isDigit = true) (hb : ∀ c ∈ b, c.isDigit = true) :
    HasParts (a ++ '.' :: b) a b

theorem ne_point_of_isDigit (ha : ∀ c ∈ a, c.isDigit = true) : ∀ c ∈ a, c ≠ '.' := by
  rintro c hc rfl
  exact absurd (ha '.' hc) (by decide)

theorem count_point_eq_zero (ha : ∀ c ∈ a, c.isDigit = true) : a.count '.' = 0 :=
  List.count_eq_zero.mpr fun hpoint => ne_point_of_isDigit ha '.' hpoint rfl

namespace HasParts

theorem isDigit_before (h : HasParts cs a b) : ∀ c ∈ a, c.isDigit = true := by
  cases h with
  | whole ha => exact ha
  | pointed ha hb => exact ha

theorem isDigit_behind (h : HasParts cs a b) : ∀ c ∈ b, c.isDigit = true := by
  cases h with
  | whole ha => exact nofun
  | pointed ha hb => exact hb

/-- Both parts are read digit by digit. -/
theorem ofChars?_eq (h : HasParts cs a b) :
    ofChars? cs = some ⟨false, Digits.ofChars a, Digits.ofChars b⟩ := by
  cases h with
  | whole ha =>
    simp [ofChars?, List.takeWhile_eq_self_iff.mpr ha, List.dropWhile_eq_nil_iff.mpr ha,
      Digits.ofChars]
  | pointed ha hb =>
    have hpoint : ('.' : Char).isDigit = false := by decide
    have hall : b.all Char.isDigit = true := List.all_eq_true.mpr hb
    simp [ofChars?, List.takeWhile_append_of_pos ha, List.dropWhile_append_of_pos ha, hpoint, hall]

end HasParts

theorem exists_hasParts_of_ofChars? (h : ofChars? cs = some n) : ∃ a b, HasParts cs a b := by
  have hinteger : ∀ c ∈ cs.takeWhile Char.isDigit, c.isDigit = true := fun c hc =>
    List.mem_takeWhile_imp hc
  have hsplit : cs.takeWhile Char.isDigit ++ cs.dropWhile Char.isDigit = cs :=
    List.takeWhile_append_dropWhile
  rw [ofChars?] at h
  split at h
  · next hrest =>
    rw [hrest, List.append_nil] at hsplit
    exact ⟨cs, [], .whole (hsplit ▸ hinteger)⟩
  · next c rest hrest =>
    split at h
    · next hpoint =>
      obtain ⟨rfl, hfraction⟩ := hpoint
      rw [hrest] at hsplit
      rw [← hsplit]
      exact ⟨_, rest, .pointed hinteger (List.all_eq_true.mp hfraction)⟩
    · cases h

end Parts

/-- Digits, and after a point more digits, are read as they stand. -/
theorem ofChars?_toChars {integer fraction : Digits} (hi : integer.WellFormed)
    (hf : fraction.WellFormed) :
    ofChars? (integer.toChars ++ if fraction = [] then [] else '.' :: fraction.toChars) =
      some ⟨false, integer, fraction⟩ := by
  have hinteger := Digits.isDigit_of_mem_toChars hi
  have hfraction := Digits.isDigit_of_mem_toChars hf
  split_ifs with hempty
  · rw [List.append_nil, (HasParts.whole hinteger).ofChars?_eq, Digits.ofChars_toChars hi, hempty]
    rfl
  · rw [(HasParts.pointed hinteger hfraction).ofChars?_eq, Digits.ofChars_toChars hi,
      Digits.ofChars_toChars hf]

theorem WellFormed.spelledOut {n : Decimal} (hn : n.WellFormed) : n.spelledOut.WellFormed := by
  refine ⟨?_, hn.2⟩
  rw [Decimal.spelledOut]
  split_ifs
  · exact Digits.wellFormed_cons.mpr ⟨by decide, Digits.wellFormed_nil⟩
  · exact hn.1

theorem toChars_of_not_isBelowZero {n : Decimal} (hsign : n.isBelowZero = false) :
    n.toChars = n.spelledOut.integer.toChars ++
      if n.spelledOut.fraction = [] then [] else '.' :: n.spelledOut.fraction.toChars := by
  rw [toChars, hsign, magnitudeChars_eq]
  rfl

/-- Of a printed number that is not below zero, reading returns what the text shows. -/
theorem ofText?_text {n : Decimal} (hn : n.WellFormed) (hsign : n.isBelowZero = false) :
    ofText? n.text = some n.spelledOut := by
  have hshown : n.spelledOut.WellFormed := hn.spelledOut
  rw [ofText?, text, String.toList_ofList, toChars_of_not_isBelowZero hsign,
    ofChars?_toChars hshown.1 hshown.2]
  simp [spelledOut, hsign]

/-- Whatever is read is made of digits and has no sign. -/
theorem wellFormed_of_ofText? {s : String} {n : Decimal} (h : ofText? s = some n) :
    n.WellFormed ∧ n.isBelowZero = false := by
  obtain ⟨a, b, hparts⟩ := exists_hasParts_of_ofChars? h
  obtain rfl := Option.some.inj (h.symm.trans hparts.ofChars?_eq)
  exact ⟨⟨Digits.wellFormed_ofChars hparts.isDigit_before,
    Digits.wellFormed_ofChars hparts.isDigit_behind⟩, rfl⟩

end Decimal

end Keystroke
