import Keystroke.Proofs.Digits.Value

/-!
# Products of digit strings

The columns of a product are added up in 32-bit words before any carry. A column gets at most one
product of digits from each row, and at most one from each place of the other factor, so the
shorter factor bounds how much it holds. Up to `factorLimit` places no column overflows, neither
while it is filled nor when the carry from the column before arrives. A word that overflows only
loses value, so that with factors of any length the columns hold no more than the product, and
carrying leaves a digit in each of them.
-/

namespace Keystroke

namespace Digits

/-- The number of places up to which no column can overflow. With `n` places a column holds at
most `81 * n` and a carry is at most `9 * n`. -/
def factorLimit : Nat := (UInt32.size - 1) / 90

/-- The number that columns stand for, from the last one on. -/
def columnsValue : List UInt32 → Nat
  | [] => 0
  | c :: cs => c.toNat + 10 * columnsValue cs

/-- Of `rows` rows with `width` places each, the columns from the `k`-th on hold no more digit
products than there are rows, places and columns before them. -/
def ColumnsWithin (rows width k : Nat) : List UInt32 → Prop
  | [] => True
  | c :: cs => c.toNat ≤ 81 * min rows (min k width) ∧ ColumnsWithin rows width (k + 1) cs

theorem ColumnsWithin.next {rows width k : Nat} {cs : List UInt32}
    (h : ColumnsWithin rows width k cs) : ColumnsWithin (rows + 1) width (k + 1) cs := by
  induction cs generalizing k with
  | nil => trivial
  | cons c cs ih => exact ⟨by have := h.1; omega, ih h.2⟩

theorem ColumnsWithin.le {rows width k : Nat} {cs : List UInt32}
    (h : ColumnsWithin rows width k cs) : ∀ c ∈ cs, c.toNat ≤ 81 * min rows width := by
  induction cs generalizing k with
  | nil => simp
  | cons c cs ih =>
    rw [List.forall_mem_cons]
    exact ⟨by have := h.1; omega, ih h.2⟩

theorem columnsWithin_zeros (rows width k : Nat) (b : Digits) :
    ColumnsWithin rows width k (b.map fun _ => 0) := by
  induction b generalizing k with
  | nil => trivial
  | cons y b ih => exact ⟨Nat.zero_le _, ih (k + 1)⟩

theorem columnsValue_zeros (b : Digits) : columnsValue (b.map fun _ => 0) = 0 := by
  induction b with
  | nil => rfl
  | cons y b ih =>
    rw [List.map_cons, columnsValue, ih]
    rfl

/-- Adding a row is exact. The row starts at column `k` and ends with the last place. -/
theorem addRow_spec {rows width k : Nat} {row cs : List UInt32}
    (hrow : ∀ p ∈ row, p.toNat ≤ 81) (hplaces : row.length = width - k)
    (hlength : row.length ≤ cs.length) (hcs : ColumnsWithin rows width k cs)
    (hfits : 81 * min (rows + 1) width < UInt32.size) :
    ColumnsWithin (rows + 1) width (k + 1) (addRow row cs) ∧
      columnsValue (addRow row cs) = columnsValue row + columnsValue cs := by
  induction row generalizing cs k with
  | nil =>
    rw [addRow, columnsValue, Nat.zero_add]
    exact ⟨hcs.next, rfl⟩
  | cons p row ih =>
    cases cs with
    | nil => simp at hlength
    | cons c cs =>
      obtain ⟨hp, hrow⟩ := List.forall_mem_cons.mp hrow
      obtain ⟨hc, hcs⟩ := hcs
      rw [List.length_cons] at hplaces
      have hsum : (p + c).toNat = p.toNat + c.toNat := by
        rw [UInt32.toNat_add]
        exact Nat.mod_eq_of_lt (by simp only [UInt32.size] at hfits; omega)
      obtain ⟨hwithin, hvalue⟩ := ih hrow (by omega) (by simpa using hlength) hcs
      rw [addRow]
      refine ⟨⟨by omega, hwithin⟩, ?_⟩
      rw [columnsValue, columnsValue, columnsValue, hvalue, hsum]
      ring

theorem toNat_digit_product {x y : Digit} (hx : x.toNat ≤ 9) (hy : y.toNat ≤ 9) :
    (x.toUInt32 * y.toUInt32).toNat = x.toNat * y.toNat := by
  have hproduct : x.toNat * y.toNat ≤ 9 * 9 := Nat.mul_le_mul hx hy
  rw [UInt32.toNat_mul, UInt8.toNat_toUInt32, UInt8.toNat_toUInt32]
  exact Nat.mod_eq_of_lt (by omega)

theorem digit_row_spec {x : Digit} {b : Digits} (hx : x.toNat ≤ 9) (hb : WellFormed b) :
    (∀ p ∈ b.map fun y => x.toUInt32 * y.toUInt32, p.toNat ≤ 81) ∧
      columnsValue (b.map fun y => x.toUInt32 * y.toUInt32) = x.toNat * valueReversed b := by
  induction b with
  | nil => simp [columnsValue, valueReversed]
  | cons y b ih =>
    obtain ⟨hy, hb⟩ := wellFormed_cons.mp hb
    obtain ⟨hsmall, hvalue⟩ := ih hb
    have hproduct : x.toNat * y.toNat ≤ 9 * 9 := Nat.mul_le_mul hx hy
    rw [List.map_cons, List.forall_mem_cons, columnsValue, hvalue, toNat_digit_product hx hy,
      valueReversed]
    exact ⟨⟨hproduct, hsmall⟩, by ring⟩

/-- The columns of a product have its value. -/
theorem columns_spec {a b : Digits} (ha : WellFormed a) (hb : WellFormed b)
    (hfits : 81 * min a.length b.length < UInt32.size) :
    ColumnsWithin a.length b.length 1 (columns a b) ∧
      columnsValue (columns a b) = valueReversed a * valueReversed b := by
  induction a with
  | nil =>
    rw [columns, valueReversed, Nat.zero_mul]
    exact ⟨columnsWithin_zeros _ _ _ b, columnsValue_zeros b⟩
  | cons x a ih =>
    obtain ⟨hx, ha⟩ := wellFormed_cons.mp ha
    rw [List.length_cons] at hfits
    obtain ⟨hwithin, hvalue⟩ := ih ha (by omega)
    obtain ⟨hsmall, hrow⟩ := digit_row_spec hx hb
    have hshifted : ColumnsWithin a.length b.length 0 (0 :: columns a b) :=
      ⟨Nat.zero_le _, hwithin⟩
    obtain ⟨hnext, hsum⟩ := addRow_spec hsmall (by simp) (by simp; omega) hshifted hfits
    rw [columns]
    refine ⟨hnext, ?_⟩
    rw [hsum, hrow, columnsValue, hvalue, valueReversed, UInt32.toNat_zero]
    ring

section Overflow

theorem toNat_add_le (c d : UInt32) : (c + d).toNat ≤ c.toNat + d.toNat := by
  rw [UInt32.toNat_add]
  exact Nat.mod_le _ _

theorem columnsValue_addRow_le (row cs : List UInt32) :
    columnsValue (addRow row cs) ≤ columnsValue row + columnsValue cs := by
  fun_induction addRow row cs with
  | case1 cs => exact Nat.le_add_left _ _
  | case2 row => exact Nat.le_add_right _ _
  | case3 p row c cs ih =>
    have hsum := toNat_add_le p c
    simp only [columnsValue]
    omega

/-- The columns of a product hold no more than its value, however long the factors are. -/
theorem columnsValue_columns_le {a b : Digits} (ha : WellFormed a) (hb : WellFormed b) :
    columnsValue (columns a b) ≤ valueReversed a * valueReversed b := by
  induction a with
  | nil =>
    rw [columns, columnsValue_zeros]
    exact Nat.zero_le _
  | cons x a ih =>
    obtain ⟨hx, ha⟩ := wellFormed_cons.mp ha
    obtain ⟨-, hrow⟩ := digit_row_spec hx hb
    rw [columns]
    calc columnsValue (addRow (b.map fun y => x.toUInt32 * y.toUInt32) (0 :: columns a b))
        ≤ x.toNat * valueReversed b + columnsValue (0 :: columns a b) :=
          hrow ▸ columnsValue_addRow_le _ _
      _ = x.toNat * valueReversed b + 10 * columnsValue (columns a b) := by
          rw [columnsValue, UInt32.toNat_zero, Nat.zero_add]
      _ ≤ x.toNat * valueReversed b + 10 * (valueReversed a * valueReversed b) := by
          gcongr
          exact ih ha
      _ = valueReversed (x :: a) * valueReversed b := by
          rw [valueReversed]
          ring

/-- Carrying leaves a digit in each column. In the leading one nothing needs to be carried out,
because the value has no more places than there are columns. -/
theorem wellFormed_carryColumns (carry : UInt32) {cs : List UInt32}
    (htotal : carry.toNat + columnsValue cs < 10 ^ cs.length) :
    WellFormed (carryColumns carry cs) := by
  fun_induction carryColumns carry cs with
  | case1 carry => exact wellFormed_nil
  | case2 carry c =>
    simp only [columnsValue, List.length_singleton, pow_one] at htotal
    have hsum := toNat_add_le c carry
    rw [wellFormed_cons, UInt32.toNat_toUInt8]
    exact ⟨by omega, wellFormed_nil⟩
  | case3 carry c rest hrest ih =>
    have hsum := toNat_add_le c carry
    have hdigit : ((c + carry) % 10).toUInt8.toNat ≤ 9 := by
      rw [UInt32.toNat_toUInt8, UInt32.toNat_mod]
      change (c + carry).toNat % 10 % 256 ≤ 9
      omega
    have hnext : ((c + carry) / 10).toNat = (c + carry).toNat / 10 := UInt32.toNat_div _ _
    rw [columnsValue, List.length_cons, pow_succ] at htotal
    rw [wellFormed_cons]
    exact ⟨hdigit, ih (by omega)⟩

end Overflow

/-- Carrying keeps the value. Nothing is lost in the leading column, because the value has no more
places than there are columns. -/
theorem valueReversed_carryColumns {n : Nat} (carry : UInt32) {cs : List UInt32}
    (hcs : ∀ c ∈ cs, c.toNat ≤ 81 * n) (hcarry : carry.toNat ≤ 9 * n)
    (hfits : 90 * n < UInt32.size)
    (htotal : carry.toNat + columnsValue cs < 10 ^ cs.length) :
    valueReversed (carryColumns carry cs) = carry.toNat + columnsValue cs := by
  fun_induction carryColumns carry cs with
  | case1 carry =>
    simp only [columnsValue, List.length_nil, pow_zero] at htotal
    simp only [valueReversed, columnsValue]
    omega
  | case2 carry c =>
    simp only [columnsValue, List.length_singleton, pow_one] at htotal
    have hplace : (c + carry).toUInt8.toNat = carry.toNat + c.toNat := by
      rw [UInt32.toNat_toUInt8, UInt32.toNat_add]
      omega
    rw [valueReversed, hplace]
    simp only [valueReversed, columnsValue]
    omega
  | case3 carry c rest hrest ih =>
    obtain ⟨hc, hcs⟩ := List.forall_mem_cons.mp hcs
    have hsum : (c + carry).toNat = c.toNat + carry.toNat := by
      rw [UInt32.toNat_add]
      exact Nat.mod_eq_of_lt (by simp only [UInt32.size] at hfits; omega)
    have hdigit : ((c + carry) % 10).toUInt8.toNat = (c.toNat + carry.toNat) % 10 := by
      rw [UInt32.toNat_toUInt8, UInt32.toNat_mod, hsum]
      change (c.toNat + carry.toNat) % 10 % 256 = _
      omega
    have hnext : ((c + carry) / 10).toNat = (c.toNat + carry.toNat) / 10 := by
      rw [UInt32.toNat_div, hsum]
      rfl
    rw [columnsValue, List.length_cons, pow_succ] at htotal
    rw [valueReversed, columnsValue, hdigit, ih hcs (by omega) (by omega), hnext]
    omega

section Product

variable {a b : Digits}

theorem value_mul_value_lt (ha : WellFormed a) (hb : WellFormed b) :
    value a * value b < 10 ^ (a.length + b.length) := by
  rw [pow_add]
  exact Nat.mul_lt_mul'' (value_lt ha) (value_lt hb)

/-- Every place of a product holds a digit, also where factors are so long that columns overflow. -/
theorem WellFormed.mul (ha : WellFormed a) (hb : WellFormed b) : WellFormed (a.mul b) := by
  have hle := columnsValue_columns_le (wellFormed_reverse.mpr ha) (wellFormed_reverse.mpr hb)
  rw [valueReversed_reverse, valueReversed_reverse] at hle
  rw [Digits.mul, wellFormed_reverse]
  apply wellFormed_carryColumns
  simpa using hle.trans_lt (value_mul_value_lt ha hb)

theorem value_mul (ha : WellFormed a) (hb : WellFormed b)
    (hfits : min a.length b.length ≤ factorLimit) : value (a.mul b) = value a * value b := by
  have hsize : 90 * min a.length b.length < UInt32.size := by
    simp only [factorLimit, UInt32.size] at hfits ⊢
    omega
  obtain ⟨hwithin, hvalue⟩ := columns_spec (wellFormed_reverse.mpr ha)
    (wellFormed_reverse.mpr hb) (by simp only [List.length_reverse]; omega)
  simp only [valueReversed_reverse, List.length_reverse] at hwithin hvalue
  have hcarried := valueReversed_carryColumns 0 hwithin.le (by simp) hsize
    (by simpa [hvalue] using value_mul_value_lt ha hb)
  rw [mul, value_reverse, hcarried, hvalue]
  simp

end Product

end Digits

end Keystroke
