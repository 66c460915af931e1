import Keystroke.Proofs.Digits.Product
import Mathlib.Algebra.Order.BigOperators.Group.List
import Mathlib.Data.Nat.Digits.Defs

/-!
# Columns of a product, moment by moment

Multiplication on paper, with columns that hold any natural number. The products of digits are
added one at a time, row by row and in each row from the last place on. Then each column keeps one
digit and the rest is carried into the next column, from the last column to the leading one. All
columns are listed from the last one on.

If one factor has at most `factorLimit` places, no column ever exceeds a 32-bit word: not after any
number of products, and not after any number of carries. So `columns`, which adds words and takes
the rows in another order, comes to the same sums, and `mul` to the same digits.
-/

namespace Keystroke

namespace Digits

/-- A product of two digits, with the number of the column that it belongs to. The last column has
number zero. -/
structure DigitProduct where
  column : Nat
  amount : Nat

def DigitProduct.shift (p : DigitProduct) : DigitProduct := { p with column := p.column + 1 }

/-- The products of the digit `x` in the last place with the digits of a string that is written
from the last place on. -/
def rowProducts (x : Digit) : Digits → List DigitProduct
  | [] => []
  | y :: b => ⟨0, x.toNat * y.toNat⟩ :: (rowProducts x b).map .shift

/-- The digit products of two strings that are written from the last place on, in the order in
which they are added. -/
def products : Digits → Digits → List DigitProduct
  | [], _ => []
  | x :: a, b => rowProducts x b ++ (products a b).map .shift

def addProduct (cells : List Nat) (p : DigitProduct) : List Nat :=
  cells.modify p.column (· + p.amount)

/-- The columns of the product of two numbers after the first `n` digit products. -/
def filled (a b : Digits) (n : Nat) : List Nat :=
  ((products a.reverse b.reverse).take n).foldl addProduct
    (List.replicate (a.length + b.length) 0)

/-- Leave one digit in column `k` and carry the rest into the next column. -/
def carryFrom (cells : List Nat) (k : Nat) : List Nat :=
  (cells.modify k (· % 10)).modify (k + 1) (· + cells.getD k 0 / 10)

/-- The columns of the product of two numbers when all digit products are added and `k` columns
have been carried from. -/
def carried (a b : Digits) : (k : Nat) → List Nat
  | 0 => filled a b (a.length * b.length)
  | k + 1 => carryFrom (carried a b k) k

section Length

theorem length_rowProducts (x : Digit) (b : Digits) : (rowProducts x b).length = b.length := by
  induction b with
  | nil => rfl
  | cons y b ih => simp [rowProducts, ih]

theorem length_products (a b : Digits) : (products a b).length = a.length * b.length := by
  induction a with
  | nil => simp [products]
  | cons x a ih =>
    rw [products, List.length_append, List.length_map, length_rowProducts, ih, List.length_cons]
    ring

theorem length_foldl_addProduct (ps : List DigitProduct) (cells : List Nat) :
    (ps.foldl addProduct cells).length = cells.length := by
  induction ps generalizing cells with
  | nil => rfl
  | cons p ps ih => rw [List.foldl_cons, ih, addProduct, List.length_modify]

@[simp] theorem length_carryFrom (cells : List Nat) (k : Nat) :
    (carryFrom cells k).length = cells.length := by
  simp [carryFrom]

theorem length_carried (a b : Digits) (k : Nat) :
    (carried a b k).length = a.length + b.length := by
  induction k with
  | zero => simp [carried, filled, length_foldl_addProduct]
  | succ k ih => simp [carried, ih]

end Length

section Filling

def inColumn (k : Nat) (ps : List DigitProduct) : List Nat :=
  ps.filterMap fun p => if p.column = k then some p.amount else none

@[simp] theorem inColumn_nil (k : Nat) : inColumn k [] = [] := rfl

theorem inColumn_cons (k : Nat) (p : DigitProduct) (ps : List DigitProduct) :
    inColumn k (p :: ps) = if p.column = k then p.amount :: inColumn k ps else inColumn k ps := by
  rw [inColumn, List.filterMap_cons]
  split_ifs <;> rfl

@[simp] theorem inColumn_append (k : Nat) (ps qs : List DigitProduct) :
    inColumn k (ps ++ qs) = inColumn k ps ++ inColumn k qs :=
  List.filterMap_append

@[simp] theorem inColumn_zero_shift (ps : List DigitProduct) :
    inColumn 0 (ps.map .shift) = [] := by
  simp [inColumn, DigitProduct.shift]

@[simp] theorem inColumn_succ_shift (k : Nat) (ps : List DigitProduct) :
    inColumn (k + 1) (ps.map .shift) = inColumn k ps := by
  simp [inColumn, DigitProduct.shift, List.filterMap_map]

/-- A row has at most one product in each column. -/
theorem inColumn_rowProducts (k : Nat) (x : Digit) (b : Digits) :
    inColumn k (rowProducts x b) = (b[k]?.map fun y => x.toNat * y.toNat).toList := by
  induction b generalizing k with
  | nil => rfl
  | cons y b ih =>
    rw [rowProducts, inColumn_cons]
    cases k with
    | zero => simp
    | succ k => simp [ih]

/-- A column gets no more products than there are rows, columns up to it and places in a row. -/
theorem length_inColumn_products (k : Nat) (a b : Digits) :
    (inColumn k (products a b)).length ≤ min a.length (min (k + 1) b.length) := by
  induction a generalizing k with
  | nil => simp [products]
  | cons x a ih =>
    have hrow : (inColumn k (rowProducts x b)).length = if k < b.length then 1 else 0 := by
      rw [inColumn_rowProducts]
      split_ifs with hk <;> simp [hk]
    rw [products, inColumn_append, List.length_append, hrow, List.length_cons]
    cases k with
    | zero =>
      rw [inColumn_zero_shift, List.length_nil]
      split_ifs <;> omega
    | succ k =>
      -- A row that reaches column `k + 1` has more than `k + 1` places, so the count of the other
      -- rows is bounded by the columns and not by the places.
      have hrest := ih k
      rw [inColumn_succ_shift]
      split_ifs <;> omega

theorem le_of_mem_inColumn {k : Nat} {a b : Digits} (ha : WellFormed a) (hb : WellFormed b) :
    ∀ m ∈ inColumn k (products a b), m ≤ 81 := by
  induction a generalizing k with
  | nil => simp [products]
  | cons x a ih =>
    obtain ⟨hx, ha⟩ := wellFormed_cons.mp ha
    rw [products, inColumn_append, List.forall_mem_append, inColumn_rowProducts]
    constructor
    · intro m hm
      obtain ⟨y, hy, rfl⟩ := Option.map_eq_some_iff.mp (Option.mem_toList.mp hm)
      have hy : y.toNat ≤ 9 := UInt8.le_iff_toNat_le.mp (hb y (List.mem_of_getElem? hy))
      exact Nat.mul_le_mul hx hy
    · cases k with
      | zero => simp
      | succ k =>
        rw [inColumn_succ_shift]
        exact ih ha

/-- What a column gets altogether. -/
theorem sum_inColumn_le (k : Nat) {a b : Digits} (ha : WellFormed a) (hb : WellFormed b) :
    (inColumn k (products a b)).sum ≤ 81 * min a.length b.length := by
  calc (inColumn k (products a b)).sum
      ≤ (inColumn k (products a b)).length • 81 :=
        List.sum_le_card_nsmul _ _ (le_of_mem_inColumn ha hb)
    _ ≤ 81 * min a.length b.length := by
        have := length_inColumn_products k a b
        rw [nsmul_eq_mul, Nat.cast_id]
        omega

/-- Each column gets what belongs to it, in whatever order. -/
theorem getElem?_foldl_addProduct (ps : List DigitProduct) (cells : List Nat) (k : Nat) :
    (ps.foldl addProduct cells)[k]? = cells[k]?.map (· + (inColumn k ps).sum) := by
  induction ps generalizing cells with
  | nil => simp
  | cons p ps ih =>
    rw [List.foldl_cons, ih, addProduct, List.getElem?_modify, inColumn_cons]
    cases cells[k]? with
    | none => rfl
    | some c => split_ifs <;> simp [Nat.add_assoc]

/-- At every moment a column holds the sum of the products that have been added to it. -/
theorem getElem?_filled (a b : Digits) (n k : Nat) :
    (filled a b n)[k]? = if k < a.length + b.length then
      some (inColumn k ((products a.reverse b.reverse).take n)).sum else none := by
  rw [filled, getElem?_foldl_addProduct, List.getElem?_replicate]
  split_ifs <;> simp

/-- Columns only grow while they are filled, and in the end none of them is too large. -/
theorem filled_le {a b : Digits} (ha : WellFormed a) (hb : WellFormed b) (n : Nat) :
    ∀ c ∈ filled a b n, c ≤ 81 * min a.length b.length := by
  intro c hc
  obtain ⟨k, hk⟩ := List.mem_iff_getElem?.mp hc
  rw [getElem?_filled, Option.ite_none_right_eq_some, Option.some.injEq] at hk
  obtain ⟨-, rfl⟩ := hk
  have htotal := sum_inColumn_le k (wellFormed_reverse.mpr ha) (wellFormed_reverse.mpr hb)
  rw [List.length_reverse, List.length_reverse] at htotal
  calc (inColumn k ((products a.reverse b.reverse).take n)).sum
      ≤ (inColumn k (products a.reverse b.reverse)).sum :=
        ((List.take_sublist _ _).filterMap _).sum_le_sum fun _ _ => Nat.zero_le _
    _ ≤ 81 * min a.length b.length := htotal

end Filling

section Words

theorem getD_addRow (row cs : List UInt32) (k : Nat) :
    (addRow row cs).getD k 0 = row.getD k 0 + cs.getD k 0 := by
  induction row generalizing cs k with
  | nil => simp [addRow]
  | cons p row ih =>
    cases cs with
    | nil => simp [addRow]
    | cons c cs =>
      cases k with
      | zero => rfl
      | succ k => simpa [addRow] using ih cs k

theorem toNat_getD_row (x : Digit) (b : Digits) (k : Nat) :
    ((b.map fun y => x.toUInt32 * y.toUInt32).getD k 0).toNat =
      (inColumn k (rowProducts x b)).sum % 2 ^ 32 := by
  rw [inColumn_rowProducts, List.getD_eq_getElem?_getD, List.getElem?_map]
  cases b[k]? with
  | none => rfl
  | some y => simp [UInt32.toNat_mul]

/-- The columns in words hold the same sums, up to what overflows. -/
theorem toNat_getD_columns (a b : Digits) (k : Nat) :
    ((columns a b).getD k 0).toNat = (inColumn k (products a b)).sum % 2 ^ 32 := by
  induction a generalizing k with
  | nil =>
    rw [columns, List.getD_eq_getElem?_getD, List.getElem?_map]
    cases b[k]? <;> rfl
  | cons x a ih =>
    rw [columns, getD_addRow, products, inColumn_append, List.sum_append, UInt32.toNat_add,
      toNat_getD_row, Nat.mod_add_mod]
    cases k with
    | zero => simp
    | succ k => rw [List.getD_cons_succ, ih, inColumn_succ_shift, Nat.add_mod_mod]

/-- If no column is too large for a word, nothing overflows. -/
theorem map_toNat_columns {a b : Digits} (ha : WellFormed a) (hb : WellFormed b)
    (hfits : 81 * min a.length b.length < UInt32.size) :
    (columns a.reverse b.reverse).map UInt32.toNat = carried a b 0 := by
  apply List.ext_getElem?
  intro k
  have hwords := toNat_getD_columns a.reverse b.reverse k
  have hsum := sum_inColumn_le k (wellFormed_reverse.mpr ha) (wellFormed_reverse.mpr hb)
  rw [List.length_reverse, List.length_reverse] at hsum
  have hlt : (inColumn k (products a.reverse b.reverse)).sum < 2 ^ 32 := hsum.trans_lt hfits
  rw [Nat.mod_eq_of_lt hlt] at hwords
  rw [carried, getElem?_filled, List.take_of_length_le (by simp [length_products]),
    List.getElem?_map, ← hwords]
  split_ifs with hk <;> simp [hk]

end Words

section Carrying

theorem carryFrom_cons_succ (c : Nat) (cells : List Nat) (k : Nat) :
    carryFrom (c :: cells) (k + 1) = c :: carryFrom cells k := by
  simp [carryFrom]

theorem getElem?_carryFrom (cells : List Nat) (k j : Nat) :
    (carryFrom cells k)[j]? = cells[j]?.map fun c =>
      if j = k then c % 10 else if j = k + 1 then c + cells.getD k 0 / 10 else c := by
  rw [carryFrom, List.getElem?_modify, List.getElem?_modify]
  cases cells[j]? with
  | none => rfl
  | some c =>
    simp only [Option.map_eq_map, Option.map_some]
    grind

/-- Carrying keeps the number that the columns stand for. -/
theorem ofDigits_carryFrom {cells : List Nat} {k : Nat} (hk : k + 1 < cells.length) :
    Nat.ofDigits 10 (carryFrom cells k) = Nat.ofDigits 10 cells := by
  induction k generalizing cells with
  | zero =>
    match cells, hk with
    | c :: d :: rest, _ =>
      have hcarry : carryFrom (c :: d :: rest) 0 = c % 10 :: (d + c / 10) :: rest := by
        simp [carryFrom]
      simp only [hcarry, Nat.ofDigits_cons]
      omega
  | succ k ih =>
    match cells, hk with
    | c :: cells, hk =>
      rw [carryFrom_cons_succ, Nat.ofDigits_cons, Nat.ofDigits_cons, ih (by simpa using hk)]

/-- Carrying has come to column `k`, where no column was filled with more than `n` digit products.
The columns before it hold digits, it has got a carry itself, and the others are as they were. -/
def CarriedTo (n k : Nat) (cells : List Nat) : Prop :=
  ∀ j c, cells[j]? = some c → c ≤ if j < k then 9 else if j = k then 90 * n else 81 * n

theorem CarriedTo.carryFrom {n k : Nat} {cells : List Nat} (h : CarriedTo n k cells) :
    CarriedTo n (k + 1) (carryFrom cells k) := by
  intro j c hc
  rw [getElem?_carryFrom, Option.map_eq_some_iff] at hc
  obtain ⟨d, hd, rfl⟩ := hc
  have hold := h j d hd
  -- A tenth of what column `k` holds is carried, which makes up for the difference of the bounds.
  have hcarry : cells.getD k 0 ≤ 90 * n := by
    rw [List.getD_eq_getElem?_getD]
    cases hk : cells[k]? with
    | none => exact Nat.zero_le _
    | some e => simpa using h k e hk
  split_ifs at hold ⊢ <;> omega

theorem carriedTo_carried {a b : Digits} (ha : WellFormed a) (hb : WellFormed b) (k : Nat) :
    CarriedTo (min a.length b.length) k (carried a b k) := by
  induction k with
  | zero =>
    intro j c hc
    have hle := filled_le ha hb _ c (List.mem_of_getElem? hc)
    split_ifs <;> omega
  | succ k ih => exact ih.carryFrom

end Carrying

section Result

variable {a b : Digits}

theorem columnsValue_eq_ofDigits (cs : List UInt32) :
    columnsValue cs = Nat.ofDigits 10 (cs.map UInt32.toNat) := by
  induction cs with
  | nil => rfl
  | cons c cs ih => rw [columnsValue, ih, List.map_cons, Nat.ofDigits_cons]

theorem le_ofDigits_of_getElem? {cells : List Nat} {j c : Nat} (h : cells[j]? = some c) :
    c * 10 ^ j ≤ Nat.ofDigits 10 cells := by
  induction cells generalizing j with
  | nil => simp at h
  | cons d cells ih =>
    rw [Nat.ofDigits_cons]
    cases j with
    | zero =>
      rw [List.getElem?_cons_zero, Option.some.injEq] at h
      simp [h]
    | succ j =>
      have hrest : c * 10 ^ j ≤ Nat.ofDigits 10 cells := ih (by simpa using h)
      calc c * 10 ^ (j + 1) = 10 * (c * 10 ^ j) := by ring
        _ ≤ d + 10 * Nat.ofDigits 10 cells := by omega

/-- The columns stand for the product, however far the carrying has come. -/
theorem ofDigits_carried (ha : WellFormed a) (hb : WellFormed b)
    (hfits : 81 * min a.length b.length < UInt32.size) {k : Nat}
    (hk : k ≤ a.length + b.length - 1) :
    Nat.ofDigits 10 (carried a b k) = value a * value b := by
  induction k with
  | zero =>
    obtain ⟨-, hvalue⟩ := columns_spec (wellFormed_reverse.mpr ha) (wellFormed_reverse.mpr hb)
      (by simpa only [List.length_reverse] using hfits)
    rw [← map_toNat_columns ha hb hfits, ← columnsValue_eq_ofDigits, hvalue,
      valueReversed_reverse, valueReversed_reverse]
  | succ k ih =>
    rw [carried, ofDigits_carryFrom (by rw [length_carried]; omega), ih (by omega)]

/-- When all carrying is done, every column holds a digit. Nothing is carried out of the leading
column, and no more than a digit has come into it, because the product has no further places. -/
theorem carried_last_le (ha : WellFormed a) (hb : WellFormed b)
    (hfits : 81 * min a.length b.length < UInt32.size) :
    ∀ c ∈ carried a b (a.length + b.length - 1), c ≤ 9 := by
  intro c hc
  obtain ⟨j, hj⟩ := List.mem_iff_getElem?.mp hc
  obtain ⟨hlength, -⟩ := List.getElem?_eq_some_iff.mp hj
  rw [length_carried] at hlength
  have hbound := carriedTo_carried ha hb _ j c hj
  split_ifs at hbound with hlow hlead
  · exact hbound
  · have hweight := le_ofDigits_of_getElem? hj
    rw [ofDigits_carried ha hb hfits le_rfl] at hweight
    have htotal : value a * value b < 10 ^ (j + 1) := by
      have hplaces : j + 1 = a.length + b.length := by omega
      rw [hplaces, pow_add]
      exact Nat.mul_lt_mul'' (value_lt ha) (value_lt hb)
    rw [pow_succ'] at htotal
    exact Nat.lt_succ_iff.mp (Nat.lt_of_mul_lt_mul_right (hweight.trans_lt htotal))
  · omega

/-- Columns that hold digits are the places of a number. -/
theorem places_spec {cells : List Nat} (h : ∀ c ∈ cells, c ≤ 9) :
    WellFormed (cells.map Nat.toUInt8) ∧
      valueReversed (cells.map Nat.toUInt8) = Nat.ofDigits 10 cells := by
  induction cells with
  | nil => exact ⟨wellFormed_nil, rfl⟩
  | cons c cells ih =>
    obtain ⟨hc, hcells⟩ := List.forall_mem_cons.mp h
    obtain ⟨hwf, hvalue⟩ := ih hcells
    have hdigit : c.toUInt8.toNat = c := by
      rw [Nat.toUInt8, UInt8.toNat_ofNat']
      omega
    rw [List.map_cons, wellFormed_cons, valueReversed, Nat.ofDigits_cons, hvalue, hdigit]
    exact ⟨⟨hc, hwf⟩, rfl⟩

/-- The product of two numbers is computed in 32-bit words without loss. -/
structure MultipliesInWords (a b : Digits) : Prop where
  /-- No column overflows while digit products are added. -/
  filling : ∀ n, ∀ c ∈ filled a b n, c < UInt32.size
  /-- No column overflows while there is carrying, out of all columns but the leading one. -/
  carrying : ∀ k < a.length + b.length, ∀ c ∈ carried a b k, c < UInt32.size
  /-- The words hold what the columns hold. -/
  words : (columns a.reverse b.reverse).map UInt32.toNat = carried a b 0
  /-- In the end there is a digit in each column, also in the leading one. -/
  digits : ∀ c ∈ carried a b (a.length + b.length - 1), c ≤ 9
  /-- These are the digits of the result. -/
  result : a.mul b = ((carried a b (a.length + b.length - 1)).map Nat.toUInt8).reverse

theorem multipliesInWords (ha : WellFormed a) (hb : WellFormed b)
    (hfits : min a.length b.length ≤ factorLimit) : MultipliesInWords a b := by
  have hsize : 90 * min a.length b.length < UInt32.size := by
    simp only [factorLimit, UInt32.size] at hfits ⊢
    omega
  have hfilled : 81 * min a.length b.length < UInt32.size := by omega
  have hdigits := carried_last_le ha hb hfilled
  refine ⟨?_, ?_, map_toNat_columns ha hb hfilled, hdigits, ?_⟩
  · intro n c hc
    exact (filled_le ha hb n c hc).trans_lt hfilled
  · intro k _ c hc
    obtain ⟨j, hj⟩ := List.mem_iff_getElem?.mp hc
    have hle := carriedTo_carried ha hb k j c hj
    have hnine : 9 < UInt32.size := by decide
    split_ifs at hle <;> omega
  · -- Both strings have a place for each column and stand for the product.
    obtain ⟨hwf, hvalue⟩ := places_spec hdigits
    apply eq_of_value_eq (ha.mul hb) (wellFormed_reverse.mpr hwf)
    · simp [length_carried]
    · rw [value_mul ha hb hfits, value_reverse, hvalue, ofDigits_carried ha hb hfilled le_rfl]

example : factorLimit = 47721858 := by decide

end Result

end Digits

end Keystroke
