import Keystroke.Registers

/-!
# Registers as a list

Seen from the top down the ring is a plain list of fixed length. Pushing puts a number in front
and drops the last one, popping drops the first one and puts a zero behind. Where the ring starts
among its cells makes no difference to that.
-/

namespace Keystroke

namespace Registers

variable (r : Registers) (n : Decimal)

theorem getElem?_index (k : Nat) : r.cells[r.index k]? = some (r.get k) :=
  Array.getElem?_eq_getElem (r.index_lt k)

/-- Up to a whole turn an index wraps at most once. -/
theorem index_of_lt {k : Nat} (hk : k < r.size) :
    r.index k = if r.top + k < r.size then r.top + k else r.top + k - r.size := by
  have htop : r.top < r.size := r.top_lt
  rw [index, Nat.mod_eq_of_lt hk]
  split
  · next hlt => exact Nat.mod_eq_of_lt hlt
  · rw [Nat.mod_eq_sub_mod (by omega), Nat.mod_eq_of_lt (by omega)]

theorem top_push : (r.push n).top = if r.top = 0 then r.size - 1 else r.top - 1 := by
  have htop : r.top < r.size := r.top_lt
  change (r.top + r.size - 1 % r.size) % r.size = _
  by_cases hone : r.size = 1
  · rw [hone, Nat.mod_one, if_pos (by omega)]
  · rw [Nat.mod_eq_of_lt (by omega : 1 < r.size)]
    split
    · rw [Nat.mod_eq_of_lt (by omega)]
      omega
    · rw [Nat.mod_eq_sub_mod (by omega), Nat.mod_eq_of_lt (by omega)]
      omega

theorem getElem?_cells_push (j : Nat) :
    (r.push n).cells[j]? = if (r.push n).top = j then some n else r.cells[j]? :=
  Array.getElem?_set (r.rollDown 1).top_lt

/-- Pushing moves every register one place down, except that the last one is lost. -/
theorem get_push {k : Nat} (hk : k < r.size) :
    (r.push n).get k = if k = 0 then n else r.get (k - 1) := by
  have htop : r.top < r.size := r.top_lt
  have hindex := (r.push n).index_of_lt (k := k) (by simpa using hk)
  rw [size_push, top_push] at hindex
  apply Option.some.inj
  rw [← getElem?_index, getElem?_cells_push, top_push, hindex]
  by_cases hzero : k = 0
  · rw [if_pos (by split <;> split <;> omega), if_pos hzero]
  · rw [if_neg (by split <;> split <;> omega), if_neg hzero, ← getElem?_index,
      index_of_lt r (by omega)]
    congr 1
    split <;> split <;> split <;> omega

theorem getElem?_cells_pop (j : Nat) :
    r.pop.2.cells[j]? = if r.top = j then some .zero else r.cells[j]? :=
  Array.getElem?_set r.top_lt

theorem top_pop : r.pop.2.top = if r.top + 1 < r.size then r.top + 1 else 0 := by
  have htop : r.top < r.size := r.top_lt
  change (r.top + 1 % r.size) % r.size = _
  by_cases hone : r.size = 1
  · rw [hone, Nat.mod_one, if_neg (by omega)]
  · rw [Nat.mod_eq_of_lt (by omega : 1 < r.size)]
    split
    · next hlt => exact Nat.mod_eq_of_lt hlt
    · rw [show r.top + 1 = r.size by omega, Nat.mod_self]

theorem fst_pop : r.pop.1 = r.get 0 := by
  have htop : r.top < r.size := r.top_lt
  apply Option.some.inj
  rw [← getElem?_index, index_of_lt r r.size_pos, if_pos (by omega)]
  exact (Array.getElem?_eq_getElem r.top_lt).symm

/-- Popping moves every register one place up, and a zero comes in at the bottom. -/
theorem get_pop {k : Nat} (hk : k < r.size) :
    r.pop.2.get k = if k + 1 = r.size then .zero else r.get (k + 1) := by
  have htop : r.top < r.size := r.top_lt
  have hindex := r.pop.2.index_of_lt (k := k) (by simpa using hk)
  rw [size_pop, top_pop] at hindex
  apply Option.some.inj
  rw [← getElem?_index, getElem?_cells_pop, hindex]
  by_cases hlast : k + 1 = r.size
  · rw [if_pos (by split <;> split <;> omega), if_pos hlast]
  · rw [if_neg (by split <;> split <;> omega), if_neg hlast, ← getElem?_index,
      index_of_lt r (by omega)]
    congr 1
    split <;> split <;> split <;> omega

section List

theorem getElem_toList {k : Nat} (hk : k < r.toList.length) : r.toList[k] = r.get k := by
  simp [toList]

theorem head?_toList : r.toList.head? = some (r.get 0) := by
  rw [List.head?_eq_getElem?, List.getElem?_eq_getElem (by simpa using r.size_pos),
    getElem_toList]

theorem get_zeroed (count k : Nat) : (zeroed count).get k = .zero := by
  simp [get, zeroed]

theorem toList_zeroed (count : Nat) :
    (zeroed count).toList = List.replicate (max 1 count) .zero := by
  refine List.ext_getElem (by simp) ?_
  intro k hk _
  rw [getElem_toList, get_zeroed, List.getElem_replicate]

/-- Pushing puts a number in front of all but the last register. -/
theorem toList_push : (r.push n).toList = n :: r.toList.take (r.size - 1) := by
  have hpos := r.size_pos
  refine List.ext_getElem (by simp; omega) ?_
  intro k hk _
  have hk : k < r.size := by simpa using hk
  rw [getElem_toList, r.get_push n hk]
  cases k with
  | zero => rfl
  | succ k => simp [getElem_toList]

/-- Popping takes the first register and puts a zero behind the others. -/
theorem toList_pop : r.pop.2.toList = r.toList.tail ++ [.zero] := by
  have hpos := r.size_pos
  refine List.ext_getElem (by simp; omega) ?_
  intro k hk _
  have hk : k < r.size := by simpa using hk
  rw [getElem_toList, r.get_pop hk]
  by_cases hlast : k + 1 = r.size
  · rw [if_pos hlast, List.getElem_append_right (by simp; omega)]
    simp
  · rw [if_neg hlast, List.getElem_append_left (by simp; omega)]
    simp [getElem_toList]

end List

end Registers

end Keystroke
