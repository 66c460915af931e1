import Keystroke.Decimal.Basic

/-!
# Registers

A fixed number of registers lie in a ring, and one of them is the top. Pushing turns the ring
back by one and overwrites the register that comes to the top, which is the oldest one. Popping
leaves a zero behind and turns the ring forward. `toList` shows the registers from the top down.
-/

namespace Keystroke

/-- A ring of registers with a marked top. -/
structure Registers where
  cells : Array Decimal
  top : Nat
  top_lt : top < cells.size

namespace Registers

/-- Registers that hold zeros. There is always at least one. -/
def zeroed (count : Nat) : Registers :=
  ⟨Array.replicate (max 1 count) .zero, 0, by simp only [Array.size_replicate]; omega⟩

def size (r : Registers) : Nat := r.cells.size

/-- There are no registers. This never happens. -/
def isEmpty (r : Registers) : Bool := r.size = 0

theorem size_pos (r : Registers) : 0 < r.size := Nat.zero_lt_of_lt r.top_lt

/-- The cell `offset` places below the top, around the ring. -/
def index (r : Registers) (offset : Nat) : Nat := (r.top + offset % r.size) % r.size

theorem index_lt (r : Registers) (offset : Nat) : r.index offset < r.cells.size :=
  Nat.mod_lt _ r.size_pos

/-- The register `offset` places below the top, around the ring. -/
def get (r : Registers) (offset : Nat) : Decimal :=
  have := r.index_lt offset
  r.cells[r.index offset]

/-- The registers from the top down. -/
def toList (r : Registers) : List Decimal := (List.range r.size).map r.get

/-- Turn the ring back by `n` registers. -/
def rollDown (r : Registers) (n : Nat) : Registers :=
  { r with
    top := (r.top + r.size - n % r.size) % r.size
    top_lt := Nat.mod_lt _ r.size_pos }

def setTop (r : Registers) (n : Decimal) : Registers :=
  ⟨r.cells.set r.top n r.top_lt, r.top, by simpa using r.top_lt⟩

/-- Put a number on top. The oldest one is lost. -/
def push (r : Registers) (n : Decimal) : Registers := (r.rollDown 1).setTop n

/-- Take the number on top. A zero comes in at the bottom. -/
def pop (r : Registers) : Decimal × Registers :=
  have := r.top_lt
  (r.cells[r.top],
    { r.setTop .zero with
      top := r.index 1
      top_lt := by simpa [setTop] using r.index_lt 1 })

def clear (r : Registers) : Registers := zeroed r.size

@[simp] theorem size_zeroed (count : Nat) : (zeroed count).size = max 1 count := by
  simp [zeroed, size]

@[simp] theorem size_rollDown (r : Registers) (n : Nat) : (r.rollDown n).size = r.size := rfl

@[simp] theorem size_setTop (r : Registers) (n : Decimal) : (r.setTop n).size = r.size := by
  simp [setTop, size]

@[simp] theorem size_push (r : Registers) (n : Decimal) : (r.push n).size = r.size := by
  simp [push]

@[simp] theorem size_pop (r : Registers) : r.pop.2.size = r.size := by
  simp [pop, setTop, size]

@[simp] theorem size_clear (r : Registers) : r.clear.size = r.size := by
  have := r.size_pos
  simp only [clear, size_zeroed]
  omega

@[simp] theorem length_toList (r : Registers) : r.toList.length = r.size := by
  simp [toList]

/-- Offsets that differ by whole turns of the ring name the same register. -/
@[simp] theorem get_mod (r : Registers) (offset : Nat) :
    r.get (offset % r.size) = r.get offset := by
  simp [get, index]

end Registers

end Keystroke
