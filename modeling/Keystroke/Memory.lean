import Keystroke.Decimal.Basic
import Keystroke.Fault

/-!
# Memory

Variables and their numbers. A name has at most one number, and storing under a known name
replaces it.
-/

namespace Keystroke

/-- Variables with their numbers, in the order in which they were first stored. -/
structure Memory where
  entries : List (String × Decimal)
  deriving DecidableEq, Repr

namespace Memory

def empty : Memory := ⟨[]⟩

def size (m : Memory) : Nat := m.entries.length

def isEmpty (m : Memory) : Bool := m.entries.isEmpty

def get? (m : Memory) (name : String) : Option Decimal := m.entries.lookup name

/-- The number of a variable that is recalled at `span`. -/
def fetch (m : Memory) (span : Span) (name : String) : Except Fault Decimal :=
  match m.get? name with
  | some n => .ok n
  | none => .error ⟨.undefinedVariable, span, name⟩

/-- Replace the entry of a name, or add one at the end. -/
def insert (name : String) (n : Decimal) : List (String × Decimal) → List (String × Decimal)
  | [] => [(name, n)]
  | e :: rest => if e.1 = name then (name, n) :: rest else e :: insert name n rest

def store (m : Memory) (name : String) (n : Decimal) : Memory := ⟨insert name n m.entries⟩

@[simp] theorem get?_empty (name : String) : empty.get? name = none := rfl

theorem lookup_insert (name : String) (n : Decimal) (entries : List (String × Decimal))
    (other : String) :
    (insert name n entries).lookup other =
      if other = name then some n else entries.lookup other := by
  induction entries with
  | nil =>
    rw [insert, List.lookup_cons]
    by_cases h : other = name
    · simp [h]
    · simp [h, beq_eq_false_iff_ne.mpr h]
  | cons e rest ih =>
    rw [insert, List.lookup_cons]
    split
    · next hk =>
      subst hk
      by_cases h : other = e.1
      · simp [h]
      · simp [List.lookup_cons, h, beq_eq_false_iff_ne.mpr h]
    · next hk =>
      rw [List.lookup_cons, ih]
      by_cases h : other = e.1
      · simp [h, hk]
      · simp [beq_eq_false_iff_ne.mpr h]

/-- Storing changes the number of one variable only. -/
theorem get?_store (m : Memory) (name : String) (n : Decimal) (other : String) :
    (m.store name n).get? other = if other = name then some n else m.get? other :=
  lookup_insert name n m.entries other

end Memory

end Keystroke
