import Keystroke.Fault

/-!
# Stacks of limited size

A stack that refuses to grow beyond its limit. The size is kept beside the items, so that it
need not be counted.
-/

namespace Keystroke

/-- At most `limit` items, the newest first. -/
structure BoundedStack (α : Type) where
  limit : Nat
  items : List α
  size : Nat
  size_eq : size = items.length
  size_le : size ≤ limit

namespace BoundedStack

variable {α : Type}

def empty (limit : Nat) : BoundedStack α := ⟨limit, [], 0, rfl, Nat.zero_le _⟩

def single (limit : Nat) (h : 0 < limit) (x : α) : BoundedStack α := ⟨limit, [x], 1, rfl, h⟩

def isEmpty (s : BoundedStack α) : Bool := s.items.isEmpty

def top? (s : BoundedStack α) : Option α := s.items.head?

/-- Add an item, if there is room for it. -/
def push (s : BoundedStack α) (x : α) : Except Fault (BoundedStack α) :=
  if h : s.size < s.limit then
    .ok { s with
      items := x :: s.items
      size := s.size + 1
      size_eq := by simp [s.size_eq]
      size_le := h }
  else .error { kind := .callStackOverflow }

/-- Remove the newest item, if there is one. -/
def pop (s : BoundedStack α) : BoundedStack α :=
  { s with
    items := s.items.tail
    size := s.size - 1
    size_eq := by simp [s.size_eq]
    size_le := Nat.le_trans (Nat.sub_le _ _) s.size_le }

/-- Replace the newest item, if there is one. -/
def setTop (s : BoundedStack α) (x : α) : BoundedStack α :=
  match h : s.items with
  | [] => s
  | _ :: below => { s with items := x :: below, size_eq := by simpa [h] using s.size_eq }

/-- The items from the oldest to the newest. -/
def dump [ToString α] (s : BoundedStack α) : String :=
  "[" ++ ", ".intercalate (s.items.reverse.map toString) ++ "]"

@[simp] theorem limit_pop (s : BoundedStack α) : s.pop.limit = s.limit := rfl

@[simp] theorem items_pop (s : BoundedStack α) : s.pop.items = s.items.tail := rfl

@[simp] theorem limit_setTop (s : BoundedStack α) (x : α) : (s.setTop x).limit = s.limit := by
  unfold setTop
  split <;> rfl

theorem items_setTop {s : BoundedStack α} {y : α} {below : List α} (h : s.items = y :: below)
    (x : α) : (s.setTop x).items = x :: below := by
  unfold setTop
  split
  · simp_all
  · simp_all

theorem push_eq_ok {s t : BoundedStack α} {x : α} (h : s.push x = .ok t) :
    s.items.length < s.limit ∧ t.limit = s.limit ∧ t.items = x :: s.items := by
  unfold push at h
  split at h
  · next hlt =>
    cases h
    exact ⟨s.size_eq ▸ hlt, rfl, rfl⟩
  · simp at h

end BoundedStack

end Keystroke
