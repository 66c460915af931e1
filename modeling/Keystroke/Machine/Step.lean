import Keystroke.BoundedStack
import Keystroke.Event
import Keystroke.Machine.Basic

/-!
# Single steps

A run keeps a stack of frames. Each frame holds the statements of one body that are still to be
executed, and the newest one belongs to the call that is going on. A step takes the next
statement of the newest frame, or removes the frame if there is none left.

A call opens a frame with the body of a label. The statements of that body may outnumber those
that are left in all other frames, so no simple count of statements goes down. What goes down is
`weight`: a statement weighs more, the more calls can still be opened above it.
-/

namespace Keystroke

/-- A run that is going on. -/
structure Execution where
  machine : Machine
  /-- What is left of each open body. -/
  frames : BoundedStack (List Statement)
  /-- Statements reached so far, labels not counted. -/
  steps : Nat
  /-- Events so far, the latest first. -/
  events : List Event

/-- The outcome of a step: the run goes on, or it stops with or without a fault. -/
inductive Transition where
  | moved (next : Execution)
  | stopped (fault : Option Fault) (last : Execution)

namespace Execution

def report (e : Execution) (event : Event) : Execution :=
  { e with events := event :: e.events }

def count (e : Execution) : Execution := { e with steps := e.steps + 1 }

/-- Open a frame for the body of the label `name` that is called at `span`. -/
def enter (e : Execution) (span : Span) (name : String) (body : List Statement) : Transition :=
  match e.frames.push body with
  | .ok frames => .moved { e with frames }
  | .error fault => .stopped (some ((fault.inSpan span).about name)) e

/-- Execute a statement that has been counted and reported. -/
def act (labels : List Label) (e : Execution) : Statement → Transition
  | .label _ _ _ => .moved e
  | .press span key =>
    match e.machine.press span key with
    | (machine, none) => .moved { e with machine }
    | (machine, some fault) => .stopped (some fault) { e with machine }
  | .call span name =>
    match Label.body? labels name with
    | none => .stopped (some ⟨.undefinedLabel, span, name⟩) e
    | some body => (e.report (.call name e.frames.size)).enter span name body

/-- Execute a statement that has been counted, unless it goes beyond the budget. -/
def attempt (labels : List Label) (e : Execution) (s : Statement) : Transition :=
  if e.machine.config.exceeds e.steps then
    .stopped (some { kind := .stepLimitExceeded, span := s.span }) e
  else (e.report (.step s e.frames.size)).act labels s

/-- Reach a statement. Labels are passed over without being counted. -/
def reach (labels : List Label) (e : Execution) (s : Statement) : Transition :=
  if s.isLabel then .moved e else e.count.attempt labels s

def step (labels : List Label) (e : Execution) : Transition :=
  match e.frames.top? with
  | none => .stopped none e
  | some [] => .moved { e with frames := e.frames.pop }
  | some (s :: rest) => { e with frames := e.frames.setTop rest }.reach labels s

/-- Number of statements in the longest of the bodies that can be called. -/
def longestBody (labels : List Label) : Nat :=
  labels.foldr (fun l n => max l.body.length n) 0

/-- Weight of a statement above which `room` calls can be opened, while bodies have at most
`bound` statements. It outweighs a whole body one frame further up. -/
def statementWeight (bound : Nat) : (room : Nat) → Nat
  | 0 => 1
  | room + 1 => (bound + 2) * statementWeight bound room

/-- Weight of some frames of which at most `limit` can be open. An empty frame weighs as much as
a statement in it. -/
def weightOf (bound limit : Nat) : List (List Statement) → Nat
  | [] => 0
  | rest :: below =>
    (rest.length + 1) * statementWeight bound (limit - below.length) + weightOf bound limit below

/-- Bounds the number of steps that a run can still take. -/
def weight (labels : List Label) (e : Execution) : Nat :=
  weightOf (longestBody labels) e.frames.limit e.frames.items

theorem length_le_of_body? {labels : List Label} {name : String} {body : List Statement}
    (h : Label.body? labels name = some body) : body.length ≤ longestBody labels := by
  induction labels with
  | nil => simp [Label.body?] at h
  | cons first later ih =>
    simp only [longestBody, List.foldr_cons, Label.body?] at ih h ⊢
    split at h
    · next found =>
      have := ih (found.trans h)
      omega
    · split at h
      · cases h
        exact Nat.le_max_left _ _
      · simp at h

theorem statementWeight_pos (bound room : Nat) : 0 < statementWeight bound room := by
  induction room with
  | zero => exact Nat.one_pos
  | succ room ih => exact Nat.mul_pos (Nat.succ_pos _) ih

/-- A statement weighs more than the frame that it can open. -/
theorem weightOf_call {bound limit : Nat} {body rest : List Statement}
    {below : List (List Statement)} (hbody : body.length ≤ bound)
    (hroom : below.length + 1 < limit) (s : Statement) :
    weightOf bound limit (body :: rest :: below) <
      weightOf bound limit ((s :: rest) :: below) := by
  obtain ⟨room, hr⟩ : ∃ room, limit - below.length = room + 1 :=
    ⟨limit - below.length - 1, by omega⟩
  have hr' : limit - (below.length + 1) = room := by omega
  have hframe : (body.length + 1) * statementWeight bound room <
      statementWeight bound (room + 1) :=
    Nat.mul_lt_mul_of_pos_right (by omega) (statementWeight_pos bound room)
  simp only [weightOf, List.length_cons, hr, hr']
  rw [Nat.add_mul (rest.length + 1), Nat.one_mul]
  omega

/-- Passing over a statement makes a frame lighter. -/
theorem weightOf_tail (bound limit : Nat) (s : Statement) (rest : List Statement)
    (below : List (List Statement)) :
    weightOf bound limit (rest :: below) < weightOf bound limit ((s :: rest) :: below) := by
  have := statementWeight_pos bound (limit - below.length)
  simp only [weightOf, List.length_cons, Nat.add_mul, Nat.one_mul]
  omega

/-- Removing a frame makes a run lighter. -/
theorem weightOf_pop (bound limit : Nat) (rest : List Statement)
    (below : List (List Statement)) :
    weightOf bound limit below < weightOf bound limit (rest :: below) := by
  have := statementWeight_pos bound (limit - below.length)
  simp only [weightOf, Nat.add_mul, Nat.one_mul]
  omega

/-- The weight after executing `s` is below the weight before it was taken from its frame. -/
theorem weight_act_lt {labels : List Label} {e next : Execution} {s : Statement}
    {rest : List Statement} {below : List (List Statement)}
    (hitems : e.frames.items = rest :: below) (h : e.act labels s = .moved next) :
    next.weight labels <
      weightOf (longestBody labels) e.frames.limit ((s :: rest) :: below) := by
  have unchanged : e.weight labels <
      weightOf (longestBody labels) e.frames.limit ((s :: rest) :: below) := by
    rw [weight, hitems]
    exact weightOf_tail _ _ _ _ _
  unfold act at h
  split at h
  · cases h
    exact unchanged
  · split at h
    · cases h
      exact unchanged
    · simp at h
  · split at h
    · simp at h
    · next hbody =>
      unfold enter at h
      split at h
      · next hpush =>
        cases h
        obtain ⟨hroom, hlimit, hnew⟩ := BoundedStack.push_eq_ok hpush
        simp only [report, hitems, List.length_cons] at hroom hlimit hnew
        simp only [weight, hlimit, hnew]
        exact weightOf_call (length_le_of_body? hbody) hroom _
      · simp at h

/-- Every step makes a run lighter. -/
theorem weight_step_lt {labels : List Label} {e next : Execution}
    (h : e.step labels = .moved next) : next.weight labels < e.weight labels := by
  unfold step at h
  split at h
  · simp at h
  · next htop =>
    cases h
    obtain ⟨below, hitems⟩ := List.head?_eq_some_iff.mp htop
    simp only [weight, BoundedStack.limit_pop, BoundedStack.items_pop, hitems, List.tail_cons]
    exact weightOf_pop _ _ _ _
  · next s rest htop =>
    obtain ⟨below, hitems⟩ := List.head?_eq_some_iff.mp htop
    have hset := BoundedStack.items_setTop hitems rest
    rw [weight, weight, hitems, ← BoundedStack.limit_setTop e.frames rest]
    unfold reach at h
    split at h
    · cases h
      simp only [hset]
      exact weightOf_tail _ _ _ _ _
    · unfold attempt at h
      split at h
      · simp at h
      · exact weight_act_lt hset h

end Execution

end Keystroke
