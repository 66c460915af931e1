/-!
# Settings of a machine

How many registers a machine has, how many digits a quotient gets, how deep calls may nest and
how many statements a run may execute.
-/

namespace Keystroke

/-- Settings of a machine. Those that are not given have their usual values. -/
structure Config where
  /-- Number of registers. -/
  registerCount : Nat := 4
  /-- Digits after the point of a quotient. Without them there is no division. -/
  divisionScale : Option Nat := some 12
  /-- Calls that may be open at a time. The program itself is not a call. -/
  callDepth : Nat := 65535
  /-- Statements that a run may execute, if there is a limit. -/
  stepBudget : Option Nat := none
  deriving DecidableEq, Repr

namespace Config

def standard : Config := {}

instance : Inhabited Config := ⟨standard⟩

/-- Change the number of registers. There is always at least one. -/
def withRegisterCount (c : Config) (n : Nat) : Config := { c with registerCount := max 1 n }

def withDivisionScale (c : Config) (scale : Option Nat) : Config :=
  { c with divisionScale := scale }

def withCallDepth (c : Config) (depth : Nat) : Config := { c with callDepth := depth }

def withStepBudget (c : Config) (budget : Option Nat) : Config := { c with stepBudget := budget }

/-- The greatest number of frames that can be counted in a 64-bit word. -/
def maxFrames : Nat := UInt64.size - 1

/-- Frames that may be open at a time. The program has a frame of its own below the calls. -/
def frameLimit (c : Config) : Nat := min (c.callDepth + 1) maxFrames

theorem frameLimit_pos (c : Config) : 0 < c.frameLimit := by
  simp only [frameLimit, maxFrames, UInt64.size]
  omega

/-- Only the greatest word leaves no number for the frame of the program. -/
theorem frameLimit_eq {c : Config} (h : c.callDepth < maxFrames) :
    c.frameLimit = c.callDepth + 1 :=
  Nat.min_eq_left h

/-- More statements than the budget allows. -/
def exceeds (c : Config) (steps : Nat) : Bool :=
  match c.stepBudget with
  | some budget => budget < steps
  | none => false

def dumpOption : Option Nat → String
  | some n => "Some(" ++ n.repr ++ ")"
  | none => "None"

def dump (c : Config) : String :=
  "Config \x7b stack_size: " ++ c.registerCount.repr ++
    ", division_scale: " ++ dumpOption c.divisionScale ++
    ", max_call_depth: " ++ c.callDepth.repr ++
    ", max_steps: " ++ dumpOption c.stepBudget ++ " \x7d"

end Config

end Keystroke
