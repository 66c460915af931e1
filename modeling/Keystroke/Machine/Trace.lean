import Keystroke.Machine.Step

/-!
# Runs and traces

A run executes a program from its first statement until all frames are gone or something fails.
It starts with cleared registers and an empty memory, and what it leaves there can be looked at
afterwards, also when it failed. Every run ends: each step makes it lighter.

A trace has the states of a machine after no, one, two, … statements of a program. Each is the state
that a run leaves whose budget is that number of statements.
-/

namespace Keystroke

/-- What a run leaves behind. -/
structure Run where
  machine : Machine
  /-- Statements reached, labels not counted and the failing one included. -/
  steps : Nat
  /-- Events in the order in which they happened. -/
  events : List Event
  /-- Why the run stopped, unless it came to the end of the program. -/
  fault : Option Fault

namespace Execution

/-- Close a run. One that came to the end of its program reports so. -/
def close (e : Execution) : Option Fault → Run
  | none =>
    ⟨e.machine, e.steps, (Event.finished e.steps e.machine.x :: e.events).reverse, none⟩
  | some fault => ⟨e.machine, e.steps, e.events.reverse, some fault⟩

def drive (labels : List Label) (e : Execution) : Run :=
  match _h : e.step labels with
  | .moved next => next.drive labels
  | .stopped fault last => last.close fault
termination_by e.weight labels
decreasing_by exact weight_step_lt _h

/-- The beginning of a run on a machine that has been cleared. -/
def start (m : Machine) (p : Program) : Execution where
  machine := m
  frames := .single m.config.frameLimit m.config.frameLimit_pos p.statements
  steps := 0
  events := (Label.redefined p.labels).reverse.map .redefined

end Execution

/-- Run a program on a machine, whatever happened to the machine before. -/
def Machine.run (m : Machine) (p : Program) : Run :=
  (Execution.start m.clear p).drive p.labels

def Run.cutOff (r : Run) : Bool :=
  match r.fault with
  | some fault => fault.kind = .stepLimitExceeded
  | none => false

namespace Machine

def runFor (config : Config) (p : Program) (k : Nat) : Run :=
  (fresh (config.withStepBudget (some k))).run p

/-- Runs with budgets `k`, `k + 1`, …, `k + more`, up to the first one that is not cut off. -/
def traceFrom (config : Config) (p : Program) (k : Nat) : (more : Nat) → List Run
  | 0 => [runFor config p k]
  | more + 1 =>
    runFor config p k ::
      if (runFor config p k).cutOff then traceFrom config p (k + 1) more else []

/-- Runs with growing budgets, at most `limit`, up to the first one that is not cut off. -/
def trace (config : Config) (p : Program) (limit : Nat) : List Run := traceFrom config p 0 limit

end Machine

end Keystroke
