import Keystroke.Config
import Keystroke.Decimal.Arithmetic
import Keystroke.Memory
import Keystroke.Program.Basic
import Keystroke.Registers

/-!
# Machines and their keys

A machine has settings, registers and a memory. Pressing a key changes registers and memory and
may fail. A failing key leaves the machine as it found it, except that a division has by then
taken its two operands.
-/

namespace Keystroke

structure Machine where
  config : Config
  registers : Registers
  memory : Memory

namespace Machine

def fresh (config : Config) : Machine :=
  ⟨config, .zeroed config.registerCount, .empty⟩

/-- Set all registers to zero and forget all variables. -/
def clear (m : Machine) : Machine :=
  { m with registers := m.registers.clear, memory := .empty }

/-- The number in the top register. -/
def x (m : Machine) : Decimal := m.registers.get 0

def variableValue (m : Machine) (name : String) : Option Decimal := m.memory.get? name

def push (m : Machine) (n : Decimal) : Machine :=
  { m with registers := m.registers.push n }

/-- Take the two numbers on top. The upper one is the right operand. -/
def popOperands (m : Machine) : Decimal × Decimal × Machine :=
  let (right, registers) := m.registers.pop
  let (left, registers) := registers.pop
  (left, right, { m with registers })

/-- Press a key that stands at `span` in the source text. -/
def press (m : Machine) (span : Span) : Key → Machine × Option Fault
  | .push n => (m.push n, none)
  | .store name => ({ m with memory := m.memory.store name m.x }, none)
  | .load name =>
    match m.memory.fetch span name with
    | .ok n => (m.push n, none)
    | .error fault => (m, some fault)
  | .arithmetic op =>
    let (left, right, m) := m.popOperands
    match op.apply m.config.divisionScale left right with
    | .ok n => (m.push n, none)
    | .error fault => (m, some (fault.inSpan span))
  | .compare c =>
    let (left, right, m) := m.popOperands
    (m.push (c.apply left right), none)

end Machine

end Keystroke
