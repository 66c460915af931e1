import Keystroke.Proofs.Machine.Counting
import Keystroke.Proofs.Machine.Termination

/-!
# Sessions

Programs that are run on one machine, one after the other, do not see each other. A run may end
anywhere, with the ring of registers turned, numbers left in it and variables stored, but there are
two things about a machine that no statement and no fault changes: its settings and the number of
its registers. Clearing a machine makes everything else as it is on a machine that has just been
switched on, so each run of a session is the run on such a machine.
-/

namespace Keystroke

namespace Machine

/-- The machine after some programs have been run on it, one after the other. -/
def after (m : Machine) (ps : List Program) : Machine :=
  ps.foldl (fun m p => (m.run p).machine) m

@[simp] theorem size_popOperands (m : Machine) :
    m.popOperands.2.2.registers.size = m.registers.size := by
  show m.registers.pop.2.pop.2.size = m.registers.size
  simp

@[simp] theorem size_push (m : Machine) (n : Decimal) :
    (m.push n).registers.size = m.registers.size := Registers.size_push _ _

/-- No key changes the number of registers, whether it fails or not. -/
@[simp] theorem size_press (m : Machine) (span : Span) (key : Key) :
    (m.press span key).1.registers.size = m.registers.size := by
  cases key with
  | push n => exact m.size_push n
  | store name => rfl
  | load name =>
    simp only [press]
    split
    · exact m.size_push _
    · rfl
  | arithmetic op =>
    simp only [press]
    split
    · exact (size_push _ _).trans m.size_popOperands
    · exact m.size_popOperands
  | compare c => exact (size_push _ _).trans m.size_popOperands

/-- The machine has these settings and the registers that go with them. -/
structure HasSettings (m : Machine) (config : Config) : Prop where
  config_eq : m.config = config
  size_eq : m.registers.size = max 1 config.registerCount

namespace HasSettings

variable {m : Machine} {config : Config}

theorem fresh (config : Config) : (fresh config).HasSettings config :=
  ⟨rfl, Registers.size_zeroed _⟩

/-- Nothing else is left of a machine that has been cleared. -/
theorem clear_eq (h : m.HasSettings config) : m.clear = Machine.fresh config := by
  obtain ⟨hconfig, hsize⟩ := h
  have hcount : max 1 (max 1 config.registerCount) = max 1 config.registerCount := by omega
  have hregisters : m.registers.clear = Registers.zeroed config.registerCount := by
    rw [Registers.clear, hsize]
    simp only [Registers.zeroed, hcount]
  rw [clear, Machine.fresh, hregisters, hconfig]

theorem clear (h : m.HasSettings config) : m.clear.HasSettings config := by
  rw [h.clear_eq]
  exact .fresh config

theorem press (h : m.HasSettings config) (span : Span) (key : Key) :
    (m.press span key).1.HasSettings config where
  config_eq := (m.config_press span key).trans h.config_eq
  size_eq := (m.size_press span key).trans h.size_eq

end HasSettings

end Machine

namespace Execution

variable {labels : List Label} {e f next last : Execution} {fault : Option Fault}
variable {config : Config}

theorem Move.hasSettings (h : Move labels e next) (he : e.machine.HasSettings config) :
    next.machine.HasSettings config := by
  cases h with
  | leave | skip | call => exact he
  | @press span key _ _ machine _ _ hpress =>
    have hafter := he.press span key
    rwa [hpress] at hafter

theorem Stop.hasSettings (h : Stop labels e fault last) (he : e.machine.HasSettings config) :
    last.machine.HasSettings config := by
  cases h with
  | done | budget | undefined | overflow => exact he
  | @press span key _ _ machine _ _ _ hpress =>
    have hafter := he.press span key
    rwa [hpress] at hafter

theorem Reaches.hasSettings (h : Reaches labels e f) (he : e.machine.HasSettings config) :
    f.machine.HasSettings config := by
  apply h.preserves (P := fun e => e.machine.HasSettings config) ?_ he
  intro e next he hmove
  exact hmove.hasSettings he

end Execution

namespace Machine

open Execution

variable {m : Machine} {config : Config}

/-- Clearing comes first, so a run starts with a machine that has just been switched on. -/
theorem HasSettings.run_eq (h : m.HasSettings config) (p : Program) :
    m.run p = (Machine.fresh config).run p := by
  rw [Machine.run, Machine.run, h.clear_eq, (HasSettings.fresh config).clear_eq]

/-- A run keeps the settings and the number of registers, also where it fails. -/
theorem HasSettings.run (h : m.HasSettings config) (p : Program) :
    (m.run p).machine.HasSettings config := by
  obtain ⟨n, last, fault, final, hn, hstop, hdrive⟩ := exists_stopped p.labels (start m.clear p)
  have hlast := Reaches.hasSettings ⟨n, hn⟩ h.clear
  have hfinal := (stop_of_step hstop).hasSettings hlast
  rw [Machine.run, hdrive, machine_close]
  exact hfinal

theorem HasSettings.after (h : m.HasSettings config) (ps : List Program) :
    (m.after ps).HasSettings config := by
  induction ps generalizing m with
  | nil => exact h
  | cons p ps ih => exact ih (h.run p)

/-- Whatever programs have been run on a machine before, and however these runs ended, the run of a
program on it is the run on a machine that has just been switched on: it ends in the same way, after
the same number of steps, with the same registers and variables. From the first run to the last, at
every point of each of them, the machine has the settings that it was made with and the number of
registers that goes with them. -/
theorem run_after_eq_run_fresh (config : Config) (ps : List Program) (q : Program) :
    let m := (fresh config).after ps
    m.run q = (fresh config).run q ∧
      (m.config = config ∧ m.registers.size = max 1 config.registerCount) ∧
      ∀ e, Reaches q.labels (start m.clear q) e →
        e.machine.config = config ∧ e.machine.registers.size = max 1 config.registerCount := by
  intro m
  have hm : m.HasSettings config := (HasSettings.fresh config).after ps
  refine ⟨hm.run_eq q, ⟨hm.config_eq, hm.size_eq⟩, ?_⟩
  intro e he
  have hsettings := he.hasSettings hm.clear
  exact ⟨hsettings.config_eq, hsettings.size_eq⟩

end Machine

end Keystroke
