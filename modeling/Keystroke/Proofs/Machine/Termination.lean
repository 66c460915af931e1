import Keystroke.Proofs.Machine.Execution
import Mathlib.Algebra.Group.Nat.Defs

/-!
# Runs are finite

Each step makes a run lighter, so the weight at the beginning bounds the number of steps. The
bound is explicit: a statement of the program weighs `B + 2` to the power of the number of frames
that may be open, where `B` is the length of the longest body that can be called. It needs neither
a budget nor labels that do not call each other.
-/

namespace Keystroke

namespace Execution

variable {labels : List Label} {e f g last : Execution} {fault : Option Fault} {n k : Nat}

/-- Steps that have been taken are paid for with weight. -/
theorem Iterates.add_weight_le (h : Iterates labels n e f) :
    n + f.weight labels ≤ e.weight labels := by
  induction h with
  | refl => exact Nat.le_of_eq (Nat.zero_add _)
  | cons hstep _ ih =>
    have hlighter := weight_step_lt hstep
    omega

/-- Steps are determined by where they start, so none leads past the end of a run. -/
theorem Iterates.le_of_stopped (hlast : Iterates labels n e last)
    (hstop : last.step labels = .stopped fault f) (h : Iterates labels k e g) : k ≤ n := by
  induction hlast generalizing k with
  | refl =>
    cases h with
    | refl => exact Nat.le_refl _
    | cons hstep => simp [hstop] at hstep
  | cons hstep _ ih =>
    cases h with
    | refl => exact Nat.zero_le _
    | cons hstep' hrest =>
      rw [hstep] at hstep'
      cases hstep'
      exact Nat.succ_le_succ (ih hstop hrest)

/-- The rules lead to an end from everywhere, and `drive` returns what stands there. -/
theorem exists_stopped (labels : List Label) (e : Execution) :
    ∃ n last fault f, Iterates labels n e last ∧
      last.step labels = .stopped fault f ∧ e.drive labels = f.close fault := by
  induction e using drive.induct labels with
  | case1 e next hstep ih =>
    obtain ⟨n, last, fault, f, hn, hstop, hdrive⟩ := ih
    exact ⟨n + 1, last, fault, f, .cons hstep hn, hstop, (drive_of_moved hstep).trans hdrive⟩
  | case2 e fault f hstop =>
    exact ⟨0, e, fault, f, .refl e, hstop, drive_of_stopped hstop⟩

theorem statementWeight_eq (bound room : Nat) :
    statementWeight bound room = (bound + 2) ^ room := by
  induction room with
  | zero => rfl
  | succ room ih => rw [statementWeight, ih, Nat.pow_succ, Nat.mul_comm]

theorem weight_start (m : Machine) (p : Program) :
    (start m p).weight p.labels =
      (p.statements.length + 1) * (longestBody p.labels + 2) ^ m.config.frameLimit := by
  simp [weight, start, BoundedStack.single, weightOf, statementWeight_eq]

end Execution

open Execution in
/-- Every run ends, whatever its program and its settings are. The loop takes a bounded number
`n` of steps and then stops. On the way each frame only moves forward in one of the bodies of the
program, and the frames never outnumber the calls that may be open and the program. -/
theorem Machine.run_terminates (m : Machine) (p : Program) :
    ∃ n last fault final,
      n ≤ (p.statements.length + 1) * (longestBody p.labels + 2) ^ m.config.frameLimit ∧
      Iterates p.labels n (start m.clear p) last ∧
      last.step p.labels = .stopped fault final ∧
      m.run p = final.close fault ∧
      ∀ k e, Iterates p.labels k (start m.clear p) e →
        k ≤ n ∧ e.frames.items.length ≤ m.config.callDepth + 1 ∧
          p.Covers e.frames.items ∧
          ∀ next, e.step p.labels = .moved next →
            FrameStep p.labels e.frames.items next.frames.items := by
  obtain ⟨n, last, fault, final, hn, hstop, hdrive⟩ :=
    exists_stopped p.labels (start m.clear p)
  have hbound := hn.add_weight_le
  rw [weight_start, config_clear] at hbound
  refine ⟨n, last, fault, final, by omega, hn, hstop, hdrive, ?_⟩
  intro k e he
  have hreach : Reaches p.labels (start m.clear p) e := ⟨k, he⟩
  have hlimit : e.frames.limit = m.config.frameLimit :=
    hreach.preserves (P := fun e => e.frames.limit = m.config.frameLimit)
      (fun _ _ hlimit hmove => hmove.limit_eq.trans hlimit) rfl
  refine ⟨hn.le_of_stopped hstop he, ?_, hreach.covers, fun next h => (move_of_step h).frameStep⟩
  calc e.frames.items.length ≤ e.frames.limit := e.frames.length_items_le
    _ = m.config.frameLimit := hlimit
    _ ≤ m.config.callDepth + 1 := Nat.min_le_left _ _

end Keystroke
