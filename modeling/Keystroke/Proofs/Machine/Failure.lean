import Keystroke.Proofs.Machine.Budget
import Keystroke.Proofs.Machine.Termination
import Keystroke.Proofs.Registers

/-!
# Failed runs

`Machine.Fails` lists the ways in which a statement can fail, with the fault and with the machine
that is left behind. In all of them the machine is the one that came to the statement, except that
a division has taken its two operands from the registers by then. A run that fails has come to such
a statement, so these are the only faults of runs.

The machine that came to the statement can be had without failing there: it is left behind by the
same run with a budget that ends just before. A budget makes no difference to the steps up to a
point that it lasts for, whatever budget the run had before.
-/

namespace Keystroke

namespace Machine

/-- A statement fails on a machine, with a fault, and leaves another machine behind. -/
inductive Fails (m : Machine) : Statement → Fault → Machine → Prop where
  | undefinedVariable (span : Span) (name : String) :
      Fails m (.press span (.load name)) ⟨.undefinedVariable, span, name⟩ m
  | divisionByZero (span : Span) :
      Fails m (.press span (.arithmetic .divide)) ⟨.divisionByZero, span, ""⟩ m.popOperands.2.2
  | divisionPrecisionUndefined (span : Span) :
      Fails m (.press span (.arithmetic .divide)) ⟨.divisionPrecisionUndefined, span, ""⟩
        m.popOperands.2.2
  | undefinedLabel (span : Span) (name : String) :
      Fails m (.call span name) ⟨.undefinedLabel, span, name⟩ m
  | callStackOverflow (span : Span) (name : String) :
      Fails m (.call span name) ⟨.callStackOverflow, span, name⟩ m
  | stepLimitExceeded {s : Statement} (hlabel : s.isLabel = false) :
      Fails m s ⟨.stepLimitExceeded, s.span, ""⟩ m

variable {m n : Machine} {s : Statement} {fault : Fault}

theorem Fails.isLabel_eq (h : m.Fails s fault n) : s.isLabel = false := by
  cases h with
  | stepLimitExceeded hlabel => exact hlabel
  | _ => rfl

/-- A fault stands at the statement that fails. -/
theorem Fails.span_eq (h : m.Fails s fault n) : fault.span = s.span := by
  cases h <;> rfl

/-- Of the keys, only a recall and a division can fail, and these have three faults in all. -/
theorem fault_of_press {span : Span} {key : Key} (h : m.press span key = (n, some fault)) :
    (∃ name, key = .load name ∧ fault = ⟨.undefinedVariable, span, name⟩ ∧ n = m) ∨
      key = .arithmetic .divide ∧ n = m.popOperands.2.2 ∧
        (fault = ⟨.divisionByZero, span, ""⟩ ∨
          fault = ⟨.divisionPrecisionUndefined, span, ""⟩) := by
  cases key with
  | push | store | compare => cases h
  | load name =>
    rw [press, Memory.fetch] at h
    cases hname : m.memory.get? name with
    | some a => rw [hname] at h; cases h
    | none =>
      rw [hname] at h
      cases h
      exact .inl ⟨name, rfl, rfl, rfl⟩
  | arithmetic op =>
    cases op with
    | plus | minus | times => cases h
    | divide =>
      simp only [press, Operator.apply] at h
      cases hscale : m.popOperands.2.2.config.divisionScale with
      | none =>
        rw [hscale] at h
        cases h
        exact .inr ⟨rfl, rfl, .inr rfl⟩
      | some scale =>
        simp only [hscale, Decimal.div] at h
        split at h
        · cases h
        · next hfault =>
          split at hfault
          · cases hfault
            cases h
            exact .inr ⟨rfl, rfl, .inl rfl⟩
          · cases hfault

theorem fails_of_press {span : Span} {key : Key}
    (h : m.press span key = (n, some fault)) : m.Fails (.press span key) fault n := by
  obtain ⟨name, rfl, rfl, rfl⟩ | ⟨rfl, rfl, rfl | rfl⟩ := fault_of_press h
  · exact .undefinedVariable span name
  · exact .divisionByZero span
  · exact .divisionPrecisionUndefined span

end Machine

namespace Execution

variable {labels : List Label} {e f next last : Execution} {fault : Fault}

/-- A run stops with a fault where the next statement fails. -/
theorem Stop.fails (h : Stop labels e (some fault) last) :
    ∃ s rest below, e.frames.items = (s :: rest) :: below ∧
      e.machine.Fails s fault last.machine := by
  cases h with
  | budget hitems hlabel => exact ⟨_, _, _, hitems, .stepLimitExceeded hlabel⟩
  | press hitems _ hpress => exact ⟨_, _, _, hitems, Machine.fails_of_press hpress⟩
  | undefined hitems => exact ⟨_, _, _, hitems, .undefinedLabel _ _⟩
  | overflow hitems => exact ⟨_, _, _, hitems, .callStackOverflow _ _⟩

/-- The budget of a run allows the statements that it goes past. -/
theorem Move.exceeds_eq (h : Move labels e next) (hpending : e.pending?.isSome = true) :
    e.machine.config.exceeds (e.steps + 1) = false := by
  cases h with
  | leave hitems =>
    rw [pending?_leave hitems] at hpending
    cases hpending
  | skip hitems =>
    rw [pending?_skip hitems] at hpending
    cases hpending
  | press _ hbudget | call _ hbudget => exact hbudget

/-- A run goes on in the same way with another budget, if that allows the next statement. -/
theorem step_withStepBudget_of_moved {k : Nat} (h : e.step labels = .moved next)
    (hlasts : next.steps ≤ k) :
    (e.withStepBudget (some k)).step labels = .moved (next.withStepBudget (some k)) := by
  have hmove := move_of_step h
  rw [step_withStepBudget, h]
  · rfl
  · intro hpending
    have hnext : next.steps = e.steps + 1 := by
      obtain ⟨x, hx⟩ := Option.isSome_iff_exists.mp hpending
      simpa [hx] using hmove.counts.1
    rw [hmove.exceeds_eq hpending]
    simp only [Config.exceeds, Config.withStepBudget, decide_eq_false_iff_not]
    omega

/-- With a budget for the statements before it, a run is cut off at any statement that it comes
to, and leaves the machine that came there. -/
theorem Reaches.drive_cutOff {s : Statement} {depth : Nat} (h : Reaches labels e f)
    (hpending : f.pending? = some (s, depth)) :
    ((e.withStepBudget (some f.steps)).drive labels).fault =
        some ⟨.stepLimitExceeded, s.span, ""⟩ ∧
      ((e.withStepBudget (some f.steps)).drive labels).machine =
        f.machine.withStepBudget (some f.steps) := by
  obtain ⟨n, hn⟩ := h
  induction hn with
  | refl e =>
    obtain ⟨last, hstep, hmachine⟩ := step_beyondBudget labels hpending rfl
    rw [drive_of_stopped hstep, fault_close, machine_close]
    exact ⟨rfl, hmachine⟩
  | @cons n e next f hstep hrest ih =>
    obtain ⟨done, -, hsteps, -⟩ := Reaches.counted_eq ⟨n, hrest⟩
    have hlasts : next.steps ≤ f.steps := by omega
    rw [drive_of_moved (step_withStepBudget_of_moved hstep hlasts)]
    exact ih hpending

end Execution

namespace Machine

open Execution

variable {m : Machine} {p : Program} {fault : Fault}

/-- A run that fails has come to where it stops. -/
theorem exists_stop_of_run (h : (m.run p).fault = some fault) :
    ∃ e last, Reaches p.labels (start m.clear p) e ∧ Stop p.labels e (some fault) last ∧
      m.run p = last.close (some fault) := by
  obtain ⟨n, e, stopped, last, hn, hstep, hdrive⟩ := exists_stopped p.labels (start m.clear p)
  have hrun : m.run p = last.close stopped := hdrive
  rw [hrun, fault_close] at h
  subst h
  exact ⟨e, last, ⟨n, hn⟩, stop_of_step hstep, hrun⟩

/-- A run that fails has come to a statement that fails, and counts it last. -/
theorem exists_fails_of_run (h : (m.run p).fault = some fault) :
    ∃ e s depth, Reaches p.labels (start m.clear p) e ∧ e.pending? = some (s, depth) ∧
      (m.run p).steps = e.steps + 1 ∧ (m.counted p)[e.steps]? = some (s, depth) ∧
      e.machine.Fails s fault (m.run p).machine := by
  obtain ⟨e, last, hreaches, hstop, hrun⟩ := exists_stop_of_run h
  obtain ⟨s, rest, below, hitems, hfails⟩ := hstop.fails
  have hpending := pending?_of_not_isLabel hitems hfails.isLabel_eq
  refine ⟨e, s, e.frames.size, hreaches, hpending, ?_, ?_, ?_⟩
  · rw [hrun, steps_close, hstop.counts, hpending]
    rfl
  · obtain ⟨done, hcounted, hsteps, -⟩ := hreaches.counted_eq
    have hdone : e.steps = done.length := hsteps.trans (Nat.zero_add _)
    rw [counted, hcounted, counted_of_stopped hstop.step_eq, hpending, hdone]
    simp
  · rw [hrun, machine_close]
    exact hfails

/-- The registers without the two numbers on top, and with two zeros at the bottom. -/
theorem toList_popOperands (m : Machine) :
    m.popOperands.2.2.registers.toList =
      (m.registers.toList ++ [Decimal.zero, Decimal.zero]).drop 2 := by
  have hpos := m.registers.size_pos
  have hlength : m.registers.toList ≠ [] := by
    intro hnil
    have := congrArg List.length hnil
    simp at this
    omega
  obtain ⟨x, rest, hlist⟩ := List.exists_cons_of_ne_nil hlength
  show m.registers.pop.2.pop.2.toList = _
  rw [Registers.toList_pop, Registers.toList_pop, hlist]
  cases rest with
  | nil => rfl
  | cons y rest => simp

/-- What a failed run leaves behind is what the same run leaves with a budget that ends just before
its last counted statement, where it failed. A division has then taken its two operands: the two
numbers on top are gone and two zeros have come in at the bottom. Nothing else is changed, and runs
have no other faults than those named here. -/
theorem run_fault_leaves (m : Machine) (p : Program) (fault : Fault)
    (h : (m.run p).fault = some fault) :
    let failed := m.run p
    let before := (m.withStepBudget (some (failed.steps - 1))).run p
    (0 < failed.steps ∧ ∃ s depth, (m.counted p)[failed.steps - 1]? = some (s, depth) ∧
        s.span = fault.span ∧ before.fault = some ⟨.stepLimitExceeded, s.span, ""⟩) ∧
      (fault.kind ∈
            [.undefinedVariable, .undefinedLabel, .callStackOverflow, .stepLimitExceeded] ∧
          failed.machine.registers = before.machine.registers ∧
          failed.machine.memory = before.machine.memory ∨
        fault.kind ∈ [.divisionByZero, .divisionPrecisionUndefined] ∧
          failed.machine.registers = before.machine.registers.pop.2.pop.2 ∧
          failed.machine.registers.toList =
            (before.machine.registers.toList ++ [Decimal.zero, Decimal.zero]).drop 2 ∧
          failed.machine.memory = before.machine.memory) := by
  intro failed before
  obtain ⟨e, s, depth, hreaches, hpending, hsteps, hcounted, hfails⟩ := exists_fails_of_run h
  have hpos : 0 < failed.steps := hsteps ▸ Nat.succ_pos _
  have hlast : failed.steps - 1 = e.steps := by
    rw [hsteps]
    rfl
  obtain ⟨hcut, hmachine⟩ := hreaches.drive_cutOff hpending
  have hbefore : before = ((start m.clear p).withStepBudget (some e.steps)).drive p.labels := by
    simp only [before, hlast]
    rfl
  rw [← hbefore] at hcut hmachine
  refine ⟨⟨hpos, s, depth, hlast ▸ hcounted, hfails.span_eq.symm, hcut⟩, ?_⟩
  rw [hmachine]
  -- What follows is about the machine that came to the statement and the one it left.
  generalize hleft : failed.machine = left
  rw [hleft] at hfails
  cases hfails with
  | undefinedVariable | undefinedLabel | callStackOverflow | stepLimitExceeded =>
    exact .inl ⟨by simp, rfl, rfl⟩
  | divisionByZero | divisionPrecisionUndefined =>
    exact .inr ⟨by simp, rfl, e.machine.toList_popOperands, rfl⟩

/-- A division by zero in a label, on a machine with three registers and a budget that would have
lasted. The run with one statement less leaves the operands where they were. -/
theorem run_fault_leaves_division :
    let m := fresh (((Config.standard.withCallDepth 1).withRegisterCount 3).withStepBudget (some 9))
    let p : Program := ⟨[.label ⟨0, 3⟩ "f" [.press ⟨6, 7⟩ (.arithmetic .divide)],
      .press ⟨12, 13⟩ (.push .one), .press ⟨14, 17⟩ (.store "x"), .press ⟨20, 21⟩ (.push .zero),
      .call ⟨22, 25⟩ "f"]⟩
    let before := (m.withStepBudget (some 4)).run p
    (m.run p).fault = some ⟨.divisionByZero, ⟨6, 7⟩, ""⟩ ∧
      before.machine.registers.toList = [.zero, .one, .zero] ∧
      (m.run p).machine.registers.toList = [.zero, .zero, .zero] ∧
      (m.run p).machine.memory = before.machine.memory ∧
      before.machine.memory.get? "x" = some .one := by
  intro m p before
  have hfault : (m.run p).fault = some ⟨.divisionByZero, ⟨6, 7⟩, ""⟩ := by decide +kernel
  have hsteps : (m.run p).steps - 1 = 4 := by decide +kernel
  have hbefore : before.machine.registers.toList = [.zero, .one, .zero] := by decide +kernel
  obtain ⟨-, hleaves⟩ := run_fault_leaves m p _ hfault
  rw [hsteps] at hleaves
  obtain ⟨hkind, -⟩ | ⟨-, -, hregisters, hmemory⟩ := hleaves
  · exact absurd hkind (by decide)
  · refine ⟨hfault, hbefore, ?_, hmemory, by decide +kernel⟩
    rw [hregisters, hbefore]
    rfl

end Machine

end Keystroke
