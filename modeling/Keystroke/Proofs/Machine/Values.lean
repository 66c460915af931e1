import Keystroke.Proofs.Decimal.NormalForm
import Keystroke.Proofs.Machine.Rational
import Keystroke.Proofs.Program.Positions

/-!
# What a machine holds

A number that is pushed is kept as it is written, and a number that is computed is in normal form.
Both get into registers and variables and from there anywhere else. A run never holds anything
beside them: in every register and in every variable there is a number made of digits, which is not
a zero with a sign, and which is in normal form unless the program pushes it as it is.

`Program.Explains` says so of a machine, and also which of the executed statements has given a
number to each variable. A statement that is performed preserves it, whether it fails or not, and
so it holds at every point of a run, the one included where the run stops.
-/

namespace Keystroke

section Numbers

variable {a b n : Decimal}

namespace Decimal

/-- Made of digits, and not a zero with a sign. -/
structure IsProper (n : Decimal) : Prop where
  digits : n.WellFormed
  sign : n.negative = true → n.isZero = false

/-- Numerals have no sign. -/
theorem isProper_of_ofText? {s : String} (h : ofText? s = some n) : n.IsProper := by
  obtain ⟨hdigits, -⟩ := wellFormed_of_ofText? h
  obtain ⟨before, behind, hparts⟩ := exists_hasParts_of_ofChars? h
  obtain rfl := Option.some.inj (h.symm.trans hparts.ofChars?_eq)
  exact ⟨hdigits, nofun⟩

theorem isNormal_ofBool (b : Bool) : (ofBool b).IsNormal := by
  cases b <;> decide

end Decimal

/-- A result of an operator is in normal form and made of digits, also where a product is so long
that it is not exact. -/
theorem Operator.isNormal_of_apply {op : Operator} {scale : Option Nat} (ha : a.WellFormed)
    (hb : b.WellFormed) (h : op.apply scale a b = .ok n) : n.IsNormal ∧ n.WellFormed := by
  cases op with
  | plus =>
    cases h
    exact ⟨Decimal.isNormal_add a b, Decimal.wellFormed_add ha hb⟩
  | minus =>
    cases h
    exact ⟨Decimal.isNormal_sub a b, Decimal.wellFormed_sub ha hb⟩
  | times =>
    cases h
    exact ⟨Decimal.isNormal_mul a b, Decimal.wellFormed_mul ha hb⟩
  | divide =>
    cases scale with
    | none => cases h
    | some scale =>
      have hdiv : a.div b scale = .ok n := h
      by_cases hzero : b.value = 0
      · rw [Decimal.div_eq_error scale hzero] at hdiv
        cases hdiv
      · obtain ⟨q, hq, hdigits, -⟩ := Decimal.div_eq_ok ha hb scale hzero
        cases hq.symm.trans hdiv
        exact ⟨(Decimal.isNormal_of_div hq).1, hdigits⟩

end Numbers

namespace Program

structure MayHold (p : Program) (n : Decimal) : Prop where
  proper : n.IsProper
  /-- It was computed, or it is still as the program has it. -/
  written : n.IsNormal ∨ p.Pushes n

def StoredBy (executed : List (Statement × Nat)) (name : String) : Prop :=
  ∃ span depth, (Statement.press span (.store name), depth) ∈ executed

/-- All that a machine holds comes from the program and from the statements that were executed. -/
structure Explains (p : Program) (executed : List (Statement × Nat)) (m : Machine) : Prop where
  registers : ∀ n ∈ m.registers.toList, p.MayHold n
  memory : ∀ name n, m.variableValue name = some n → p.MayHold n ∧ StoredBy executed name

variable {p : Program} {m : Machine} {n : Decimal} {executed : List (Statement × Nat)}

theorem mayHold_of_isNormal (h : n.IsNormal) (hdigits : n.WellFormed) : p.MayHold n :=
  ⟨⟨hdigits, h.sign⟩, .inl h⟩

theorem mayHold_zero : p.MayHold .zero :=
  mayHold_of_isNormal (by decide) Decimal.wellFormed_zero

/-- A cleared machine holds zeros only. -/
theorem explains_clear (m : Machine) : p.Explains executed m.clear := by
  constructor
  · intro n hn
    have hlist : m.clear.registers.toList = List.replicate (max 1 m.registers.size) .zero :=
      Registers.toList_zeroed _
    rw [hlist] at hn
    rw [List.eq_of_mem_replicate hn]
    exact mayHold_zero
  · intro name n hn
    simp [Machine.variableValue, Machine.clear] at hn

namespace Explains

theorem mono (h : p.Explains executed m) {more : List (Statement × Nat)} (hmore : executed ⊆ more) :
    p.Explains more m := by
  refine ⟨h.registers, ?_⟩
  intro name n hn
  obtain ⟨hmay, span, depth, hstore⟩ := h.memory name n hn
  exact ⟨hmay, span, depth, hmore hstore⟩

theorem mayHold_x (h : p.Explains executed m) : p.MayHold m.x :=
  h.registers _ (List.mem_of_head? m.registers.head?_toList)

theorem push (h : p.Explains executed m) (hn : p.MayHold n) : p.Explains executed (m.push n) := by
  refine ⟨?_, h.memory⟩
  intro k hk
  change k ∈ (m.registers.push n).toList at hk
  rw [Registers.toList_push] at hk
  rcases List.mem_cons.mp hk with rfl | hk
  · exact hn
  · exact h.registers k (List.mem_of_mem_take hk)

/-- The number on top, and the machine without it. -/
theorem pop (h : p.Explains executed m) :
    p.MayHold m.registers.pop.1 ∧
      p.Explains executed { m with registers := m.registers.pop.2 } := by
  rw [Registers.fst_pop]
  refine ⟨h.mayHold_x, ?_, h.memory⟩
  intro k hk
  change k ∈ m.registers.pop.2.toList at hk
  rw [Registers.toList_pop] at hk
  rcases List.mem_append.mp hk with hk | hk
  · exact h.registers k (List.mem_of_mem_tail hk)
  · rw [List.mem_singleton.mp hk]
    exact mayHold_zero

theorem popOperands (h : p.Explains executed m) :
    p.MayHold m.popOperands.1 ∧ p.MayHold m.popOperands.2.1 ∧
      p.Explains executed m.popOperands.2.2 := by
  obtain ⟨hright, hfirst⟩ := h.pop
  obtain ⟨hleft, hsecond⟩ := hfirst.pop
  exact ⟨hleft, hright, hsecond⟩

theorem store (h : p.Explains executed m) {name : String} (hname : StoredBy executed name) :
    p.Explains executed { m with memory := m.memory.store name m.x } := by
  refine ⟨h.registers, ?_⟩
  intro other n hn
  rw [Machine.variableValue, Memory.get?_store] at hn
  split at hn
  · next hother =>
    cases hn
    exact ⟨h.mayHold_x, hother ▸ hname⟩
  · exact h.memory other n hn

/-- Pressing a key leaves nothing else behind, also if it fails. -/
theorem press (h : p.Explains executed m) (span : Span) {key : Key}
    (hpush : ∀ n, key = .push n → p.MayHold n)
    (hstore : ∀ name, key = .store name → StoredBy executed name) :
    p.Explains executed (m.press span key).1 := by
  cases key with
  | push n => exact h.push (hpush n rfl)
  | store name => exact h.store (hstore name rfl)
  | load name =>
    rw [Machine.press, Memory.fetch]
    cases hname : m.memory.get? name with
    | none => exact h
    | some n => exact h.push (h.memory name n hname).1
  | arithmetic op =>
    obtain ⟨hleft, hright, hrest⟩ := h.popOperands
    cases happly : op.apply m.config.divisionScale m.popOperands.1 m.popOperands.2.1 with
    | error fault =>
      rw [Machine.press_arithmetic_of_error span happly]
      exact hrest
    | ok n =>
      rw [Machine.press_arithmetic_of_ok span happly]
      obtain ⟨hnormal, hdigits⟩ :=
        Operator.isNormal_of_apply hleft.proper.digits hright.proper.digits happly
      exact hrest.push (mayHold_of_isNormal hnormal hdigits)
  | compare c =>
    obtain ⟨-, -, hrest⟩ := h.popOperands
    exact hrest.push
      (mayHold_of_isNormal (Decimal.isNormal_ofBool _) (Decimal.wellFormed_ofBool _))

/-- A statement that is executed explains what it stores. -/
theorem perform (h : p.Explains executed m) (s : Statement) (depth : Nat)
    (hpush : ∀ span n, s = .press span (.push n) → p.MayHold n) :
    p.Explains ((s, depth) :: executed) (m.perform s) := by
  have hmore := h.mono (List.subset_cons_self (s, depth) executed)
  cases s with
  | call | label => exact hmore
  | press span key =>
    apply hmore.press span
    · rintro n rfl
      exact hpush span n rfl
    · rintro name rfl
      exact ⟨span, depth, List.mem_cons_self⟩

end Explains

end Program

namespace Execution

variable {p : Program} {labels : List Label} {m : Machine} {e f next last : Execution}
variable {fault : Option Fault}

def executed (e : Execution) : List (Statement × Nat) := e.events.filterMap Event.executed?

/-- A point of the run that starts at `e`: where it goes on with another step, or where it has
stopped. -/
def Passes (labels : List Label) (e f : Execution) : Prop :=
  Reaches labels e f ∨ ∃ g fault, Reaches labels e g ∧ g.step labels = .stopped fault f

/-- The statement that is next can be performed: if it pushes a number, then one of the program. -/
theorem explains_next (hpushed : ∀ n, p.Pushes n → n.IsProper) (hcovers : p.Covers e.frames.items)
    (he : p.Explains e.executed e.machine) {s : Statement} {rest : List Statement}
    {below : List (List Statement)} (hitems : e.frames.items = (s :: rest) :: below) :
    p.Explains ((s, e.frames.size) :: e.executed) (e.machine.perform s) := by
  apply he.perform s
  rintro span n rfl
  obtain ⟨body, hbody, hmem⟩ := hcovers.exists_mem hitems
  have hpushes : p.Pushes n := ⟨body, span, hbody, hmem⟩
  exact ⟨hpushed n hpushes, .inr hpushes⟩

theorem Move.explains (hpushed : ∀ n, p.Pushes n → n.IsProper) (hcovers : p.Covers e.frames.items)
    (h : Move labels e next) (he : p.Explains e.executed e.machine) :
    p.Explains next.executed next.machine := by
  cases h with
  | leave | skip => exact he
  | press hitems _ hpress =>
    have hnext := explains_next hpushed hcovers he hitems
    rwa [Machine.perform, hpress] at hnext
  | call hitems => exact explains_next hpushed hcovers he hitems

/-- A statement that fails is performed all the same, unless it is the budget that is used up. -/
theorem Stop.explains (hpushed : ∀ n, p.Pushes n → n.IsProper) (hcovers : p.Covers e.frames.items)
    (h : Stop labels e fault last) (he : p.Explains e.executed e.machine) :
    p.Explains last.executed last.machine := by
  cases h with
  | done | budget => exact he
  | press hitems _ hpress =>
    have hnext := explains_next hpushed hcovers he hitems
    rwa [Machine.perform, hpress] at hnext
  | undefined hitems | overflow hitems => exact explains_next hpushed hcovers he hitems

theorem Reaches.explains (hpushed : ∀ n, p.Pushes n → n.IsProper)
    (h : Reaches p.labels (start m.clear p) e) : p.Explains e.executed e.machine := by
  have hboth : p.Covers e.frames.items ∧ p.Explains e.executed e.machine := by
    apply h.preserves (P := fun e => p.Covers e.frames.items ∧ p.Explains e.executed e.machine)
    · rintro e next ⟨hcovers, he⟩ hmove
      exact ⟨hmove.frameStep.covers hcovers, hmove.explains hpushed hcovers he⟩
    · exact ⟨covers_start m.clear p, Program.explains_clear m⟩
  exact hboth.2

theorem Passes.explains (hpushed : ∀ n, p.Pushes n → n.IsProper)
    (h : Passes p.labels (start m.clear p) e) : p.Explains e.executed e.machine := by
  rcases h with h | ⟨g, fault, h, hstep⟩
  · exact h.explains hpushed
  · exact (stop_of_step hstep).explains hpushed h.covers (h.explains hpushed)

end Execution

namespace Machine

open Execution

/-- A run ends at its last point. -/
theorem exists_passes_run (m : Machine) (p : Program) :
    ∃ last fault, Passes p.labels (start m.clear p) last ∧ m.run p = last.close fault := by
  obtain ⟨n, e, fault, last, hn, hstep, hdrive⟩ := exists_stopped p.labels (start m.clear p)
  exact ⟨last, fault, .inr ⟨e, fault, ⟨n, hn⟩, hstep⟩, hdrive⟩

end Machine

theorem isProper_of_compile {source : String} {p : Program} (h : compile source = .ok p)
    {n : Decimal} (hn : p.Pushes n) : n.IsProper := by
  obtain ⟨body, span, hbody, hpush⟩ := hn
  obtain ⟨text, -, hreads⟩ := exists_shows_of_compile h _ (hbody.mem_listed hpush)
  exact Decimal.isProper_of_ofText? hreads

/-- If the numbers that a program pushes are made of digits and none of them is a zero with a sign,
the same is true of all numbers that its run holds, at every point of it and when it has ended, with
or without a fault. Each of them is moreover in normal form or one of those that the program pushes,
digit for digit, and a variable has a number only if a statement that stores it was executed by
then. Programs that were compiled push such numbers. -/
theorem Machine.run_holds_proper (m : Machine) :
    (∀ p : Program, (∀ n, p.Pushes n → n.IsProper) →
      (∀ e, Execution.Passes p.labels (Execution.start m.clear p) e →
        p.Explains e.executed e.machine) ∧
      p.Explains (m.run p).executed (m.run p).machine) ∧
    ∀ source p, compile source = .ok p → ∀ n, p.Pushes n → n.IsProper := by
  refine ⟨?_, fun source p h n hn => isProper_of_compile h hn⟩
  intro p hpushed
  refine ⟨fun e he => he.explains hpushed, ?_⟩
  obtain ⟨last, fault, hlast, hrun⟩ := m.exists_passes_run p
  rw [hrun, Execution.machine_close, Execution.executed_close]
  exact (hlast.explains hpushed).mono fun s hs => List.mem_reverse.mpr hs

/-- A division by zero in a label, with a difference below its operands. The half keeps the digits
with which it was typed in, in its variable, although they are not in normal form. -/
theorem Machine.run_holds_proper_division :
    let source := "lbl f 0. / rtn .50 sto x 3 - 1 xeq f"
    let m := Machine.fresh (Config.standard.withCallDepth 1)
    let half : Decimal := ⟨false, [], [5, 0]⟩
    ∃ p, compile source = .ok p ∧ (∀ n, p.Pushes n → n.IsProper) ∧
      (m.run p).fault = some ⟨.divisionByZero, ⟨9, 10⟩, ""⟩ ∧
      (m.run p).machine.registers.toList = [⟨true, [2], [5]⟩, .zero, .zero, .zero] ∧
      (m.run p).machine.variableValue "x" = some half ∧ ¬ half.IsNormal ∧ p.Pushes half ∧
      Program.StoredBy (m.run p).executed "x" := by
  intro source m half
  have hcompile : compile source = .ok ⟨[
      .label ⟨0, 3⟩ "f" [.press ⟨6, 8⟩ (.push .zero), .press ⟨9, 10⟩ (.arithmetic .divide)],
      .press ⟨15, 18⟩ (.push half), .press ⟨19, 22⟩ (.store "x"),
      .press ⟨25, 26⟩ (.push ⟨false, [3], []⟩), .press ⟨27, 28⟩ (.arithmetic .minus),
      .press ⟨29, 30⟩ (.push .one), .call ⟨31, 34⟩ "f"]⟩ :=
    compile_eq_ok.mpr ⟨[⟨.word, "lbl", ⟨0, 3⟩⟩, ⟨.word, "f", ⟨4, 5⟩⟩, ⟨.number, "0.", ⟨6, 8⟩⟩,
      ⟨.operator, "/", ⟨9, 10⟩⟩, ⟨.word, "rtn", ⟨11, 14⟩⟩, ⟨.number, ".50", ⟨15, 18⟩⟩,
      ⟨.word, "sto", ⟨19, 22⟩⟩, ⟨.word, "x", ⟨23, 24⟩⟩, ⟨.number, "3", ⟨25, 26⟩⟩,
      ⟨.operator, "-", ⟨27, 28⟩⟩, ⟨.number, "1", ⟨29, 30⟩⟩, ⟨.word, "xeq", ⟨31, 34⟩⟩,
      ⟨.word, "f", ⟨35, 36⟩⟩], _, by decide +kernel, rfl, rfl⟩
  obtain ⟨hruns, hcompiled⟩ := Machine.run_holds_proper m
  have hproper := hcompiled source _ hcompile
  obtain ⟨-, hexplains⟩ := hruns _ hproper
  have hhalf : ¬ half.IsNormal := by decide
  obtain ⟨hmay, hstored⟩ := hexplains.memory "x" half (by decide +kernel)
  exact ⟨_, hcompile, hproper, by decide +kernel, by decide +kernel, by decide +kernel, hhalf,
    hmay.written.resolve_left hhalf, hstored⟩

end Keystroke
