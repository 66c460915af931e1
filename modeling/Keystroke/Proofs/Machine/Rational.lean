import Keystroke.Proofs.Decimal.Arithmetic
import Keystroke.Proofs.Machine.Evaluation
import Keystroke.Proofs.Registers
import Mathlib.Logic.Function.Basic

/-!
# The machine over rational numbers

An ideal calculator that knows nothing of digits: its registers are a list of rational numbers,
its memory a partial function, and its arithmetic is exact except for the places that a
quotient loses. Runs of the machine that works with digits in a ring of cells are runs of the
ideal one: they end in the same way and, number for number, in the same state.
-/

namespace Keystroke

/-- Registers from the top down, and the numbers of variables. -/
structure RationalMachine where
  registers : List ℚ
  memory : String → Option ℚ

/-- The result of an operator on `y` and `x`, where `x` was on top. -/
def Operator.compute (scale : Option Nat) (y x : ℚ) : Operator → Except Fault.Kind ℚ
  | .plus => .ok (y + x)
  | .minus => .ok (y - x)
  | .times => .ok (y * x)
  | .divide =>
    match scale with
    | none => .error .divisionPrecisionUndefined
    | some scale =>
      if x = 0 then .error .divisionByZero else .ok (Decimal.truncate scale (y / x))

/-- The result of a comparator on `y` and `x`, where `x` was on top. -/
def Comparator.compute (y x : ℚ) : Comparator → ℚ
  | .greater => if y > x then 1 else 0
  | .greaterEqual => if y ≥ x then 1 else 0
  | .less => if y < x then 1 else 0
  | .lessEqual => if y ≤ x then 1 else 0

namespace RationalMachine

def initial (count : Nat) : RationalMachine := ⟨List.replicate count 0, fun _ => none⟩

/-- Put a number in front of the first `count - 1` registers. -/
def push (count : Nat) (x : RationalMachine) (q : ℚ) : RationalMachine :=
  { x with registers := q :: x.registers.take (count - 1) }

/-- Take the first register. A zero follows the others. -/
def pop (x : RationalMachine) : ℚ × RationalMachine :=
  (x.registers.headD 0, { x with registers := x.registers.tail ++ [0] })

def press (config : Config) (m : RationalMachine) (span : Span) :
    Key → RationalMachine × Option Fault
  | .push n => (m.push (max 1 config.registerCount) n.value, none)
  | .store name =>
    ({ m with memory := Function.update m.memory name (some (m.registers.headD 0)) }, none)
  | .load name =>
    match m.memory name with
    | some q => (m.push (max 1 config.registerCount) q, none)
    | none => (m, some ⟨.undefinedVariable, span, name⟩)
  | .arithmetic op =>
    let (x, m) := m.pop
    let (y, m) := m.pop
    match op.compute config.divisionScale y x with
    | .ok q => (m.push (max 1 config.registerCount) q, none)
    | .error kind => (m, some ⟨kind, span, ""⟩)
  | .compare c =>
    let (x, m) := m.pop
    let (y, m) := m.pop
    (m.push (max 1 config.registerCount) (c.compute y x), none)

/-- The evaluator of a program with ideal keys. Calls nest as deep as there is room for frames
above that of the program. -/
def evaluator (config : Config) (p : Program) : Evaluator RationalMachine where
  press := press config
  body? := p.lastBody?
  stepBudget := config.stepBudget
  callDepth := config.frameLimit - 1

def run (config : Config) (p : Program) : Evaluation RationalMachine :=
  (evaluator config p).eval 0 p.statements (initial (max 1 config.registerCount)) 0

end RationalMachine

section Operations

variable {a b : Decimal}

theorem Comparator.compute_eq_of_cmp (c : Comparator) (y x : ℚ) :
    c.compute y x = if c.holds (cmp y x) then 1 else 0 := by
  rcases lt_trichotomy y x with hlt | rfl | hgt
  · rw [hlt.cmp_eq_lt]
    cases c <;> simp [compute, holds, hlt, hlt.le, hlt.not_gt, hlt.not_ge]
  · rw [cmp_self_eq_eq]
    cases c <;> simp [compute, holds]
  · rw [hgt.cmp_eq_gt]
    cases c <;> simp [compute, holds, hgt, hgt.le, hgt.not_gt, hgt.not_ge]

theorem Comparator.value_apply (c : Comparator) (ha : a.WellFormed) (hb : b.WellFormed) :
    (c.apply a b).value = c.compute a.value b.value := by
  rw [apply, Decimal.value_ofBool, Decimal.compare_eq_cmp ha hb, compute_eq_of_cmp]

/-- An operator on decimals does what it does on the numbers they stand for. -/
theorem Operator.apply_spec (op : Operator) (scale : Option Nat) (ha : a.WellFormed)
    (hb : b.WellFormed)
    (hfits : op = .times → min a.digitCount b.digitCount ≤ Digits.factorLimit) :
    match op.compute scale a.value b.value with
    | .ok q => ∃ n, op.apply scale a b = .ok n ∧ n.WellFormed ∧ n.value = q
    | .error kind => op.apply scale a b = .error { kind := kind } := by
  cases op with
  | plus => exact ⟨_, rfl, Decimal.wellFormed_add ha hb, Decimal.value_add ha hb⟩
  | minus => exact ⟨_, rfl, Decimal.wellFormed_sub ha hb, Decimal.value_sub ha hb⟩
  | times =>
    exact ⟨_, rfl, Decimal.wellFormed_mul ha hb, Decimal.value_mul ha hb (hfits rfl)⟩
  | divide =>
    cases scale with
    | none => rfl
    | some scale =>
      rw [compute]
      by_cases hzero : b.value = 0
      · simp only [if_pos hzero]
        exact Decimal.div_eq_error scale hzero
      · simp only [if_neg hzero]
        exact Decimal.div_eq_ok ha hb scale hzero

end Operations

namespace Machine

variable {m : Machine} {op : Operator} {n : Decimal} {fault : Fault}

theorem press_arithmetic_of_ok (span : Span)
    (h : op.apply m.config.divisionScale m.popOperands.1 m.popOperands.2.1 = .ok n) :
    m.press span (.arithmetic op) = (m.popOperands.2.2.push n, none) := by
  have hconfig : m.popOperands.2.2.config = m.config := rfl
  simp only [press, hconfig, h]

theorem press_arithmetic_of_error (span : Span)
    (h : op.apply m.config.divisionScale m.popOperands.1 m.popOperands.2.1 = .error fault) :
    m.press span (.arithmetic op) = (m.popOperands.2.2, some (fault.inSpan span)) := by
  have hconfig : m.popOperands.2.2.config = m.config := rfl
  simp only [press, hconfig, h]

end Machine

namespace RationalMachine

/-- The ideal machine `x` shows the numbers behind the registers and the memory of `m`. -/
structure Represents (config : Config) (m : Machine) (x : RationalMachine) : Prop where
  settings : m.config = config
  size : m.registers.size = max 1 config.registerCount
  registers : x.registers = m.registers.toList.map Decimal.value
  digits : ∀ n ∈ m.registers.toList, n.WellFormed
  memory : ∀ name, x.memory name = (m.memory.get? name).map Decimal.value
  stored : ∀ name n, m.memory.get? name = some n → n.WellFormed

variable {config : Config} {m : Machine} {x : RationalMachine} {n : Decimal}

theorem represents_initial (config : Config) :
    Represents config (Machine.fresh config).clear (initial (max 1 config.registerCount)) := by
  have hlist : (Machine.fresh config).clear.registers.toList =
      List.replicate (max 1 config.registerCount) .zero := by
    change (Registers.zeroed (Registers.zeroed config.registerCount).size).toList = _
    rw [Registers.toList_zeroed, Registers.size_zeroed]
    congr 1
    omega
  refine ⟨rfl, ?_, ?_, ?_, ?_, ?_⟩
  · simp [Machine.clear, Machine.fresh]
  · rw [hlist, List.map_replicate, Decimal.value_zero]
    rfl
  · intro n hn
    rw [hlist] at hn
    rw [List.eq_of_mem_replicate hn]
    exact Decimal.wellFormed_zero
  · intro name
    rfl
  · intro name n hn
    simp [Machine.clear] at hn

theorem Represents.headD (h : Represents config m x) : x.registers.headD 0 = m.x.value := by
  rw [h.registers, List.headD_eq_head?_getD, List.head?_map, Registers.head?_toList]
  rfl

theorem Represents.wellFormed_x (h : Represents config m x) : m.x.WellFormed :=
  h.digits _ (List.mem_of_head? m.registers.head?_toList)

theorem Represents.push (h : Represents config m x) (hn : n.WellFormed) :
    Represents config (m.push n) (x.push (max 1 config.registerCount) n.value) := by
  refine ⟨h.settings, ?_, ?_, ?_, h.memory, h.stored⟩
  · rw [← h.size]
    exact Registers.size_push _ _
  · change n.value :: x.registers.take _ = (m.registers.push n).toList.map _
    rw [Registers.toList_push, List.map_cons, List.map_take, h.registers, h.size]
  · intro k hk
    change k ∈ (m.registers.push n).toList at hk
    rw [Registers.toList_push] at hk
    rcases List.mem_cons.mp hk with rfl | hk
    · exact hn
    · exact h.digits k (List.mem_of_mem_take hk)

/-- The machine without its first register. -/
theorem Represents.pop (h : Represents config m x) :
    x.pop.1 = m.registers.pop.1.value ∧ m.registers.pop.1.WellFormed ∧
      Represents config { m with registers := m.registers.pop.2 } x.pop.2 := by
  rw [Registers.fst_pop]
  refine ⟨h.headD, h.wellFormed_x, h.settings, ?_, ?_, ?_, h.memory, h.stored⟩
  · rw [← h.size]
    exact Registers.size_pop _
  · change x.registers.tail ++ [0] = m.registers.pop.2.toList.map _
    rw [Registers.toList_pop, List.map_append, List.map_tail, h.registers]
    simp
  · intro k hk
    change k ∈ m.registers.pop.2.toList at hk
    rw [Registers.toList_pop] at hk
    rcases List.mem_append.mp hk with hk | hk
    · exact h.digits k (List.mem_of_mem_tail hk)
    · rw [List.mem_singleton.mp hk]
      exact Decimal.wellFormed_zero

theorem Represents.store (h : Represents config m x) (name : String) :
    Represents config { m with memory := m.memory.store name m.x }
      { x with memory := Function.update x.memory name (some m.x.value) } := by
  refine ⟨h.settings, h.size, h.registers, h.digits, ?_, ?_⟩
  · intro other
    rw [Memory.get?_store]
    by_cases hname : other = name
    · subst hname
      simp
    · simp [hname, h.memory]
  · intro other n hn
    rw [Memory.get?_store] at hn
    split at hn
    · cases hn
      exact h.wellFormed_x
    · exact h.stored other n hn

/-- The two operands, and the machine without them. -/
theorem Represents.popOperands (h : Represents config m x) :
    (m.popOperands.1.WellFormed ∧ m.popOperands.2.1.WellFormed) ∧
      x.pop.1 = m.popOperands.2.1.value ∧ x.pop.2.pop.1 = m.popOperands.1.value ∧
      Represents config m.popOperands.2.2 x.pop.2.pop.2 := by
  obtain ⟨hright, hrightDigits, hfirst⟩ := h.pop
  obtain ⟨hleft, hleftDigits, hsecond⟩ := hfirst.pop
  exact ⟨⟨hleftDigits, hrightDigits⟩, hright, hleft, hsecond⟩

/-- An operator takes its operands from both machines and fails on both or pushes what it
computes. -/
theorem Represents.press_arithmetic (h : Represents config m x) (span : Span) (op : Operator)
    (hfits : op = .times →
      min m.popOperands.1.digitCount m.popOperands.2.1.digitCount ≤ Digits.factorLimit) :
    (press config x span (.arithmetic op)).2 = (m.press span (.arithmetic op)).2 ∧
      Represents config (m.press span (.arithmetic op)).1
        (press config x span (.arithmetic op)).1 := by
  obtain ⟨⟨hy, hx⟩, hright, hleft, hrest⟩ := h.popOperands
  have hspec := op.apply_spec config.divisionScale hy hx hfits
  have hideal : press config x span (.arithmetic op) =
      match op.compute config.divisionScale m.popOperands.1.value m.popOperands.2.1.value with
      | .ok q => (x.pop.2.pop.2.push (max 1 config.registerCount) q, none)
      | .error kind => (x.pop.2.pop.2, some ⟨kind, span, ""⟩) := by
    rw [← hleft, ← hright]
    rfl
  rw [hideal]
  cases hcompute : op.compute config.divisionScale m.popOperands.1.value
      m.popOperands.2.1.value with
  | ok q =>
    rw [hcompute] at hspec
    obtain ⟨n, happly, hn, rfl⟩ := hspec
    rw [← h.settings] at happly
    rw [Machine.press_arithmetic_of_ok span happly]
    exact ⟨rfl, hrest.push hn⟩
  | error kind =>
    rw [hcompute, ← h.settings] at hspec
    rw [Machine.press_arithmetic_of_error span hspec]
    exact ⟨rfl, hrest⟩

theorem Represents.press_compare (h : Represents config m x) (span : Span) (c : Comparator) :
    (press config x span (.compare c)).2 = (m.press span (.compare c)).2 ∧
      Represents config (m.press span (.compare c)).1 (press config x span (.compare c)).1 := by
  obtain ⟨⟨hy, hx⟩, hright, hleft, hrest⟩ := h.popOperands
  have hideal : press config x span (.compare c) =
      (x.pop.2.pop.2.push (max 1 config.registerCount)
        (c.apply m.popOperands.1 m.popOperands.2.1).value, none) := by
    rw [c.value_apply hy hx, ← hleft, ← hright]
    rfl
  rw [hideal]
  exact ⟨rfl, hrest.push (Decimal.wellFormed_ofBool _)⟩

/-- Every key has the same effect on a machine and on the ideal machine that it represents, if
what it pushes is made of digits and what it multiplies is not too long. -/
theorem simulates_press (p : Program) (span : Span) (key : Key)
    (hpush : ∀ n, key = .push n → n.WellFormed)
    (hfits : key = .arithmetic .times →
      min m.popOperands.1.digitCount m.popOperands.2.1.digitCount ≤ Digits.factorLimit) :
    (evaluator config p).Simulates (Represents config) m span key := by
  intro x h
  change (press config x span key).2 = _ ∧ Represents config _ (press config x span key).1
  cases key with
  | push n => exact ⟨rfl, h.push (hpush n rfl)⟩
  | store name =>
    rw [press, h.headD]
    exact ⟨rfl, h.store name⟩
  | load name =>
    rw [press, Machine.press, Memory.fetch, h.memory]
    cases hn : m.memory.get? name with
    | none => exact ⟨rfl, h⟩
    | some n => exact ⟨rfl, h.push (h.stored name n hn)⟩
  | arithmetic op => exact h.press_arithmetic span op fun htimes => hfits (htimes ▸ rfl)
  | compare c => exact h.press_compare span c

end RationalMachine

/-- The program pushes this number, or a label that it can call does. -/
def Program.Pushes (p : Program) (n : Decimal) : Prop :=
  ∃ body span, p.IsBody body ∧ .press span (.push n) ∈ body

/-- No multiplication that a run of the program executes has two operands of more than
`Digits.factorLimit` digits. -/
def Program.ProductsFit (p : Program) (config : Config) : Prop :=
  ∀ e span, Execution.Reaches p.labels (Execution.start (Machine.fresh config).clear p) e →
    e.Presses span (.arithmetic .times) →
      min e.machine.popOperands.1.digitCount e.machine.popOperands.2.1.digitCount ≤
        Digits.factorLimit

theorem Execution.Presses.pushes {p : Program} {e : Execution} {span : Span} {n : Decimal}
    (h : e.Presses span (.push n)) (hcovers : p.Covers e.frames.items) : p.Pushes n := by
  obtain ⟨⟨rest, below, hitems⟩, -⟩ := h
  obtain ⟨body, hbody, hmem⟩ := hcovers.exists_mem hitems
  exact ⟨body, span, hbody, hmem⟩

/-- A run comes to a machine that represents what the ideal run comes to. -/
theorem Program.exists_represents_run {config : Config} {p : Program}
    (hdigits : ∀ n, p.Pushes n → n.WellFormed) (hproducts : p.ProductsFit config) :
    ∃ y, RationalMachine.Represents config ((Machine.fresh config).run p).machine y ∧
      RationalMachine.run config p =
        ⟨y, ((Machine.fresh config).run p).steps, ((Machine.fresh config).run p).fault⟩ := by
  have hv : (RationalMachine.evaluator config p).Governs p.labels
      (Execution.start (Machine.fresh config).clear p) :=
    Evaluator.governs_start rfl rfl rfl
  refine Evaluator.run_simulates hv ?_ (RationalMachine.represents_initial config)
  intro e he span key hpress
  apply RationalMachine.simulates_press p span key
  · rintro n rfl
    exact hdigits n (hpress.pushes he.covers)
  · rintro rfl
    exact hproducts e span he hpress

/-- A run of the machine is a run of the machine over rational numbers: both end with the same
fault or none after the same number of statements, the registers from the top down stand for the
ideal registers, and the variables that have a number are the same and have the same number. -/
theorem Machine.run_represents_rational (config : Config) (p : Program)
    (hdigits : ∀ n, p.Pushes n → n.WellFormed) (hproducts : p.ProductsFit config) :
    let r := (Machine.fresh config).run p
    let ideal := RationalMachine.run config p
    r.fault = ideal.fault ∧ r.steps = ideal.steps ∧
      r.machine.registers.toList.map Decimal.value = ideal.state.registers ∧
      ideal.state.registers.length = max 1 config.registerCount ∧
      ∀ name, (r.machine.variableValue name).map Decimal.value = ideal.state.memory name := by
  intro r ideal
  obtain ⟨y, hy, hideal⟩ := Program.exists_represents_run hdigits hproducts
  rw [show ideal = ⟨y, r.steps, r.fault⟩ from hideal]
  refine ⟨rfl, rfl, hy.registers.symm, ?_, fun name => (hy.memory name).symm⟩
  rw [hy.registers, List.length_map, Registers.length_toList, hy.size]

def Program.productInLabel : Program :=
  ⟨[.label ⟨0, 3⟩ "f" [.press ⟨6, 7⟩ (.arithmetic .times)],
    .press ⟨12, 15⟩ (.push ⟨false, [1], [5]⟩), .press ⟨16, 17⟩ (.push ⟨false, [4], []⟩),
    .call ⟨18, 21⟩ "f"]⟩

theorem Program.productsFit_productInLabel : productInLabel.ProductsFit .standard := by
  rintro e span h ⟨⟨rest, below, hitems⟩, -⟩
  -- The run passes over the label, pushes twice and calls; only then it multiplies.
  obtain rfl | ⟨_, hskip, h⟩ := h.eq_or_step
  · cases hitems
  cases hskip
  obtain rfl | ⟨_, hpush, h⟩ := h.eq_or_step
  · cases hitems
  cases hpush
  obtain rfl | ⟨_, hpush, h⟩ := h.eq_or_step
  · cases hitems
  cases hpush
  obtain rfl | ⟨_, hcall, h⟩ := h.eq_or_step
  · cases hitems
  cases hcall
  obtain rfl | ⟨_, htimes, h⟩ := h.eq_or_step
  · decide
  cases htimes
  obtain rfl | ⟨_, hleave, h⟩ := h.eq_or_step
  · cases hitems
  cases hleave
  obtain rfl | ⟨_, hleave, h⟩ := h.eq_or_step
  · cases hitems
  cases hleave
  obtain rfl | ⟨_, hdone, h⟩ := h.eq_or_step
  · cases hitems
  cases hdone

theorem Program.wellFormed_of_pushes_productInLabel {n : Decimal}
    (h : productInLabel.Pushes n) : n.WellFormed := by
  obtain ⟨body, span, rfl | ⟨l, hl, rfl⟩, hn⟩ := h
  · simp only [productInLabel, List.mem_cons, Statement.press.injEq, Key.push.injEq,
      reduceCtorEq, List.not_mem_nil, false_or, or_false] at hn
    rcases hn with ⟨-, rfl⟩ | ⟨-, rfl⟩
    · decide
    · decide
  · simp [productInLabel, labels, List.filterMap_cons, Statement.label?] at hl
    subst hl
    simp at hn

theorem Machine.run_represents_rational_product :
    let r := (Machine.fresh .standard).run .productInLabel
    let ideal := RationalMachine.run .standard .productInLabel
    (∀ n, Program.productInLabel.Pushes n → n.WellFormed) ∧
      Program.productInLabel.ProductsFit .standard ∧
      r.fault = ideal.fault ∧ r.steps = ideal.steps ∧
      r.machine.registers.toList.map Decimal.value = ideal.state.registers ∧
      ideal.state.registers.length = 4 ∧
      ∀ name, (r.machine.variableValue name).map Decimal.value = ideal.state.memory name := by
  have hdigits : ∀ n, Program.productInLabel.Pushes n → n.WellFormed :=
    fun _ => Program.wellFormed_of_pushes_productInLabel
  have hproducts := Program.productsFit_productInLabel
  exact ⟨hdigits, hproducts, run_represents_rational .standard _ hdigits hproducts⟩

end Keystroke
