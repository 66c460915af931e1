import Keystroke.Proofs.Machine.Counting
import Mathlib.Data.List.Forall2

/-!
# Control does not depend on data

Two programs resemble each other if they have the same statements at the same places, up to the
numbers that are pushed and up to the choice between keys that replace two numbers by a third one
and cannot fail. Division can fail, so it stands at the same places in both.

Runs of such programs go in lockstep. Registers may hold different numbers all the time, but
nothing that decides about the next step looks at a number: frames, settings, the count of steps
and the names of the variables agree after every step. The one exception is a division, where the
divisor of one run can be zero and that of the other not. There one of the runs ends, and what it
has counted so far the other run has counted as well.
-/

namespace Keystroke

/-- Keys that always replace the two numbers on top by one number. -/
inductive Key.Combines : Key → Prop where
  | plus : Combines (.arithmetic .plus)
  | minus : Combines (.arithmetic .minus)
  | times : Combines (.arithmetic .times)
  | compare (c : Comparator) : Combines (.compare c)

/-- The same key, up to the number that is pushed and up to the way in which numbers are
combined. -/
inductive Key.Resembles : Key → Key → Prop where
  | push (a b : Decimal) : Resembles (.push a) (.push b)
  | store (name : String) : Resembles (.store name) (.store name)
  | load (name : String) : Resembles (.load name) (.load name)
  | divide : Resembles (.arithmetic .divide) (.arithmetic .divide)
  | combine {k l : Key} (hk : k.Combines) (hl : l.Combines) : Resembles k l

inductive Statement.Resembles : Statement → Statement → Prop where
  | press (span : Span) {k l : Key} (h : k.Resembles l) : Resembles (.press span k) (.press span l)
  | call (span : Span) (name : String) : Resembles (.call span name) (.call span name)
  | label (span : Span) (name : String) {body other : List Statement}
      (h : List.Forall₂ Resembles body other) :
      Resembles (.label span name body) (.label span name other)

def Program.Resembles (p q : Program) : Prop :=
  List.Forall₂ Statement.Resembles p.statements q.statements

namespace Statement.Resembles

variable {s t : Statement}

theorem span_eq (h : s.Resembles t) : s.span = t.span := by
  cases h <;> rfl

theorem isLabel_eq (h : s.Resembles t) : s.isLabel = t.isLabel := by
  cases h <;> rfl

end Statement.Resembles

structure Label.Resembles (l m : Label) : Prop where
  name_eq : l.name = m.name
  body : List.Forall₂ Statement.Resembles l.body m.body

theorem Statement.Resembles.label? {s t : Statement} (h : s.Resembles t) :
    Option.Rel Label.Resembles s.label? t.label? := by
  cases h with
  | press | call => exact .none
  | label span name hbody => exact .some ⟨rfl, hbody⟩

/-- The labels of programs that resemble each other do so, too. -/
theorem Program.Resembles.labels {p q : Program} (h : p.Resembles q) :
    List.Forall₂ Label.Resembles p.labels q.labels :=
  List.rel_filterMap (fun _ _ hs => hs.label?) h

/-- A name is defined in both programs or in none, with bodies that resemble each other. -/
theorem Label.Resembles.body? {labels others : List Label}
    (h : List.Forall₂ Label.Resembles labels others) (name : String) :
    Option.Rel (List.Forall₂ Statement.Resembles) (Label.body? labels name)
      (Label.body? others name) :=
  Label.body?_rel (h.imp fun _ _ hl => ⟨hl.name_eq, hl.body⟩) name

def Fault.DividesByZero (fault : Option Fault) : Prop :=
  fault.map Fault.kind = some .divisionByZero

instance (fault : Option Fault) : Decidable (Fault.DividesByZero fault) :=
  inferInstanceAs (Decidable (fault.map Fault.kind = some .divisionByZero))

namespace Machine

/-- Machines with the same settings and the same variables, whatever their numbers. -/
structure Resembles (m n : Machine) : Prop where
  config_eq : m.config = n.config
  isSome_eq : ∀ name, (m.variableValue name).isSome = (n.variableValue name).isSome

variable {m n : Machine}

/-- Registers do not count. -/
theorem Resembles.withRegisters (h : m.Resembles n) (r s : Registers) :
    Resembles { m with registers := r } { n with registers := s } :=
  ⟨h.config_eq, h.isSome_eq⟩

/-- Storing any two numbers under one name defines the same variables. -/
theorem Resembles.store (h : m.Resembles n) (name : String) (a b : Decimal) :
    Resembles { m with memory := m.memory.store name a }
      { n with memory := n.memory.store name b } := by
  refine ⟨h.config_eq, fun other => ?_⟩
  have hother := h.isSome_eq other
  simp only [variableValue, Memory.get?_store] at hother ⊢
  split
  · rfl
  · exact hother

theorem press_of_combines {k : Key} (hk : k.Combines) (m : Machine) (span : Span) :
    ∃ a, m.press span k = (m.popOperands.2.2.push a, none) := by
  cases hk <;> exact ⟨_, rfl⟩

/-- What pressing two keys leaves behind: machines that resemble each other, and the same fault,
if any, unless one of them divided by zero. -/
structure Together (r s : Machine × Option Fault) : Prop where
  machine : r.1.Resembles s.1
  fault : r.2 = s.2 ∨ Fault.DividesByZero r.2 ∨ Fault.DividesByZero s.2

/-- Recalling a variable fails in both machines or in none. -/
theorem Resembles.press_load (h : m.Resembles n) (span : Span) (name : String) :
    Together (m.press span (.load name)) (n.press span (.load name)) := by
  have hname : (m.memory.get? name).isSome = (n.memory.get? name).isSome := h.isSome_eq name
  simp only [Machine.press, Memory.fetch]
  cases hm : m.memory.get? name with
  | none =>
    have hn : n.memory.get? name = none := by simpa [hm] using hname.symm
    rw [hn]
    exact ⟨h, .inl rfl⟩
  | some a =>
    obtain ⟨b, hn⟩ : ∃ b, n.memory.get? name = some b := by
      simpa [hm, Option.isSome_iff_exists] using hname.symm
    rw [hn]
    exact ⟨h.withRegisters _ _, .inl rfl⟩

/-- Arithmetic touches the registers only, also when it fails. -/
theorem press_arithmetic_eq (m : Machine) (span : Span) (op : Operator) :
    ∃ r, (m.press span (.arithmetic op)).1 = { m with registers := r } := by
  simp only [press, popOperands]
  split
  · exact ⟨_, rfl⟩
  · exact ⟨_, rfl⟩

theorem fault_divide_of_none (h : m.config.divisionScale = none) (span : Span) :
    (m.press span (.arithmetic .divide)).2 = some ⟨.divisionPrecisionUndefined, span, ""⟩ := by
  simp only [press, popOperands, Operator.apply, h]
  rfl

theorem fault_divide_of_some {scale : Nat} (h : m.config.divisionScale = some scale)
    (span : Span) :
    (m.press span (.arithmetic .divide)).2 = none ∨
      Fault.DividesByZero (m.press span (.arithmetic .divide)).2 := by
  simp only [press, popOperands, Operator.apply, h, Decimal.div]
  by_cases hzero : m.registers.pop.1.isZero = true
  · simp only [hzero, if_true]
    exact .inr rfl
  · simp only [hzero]
    exact .inl rfl

/-- Division fails in both machines or in none, unless a divisor is zero. -/
theorem Resembles.press_divide (h : m.Resembles n) (span : Span) :
    Together (m.press span (.arithmetic .divide)) (n.press span (.arithmetic .divide)) := by
  refine ⟨?_, ?_⟩
  · obtain ⟨r, hr⟩ := press_arithmetic_eq m span .divide
    obtain ⟨s, hs⟩ := press_arithmetic_eq n span .divide
    rw [hr, hs]
    exact h.withRegisters r s
  · cases hscale : n.config.divisionScale with
    | none =>
      rw [fault_divide_of_none hscale, fault_divide_of_none (h.config_eq ▸ hscale)]
      exact .inl rfl
    | some scale =>
      rcases fault_divide_of_some (h.config_eq ▸ hscale) span with hm | hm
      · rcases fault_divide_of_some hscale span with hn | hn
        · exact .inl (hm.trans hn.symm)
        · exact .inr (.inr hn)
      · exact .inr (.inl hm)

/-- Keys that resemble each other do the same, up to numbers and divisions by zero. -/
theorem Resembles.press (h : m.Resembles n) {k l : Key} (hkey : k.Resembles l) (span : Span) :
    Together (m.press span k) (n.press span l) := by
  cases hkey with
  | push a b => exact ⟨h.withRegisters _ _, .inl rfl⟩
  | store name => exact ⟨h.store name _ _, .inl rfl⟩
  | load name => exact h.press_load span name
  | divide => exact h.press_divide span
  | combine hk hl =>
    obtain ⟨a, ha⟩ := press_of_combines hk m span
    obtain ⟨b, hb⟩ := press_of_combines hl n span
    rw [ha, hb]
    exact ⟨h.withRegisters _ _, .inl rfl⟩

end Machine

namespace Execution

/-- Runs at the same point of programs that resemble each other. -/
structure Resembles (e f : Execution) : Prop where
  machine : e.machine.Resembles f.machine
  frames : List.Forall₂ (List.Forall₂ Statement.Resembles) e.frames.items f.frames.items
  limit_eq : e.frames.limit = f.frames.limit
  steps_eq : e.steps = f.steps

end Execution

/-- The same happens in both runs, or one of them divides by zero. -/
inductive Transition.Resembles : Transition → Transition → Prop where
  | moved {e f : Execution} (h : e.Resembles f) : Resembles (.moved e) (.moved f)
  | stopped {e f : Execution} (fault : Option Fault) (h : e.Resembles f) :
      Resembles (.stopped fault e) (.stopped fault f)
  | left {fault : Option Fault} (hfault : Fault.DividesByZero fault) (last : Execution)
      (other : Transition) : Resembles (.stopped fault last) other
  | right {fault : Option Fault} (hfault : Fault.DividesByZero fault) (other : Transition)
      (last : Execution) : Resembles other (.stopped fault last)

namespace Execution

variable {labels others : List Label} {e f : Execution} {s t : Statement}
  {body other : List Statement}

theorem Resembles.size_eq (h : e.Resembles f) : e.frames.size = f.frames.size := by
  rw [e.frames.size_eq, f.frames.size_eq, h.frames.length_eq]

/-- Reports do not count. -/
theorem Resembles.report (h : e.Resembles f) (x y : Event) :
    (e.report x).Resembles (f.report y) :=
  ⟨h.machine, h.frames, h.limit_eq, h.steps_eq⟩

theorem Resembles.count (h : e.Resembles f) : e.count.Resembles f.count :=
  ⟨h.machine, h.frames, h.limit_eq, congrArg Nat.succ h.steps_eq⟩

/-- Both calls find room for a frame, or none does. -/
theorem Resembles.enter (h : e.Resembles f)
    (hbody : List.Forall₂ Statement.Resembles body other) (span : Span) (name : String) :
    (e.enter span name body).Resembles (f.enter span name other) := by
  simp only [Execution.enter, BoundedStack.push, h.size_eq, h.limit_eq]
  by_cases hroom : f.frames.size < f.frames.limit
  · simp only [hroom, dif_pos]
    exact .moved ⟨h.machine, .cons hbody h.frames, rfl, h.steps_eq⟩
  · simp only [hroom, dif_neg, not_false_iff]
    exact .stopped _ h

theorem Resembles.act_press (h : e.Resembles f) {k l : Key} (hkey : k.Resembles l)
    (span : Span) :
    (e.act labels (.press span k)).Resembles (f.act others (.press span l)) := by
  have hpress := h.machine.press hkey span
  simp only [Execution.act]
  generalize e.machine.press span k = pressed at hpress ⊢
  generalize f.machine.press span l = other at hpress ⊢
  obtain ⟨m, fault⟩ := pressed
  obtain ⟨n, failure⟩ := other
  obtain ⟨hmachine, hfault⟩ := hpress
  rcases hfault with hfault | hfault | hfault
  · obtain rfl : fault = failure := hfault
    cases fault with
    | none => exact .moved ⟨hmachine, h.frames, h.limit_eq, h.steps_eq⟩
    | some fault => exact .stopped _ ⟨hmachine, h.frames, h.limit_eq, h.steps_eq⟩
  · obtain ⟨fault, rfl, -⟩ := Option.map_eq_some_iff.mp hfault
    exact .left hfault _ _
  · obtain ⟨fault, rfl, -⟩ := Option.map_eq_some_iff.mp hfault
    exact .right hfault _ _

theorem Resembles.act (h : e.Resembles f)
    (hlabels : List.Forall₂ Label.Resembles labels others) (hs : s.Resembles t) :
    (e.act labels s).Resembles (f.act others t) := by
  cases hs with
  | press span hkey => exact h.act_press hkey span
  | label => exact .moved h
  | call span name =>
    have hbody := Label.Resembles.body? hlabels name
    simp only [Execution.act]
    generalize Label.body? labels name = found at hbody ⊢
    generalize Label.body? others name = other at hbody ⊢
    cases hbody with
    | none => exact .stopped _ h
    | some hbody => exact (h.report _ _).enter hbody span name

/-- The budget is used up in both runs or in none. -/
theorem Resembles.attempt (h : e.Resembles f)
    (hlabels : List.Forall₂ Label.Resembles labels others) (hs : s.Resembles t) :
    (e.attempt labels s).Resembles (f.attempt others t) := by
  simp only [Execution.attempt, h.machine.config_eq, h.steps_eq, hs.span_eq]
  split
  · exact .stopped _ h
  · exact (h.report _ _).act hlabels hs

theorem Resembles.reach (h : e.Resembles f)
    (hlabels : List.Forall₂ Label.Resembles labels others) (hs : s.Resembles t) :
    (e.reach labels s).Resembles (f.reach others t) := by
  simp only [Execution.reach, hs.isLabel_eq]
  split
  · exact .moved h
  · exact h.count.attempt hlabels hs

/-- Runs at the same point take the same step, unless one of them divides by zero. -/
theorem Resembles.step (h : e.Resembles f)
    (hlabels : List.Forall₂ Label.Resembles labels others) :
    (e.step labels).Resembles (f.step others) := by
  have hframes := h.frames
  generalize he : e.frames.items = frames at hframes
  generalize hf : f.frames.items = counterparts at hframes
  cases hframes with
  | nil =>
    rw [step_done he, step_done hf]
    exact .stopped none h
  | cons htop hbelow =>
    cases htop with
    | nil =>
      rw [step_leave he, step_leave hf]
      refine .moved ⟨h.machine, ?_, h.limit_eq, h.steps_eq⟩
      rwa [BoundedStack.items_pop, BoundedStack.items_pop, he, hf]
    | cons hs hrest =>
      rw [step_reach he, step_reach hf]
      refine Resembles.reach ⟨h.machine, ?_, ?_, h.steps_eq⟩ hlabels hs
      · rw [BoundedStack.items_setTop he, BoundedStack.items_setTop hf]
        exact .cons hrest hbelow
      · rw [BoundedStack.limit_setTop, BoundedStack.limit_setTop, h.limit_eq]

/-- Where a counted statement stands, with the number of frames that are open. -/
def place (x : Statement × Nat) : Span × Nat := (x.1.span, x.2)

/-- Runs at the same point are about to count a statement at the same place, if any. -/
theorem Resembles.pending? (h : e.Resembles f) :
    e.pending?.map place = f.pending?.map place := by
  have hframes := h.frames
  have hsize := h.size_eq
  unfold Execution.pending?
  generalize e.frames.items = frames at hframes ⊢
  generalize f.frames.items = counterparts at hframes ⊢
  cases hframes with
  | nil => rfl
  | cons htop hbelow =>
    cases htop with
    | nil => rfl
    | cons hs hrest =>
      simp only [hs.isLabel_eq, hsize]
      split
      · rfl
      · simp only [Option.map_some, place, hs.span_eq]

def places (labels : List Label) (e : Execution) : List (Span × Nat) :=
  (e.counted labels).map place

/-- How two runs go on from points where they resemble each other. They count statements at the
same places and end in the same way, unless one of them stops before at a division by zero. -/
inductive Lockstep (labels others : List Label) (e f : Execution) : Prop where
  | together (hfault : (e.drive labels).fault = (f.drive others).fault)
      (hmachine : (e.drive labels).machine.Resembles (f.drive others).machine)
      (hplaces : e.places labels = f.places others)
  | left (hfault : Fault.DividesByZero (e.drive labels).fault)
      (hplaces : e.places labels <+: f.places others)
  | right (hfault : Fault.DividesByZero (f.drive others).fault)
      (hplaces : f.places others <+: e.places labels)

variable {next last : Execution} {fault : Option Fault}

theorem places_of_moved (h : e.step labels = .moved next) :
    e.places labels = (e.pending?.map place).toList ++ next.places labels := by
  rw [places, counted_of_moved h, List.map_append, Option.toList_map]
  rfl

theorem places_of_stopped (h : e.step labels = .stopped fault last) :
    e.places labels = (e.pending?.map place).toList := by
  rw [places, counted_of_stopped h, Option.toList_map]

theorem pending?_prefix_places (labels : List Label) (e : Execution) :
    (e.pending?.map place).toList <+: e.places labels := by
  cases h : e.step labels with
  | moved next =>
    rw [places_of_moved h]
    exact List.prefix_append _ _
  | stopped fault last => exact places_of_stopped h ▸ List.prefix_refl _

theorem Resembles.lockstep_of_moved {counterpart : Execution} (h : e.Resembles f)
    (hstep : e.step labels = .moved next) (hother : f.step others = .moved counterpart)
    (hrest : Lockstep labels others next counterpart) : Lockstep labels others e f := by
  have hplaces := places_of_moved hstep
  have hothers := places_of_moved hother
  rw [← h.pending?] at hothers
  cases hrest with
  | together hfault hmachine hequal =>
    refine .together ?_ ?_ ?_
    · rwa [drive_of_moved hstep, drive_of_moved hother]
    · rwa [drive_of_moved hstep, drive_of_moved hother]
    · rw [hplaces, hothers, hequal]
  | left hfault hbegins =>
    refine .left ?_ ?_
    · rwa [drive_of_moved hstep]
    · rw [hplaces, hothers]
      exact (List.prefix_append_right_inj _).mpr hbegins
  | right hfault hbegins =>
    refine .right ?_ ?_
    · rwa [drive_of_moved hother]
    · rw [hplaces, hothers]
      exact (List.prefix_append_right_inj _).mpr hbegins

theorem Resembles.lockstep_of_stopped {counterpart : Execution} (h : e.Resembles f)
    (hstep : e.step labels = .stopped fault last)
    (hother : f.step others = .stopped fault counterpart) (hlast : last.Resembles counterpart) :
    Lockstep labels others e f := by
  refine .together ?_ ?_ ?_
  · rw [drive_of_stopped hstep, drive_of_stopped hother, fault_close, fault_close]
  · rw [drive_of_stopped hstep, drive_of_stopped hother, machine_close, machine_close]
    exact hlast.machine
  · rw [places_of_stopped hstep, places_of_stopped hother, h.pending?]

theorem Resembles.lockstep_of_left (h : e.Resembles f)
    (hstep : e.step labels = .stopped fault last) (hfault : Fault.DividesByZero fault) :
    Lockstep labels others e f := by
  refine .left ?_ ?_
  · rw [drive_of_stopped hstep, fault_close]
    exact hfault
  · rw [places_of_stopped hstep, h.pending?]
    exact pending?_prefix_places others f

theorem Resembles.lockstep_of_right (h : e.Resembles f)
    (hother : f.step others = .stopped fault last) (hfault : Fault.DividesByZero fault) :
    Lockstep labels others e f := by
  refine .right ?_ ?_
  · rw [drive_of_stopped hother, fault_close]
    exact hfault
  · rw [places_of_stopped hother, ← h.pending?]
    exact pending?_prefix_places labels e

/-- Runs at the same point go on in lockstep. -/
theorem Resembles.lockstep (h : e.Resembles f)
    (hlabels : List.Forall₂ Label.Resembles labels others) : Lockstep labels others e f := by
  -- The induction follows the first run. The step lemma says what the second run does meanwhile.
  induction e using drive.induct labels generalizing f with
  | case1 e next hstep ih =>
    have hboth := h.step hlabels
    generalize hother : f.step others = other at hboth
    rw [hstep] at hboth
    cases hboth with
    | moved hnext => exact h.lockstep_of_moved hstep hother (ih hnext)
    | right hfault => exact h.lockstep_of_right hother hfault
  | case2 e fault last hstep =>
    have hboth := h.step hlabels
    generalize hother : f.step others = other at hboth
    rw [hstep] at hboth
    cases hboth with
    | stopped _ hlast => exact h.lockstep_of_stopped hstep hother hlast
    | left hfault => exact h.lockstep_of_left hstep hfault
    | right hfault => exact h.lockstep_of_right hother hfault

/-- Runs of programs that resemble each other begin at the same point, if the machines have the
same settings. -/
theorem resembles_start {m n : Machine} {p q : Program} (hconfig : m.config = n.config)
    (h : p.Resembles q) : (start m.clear p).Resembles (start n.clear q) := by
  refine ⟨⟨hconfig, fun _ => rfl⟩, .cons h .nil, ?_, rfl⟩
  exact congrArg Config.frameLimit hconfig

end Execution

namespace Machine

open Execution

/-- Control does not depend on data. Take two programs that resemble each other and machines with
the same settings. If neither run divides by zero, both end in the same way, after the same number
of steps and with the same variables. In any case, the places of the statements that one of the
runs counts begin the places of those that the other one counts, and if it counts fewer of them,
it has divided by zero. -/
theorem run_resembles {m n : Machine} {p q : Program} (hconfig : m.config = n.config)
    (h : p.Resembles q) :
    let r := m.run p
    let s := n.run q
    let places := (m.counted p).map place
    let others := (n.counted q).map place
    (places.length = r.steps ∧ others.length = s.steps) ∧
      (¬ Fault.DividesByZero r.fault → ¬ Fault.DividesByZero s.fault →
        r.fault = s.fault ∧ r.steps = s.steps ∧
          ∀ name, (r.machine.variableValue name).isSome = (s.machine.variableValue name).isSome) ∧
      (places <+: others ∧ (places ≠ others → Fault.DividesByZero r.fault) ∨
        others <+: places ∧ (others ≠ places → Fault.DividesByZero s.fault)) := by
  intro r s places others
  have hr : places.length = r.steps := by rw [List.length_map, length_counted]
  have hs : others.length = s.steps := by rw [List.length_map, length_counted]
  refine ⟨⟨hr, hs⟩, ?_⟩
  cases (resembles_start hconfig h).lockstep h.labels with
  | together hfault hmachine hplaces =>
    have hequal : places = others := hplaces
    have hsteps : r.steps = s.steps := by rw [← hr, ← hs, hequal]
    exact ⟨fun _ _ => ⟨hfault, hsteps, hmachine.isSome_eq⟩,
      .inl ⟨hequal ▸ List.prefix_refl places, fun hne => absurd hequal hne⟩⟩
  | left hfault hplaces =>
    exact ⟨fun hnot => absurd hfault hnot, .inl ⟨hplaces, fun _ => hfault⟩⟩
  | right hfault hplaces =>
    exact ⟨fun _ hnot => absurd hfault hnot, .inr ⟨hplaces, fun _ => hfault⟩⟩

end Machine

def Program.quotientInLabel (combine : Key) (divisor : Decimal) : Program :=
  ⟨[.label ⟨0, 3⟩ "f" [.press ⟨6, 7⟩ combine, .press ⟨8, 9⟩ (.push divisor),
      .press ⟨10, 11⟩ (.arithmetic .divide)],
    .press ⟨16, 17⟩ (.push .one), .call ⟨18, 21⟩ "f", .press ⟨24, 27⟩ (.store "r")]⟩

theorem Program.resembles_quotientInLabel {k l : Key} (hk : k.Combines) (hl : l.Combines)
    (a b : Decimal) : (quotientInLabel k a).Resembles (quotientInLabel l b) := by
  refine .cons (.label _ _ ?_) (.cons (.press _ (.push _ _)) (.cons (.call _ _)
    (.cons (.press _ (.store "r")) .nil)))
  exact .cons (.press _ (.combine hk hl)) (.cons (.press _ (.push a b))
    (.cons (.press _ .divide) .nil))

/-- Two runs that end in the same way, and a third one that divides by zero before. -/
theorem Machine.run_resembles_quotient :
    let m := fresh (Config.standard.withCallDepth 1)
    let p := Program.quotientInLabel (.arithmetic .plus) .one
    let q := Program.quotientInLabel (.compare .less) ⟨false, [2], [5]⟩
    let zero := Program.quotientInLabel (.arithmetic .times) .zero
    p.Resembles q ∧ p.Resembles zero ∧
      (m.run p).fault = (m.run q).fault ∧ (m.run p).steps = (m.run q).steps ∧
      Fault.DividesByZero (m.run zero).fault ∧
      (m.counted zero).map Execution.place <+: (m.counted p).map Execution.place := by
  intro m p q zero
  have hp : ¬ Fault.DividesByZero (m.run p).fault := by decide +kernel
  have hq : ¬ Fault.DividesByZero (m.run q).fault := by decide +kernel
  have hzero : Fault.DividesByZero (m.run zero).fault := by decide +kernel
  have hpq : p.Resembles q := Program.resembles_quotientInLabel .plus (.compare .less) _ _
  have hpz : p.Resembles zero := Program.resembles_quotientInLabel .plus .times _ _
  obtain ⟨-, hsame, -⟩ := run_resembles (Eq.refl m.config) hpq
  obtain ⟨-, -, hbegins⟩ := run_resembles (Eq.refl m.config) hpz
  obtain ⟨hfault, hsteps, -⟩ := hsame hp hq
  refine ⟨hpq, hpz, hfault, hsteps, hzero, ?_⟩
  rcases hbegins with ⟨-, hne⟩ | ⟨hbegins, -⟩
  · have hequal := Decidable.not_not.mp fun h => hp (hne h)
    exact hequal ▸ List.prefix_refl _
  · exact hbegins

end Keystroke
