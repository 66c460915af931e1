import Keystroke.Proofs.Machine.Correspondence
import Keystroke.Proofs.Machine.Rational
import Keystroke.Proofs.Program.Relisting

/-!
# Runs of programs with equal numbers

Programs with the same statements may write their numbers in different ways, as `7`, `007` or
`7.0`. The machine works on the digits as they are written, so its registers and variables then
hold numbers that are written differently, too. The numbers are equal all the same.

The way to see this leads over the machine on rational numbers. Each of the two runs is a run of
that machine, which sees values only: to it, the keys of the two programs are the same, up to the
places where they stand. So it comes to one state in both runs, and two machines that represent
one state hold equal numbers.
-/

namespace Keystroke

section Keys

/-- Lists of the same numbers, however these are written. -/
theorem Decimal.forall₂_same_of_map_value {as bs : List Decimal} (has : ∀ a ∈ as, a.WellFormed)
    (hbs : ∀ b ∈ bs, b.WellFormed) (h : as.map value = bs.map value) :
    List.Forall₂ (fun a b => a.same b = true) as bs := by
  induction as generalizing bs with
  | nil =>
    rw [List.map_nil, eq_comm, List.map_eq_nil_iff] at h
    rw [h]
    exact .nil
  | cons a as ih =>
    rw [List.map_cons, eq_comm, List.map_eq_cons_iff] at h
    obtain ⟨b, bs, rfl, hvalue, hrest⟩ := h
    obtain ⟨ha, has⟩ := List.forall_mem_cons.mp has
    obtain ⟨hb, hbs⟩ := List.forall_mem_cons.mp hbs
    exact .cons ((same_iff_value_eq ha hb).mpr hvalue.symm) (ih has hbs hrest.symm)

inductive Key.Agrees : Key → Key → Prop where
  | push {m n : Decimal} (h : m.value = n.value) : Agrees (.push m) (.push n)
  | refl (key : Key) : Agrees key key

theorem Key.agrees_of_same {k l : Key} (h : k.same l = true)
    (hk : ∀ n, k = .push n → n.WellFormed) (hl : ∀ n, l = .push n → n.WellFormed) :
    k.Agrees l := by
  cases k with
  | push m =>
    cases l with
    | push n => exact .push ((Decimal.same_iff_value_eq (hk m rfl) (hl n rfl)).mp h)
    | store | load | arithmetic | compare => cases h
  | store | load | arithmetic | compare =>
    obtain rfl := of_decide_eq_true h
    exact .refl _

/-- Keys that agree have the same effect on rational numbers, and fail alike up to places. -/
theorem RationalMachine.press_agrees (config : Config) {place : Span → Span} {span other : Span}
    {k l : Key} (hplace : place span = place other) (h : k.Agrees l) (x : RationalMachine) :
    (press config x span k).1 = (press config x other l).1 ∧
      (press config x span k).2.map (Fault.relocate place) =
        (press config x other l).2.map (Fault.relocate place) := by
  cases h with
  | push hvalue =>
    rw [press, press, hvalue]
    exact ⟨rfl, rfl⟩
  | refl =>
    cases k with
    | push | store | compare => exact ⟨rfl, rfl⟩
    | load name =>
      rw [press, press]
      split
      · exact ⟨rfl, rfl⟩
      · simp [Fault.relocate, hplace]
    | arithmetic op =>
      simp only [press]
      split
      · exact ⟨rfl, rfl⟩
      · simp [Fault.relocate, hplace]

end Keys

section Statements

variable {place : Span → Span}

namespace Statement

theorem forall₂_of_sameAll {ss tt : List Statement} (h : sameAll ss tt = true) :
    List.Forall₂ (fun s t => s.same t = true) ss tt := by
  induction ss generalizing tt with
  | nil =>
    cases tt with
    | nil => exact .nil
    | cons => cases h
  | cons s ss ih =>
    cases tt with
    | nil => cases h
    | cons t tt =>
      rw [sameAll, Bool.and_eq_true] at h
      exact .cons h.1 (ih h.2)

/-- The same statement, up to places that `place` does not tell apart and with numbers compared by
value. -/
inductive Matches (place : Span → Span) : Statement → Statement → Prop where
  | press {span other : Span} {k l : Key} (hplace : place span = place other)
      (hkey : k.same l = true) : Matches place (.press span k) (.press other l)
  | call {span other : Span} (hplace : place span = place other) (name : String) :
      Matches place (.call span name) (.call other name)
  | label {span other : Span} (name : String) {body body' : List Statement}
      (hbody : sameAll (body.map (relocate place)) (body'.map (relocate place)) = true) :
      Matches place (.label span name body) (.label other name body')

theorem matches_of_same {s t : Statement}
    (h : (s.relocate place).same (t.relocate place) = true) : Matches place s t := by
  have hkey : ∀ k : Key, k.map id = k := by
    intro k
    cases k <;> rfl
  cases s with
  | press span k =>
    cases t with
    | press other l =>
      simp only [relocate, map, same, Bool.and_eq_true, decide_eq_true_eq, hkey] at h
      exact .press h.1 h.2
    | call | label => cases h
  | call span name =>
    cases t with
    | call other name' =>
      simp only [relocate, map, same, Bool.and_eq_true, decide_eq_true_eq] at h
      obtain ⟨hplace, rfl⟩ := h
      exact .call hplace name
    | press | label => cases h
  | label span name body =>
    cases t with
    | label other name' body' =>
      simp only [relocate, map, same, mapAll_eq, Bool.and_eq_true, decide_eq_true_eq] at h
      obtain ⟨⟨-, rfl⟩, hbody⟩ := h
      exact .label name hbody
    | press | call => cases h

theorem forall₂_matches {ss tt : List Statement}
    (h : sameAll (ss.map (relocate place)) (tt.map (relocate place)) = true) :
    List.Forall₂ (Matches place) ss tt := by
  have hsame := forall₂_of_sameAll h
  rw [List.forall₂_map_left_iff, List.forall₂_map_right_iff] at hsame
  exact hsame.imp fun _ _ => matches_of_same

/-- Statements that match do the same with rational numbers. -/
theorem corresponds_of_matches {ss tt : List Statement}
    (h : List.Forall₂ (Matches place) ss tt)
    (hss : ∀ span n, .press span (.push n) ∈ ss → n.WellFormed)
    (htt : ∀ span n, .press span (.push n) ∈ tt → n.WellFormed) :
    Corresponds place Key.Agrees ss tt := by
  induction h with
  | nil => exact .nil
  | @cons s t ss tt hst _ ih =>
    have hrest := ih (fun span n hn => hss span n (List.mem_cons_of_mem _ hn))
      (fun span n hn => htt span n (List.mem_cons_of_mem _ hn))
    cases hst with
    | press hplace hkey =>
      refine .press hplace (Key.agrees_of_same hkey ?_ ?_) hrest
      · rintro n rfl
        exact hss _ n List.mem_cons_self
      · rintro n rfl
        exact htt _ n List.mem_cons_self
    | call hplace name => exact .call name hplace hrest
    | label => exact .skipLeft _ _ _ (.skipRight _ _ _ hrest)

end Statement

namespace Program

variable {p q : Program} {config : Config}

/-- The labels of programs that are the same have the same names and bodies. -/
theorem labels_of_same (h : List.Forall₂ (Statement.Matches place) p.statements q.statements) :
    List.Forall₂ (fun l m => l.name = m.name ∧
      List.Forall₂ (Statement.Matches place) l.body m.body) p.labels q.labels := by
  refine List.rel_filterMap ?_ h
  intro s t hst
  cases hst with
  | press | call => exact .none
  | label name hbody => exact .some ⟨rfl, Statement.forall₂_matches hbody⟩

/-- The program keeps to what is computed exactly: it pushes numbers that are made of digits, and
what it multiplies is not too long. -/
structure StaysExact (p : Program) (config : Config) : Prop where
  digits : ∀ n, p.Pushes n → n.WellFormed
  products : p.ProductsFit config

/-- To the machine over rational numbers, programs that are the same do the same. -/
theorem corresponds_evaluator (h : List.Forall₂ (Statement.Matches place) p.statements q.statements)
    (hp : ∀ n, p.Pushes n → n.WellFormed) (hq : ∀ n, q.Pushes n → n.WellFormed) :
    (RationalMachine.evaluator config p).Corresponds place Key.Agrees
      (RationalMachine.evaluator config q) := by
  refine ⟨fun hplace hkey x => RationalMachine.press_agrees config hplace hkey x, ?_, rfl, rfl⟩
  intro name
  show Option.Rel _ (p.lastBody? name) (q.lastBody? name)
  rw [p.lastBody?_eq_body?_labels, q.lastBody?_eq_body?_labels]
  have hbodies := Label.body?_rel (labels_of_same h) name
  generalize hbody : Label.body? p.labels name = found at hbodies ⊢
  generalize hbody' : Label.body? q.labels name = other at hbodies ⊢
  cases hbodies with
  | none => exact .none
  | some hmatches =>
    refine .some (Statement.corresponds_of_matches hmatches ?_ ?_)
    · intro span n hn
      exact hp n ⟨_, span, .inr (Label.exists_mem_of_body? hbody), hn⟩
    · intro span n hn
      exact hq n ⟨_, span, .inr (Label.exists_mem_of_body? hbody'), hn⟩

end Program

end Statements

section Runs

def Fault.withoutSpan (f : Fault) : Fault := f.relocate fun _ => .origin

/-- Faults that agree up to places agree with their places forgotten. -/
theorem Fault.map_withoutSpan {place : Span → Span} {f g : Option Fault}
    (h : f.map (relocate place) = g.map (relocate place)) :
    f.map withoutSpan = g.map withoutSpan := by
  have hforget : withoutSpan ∘ relocate place = withoutSpan := rfl
  rw [← hforget, ← Option.map_map, h, Option.map_map]

/-- The runs end alike, after as many statements and with equal numbers, however these are
written. -/
structure Run.Agrees (r s : Run) : Prop where
  fault : r.fault.map Fault.withoutSpan = s.fault.map Fault.withoutSpan
  steps : r.steps = s.steps
  registers : List.Forall₂ (fun a b => a.same b = true) r.machine.registers.toList
    s.machine.registers.toList
  memory : ∀ name, Option.Rel (fun a b => a.same b = true) (r.machine.variableValue name)
    (s.machine.variableValue name)

namespace RationalMachine

variable {config : Config} {m n : Machine} {x : RationalMachine}

/-- Machines that represent one state hold equal numbers in their registers. -/
theorem Represents.registers_same (hm : Represents config m x) (hn : Represents config n x) :
    List.Forall₂ (fun a b => a.same b = true) m.registers.toList n.registers.toList :=
  Decimal.forall₂_same_of_map_value hm.digits hn.digits (hm.registers.symm.trans hn.registers)

/-- Machines that represent one state have the same variables, with equal numbers. -/
theorem Represents.memory_same (hm : Represents config m x) (hn : Represents config n x)
    (name : String) :
    Option.Rel (fun a b => a.same b = true) (m.variableValue name) (n.variableValue name) := by
  have hvalue := (hm.memory name).symm.trans (hn.memory name)
  show Option.Rel _ (m.memory.get? name) (n.memory.get? name)
  cases ha : m.memory.get? name with
  | none =>
    rw [ha, Option.map_none, eq_comm, Option.map_eq_none_iff] at hvalue
    rw [hvalue]
    exact .none
  | some a =>
    rw [ha, Option.map_some, eq_comm, Option.map_eq_some_iff] at hvalue
    obtain ⟨b, hb, hvalue⟩ := hvalue
    rw [hb]
    refine .some ((Decimal.same_iff_value_eq ?_ ?_).mpr hvalue.symm)
    · exact hm.stored name a ha
    · exact hn.stored name b hb

end RationalMachine

variable {config : Config} {p q : Program}

/-- Programs that are the same up to places have runs that agree, with faults that are the same up
to places. -/
theorem Machine.run_agrees {place : Span → Span}
    (h : (p.relocate place).same (q.relocate place) = true) (hp : p.StaysExact config)
    (hq : q.StaysExact config) :
    ((fresh config).run p).fault.map (Fault.relocate place) =
        ((fresh config).run q).fault.map (Fault.relocate place) ∧
      Run.Agrees ((fresh config).run p) ((fresh config).run q) := by
  have hmatches : List.Forall₂ (Statement.Matches place) p.statements q.statements :=
    Statement.forall₂_matches h
  have hcorresponds : Statement.Corresponds place Key.Agrees p.statements q.statements :=
    Statement.corresponds_of_matches hmatches
      (fun span n hn => hp.digits n ⟨_, span, .inl rfl, hn⟩)
      (fun span n hn => hq.digits n ⟨_, span, .inl rfl, hn⟩)
  obtain ⟨y, hy, hrun⟩ := Program.exists_represents_run hp.digits hp.products
  obtain ⟨z, hz, hother⟩ := Program.exists_represents_run hq.digits hq.products
  have heval : (RationalMachine.run config p).relocate place =
      (RationalMachine.run config q).relocate place :=
    (Program.corresponds_evaluator hmatches hp.digits hq.digits).eval hcorresponds _ _ _
  -- The ideal machine comes to one state, and both machines represent it.
  rw [hrun, hother] at heval
  simp only [Evaluation.relocate, Evaluation.mk.injEq] at heval
  obtain ⟨rfl, hsteps, hfault⟩ := heval
  exact ⟨hfault, Fault.map_withoutSpan hfault, hsteps, hy.registers_same hz,
    hy.memory_same hz⟩

/-- What can be written down pushes digits only. -/
theorem Program.WellFormed.digits (h : p.WellFormed) {n : Decimal} (hn : p.Pushes n) :
    n.WellFormed := by
  obtain ⟨body, span, rfl | ⟨l, hl, rfl⟩, hn⟩ := hn
  · exact (h _ hn).1
  · obtain ⟨s, hs, hlabel⟩ := List.mem_filterMap.mp hl
    cases s with
    | press | call => cases hlabel
    | label span' name body =>
      cases hlabel
      exact ((h _ hs).2 _ hn).1

end Runs

/-- Programs with the same statements and equal numbers, however written and wherever they stand,
have runs that agree: the same end up to places, the same number of counted statements, and equal
numbers in the registers and in the same variables. If the places are the same as well, so is the
place of the fault. A compiled program and what its listing compiles to are such programs. -/
theorem Machine.run_agrees_of_same (config : Config) :
    (∀ p q : Program, p.StaysExact config → q.StaysExact config →
      let r := (fresh config).run p
      let s := (fresh config).run q
      (p.withoutSpans.same q.withoutSpans = true → r.Agrees s) ∧
        (p.same q = true → r.Agrees s ∧ r.fault = s.fault)) ∧
    ∀ source p, compile source = .ok p → ∃ q, compile p.listing = .ok q ∧
      q.withoutSpans.same p.withoutSpans = true ∧
      (p.ProductsFit config → q.ProductsFit config →
        Run.Agrees ((fresh config).run q) ((fresh config).run p)) := by
  refine ⟨?_, ?_⟩
  · intro p q hp hq r s
    refine ⟨fun hsame => (run_agrees hsame hp hq).2, ?_⟩
    intro hsame
    rw [← p.relocate_id, ← q.relocate_id] at hsame
    obtain ⟨hfault, hagrees⟩ := run_agrees hsame hp hq
    refine ⟨hagrees, ?_⟩
    have hid : Fault.relocate id = id := rfl
    rwa [hid, Option.map_id] at hfault
  · intro source p hcompile
    have hp := wellFormed_of_compile hcompile
    obtain ⟨q, hlisting, hshape⟩ := compile_listing hp
    have hsame : q.withoutSpans.same p.withoutSpans = true := by
      rw [hshape]
      exact p.same_spelledOut
    refine ⟨q, hlisting, hsame, ?_⟩
    intro hproducts hproducts'
    have hq := wellFormed_of_compile hlisting
    exact (run_agrees hsame ⟨fun _ => hq.digits, hproducts'⟩ ⟨fun _ => hp.digits, hproducts⟩).2

/-- Of two numbers that have been pushed, the first is the left operand. -/
theorem Machine.popOperands_push_push (m : Machine) (a b : Decimal) (h : 2 ≤ m.registers.size) :
    ((m.push a).push b).popOperands.1 = a ∧ ((m.push a).push b).popOperands.2.1 = b := by
  have hright : ((m.registers.push a).push b).pop.1 = b := by
    rw [Registers.fst_pop, Registers.get_push _ _ (Registers.size_pos _), if_pos rfl]
  have hleft : ((m.registers.push a).push b).pop.2.pop.1 = a := by
    have hsize : ((m.registers.push a).push b).size = m.registers.size := by
      rw [Registers.size_push, Registers.size_push]
    rw [Registers.fst_pop, Registers.get_pop _ (Registers.size_pos _), hsize, if_neg (by omega),
      Registers.get_push _ _ (by rw [Registers.size_push]; omega), if_neg (by omega),
      Registers.get_push _ _ (by omega), if_pos rfl]
  exact ⟨hleft, hright⟩

/-- The product of two numbers, stored in a variable, at places from `start` on. -/
def Program.product (start : Nat) (a b : Decimal) : Program :=
  ⟨[.press ⟨start, start + 1⟩ (.push a), .press ⟨start + 2, start + 3⟩ (.push b),
    .press ⟨start + 4, start + 5⟩ (.arithmetic .times),
    .press ⟨start + 6, start + 9⟩ (.store "x")]⟩

theorem Program.staysExact_product (start : Nat) {a b : Decimal} (ha : a.WellFormed)
    (hb : b.WellFormed) (hfits : min a.digitCount b.digitCount ≤ Digits.factorLimit) :
    (product start a b).StaysExact .standard := by
  constructor
  · rintro n ⟨body, span, rfl | ⟨l, hl, rfl⟩, hn⟩
    · simp only [product, List.mem_cons, Statement.press.injEq, Key.push.injEq,
        reduceCtorEq, List.not_mem_nil, and_false, or_false] at hn
      rcases hn with ⟨-, rfl⟩ | ⟨-, rfl⟩
      · exact ha
      · exact hb
    · simp [product, labels, Statement.label?] at hl
  · rintro e span h ⟨⟨rest, below, hitems⟩, -⟩
    -- The run pushes twice, and only then it multiplies.
    obtain rfl | ⟨_, hpush, h⟩ := h.eq_or_step
    · cases hitems
    cases hpush
    obtain rfl | ⟨_, hpush, h⟩ := h.eq_or_step
    · cases hitems
    cases hpush
    obtain rfl | ⟨_, htimes, h⟩ := h.eq_or_step
    · obtain ⟨hleft, hright⟩ :=
        (Machine.fresh .standard).clear.popOperands_push_push a b (by decide)
      change min (((Machine.fresh .standard).clear.push a).push b).popOperands.1.digitCount
        (((Machine.fresh .standard).clear.push a).push b).popOperands.2.1.digitCount ≤ _
      rw [hleft, hright]
      exact hfits
    cases htimes
    obtain rfl | ⟨_, hstore, h⟩ := h.eq_or_step
    · cases hitems
    cases hstore
    obtain rfl | ⟨_, hleave, h⟩ := h.eq_or_step
    · cases hitems
    cases hleave
    obtain rfl | ⟨_, hdone, h⟩ := h.eq_or_step
    · cases hitems
    cases hdone

/-- `1.5 4 *` and `01.50 4. *`, at other places. -/
theorem Machine.run_agrees_of_same_product :
    let p := Program.product 0 ⟨false, [1], [5]⟩ ⟨false, [4], []⟩
    let q := Program.product 7 ⟨false, [0, 1], [5, 0]⟩ ⟨false, [4], [0]⟩
    p.withoutSpans.same q.withoutSpans = true ∧ p.StaysExact .standard ∧
      q.StaysExact .standard ∧
      Run.Agrees ((fresh .standard).run p) ((fresh .standard).run q) := by
  intro p q
  have hsame : p.withoutSpans.same q.withoutSpans = true := by decide
  have hp : p.StaysExact .standard :=
    Program.staysExact_product 0 (by decide) (by decide) (by decide)
  have hq : q.StaysExact .standard :=
    Program.staysExact_product 7 (by decide) (by decide) (by decide)
  exact ⟨hsame, hp, hq, ((run_agrees_of_same .standard).1 p q hp hq).1 hsame⟩

end Keystroke
