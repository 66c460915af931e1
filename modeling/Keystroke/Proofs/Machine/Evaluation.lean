import Keystroke.Proofs.Machine.Execution

/-!
# Recursive evaluation

The meaning of a program without frames: a statement list is evaluated from its first statement
to its last, and a call evaluates the whole body of its label, one nesting further in, before the
statements behind it. An `Evaluator` says what keys do to a state, which is left open, so that the
same recursion describes machines and their abstractions.

The step machine agrees with every evaluator whose keys simulate its own. For the proof the
frames of an execution are read as what is left to evaluate: the newest frame at the deepest
nesting, then the one below it, and so on. No step changes the outcome of that.
-/

namespace Keystroke

structure Evaluation (σ : Type) where
  state : σ
  /-- Statements counted, the failing one included. -/
  steps : Nat
  fault : Option Fault

def Evaluation.andThen {σ : Type} (o : Evaluation σ) (rest : σ → Nat → Evaluation σ) :
    Evaluation σ :=
  match o.fault with
  | none => rest o.state o.steps
  | some _ => o

theorem Evaluation.andThen_assoc {σ : Type} (o : Evaluation σ)
    (f g : σ → Nat → Evaluation σ) :
    (o.andThen f).andThen g = o.andThen fun x steps => (f x steps).andThen g := by
  obtain ⟨x, steps, fault⟩ := o
  cases fault <;> rfl

/-- The data that an evaluation depends on. -/
structure Evaluator (σ : Type) where
  press : σ → Span → Key → σ × Option Fault
  /-- The body of a label that can be called. -/
  body? : String → Option (List Statement)
  stepBudget : Option Nat
  callDepth : Nat

namespace Evaluator

variable {σ : Type}

/-- Count one more statement than `steps`, and fail if that is more than the budget. -/
def counted (v : Evaluator σ) (span : Span) (x : σ) (steps : Nat)
    (rest : Evaluation σ) : Evaluation σ :=
  match v.stepBudget with
  | some budget =>
    if budget < steps + 1 then ⟨x, steps + 1, some ⟨.stepLimitExceeded, span, ""⟩⟩ else rest
  | none => rest

/-- Evaluate statements at a nesting of `depth` calls. -/
def eval (v : Evaluator σ) (depth : Nat) : List Statement → σ → Nat → Evaluation σ
  | [], x, steps => ⟨x, steps, none⟩
  | .label _ _ _ :: rest, x, steps => v.eval depth rest x steps
  | .press span key :: rest, x, steps =>
    v.counted span x steps <|
      match v.press x span key with
      | (x, none) => v.eval depth rest x (steps + 1)
      | (x, some fault) => ⟨x, steps + 1, some fault⟩
  | .call span name :: rest, x, steps =>
    v.counted span x steps <|
      match v.body? name with
      | none => ⟨x, steps + 1, some ⟨.undefinedLabel, span, name⟩⟩
      | some body =>
        if depth < v.callDepth then
          (v.eval (depth + 1) body x (steps + 1)).andThen (v.eval depth rest)
        else ⟨x, steps + 1, some ⟨.callStackOverflow, span, name⟩⟩
termination_by statements => (v.callDepth - depth, statements.length)

/-- Evaluate frames, the newest first. Each is nested in as many calls as there are frames
below it. -/
def evalFrames (v : Evaluator σ) : List (List Statement) → σ → Nat → Evaluation σ
  | [], x, steps => ⟨x, steps, none⟩
  | statements :: below, x, steps =>
    (v.eval below.length statements x steps).andThen (v.evalFrames below)

section Equations

variable (v : Evaluator σ) (depth : Nat) (rest : List Statement) (x : σ) (steps : Nat)

@[simp] theorem eval_nil : v.eval depth [] x steps = ⟨x, steps, none⟩ := by
  rw [eval]

@[simp] theorem eval_label (span : Span) (name : String) (body : List Statement) :
    v.eval depth (.label span name body :: rest) x steps = v.eval depth rest x steps := by
  rw [eval]

theorem eval_press (span : Span) (key : Key) :
    v.eval depth (.press span key :: rest) x steps =
      v.counted span x steps (Evaluation.andThen
        ⟨(v.press x span key).1, steps + 1, (v.press x span key).2⟩ (v.eval depth rest)) := by
  rw [eval]
  obtain ⟨y, fault⟩ := v.press x span key
  cases fault <;> rfl

theorem eval_call (span : Span) (name : String) :
    v.eval depth (.call span name :: rest) x steps =
      v.counted span x steps (match v.body? name with
        | none => ⟨x, steps + 1, some ⟨.undefinedLabel, span, name⟩⟩
        | some body =>
          if depth < v.callDepth then
            (v.eval (depth + 1) body x (steps + 1)).andThen (v.eval depth rest)
          else ⟨x, steps + 1, some ⟨.callStackOverflow, span, name⟩⟩) := by
  rw [eval]

end Equations

/-- The evaluator has the budget and the call depth of an execution, and knows its labels. -/
structure Governs (v : Evaluator σ) (labels : List Label) (e : Execution) : Prop where
  body? : ∀ name, v.body? name = Label.body? labels name
  budget : v.stepBudget = e.machine.config.stepBudget
  limit : e.frames.limit = v.callDepth + 1

variable {v : Evaluator σ} {labels : List Label} {e next last : Execution}

theorem Governs.move (hv : v.Governs labels e) (h : e.Move labels next) :
    v.Governs labels next :=
  ⟨hv.body?, by rw [h.config_eq, hv.budget], by rw [h.limit_eq, hv.limit]⟩

theorem Governs.counted_eq (hv : v.Governs labels e) (span : Span) (x : σ)
    (rest : Evaluation σ) :
    v.counted span x e.steps rest =
      if e.machine.config.exceeds (e.steps + 1) then
        ⟨x, e.steps + 1, some ⟨.stepLimitExceeded, span, ""⟩⟩
      else rest := by
  rw [counted, Config.exceeds, hv.budget]
  cases e.machine.config.stepBudget with
  | none => simp
  | some budget => simp

end Evaluator

/-- The next statement presses a key, and the budget allows it. -/
def Execution.Presses (e : Execution) (span : Span) (key : Key) : Prop :=
  (∃ rest below, e.frames.items = (.press span key :: rest) :: below) ∧
    e.machine.config.exceeds (e.steps + 1) = false

/-- Where machine and state are related, the key has the same effect on both: they fail alike and
stay related. -/
def Evaluator.Simulates {σ : Type} (v : Evaluator σ) (R : Machine → σ → Prop) (m : Machine)
    (span : Span) (key : Key) : Prop :=
  ∀ x, R m x →
    (v.press x span key).2 = (m.press span key).2 ∧ R (m.press span key).1 (v.press x span key).1

namespace Evaluator

variable {σ : Type} {v : Evaluator σ} {R : Machine → σ → Prop} {labels : List Label}
variable {e next last : Execution} {fault : Option Fault} {x : σ}

/-- A step changes what is left to evaluate, but not what it comes to. -/
theorem evalFrames_move (hv : v.Governs labels e)
    (hkeys : ∀ span key, e.Presses span key → v.Simulates R e.machine span key)
    (hx : R e.machine x) (h : e.Move labels next) :
    ∃ y, R next.machine y ∧
      v.evalFrames e.frames.items x e.steps = v.evalFrames next.frames.items y next.steps := by
  cases h with
  | leave hitems =>
    refine ⟨x, hx, ?_⟩
    rw [hitems, BoundedStack.items_pop, hitems]
    simp [evalFrames, Evaluation.andThen]
  | skip hitems =>
    refine ⟨x, hx, ?_⟩
    rw [BoundedStack.items_setTop hitems, hitems]
    simp [evalFrames]
  | @press span key rest below machine hitems hbudget hpress =>
    obtain ⟨hfault, hnext⟩ := hkeys span key ⟨⟨rest, below, hitems⟩, hbudget⟩ x hx
    rw [hpress] at hfault hnext
    refine ⟨_, hnext, ?_⟩
    rw [BoundedStack.items_setTop hitems, hitems, evalFrames, eval_press, hv.counted_eq, hbudget,
      hfault]
    rfl
  | @call span name rest body below frames hitems hbudget hbody hpush =>
    obtain ⟨hroom, -, hframes⟩ := BoundedStack.push_eq_ok hpush
    rw [BoundedStack.items_setTop hitems] at hroom hframes
    rw [BoundedStack.limit_setTop, hv.limit] at hroom
    have hdepth : below.length < v.callDepth := by simpa using hroom
    refine ⟨x, hx, ?_⟩
    rw [hframes, hitems, evalFrames, eval_call, hv.counted_eq, hbudget, hv.body?, hbody]
    simp only [Bool.false_eq_true, if_false, if_pos hdepth, Evaluation.andThen_assoc]
    rfl

/-- A step that ends the run ends the evaluation in the same way. -/
theorem evalFrames_stop (hv : v.Governs labels e)
    (hkeys : ∀ span key, e.Presses span key → v.Simulates R e.machine span key)
    (hx : R e.machine x) (h : e.Stop labels fault last) :
    ∃ y, R last.machine y ∧
      v.evalFrames e.frames.items x e.steps = ⟨y, last.steps, fault⟩ := by
  cases h with
  | done hitems => exact ⟨x, hx, by rw [hitems, evalFrames]⟩
  | @budget s rest below hitems hlabel hbudget =>
    refine ⟨x, hx, ?_⟩
    rw [hitems, evalFrames]
    cases s with
    | label => simp [Statement.isLabel] at hlabel
    | press span key =>
      rw [eval_press, hv.counted_eq, hbudget]
      rfl
    | call span name =>
      rw [eval_call, hv.counted_eq, hbudget]
      rfl
  | @press span key rest below machine fault hitems hbudget hpress =>
    obtain ⟨hfault, hlast⟩ := hkeys span key ⟨⟨rest, below, hitems⟩, hbudget⟩ x hx
    rw [hpress] at hfault hlast
    refine ⟨_, hlast, ?_⟩
    rw [hitems, evalFrames, eval_press, hv.counted_eq, hbudget, hfault]
    rfl
  | undefined hitems hbudget hbody =>
    refine ⟨x, hx, ?_⟩
    rw [hitems, evalFrames, eval_call, hv.counted_eq, hbudget, hv.body?, hbody]
    rfl
  | @overflow span name rest body below hitems hbudget hbody hfull =>
    have hdepth : ¬ below.length < v.callDepth := by
      rw [hv.limit] at hfull
      omega
    refine ⟨x, hx, ?_⟩
    rw [hitems, evalFrames, eval_call, hv.counted_eq, hbudget, hv.body?, hbody]
    simp only [Bool.false_eq_true, if_false, if_neg hdepth]
    rfl

/-- A whole run simulates the evaluation of its frames, if each key that it presses does. -/
theorem drive_simulates (hv : v.Governs labels e)
    (hkeys : ∀ f, Execution.Reaches labels e f → ∀ span key, f.Presses span key →
      v.Simulates R f.machine span key)
    (hx : R e.machine x) :
    ∃ y, R (e.drive labels).machine y ∧
      v.evalFrames e.frames.items x e.steps =
        ⟨y, (e.drive labels).steps, (e.drive labels).fault⟩ := by
  induction e using Execution.drive.induct labels generalizing x with
  | case1 e next hstep ih =>
    have hmove := Execution.move_of_step hstep
    obtain ⟨y, hy, heval⟩ := evalFrames_move hv (hkeys e (.refl labels e)) hx hmove
    rw [Execution.drive_of_moved hstep, heval]
    exact ih (hv.move hmove) (fun f hf => hkeys f (hf.head hstep)) hy
  | case2 e fault last hstep =>
    have hstop := Execution.stop_of_step hstep
    obtain ⟨y, hy, heval⟩ := evalFrames_stop hv (hkeys e (.refl labels e)) hx hstop
    rw [Execution.drive_of_stopped hstep, heval]
    cases fault with
    | none => exact ⟨y, hy, rfl⟩
    | some fault => exact ⟨y, hy, rfl⟩

theorem evalFrames_single (v : Evaluator σ) (statements : List Statement) (x : σ)
    (steps : Nat) : v.evalFrames [statements] x steps = v.eval 0 statements x steps := by
  rw [evalFrames, List.length_nil]
  obtain ⟨y, n, fault⟩ := v.eval 0 statements x steps
  cases fault with
  | none => rw [Evaluation.andThen, evalFrames]
  | some fault => rfl

end Evaluator

namespace Program

/-- The body of the last definition of a label at the top level. -/
def lastBody? (p : Program) (name : String) : Option (List Statement) :=
  p.statements.reverse.findSome? fun
    | .label _ other body => if other = name then some body else none
    | .press _ _ | .call _ _ => none

theorem lastBody?_eq_body?_labels (p : Program) (name : String) :
    p.lastBody? name = Label.body? p.labels name := by
  rw [lastBody?, labels]
  induction p.statements with
  | nil => rfl
  | cons s rest ih =>
    rw [List.reverse_cons, List.findSome?_append, ih]
    cases s with
    | press span key => simp [List.filterMap_cons, Statement.label?]
    | call span other => simp [List.filterMap_cons, Statement.label?]
    | label span other body =>
      simp only [List.filterMap_cons, Statement.label?, Label.body?]
      cases Label.body? (rest.filterMap Statement.label?) name <;> simp

end Program

namespace Evaluator

variable {σ : Type} {v : Evaluator σ} {m : Machine} {p : Program}

/-- An evaluator governs a run from its beginning if it knows the labels of the program and has
the budget of the machine and its room for frames. One of the frames is that of the program. -/
theorem governs_start (hbody : v.body? = p.lastBody?)
    (hbudget : v.stepBudget = m.config.stepBudget)
    (hroom : v.callDepth = m.config.frameLimit - 1) :
    v.Governs p.labels (Execution.start m.clear p) := by
  refine ⟨fun name => by rw [hbody, p.lastBody?_eq_body?_labels], hbudget, ?_⟩
  have hpos := m.config.frameLimit_pos
  change m.config.frameLimit = v.callDepth + 1
  omega

/-- A run simulates the evaluation of its program, if each key that it presses does. -/
theorem run_simulates {R : Machine → σ → Prop} {x : σ}
    (hv : v.Governs p.labels (Execution.start m.clear p))
    (hkeys : ∀ e, Execution.Reaches p.labels (Execution.start m.clear p) e → ∀ span key,
      e.Presses span key → v.Simulates R e.machine span key)
    (hx : R m.clear x) :
    ∃ y, R (m.run p).machine y ∧
      v.eval 0 p.statements x 0 = ⟨y, (m.run p).steps, (m.run p).fault⟩ := by
  rw [← evalFrames_single]
  exact drive_simulates hv hkeys hx

end Evaluator

/-- What a run leaves behind, apart from its events. -/
def Run.outcome (r : Run) : Evaluation Machine := ⟨r.machine, r.steps, r.fault⟩

namespace Machine

def evaluator (m : Machine) (p : Program) : Evaluator Machine where
  press := Machine.press
  body? := p.lastBody?
  stepBudget := m.config.stepBudget
  callDepth := m.config.callDepth

/-- The evaluator of a program with the keys and settings of a machine, where calls nest as deep as
there is room for frames above that of the program. -/
def framedEvaluator (m : Machine) (p : Program) : Evaluator Machine :=
  { m.evaluator p with callDepth := m.config.frameLimit - 1 }

/-- A run comes to what recursive evaluation comes to, whatever the call depth is. -/
theorem outcome_run_eq_framed (m : Machine) (p : Program) :
    (m.run p).outcome = (m.framedEvaluator p).eval 0 p.statements m.clear 0 := by
  have hkeys : ∀ span key (m' : Machine), (m.framedEvaluator p).Simulates Eq m' span key := by
    rintro span key m' _ rfl
    exact ⟨rfl, rfl⟩
  obtain ⟨y, rfl, heval⟩ := Evaluator.run_simulates (Evaluator.governs_start rfl rfl rfl)
    (fun e _ span key _ => hkeys span key e.machine) rfl
  exact heval.symm

theorem framedEvaluator_eq {m : Machine} (p : Program)
    (hdepth : m.config.callDepth < Config.maxFrames) : m.framedEvaluator p = m.evaluator p := by
  rw [framedEvaluator, Config.frameLimit_eq hdepth]
  rfl

/-- A run with its stack of frames comes to what recursive evaluation comes to: the same fault or
none, the same registers and memory, and the same number of counted statements. The limit on
frames counts the program itself, so the greatest 64-bit word is left out as a call depth. -/
theorem outcome_run_eq_eval (m : Machine) (p : Program)
    (hdepth : m.config.callDepth < Config.maxFrames) :
    (m.run p).outcome = (m.evaluator p).eval 0 p.statements m.clear 0 := by
  rw [outcome_run_eq_framed, framedEvaluator_eq p hdepth]

/-- A label that is defined twice and calls itself, with room for two calls. -/
theorem outcome_run_eq_eval_recursive :
    let m := fresh (Config.standard.withCallDepth 2)
    let p : Program := ⟨[.call ⟨0, 3⟩ "f", .label ⟨6, 9⟩ "f" [],
      .label ⟨12, 15⟩ "f" [.press ⟨18, 19⟩ (.push .one), .call ⟨20, 23⟩ "f"]]⟩
    m.config.callDepth < Config.maxFrames ∧
      (m.run p).outcome = (m.evaluator p).eval 0 p.statements m.clear 0 :=
  ⟨by decide, outcome_run_eq_eval _ _ (by decide)⟩

end Machine

end Keystroke
