import Keystroke.Proofs.Machine.Failure
import Keystroke.Proofs.Machine.Resolution
import Mathlib.Logic.Relation

/-!
# The call graph

Whether calls can fail is decided by the text of a program. Its call graph has a site for the
program itself and one for each name, and an edge from a site to every name that is called there.
What is called is the last definition of the name at the top level, so definitions that it replaces
and labels inside labels are not sites, and calls in them are not edges.

A run that succeeds has walked through all that can be reached: it comes to the end of every body
that it begins, so each call on the way was made and came back in turn. Conversely, the frames of a
run stand for a chain of calls in the graph, and a step can add to the chain only what the graph
allows.
-/

namespace Keystroke

/-- Where statements stand: in the program itself or in the body behind a name. -/
inductive Site where
  | top
  | label (name : String)

namespace Program

/-- The statements of a site. A name without a definition has none. -/
def bodyAt (p : Program) : Site → List Statement
  | .top => Statement.withoutLabels p.statements
  | .label name => (p.lastBody? name).getD []

/-- The site has statements of its own to execute: a label is defined at the top level. -/
def IsDefined (p : Program) : Site → Prop
  | .top => True
  | .label name => (p.lastBody? name).isSome = true

/-- A call at the first site leads to the second one. -/
def Calls (p : Program) (site : Site) : Site → Prop
  | .top => False
  | .label name => ∃ span, .call span name ∈ p.bodyAt site

/-- A chain of `n` nested calls leads from the program to a site. -/
inductive Nests (p : Program) : Nat → Site → Prop where
  | top : Nests p 0 .top
  | call {n : Nat} {site callee : Site} (hsite : Nests p n site) (hcall : p.Calls site callee) :
      Nests p (n + 1) callee

/-- Every label that can be reached is defined, no site that can be reached calls itself, be it
through others, and chains of nested calls have at most `depth` calls. -/
structure CallsNestWithin (p : Program) (depth : Nat) : Prop where
  defined : ∀ n site, p.Nests n site → p.IsDefined site
  acyclic : ∀ n site, p.Nests n site → ¬ Relation.TransGen p.Calls site site
  bounded : ∀ n site, p.Nests n site → n ≤ depth

end Program

namespace Evaluation

variable {σ : Type} {o : Evaluation σ} {rest : σ → Nat → Evaluation σ}

theorem fault_andThen_eq_none (h : (o.andThen rest).fault = none) :
    o.fault = none ∧ (rest o.state o.steps).fault = none := by
  unfold andThen at h
  split at h
  · next hnone => exact ⟨hnone, h⟩
  · next hsome => simp [hsome] at h

end Evaluation

namespace Evaluator

variable {σ : Type} {v : Evaluator σ} {depth steps : Nat} {x : σ} {ss : List Statement}

theorem fault_counted_eq_none {span : Span} {o : Evaluation σ}
    (h : (v.counted span x steps o).fault = none) : o.fault = none := by
  unfold counted at h
  split at h
  · split at h
    · cases h
    · exact h
  · exact h

/-- Labels are passed over. -/
theorem eval_withoutLabels (v : Evaluator σ) (depth : Nat) (ss : List Statement) (x : σ)
    (steps : Nat) :
    v.eval depth (Statement.withoutLabels ss) x steps = v.eval depth ss x steps := by
  induction ss generalizing x steps with
  | nil => rfl
  | cons s rest ih =>
    have hrest : v.eval depth (Statement.withoutLabels rest) = v.eval depth rest := by
      funext y n
      exact ih y n
    cases s with
    | label span name body => simpa using ih x steps
    | press span key =>
      change v.eval depth (.press span key :: Statement.withoutLabels rest) x steps = _
      rw [eval_press, eval_press, hrest]
    | call span name =>
      change v.eval depth (.call span name :: Statement.withoutLabels rest) x steps = _
      rw [eval_call, eval_call, hrest]

/-- An evaluation that succeeds has made each call of its statements, whose label is defined and
has room, and the body of the label has been evaluated with success. -/
theorem exists_eval_of_call {span : Span} {name : String}
    (h : (v.eval depth ss x steps).fault = none) (hcall : .call span name ∈ ss) :
    ∃ body y n, v.body? name = some body ∧ depth < v.callDepth ∧
      (v.eval (depth + 1) body y n).fault = none := by
  -- The call may stand anywhere, so the induction is on the statements, from any state on.
  induction ss generalizing x steps with
  | nil => cases hcall
  | cons s rest ih =>
    cases s with
    | label other otherName body =>
      rw [eval_label] at h
      exact ih h (by simpa using hcall)
    | press other key =>
      rw [eval_press] at h
      obtain ⟨-, hrest⟩ := Evaluation.fault_andThen_eq_none (fault_counted_eq_none h)
      exact ih hrest (by simpa using hcall)
    | call other callee =>
      rw [eval_call] at h
      have hcalled := fault_counted_eq_none h
      split at hcalled
      · cases hcalled
      · next body hbody =>
        split at hcalled
        · next hroom =>
          obtain ⟨hmade, hrest⟩ := Evaluation.fault_andThen_eq_none hcalled
          obtain hfirst | hlater := List.mem_cons.mp hcall
          · cases hfirst
            exact ⟨body, x, steps + 1, hbody, hroom, hmade⟩
          · exact ih hrest hlater
        · cases hcalled

/-- Some evaluation of the statements of a site, nested in `depth` calls, succeeds. -/
def SucceedsAt (v : Evaluator σ) (p : Program) (depth : Nat) (site : Site) : Prop :=
  ∃ x steps, (v.eval depth (p.bodyAt site) x steps).fault = none

variable {p : Program} {site callee : Site}

/-- Success at a site goes along with success at what it calls, one nesting further in. -/
theorem SucceedsAt.call (h : v.SucceedsAt p depth site) (hbody : v.body? = p.lastBody?)
    (hcall : p.Calls site callee) :
    p.IsDefined callee ∧ depth + 1 ≤ v.callDepth ∧ v.SucceedsAt p (depth + 1) callee := by
  obtain ⟨x, steps, hfault⟩ := h
  cases callee with
  | top => exact hcall.elim
  | label name =>
    obtain ⟨span, hmem⟩ := hcall
    obtain ⟨body, y, n, hname, hroom, hmade⟩ := exists_eval_of_call hfault hmem
    rw [hbody] at hname
    refine ⟨Option.isSome_of_eq_some hname, hroom, y, n, ?_⟩
    rwa [Program.bodyAt, hname]

/-- A program that succeeds has succeeded at all sites that it reaches. -/
theorem SucceedsAt.nests {n : Nat} (h : v.SucceedsAt p 0 .top) (hbody : v.body? = p.lastBody?)
    (hn : p.Nests n site) : p.IsDefined site ∧ n ≤ v.callDepth ∧ v.SucceedsAt p n site := by
  induction hn with
  | top => exact ⟨trivial, Nat.zero_le _, h⟩
  | call _ hcall ih => exact ih.2.2.call hbody hcall

end Evaluator

namespace Program

variable {p : Program} {n depth : Nat} {site callee : Site}

/-- What a site calls through others is nested deeper. -/
theorem Nests.exists_of_transGen (h : p.Nests n site)
    (hcalls : Relation.TransGen p.Calls site callee) :
    ∃ more, n < more ∧ p.Nests more callee := by
  induction hcalls with
  | single hcall => exact ⟨n + 1, Nat.lt_succ_self n, h.call hcall⟩
  | tail _ hcall ih =>
    obtain ⟨more, hmore, hnests⟩ := ih
    exact ⟨more + 1, Nat.lt_succ_of_lt hmore, hnests.call hcall⟩

/-- Where chains of calls are bounded, no site that can be reached is on a cycle: going round it
once more would make a longer chain. -/
theorem not_transGen_of_bounded (hbound : ∀ n site, p.Nests n site → n ≤ depth)
    (h : p.Nests n site) : ¬ Relation.TransGen p.Calls site site := by
  intro hcycle
  -- Each round uses up some of the room that chains have.
  induction hroom : depth - n using Nat.strongRecOn generalizing n with
  | ind room ih =>
    obtain ⟨more, hmore, hnests⟩ := h.exists_of_transGen hcycle
    have hfits := hbound more site hnests
    exact ih (depth - more) (by omega) hnests rfl

/-- Each frame is what is left of a site that as many nested calls lead to as there are frames
below it. -/
def Nested (p : Program) : List (List Statement) → Prop
  | [] => True
  | rest :: below =>
    (∃ site, p.Nests below.length site ∧
      ∀ span name, .call span name ∈ rest → p.Calls site (.label name)) ∧ p.Nested below

/-- Frames stay nested when the newest one loses its first statement. -/
theorem Nested.tail {s : Statement} {rest : List Statement} {below : List (List Statement)}
    (h : p.Nested ((s :: rest) :: below)) : p.Nested (rest :: below) := by
  obtain ⟨⟨site, hsite, hcalls⟩, hbelow⟩ := h
  refine ⟨⟨site, hsite, ?_⟩, hbelow⟩
  intro span name hmem
  exact hcalls span name (List.mem_cons_of_mem s hmem)

/-- A call that is next in the newest frame goes one nesting further in. -/
theorem Nested.nests {span : Span} {name : String} {rest : List Statement}
    {below : List (List Statement)} (h : p.Nested ((.call span name :: rest) :: below)) :
    p.Nests (below.length + 1) (.label name) := by
  obtain ⟨⟨site, hsite, hcalls⟩, -⟩ := h
  exact hsite.call (hcalls span name List.mem_cons_self)

end Program

namespace Execution

variable {p : Program} {e next last : Execution} {depth : Nat}

theorem nested_start (m : Machine) (p : Program) : p.Nested (start m p).frames.items := by
  refine ⟨⟨.top, .top, ?_⟩, trivial⟩
  intro span name hmem
  exact ⟨span, List.mem_filter.mpr ⟨hmem, rfl⟩⟩

/-- Frames stay nested: a call opens a frame for the body that its edge leads to. -/
theorem Move.nested (h : Move p.labels e next) (he : p.Nested e.frames.items) :
    p.Nested next.frames.items := by
  cases h with
  | leave hitems =>
    rw [hitems] at he
    rw [BoundedStack.items_pop, hitems]
    exact he.2
  | skip hitems | press hitems =>
    rw [hitems] at he
    rw [BoundedStack.items_setTop hitems]
    exact he.tail
  | @call span name rest body below frames hitems _ hbody hpush =>
    obtain ⟨-, -, hframes⟩ := BoundedStack.push_eq_ok hpush
    rw [hitems] at he
    rw [hframes, BoundedStack.items_setTop hitems]
    refine ⟨⟨.label name, he.nests, ?_⟩, he.tail⟩
    intro other callee hmem
    rw [← p.lastBody?_eq_body?_labels] at hbody
    exact ⟨other, by rwa [Program.bodyAt, hbody]⟩

theorem Reaches.nested {m : Machine} (h : Reaches p.labels (start m p) e) :
    p.Nested e.frames.items :=
  h.preserves (P := fun e => p.Nested e.frames.items) (fun _ _ he hmove => hmove.nested he)
    (nested_start m p)

/-- Nested frames do not stop at a call that the graph allows. -/
theorem Stop.kind_ne {fault : Fault} (h : Stop p.labels e (some fault) last)
    (he : p.Nested e.frames.items) (hp : p.CallsNestWithin depth)
    (hroom : depth < e.frames.limit) :
    fault.kind ≠ .undefinedLabel ∧ fault.kind ≠ .callStackOverflow := by
  cases h with
  | budget => exact ⟨nofun, nofun⟩
  | press _ _ hpress =>
    -- Keys have other faults.
    cases Machine.fails_of_press hpress <;> exact ⟨nofun, nofun⟩
  | undefined hitems _ hbody =>
    rw [hitems] at he
    have hdefined := hp.defined _ _ he.nests
    rw [Program.IsDefined, p.lastBody?_eq_body?_labels, hbody] at hdefined
    cases hdefined
  | overflow hitems _ _ hfull =>
    rw [hitems] at he
    have hfits := hp.bounded _ _ he.nests
    omega

end Execution

namespace Machine

variable {m : Machine} {p : Program} {fault : Fault}

/-- A run that succeeds has made every call that can be reached. -/
theorem callsNestWithin_of_run (hdepth : m.config.callDepth < Config.maxFrames)
    (h : (m.run p).fault = none) : p.CallsNestWithin m.config.callDepth := by
  have htop : (m.evaluator p).SucceedsAt p 0 .top := by
    refine ⟨m.clear, 0, ?_⟩
    rw [Program.bodyAt, Evaluator.eval_withoutLabels, ← framedEvaluator_eq p hdepth,
      ← outcome_run_eq_framed]
    exact h
  have hnests : ∀ n site, p.Nests n site → p.IsDefined site ∧ n ≤ m.config.callDepth := by
    intro n site hn
    obtain ⟨hdefined, hfits, -⟩ := htop.nests rfl hn
    exact ⟨hdefined, hfits⟩
  refine ⟨fun n site hn => (hnests n site hn).1, ?_, fun n site hn => (hnests n site hn).2⟩
  intro n site hn
  exact Program.not_transGen_of_bounded (fun n site hn => (hnests n site hn).2) hn

/-- Where the graph allows all calls, a run has other faults, if any. -/
theorem kind_ne_of_callsNestWithin (hdepth : m.config.callDepth < Config.maxFrames)
    (hp : p.CallsNestWithin m.config.callDepth) (h : (m.run p).fault = some fault) :
    fault.kind ≠ .undefinedLabel ∧ fault.kind ≠ .callStackOverflow := by
  obtain ⟨e, last, hreaches, hstop, -⟩ := exists_stop_of_run h
  have hroom : m.config.callDepth < e.frames.limit := by
    rw [hreaches.limit_eq]
    exact Nat.lt_of_lt_of_eq (Nat.lt_succ_self _) (Config.frameLimit_eq hdepth).symm
  exact hstop.kind_ne hreaches.nested hp hroom

/-- The call graph decides whether calls fail. If a run succeeds with some call depth, then every
label that can be reached from the program is defined, what can be reached has no cycle, and no
chain of nested calls is longer than the call depth. Conversely, if all this holds, then no run with
this call depth ends at an undefined label or for want of room for a call, whatever its budget, its
digits of quotients and its registers are. -/
theorem run_calls_decided_by_graph (p : Program) (depth : Nat)
    (hdepth : depth < Config.maxFrames) :
    (∀ m : Machine, m.config.callDepth = depth → (m.run p).fault = none →
        p.CallsNestWithin depth) ∧
      (p.CallsNestWithin depth → ∀ m : Machine, m.config.callDepth = depth →
        ∀ fault, (m.run p).fault = some fault →
          fault.kind ≠ .undefinedLabel ∧ fault.kind ≠ .callStackOverflow) := by
  constructor
  · rintro m rfl h
    exact callsNestWithin_of_run hdepth h
  · rintro hp m rfl fault h
    exact kind_ne_of_callsNestWithin hdepth hp h

/-- Two nested calls with room for just two. The first definition of `g`, the label inside `f` and
the label that calls itself do not count. A run with a budget that ends inside `g` is cut off there,
and not for its calls. -/
theorem run_calls_decided_by_graph_replaced :
    let p : Program := ⟨[.call ⟨0, 3⟩ "f", .label ⟨6, 9⟩ "g" [.call ⟨12, 15⟩ "missing"],
      .label ⟨28, 31⟩ "f" [.press ⟨34, 35⟩ (.push .one), .label ⟨36, 39⟩ "h" [.call ⟨42, 45⟩ "f"],
        .call ⟨52, 55⟩ "g"],
      .label ⟨62, 65⟩ "g" [.press ⟨68, 69⟩ (.push .one), .press ⟨70, 71⟩ (.arithmetic .plus)],
      .label ⟨76, 79⟩ "k" [.call ⟨82, 85⟩ "k"]]⟩
    let m := fresh (Config.standard.withCallDepth 2)
    let n := fresh ((Config.standard.withCallDepth 2).withStepBudget (some 3))
    2 < Config.maxFrames ∧ (m.run p).fault = none ∧ p.CallsNestWithin 2 ∧
      (n.run p).fault = some ⟨.stepLimitExceeded, ⟨68, 69⟩, ""⟩ ∧
      ∀ fault, (n.run p).fault = some fault →
        fault.kind ≠ .undefinedLabel ∧ fault.kind ≠ .callStackOverflow := by
  intro p m n
  obtain ⟨hsuccess, hgraph⟩ := run_calls_decided_by_graph p 2 (by decide)
  have hm : (m.run p).fault = none := by decide +kernel
  have hp : p.CallsNestWithin 2 := hsuccess m rfl hm
  exact ⟨by decide, hm, hp, by decide +kernel, hgraph hp n rfl⟩

end Machine

end Keystroke
