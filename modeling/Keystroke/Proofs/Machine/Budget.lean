import Keystroke.Proofs.Machine.Counting

/-!
# Budgets

A budget of `k` statements cuts a run off in front of its statement `k + 1` and does nothing else.
As long as the budget lasts, a machine with a budget takes the same steps as one without, and they
differ in nothing but this setting. So the machine that is left behind has performed the first `k`
statements of the unlimited run, and one more statement in the budget is one more statement
performed.
-/

namespace Keystroke

def Machine.withStepBudget (m : Machine) (budget : Option Nat) : Machine :=
  { m with config := m.config.withStepBudget budget }

def Run.withStepBudget (r : Run) (budget : Option Nat) : Run :=
  { r with machine := r.machine.withStepBudget budget }

namespace Execution

def withStepBudget (e : Execution) (budget : Option Nat) : Execution :=
  { e with machine := e.machine.withStepBudget budget }

@[simp] theorem steps_withStepBudget (e : Execution) (budget : Option Nat) :
    (e.withStepBudget budget).steps = e.steps := rfl

@[simp] theorem config_withStepBudget (e : Execution) (budget : Option Nat) :
    (e.withStepBudget budget).machine.config = e.machine.config.withStepBudget budget := rfl

end Execution

def Transition.withStepBudget (t : Transition) (budget : Option Nat) : Transition :=
  match t with
  | .moved next => .moved (next.withStepBudget budget)
  | .stopped fault last => .stopped fault (last.withStepBudget budget)

/-- Keys do not look at the budget. -/
theorem Machine.press_withStepBudget (m : Machine) (budget : Option Nat) (span : Span)
    (key : Key) :
    (m.withStepBudget budget).press span key =
      ((m.press span key).1.withStepBudget budget, (m.press span key).2) := by
  refine (m.press_withConfig (m.config.withStepBudget budget) rfl span key).trans ?_
  rw [withStepBudget, config_press]

namespace Execution

variable (labels : List Label) (e : Execution) (budget : Option Nat)

theorem enter_withStepBudget (span : Span) (name : String) (body : List Statement) :
    (e.withStepBudget budget).enter span name body =
      (e.enter span name body).withStepBudget budget := by
  simp only [enter, withStepBudget]
  cases e.frames.push body <;> rfl

/-- Executing a statement that has been counted does not look at the budget. -/
theorem act_withStepBudget (s : Statement) :
    (e.withStepBudget budget).act labels s = (e.act labels s).withStepBudget budget := by
  cases s with
  | label span name body => rfl
  | press span key =>
    simp only [act, withStepBudget, Machine.press_withStepBudget]
    obtain ⟨machine, _ | fault⟩ := e.machine.press span key <;> rfl
  | call span name =>
    simp only [act]
    cases Label.body? labels name with
    | none => rfl
    | some body =>
      exact (e.report (.call name e.frames.size)).enter_withStepBudget budget span name body

/-- Whether a statement is attempted depends on the budget, what it does does not. -/
theorem attempt_withStepBudget (s : Statement)
    (h : (e.machine.config.withStepBudget budget).exceeds e.steps =
      e.machine.config.exceeds e.steps) :
    (e.withStepBudget budget).attempt labels s = (e.attempt labels s).withStepBudget budget := by
  simp only [attempt, config_withStepBudget, steps_withStepBudget, h]
  split
  · rfl
  · exact (e.report (.step s e.frames.size)).act_withStepBudget labels budget s

variable {labels e budget}

/-- A step does not depend on the budget, if the budget has the same to say on the statement that
it counts. -/
theorem step_withStepBudget
    (h : e.pending?.isSome = true →
      (e.machine.config.withStepBudget budget).exceeds (e.steps + 1) =
        e.machine.config.exceeds (e.steps + 1)) :
    (e.withStepBudget budget).step labels = (e.step labels).withStepBudget budget := by
  cases hitems : e.frames.items with
  | nil =>
    rw [step_done hitems]
    exact step_done hitems
  | cons top below =>
    cases top with
    | nil =>
      rw [step_leave hitems]
      exact step_leave hitems
    | cons s rest =>
      have hitems' : (e.withStepBudget budget).frames.items = (s :: rest) :: below := hitems
      rw [step_reach hitems, step_reach hitems']
      unfold reach
      split
      · rfl
      · next hlabel =>
        have hpending := pending?_of_not_isLabel hitems (Bool.eq_false_iff.mpr hlabel)
        exact attempt_withStepBudget labels (count { e with frames := e.frames.setTop rest })
          budget s (h (by rw [hpending]; rfl))

theorem close_withStepBudget (e : Execution) (fault : Option Fault) (budget : Option Nat) :
    (e.withStepBudget budget).close fault = (e.close fault).withStepBudget budget := by
  cases fault <;> rfl

/-- A budget of `k` statements cuts the run from here on at the right place: the machine performs
what the run counts up to `k`; if there is more, the next statement is where the run is cut off;
and if there is no more, the budget makes no difference. -/
structure CutsAt (labels : List Label) (k : Nat) (e : Execution) : Prop where
  machine_eq : ((e.withStepBudget (some k)).drive labels).machine =
    (e.machine.performAll ((e.counted labels).take (k - e.steps))).withStepBudget (some k)
  fault_eq : ∀ s depth, (e.counted labels)[k - e.steps]? = some (s, depth) →
    ((e.withStepBudget (some k)).drive labels).fault = some ⟨.stepLimitExceeded, s.span, ""⟩
  complete : (e.counted labels).length ≤ k - e.steps →
    (e.withStepBudget (some k)).drive labels = (e.drive labels).withStepBudget (some k)

variable {k : Nat}

/-- A statement that goes beyond the budget is counted and nothing else happens. -/
theorem step_beyondBudget (labels : List Label) {s : Statement} {depth : Nat}
    (hpending : e.pending? = some (s, depth)) (hsteps : e.steps = k) :
    ∃ last, (e.withStepBudget (some k)).step labels =
        .stopped (some ⟨.stepLimitExceeded, s.span, ""⟩) last ∧
      last.machine = e.machine.withStepBudget (some k) := by
  obtain ⟨hlabel, rest, below, hitems⟩ := pending?_eq_some hpending
  have hitems' : (e.withStepBudget (some k)).frames.items = (s :: rest) :: below := hitems
  have hexceeds : (e.machine.config.withStepBudget (some k)).exceeds (e.steps + 1) = true := by
    simp [Config.exceeds, Config.withStepBudget, hsteps]
  rw [step_reach hitems']
  simp only [reach, hlabel, Bool.false_eq_true, if_false, attempt, count, config_withStepBudget,
    steps_withStepBudget, hexceeds, if_true]
  exact ⟨_, rfl, rfl⟩

/-- Where the budget does not last for the next step, a statement is pending and the run is cut
off there. -/
theorem cutsAt_of_exhausted (labels : List Label) (hsteps : e.steps ≤ k)
    (hexhausted : ¬ e.steps + e.pending?.toList.length ≤ k) : e.CutsAt labels k := by
  cases hpending : e.pending? with
  | none =>
    rw [hpending] at hexhausted
    exact absurd hsteps hexhausted
  | some x =>
    obtain ⟨s, depth⟩ := x
    have hequal : e.steps = k := by
      rw [hpending, Option.toList_some, List.length_singleton] at hexhausted
      omega
    obtain ⟨last, hstep, hmachine⟩ := step_beyondBudget labels hpending hequal
    obtain ⟨later, hcounted⟩ := counted_of_pending? labels hpending
    have hdrive := drive_of_stopped hstep
    have hleft : k - e.steps = 0 := by omega
    refine ⟨?_, ?_, ?_⟩
    · rw [hdrive, machine_close, hmachine, hleft]
      rfl
    · intro s' depth' h
      rw [hcounted, hleft] at h
      cases h
      rw [hdrive]
      rfl
    · intro h
      rw [hcounted, hleft] at h
      cases h

/-- While the budget lasts, it makes no difference to a step. -/
theorem step_withinBudget (hnone : e.machine.config.stepBudget = none)
    (hlasts : e.steps + e.pending?.toList.length ≤ k) :
    (e.withStepBudget (some k)).step labels = (e.step labels).withStepBudget (some k) := by
  refine step_withStepBudget fun hsome => ?_
  obtain ⟨x, hpending⟩ := Option.isSome_iff_exists.mp hsome
  rw [hpending] at hlasts
  have hallowed : e.steps + 1 ≤ k := hlasts
  simp only [Config.exceeds, Config.withStepBudget, hnone]
  exact decide_eq_false (Nat.not_lt.mpr hallowed)

/-- A budget cuts every run that has none at the right place. -/
theorem cutsAt (labels : List Label) (hnone : e.machine.config.stepBudget = none)
    (hsteps : e.steps ≤ k) : e.CutsAt labels k := by
  induction e using drive.induct labels with
  | case1 e next hstep ih =>
    by_cases hlasts : e.steps + e.pending?.toList.length ≤ k
    · have hmove := move_of_step hstep
      obtain ⟨hnext, hmachine, -⟩ := hmove.counts
      have hih := ih (by rw [hmove.config_eq, hnone]) (hnext ▸ hlasts)
      have hlimited : (e.withStepBudget (some k)).step labels =
          .moved (next.withStepBudget (some k)) := by
        rw [step_withinBudget hnone hlasts, hstep]
        rfl
      have hleft : k - e.steps = e.pending?.toList.length + (k - next.steps) := by omega
      have hcounted := counted_of_moved hstep
      refine ⟨?_, ?_, ?_⟩
      · rw [drive_of_moved hlimited, hih.machine_eq, hcounted, hleft, List.take_length_add_append,
          Machine.performAll_append, hmachine]
      · intro s depth h
        rw [hcounted, hleft, List.getElem?_append_right (Nat.le_add_right _ _),
          Nat.add_sub_cancel_left] at h
        rw [drive_of_moved hlimited]
        exact hih.fault_eq s depth h
      · intro h
        rw [hcounted, hleft, List.length_append] at h
        rw [drive_of_moved hlimited, drive_of_moved hstep]
        exact hih.complete (by omega)
    · exact cutsAt_of_exhausted labels hsteps hlasts
  | case2 e fault last hstep =>
    by_cases hlasts : e.steps + e.pending?.toList.length ≤ k
    · obtain ⟨hmachine, -⟩ := (stop_of_step hstep).performs hnone
      have hlimited : (e.withStepBudget (some k)).step labels =
          .stopped fault (last.withStepBudget (some k)) := by
        rw [step_withinBudget hnone hlasts, hstep]
        rfl
      have hall : (e.counted labels).length ≤ k - e.steps := by
        rw [counted_of_stopped hstep]
        omega
      have hrun : (e.withStepBudget (some k)).drive labels =
          (e.drive labels).withStepBudget (some k) := by
        rw [drive_of_stopped hlimited, drive_of_stopped hstep, close_withStepBudget]
      refine ⟨?_, ?_, fun _ => hrun⟩
      · rw [drive_of_stopped hlimited, machine_close, List.take_of_length_le hall,
          counted_of_stopped hstep, ← hmachine]
        rfl
      · intro s depth h
        rw [List.getElem?_eq_none hall] at h
        cases h
    · exact cutsAt_of_exhausted labels hsteps hlasts

end Execution

namespace Machine

open Execution

/-- A budget of `k` statements cuts a run off behind its first `k` statements. Statements are
counted as the run without a budget executes them; none of them is a label. If there are no more
than `k` of them, the budget makes no difference. Otherwise the run fails at the next one, and
leaves the machine as the run without a budget has it when it comes there; the next greater budget
leaves it as it is after this one statement. -/
theorem run_withStepBudget (m : Machine) (p : Program) (k : Nat) :
    let unlimited := (m.withStepBudget none).run p
    let limited := (m.withStepBudget (some k)).run p
    (unlimited.executed.length = unlimited.steps ∧
        ∀ x ∈ unlimited.executed, x.1.isLabel = false) ∧
      (unlimited.steps ≤ k → limited = unlimited.withStepBudget (some k)) ∧
      (k < unlimited.steps → ∃ e s depth,
        Reaches p.labels (start (m.withStepBudget none).clear p) e ∧ e.steps = k ∧
        e.pending? = some (s, depth) ∧ unlimited.executed[k]? = some (s, depth) ∧
        limited.fault = some ⟨.stepLimitExceeded, s.span, ""⟩ ∧
        limited.machine = e.machine.withStepBudget (some k) ∧
        ((m.withStepBudget (some (k + 1))).run p).machine =
          (e.machine.perform s).withStepBudget (some (k + 1))) := by
  intro unlimited limited
  let first := start (m.withStepBudget none).clear p
  have hnone : first.machine.config.stepBudget = none := rfl
  have hzero : first.steps = 0 := rfl
  have hsteps : unlimited.steps = (first.counted p.labels).length :=
    (length_counted (m.withStepBudget none) p).symm
  have hexecuted : unlimited.executed = first.counted p.labels := by
    have hreported := (drive_performs p.labels first hnone).2
    rwa [executed_start] at hreported
  have hcuts : ∀ budget, first.CutsAt p.labels budget := fun budget =>
    cutsAt p.labels hnone (Nat.zero_le budget)
  refine ⟨⟨by rw [hexecuted, hsteps], ?_⟩, ?_, ?_⟩
  · intro x hx
    rw [hexecuted] at hx
    obtain ⟨j, hj⟩ := List.mem_iff_getElem?.mp hx
    obtain ⟨e, -, -, hpending⟩ := exists_reaches_pending hj
    exact (pending?_eq_some hpending).1
  · intro hk
    exact (hcuts k).complete (hsteps ▸ hk)
  · intro hk
    rw [hsteps] at hk
    obtain ⟨⟨s, depth⟩, hs⟩ : ∃ x, (first.counted p.labels)[k]? = some x :=
      ⟨_, List.getElem?_eq_getElem hk⟩
    obtain ⟨e, hreaches, hat, hpending⟩ := exists_reaches_pending hs
    have hmachine := hreaches.machine_eq hat
    refine ⟨e, s, depth, hreaches, hat.trans (Nat.zero_add k), hpending, hexecuted ▸ hs,
      (hcuts k).fault_eq s depth hs, ?_, ?_⟩
    · rw [hmachine]
      exact (hcuts k).machine_eq
    · -- The first `k + 1` statements are the first `k` and the one that is pending.
      have hmore : (first.counted p.labels).take (k + 1) =
          (first.counted p.labels).take k ++ [(s, depth)] := by
        rw [List.take_add_one, hs]
        rfl
      have hnext := (hcuts (k + 1)).machine_eq
      rw [hzero, Nat.sub_zero, hmore, performAll_append, ← hmachine] at hnext
      exact hnext

/-- Behind the second statement the run passes over a label and leaves a frame before it comes to
the third one. A budget of two statements ends there, and one of three is enough. -/
theorem run_withStepBudget_passing :
    let m := fresh (Config.standard.withCallDepth 1)
    let p : Program := ⟨[.call ⟨0, 3⟩ "f", .press ⟨6, 7⟩ (.push .one),
      .label ⟨8, 11⟩ "f" [.press ⟨14, 15⟩ (.push .one), .label ⟨16, 19⟩ "g" []]]⟩
    ((m.withStepBudget none).run p).steps = 3 ∧
      (m.withStepBudget (some 3)).run p = ((m.withStepBudget none).run p).withStepBudget (some 3) ∧
      ((m.withStepBudget (some 2)).run p).fault = some ⟨.stepLimitExceeded, ⟨6, 7⟩, ""⟩ := by
  intro m p
  have hsteps : ((m.withStepBudget none).run p).steps = 3 := by decide +kernel
  have hthird : ((m.withStepBudget none).run p).executed[2]?.map (·.1.span) = some ⟨6, 7⟩ := by
    decide +kernel
  obtain ⟨-, hcomplete, -⟩ := run_withStepBudget m p 3
  obtain ⟨-, -, hcut⟩ := run_withStepBudget m p 2
  obtain ⟨e, s, depth, -, -, -, hs, hfault, -⟩ := hcut (by rw [hsteps]; decide)
  refine ⟨hsteps, hcomplete (Nat.le_of_eq hsteps), ?_⟩
  have hspan : s.span = ⟨6, 7⟩ := by
    rw [hs] at hthird
    exact Option.some.inj hthird
  rw [hfault, hspan]

end Machine

end Keystroke
