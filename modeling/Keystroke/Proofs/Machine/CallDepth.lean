import Keystroke.Proofs.Machine.CallTree
import Keystroke.Proofs.Machine.Failure

/-!
# Call depths

A call depth cuts a run off in front of the first call that it has no room for, and does nothing
else. With more room a machine takes the same steps up to there: two executions that differ in
nothing but this setting and the limit on their frames go on in lockstep, because a push that
succeeds does not fail for more room. Only an overflow ends the lockstep.

The program has a frame of its own, so a depth of `d` calls is a limit of `d + 1` frames, and the
frame of a body stays open until the step after its last statement.
-/

namespace Keystroke

namespace BoundedStack

variable {α : Type}

/-- The stack with room for at least `limit` items. -/
def raise (s : BoundedStack α) (limit : Nat) : BoundedStack α :=
  { s with
    limit := max s.limit limit
    size_le := Nat.le_trans s.size_le (Nat.le_max_left _ _) }

theorem eq_of_items_eq {s t : BoundedStack α} (hlimit : s.limit = t.limit)
    (hitems : s.items = t.items) : s = t := by
  obtain ⟨limit, items, size, rfl, hle⟩ := s
  obtain ⟨limit', items', size', rfl, hle'⟩ := t
  cases hlimit
  cases hitems
  rfl

theorem raise_setTop (s : BoundedStack α) (limit : Nat) (x : α) :
    (s.setTop x).raise limit = (s.raise limit).setTop x := by
  obtain ⟨_, _ | ⟨y, below⟩, size, hsize, hle⟩ := s <;> rfl

/-- A push that succeeds does so with more room. -/
theorem push_raise {s t : BoundedStack α} {x : α} (h : s.push x = .ok t) (limit : Nat) :
    (s.raise limit).push x = .ok (t.raise limit) := by
  unfold push at h
  split at h
  · next hroom =>
    cases h
    exact dif_pos (Nat.lt_of_lt_of_le hroom (Nat.le_max_left _ _))
  · cases h

end BoundedStack

def Machine.withCallDepth (m : Machine) (depth : Nat) : Machine :=
  { m with config := m.config.withCallDepth depth }

def Run.withCallDepth (r : Run) (depth : Nat) : Run :=
  { r with machine := r.machine.withCallDepth depth }

def Run.Overflows (r : Run) : Prop := r.fault.map Fault.kind = some .callStackOverflow

/-- Keys do not look at the call depth. -/
theorem Machine.press_withCallDepth {m n : Machine} {span : Span} {key : Key}
    {fault : Option Fault} (h : m.press span key = (n, fault)) (depth : Nat) :
    (m.withCallDepth depth).press span key = (n.withCallDepth depth, fault) := by
  have hconfig := m.config_press span key
  have hpress := m.press_withConfig (m.config.withCallDepth depth) rfl span key
  rw [h] at hconfig hpress
  refine hpress.trans ?_
  rw [withCallDepth, hconfig]

namespace Execution

/-- The execution with another call depth and with room for as many calls. -/
def withCallDepth (e : Execution) (depth : Nat) : Execution :=
  { e with
    machine := e.machine.withCallDepth depth
    frames := e.frames.raise (depth + 1) }

variable {labels : List Label} {e f g next last : Execution} {fault : Option Fault} {n k : Nat}

theorem close_withCallDepth (e : Execution) (fault : Option Fault) (depth : Nat) :
    (e.withCallDepth depth).close fault = (e.close fault).withCallDepth depth := by
  cases fault <;> rfl

/-- Taking the next statement from the newest frame needs no room. -/
theorem withCallDepth_setTop (m : Machine) (frames : BoundedStack (List Statement))
    (rest : List Statement) (steps : Nat) (events : List Event) (depth : Nat) :
    withCallDepth ⟨m, frames.setTop rest, steps, events⟩ depth =
      ⟨m.withCallDepth depth, (frames.raise (depth + 1)).setTop rest, steps, events⟩ := by
  rw [withCallDepth, BoundedStack.raise_setTop]

/-- More room changes no step by which a run goes on. -/
theorem Move.withCallDepth (h : Move labels e next) (depth : Nat) :
    Move labels (e.withCallDepth depth) (next.withCallDepth depth) := by
  cases h with
  | leave hitems => exact .leave hitems
  | skip hitems =>
    rw [withCallDepth_setTop]
    exact .skip hitems
  | press hitems hbudget hpress =>
    rw [withCallDepth_setTop]
    exact .press hitems hbudget (Machine.press_withCallDepth hpress depth)
  | call hitems hbudget hbody hpush =>
    have hroom := BoundedStack.push_raise hpush (depth + 1)
    rw [BoundedStack.raise_setTop] at hroom
    exact .call hitems hbudget hbody hroom

/-- More room changes no step by which a run stops, except for an overflow. -/
theorem Stop.withCallDepth (h : Stop labels e fault last)
    (hfault : fault.map Fault.kind ≠ some .callStackOverflow) (depth : Nat) :
    Stop labels (e.withCallDepth depth) fault (last.withCallDepth depth) := by
  cases h with
  | done hitems => exact .done hitems
  | budget hitems hlabel hbudget =>
    rw [withCallDepth_setTop]
    exact .budget hitems hlabel hbudget
  | press hitems hbudget hpress =>
    rw [withCallDepth_setTop]
    exact .press hitems hbudget (Machine.press_withCallDepth hpress depth)
  | undefined hitems hbudget hbody =>
    rw [withCallDepth_setTop]
    exact .undefined hitems hbudget hbody
  | overflow => exact absurd rfl hfault

/-- A run that does not overflow is the same with more room. -/
theorem drive_withCallDepth (h : ¬ (e.drive labels).Overflows) (depth : Nat) :
    (e.withCallDepth depth).drive labels = (e.drive labels).withCallDepth depth := by
  induction e using drive.induct labels with
  | case1 e next hstep ih =>
    rw [drive_of_moved hstep] at h ⊢
    rw [drive_of_moved ((move_of_step hstep).withCallDepth depth).step_eq]
    exact ih h
  | case2 e fault last hstep =>
    rw [drive_of_stopped hstep] at h ⊢
    have hfault : fault.map Fault.kind ≠ some .callStackOverflow := by
      simpa [Run.Overflows] using h
    rw [drive_of_stopped ((stop_of_step hstep).withCallDepth hfault depth).step_eq,
      close_withCallDepth]

/-- As far as a run goes with some room, it goes in the same way with more. -/
theorem Iterates.withCallDepth (h : Iterates labels n e f) (depth : Nat) :
    Iterates labels n (e.withCallDepth depth) (f.withCallDepth depth) := by
  induction h with
  | refl e => exact .refl _
  | cons hstep _ ih => exact .cons ((move_of_step hstep).withCallDepth depth).step_eq ih

/-- A run with more room passes the points of the run with less before it goes beyond them. -/
theorem Iterates.lockstep {depth : Nat} (h : Iterates labels n e g)
    (hdeep : Iterates labels k (e.withCallDepth depth) f) :
    (∃ f₀, f = f₀.withCallDepth depth ∧ Reaches labels e f₀ ∧ Reaches labels f₀ g) ∨
      Reaches labels (g.withCallDepth depth) f := by
  induction h generalizing k with
  | refl e => exact .inr ⟨k, hdeep⟩
  | @cons n e next g hstep hrest ih =>
    cases hdeep with
    | refl => exact .inl ⟨e, rfl, .refl labels e, n + 1, .cons hstep hrest⟩
    | @cons k _ after _ hafter hdeep =>
      -- Steps are determined by where they start, so both runs have moved to the same point.
      have hnext := ((move_of_step hstep).withCallDepth depth).step_eq
      obtain rfl : after = next.withCallDepth depth := by
        rw [hafter] at hnext
        exact Transition.moved.inj hnext
      obtain ⟨f₀, hf, hreaches, hg⟩ | hbeyond := ih hdeep
      · exact .inl ⟨f₀, hf, hreaches.head hstep, hg⟩
      · exact .inr hbeyond

theorem Reaches.drive_eq (h : Reaches labels e f) : e.drive labels = f.drive labels := by
  obtain ⟨n, hn⟩ := h
  induction hn with
  | refl => rfl
  | cons hstep _ ih => exact (drive_of_moved hstep).trans ih

theorem Reaches.steps_le (h : Reaches labels e f) : e.steps ≤ f.steps := by
  obtain ⟨done, -, hsteps, -⟩ := h.counted_eq
  exact Nat.le.intro hsteps.symm

section Full

variable {span : Span} {name : String} {depth : Nat}

/-- A run goes past a call only if there is room for another frame. -/
theorem Move.lt_limit (h : Move labels e next)
    (hpending : e.pending? = some (.call span name, depth)) : depth < e.frames.limit := by
  obtain ⟨-, rest, below, hitems, rfl⟩ := frames_of_pending? hpending
  cases h with
  | leave hitems' | skip hitems' | press hitems' => simp [hitems] at hitems'
  | call hitems' _ _ hpush =>
    obtain ⟨hroom, -, -⟩ := BoundedStack.push_eq_ok hpush
    rw [BoundedStack.limit_setTop, BoundedStack.items_setTop hitems'] at hroom
    simp only [hitems, List.cons.injEq] at hitems'
    simpa [hitems'.2] using hroom

/-- A call that comes when all frames are open ends the run, though the budget allows it. That its
label is undefined is noticed first. -/
theorem exists_stop_of_full (labels : List Label)
    (hpending : e.pending? = some (.call span name, depth)) (hfull : e.frames.limit ≤ depth)
    (hbudget : e.machine.config.exceeds (e.steps + 1) = false) :
    ∃ last, Stop labels e (some ⟨if (Label.body? labels name).isSome then .callStackOverflow
      else .undefinedLabel, span, name⟩) last := by
  obtain ⟨-, rest, below, hitems, rfl⟩ := frames_of_pending? hpending
  cases hbody : Label.body? labels name with
  | none => exact ⟨_, .undefined hitems hbudget hbody⟩
  | some body => exact ⟨_, .overflow hitems hbudget hbody hfull⟩

/-- An overflow is the fault of a call of a defined label that comes when all frames are open. It
leaves the machine as it is. -/
theorem Stop.exists_call_of_overflow {fault : Fault} (h : Stop labels e (some fault) last)
    (hkind : fault.kind = .callStackOverflow) :
    ∃ span name, fault = ⟨.callStackOverflow, span, name⟩ ∧
      (Label.body? labels name).isSome = true ∧
      e.pending? = some (.call span name, e.frames.limit) ∧ last.machine = e.machine := by
  cases h with
  | budget => cases hkind
  | press _ _ hpress => cases Machine.fails_of_press hpress <;> cases hkind
  | undefined => cases hkind
  | @overflow span name rest body below hitems _ hbody hfull =>
    have hsize : e.frames.size = e.frames.limit := by
      refine Nat.le_antisymm e.frames.size_le ?_
      rwa [size_frames_eq hitems]
    refine ⟨span, name, rfl, Option.isSome_of_eq_some hbody, ?_, rfl⟩
    rw [pending?_of_not_isLabel hitems rfl, hsize]

end Full

end Execution

namespace Machine

open Execution

/-- The run of a program comes to a statement while `calls` calls are open, and stands at `e` just
before it executes the statement. The frame of the program is open besides. -/
structure ComesTo (m : Machine) (p : Program) (s : Statement) (calls : Nat) (e : Execution) :
    Prop where
  reaches : Reaches p.labels (start m.clear p) e
  pending : e.pending? = some (s, calls + 1)

variable {m : Machine} {p : Program} {d d' : Nat}

/-- The frame of the program finds room in any case, so all of the call depth is left for calls. -/
theorem limit_start (m : Machine) (p : Program) (h : d < Config.maxFrames) :
    (start (m.withCallDepth d).clear p).frames.limit = d + 1 :=
  Config.frameLimit_eq h

theorem start_withCallDepth (m : Machine) (p : Program) (hle : d ≤ d')
    (hmax : d' < Config.maxFrames) :
    start (m.withCallDepth d').clear p = (start (m.withCallDepth d).clear p).withCallDepth d' := by
  have hframes : (start (m.withCallDepth d').clear p).frames =
      (start (m.withCallDepth d).clear p).frames.raise (d' + 1) := by
    refine BoundedStack.eq_of_items_eq ?_ rfl
    change _ = max _ _
    rw [limit_start m p hmax, limit_start m p (Nat.lt_of_le_of_lt hle hmax)]
    omega
  rw [Execution.withCallDepth, ← hframes]
  rfl

/-- A run that overflows has come to a call of a defined label with as many calls open as may be. -/
theorem exists_comesTo_of_overflows (hmax : d < Config.maxFrames)
    (h : ((m.withCallDepth d).run p).Overflows) :
    ∃ span name e, ((m.withCallDepth d).run p).fault = some ⟨.callStackOverflow, span, name⟩ ∧
      (p.lastBody? name).isSome = true ∧ (m.withCallDepth d).ComesTo p (.call span name) d e ∧
      ((m.withCallDepth d).run p).steps = e.steps + 1 ∧
      ((m.withCallDepth d).run p).machine = e.machine := by
  obtain ⟨fault, hfault, hkind⟩ := Option.map_eq_some_iff.mp h
  obtain ⟨e, last, hreaches, hstop, hrun⟩ := exists_stop_of_run hfault
  obtain ⟨span, name, rfl, hbody, hpending, hmachine⟩ := hstop.exists_call_of_overflow hkind
  have hcounts := hstop.counts
  rw [hpending] at hcounts
  rw [hreaches.limit_eq, limit_start m p hmax] at hpending
  refine ⟨span, name, e, hfault, ?_, ⟨hreaches, hpending⟩, ?_, ?_⟩
  · rwa [p.lastBody?_eq_body?_labels]
  · rw [hrun, steps_close]
    exact hcounts
  · rw [hrun, machine_close, hmachine]

/-- Where a run comes with room for some calls, it comes with room for more. -/
theorem ComesTo.withCallDepth {s : Statement} {calls : Nat} {e : Execution}
    (h : (m.withCallDepth d).ComesTo p s calls e) (hle : d ≤ d') (hmax : d' < Config.maxFrames) :
    (m.withCallDepth d').ComesTo p s calls (e.withCallDepth d') := by
  obtain ⟨n, hn⟩ := h.reaches
  refine ⟨⟨n, ?_⟩, h.pending⟩
  rw [start_withCallDepth m p hle hmax]
  exact hn.withCallDepth d'

/-- With more room, a run comes to no other call with `d` calls open before the one for which there
was no room with less. -/
theorem ComesTo.steps_le {span other : Span} {name callee : String} {e f : Execution}
    (h : (m.withCallDepth d).ComesTo p (.call span name) d e)
    (hdeep : (m.withCallDepth d').ComesTo p (.call other callee) d f)
    (hle : d ≤ d') (hmax : d' < Config.maxFrames) : e.steps ≤ f.steps := by
  obtain ⟨⟨n, hn⟩, -⟩ := h
  obtain ⟨⟨k, hk⟩, hpending⟩ := hdeep
  rw [start_withCallDepth m p hle hmax] at hk
  obtain ⟨f₀, rfl, hreaches, he⟩ | hbeyond := hn.lockstep hk
  · -- The other call would have been made with less room, where there is none left.
    obtain rfl | ⟨next, hstep, -⟩ := he.eq_or_step
    · exact Nat.le_refl _
    · have hroom := (move_of_step hstep).lt_limit hpending
      rw [hreaches.limit_eq, limit_start m p (Nat.lt_of_le_of_lt hle hmax)] at hroom
      exact absurd hroom (Nat.lt_irrefl _)
  · exact hbeyond.steps_le

/-- A call that comes when as many calls are open as may be ends the run, if the budget allows it to
be executed. -/
theorem ComesTo.fault_eq {span : Span} {name : String} {e : Execution}
    (h : (m.withCallDepth d).ComesTo p (.call span name) d e) (hmax : d < Config.maxFrames)
    (hbudget : m.config.exceeds (e.steps + 1) = false) :
    ((m.withCallDepth d).run p).fault = some ⟨if (p.lastBody? name).isSome then
      .callStackOverflow else .undefinedLabel, span, name⟩ := by
  have hlimit : e.frames.limit = d + 1 := h.reaches.limit_eq.trans (limit_start m p hmax)
  have hconfig : e.machine.config = m.config.withCallDepth d :=
    h.reaches.preserves (P := fun e => e.machine.config = m.config.withCallDepth d)
      (fun _ _ he hmove => hmove.config_eq.trans he) rfl
  obtain ⟨last, hstop⟩ := exists_stop_of_full p.labels h.pending (Nat.le_of_eq hlimit)
    (hconfig ▸ hbudget)
  have hrun : (m.withCallDepth d).run p = e.drive p.labels := h.reaches.drive_eq
  rw [hrun, drive_of_stopped hstop.step_eq, fault_close, p.lastBody?_eq_body?_labels]

/-- The call depth does nothing but cut a run off. Compare depths `d ≤ d'`. If the run with `d` does
not overflow, the run with `d'` is the same in all respects. If it does, its fault names the place
and the label of the first call that the run with `d'` comes to while `d` calls are open, the label
is defined, and the registers and the memory are as in the run with `d'` just before this call.
With the depth `d` no call goes on while `d` calls are open: within the budget it overflows, unless
its label is undefined, which is then the fault. There are never more than `d + 1` frames, and there
is always room for the first one, that of the program. -/
theorem run_withCallDepth (m : Machine) (p : Program) (d d' : Nat) (hle : d ≤ d')
    (hmax : d' < Config.maxFrames) :
    let shallow := (m.withCallDepth d).run p
    let deep := (m.withCallDepth d').run p
    (¬ shallow.Overflows → deep = shallow.withCallDepth d') ∧
      (shallow.Overflows → ∃ span name e,
        shallow.fault = some ⟨.callStackOverflow, span, name⟩ ∧
          (p.lastBody? name).isSome = true ∧
          (m.withCallDepth d').ComesTo p (.call span name) d e ∧
          (∀ other callee f, (m.withCallDepth d').ComesTo p (.call other callee) d f →
            e.steps ≤ f.steps) ∧
          shallow.steps = e.steps + 1 ∧
          shallow.machine.registers = e.machine.registers ∧
          shallow.machine.memory = e.machine.memory) ∧
      (∀ span name e, (m.withCallDepth d).ComesTo p (.call span name) d e →
        m.config.exceeds (e.steps + 1) = false →
          shallow.fault = some ⟨if (p.lastBody? name).isSome then .callStackOverflow
            else .undefinedLabel, span, name⟩) ∧
      (∀ e, Reaches p.labels (start (m.withCallDepth d).clear p) e →
        e.frames.items.length ≤ d + 1) ∧
      (BoundedStack.empty (m.withCallDepth d).config.frameLimit).push p.statements =
        .ok (start (m.withCallDepth d).clear p).frames := by
  intro shallow deep
  have hmax' : d < Config.maxFrames := Nat.lt_of_le_of_lt hle hmax
  refine ⟨?_, ?_, ?_, ?_, ?_⟩
  · intro h
    change (start (m.withCallDepth d').clear p).drive p.labels = _
    rw [start_withCallDepth m p hle hmax]
    exact drive_withCallDepth h d'
  · intro h
    obtain ⟨span, name, e, hfault, hbody, he, hsteps, hmachine⟩ :=
      exists_comesTo_of_overflows hmax' h
    have hregisters : shallow.machine.registers = e.machine.registers :=
      congrArg Machine.registers hmachine
    have hmemory : shallow.machine.memory = e.machine.memory := congrArg Machine.memory hmachine
    refine ⟨span, name, e.withCallDepth d', hfault, hbody, he.withCallDepth hle hmax, ?_, hsteps,
      hregisters, hmemory⟩
    intro other callee f hf
    exact he.steps_le hf hle hmax
  · intro span name e he hbudget
    exact he.fault_eq hmax' hbudget
  · intro e he
    calc e.frames.items.length ≤ e.frames.limit := e.frames.length_items_le
      _ = d + 1 := he.limit_eq.trans (limit_start m p hmax')
  · exact dif_pos (Config.frameLimit_pos _)

/-- Two nested calls. Room for one of them lasts until the second, which the run with room for two
comes to with the same registers. Room for a third one makes no difference. -/
theorem run_withCallDepth_nested :
    let m := fresh Config.standard
    let p : Program := ⟨[.call ⟨0, 3⟩ "f",
      .label ⟨6, 9⟩ "f" [.press ⟨12, 13⟩ (.push .one), .call ⟨14, 17⟩ "g"],
      .label ⟨24, 27⟩ "g" [.press ⟨30, 31⟩ (.push .one), .press ⟨32, 33⟩ (.arithmetic .plus)]]⟩
    let r := (m.withCallDepth 1).run p
    (1 ≤ 2 ∧ 2 < Config.maxFrames ∧ r.fault = some ⟨.callStackOverflow, ⟨14, 17⟩, "g"⟩ ∧
      ∃ e, (m.withCallDepth 2).ComesTo p (.call ⟨14, 17⟩ "g") 1 e ∧ r.steps = e.steps + 1 ∧
        r.machine.registers = e.machine.registers ∧ r.machine.memory = e.machine.memory) ∧
      2 ≤ 3 ∧ 3 < Config.maxFrames ∧ ((m.withCallDepth 2).run p).fault = none ∧
        (m.withCallDepth 3).run p = ((m.withCallDepth 2).run p).withCallDepth 3 := by
  intro m p r
  have hcut : r.fault = some ⟨.callStackOverflow, ⟨14, 17⟩, "g"⟩ := by decide +kernel
  have hdone : ((m.withCallDepth 2).run p).fault = none := by decide +kernel
  refine ⟨⟨by decide, by decide, hcut, ?_⟩, by decide, by decide, hdone, ?_⟩
  · obtain ⟨-, hoverflows, -⟩ := run_withCallDepth m p 1 2 (by decide) (by decide)
    obtain ⟨span, name, e, hfault, -, he, -, hsteps, hregisters, hmemory⟩ :=
      hoverflows (congrArg (Option.map Fault.kind) hcut)
    cases hcut.symm.trans hfault
    exact ⟨e, he, hsteps, hregisters, hmemory⟩
  · obtain ⟨hsame, -⟩ := run_withCallDepth m p 2 3 (by decide) (by decide)
    refine hsame fun hoverflows => ?_
    rw [Run.Overflows, hdone] at hoverflows
    cases hoverflows

end Machine

end Keystroke
