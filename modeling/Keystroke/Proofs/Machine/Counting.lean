import Keystroke.Proofs.Machine.Execution

/-!
# The statements that a run counts

A run counts a statement when it comes to it: before the budget is looked at and before the
statement is executed. `Execution.counted` lists the statements that are counted from some point
of a run on, each with the number of frames that are open. Labels are passed over and do not
occur in it.

The list explains the run. Its length is the number of steps, every point of the run lies behind
one of its prefixes, and what a machine holds there comes from performing the statements of that
prefix one after the other. Without a budget it is also what the run reports.
-/

namespace Keystroke

namespace Machine

/-- Execute a statement, as far as registers and memory are concerned. -/
def perform (m : Machine) : Statement → Machine
  | .press span key => (m.press span key).1
  | .call _ _ | .label _ _ _ => m

def performAll (m : Machine) (counted : List (Statement × Nat)) : Machine :=
  counted.foldl (fun m counted => m.perform counted.1) m

@[simp] theorem performAll_nil (m : Machine) : m.performAll [] = m := rfl

@[simp] theorem performAll_cons (m : Machine) (x : Statement × Nat)
    (counted : List (Statement × Nat)) :
    m.performAll (x :: counted) = (m.perform x.1).performAll counted := rfl

theorem performAll_append (m : Machine) (counted later : List (Statement × Nat)) :
    m.performAll (counted ++ later) = (m.performAll counted).performAll later :=
  List.foldl_append

end Machine

/-- The statement that an event reports as executed, with the number of frames that are open. -/
def Event.executed? : Event → Option (Statement × Nat)
  | step s depth => some (s, depth)
  | scanned _ | classified _ | parsed _ | compiled _ | redefined _ | call _ _ | finished _ _ => none

def Run.executed (r : Run) : List (Statement × Nat) := r.events.filterMap Event.executed?

namespace Execution

/-- The statement that the next step counts, with the number of frames that are open. -/
def pending? (e : Execution) : Option (Statement × Nat) :=
  match e.frames.items with
  | (s :: _) :: _ => if s.isLabel then none else some (s, e.frames.size)
  | [] :: _ | [] => none

/-- The statements that are counted from here to the end of the run. -/
def counted (labels : List Label) (e : Execution) : List (Statement × Nat) :=
  match _h : e.step labels with
  | .moved next => e.pending?.toList ++ next.counted labels
  | .stopped _ _ => e.pending?.toList
termination_by e.weight labels
decreasing_by exact weight_step_lt _h

variable {labels : List Label} {e f next last : Execution} {fault : Option Fault}

theorem counted_of_moved (h : e.step labels = .moved next) :
    e.counted labels = e.pending?.toList ++ next.counted labels := by
  rw [counted]
  split
  · next f hf =>
    rw [h] at hf
    cases hf
    rfl
  · next hf => simp [h] at hf

theorem counted_of_stopped (h : e.step labels = .stopped fault last) :
    e.counted labels = e.pending?.toList := by
  rw [counted]
  split
  · next hf => simp [h] at hf
  · rfl

/-- What is pending is counted first. -/
theorem counted_of_pending? {x : Statement × Nat} (labels : List Label)
    (h : e.pending? = some x) : ∃ later, e.counted labels = x :: later := by
  cases hstep : e.step labels with
  | moved next => exact ⟨next.counted labels, by rw [counted_of_moved hstep, h]; rfl⟩
  | stopped fault last => exact ⟨[], by rw [counted_of_stopped hstep, h]; rfl⟩

/-- What is pending is the first statement of the newest frame, unless that is a label. -/
theorem pending?_eq_some {s : Statement} {depth : Nat} (h : e.pending? = some (s, depth)) :
    s.isLabel = false ∧ ∃ rest below, e.frames.items = (s :: rest) :: below := by
  unfold pending? at h
  split at h
  · next hitems =>
    split at h
    · cases h
    · next hlabel =>
      cases h
      exact ⟨Bool.eq_false_iff.mpr hlabel, _, _, hitems⟩
  · cases h
  · cases h

section Pending

variable {rest : List Statement} {below : List (List Statement)}

theorem pending?_leave (hitems : e.frames.items = [] :: below) : e.pending? = none := by
  rw [pending?, hitems]

theorem pending?_skip {span : Span} {name : String} {body : List Statement}
    (hitems : e.frames.items = (.label span name body :: rest) :: below) :
    e.pending? = none := by
  rw [pending?, hitems]
  rfl

theorem pending?_of_not_isLabel {s : Statement} (hitems : e.frames.items = (s :: rest) :: below)
    (hlabel : s.isLabel = false) : e.pending? = some (s, e.frames.size) := by
  rw [pending?, hitems]
  simp [hlabel]

end Pending

/-- A step counts what is pending and performs it. -/
theorem Move.counts (h : Move labels e next) :
    next.steps = e.steps + e.pending?.toList.length ∧
      next.machine = e.machine.performAll e.pending?.toList ∧
      next.events.filterMap Event.executed? =
        e.pending?.toList ++ e.events.filterMap Event.executed? := by
  cases h with
  | leave hitems =>
    rw [pending?_leave hitems]
    exact ⟨rfl, rfl, rfl⟩
  | skip hitems =>
    rw [pending?_skip hitems]
    exact ⟨rfl, rfl, rfl⟩
  | press hitems hbudget hpress =>
    rw [pending?_of_not_isLabel hitems rfl]
    refine ⟨rfl, ?_, rfl⟩
    simp [Machine.perform, hpress]
  | call hitems hbudget hbody hpush =>
    rw [pending?_of_not_isLabel hitems rfl]
    exact ⟨rfl, rfl, rfl⟩

/-- The last step of a run counts what is pending. -/
theorem Stop.counts (h : Stop labels e fault last) :
    last.steps = e.steps + e.pending?.toList.length := by
  cases h with
  | done hitems => simp [pending?, hitems]
  | budget hitems hlabel =>
    rw [pending?_of_not_isLabel hitems hlabel]
    rfl
  | press hitems | undefined hitems | overflow hitems =>
    rw [pending?_of_not_isLabel hitems rfl]
    rfl

/-- Without a budget the last step of a run performs and reports what is pending. -/
theorem Stop.performs (h : Stop labels e fault last)
    (hbudget : e.machine.config.stepBudget = none) :
    last.machine = e.machine.performAll e.pending?.toList ∧
      last.events.filterMap Event.executed? =
        e.pending?.toList ++ e.events.filterMap Event.executed? := by
  cases h with
  | done hitems => simp [pending?, hitems]
  | budget hitems hlabel hexceeds => simp [Config.exceeds, hbudget] at hexceeds
  | press hitems hexceeds hpress =>
    rw [pending?_of_not_isLabel hitems rfl]
    refine ⟨?_, rfl⟩
    simp [Machine.perform, hpress]
  | undefined hitems | overflow hitems =>
    rw [pending?_of_not_isLabel hitems rfl]
    exact ⟨rfl, rfl⟩

@[simp] theorem steps_close (e : Execution) (fault : Option Fault) :
    (e.close fault).steps = e.steps := by
  cases fault <;> rfl

@[simp] theorem machine_close (e : Execution) (fault : Option Fault) :
    (e.close fault).machine = e.machine := by
  cases fault <;> rfl

@[simp] theorem fault_close (e : Execution) (fault : Option Fault) :
    (e.close fault).fault = fault := by
  cases fault <;> rfl

@[simp] theorem executed_close (e : Execution) (fault : Option Fault) :
    (e.close fault).executed = (e.events.filterMap Event.executed?).reverse := by
  cases fault with
  | none => simp [close, Run.executed, Event.executed?, List.filterMap_cons]
  | some fault => simp [close, Run.executed]

/-- A run has as many steps as it counts statements. -/
theorem steps_drive (labels : List Label) (e : Execution) :
    (e.drive labels).steps = e.steps + (e.counted labels).length := by
  induction e using drive.induct labels with
  | case1 e next hstep ih =>
    have hsteps := (move_of_step hstep).counts.1
    rw [drive_of_moved hstep, counted_of_moved hstep, ih, List.length_append]
    omega
  | case2 e fault last hstep =>
    rw [drive_of_stopped hstep, counted_of_stopped hstep, steps_close]
    exact (stop_of_step hstep).counts

/-- Without a budget a run performs and reports all that it counts. -/
theorem drive_performs (labels : List Label) (e : Execution)
    (hbudget : e.machine.config.stepBudget = none) :
    (e.drive labels).machine = e.machine.performAll (e.counted labels) ∧
      (e.drive labels).executed =
        (e.events.filterMap Event.executed?).reverse ++ e.counted labels := by
  induction e using drive.induct labels with
  | case1 e next hstep ih =>
    have hmove := move_of_step hstep
    obtain ⟨-, hmachine, hevents⟩ := hmove.counts
    obtain ⟨hperform, hexecuted⟩ := ih (by rw [hmove.config_eq, hbudget])
    rw [drive_of_moved hstep, counted_of_moved hstep, hperform, hexecuted, hmachine, hevents,
      Machine.performAll_append]
    cases e.pending? <;> simp
  | case2 e fault last hstep =>
    obtain ⟨hmachine, hevents⟩ := (stop_of_step hstep).performs hbudget
    rw [drive_of_stopped hstep, counted_of_stopped hstep, machine_close, executed_close, hmachine,
      hevents]
    cases e.pending? <;> simp

/-- Every point of a run lies behind a prefix of what the run counts, and the machine there has
performed this prefix. -/
theorem Reaches.counted_eq (h : Reaches labels e f) :
    ∃ done, e.counted labels = done ++ f.counted labels ∧ f.steps = e.steps + done.length ∧
      f.machine = e.machine.performAll done := by
  obtain ⟨n, hn⟩ := h
  induction hn with
  | refl e => exact ⟨[], rfl, rfl, rfl⟩
  | @cons n e next f hstep _ ih =>
    obtain ⟨done, hcounted, hsteps, hmachine⟩ := ih
    obtain ⟨hnext, hperform, -⟩ := (move_of_step hstep).counts
    refine ⟨e.pending?.toList ++ done, ?_, ?_, ?_⟩
    · rw [counted_of_moved hstep, hcounted, List.append_assoc]
    · rw [hsteps, hnext, List.length_append, Nat.add_assoc]
    · rw [hmachine, hperform, Machine.performAll_append]

/-- The run comes to every statement that it counts. -/
theorem exists_reaches_pending {j : Nat} {x : Statement × Nat}
    (h : (e.counted labels)[j]? = some x) :
    ∃ f, Reaches labels e f ∧ f.steps = e.steps + j ∧ f.pending? = some x := by
  induction e using drive.induct labels generalizing j with
  | case1 e next hstep ih =>
    rw [counted_of_moved hstep] at h
    have hsteps := (move_of_step hstep).counts.1
    cases hpending : e.pending? with
    | none =>
      rw [hpending] at h hsteps
      obtain ⟨f, hf, hfsteps, hx⟩ := ih h
      exact ⟨f, hf.head hstep, by rw [hfsteps, hsteps]; rfl, hx⟩
    | some y =>
      rw [hpending] at h hsteps
      cases j with
      | zero =>
        cases h
        exact ⟨e, .refl labels e, rfl, hpending⟩
      | succ j =>
        obtain ⟨f, hf, hfsteps, hx⟩ := ih h
        refine ⟨f, hf.head hstep, ?_, hx⟩
        rw [hfsteps, hsteps, Option.toList_some, List.length_singleton]
        omega
  | case2 e fault last hstep =>
    rw [counted_of_stopped hstep] at h
    cases hpending : e.pending? with
    | none => simp [hpending] at h
    | some y =>
      cases j with
      | zero =>
        rw [hpending] at h
        cases h
        exact ⟨e, .refl labels e, rfl, hpending⟩
      | succ j => simp [hpending] at h

/-- Where the run comes to its counted statement `j`, the machine has performed those before. -/
theorem Reaches.machine_eq {j : Nat} (h : Reaches labels e f) (hsteps : f.steps = e.steps + j) :
    f.machine = e.machine.performAll ((e.counted labels).take j) := by
  obtain ⟨done, hcounted, hlength, hmachine⟩ := h.counted_eq
  have hdone : done.length = j := by omega
  rw [hmachine, hcounted, List.take_left' hdone]

end Execution

def Machine.counted (m : Machine) (p : Program) : List (Statement × Nat) :=
  (Execution.start m.clear p).counted p.labels

/-- The number of steps of a run is the number of statements that it counts. -/
theorem Machine.length_counted (m : Machine) (p : Program) :
    (m.counted p).length = (m.run p).steps :=
  ((Execution.steps_drive p.labels (Execution.start m.clear p)).trans (Nat.zero_add _)).symm

/-- Before its first step a run has not executed anything. -/
theorem Execution.executed_start (m : Machine) (p : Program) :
    (start m p).events.filterMap Event.executed? = [] := by
  simp [start, List.filterMap_map, Function.comp_def, Event.executed?]

end Keystroke
