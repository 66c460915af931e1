import Keystroke.Proofs.Machine.Evaluation
import Keystroke.Proofs.Machine.Failure
import Mathlib.Data.Seq.Basic

/-!
# Runs walk through call trees

The statements of a program and, below each call, the statements of the body that it calls make a
tree. `Statement.expansion` lists its statements in the order in which a run comes to them, each
with the number of frames that are open: a call comes before what it calls, and that before the
statement behind the call. Labels that call themselves make the tree infinite, and then nothing
behind the first endless branch is ever listed. So the expansion is a sequence that need not end.

What a run reports is read off this sequence. After the labels that were defined again come the
statements of the expansion from its beginning on, each call of a defined label with an event of
its own behind it. A run that ends well reports all of them, and one that fails stops somewhere in
the sequence.
-/

namespace Keystroke

open Stream' (Seq)

namespace Statement

/-- The statements of a body that are executed, where `depth` frames are open. -/
def atDepth (depth : Nat) (body : List Statement) : List (Statement × Nat) :=
  (body.filter fun s => !s.isLabel).map (·, depth)

section Expansion

variable (body? : String → Option (List Statement))

def callees : Statement × Nat → List (Statement × Nat)
  | (.call _ name, depth) => (body? name).elim [] (atDepth (depth + 1))
  | (.press _ _, _) | (.label _ _ _, _) => []

/-- The next statement of a walk through the call trees of some statements, and what is left. -/
def visit : List (Statement × Nat) → Option ((Statement × Nat) × List (Statement × Nat))
  | [] => none
  | x :: rest => some (x, callees body? x ++ rest)

/-- The statements below some statements in the order in which they are visited. -/
def walk (pending : List (Statement × Nat)) : Seq (Statement × Nat) :=
  Seq.corec (visit body?) pending

/-- The statements of a body that `depth` frames are open for, and behind each call those of the
body that it calls, one frame further up. -/
def expansion (depth : Nat) (body : List Statement) : Seq (Statement × Nat) :=
  walk body? (atDepth depth body)

theorem walk_nil : walk body? [] = Seq.nil := Seq.corec_nil _ _ rfl

theorem walk_cons (x : Statement × Nat) (rest : List (Statement × Nat)) :
    walk body? (x :: rest) = Seq.cons x (walk body? (callees body? x ++ rest)) :=
  Seq.corec_cons rfl

/-- What is pending first is walked through to its end, if it has one, before the rest. -/
theorem walk_append (first later : List (Statement × Nat)) :
    walk body? (first ++ later) = (walk body? first).append (walk body? later) := by
  apply Seq.eq_of_bisim_strong
    (fun s t => ∃ first, s = walk body? (first ++ later) ∧
      t = (walk body? first).append (walk body? later))
  · exact ⟨first, rfl, rfl⟩
  · rintro _ _ ⟨first, rfl, rfl⟩
    cases first with
    | nil =>
      refine .inl ?_
      rw [walk_nil, Seq.nil_append]
      rfl
    | cons x rest =>
      refine .inr ⟨x, walk body? (callees body? x ++ rest ++ later),
        (walk body? (callees body? x ++ rest)).append (walk body? later), ?_, ?_, _, rfl, rfl⟩
      · rw [List.cons_append, walk_cons, List.append_assoc]
      · rw [walk_cons, Seq.cons_append]

variable (depth : Nat) (rest : List Statement)

@[simp] theorem expansion_nil : expansion body? depth [] = Seq.nil := walk_nil body?

/-- Labels are passed over. -/
@[simp] theorem expansion_label (span : Span) (name : String) (body : List Statement) :
    expansion body? depth (.label span name body :: rest) = expansion body? depth rest := rfl

@[simp] theorem expansion_press (span : Span) (key : Key) :
    expansion body? depth (.press span key :: rest) =
      Seq.cons (.press span key, depth) (expansion body? depth rest) :=
  walk_cons body? _ _

/-- A call is followed by the expansion of what it calls. -/
@[simp] theorem expansion_call (span : Span) (name : String) :
    expansion body? depth (.call span name :: rest) =
      Seq.cons (.call span name, depth)
        (((body? name).elim Seq.nil (expansion body? (depth + 1))).append
          (expansion body? depth rest)) := by
  show walk body? ((.call span name, depth) :: atDepth depth rest) = _
  rw [walk_cons, walk_append, callees]
  cases body? name with
  | none =>
    show Seq.cons _ ((walk body? []).append _) = _
    rw [walk_nil]
    rfl
  | some body => rfl

end Expansion

end Statement

/-- The events of executing a statement: that it is executed and, for a call, that its label is
called, if that is defined. -/
def Event.ofStep (body? : String → Option (List Statement)) : Statement × Nat → List Event
  | (.call span name, depth) =>
    .step (.call span name) depth :: (body? name).elim [] fun _ => [.call name depth]
  | (.press span key, depth) => [.step (.press span key) depth]
  | (.label span name body, depth) => [.step (.label span name body) depth]

theorem Event.filterMap_executed?_ofStep (body? : String → Option (List Statement))
    (steps : List (Statement × Nat)) :
    (steps.flatMap (ofStep body?)).filterMap executed? = steps := by
  induction steps with
  | nil => rfl
  | cons x steps ih =>
    have hfirst : (ofStep body? x).filterMap executed? = [x] := by
      obtain ⟨s, depth⟩ := x
      cases s with
      | press span key => rfl
      | label span name body => rfl
      | call span name =>
        rw [ofStep]
        cases body? name <;> rfl
    rw [List.flatMap_cons, List.filterMap_append, hfirst, ih]
    rfl

namespace Label

/-- The names of the labels whose name an earlier one has, in order. -/
def repeatedNames (labels : List Label) : List String :=
  labels.zipIdx.filterMap fun (l, i) =>
    if l.name ∈ (labels.take i).map Label.name then some l.name else none

theorem redefinedAfter_eq {seen : List String} {earlier : List Label}
    (hseen : ∀ name, name ∈ seen ↔ name ∈ earlier.map Label.name) (later : List Label) :
    redefinedAfter seen later = (later.zipIdx earlier.length).filterMap fun (l, i) =>
      if l.name ∈ ((earlier ++ later).take i).map Label.name then some l.name else none := by
  induction later generalizing seen earlier with
  | nil => rfl
  | cons l later ih =>
    have hmore : earlier ++ l :: later = earlier ++ [l] ++ later := by
      rw [List.append_assoc, List.singleton_append]
    have hlength : earlier.length + 1 = (earlier ++ [l]).length := by simp
    have hearlier : ((earlier ++ l :: later).take earlier.length).map Label.name =
        earlier.map Label.name := by
      rw [List.take_left]
    by_cases hname : l.name ∈ seen
    · -- The name is known already, so nothing is added to the names that are.
      have hknown : l.name ∈ earlier.map Label.name := (hseen _).mp hname
      have hsame : ∀ name, name ∈ seen ↔ name ∈ (earlier ++ [l]).map Label.name := by
        intro name
        rw [hseen, List.map_append, List.mem_append]
        constructor
        · exact .inl
        · rintro (h | h)
          · exact h
          · rwa [List.mem_singleton.mp h]
      rw [redefinedAfter, if_pos hname, List.zipIdx_cons, List.filterMap_cons_some, ih hsame,
        hlength, hmore]
      exact if_pos (hearlier ▸ hknown)
    · have hunknown : l.name ∉ earlier.map Label.name := mt (hseen _).mpr hname
      have hadded : ∀ name, name ∈ l.name :: seen ↔ name ∈ (earlier ++ [l]).map Label.name := by
        intro name
        rw [List.mem_cons, hseen, List.map_append, List.mem_append, List.map_singleton,
          List.mem_singleton, or_comm]
      rw [redefinedAfter, if_neg hname, List.zipIdx_cons, List.filterMap_cons_none, ih hadded,
        hlength, hmore]
      exact if_neg (hearlier ▸ hunknown)

/-- A definition is reported where the name was defined before. -/
theorem redefined_eq_repeatedNames (labels : List Label) :
    redefined labels = repeatedNames labels := by
  have hnone : ∀ name, name ∈ ([] : List String) ↔ name ∈ ([] : List Label).map Label.name :=
    fun _ => Iff.rfl
  exact redefinedAfter_eq hnone labels

end Label

namespace Execution

variable {labels : List Label} {e f next last : Execution} {fault : Option Fault}

/-- What is left of the call tree: the expansions of the open bodies, the newest first. -/
def remaining (labels : List Label) : List (List Statement) → Seq (Statement × Nat)
  | [] => Seq.nil
  | body :: below =>
    (Statement.expansion (Label.body? labels) (below.length + 1) body).append
      (remaining labels below)

section Steps

variable {rest : List Statement} {below : List (List Statement)}

theorem size_frames_eq {body : List Statement} (hitems : e.frames.items = body :: below) :
    e.frames.size = below.length + 1 := by
  rw [e.frames.size_eq, hitems, List.length_cons]

theorem remaining_leave : remaining labels ([] :: below) = remaining labels below := by
  rw [remaining, Statement.expansion_nil, Seq.nil_append]

theorem remaining_skip (span : Span) (name : String) (body : List Statement) :
    remaining labels ((.label span name body :: rest) :: below) =
      remaining labels (rest :: below) := by
  rw [remaining, Statement.expansion_label, remaining]

theorem remaining_press (span : Span) (key : Key) :
    remaining labels ((.press span key :: rest) :: below) =
      Seq.cons (.press span key, below.length + 1) (remaining labels (rest :: below)) := by
  rw [remaining, Statement.expansion_press, Seq.cons_append]
  rfl

/-- Behind a call come the statements of the body, and then those behind the call. -/
theorem remaining_call {name : String} {body : List Statement}
    (hbody : Label.body? labels name = some body) (span : Span) :
    remaining labels ((.call span name :: rest) :: below) =
      Seq.cons (.call span name, below.length + 1) (remaining labels (body :: rest :: below)) := by
  rw [remaining, Statement.expansion_call, Seq.cons_append, Seq.append_assoc, hbody]
  rfl

end Steps

/-- A step reports what is pending, and that is what the walk comes to. -/
theorem Move.walks (h : Move labels e next) :
    next.events.reverse =
        e.events.reverse ++ e.pending?.toList.flatMap (Event.ofStep (Label.body? labels)) ∧
      remaining labels e.frames.items =
        (Seq.ofList e.pending?.toList).append (remaining labels next.frames.items) := by
  cases h with
  | leave hitems =>
    rw [pending?_leave hitems, BoundedStack.items_pop, hitems, remaining_leave]
    exact ⟨(List.append_nil _).symm, (Seq.nil_append _).symm⟩
  | skip hitems =>
    rw [pending?_skip hitems, BoundedStack.items_setTop hitems, hitems, remaining_skip]
    exact ⟨(List.append_nil _).symm, (Seq.nil_append _).symm⟩
  | press hitems hbudget hpress =>
    rw [pending?_of_not_isLabel hitems rfl, BoundedStack.items_setTop hitems, hitems,
      remaining_press, size_frames_eq hitems]
    refine ⟨List.reverse_cons, ?_⟩
    simp [Seq.cons_append]
  | @call span name rest body below frames hitems hbudget hbody hpush =>
    obtain ⟨-, -, hframes⟩ := BoundedStack.push_eq_ok hpush
    rw [pending?_of_not_isLabel hitems rfl, hframes, BoundedStack.items_setTop hitems, hitems,
      remaining_call hbody, size_frames_eq hitems]
    refine ⟨?_, ?_⟩
    · simp [Event.ofStep, hbody]
    · simp [Seq.cons_append]

/-- What is pending stands in the newest frame, and its depth counts this frame and those below. -/
theorem frames_of_pending? {s : Statement} {depth : Nat} (h : e.pending? = some (s, depth)) :
    s.isLabel = false ∧
      ∃ rest below, e.frames.items = (s :: rest) :: below ∧ depth = below.length + 1 := by
  obtain ⟨hlabel, rest, below, hitems⟩ := pending?_eq_some h
  rw [pending?_of_not_isLabel hitems hlabel, size_frames_eq hitems] at h
  cases h
  exact ⟨hlabel, rest, below, hitems, rfl⟩

theorem depth_of_pending? {x : Statement × Nat} (h : e.pending? = some x) :
    1 ≤ x.2 ∧ x.2 ≤ e.frames.limit := by
  obtain ⟨-, rest, below, hitems, hdepth⟩ := frames_of_pending? h
  have hlimit := e.frames.length_items_le
  rw [hitems, List.length_cons] at hlimit
  omega

/-- The walk comes to what is pending, whether or not it goes on from there. -/
theorem remaining_of_pending? (labels : List Label) {x : Statement × Nat}
    (h : e.pending? = some x) :
    ∃ later, remaining labels e.frames.items = Seq.cons x later := by
  obtain ⟨s, depth⟩ := x
  obtain ⟨hlabel, rest, below, hitems, rfl⟩ := frames_of_pending? h
  rw [hitems]
  cases s with
  | label => cases hlabel
  | press span key => exact ⟨_, remaining_press span key⟩
  | call span name =>
    rw [remaining, Statement.expansion_call, Seq.cons_append]
    exact ⟨_, rfl⟩

/-- Up to any point of a run, the events are those of the statements that the walk has passed. -/
theorem Reaches.walks (h : Reaches labels e f) :
    ∃ passed, f.events.reverse =
        e.events.reverse ++ passed.flatMap (Event.ofStep (Label.body? labels)) ∧
      remaining labels e.frames.items =
        (Seq.ofList passed).append (remaining labels f.frames.items) ∧
      f.steps = e.steps + passed.length ∧ f.frames.limit = e.frames.limit ∧
      ∀ x ∈ passed, 1 ≤ x.2 ∧ x.2 ≤ e.frames.limit := by
  obtain ⟨n, hn⟩ := h
  induction hn with
  | refl e => exact ⟨[], (List.append_nil _).symm, (Seq.nil_append _).symm, rfl, rfl, by simp⟩
  | @cons n e next f hstep _ ih =>
    obtain ⟨passed, hevents, hwalk, hsteps, hlimit, hdepth⟩ := ih
    have hmove := move_of_step hstep
    obtain ⟨hfirst, hwalkFirst⟩ := hmove.walks
    have hcount := hmove.counts.1
    rw [hmove.limit_eq] at hlimit hdepth
    refine ⟨e.pending?.toList ++ passed, ?_, ?_, ?_, hlimit, ?_⟩
    · rw [hevents, hfirst, List.flatMap_append, List.append_assoc]
    · rw [hwalkFirst, hwalk, Seq.ofList_append, Seq.append_assoc]
    · rw [hsteps, hcount, List.length_append, Nat.add_assoc]
    · intro x hx
      rcases List.mem_append.mp hx with hpending | hlater
      · exact depth_of_pending? (Option.mem_toList.mp hpending)
      · exact hdepth x hlater

/-- The statements that a run has gone past are within its budget. -/
theorem Reaches.exceeds_eq (h : Reaches labels e f)
    (he : e.machine.config.exceeds e.steps = false) :
    f.machine.config.exceeds f.steps = false := by
  apply h.preserves (P := fun e => e.machine.config.exceeds e.steps = false) ?_ he
  intro e next he hmove
  rw [hmove.config_eq]
  cases hmove with
  | leave | skip => exact he
  | press _ hbudget | call _ hbudget => exact hbudget

/-- A run that has come to the end of its budget reports nothing more. One that fails for another
reason has reported the statement that fails. -/
theorem Stop.walks {fault : Fault} (h : Stop labels e (some fault) last) :
    ∃ s depth, e.pending? = some (s, depth) ∧ fault.span = s.span ∧
      ((fault.kind = .stepLimitExceeded ∧ last.events = e.events ∧
          e.machine.config.exceeds (e.steps + 1) = true) ∨
        (fault.kind ≠ .stepLimitExceeded ∧ last.events.reverse =
          e.events.reverse ++ Event.ofStep (Label.body? labels) (s, depth))) := by
  obtain ⟨s, rest, below, hitems, hfails⟩ := h.fails
  have hpending := pending?_of_not_isLabel hitems hfails.isLabel_eq
  refine ⟨s, e.frames.size, hpending, hfails.span_eq, ?_⟩
  cases h with
  | budget _ _ hbudget => exact .inl ⟨rfl, rfl, hbudget⟩
  | press hitems' _ hpress =>
    rw [hitems] at hitems'
    cases hitems'
    refine .inr ⟨?_, List.reverse_cons⟩
    -- No key knows of the budget.
    obtain ⟨name, -, rfl, -⟩ | ⟨-, -, rfl | rfl⟩ := Machine.fault_of_press hpress <;> nofun
  | undefined hitems' _ hbody =>
    rw [hitems] at hitems'
    cases hitems'
    refine .inr ⟨nofun, ?_⟩
    simp [Event.ofStep, hbody]
  | overflow hitems' _ hbody =>
    rw [hitems] at hitems'
    cases hitems'
    refine .inr ⟨nofun, ?_⟩
    simp [Event.ofStep, hbody]

end Execution

open Execution in
/-- A run of `p` on `m` executes `steps` and reports so, walking through the call tree of `p`. -/
structure Run.WalksCallTree (r : Run) (m : Machine) (p : Program)
    (steps : List (Statement × Nat)) : Prop where
  /-- First the labels that are defined again, then the statements one by one, then the end. -/
  events_eq : r.events = (Label.repeatedNames p.labels).map .redefined ++
    steps.flatMap (Event.ofStep p.lastBody?) ++
    if r.fault.isNone then [.finished steps.length r.machine.x] else []
  /-- The statements are the first ones of the expansion. -/
  expansion_eq : ∃ later,
    Statement.expansion p.lastBody? 1 p.statements = (Seq.ofList steps).append later
  depth_le : ∀ x ∈ steps, 1 ≤ x.2 ∧ x.2 ≤ m.config.callDepth + 1
  /-- A run that ends well has executed the whole expansion. -/
  complete : r.fault = none → Statement.expansion p.lastBody? 1 p.statements = Seq.ofList steps
  /-- A run that is cut off has used up its budget. -/
  exhausted : ∀ fault, r.fault = some fault → fault.kind = .stepLimitExceeded →
    m.config.stepBudget = some steps.length
  /-- Otherwise the run stops in the statement that it has reported last. -/
  failed : ∀ fault, r.fault = some fault → fault.kind ≠ .stepLimitExceeded →
    ∃ e s depth last, Reaches p.labels (start m.clear p) e ∧ e.pending? = some (s, depth) ∧
      e.step p.labels = .stopped (some fault) last ∧ last.machine = r.machine ∧
      fault.span = s.span ∧ steps.getLast? = some (s, depth)

/-- What a run has executed can be read off what it reports. -/
theorem Run.WalksCallTree.executed_eq {r : Run} {m : Machine} {p : Program}
    {steps : List (Statement × Nat)} (h : r.WalksCallTree m p steps) : r.executed = steps := by
  have hwarnings : ∀ names : List String,
      (names.map Event.redefined).filterMap Event.executed? = [] := by
    intro names
    simp [List.filterMap_map, Function.comp_def, Event.executed?]
  rw [Run.executed, h.events_eq, List.filterMap_append, List.filterMap_append, hwarnings,
    Event.filterMap_executed?_ofStep]
  split
  · exact List.append_nil steps
  · exact List.append_nil steps

theorem Config.exceeds_zero (config : Config) : config.exceeds 0 = false := by
  unfold Config.exceeds
  split
  · exact decide_eq_false (Nat.not_lt_zero _)
  · rfl

theorem Config.stepBudget_of_exceeds {config : Config} {steps : Nat}
    (hwithin : config.exceeds steps = false) (hbeyond : config.exceeds (steps + 1) = true) :
    config.stepBudget = some steps := by
  unfold Config.exceeds at hwithin hbeyond
  cases hbudget : config.stepBudget with
  | none =>
    rw [hbudget] at hbeyond
    cases hbeyond
  | some budget =>
    simp only [hbudget, decide_eq_false_iff_not, decide_eq_true_eq] at hwithin hbeyond
    congr
    omega

namespace Execution

/-- A run of `p` on `m` has come to this point past the statements `passed`. -/
structure HasPassed (e : Execution) (m : Machine) (p : Program)
    (passed : List (Statement × Nat)) : Prop where
  events_eq : e.events.reverse = (Label.repeatedNames p.labels).map .redefined ++
    passed.flatMap (Event.ofStep p.lastBody?)
  expansion_eq : Statement.expansion p.lastBody? 1 p.statements =
    (Seq.ofList passed).append (remaining p.labels e.frames.items)
  steps_eq : e.steps = passed.length
  limit_le : e.frames.limit ≤ m.config.callDepth + 1
  depth_le : ∀ x ∈ passed, 1 ≤ x.2 ∧ x.2 ≤ m.config.callDepth + 1

variable {m : Machine} {p : Program} {e last : Execution} {fault : Fault}
variable {passed : List (Statement × Nat)}

theorem Reaches.exists_hasPassed (h : Reaches p.labels (start m.clear p) e) :
    ∃ passed, e.HasPassed m p passed := by
  obtain ⟨passed, hevents, hwalk, hsteps, hlimit, hdepth⟩ := h.walks
  have hroom : (start m.clear p).frames.limit ≤ m.config.callDepth + 1 := Nat.min_le_left _ _
  have hwarnings : (start m.clear p).events.reverse =
      (Label.repeatedNames p.labels).map .redefined := by
    rw [← Label.redefined_eq_repeatedNames, start, ← List.map_reverse, List.reverse_reverse]
  have hwhole : remaining p.labels (start m.clear p).frames.items =
      Statement.expansion (Label.body? p.labels) 1 p.statements := Seq.append_nil _
  have hlookup : p.lastBody? = Label.body? p.labels := funext p.lastBody?_eq_body?_labels
  rw [hwarnings, ← hlookup] at hevents
  rw [hwhole, ← hlookup] at hwalk
  refine ⟨passed, hevents, hwalk, hsteps.trans (Nat.zero_add _), hlimit.trans_le hroom, ?_⟩
  intro x hx
  exact ⟨(hdepth x hx).1, (hdepth x hx).2.trans hroom⟩

namespace HasPassed

/-- Where no frame is left, the walk is at its end. -/
theorem walks_of_done (h : e.HasPassed m p passed) (hitems : e.frames.items = [])
    (hrun : m.run p = e.close none) : (m.run p).WalksCallTree m p passed := by
  have hfault : (m.run p).fault = none := by rw [hrun, fault_close]
  refine ⟨?_, ⟨_, h.expansion_eq⟩, h.depth_le, ?_, ?_, ?_⟩
  · rw [hrun]
    show (Event.finished e.steps e.machine.x :: e.events).reverse = _
    rw [List.reverse_cons, h.events_eq, h.steps_eq]
    rfl
  · intro _
    rw [h.expansion_eq, hitems]
    exact Seq.append_nil _
  · intro fault hsome
    cases hfault.symm.trans hsome
  · intro fault hsome
    cases hfault.symm.trans hsome

/-- Where the budget ends, the walk stops in front of the next statement. -/
theorem walks_of_cutOff (h : e.HasPassed m p passed)
    (hbudget : m.config.stepBudget = some passed.length)
    (hkind : fault.kind = .stepLimitExceeded) (hevents : last.events = e.events)
    (hrun : m.run p = last.close (some fault)) : (m.run p).WalksCallTree m p passed := by
  have hfault : (m.run p).fault = some fault := by rw [hrun, fault_close]
  refine ⟨?_, ⟨_, h.expansion_eq⟩, h.depth_le, ?_, ?_, ?_⟩
  · rw [hrun]
    show last.events.reverse = _
    rw [hevents, h.events_eq]
    exact (List.append_nil _).symm
  · intro hnone
    cases hfault.symm.trans hnone
  · intro _ _ _
    exact hbudget
  · intro other hother hne
    cases hfault.symm.trans hother
    exact absurd hkind hne

/-- Where a statement fails, the walk has come to this statement. -/
theorem walks_of_failed {s : Statement} {depth : Nat} (h : e.HasPassed m p passed)
    (hreaches : Reaches p.labels (start m.clear p) e)
    (hstep : e.step p.labels = .stopped (some fault) last)
    (hpending : e.pending? = some (s, depth)) (hspan : fault.span = s.span)
    (hkind : fault.kind ≠ .stepLimitExceeded)
    (hevents : last.events.reverse =
      e.events.reverse ++ Event.ofStep (Label.body? p.labels) (s, depth))
    (hrun : m.run p = last.close (some fault)) :
    (m.run p).WalksCallTree m p (passed ++ [(s, depth)]) := by
  have hfault : (m.run p).fault = some fault := by rw [hrun, fault_close]
  have hlookup : p.lastBody? = Label.body? p.labels := funext p.lastBody?_eq_body?_labels
  obtain ⟨later, hlater⟩ := remaining_of_pending? p.labels hpending
  refine ⟨?_, ⟨later, ?_⟩, ?_, ?_, ?_, ?_⟩
  · rw [hrun]
    show last.events.reverse = _ ++ []
    rw [hevents, h.events_eq, hlookup, List.flatMap_append, List.flatMap_singleton,
      List.append_nil, List.append_assoc]
  · rw [h.expansion_eq, hlater, Seq.ofList_append, Seq.append_assoc, Seq.ofList_cons,
      Seq.ofList_nil, Seq.cons_append, Seq.nil_append]
  · intro x hx
    rcases List.mem_append.mp hx with hpassed | hlast
    · exact h.depth_le x hpassed
    · obtain rfl := List.mem_singleton.mp hlast
      have hdepth := depth_of_pending? hpending
      exact ⟨hdepth.1, hdepth.2.trans h.limit_le⟩
  · intro hnone
    cases hfault.symm.trans hnone
  · intro other hother hcut
    cases hfault.symm.trans hother
    exact absurd hcut hkind
  · intro other hother _
    cases hfault.symm.trans hother
    refine ⟨e, s, depth, last, hreaches, hpending, hstep, ?_, hspan, ?_⟩
    · rw [hrun, machine_close]
    · exact List.getLast?_concat

end HasPassed

/-- A run comes to the end of its budget with the statements that the budget allows. -/
theorem Reaches.stepBudget_eq (h : Reaches p.labels (start m.clear p) e)
    (hbeyond : e.machine.config.exceeds (e.steps + 1) = true) :
    m.config.stepBudget = some e.steps := by
  have hconfig : e.machine.config = m.config :=
    h.preserves (P := fun e => e.machine.config = m.config)
      (fun _ _ he hmove => hmove.config_eq.trans he) rfl
  have hwithin := h.exceeds_eq (Config.exceeds_zero _)
  rw [hconfig] at hwithin hbeyond
  exact Config.stepBudget_of_exceeds hwithin hbeyond

end Execution

namespace Machine

open Execution

theorem exists_walksCallTree (m : Machine) (p : Program) :
    ∃ steps, (m.run p).WalksCallTree m p steps := by
  obtain ⟨n, e, stopped, last, hn, hstep, hdrive⟩ := exists_stopped p.labels (start m.clear p)
  have hreaches : Reaches p.labels (start m.clear p) e := ⟨n, hn⟩
  have hrun : m.run p = last.close stopped := hdrive
  obtain ⟨passed, hpassed⟩ := hreaches.exists_hasPassed
  have hstop := stop_of_step hstep
  cases stopped with
  | none =>
    cases hstop with
    | done hitems => exact ⟨passed, hpassed.walks_of_done hitems hrun⟩
  | some fault =>
    obtain ⟨s, depth, hpending, hspan, ⟨hkind, hevents, hbeyond⟩ | ⟨hkind, hevents⟩⟩ :=
      hstop.walks
    · have hbudget := hreaches.stepBudget_eq hbeyond
      rw [hpassed.steps_eq] at hbudget
      exact ⟨passed, hpassed.walks_of_cutOff hbudget hkind hevents hrun⟩
    · exact ⟨passed ++ [(s, depth)],
        hpassed.walks_of_failed hreaches hstep hpending hspan hkind hevents hrun⟩

/-- The statements that a run reports are those of the call tree of its program in the order of the
walk, from the first one on. What else is in the log is determined by them: the labels that were
defined again in front, a further event behind each call of a defined label, and their number at the
end of a run that came to the end of the tree. A run that is cut off reports as many statements as
its budget allows, and one that fails in a statement reports that statement last. -/
theorem run_walksCallTree (m : Machine) (p : Program) :
    (m.run p).WalksCallTree m p (m.run p).executed := by
  obtain ⟨steps, hsteps⟩ := exists_walksCallTree m p
  rwa [hsteps.executed_eq]

/-- A label that is defined twice and calls itself, with room for two calls. The call tree has no
end, and the third call of the walk is the one that fails. -/
theorem run_walksCallTree_recursive :
    let m := fresh (Config.standard.withCallDepth 2)
    let p : Program := ⟨[.label ⟨0, 3⟩ "f" [], .call ⟨4, 7⟩ "f", .press ⟨8, 9⟩ (.push .one),
      .label ⟨10, 13⟩ "f" [.press ⟨14, 15⟩ (.push .one), .call ⟨16, 19⟩ "f"]]⟩
    (m.run p).fault = some ⟨.callStackOverflow, ⟨16, 19⟩, "f"⟩ ∧
      (m.run p).executed.map (fun (s, depth) => (s.span, depth)) =
        [(⟨4, 7⟩, 1), (⟨14, 15⟩, 2), (⟨16, 19⟩, 2), (⟨14, 15⟩, 3), (⟨16, 19⟩, 3)] ∧
      (m.run p).events = .redefined "f" :: (m.run p).executed.flatMap (Event.ofStep p.lastBody?) ∧
      ∃ later, Statement.expansion p.lastBody? 1 p.statements =
        (Seq.ofList (m.run p).executed).append later := by
  intro m p
  have hfault : (m.run p).fault = some ⟨.callStackOverflow, ⟨16, 19⟩, "f"⟩ := by decide +kernel
  have hwalks := run_walksCallTree m p
  have hevents := hwalks.events_eq
  rw [hfault] at hevents
  refine ⟨hfault, by decide +kernel, hevents.trans ?_, hwalks.expansion_eq⟩
  exact List.append_nil _

end Machine

end Keystroke
