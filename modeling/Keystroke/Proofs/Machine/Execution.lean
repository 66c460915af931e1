import Keystroke.Machine.Trace
import Mathlib.Data.List.Forall2

/-!
# Executions as rules and as sequences of steps

`Move` and `Stop` say, one rule for each case, what a single step of a run can do and under which
conditions. They describe `Execution.step` completely, so later facts about runs split on these
rules and never open the step itself.

`Iterates labels n e f` means that exactly `n` steps take `e` to `f`. A run is the end of such a
sequence: `drive` follows the rules until one of `Stop` applies.
-/

namespace Keystroke

namespace BoundedStack

variable {α : Type}

@[simp] theorem size_setTop (s : BoundedStack α) (x : α) : (s.setTop x).size = s.size := by
  unfold setTop
  split <;> rfl

theorem push_eq_error {s : BoundedStack α} {x : α} {fault : Fault}
    (h : s.push x = .error fault) :
    s.limit ≤ s.items.length ∧ fault = { kind := .callStackOverflow } := by
  unfold push at h
  split at h
  · simp at h
  · next hfull =>
    cases h
    exact ⟨s.size_eq ▸ Nat.le_of_not_lt hfull, rfl⟩

/-- A stack holds no more than its limit allows. -/
theorem length_items_le (s : BoundedStack α) : s.items.length ≤ s.limit :=
  s.size_eq ▸ s.size_le

end BoundedStack

namespace Machine

@[simp] theorem config_push (m : Machine) (n : Decimal) : (m.push n).config = m.config := rfl

@[simp] theorem config_clear (m : Machine) : m.clear.config = m.config := rfl

/-- No key changes the settings. -/
@[simp] theorem config_press (m : Machine) (span : Span) (key : Key) :
    (m.press span key).1.config = m.config := by
  cases key with
  | push n => rfl
  | store name => rfl
  | load name =>
    simp only [press]
    split <;> rfl
  | arithmetic op =>
    simp only [press, popOperands]
    split <;> rfl
  | compare c => rfl

/-- Of the settings a key looks at the digits of quotients only. -/
theorem press_withConfig (m : Machine) (config : Config)
    (h : config.divisionScale = m.config.divisionScale) (span : Span) (key : Key) :
    { m with config }.press span key =
      ({ (m.press span key).1 with config }, (m.press span key).2) := by
  cases key with
  | push n => rfl
  | store name => rfl
  | load name =>
    simp only [press]
    cases m.memory.fetch span name <;> rfl
  | arithmetic op =>
    simp only [press, popOperands, h]
    split <;> rfl
  | compare c => rfl

end Machine

namespace Execution

/-- Steps after which a run goes on: a finished body is left, a label is passed over, a key is
pressed, or a label is called. -/
inductive Move (labels : List Label) (e : Execution) : Execution → Prop where
  | leave {below : List (List Statement)} (hitems : e.frames.items = [] :: below) :
      Move labels e { e with frames := e.frames.pop }
  | skip {span : Span} {name : String} {body rest : List Statement}
      {below : List (List Statement)}
      (hitems : e.frames.items = (.label span name body :: rest) :: below) :
      Move labels e { e with frames := e.frames.setTop rest }
  | press {span : Span} {key : Key} {rest : List Statement} {below : List (List Statement)}
      {machine : Machine} (hitems : e.frames.items = (.press span key :: rest) :: below)
      (hbudget : e.machine.config.exceeds (e.steps + 1) = false)
      (hpress : e.machine.press span key = (machine, none)) :
      Move labels e ⟨machine, e.frames.setTop rest, e.steps + 1,
        .step (.press span key) e.frames.size :: e.events⟩
  | call {span : Span} {name : String} {rest body : List Statement}
      {below : List (List Statement)} {frames : BoundedStack (List Statement)}
      (hitems : e.frames.items = (.call span name :: rest) :: below)
      (hbudget : e.machine.config.exceeds (e.steps + 1) = false)
      (hbody : Label.body? labels name = some body)
      (hpush : (e.frames.setTop rest).push body = .ok frames) :
      Move labels e ⟨e.machine, frames, e.steps + 1,
        .call name e.frames.size :: .step (.call span name) e.frames.size :: e.events⟩

/-- Steps that end a run: all frames are gone, the budget is used up, a key fails, or a call
fails because its label is undefined or because too many calls are open. -/
inductive Stop (labels : List Label) (e : Execution) : Option Fault → Execution → Prop where
  | done (hitems : e.frames.items = []) : Stop labels e none e
  | budget {s : Statement} {rest : List Statement} {below : List (List Statement)}
      (hitems : e.frames.items = (s :: rest) :: below) (hlabel : s.isLabel = false)
      (hbudget : e.machine.config.exceeds (e.steps + 1) = true) :
      Stop labels e (some { kind := .stepLimitExceeded, span := s.span })
        ⟨e.machine, e.frames.setTop rest, e.steps + 1, e.events⟩
  | press {span : Span} {key : Key} {rest : List Statement} {below : List (List Statement)}
      {machine : Machine} {fault : Fault}
      (hitems : e.frames.items = (.press span key :: rest) :: below)
      (hbudget : e.machine.config.exceeds (e.steps + 1) = false)
      (hpress : e.machine.press span key = (machine, some fault)) :
      Stop labels e (some fault) ⟨machine, e.frames.setTop rest, e.steps + 1,
        .step (.press span key) e.frames.size :: e.events⟩
  | undefined {span : Span} {name : String} {rest : List Statement}
      {below : List (List Statement)}
      (hitems : e.frames.items = (.call span name :: rest) :: below)
      (hbudget : e.machine.config.exceeds (e.steps + 1) = false)
      (hbody : Label.body? labels name = none) :
      Stop labels e (some ⟨.undefinedLabel, span, name⟩)
        ⟨e.machine, e.frames.setTop rest, e.steps + 1,
          .step (.call span name) e.frames.size :: e.events⟩
  | overflow {span : Span} {name : String} {rest body : List Statement}
      {below : List (List Statement)}
      (hitems : e.frames.items = (.call span name :: rest) :: below)
      (hbudget : e.machine.config.exceeds (e.steps + 1) = false)
      (hbody : Label.body? labels name = some body)
      (hfull : e.frames.limit ≤ below.length + 1) :
      Stop labels e (some ⟨.callStackOverflow, span, name⟩)
        ⟨e.machine, e.frames.setTop rest, e.steps + 1,
          .call name e.frames.size :: .step (.call span name) e.frames.size :: e.events⟩

variable {labels : List Label} {e next last : Execution} {fault : Option Fault}

def Follows (labels : List Label) (e : Execution) : Transition → Prop
  | .moved next => Move labels e next
  | .stopped fault last => Stop labels e fault last

private theorem enter_follows {span : Span} {name : String} {rest body : List Statement}
    {below : List (List Statement)}
    (hitems : e.frames.items = (.call span name :: rest) :: below)
    (hbudget : e.machine.config.exceeds (e.steps + 1) = false)
    (hbody : Label.body? labels name = some body) :
    Follows labels e (Execution.enter ⟨e.machine, e.frames.setTop rest, e.steps + 1,
      .call name e.frames.size :: .step (.call span name) e.frames.size :: e.events⟩
        span name body) := by
  unfold enter
  split
  · next hpush => exact .call hitems hbudget hbody hpush
  · next hpush =>
    obtain ⟨hfull, rfl⟩ := BoundedStack.push_eq_error hpush
    rw [BoundedStack.items_setTop hitems, BoundedStack.limit_setTop] at hfull
    exact .overflow hitems hbudget hbody hfull

private theorem reach_follows {s : Statement} {rest : List Statement}
    {below : List (List Statement)} (hitems : e.frames.items = (s :: rest) :: below) :
    Follows labels e ({ e with frames := e.frames.setTop rest }.reach labels s) := by
  unfold reach attempt
  cases hbudget : e.machine.config.exceeds (e.steps + 1) with
  | true =>
    cases s with
    | label span name body => exact .skip hitems
    | press span key =>
      simp only [count, hbudget]
      exact .budget hitems rfl hbudget
    | call span name =>
      simp only [count, hbudget]
      exact .budget hitems rfl hbudget
  | false =>
    cases s with
    | label span name body => exact .skip hitems
    | press span key =>
      simp only [Statement.isLabel, count, hbudget, report, act, BoundedStack.size_setTop]
      rcases hpress : e.machine.press span key with ⟨machine, failure⟩
      cases failure with
      | none => exact .press hitems hbudget hpress
      | some fault => exact .press hitems hbudget hpress
    | call span name =>
      simp only [Statement.isLabel, count, hbudget, report, act, BoundedStack.size_setTop]
      cases hbody : Label.body? labels name with
      | none => exact .undefined hitems hbudget hbody
      | some body => exact enter_follows hitems hbudget hbody

/-- Every step follows one of the rules. -/
theorem step_follows (labels : List Label) (e : Execution) :
    Follows labels e (e.step labels) := by
  unfold step BoundedStack.top?
  cases hitems : e.frames.items with
  | nil => exact .done hitems
  | cons body below =>
    cases body with
    | nil => exact .leave hitems
    | cons s rest => exact reach_follows hitems

theorem step_done (hitems : e.frames.items = []) : e.step labels = .stopped none e := by
  rw [step, BoundedStack.top?, hitems]
  rfl

theorem step_leave {below : List (List Statement)} (hitems : e.frames.items = [] :: below) :
    e.step labels = .moved { e with frames := e.frames.pop } := by
  rw [step, BoundedStack.top?, hitems]
  rfl

theorem step_reach {s : Statement} {rest : List Statement} {below : List (List Statement)}
    (hitems : e.frames.items = (s :: rest) :: below) :
    e.step labels = { e with frames := e.frames.setTop rest }.reach labels s := by
  rw [step, BoundedStack.top?, hitems]
  rfl

theorem move_of_step (h : e.step labels = .moved next) : Move labels e next := by
  have hrule := step_follows labels e
  rwa [h] at hrule

theorem stop_of_step (h : e.step labels = .stopped fault last) : Stop labels e fault last := by
  have hrule := step_follows labels e
  rwa [h] at hrule

/-- A statement that the budget allows is counted, reported and executed. -/
theorem step_act {s : Statement} {rest : List Statement} {below : List (List Statement)}
    (hitems : e.frames.items = (s :: rest) :: below) (hlabel : s.isLabel = false)
    (hbudget : e.machine.config.exceeds (e.steps + 1) = false) :
    e.step labels = act labels ⟨e.machine, e.frames.setTop rest, e.steps + 1,
      .step s e.frames.size :: e.events⟩ s := by
  rw [step_reach hitems]
  simp [reach, attempt, count, report, hlabel, hbudget]

/-- A rule by which a run goes on says what its step does. -/
theorem Move.step_eq (h : Move labels e next) : e.step labels = .moved next := by
  cases h with
  | leave hitems => exact step_leave hitems
  | skip hitems => exact step_reach hitems
  | press hitems hbudget hpress =>
    rw [step_act hitems rfl hbudget]
    simp [act, hpress]
  | call hitems hbudget hbody hpush =>
    rw [step_act hitems rfl hbudget]
    simp [act, enter, report, hbody, hpush]

/-- A rule by which a run stops says what its step does. -/
theorem Stop.step_eq (h : Stop labels e fault last) : e.step labels = .stopped fault last := by
  cases h with
  | done hitems => exact step_done hitems
  | budget hitems hlabel hbudget =>
    rw [step_reach hitems]
    simp [reach, attempt, count, hlabel, hbudget]
  | press hitems hbudget hpress =>
    rw [step_act hitems rfl hbudget]
    simp [act, hpress]
  | undefined hitems hbudget hbody =>
    rw [step_act hitems rfl hbudget]
    simp [act, hbody]
  | @overflow span name rest body below hitems hbudget hbody hfull =>
    have hpush : (e.frames.setTop rest).push body = .error { kind := .callStackOverflow } := by
      have hsize := e.frames.size_eq
      rw [hitems, List.length_cons] at hsize
      exact dif_neg (by simpa [hsize] using hfull)
    rw [step_act hitems rfl hbudget]
    simp [act, enter, report, hbody, hpush, Fault.inSpan, Fault.about]

/-- No step changes the settings. -/
theorem Move.config_eq (h : Move labels e next) : next.machine.config = e.machine.config := by
  cases h with
  | leave => rfl
  | skip => rfl
  | @press span key _ _ machine _ _ hpress =>
    have hconfig := e.machine.config_press span key
    rwa [hpress] at hconfig
  | call => rfl

/-- No step changes the number of frames that may be open. -/
theorem Move.limit_eq (h : Move labels e next) : next.frames.limit = e.frames.limit := by
  cases h with
  | leave => rfl
  | skip => exact BoundedStack.limit_setTop _ _
  | press => exact BoundedStack.limit_setTop _ _
  | call _ _ _ hpush =>
    obtain ⟨-, hlimit, -⟩ := BoundedStack.push_eq_ok hpush
    rw [hlimit, BoundedStack.limit_setTop]

/-- What a step does to the frames: the newest body is left because nothing remains of it, or
its next statement is taken from it, and a body that can be called may then be put on top. -/
inductive FrameStep (labels : List Label) :
    List (List Statement) → List (List Statement) → Prop where
  | leave (below : List (List Statement)) : FrameStep labels ([] :: below) below
  | advance (s : Statement) (rest : List Statement) (below : List (List Statement)) :
      FrameStep labels ((s :: rest) :: below) (rest :: below)
  | call {name : String} {body : List Statement} (s : Statement) (rest : List Statement)
      (below : List (List Statement)) (hbody : Label.body? labels name = some body) :
      FrameStep labels ((s :: rest) :: below) (body :: rest :: below)

theorem Move.frameStep (h : Move labels e next) :
    FrameStep labels e.frames.items next.frames.items := by
  cases h with
  | leave hitems =>
    rw [BoundedStack.items_pop, hitems]
    exact .leave _
  | skip hitems =>
    rw [BoundedStack.items_setTop hitems, hitems]
    exact .advance _ _ _
  | press hitems =>
    rw [BoundedStack.items_setTop hitems, hitems]
    exact .advance _ _ _
  | call hitems _ hbody hpush =>
    obtain ⟨-, -, hframes⟩ := BoundedStack.push_eq_ok hpush
    rw [hframes, BoundedStack.items_setTop hitems, hitems]
    exact .call _ _ _ hbody

/-- Exactly `n` steps, none of which stops, lead from the first execution to the second. -/
inductive Iterates (labels : List Label) : Nat → Execution → Execution → Prop where
  | refl (e : Execution) : Iterates labels 0 e e
  | cons {n : Nat} {e f g : Execution} :
      e.step labels = .moved f → Iterates labels n f g → Iterates labels (n + 1) e g

/-- Some number of steps leads from the first execution to the second. -/
def Reaches (labels : List Label) (e f : Execution) : Prop := ∃ n, Iterates labels n e f

theorem Reaches.refl (labels : List Label) (e : Execution) : Reaches labels e e :=
  ⟨0, .refl e⟩

theorem Reaches.head {f : Execution} (hstep : e.step labels = .moved next)
    (h : Reaches labels next f) : Reaches labels e f := by
  obtain ⟨n, hn⟩ := h
  exact ⟨n + 1, .cons hstep hn⟩

theorem Reaches.eq_or_step {f : Execution} (h : Reaches labels e f) :
    f = e ∨ ∃ next, e.step labels = .moved next ∧ Reaches labels next f := by
  obtain ⟨n, hn⟩ := h
  cases hn with
  | refl => exact .inl rfl
  | cons hstep hrest => exact .inr ⟨_, hstep, _, hrest⟩

/-- What every step preserves holds of all executions that can be reached. -/
theorem Reaches.preserves {f : Execution} {P : Execution → Prop}
    (hmove : ∀ ⦃e next⦄, P e → Move labels e next → P next)
    (h : Reaches labels e f) (he : P e) : P f := by
  obtain ⟨n, hn⟩ := h
  induction hn with
  | refl => exact he
  | cons hstep _ ih => exact ih (hmove he (move_of_step hstep))

theorem Reaches.limit_eq {f : Execution} (h : Reaches labels e f) :
    f.frames.limit = e.frames.limit :=
  h.preserves (P := fun g => g.frames.limit = e.frames.limit)
    (fun _ _ hlimit hmove => hmove.limit_eq.trans hlimit) rfl

theorem drive_of_moved (h : e.step labels = .moved next) :
    e.drive labels = next.drive labels := by
  rw [drive]
  split
  · next f hf =>
    rw [h] at hf
    cases hf
    rfl
  · next hf => simp [h] at hf

theorem drive_of_stopped (h : e.step labels = .stopped fault last) :
    e.drive labels = last.close fault := by
  rw [drive]
  split
  · next hf => simp [h] at hf
  · next hf =>
    rw [h] at hf
    cases hf
    rfl

end Execution

/-- The lists of statements that frames are made of: the program itself and the bodies of its
labels at the top level. -/
def Program.IsBody (p : Program) (body : List Statement) : Prop :=
  body = p.statements ∨ ∃ l ∈ p.labels, body = l.body

theorem Label.exists_mem_of_body? {labels : List Label} {name : String} {body : List Statement}
    (h : body? labels name = some body) : ∃ l ∈ labels, body = l.body := by
  induction labels with
  | nil => simp [body?] at h
  | cons first later ih =>
    rw [body?] at h
    split at h
    · next found =>
      obtain ⟨l, hl, hbody⟩ := ih (found.trans h)
      exact ⟨l, List.mem_cons_of_mem _ hl, hbody⟩
    · split at h
      · cases h
        exact ⟨first, List.mem_cons_self, rfl⟩
      · simp at h

/-- Where the definitions have the same names and related bodies, one by one, a name is defined in
both lists or in none, with related bodies. -/
theorem Label.body?_rel {R : List Statement → List Statement → Prop} {labels others : List Label}
    (h : List.Forall₂ (fun l m => l.name = m.name ∧ R l.body m.body) labels others)
    (name : String) : Option.Rel R (body? labels name) (body? others name) := by
  induction h with
  | nil => exact .none
  | @cons l m later others hl _ ih =>
    rw [body?, body?, hl.1]
    -- The last definition counts, so those after this one decide first.
    generalize body? later name = found at ih ⊢
    generalize body? others name = other at ih ⊢
    cases ih with
    | some hbody => exact .some hbody
    | none =>
      simp only
      split
      · exact .some hl.2
      · exact .none

/-- Every frame is what is left of one of the bodies of the program. -/
def Program.Covers (p : Program) (frames : List (List Statement)) : Prop :=
  ∀ rest ∈ frames, ∃ body, p.IsBody body ∧ rest <:+ body

/-- The next statement is one of a body. -/
theorem Program.Covers.exists_mem {p : Program} {frames below : List (List Statement)}
    {s : Statement} {rest : List Statement} (h : p.Covers frames)
    (hitems : frames = (s :: rest) :: below) : ∃ body, p.IsBody body ∧ s ∈ body := by
  subst hitems
  obtain ⟨body, hbody, hsuffix⟩ := h _ List.mem_cons_self
  exact ⟨body, hbody, hsuffix.subset List.mem_cons_self⟩

namespace Execution

theorem covers_start (m : Machine) (p : Program) : p.Covers (start m p).frames.items := by
  intro rest hrest
  obtain rfl : rest = p.statements := by simpa [start, BoundedStack.single] using hrest
  exact ⟨_, .inl rfl, List.suffix_refl _⟩

private theorem covers_advance {p : Program} {s : Statement} {rest : List Statement}
    {below : List (List Statement)} (h : p.Covers ((s :: rest) :: below)) :
    p.Covers (rest :: below) := by
  obtain ⟨⟨body, hbody, hsuffix⟩, hbelow⟩ := List.forall_mem_cons.mp h
  exact List.forall_mem_cons.mpr
    ⟨⟨body, hbody, (List.suffix_cons s rest).trans hsuffix⟩, hbelow⟩

/-- Frames lose statements from the front only, and new ones are bodies of labels. -/
theorem FrameStep.covers {p : Program} {before after : List (List Statement)}
    (h : FrameStep p.labels before after) (hbefore : p.Covers before) : p.Covers after := by
  cases h with
  | leave below => exact (List.forall_mem_cons.mp hbefore).2
  | advance s rest below => exact covers_advance hbefore
  | call s rest below hbody =>
    exact List.forall_mem_cons.mpr
      ⟨⟨_, .inr (Label.exists_mem_of_body? hbody), List.suffix_refl _⟩,
        covers_advance hbefore⟩

theorem Reaches.covers {p : Program} {m : Machine} {e : Execution}
    (h : Reaches p.labels (start m p) e) : p.Covers e.frames.items :=
  h.preserves (P := fun e => p.Covers e.frames.items)
    (fun _ _ he hmove => hmove.frameStep.covers he) (covers_start m p)

end Execution

end Keystroke
