import Keystroke.Proofs.Machine.Correspondence

/-!
# Resolution of labels

A run finds the body of a label by its name only: the last definition at the top level counts,
wherever it stands and wherever the call stands. Labels are never executed where they stand, and
those inside a body are not found at all. So a run depends on two things, the statements at the top
level that are not labels and the last body behind each name, and in that body labels do not count.

In particular labels can be moved, definitions that a later one replaces can be dropped, and labels
inside labels can be deleted.
-/

namespace Keystroke

namespace Statement

/-- The statements that are executed where they stand: all but labels. -/
def withoutLabels (ss : List Statement) : List Statement := ss.filter fun s => !s.isLabel

def withoutNestedLabels : Statement → Statement
  | label span name body => label span name (withoutLabels body)
  | s => s

@[simp] theorem withoutLabels_append (ss tt : List Statement) :
    withoutLabels (ss ++ tt) = withoutLabels ss ++ withoutLabels tt :=
  List.filter_append ss tt

@[simp] theorem withoutLabels_label (span : Span) (name : String) (body ss : List Statement) :
    withoutLabels (.label span name body :: ss) = withoutLabels ss := rfl

@[simp] theorem withoutLabels_withoutLabels (ss : List Statement) :
    withoutLabels (withoutLabels ss) = withoutLabels ss := by
  simp [withoutLabels]

/-- Labels in front of a list do not count. -/
theorem Corresponds.append_labels {place : Span → Span} {R : Key → Key → Prop}
    {ss tt labels : List Statement} (h : Corresponds place R ss tt)
    (hlabels : ∀ s ∈ labels, s.isLabel = true) : Corresponds place R ss (labels ++ tt) := by
  induction labels with
  | nil => exact h
  | cons s labels ih =>
    obtain ⟨hs, hrest⟩ := List.forall_mem_cons.mp hlabels
    cases s with
    | label span name body => exact .skipRight span name body (ih hrest)
    | press | call => cases hs

/-- Lists that agree without their labels correspond. -/
theorem corresponds_of_withoutLabels_eq {ss tt : List Statement}
    (h : withoutLabels ss = withoutLabels tt) : Corresponds id Eq ss tt := by
  induction ss generalizing tt with
  | nil =>
    have hlabels : ∀ s ∈ tt, s.isLabel = true := by
      simpa [withoutLabels] using h.symm
    simpa using Corresponds.nil.append_labels hlabels
  | cons s ss ih =>
    -- The first statement that is executed stands behind some labels of the other list.
    have hexecuted : s.isLabel = false → ∃ labels rest, tt = labels ++ s :: rest ∧
        (∀ t ∈ labels, t.isLabel = true) ∧ Corresponds id Eq ss rest := by
      intro hs
      have hcons : withoutLabels tt = s :: withoutLabels ss := by
        rw [← h]
        exact List.filter_cons_of_pos (by simp [hs])
      obtain ⟨labels, rest, rfl, hlabels, -, hrest⟩ := List.filter_eq_cons_iff.mp hcons
      exact ⟨labels, rest, rfl, by simpa using hlabels, ih hrest.symm⟩
    cases s with
    | label span name body => exact .skipLeft span name body (ih h)
    | press span key =>
      obtain ⟨labels, rest, rfl, hlabels, hrest⟩ := hexecuted rfl
      exact (Corresponds.press rfl rfl hrest).append_labels hlabels
    | call span name =>
      obtain ⟨labels, rest, rfl, hlabels, hrest⟩ := hexecuted rfl
      exact (Corresponds.call name rfl hrest).append_labels hlabels

end Statement

open Statement

namespace Program

def withoutNestedLabels (p : Program) : Program :=
  ⟨p.statements.map Statement.withoutNestedLabels⟩

/-- The same statements at the top level apart from labels, and the same last definition of each
name apart from labels in its body. -/
structure ResolvesLike (p q : Program) : Prop where
  executed : withoutLabels p.statements = withoutLabels q.statements
  defined : ∀ name,
    (p.lastBody? name).map withoutLabels = (q.lastBody? name).map withoutLabels

theorem lastBody?_append (before after : List Statement) (name : String) :
    lastBody? ⟨before ++ after⟩ name = (lastBody? ⟨after⟩ name).or (lastBody? ⟨before⟩ name) := by
  simp only [lastBody?, List.reverse_append, List.findSome?_append]

/-- A definition counts unless the name is defined again behind it. -/
theorem lastBody?_label (span : Span) (other : String) (body after : List Statement)
    (name : String) :
    lastBody? ⟨.label span other body :: after⟩ name =
      (lastBody? ⟨after⟩ name).or (if other = name then some body else none) := by
  simp [lastBody?, List.findSome?_append]

/-- A name has no body if no label at the top level has this name. -/
theorem lastBody?_eq_none_iff {ss : List Statement} {name : String} :
    lastBody? ⟨ss⟩ name = none ↔ ∀ span body, Statement.label span name body ∉ ss := by
  rw [lastBody?, List.findSome?_eq_none_iff]
  constructor
  · intro h span body hmem
    simpa using h _ (List.mem_reverse.mpr hmem)
  · intro h s hs
    cases s with
    | press | call => rfl
    | label span other body =>
      apply if_neg
      rintro rfl
      exact h span body (List.mem_reverse.mp hs)

/-- A label can be moved past statements that do not define its name. -/
theorem resolvesLike_move (before middle after : List Statement) (span : Span) {name : String}
    (body : List Statement) (h : ∀ span body, Statement.label span name body ∉ middle) :
    ResolvesLike ⟨before ++ .label span name body :: (middle ++ after)⟩
      ⟨before ++ (middle ++ .label span name body :: after)⟩ := by
  refine ⟨by simp, ?_⟩
  intro other
  have hmiddle := lastBody?_eq_none_iff.mpr h
  simp only [lastBody?_append, lastBody?_label]
  split
  · next hname =>
    subst hname
    simp [hmiddle]
  · simp

/-- A definition can be dropped if the name is defined again later. -/
theorem resolvesLike_drop (before after : List Statement) (span : Span) {name : String}
    (body : List Statement) (h : ∃ span body, Statement.label span name body ∈ after) :
    ResolvesLike ⟨before ++ .label span name body :: after⟩ ⟨before ++ after⟩ := by
  refine ⟨by simp, ?_⟩
  intro other
  simp only [lastBody?_append, lastBody?_label]
  split
  · next hname =>
    subst hname
    obtain ⟨last, hlast⟩ : ∃ last, lastBody? ⟨after⟩ name = some last := by
      apply Option.ne_none_iff_exists'.mp
      intro hnone
      obtain ⟨span, body, hmem⟩ := h
      exact lastBody?_eq_none_iff.mp hnone span body hmem
    simp [hlast]
  · simp

/-- Labels inside labels can be deleted. -/
theorem resolvesLike_withoutNestedLabels (p : Program) : p.withoutNestedLabels.ResolvesLike p := by
  constructor
  · have hkept : ∀ s : Statement, s.isLabel = false → s.withoutNestedLabels = s := by
      intro s hs
      cases s with
      | press | call => rfl
      | label => cases hs
    have hlabel : ∀ s : Statement, s.withoutNestedLabels.isLabel = s.isLabel := by
      intro s
      cases s <;> rfl
    rw [withoutNestedLabels, withoutLabels, List.filter_map, withoutLabels]
    simp only [Function.comp_def, hlabel]
    refine (List.map_congr_left fun s hs => hkept s ?_).trans (List.map_id _)
    simpa using (List.mem_filter.mp hs).2
  · intro name
    have hbody : p.withoutNestedLabels.lastBody? name = (p.lastBody? name).map withoutLabels := by
      rw [withoutNestedLabels, lastBody?, lastBody?, ← List.map_reverse, List.findSome?_map,
        List.map_findSome?]
      congr 1
      funext s
      cases s with
      | press | call => rfl
      | label span other body =>
        show (if other = name then _ else _) = Option.map _ (if other = name then _ else _)
        split <;> rfl
    rw [hbody, Option.map_map]
    simp [Function.comp_def]

end Program

namespace Machine

variable {p q : Program}

theorem corresponds_framedEvaluator (m : Machine) (h : p.ResolvesLike q) :
    (m.framedEvaluator p).Corresponds id Eq (m.framedEvaluator q) := by
  refine ⟨?_, ?_, rfl, rfl⟩
  · rintro span _ key _ rfl rfl x
    exact ⟨rfl, rfl⟩
  · intro name
    have hname := h.defined name
    show Option.Rel _ (p.lastBody? name) (q.lastBody? name)
    generalize p.lastBody? name = found at hname ⊢
    generalize q.lastBody? name = other at hname ⊢
    cases found with
    | none =>
      obtain rfl : other = none := by simpa using hname.symm
      exact .none
    | some body =>
      obtain ⟨body', rfl, hbody⟩ := Option.map_eq_some_iff.mp hname.symm
      exact .some (corresponds_of_withoutLabels_eq hbody.symm)

/-- Programs that resolve alike run alike. -/
theorem outcome_run_congr (m : Machine) (h : p.ResolvesLike q) :
    (m.run p).outcome = (m.run q).outcome := by
  have heval := (m.corresponds_framedEvaluator h).eval
    (corresponds_of_withoutLabels_eq h.executed) 0 m.clear 0
  rwa [Evaluation.relocate_id, Evaluation.relocate_id, ← outcome_run_eq_framed,
    ← outcome_run_eq_framed] at heval

/-- Labels are resolved by name, over the whole program and at its top level only. Take two
programs with the same statements at the top level apart from labels and the same last definition
of each name apart from labels in its body. Their runs leave the same machine behind, after the same
number of steps and with the same fault or none. So it makes no difference to move a label past
statements that do not define its name, to drop a definition that a later one replaces, or to delete
the labels inside labels. -/
theorem run_resolves_labels (m : Machine) :
    (∀ p q : Program, p.ResolvesLike q → (m.run p).outcome = (m.run q).outcome) ∧
      (∀ (before middle after body : List Statement) (span : Span) (name : String),
        (∀ span body, Statement.label span name body ∉ middle) →
          (m.run ⟨before ++ .label span name body :: (middle ++ after)⟩).outcome =
            (m.run ⟨before ++ (middle ++ .label span name body :: after)⟩).outcome) ∧
      (∀ (before after body : List Statement) (span : Span) (name : String),
        (∃ span body, Statement.label span name body ∈ after) →
          (m.run ⟨before ++ .label span name body :: after⟩).outcome =
            (m.run ⟨before ++ after⟩).outcome) ∧
      ∀ p : Program, (m.run p.withoutNestedLabels).outcome = (m.run p).outcome := by
  refine ⟨?_, ?_, ?_, ?_⟩
  · intro p q h
    exact m.outcome_run_congr h
  · intro before middle after body span name h
    exact m.outcome_run_congr (Program.resolvesLike_move before middle after span body h)
  · intro before after body span name h
    exact m.outcome_run_congr (Program.resolvesLike_drop before after span body h)
  · intro p
    exact m.outcome_run_congr p.resolvesLike_withoutNestedLabels

/-- A call in front of two definitions of its label, the second of which holds a label that it
calls in vain. The run is that of the program with one definition, in front of the call and without
the label inside. -/
theorem run_resolves_labels_forward :
    let m := fresh (Config.standard.withCallDepth 1)
    let body : List Statement := [.press ⟨22, 23⟩ (.push .one), .call ⟨34, 37⟩ "g"]
    let nested : List Statement := [.press ⟨22, 23⟩ (.push .one), .label ⟨24, 27⟩ "g" [],
      .call ⟨34, 37⟩ "g"]
    let p : Program := ⟨[.call ⟨0, 3⟩ "f", .label ⟨6, 9⟩ "f" [], .label ⟨16, 19⟩ "f" nested]⟩
    let q : Program := ⟨[.label ⟨16, 19⟩ "f" body, .call ⟨0, 3⟩ "f"]⟩
    p.ResolvesLike q ∧ (m.run p).outcome = (m.run q).outcome ∧
      (m.run q).fault = some ⟨.undefinedLabel, ⟨34, 37⟩, "g"⟩ ∧
      (m.run ⟨[.call ⟨0, 3⟩ "f", .label ⟨16, 19⟩ "f" nested]⟩).outcome = (m.run p).outcome ∧
      (m.run ⟨[.call ⟨0, 3⟩ "f", .label ⟨16, 19⟩ "f" body]⟩).outcome = (m.run q).outcome := by
  intro m body nested p q
  obtain ⟨hresolves, hmove, hdrop, -⟩ := run_resolves_labels m
  have hpq : p.ResolvesLike q := by
    refine ⟨rfl, ?_⟩
    intro name
    by_cases hname : "f" = name
    · subst hname
      rfl
    · simp [p, q, Program.lastBody?, hname]
  refine ⟨hpq, hresolves p q hpq, by decide +kernel, ?_, ?_⟩
  · have hshadowed : ∃ span body, Statement.label span "f" body ∈
        [Statement.label ⟨16, 19⟩ "f" nested] := ⟨_, _, List.mem_singleton_self _⟩
    exact (hdrop [.call ⟨0, 3⟩ "f"] _ [] ⟨6, 9⟩ "f" hshadowed).symm
  · have hundefined : ∀ span body, Statement.label span "f" body ∉
        [Statement.call ⟨0, 3⟩ "f"] := by simp
    exact (hmove [] _ [] body ⟨16, 19⟩ "f" hundefined).symm

end Machine

end Keystroke
