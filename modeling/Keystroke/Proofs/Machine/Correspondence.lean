import Keystroke.Proofs.Machine.Evaluation
import Keystroke.Proofs.Program.Relocation

/-!
# Statements that evaluate alike

Two lists of statements correspond if they press related keys and call the same labels in the same
order. Labels may stand anywhere in either list, since an evaluation passes over them, and places
may differ as far as `place` does not tell them apart. Evaluators correspond if related keys do the
same to a state and if the bodies behind each name correspond.

Evaluation respects this: it comes to the same state after the same number of counted statements,
with the same fault up to places. The induction is on the number of calls that can still be opened.
A call goes on with bodies that correspond, and everything else with the rest of the two lists.
-/

namespace Keystroke

def Evaluation.relocate {σ : Type} (place : Span → Span) (o : Evaluation σ) : Evaluation σ :=
  { o with fault := o.fault.map (Fault.relocate place) }

/-- Keys related by `R` and calls of the same labels, one by one, at places that `place` does not
tell apart. Labels on either side do not count. -/
inductive Statement.Corresponds (place : Span → Span) (R : Key → Key → Prop) :
    List Statement → List Statement → Prop where
  | nil : Corresponds place R [] []
  | press {span other : Span} {k l : Key} {rest rest' : List Statement}
      (hplace : place span = place other) (hkey : R k l) (hrest : Corresponds place R rest rest') :
      Corresponds place R (.press span k :: rest) (.press other l :: rest')
  | call {span other : Span} {rest rest' : List Statement} (name : String)
      (hplace : place span = place other) (hrest : Corresponds place R rest rest') :
      Corresponds place R (.call span name :: rest) (.call other name :: rest')
  | skipLeft {rest rest' : List Statement} (span : Span) (name : String) (body : List Statement)
      (hrest : Corresponds place R rest rest') :
      Corresponds place R (.label span name body :: rest) rest'
  | skipRight {rest rest' : List Statement} (span : Span) (name : String) (body : List Statement)
      (hrest : Corresponds place R rest rest') :
      Corresponds place R rest (.label span name body :: rest')

section Evaluation

variable {σ : Type} {place : Span → Span} {R : Key → Key → Prop}

@[simp] theorem Evaluation.relocate_id (o : Evaluation σ) : o.relocate id = o := by
  obtain ⟨x, steps, _ | fault⟩ := o <;> rfl

/-- Evaluations that agree up to places go on alike. -/
theorem Evaluation.andThen_congr {o o' : Evaluation σ} {f g : σ → Nat → Evaluation σ}
    (h : o.relocate place = o'.relocate place)
    (hnext : ∀ x steps, (f x steps).relocate place = (g x steps).relocate place) :
    (o.andThen f).relocate place = (o'.andThen g).relocate place := by
  obtain ⟨x, steps, fault⟩ := o
  obtain ⟨x', steps', fault'⟩ := o'
  simp only [relocate, Evaluation.mk.injEq] at h
  obtain ⟨rfl, rfl, hfault⟩ := h
  cases fault with
  | none =>
    obtain rfl : fault' = none := by simpa using hfault.symm
    exact hnext x steps
  | some fault =>
    obtain ⟨other, rfl, hother⟩ := Option.map_eq_some_iff.mp hfault.symm
    simp [andThen, relocate, hother]

namespace Evaluator

/-- Related keys have the same effect and fail alike up to places, and the names stand for bodies
that correspond. -/
structure Corresponds (place : Span → Span) (R : Key → Key → Prop) (v w : Evaluator σ) :
    Prop where
  press : ∀ {span other k l}, place span = place other → R k l → ∀ x,
    (v.press x span k).1 = (w.press x other l).1 ∧
      (v.press x span k).2.map (Fault.relocate place) =
        (w.press x other l).2.map (Fault.relocate place)
  body? : ∀ name, Option.Rel (Statement.Corresponds place R) (v.body? name) (w.body? name)
  budget : v.stepBudget = w.stepBudget
  depth : v.callDepth = w.callDepth

variable {v w : Evaluator σ}

theorem Corresponds.counted (h : v.Corresponds place R w) {span other : Span}
    (hplace : place span = place other) (x : σ) (steps : Nat) {o o' : Evaluation σ}
    (ho : o.relocate place = o'.relocate place) :
    (v.counted span x steps o).relocate place = (w.counted other x steps o').relocate place := by
  simp only [Evaluator.counted, h.budget]
  split
  · split
    · simp [Evaluation.relocate, Fault.relocate, hplace]
    · exact ho
  · exact ho

/-- Statements that correspond evaluate alike. -/
theorem Corresponds.eval (h : v.Corresponds place R w) {ss tt : List Statement}
    (hss : Statement.Corresponds place R ss tt) (depth : Nat) (x : σ) (steps : Nat) :
    (v.eval depth ss x steps).relocate place = (w.eval depth tt x steps).relocate place := by
  induction hroom : v.callDepth - depth using Nat.strongRecOn
    generalizing depth ss tt x steps with
  | ind room ih =>
    induction hss generalizing x steps with
    | nil => rw [eval_nil, eval_nil]
    | skipLeft span name body _ ihrest | skipRight span name body _ ihrest =>
      rw [eval_label]
      exact ihrest x steps
    | press hplace hkey _ ihrest =>
      obtain ⟨hstate, hfault⟩ := h.press hplace hkey x
      rw [eval_press, eval_press]
      apply h.counted hplace
      apply Evaluation.andThen_congr _ ihrest
      rw [Evaluation.relocate, Evaluation.relocate, hstate, hfault]
    | call name hplace _ ihrest =>
      rw [eval_call, eval_call]
      apply h.counted hplace
      have hbody := h.body? name
      generalize v.body? name = found at hbody ⊢
      generalize w.body? name = other at hbody ⊢
      cases hbody with
      | none => simp [Evaluation.relocate, Fault.relocate, hplace]
      | some hbody =>
        simp only [← h.depth]
        split
        · next hdeeper =>
          apply Evaluation.andThen_congr _ ihrest
          exact ih (v.callDepth - (depth + 1)) (by omega) hbody (depth + 1) x (steps + 1) rfl
        · simp [Evaluation.relocate, Fault.relocate, hplace]

end Evaluator

end Evaluation

end Keystroke
