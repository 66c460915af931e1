import Keystroke.Proofs.Program.Positions
import Keystroke.Proofs.Program.Shape
import Mathlib.Data.Set.Function

/-!
# Renaming

`Program.rename f g` gives the labels of a program their names under `f` and the variables their
names under `g`, wherever they are defined, called, stored or recalled. As long as `f` does not
confuse two names of labels in the program, calls find the renamed bodies of the labels that they
found before, the last definition of a name counts as before, and the same definitions replace
earlier ones.
-/

namespace Keystroke

def Key.rename (g : String → String) : Key → Key
  | .store name => .store (g name)
  | .load name => .load (g name)
  | key => key

namespace Statement

mutual

/-- The statement with other names for labels and for variables, bodies included. -/
def rename (f g : String → String) : Statement → Statement
  | press span key => press span (key.rename g)
  | call span name => call span (f name)
  | label span name body => label span (f name) (renameAll f g body)

def renameAll (f g : String → String) : List Statement → List Statement
  | [] => []
  | s :: rest => rename f g s :: renameAll f g rest

end

end Statement

def Label.rename (f g : String → String) (l : Label) : Label :=
  ⟨f l.name, l.body.map (Statement.rename f g)⟩

def Program.rename (f g : String → String) (p : Program) : Program :=
  ⟨p.statements.map (Statement.rename f g)⟩

section Names

def Statement.labelName? : Statement → Option String
  | call _ name | label _ name _ => some name
  | press _ _ => none

def Statement.variableName? : Statement → Option String
  | press _ key => key.variableName
  | call _ _ | label _ _ _ => none

def Program.labelNames (p : Program) : List String := p.listed.filterMap Statement.labelName?

theorem Statement.variableNamesOfAll_eq (ss : List Statement) :
    variableNamesOfAll ss = ss.flatMap variableNames := by
  induction ss with
  | nil => rfl
  | cons s ss ih => rw [variableNamesOfAll, ih, List.flatMap_cons]

theorem Statement.variableNames_eq (s : Statement) :
    s.variableNames = s.listed.filterMap variableName? := by
  induction s using inductionOn with
  | press span key => cases key <;> rfl
  | call span name => rfl
  | label span name body ih =>
    rw [variableNames, variableNamesOfAll_eq, listed, listedOfAll_eq,
      List.filterMap_cons_none rfl, List.filterMap_flatMap]
    exact List.flatMap_congr ih

namespace Program

variable {p : Program} {body : List Statement} {s : Statement} {name : String}

theorem mem_labelNames : name ∈ p.labelNames ↔ ∃ s ∈ p.listed, s.labelName? = some name :=
  List.mem_filterMap

theorem mem_variableNames :
    name ∈ p.variableNames ↔ ∃ s ∈ p.listed, s.variableName? = some name := by
  have hnames : Statement.variableNamesOfAll p.statements =
      p.listed.filterMap Statement.variableName? := by
    rw [Statement.variableNamesOfAll_eq, listed_eq, List.filterMap_flatMap]
    exact List.flatMap_congr fun s _ => s.variableNames_eq
  rw [variableNames, List.mem_eraseDups, (List.mergeSort_perm _ _).mem_iff, hnames,
    List.mem_filterMap]

theorem IsBody.mem_labelNames (h : p.IsBody body) (hs : s ∈ body)
    (hname : s.labelName? = some name) : name ∈ p.labelNames :=
  Program.mem_labelNames.mpr ⟨s, h.mem_listed hs, hname⟩

theorem IsBody.mem_variableNames (h : p.IsBody body) (hs : s ∈ body)
    (hname : s.variableName? = some name) : name ∈ p.variableNames :=
  Program.mem_variableNames.mpr ⟨s, h.mem_listed hs, hname⟩

/-- A program uses the names of the labels that it defines. -/
theorem name_mem_labelNames {l : Label} (hl : l ∈ p.labels) : l.name ∈ p.labelNames := by
  obtain ⟨s, hs, hlabel⟩ := List.mem_filterMap.mp hl
  have hbody : p.IsBody p.statements := .inl rfl
  apply hbody.mem_labelNames hs
  cases s with
  | press | call => cases hlabel
  | label span name body =>
    cases hlabel
    rfl

end Program

end Names

section Renamed

variable (f g : String → String)

theorem Key.variableName_rename (key : Key) :
    (key.rename g).variableName = key.variableName.map g := by
  cases key <;> rfl

namespace Statement

theorem renameAll_eq (ss : List Statement) : renameAll f g ss = ss.map (rename f g) := by
  induction ss with
  | nil => rfl
  | cons s ss ih => rw [renameAll, ih, List.map_cons]

@[simp] theorem isLabel_rename (s : Statement) : (s.rename f g).isLabel = s.isLabel := by
  cases s <;> rfl

@[simp] theorem span_rename (s : Statement) : (s.rename f g).span = s.span := by
  cases s <;> rfl

theorem label?_rename (s : Statement) :
    (s.rename f g).label? = s.label?.map (Label.rename f g) := by
  cases s with
  | press | call => rfl
  | label span name body =>
    rw [rename, renameAll_eq]
    rfl

theorem labelName?_rename (s : Statement) :
    (s.rename f g).labelName? = s.labelName?.map f := by
  cases s <;> rfl

theorem variableName?_rename (s : Statement) :
    (s.rename f g).variableName? = s.variableName?.map g := by
  cases s with
  | press span key => exact key.variableName_rename g
  | call | label => rfl

theorem listed_rename (s : Statement) :
    (s.rename f g).listed = s.listed.map (rename f g) := by
  induction s using inductionOn with
  | press | call => rfl
  | label span name body ih =>
    have hbody : (body.map (rename f g)).flatMap listed =
        (body.flatMap listed).map (rename f g) := by
      rw [List.flatMap_map, List.map_flatMap]
      exact List.flatMap_congr ih
    rw [listed, rename, listed, listedOfAll_eq, listedOfAll_eq, List.map_cons, rename, renameAll_eq,
      hbody]

end Statement

namespace Program

variable (p : Program)

theorem labels_rename : (p.rename f g).labels = p.labels.map (Label.rename f g) := by
  rw [labels, rename, List.filterMap_map, labels, List.map_filterMap]
  exact List.filterMap_congr fun s _ => s.label?_rename f g

theorem listed_rename : (p.rename f g).listed = p.listed.map (Statement.rename f g) := by
  rw [listed_eq, rename, List.flatMap_map, listed_eq, List.map_flatMap]
  exact List.flatMap_congr fun s _ => s.listed_rename f g

theorem labelNames_rename : (p.rename f g).labelNames = p.labelNames.map f := by
  rw [labelNames, listed_rename, List.filterMap_map, labelNames, List.map_filterMap]
  exact List.filterMap_congr fun s _ => s.labelName?_rename f g

variable {f g p} in
theorem mem_variableNames_rename {name : String} (h : name ∈ (p.rename f g).variableNames) :
    ∃ old ∈ p.variableNames, g old = name := by
  obtain ⟨t, ht, hname⟩ := mem_variableNames.mp h
  rw [listed_rename] at ht
  obtain ⟨s, hs, rfl⟩ := List.mem_map.mp ht
  rw [Statement.variableName?_rename] at hname
  obtain ⟨old, hold, rfl⟩ := Option.map_eq_some_iff.mp hname
  exact ⟨old, mem_variableNames.mpr ⟨s, hs, hold⟩, rfl⟩

end Program

namespace Label

variable {f} {L : Set String} {labels : List Label}

/-- A call finds the renamed body of the label that it found before. -/
theorem body?_rename (hf : Set.InjOn f L) (hlabels : ∀ l ∈ labels, l.name ∈ L) {name : String}
    (hname : name ∈ L) :
    body? (labels.map (rename f g)) (f name) =
      (body? labels name).map (List.map (Statement.rename f g)) := by
  induction labels with
  | nil => rfl
  | cons l later ih =>
    obtain ⟨hl, hlater⟩ := List.forall_mem_cons.mp hlabels
    have hsame : f l.name = f name ↔ l.name = name := hf.eq_iff hl hname
    rw [List.map_cons, body?, ih hlater, body?]
    -- The last definition counts, so those after this one decide first.
    cases body? later name with
    | some body => rfl
    | none =>
      simp only [Option.map_none, rename, hsame]
      split <;> rfl

/-- The same definitions replace earlier ones. -/
theorem redefinedAfter_rename (hf : Set.InjOn f L) (seen : List String)
    (hseen : ∀ name ∈ seen, name ∈ L) (hlabels : ∀ l ∈ labels, l.name ∈ L) :
    redefinedAfter (seen.map f) (labels.map (rename f g)) = (redefinedAfter seen labels).map f := by
  induction labels generalizing seen with
  | nil => rfl
  | cons l later ih =>
    obtain ⟨hl, hlater⟩ := List.forall_mem_cons.mp hlabels
    have hknown : (rename f g l).name ∈ seen.map f ↔ l.name ∈ seen := by
      rw [List.mem_map]
      constructor
      · rintro ⟨old, hold, hequal⟩
        exact hf (hseen old hold) hl hequal ▸ hold
      · intro hold
        exact ⟨l.name, hold, rfl⟩
    rw [List.map_cons, redefinedAfter, redefinedAfter]
    by_cases hmem : l.name ∈ seen
    · rw [if_pos hmem, if_pos (hknown.mpr hmem), ih seen hseen hlater]
      rfl
    · rw [if_neg hmem, if_neg (mt hknown.mp hmem)]
      exact ih (l.name :: seen) (List.forall_mem_cons.mpr ⟨hl, hseen⟩) hlater

end Label

end Renamed

end Keystroke
