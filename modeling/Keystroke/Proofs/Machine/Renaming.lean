import Keystroke.Proofs.Machine.Failure
import Keystroke.Proofs.Program.Renaming

/-!
# Names do not matter

A machine looks at names for one purpose only, to tell them apart, and it never looks at the name of
a label where it looks for a variable, or the other way round. So the run of a renamed program is
the renamed run: `rename f g` goes through everything that a run is made of, its frames, its memory,
its events and its fault, and commutes with each of the rules by which it goes on or stops.

Renamings need to keep apart only what occurs in the program. At every point of a run the frames are
parts of bodies of the program and the memory has variables of the program only.
-/

namespace Keystroke

section Definitions

variable {α β : Type}

def BoundedStack.map (h : α → β) (s : BoundedStack α) : BoundedStack β where
  limit := s.limit
  items := s.items.map h
  size := s.size
  size_eq := by rw [List.length_map, s.size_eq]
  size_le := s.size_le

def Memory.rename (g : String → String) (m : Memory) : Memory := ⟨m.entries.map (Prod.map g id)⟩

def Machine.rename (g : String → String) (m : Machine) : Machine :=
  { m with memory := m.memory.rename g }

/-- The fault with another name in its text, if it is about a label or about a variable. -/
def Fault.rename (f g : String → String) (fault : Fault) : Fault :=
  fault.about <|
    match fault.kind with
    | .undefinedLabel | .callStackOverflow => f fault.text
    | .undefinedVariable => g fault.text
    | _ => fault.text

def Event.rename (f g : String → String) : Event → Event
  | compiled p => compiled (p.rename f g)
  | redefined label => redefined (f label)
  | step s depth => step (s.rename f g) depth
  | call label depth => call (f label) depth
  | event => event

def Execution.rename (f g : String → String) (e : Execution) : Execution where
  machine := e.machine.rename g
  frames := e.frames.map (List.map (Statement.rename f g))
  steps := e.steps
  events := e.events.map (Event.rename f g)

def Run.rename (f g : String → String) (r : Run) : Run where
  machine := r.machine.rename g
  steps := r.steps
  events := r.events.map (Event.rename f g)
  fault := r.fault.map (Fault.rename f g)

end Definitions

namespace BoundedStack

variable {α β : Type} (h : α → β) (s : BoundedStack α)

theorem map_pop : s.pop.map h = (s.map h).pop := by
  obtain ⟨_, _ | ⟨y, below⟩, size, hsize, hle⟩ := s <;> rfl

theorem map_setTop (x : α) : (s.setTop x).map h = (s.map h).setTop (h x) := by
  obtain ⟨_, _ | ⟨y, below⟩, size, hsize, hle⟩ := s <;> rfl

variable {h s} in
theorem push_map {t : BoundedStack α} {x : α} (hpush : s.push x = .ok t) :
    (s.map h).push (h x) = .ok (t.map h) := by
  unfold push at hpush
  split at hpush
  · next hroom =>
    cases hpush
    exact dif_pos hroom
  · cases hpush

end BoundedStack

namespace Memory

variable {g : String → String} {V : Set String} {m : Memory} {name : String}

def NamesIn (V : Set String) (m : Memory) : Prop := ∀ x ∈ m.entries, x.1 ∈ V

theorem lookup_rename (hg : Set.InjOn g V) {entries : List (String × Decimal)}
    (hentries : ∀ x ∈ entries, x.1 ∈ V) (hname : name ∈ V) :
    (entries.map (Prod.map g id)).lookup (g name) = entries.lookup name := by
  induction entries with
  | nil => rfl
  | cons x rest ih =>
    obtain ⟨hx, hrest⟩ := List.forall_mem_cons.mp hentries
    have hsame : (g name == g x.1) = (name == x.1) := by
      rw [Bool.eq_iff_iff, beq_iff_eq, beq_iff_eq]
      exact hg.eq_iff hname hx
    rw [List.map_cons, List.lookup_cons, List.lookup_cons, ih hrest, Prod.map_fst, Prod.map_snd,
      hsame]
    rfl

theorem insert_rename (hg : Set.InjOn g V) {entries : List (String × Decimal)}
    (hentries : ∀ x ∈ entries, x.1 ∈ V) (hname : name ∈ V) (n : Decimal) :
    insert (g name) n (entries.map (Prod.map g id)) =
      (insert name n entries).map (Prod.map g id) := by
  induction entries with
  | nil => rfl
  | cons x rest ih =>
    obtain ⟨hx, hrest⟩ := List.forall_mem_cons.mp hentries
    have hsame : g x.1 = g name ↔ x.1 = name := hg.eq_iff hx hname
    rw [List.map_cons, insert, insert, ih hrest, Prod.map_fst, if_congr hsame rfl rfl]
    split <;> rfl

theorem mem_entries_of_get? {n : Decimal} (h : m.get? name = some n) : (name, n) ∈ m.entries := by
  obtain ⟨before, after, hentries, -⟩ := List.lookup_eq_some_iff.mp h
  rw [hentries]
  exact List.mem_append_right before List.mem_cons_self

theorem get?_rename (hg : Set.InjOn g V) (hm : m.NamesIn V) (hname : name ∈ V) :
    (m.rename g).get? (g name) = m.get? name :=
  lookup_rename hg hm hname

theorem store_rename (hg : Set.InjOn g V) (hm : m.NamesIn V) (hname : name ∈ V) (n : Decimal) :
    (m.rename g).store (g name) n = (m.store name n).rename g :=
  congrArg Memory.mk (insert_rename hg hm hname n)

theorem namesIn_insert {entries : List (String × Decimal)} (hentries : ∀ x ∈ entries, x.1 ∈ V)
    (hname : name ∈ V) (n : Decimal) : ∀ x ∈ insert name n entries, x.1 ∈ V := by
  induction entries with
  | nil => simpa [insert] using hname
  | cons x rest ih =>
    obtain ⟨hx, hrest⟩ := List.forall_mem_cons.mp hentries
    rw [insert]
    split
    · exact List.forall_mem_cons.mpr ⟨hname, hrest⟩
    · exact List.forall_mem_cons.mpr ⟨hx, ih hrest⟩

end Memory

namespace Machine

variable {f g : String → String} {V : Set String} {m n : Machine} {span : Span} {key : Key}

/-- No arithmetic fault is about a name. -/
theorem rename_arithmetic_fault (f g : String → String) {op : Operator} {fault : Fault}
    (h : m.press span (.arithmetic op) = (n, some fault)) : fault.rename f g = fault := by
  cases fails_of_press h <;> rfl

/-- A key does to the renamed machine what it does to the machine. -/
theorem press_rename {fault : Option Fault} (hg : Set.InjOn g V) (hm : m.memory.NamesIn V)
    (hkey : ∀ name, key.variableName = some name → name ∈ V)
    (h : m.press span key = (n, fault)) :
    (m.rename g).press span (key.rename g) = (n.rename g, fault.map (Fault.rename f g)) := by
  cases key with
  | push | compare =>
    cases h
    rfl
  | store name =>
    cases h
    have hstore := Memory.store_rename hg hm (hkey name rfl) m.x
    exact congrArg (fun memory => ({ m with memory }, none)) hstore
  | load name =>
    have hget : (m.rename g).memory.get? (g name) = m.memory.get? name :=
      Memory.get?_rename hg hm (hkey name rfl)
    rw [press, Memory.fetch] at h
    rw [Key.rename, press, Memory.fetch, hget]
    cases hvalue : m.memory.get? name with
    | none =>
      rw [hvalue] at h
      cases h
      rfl
    | some a =>
      rw [hvalue] at h
      cases h
      rfl
  | arithmetic op =>
    have hsame : (m.rename g).press span (.arithmetic op) =
        ((m.press span (.arithmetic op)).1.rename g, (m.press span (.arithmetic op)).2) := by
      simp only [press, popOperands, rename]
      split <;> rfl
    rw [h] at hsame
    cases fault with
    | none => exact hsame
    | some fault =>
      rw [Option.map_some, rename_arithmetic_fault f g h]
      exact hsame

/-- Keys add no variables but their own. -/
theorem namesIn_press (span : Span) (hm : m.memory.NamesIn V)
    (hkey : ∀ name, key.variableName = some name → name ∈ V) :
    (m.press span key).1.memory.NamesIn V := by
  cases key with
  | push | compare => exact hm
  | store name => exact Memory.namesIn_insert hm (hkey name rfl) m.x
  | load name =>
    simp only [press]
    split <;> exact hm
  | arithmetic op =>
    simp only [press, popOperands]
    split <;> exact hm

end Machine

namespace Execution

variable {f g : String → String} {p : Program} {e next last : Execution} {fault : Option Fault}

/-- Nothing in the execution has a name that the program does not have. -/
structure UsesNamesOf (p : Program) (e : Execution) : Prop where
  frames : p.Covers e.frames.items
  memory : e.machine.memory.NamesIn {name | name ∈ p.variableNames}

section Names

variable {s : Statement} {rest : List Statement} {below : List (List Statement)} {name : String}

theorem UsesNamesOf.mem_labelNames (he : e.UsesNamesOf p)
    (hitems : e.frames.items = (s :: rest) :: below) (hname : s.labelName? = some name) :
    name ∈ p.labelNames := by
  obtain ⟨body, hbody, hmem⟩ := he.frames.exists_mem hitems
  exact hbody.mem_labelNames hmem hname

theorem UsesNamesOf.mem_variableNames (he : e.UsesNamesOf p)
    (hitems : e.frames.items = (s :: rest) :: below) (hname : s.variableName? = some name) :
    name ∈ p.variableNames := by
  obtain ⟨body, hbody, hmem⟩ := he.frames.exists_mem hitems
  exact hbody.mem_variableNames hmem hname

theorem UsesNamesOf.namesIn_press {span : Span} {key : Key} {m : Machine} (he : e.UsesNamesOf p)
    (hitems : e.frames.items = (.press span key :: rest) :: below)
    (hpress : e.machine.press span key = (m, fault)) :
    m.memory.NamesIn {name | name ∈ p.variableNames} := by
  have hmemory := Machine.namesIn_press span he.memory fun name => he.mem_variableNames hitems
  rwa [hpress] at hmemory

end Names

theorem usesNamesOf_start (m : Machine) (p : Program) : (start m.clear p).UsesNamesOf p :=
  ⟨covers_start m.clear p, nofun⟩

theorem Move.usesNamesOf (h : Move p.labels e next) (he : e.UsesNamesOf p) :
    next.UsesNamesOf p := by
  refine ⟨h.frameStep.covers he.frames, ?_⟩
  cases h with
  | leave | skip | call => exact he.memory
  | press hitems _ hpress => exact he.namesIn_press hitems hpress

theorem Stop.namesIn (h : Stop p.labels e fault last) (he : e.UsesNamesOf p) :
    last.machine.memory.NamesIn {name | name ∈ p.variableNames} := by
  cases h with
  | done | budget | undefined | overflow => exact he.memory
  | press hitems _ hpress => exact he.namesIn_press hitems hpress

section Rules

theorem items_rename {items : List (List Statement)} (h : e.frames.items = items) :
    (e.rename f g).frames.items = items.map (List.map (Statement.rename f g)) :=
  congrArg (List.map (List.map (Statement.rename f g))) h

theorem rename_pop (f g : String → String) (e : Execution) :
    rename f g { e with frames := e.frames.pop } =
      { e.rename f g with frames := (e.rename f g).frames.pop } := by
  rw [rename, BoundedStack.map_pop]
  rfl

theorem rename_setTop (f g : String → String) (m : Machine)
    (frames : BoundedStack (List Statement)) (rest : List Statement) (steps : Nat)
    (events : List Event) :
    rename f g ⟨m, frames.setTop rest, steps, events⟩ =
      ⟨m.rename g, (frames.map (List.map (Statement.rename f g))).setTop
        (rest.map (Statement.rename f g)), steps, events.map (Event.rename f g)⟩ := by
  rw [rename, BoundedStack.map_setTop]

/-- The next statement calls a label of the program, and finds it under its new name. -/
theorem UsesNamesOf.body?_rename (hf : Set.InjOn f {name | name ∈ p.labelNames}) {span : Span}
    {name : String} {rest : List Statement} {below : List (List Statement)}
    {found : Option (List Statement)} (he : e.UsesNamesOf p)
    (hitems : e.frames.items = (.call span name :: rest) :: below)
    (hbody : Label.body? p.labels name = found) :
    Label.body? (p.rename f g).labels (f name) =
      found.map (List.map (Statement.rename f g)) := by
  rw [p.labels_rename, ← hbody]
  exact Label.body?_rename g hf (fun l hl => Program.name_mem_labelNames hl)
    (he.mem_labelNames hitems rfl)

variable (hf : Set.InjOn f {name | name ∈ p.labelNames})
variable (hg : Set.InjOn g {name | name ∈ p.variableNames})

include hf hg

/-- A renamed run goes on as the run does. -/
theorem Move.rename (h : Move p.labels e next) (he : e.UsesNamesOf p) :
    Move (p.rename f g).labels (e.rename f g) (next.rename f g) := by
  cases h with
  | leave hitems =>
    rw [rename_pop]
    exact .leave (items_rename hitems)
  | skip hitems =>
    rw [rename_setTop]
    exact .skip (items_rename hitems)
  | press hitems hbudget hpress =>
    rw [rename_setTop]
    exact .press (items_rename hitems) hbudget
      (Machine.press_rename (f := f) hg he.memory (fun name => he.mem_variableNames hitems) hpress)
  | call hitems hbudget hbody hpush =>
    have hroom := BoundedStack.push_map (h := List.map (Statement.rename f g)) hpush
    rw [BoundedStack.map_setTop] at hroom
    exact .call (items_rename hitems) hbudget (he.body?_rename hf hitems hbody) hroom

/-- A renamed run stops where the run does. -/
theorem Stop.rename (h : Stop p.labels e fault last) (he : e.UsesNamesOf p) :
    Stop (p.rename f g).labels (e.rename f g) (fault.map (Fault.rename f g)) (last.rename f g) := by
  cases h with
  | done hitems => exact .done (items_rename hitems)
  | @budget s rest below hitems hlabel hbudget =>
    rw [rename_setTop, ← s.span_rename f g]
    exact .budget (items_rename hitems) (by rwa [s.isLabel_rename]) hbudget
  | press hitems hbudget hpress =>
    rw [rename_setTop]
    exact .press (items_rename hitems) hbudget
      (Machine.press_rename hg he.memory (fun name => he.mem_variableNames hitems) hpress)
  | undefined hitems hbudget hbody =>
    rw [rename_setTop]
    exact .undefined (items_rename hitems) hbudget (he.body?_rename hf hitems hbody)
  | overflow hitems hbudget hbody hfull =>
    rw [rename_setTop]
    exact .overflow (items_rename hitems) hbudget (he.body?_rename hf hitems hbody)
      (by rwa [List.length_map])

end Rules

theorem close_rename (f g : String → String) (e : Execution) (fault : Option Fault) :
    (e.rename f g).close (fault.map (Fault.rename f g)) = (e.close fault).rename f g := by
  cases fault with
  | none => simp [close, rename, Run.rename, Machine.rename, Machine.x, Event.rename]
  | some fault => simp [close, rename, Run.rename]

/-- From every point on, the renamed run does what the run does. -/
theorem drive_rename (hf : Set.InjOn f {name | name ∈ p.labelNames})
    (hg : Set.InjOn g {name | name ∈ p.variableNames}) (he : e.UsesNamesOf p) :
    (e.rename f g).drive (p.rename f g).labels = (e.drive p.labels).rename f g := by
  induction e using drive.induct p.labels with
  | case1 e next hstep ih =>
    have hmove := move_of_step hstep
    rw [drive_of_moved hstep, drive_of_moved (hmove.rename hf hg he).step_eq]
    exact ih (hmove.usesNamesOf he)
  | case2 e fault last hstep =>
    rw [drive_of_stopped hstep, drive_of_stopped ((stop_of_step hstep).rename hf hg he).step_eq,
      close_rename]

/-- What a run leaves in the memory has names of the program. -/
theorem namesIn_drive (he : e.UsesNamesOf p) :
    (e.drive p.labels).machine.memory.NamesIn {name | name ∈ p.variableNames} := by
  induction e using drive.induct p.labels with
  | case1 e next hstep ih =>
    rw [drive_of_moved hstep]
    exact ih ((move_of_step hstep).usesNamesOf he)
  | case2 e fault last hstep =>
    rw [drive_of_stopped hstep, machine_close]
    exact (stop_of_step hstep).namesIn he

theorem start_rename (g : String → String) (hf : Set.InjOn f {name | name ∈ p.labelNames})
    (m : Machine) : start m.clear (p.rename f g) = (start m.clear p).rename f g := by
  have hredefined : Label.redefined (p.rename f g).labels = (Label.redefined p.labels).map f := by
    rw [p.labels_rename]
    apply Label.redefinedAfter_rename g hf []
    · simp
    · exact fun l hl => Program.name_mem_labelNames hl
  rw [start, hredefined, start, rename, List.map_map, ← List.map_reverse, List.map_map]
  rfl

end Execution

namespace Machine

open Execution

variable {f g : String → String} {p : Program}

theorem run_rename_eq (m : Machine) (hf : Set.InjOn f {name | name ∈ p.labelNames})
    (hg : Set.InjOn g {name | name ∈ p.variableNames}) :
    m.run (p.rename f g) = (m.run p).rename f g := by
  rw [run, start_rename g hf, drive_rename hf hg (usesNamesOf_start m p)]
  rfl

/-- The variables with a number are those that had it before, under their new names. -/
theorem variableValue_rename_iff {m : Machine} {V : Set String} (hg : Set.InjOn g V)
    (hm : m.memory.NamesIn V) (name : String) (n : Decimal) :
    (m.rename g).variableValue name = some n ↔
      ∃ old ∈ V, g old = name ∧ m.variableValue old = some n := by
  constructor
  · intro hvalue
    obtain ⟨⟨old, n⟩, hold, hequal⟩ := List.mem_map.mp (Memory.mem_entries_of_get? hvalue)
    cases hequal
    exact ⟨old, hm _ hold, rfl, (Memory.get?_rename hg hm (hm _ hold)).symm.trans hvalue⟩
  · rintro ⟨old, hold, rfl, hvalue⟩
    exact (Memory.get?_rename hg hm hold).trans hvalue

/-- The run of a program with other names for its labels and for its variables is the run of the
program with these names, as long as different names of labels stay different, and different names
of variables. In particular it ends in the same way, at the same place and after as many steps, with
the same registers, and a fault about a label or a variable has its new name. So it makes no
difference if a variable has the name of a label: there are always names for which none has. -/
theorem run_rename (m : Machine) (p : Program) :
    (∀ f g : String → String, Set.InjOn f {name | name ∈ p.labelNames} →
      Set.InjOn g {name | name ∈ p.variableNames} →
      let r := m.run p
      let s := m.run (p.rename f g)
      s = r.rename f g ∧ s.fault.map Fault.kind = r.fault.map Fault.kind ∧
        s.fault.map Fault.span = r.fault.map Fault.span ∧
        s.fault = r.fault.map (Fault.rename f g) ∧ s.steps = r.steps ∧
        s.machine.registers = r.machine.registers ∧
        ∀ name n, s.machine.variableValue name = some n ↔
          ∃ old ∈ p.variableNames, g old = name ∧ r.machine.variableValue old = some n) ∧
    ∃ f g : String → String, f.Injective ∧ g.Injective ∧
      (∀ name ∈ (p.rename f g).labelNames, name ∉ (p.rename f g).variableNames) ∧
      m.run (p.rename f g) = (m.run p).rename f g := by
  constructor
  · intro f g hf hg r s
    have hrename : s = r.rename f g := m.run_rename_eq hf hg
    have hmemory := namesIn_drive (usesNamesOf_start m p)
    rw [hrename]
    refine ⟨rfl, ?_, ?_, rfl, rfl, rfl, variableValue_rename_iff hg hmemory⟩
    · exact Option.map_map Fault.kind (Fault.rename f g) r.fault
    · exact Option.map_map Fault.span (Fault.rename f g) r.fault
  · have hinjective : ∀ front : String, Function.Injective (front ++ ·) := fun front a b hequal =>
      (String.append_right_inj front).mp hequal
    refine ⟨("l" ++ ·), ("v" ++ ·), hinjective "l", hinjective "v", ?_, ?_⟩
    · intro name hlabel hvariable
      rw [p.labelNames_rename] at hlabel
      obtain ⟨a, -, rfl⟩ := List.mem_map.mp hlabel
      obtain ⟨b, -, hequal⟩ := Program.mem_variableNames_rename hvariable
      simpa using congrArg String.toList hequal
    · exact m.run_rename_eq (hinjective "l").injOn (hinjective "v").injOn

/-- One name for a label and for a variable. Renaming the variable gives it a name that the label
gets as well, and the other variable, which has no number, the name that both had before. -/
theorem run_rename_shared :
    let f : String → String := fun _ => "a"
    let g : String → String := fun name => if name = "x" then "a" else "x"
    let m := Machine.fresh (Config.standard.withCallDepth 1)
    let p : Program := ⟨[.label ⟨0, 3⟩ "x" [.press ⟨6, 9⟩ (.store "x")],
      .press ⟨16, 17⟩ (.push .one), .call ⟨18, 21⟩ "x", .press ⟨24, 27⟩ (.load "y")]⟩
    Set.InjOn f {name | name ∈ p.labelNames} ∧ Set.InjOn g {name | name ∈ p.variableNames} ∧
      (m.run p).fault = some ⟨.undefinedVariable, ⟨24, 27⟩, "y"⟩ ∧
      (m.run (p.rename f g)).fault = some ⟨.undefinedVariable, ⟨24, 27⟩, "x"⟩ ∧
      (m.run (p.rename f g)).machine.variableValue "a" = some .one := by
  intro f g m p
  have hlabels : ∀ name ∈ p.labelNames, name = "x" := by
    simp [p, Program.labelNames, Program.listed, Statement.listedOfAll, Statement.listed,
      Statement.labelName?]
  have hvariables : ∀ name, name ∈ p.variableNames ↔ name = "x" ∨ name = "y" := by
    intro name
    rw [Program.mem_variableNames]
    simp [p, Program.listed, Statement.listedOfAll, Statement.listed, Statement.variableName?,
      Key.variableName, eq_comm]
  have hf : Set.InjOn f {name | name ∈ p.labelNames} := by
    intro a ha b hb _
    rw [hlabels a ha, hlabels b hb]
  have hg : Set.InjOn g {name | name ∈ p.variableNames} := by
    intro a ha b hb hequal
    obtain rfl | rfl := (hvariables a).mp ha <;> obtain rfl | rfl := (hvariables b).mp hb
    · rfl
    · exact absurd hequal (by decide)
    · exact absurd hequal (by decide)
    · rfl
  have hfault : (m.run p).fault = some ⟨.undefinedVariable, ⟨24, 27⟩, "y"⟩ := by decide +kernel
  obtain ⟨-, -, -, hrenamed, -, -, hvalues⟩ := (run_rename m p).1 f g hf hg
  refine ⟨hf, hg, hfault, ?_, ?_⟩
  · rw [hrenamed, hfault]
    rfl
  · exact (hvalues "a" .one).mpr ⟨"x", (hvariables "x").mpr (.inl rfl), rfl, by decide +kernel⟩

end Machine

end Keystroke
