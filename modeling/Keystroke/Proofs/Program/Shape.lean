import Keystroke.Program.Listing
import Keystroke.Proofs.Decimal.Text

/-!
# The shape of programs

`Statement.map` changes the spans and the pushed numbers of a statement and keeps everything else,
bodies included. Two programs that are equal once such details are mapped away have the same shape.
The listing shows neither the spans nor whether a number begins with its point, so it depends on
the shape and the texts of the numbers only.
-/

namespace Keystroke

namespace Statement

/-- Induction over statements, where the body of a label is a list of smaller ones. -/
theorem inductionOn {motive : Statement → Prop} (s : Statement)
    (press : ∀ span key, motive (press span key))
    (call : ∀ span name, motive (call span name))
    (label : ∀ span name body, (∀ t ∈ body, motive t) → motive (label span name body)) :
    motive s := by
  refine @Statement.rec motive (fun body => ∀ t ∈ body, motive t) press call label ?_ ?_ s
  · intro t ht
    cases ht
  · intro t rest ht hrest
    exact List.forall_mem_cons.mpr ⟨ht, hrest⟩

end Statement

def Key.map (number : Decimal → Decimal) : Key → Key
  | .push n => .push (number n)
  | key => key

namespace Statement

mutual

/-- The statement at another place and with other numbers. -/
def map (place : Span → Span) (number : Decimal → Decimal) : Statement → Statement
  | press span key => press (place span) (key.map number)
  | call span name => call (place span) name
  | label span name body => label (place span) name (mapAll place number body)

def mapAll (place : Span → Span) (number : Decimal → Decimal) : List Statement → List Statement
  | [] => []
  | s :: rest => map place number s :: mapAll place number rest

end

theorem mapAll_eq (place : Span → Span) (number : Decimal → Decimal) (ss : List Statement) :
    mapAll place number ss = ss.map (map place number) := by
  induction ss with
  | nil => rfl
  | cons s ss ih => rw [mapAll, ih, List.map_cons]

theorem wordsOfAll_eq (ss : List Statement) : wordsOfAll ss = ss.flatMap words := by
  induction ss with
  | nil => rfl
  | cons s ss ih => rw [wordsOfAll, ih, List.flatMap_cons]

theorem sameAll_map {f g : Statement → Statement} {ss : List Statement}
    (h : ∀ s ∈ ss, same (f s) (g s) = true) : sameAll (ss.map f) (ss.map g) = true := by
  induction ss with
  | nil => rfl
  | cons s ss ih =>
    obtain ⟨hs, hrest⟩ := List.forall_mem_cons.mp h
    rw [List.map_cons, List.map_cons, sameAll, hs, ih hrest]
    rfl

/-- Changing details twice is changing them once. -/
theorem map_map (f f' : Span → Span) (g g' : Decimal → Decimal) (s : Statement) :
    (s.map f g).map f' g' = s.map (f' ∘ f) (g' ∘ g) := by
  induction s using inductionOn with
  | press span key => cases key <;> rfl
  | call span name => rfl
  | label span name body ih =>
    have hbody : body.map (map f' g' ∘ map f g) = body.map (map (f' ∘ f) (g' ∘ g)) :=
      List.map_congr_left ih
    simp only [map, mapAll_eq, List.map_map, hbody, Function.comp_apply]

@[simp] theorem map_id (s : Statement) : s.map id id = s := by
  induction s using inductionOn with
  | press span key => cases key <;> rfl
  | call span name => rfl
  | label span name body ih =>
    rw [map, mapAll_eq, List.map_congr_left ih, List.map_id']
    rfl

/-- Numbers that print alike make statements that print alike. -/
theorem words_map (place : Span → Span) {number : Decimal → Decimal}
    (h : ∀ n, (number n).text = n.text) (s : Statement) : (s.map place number).words = s.words := by
  induction s using inductionOn with
  | press span key =>
    cases key with
    | push n => rw [map, words, words, Key.map, Key.words, Key.words, h]
    | store | load | arithmetic | compare => rfl
  | call span name => rfl
  | label span name body ih =>
    simp only [map, words, mapAll_eq, wordsOfAll_eq, List.flatMap_map, List.flatMap_congr ih]

/-- Equal numbers make equal statements. -/
theorem same_map (place : Span → Span) {f g : Decimal → Decimal}
    (h : ∀ n, (f n).same (g n) = true) (s : Statement) :
    same (s.map place f) (s.map place g) = true := by
  induction s using inductionOn with
  | press span key =>
    cases key with
    | push n => simp [map, same, Key.map, Key.same, h]
    | store | load | arithmetic | compare => simp [map, same, Key.map, Key.same]
  | call span name => simp [map, same]
  | label span name body ih => simp [map, same, mapAll_eq, sameAll_map ih]

end Statement

namespace Program

def map (place : Span → Span) (number : Decimal → Decimal) (p : Program) : Program :=
  ⟨p.statements.map (Statement.map place number)⟩

def relocate (place : Span → Span) (p : Program) : Program := p.map place id

def withoutSpans (p : Program) : Program := p.relocate fun _ => .origin

def spelledOut (p : Program) : Program := p.map id Decimal.spelledOut

theorem listing_map (place : Span → Span) {number : Decimal → Decimal}
    (h : ∀ n, (number n).text = n.text) (p : Program) :
    (p.map place number).listing = p.listing := by
  rw [listing, listing, Statement.wordsOfAll_eq, Statement.wordsOfAll_eq, map, List.flatMap_map,
    List.flatMap_congr fun s _ => Statement.words_map place h s]

@[simp] theorem listing_withoutSpans (p : Program) : p.withoutSpans.listing = p.listing :=
  listing_map _ (fun _ => rfl) p

@[simp] theorem listing_spelledOut (p : Program) : p.spelledOut.listing = p.listing :=
  listing_map _ Decimal.text_spelledOut p

theorem map_map (f f' : Span → Span) (g g' : Decimal → Decimal) (p : Program) :
    (p.map f g).map f' g' = p.map (f' ∘ f) (g' ∘ g) := by
  have hstatements : Statement.map f' g' ∘ Statement.map f g = Statement.map (f' ∘ f) (g' ∘ g) :=
    funext (Statement.map_map f f' g g')
  rw [map, map, map, List.map_map, hstatements]

@[simp] theorem relocate_id (p : Program) : p.relocate id = p := by
  have hid : Statement.map id id = id := funext Statement.map_id
  rw [relocate, map, hid, List.map_id]

/-- Spelling the numbers out does not change them. -/
theorem same_spelledOut (p : Program) :
    same p.spelledOut.withoutSpans p.withoutSpans = true := by
  have hnumber : ∀ n : Decimal, n.spelledOut.same (id n) = true := Decimal.same_spelledOut
  rw [spelledOut, withoutSpans, relocate, map_map, same]
  exact Statement.sameAll_map fun s _ => Statement.same_map _ hnumber s

end Program

end Keystroke
