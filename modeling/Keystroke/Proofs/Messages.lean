import Keystroke.Fault
import Mathlib.Data.List.TakeWhile

/-!
# Messages tell faults apart

A message is written without quotes: a wording, then the place, unless it is the origin, then the
text, unless it is empty. The text may hold anything, also what looks like a place or like the start
of another text. All the same there is one way only to read a message.

Read from the left, each part shows where it ends. No wording begins another one. A place begins
with a space and its numbers end where there are no more digits, and where a place is left out, the
next character is a semicolon or there is none. Only the text has no end of its own, and nothing
follows it.
-/

namespace Keystroke

/-- What is written for each of these things can be told from what stands behind it, as long as that
is as `Behind` says. -/
def ReadsUniquely {α : Type} (write : α → List Char) (Behind : List Char → Prop) : Prop :=
  ∀ ⦃a b : α⦄ ⦃x y : List Char⦄, Behind x → Behind y → write a ++ x = write b ++ y → a = b ∧ x = y

namespace ReadsUniquely

variable {α β : Type} {write : α → List Char} {other : β → List Char}
variable {Behind Next : List Char → Prop}

/-- Two things one behind the other. The second one is what stands behind the first. -/
theorem append (h : ReadsUniquely write Next) (hother : ReadsUniquely other Behind)
    (hnext : ∀ b x, Behind x → Next (other b ++ x)) :
    ReadsUniquely (fun ab : α × β => write ab.1 ++ other ab.2) Behind := by
  rintro ⟨a, b⟩ ⟨a', b'⟩ x y hx hy hequal
  simp only [List.append_assoc] at hequal
  obtain ⟨rfl, hrest⟩ := h (hnext b x hx) (hnext b' y hy) hequal
  obtain ⟨rfl, rfl⟩ := hother hx hy hrest
  exact ⟨rfl, rfl⟩

/-- The same characters in front of everything. -/
theorem mark (h : ReadsUniquely write Behind) (front : List Char) :
    ReadsUniquely (fun a => front ++ write a) Behind := by
  intro a b x y hx hy hequal
  rw [List.append_assoc, List.append_assoc] at hequal
  exact h hx hy (List.append_cancel_left hequal)

/-- One of the things is left out. The others are marked by a character that cannot stand behind
it. -/
theorem leaveOut [DecidableEq α] (h : ReadsUniquely write Behind) (default : α) (c : Char) :
    ReadsUniquely (fun a => if a = default then [] else c :: write a)
      (fun x => Behind x ∧ x.head? ≠ some c) := by
  rintro a b x y ⟨hx, hxc⟩ ⟨hy, hyc⟩ hequal
  dsimp only at hequal
  split_ifs at hequal with ha hb hb
  · exact ⟨ha.trans hb.symm, hequal⟩
  · exact absurd (congrArg List.head? hequal) hxc
  · exact absurd (congrArg List.head? hequal).symm hyc
  · exact h hx hy (List.cons.inj hequal).2

/-- Things that are written as their parts are, and determined by them. -/
theorem of_parts (h : ReadsUniquely write Behind) (parts : β → α)
    (hparts : Function.Injective parts) (hwrite : ∀ b, other b = write (parts b)) :
    ReadsUniquely other Behind := by
  intro b b' x y hx hy hequal
  rw [hwrite, hwrite] at hequal
  obtain ⟨hb, hxy⟩ := h hx hy hequal
  exact ⟨hparts hb, hxy⟩

end ReadsUniquely

def NoDigitFirst (cs : List Char) : Prop := ∀ c, cs.head? = some c → c.isDigit = false

theorem takeWhile_isDigit_repr_append (n : Nat) {cs : List Char} (h : NoDigitFirst cs) :
    (n.repr.toList ++ cs).takeWhile Char.isDigit = n.repr.toList := by
  have hdigits : ∀ c ∈ n.repr.toList, c.isDigit = true := by
    intro c hc
    rw [Nat.toList_repr] at hc
    exact Nat.isDigit_of_mem_toDigits (by decide) (by decide) hc
  have hnone : cs.takeWhile Char.isDigit = [] := by
    cases cs with
    | nil => rfl
    | cons c cs => rw [List.takeWhile_cons_of_neg (by simp [h c rfl])]
  rw [List.takeWhile_append_of_pos hdigits, hnone, List.append_nil]

/-- A number ends where there are no more digits. -/
theorem readsUniquely_repr : ReadsUniquely (fun n : Nat => n.repr.toList) NoDigitFirst := by
  intro m n x y hx hy hequal
  have hdigits : m.repr.toList = n.repr.toList := by
    rw [← takeWhile_isDigit_repr_append m hx, ← takeWhile_isDigit_repr_append n hy]
    exact congrArg (List.takeWhile Char.isDigit) hequal
  have hnumber : m = n := by
    rw [Nat.toList_repr, Nat.toList_repr] at hdigits
    rw [← Nat.ofDigitChars_ten_toDigits (n := m), hdigits, Nat.ofDigitChars_ten_toDigits]
  subst hnumber
  exact ⟨rfl, List.append_cancel_left hequal⟩

namespace Span

/-- Two points stand between the numbers of a span. -/
theorem readsUniquely_text : ReadsUniquely (fun s : Span => s.text.toList) NoDigitFirst := by
  have hnumbers := readsUniquely_repr.append (readsUniquely_repr.mark "..".toList) (by
    intro n x _ c hc
    obtain rfl : '.' = c := Option.some.inj hc
    decide)
  refine hnumbers.of_parts (fun s => (s.start, s.stop)) ?_ ?_
  · rintro ⟨start, stop⟩ ⟨start', stop'⟩ hequal
    cases hequal
    rfl
  · intro s
    simp [text]

end Span

namespace Fault

theorem Kind.eq_of_wording_begins {k l : Kind} (h : k.wording.toList <+: l.wording.toList) :
    k = l := by
  revert h
  cases k <;> cases l <;> decide

/-- No wording begins another one. -/
theorem Kind.readsUniquely_wording :
    ReadsUniquely (fun k : Kind => k.wording.toList) fun _ => True := by
  intro k l x y _ _ hequal
  have hk : k.wording.toList <+: l.wording.toList ++ y := ⟨x, hequal⟩
  have hkind : k = l := by
    rcases List.prefix_or_prefix_of_prefix hk (List.prefix_append _ y) with hbegins | hbegins
    · exact eq_of_wording_begins hbegins
    · exact (eq_of_wording_begins hbegins).symm
  subst hkind
  exact ⟨rfl, List.append_cancel_left hequal⟩

theorem toList_place (f : Fault) :
    f.place.toList =
      if f.span = .origin then [] else ' ' :: ("AT ".toList ++ f.span.text.toList) := by
  rw [place]
  split_ifs <;> simp

theorem toList_subject (f : Fault) :
    f.subject.toList = if f.text = "" then [] else ';' :: (" ".toList ++ f.text.toList) := by
  rw [subject]
  split_ifs <;> simp

/-- The text has no end of its own, so nothing may stand behind it. -/
theorem readsUniquely_toList : ReadsUniquely String.toList (· = []) := by
  rintro s t _ _ rfl rfl hequal
  rw [List.append_nil, List.append_nil] at hequal
  exact ⟨String.toList_inj.mp hequal, rfl⟩

/-- A text that is left out leaves nothing behind the place, and any other one begins with a
semicolon. -/
theorem readsUniquely_place_subject :
    ReadsUniquely (fun st : Span × String =>
      (if st.1 = .origin then [] else ' ' :: ("AT ".toList ++ st.1.text.toList)) ++
        if st.2 = "" then [] else ';' :: (" ".toList ++ st.2.toList)) (· = []) := by
  have hplace := (Span.readsUniquely_text.mark "AT ".toList).leaveOut Span.origin ' '
  have hsubject := (readsUniquely_toList.mark " ".toList).leaveOut "" ';'
  have hboth := hplace.append hsubject (by
    rintro text x ⟨rfl, -⟩
    split_ifs <;> simp [NoDigitFirst])
  intro a b x y hx hy hequal
  exact hboth ⟨hx, by simp [hx]⟩ ⟨hy, by simp [hy]⟩ hequal

theorem readsUniquely_message : ReadsUniquely (fun f : Fault => f.message.toList) (· = []) := by
  have hparts := Kind.readsUniquely_wording.append readsUniquely_place_subject fun _ _ _ => trivial
  refine hparts.of_parts (fun f => (f.kind, f.span, f.text)) ?_ ?_
  · rintro ⟨kind, span, text⟩ ⟨kind', span', text'⟩ hequal
    cases hequal
    rfl
  · intro f
    simp [message, toList_place, toList_subject]

/-- Two faults have the same message only if they are the same fault: of the same kind, at the same
place and about the same text. -/
theorem message_eq_iff (a b : Fault) :
    (a.message = b.message ↔ a = b) ∧
      (a = b ↔ a.kind = b.kind ∧ a.span = b.span ∧ a.text = b.text) := by
  constructor
  · constructor
    · intro hequal
      exact (readsUniquely_message rfl rfl (congrArg (·.toList ++ []) hequal)).1
    · rintro rfl
      rfl
  · obtain ⟨kind, span, text⟩ := a
    obtain ⟨kind', span', text'⟩ := b
    rw [Fault.mk.injEq]

/-- A text that looks like a place. -/
example : message ⟨.undefinedLabel, .origin, "f AT 1..2; g"⟩ = "UNDEFINED LABEL; f AT 1..2; g" ∧
    message ⟨.undefinedLabel, ⟨1, 2⟩, "g"⟩ = "UNDEFINED LABEL AT 1..2; g" := by
  decide +kernel

end Fault

end Keystroke
