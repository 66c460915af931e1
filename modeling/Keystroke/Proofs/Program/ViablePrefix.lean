import Keystroke.Proofs.Program.WellFormed
import Mathlib.Order.Bounds.Basic

/-!
# Where reading fails

Tokens are viable if some program continues them. The reader accepts one token after the other as
long as what it has read is viable: from wherever it stands, a name and an `rtn` at most are enough
to come to the end of a program, and a token that it refuses is refused whatever follows. So the
token that a fault is about is the first one behind which no program continues. If there is none,
the tokens are only incomplete, and the fault says what is missing.

Which fault it is can be read off the tokens. The reader waits for a name if the last token is a
keyword that takes one, and a label is open if behind its name there is neither `lbl` nor `rtn`.
-/

namespace Keystroke

def Verb.keyword : Verb → Keyword
  | .store => .sto
  | .load => .rcl
  | .call => .xeq
  | .define => .lbl

@[simp] theorem Verb.keyword_inj {v w : Verb} : v.keyword = w.keyword ↔ v = w := by
  cases v <;> cases w <;> simp [Verb.keyword]

theorem Verb.keyword_ne_rtn (v : Verb) : v.keyword ≠ .rtn := by
  cases v <;> simp [Verb.keyword]

namespace Token

/-- A program continues the tokens. -/
def Viable (tokens : List Token) : Prop := ∃ more p, Program.ofTokens (tokens ++ more) = .ok p

/-- The token is a keyword that takes a name: `sto`, `rcl`, `xeq` or `lbl`. -/
def TakesName (t : Token) : Prop := ∃ verb : Verb, t.kind = .word verb.keyword

def EndsBeforeName (tokens : List Token) : Prop :=
  ∃ last, tokens.getLast? = some last ∧ last.TakesName

/-- A label is open at the end of the tokens: there is an `lbl` with its name, and neither `lbl`
nor `rtn` behind them. -/
def LeavesOpen (tokens : List Token) (opening name : Token) : Prop :=
  opening.kind = .word .lbl ∧ name.kind = .name ∧
    ∃ before body, tokens = before ++ opening :: name :: body ∧
      ∀ t ∈ body, t.kind ≠ .word .lbl ∧ t.kind ≠ .word .rtn

/-- Why a token cannot stand behind others. -/
inductive RefusedBehind (before : List Token) (t : Token) : Fault.Kind → Prop where
  | expectedIdentifier (hname : EndsBeforeName before) :
      RefusedBehind before t .expectedIdentifier
  | malformedNumber (hname : ¬ EndsBeforeName before) (hkind : t.kind = .number)
      (htext : Decimal.ofText? t.text = none) : RefusedBehind before t .malformedNumber
  | nestedLabel {opening name : Token} (hname : ¬ EndsBeforeName before)
      (hkind : t.kind = .word .lbl) (hopen : LeavesOpen before opening name) :
      RefusedBehind before t .nestedLabel
  | strayName (hname : ¬ EndsBeforeName before) (hkind : t.kind = .name) :
      RefusedBehind before t .unexpectedToken
  | strayReturn (hname : ¬ EndsBeforeName before) (hkind : t.kind = .word .rtn)
      (hclosed : ∀ opening name, ¬ LeavesOpen before opening name) :
      RefusedBehind before t .unexpectedToken

/-- A label is open behind one more token if it was open before and the token is neither `lbl` nor
`rtn`, or if the token is its name. -/
theorem leavesOpen_concat {tokens : List Token} {t opening name : Token} :
    LeavesOpen (tokens ++ [t]) opening name ↔
      (LeavesOpen tokens opening name ∧ t.kind ≠ .word .lbl ∧ t.kind ≠ .word .rtn) ∨
        (tokens.getLast? = some opening ∧ opening.kind = .word .lbl ∧ name = t ∧
          t.kind = .name) := by
  constructor
  · rintro ⟨hopening, hname, before, body, htokens, hbody⟩
    obtain rfl | ⟨body, last, rfl⟩ := body.eq_nil_or_concat
    · have hsplit : tokens ++ [t] = (before ++ [opening]) ++ [name] := by simpa using htokens
      obtain ⟨rfl, rfl⟩ := List.append_singleton_inj.mp hsplit
      exact .inr ⟨List.getLast?_concat, hopening, rfl, hname⟩
    · have hsplit : tokens ++ [t] = (before ++ opening :: name :: body) ++ [last] := by
        simpa using htokens
      obtain ⟨rfl, rfl⟩ := List.append_singleton_inj.mp hsplit
      have hlast := hbody t (by simp)
      exact .inl ⟨⟨hopening, hname, before, body, rfl, fun u hu => hbody u (by simp [hu])⟩, hlast⟩
  · rintro (⟨⟨hopening, hname, before, body, rfl, hbody⟩, ht⟩ | ⟨hlast, hopening, rfl, hname⟩)
    · refine ⟨hopening, hname, before, body ++ [t], by simp, ?_⟩
      intro u hu
      obtain hu | rfl : u ∈ body ∨ u = t := by simpa using hu
      · exact hbody u hu
      · exact ht
    · obtain ⟨before, rfl⟩ := List.getLast?_eq_some_iff.mp hlast
      exact ⟨hopening, hname, before, [], by simp, by simp⟩

section Concat

variable {tokens : List Token} {t last opening name : Token}

theorem not_leavesOpen_concat (ht : t.kind = .word .lbl ∨ t.kind = .word .rtn) :
    ¬ LeavesOpen (tokens ++ [t]) opening name := by
  rintro h
  rcases leavesOpen_concat.mp h with ⟨-, hlbl, hrtn⟩ | ⟨-, -, -, hname⟩
  · exact ht.elim hlbl hrtn
  · rw [hname] at ht
    exact ht.elim nofun nofun

theorem leavesOpen_concat_of_ne (hlbl : t.kind ≠ .word .lbl) (hrtn : t.kind ≠ .word .rtn)
    (hname : t.kind ≠ .name) :
    LeavesOpen (tokens ++ [t]) opening name ↔ LeavesOpen tokens opening name := by
  simp [leavesOpen_concat, hlbl, hrtn, hname]

/-- A name behind `lbl` opens a label. -/
theorem leavesOpen_concat_name (ht : t.kind = .name) (hlast : tokens.getLast? = some last)
    (hlbl : last.kind = .word .lbl) :
    LeavesOpen (tokens ++ [t]) opening name ↔ last = opening ∧ name = t := by
  have hclosed : ¬ LeavesOpen tokens opening name := by
    obtain ⟨before, rfl⟩ := List.getLast?_eq_some_iff.mp hlast
    exact not_leavesOpen_concat (.inl hlbl)
  rw [leavesOpen_concat, hlast, Option.some.injEq]
  constructor
  · rintro (⟨hopen, -⟩ | ⟨hopening, -, hname, -⟩)
    · exact absurd hopen hclosed
    · exact ⟨hopening, hname⟩
  · rintro ⟨rfl, rfl⟩
    exact .inr ⟨rfl, hlbl, rfl, ht⟩

/-- Behind other keywords a name opens nothing. -/
theorem leavesOpen_concat_name_of_ne (ht : t.kind = .name) (hlast : tokens.getLast? = some last)
    (hlbl : last.kind ≠ .word .lbl) :
    LeavesOpen (tokens ++ [t]) opening name ↔ LeavesOpen tokens opening name := by
  rw [leavesOpen_concat, hlast, Option.some.injEq]
  constructor
  · rintro (⟨hopen, -⟩ | ⟨rfl, hopening, -⟩)
    · exact hopen
    · exact absurd hopening hlbl
  · intro hopen
    exact .inl ⟨hopen, by simp [ht], by simp [ht]⟩

end Concat

end Token

open Token

namespace Reader

variable {r r' : Reader} {tokens : List Token} {t : Token} {fault : Fault}

section Rules

/-- How a token can be accepted: it is a statement, it is a keyword that takes a name, it closes a
label, or it is the name that a keyword was waiting for. -/
inductive Accepts (r : Reader) (t : Token) : Reader → Prop where
  | statement (s : Statement) (hr : r.awaiting = none) (hname : t.kind ≠ .name)
      (hword : ∀ w, t.kind ≠ .word w) : Accepts r t (r.add s)
  | keyword (verb : Verb) (hr : r.awaiting = none) (hkind : t.kind = .word verb.keyword)
      (hopened : verb = .define → r.opened = none) : Accepts r t (r.await t.span verb)
  | close {l : OpenLabel} (hr : r.awaiting = none) (hkind : t.kind = .word .rtn)
      (hopened : r.opened = some l) : Accepts r t (r.close l)
  | name {span : Span} {verb : Verb} (hr : r.awaiting = some (span, verb))
      (hkind : t.kind = .name) :
      Accepts r t ({ r with awaiting := none }.named span t.text verb)

/-- How a token can be refused. The fault is about the token in each case. -/
inductive Refuses (r : Reader) (t : Token) : Fault → Prop where
  | expectedIdentifier (hr : r.awaiting.isSome) :
      Refuses r t ⟨.expectedIdentifier, t.span, t.text⟩
  | malformedNumber (hr : r.awaiting = none) (hkind : t.kind = .number)
      (htext : Decimal.ofText? t.text = none) : Refuses r t ⟨.malformedNumber, t.span, t.text⟩
  | nestedLabel {l : OpenLabel} (hr : r.awaiting = none) (hkind : t.kind = .word .lbl)
      (hopened : r.opened = some l) : Refuses r t ⟨.nestedLabel, t.span, t.text⟩
  | strayName (hr : r.awaiting = none) (hkind : t.kind = .name) :
      Refuses r t ⟨.unexpectedToken, t.span, t.text⟩
  | strayReturn (hr : r.awaiting = none) (hkind : t.kind = .word .rtn)
      (hopened : r.opened = none) : Refuses r t ⟨.unexpectedToken, t.span, t.text⟩

def Follows (r : Reader) (t : Token) : Except Fault Reader → Prop
  | .ok r' => Accepts r t r'
  | .error fault => Refuses r t fault

private theorem take_follows (hr : r.awaiting = none) (t : Token) : Follows r t (r.take t) := by
  obtain ⟨kind, text, span⟩ := t
  cases kind with
  | name => exact .strayName hr rfl
  | operator | comparator => exact .statement _ hr (by simp) (by simp)
  | number =>
    simp only [take]
    split
    · exact .statement _ hr (by simp) (by simp)
    · next htext => exact .malformedNumber hr rfl htext
  | word w =>
    cases w with
    | sto => exact .keyword .store hr rfl (by simp)
    | rcl => exact .keyword .load hr rfl (by simp)
    | xeq => exact .keyword .call hr rfl (by simp)
    | lbl =>
      simp only [take]
      split
      · next hopened => exact .keyword .define hr rfl fun _ => hopened
      · next hopened => exact .nestedLabel hr rfl hopened
    | rtn =>
      simp only [take]
      split
      · next hopened => exact .strayReturn hr rfl hopened
      · next hopened => exact .close hr rfl hopened

/-- Every token is accepted or refused by one of the rules. -/
theorem next_follows (r : Reader) (t : Token) : Follows r t (r.next t) := by
  unfold next
  split
  · next hr => exact take_follows hr t
  · next hr =>
    split
    · next hkind => exact .name hr hkind
    · exact .expectedIdentifier (by simp [hr])

theorem accepts_of_next (h : r.next t = .ok r') : Accepts r t r' := by
  have hrule := next_follows r t
  rwa [h] at hrule

theorem refuses_of_next (h : r.next t = .error fault) : Refuses r t fault := by
  have hrule := next_follows r t
  rwa [h] at hrule

end Rules

section Recall

/-- What a reader knows of the tokens that it has read: whether the last of them is a keyword that
takes a name, and which label is open. -/
structure Recalls (r : Reader) (tokens : List Token) : Prop where
  awaiting : ∀ span verb, r.awaiting = some (span, verb) ↔
    ∃ last, tokens.getLast? = some last ∧ last.span = span ∧ last.kind = .word verb.keyword
  opened : ∀ span name, (∃ l, r.opened = some l ∧ l.span = span ∧ l.name = name) ↔
    ∃ opening named, LeavesOpen tokens opening named ∧ opening.span = span ∧ named.text = name

@[simp] theorem awaiting_add (r : Reader) (s : Statement) : (r.add s).awaiting = r.awaiting := by
  unfold add
  split <;> rfl

/-- A statement inside a label leaves it open. -/
theorem opened_add (r : Reader) (s : Statement) (span : Span) (name : String) :
    (∃ l, (r.add s).opened = some l ∧ l.span = span ∧ l.name = name) ↔
      ∃ l, r.opened = some l ∧ l.span = span ∧ l.name = name := by
  unfold add
  split
  · next hopened => simp [hopened]
  · next hopened => simp [hopened]

theorem Recalls.start : Reader.start.Recalls [] := by
  constructor
  · intro span verb
    simp [Reader.start]
  · intro span name
    simp [Reader.start, LeavesOpen]

theorem Recalls.statement (h : r.Recalls tokens) (s : Statement) (hr : r.awaiting = none)
    (hname : t.kind ≠ .name) (hword : ∀ w, t.kind ≠ .word w) :
    (r.add s).Recalls (tokens ++ [t]) := by
  constructor
  · intro span verb
    simp [hr, hword]
  · intro span name
    simp only [opened_add, h.opened, leavesOpen_concat_of_ne (hword _) (hword _) hname]

theorem Recalls.keyword (h : r.Recalls tokens) {verb : Verb}
    (hkind : t.kind = .word verb.keyword) (hopened : verb = .define → r.opened = none) :
    (r.await t.span verb).Recalls (tokens ++ [t]) := by
  constructor
  · intro span other
    simp [await, hkind, Verb.keyword_inj]
  · intro span name
    by_cases hverb : verb = .define
    · subst hverb
      simp [await, hopened, not_leavesOpen_concat (.inl hkind)]
    · have hlbl : t.kind ≠ .word .lbl := fun hword =>
        hverb (Verb.keyword_inj.mp (Kind.word.inj (hkind.symm.trans hword)))
      have hrtn : t.kind ≠ .word .rtn := fun hword =>
        verb.keyword_ne_rtn (Kind.word.inj (hkind.symm.trans hword))
      simp only [leavesOpen_concat_of_ne hlbl hrtn (by simp [hkind])]
      exact h.opened span name

theorem Recalls.close (tokens : List Token) (l : OpenLabel) (hr : r.awaiting = none)
    (hkind : t.kind = .word .rtn) : (r.close l).Recalls (tokens ++ [t]) := by
  constructor
  · intro span verb
    simp [Reader.close, hr, hkind, verb.keyword_ne_rtn.symm]
  · intro span name
    simp [Reader.close, not_leavesOpen_concat (.inr hkind)]

theorem Recalls.name (h : r.Recalls tokens) {span : Span} {verb : Verb}
    (hr : r.awaiting = some (span, verb)) (hkind : t.kind = .name) :
    ({ r with awaiting := none }.named span t.text verb).Recalls (tokens ++ [t]) := by
  obtain ⟨last, hlast, rfl, hverb⟩ := (h.awaiting span verb).mp hr
  constructor
  · intro span other
    cases verb <;> simp [named, hkind]
  · intro place name
    cases verb with
    | define =>
      simp [named, leavesOpen_concat_name hkind hlast hverb]
    | store | load | call =>
      have hlbl : last.kind ≠ .word .lbl := by simp [hverb, Verb.keyword]
      simp only [named, opened_add, leavesOpen_concat_name_of_ne hkind hlast hlbl]
      exact h.opened place name

/-- A reader still knows what it has to know after one more token. -/
theorem Recalls.accepts (h : r.Recalls tokens) (ht : r.Accepts t r') :
    r'.Recalls (tokens ++ [t]) := by
  cases ht with
  | statement s hr hname hword => exact h.statement s hr hname hword
  | keyword verb hr hkind hopened => exact h.keyword hkind hopened
  | close hr hkind hopened => exact .close tokens _ hr hkind
  | name hr hkind => exact h.name hr hkind

/-- What a reader knows is true of all tokens that it has read. -/
theorem Recalls.foldlM {more : List Token} (h : r.Recalls tokens)
    (hmore : more.foldlM next r = .ok r') : r'.Recalls (tokens ++ more) := by
  induction more generalizing tokens r with
  | nil =>
    cases hmore
    simpa using h
  | cons t more ih =>
    rw [List.foldlM_cons] at hmore
    cases hnext : r.next t with
    | error fault => rw [hnext] at hmore; cases hmore
    | ok r₁ =>
      rw [hnext] at hmore
      simpa using ih (h.accepts (accepts_of_next hnext)) hmore

theorem Recalls.endsBeforeName_iff (h : r.Recalls tokens) :
    EndsBeforeName tokens ↔ r.awaiting.isSome := by
  constructor
  · rintro ⟨last, hlast, verb, hkind⟩
    simp [(h.awaiting last.span verb).mpr ⟨last, hlast, rfl, hkind⟩]
  · intro hr
    obtain ⟨⟨span, verb⟩, hwaiting⟩ := Option.isSome_iff_exists.mp hr
    obtain ⟨last, hlast, -, hkind⟩ := (h.awaiting span verb).mp hwaiting
    exact ⟨last, hlast, verb, hkind⟩

theorem Recalls.not_endsBeforeName (h : r.Recalls tokens) (hr : r.awaiting = none) :
    ¬ EndsBeforeName tokens := by
  simp [h.endsBeforeName_iff, hr]

theorem Recalls.leavesOpen (h : r.Recalls tokens) {l : OpenLabel} (hl : r.opened = some l) :
    ∃ opening name, LeavesOpen tokens opening name ∧ opening.span = l.span ∧ name.text = l.name :=
  (h.opened l.span l.name).mp ⟨l, hl, rfl, rfl⟩

theorem Recalls.not_leavesOpen (h : r.Recalls tokens) (hr : r.opened = none)
    (opening name : Token) : ¬ LeavesOpen tokens opening name := by
  intro hopen
  obtain ⟨l, hl, -⟩ := (h.opened opening.span name.text).mpr ⟨opening, name, hopen, rfl, rfl⟩
  simp [hr] at hl

/-- A token is refused for a reason that the tokens before it show. -/
theorem Recalls.refuses (h : r.Recalls tokens) (ht : r.Refuses t fault) :
    fault.span = t.span ∧ fault.text = t.text ∧ RefusedBehind tokens t fault.kind := by
  cases ht with
  | expectedIdentifier hr =>
    exact ⟨rfl, rfl, .expectedIdentifier (h.endsBeforeName_iff.mpr hr)⟩
  | malformedNumber hr hkind htext =>
    exact ⟨rfl, rfl, .malformedNumber (h.not_endsBeforeName hr) hkind htext⟩
  | nestedLabel hr hkind hopened =>
    obtain ⟨opening, name, hopen, -⟩ := h.leavesOpen hopened
    exact ⟨rfl, rfl, .nestedLabel (h.not_endsBeforeName hr) hkind hopen⟩
  | strayName hr hkind => exact ⟨rfl, rfl, .strayName (h.not_endsBeforeName hr) hkind⟩
  | strayReturn hr hkind hopened =>
    exact ⟨rfl, rfl, .strayReturn (h.not_endsBeforeName hr) hkind (h.not_leavesOpen hopened)⟩

/-- At the end of the tokens, what is missing is a name behind the last of them, or the `rtn` of
the label that is open. -/
theorem Recalls.finish (h : r.Recalls tokens) (hfault : r.finish = .error fault) :
    (∃ last, tokens.getLast? = some last ∧ last.TakesName ∧
        fault = ⟨.expectedIdentifier, last.span.after, ""⟩) ∨
      ¬ EndsBeforeName tokens ∧ ∃ opening name, LeavesOpen tokens opening name ∧
        fault = ⟨.missingReturn, opening.span, name.text⟩ := by
  unfold Reader.finish at hfault
  split at hfault
  · next span verb hr =>
    obtain ⟨last, hlast, rfl, hkind⟩ := (h.awaiting span verb).mp hr
    exact .inl ⟨last, hlast, ⟨verb, hkind⟩, (Except.error.inj hfault).symm⟩
  · next l hr hopened =>
    obtain ⟨opening, name, hopen, hspan, hname⟩ := h.leavesOpen hopened
    refine .inr ⟨h.not_endsBeforeName hr, opening, name, hopen, ?_⟩
    rw [hspan, hname]
    exact (Except.error.inj hfault).symm
  · cases hfault

end Recall

section Completion

theorem awaiting_named (r : Reader) (span : Span) (name : String) (verb : Verb) :
    (r.named span name verb).awaiting = r.awaiting := by
  cases verb with
  | define => rfl
  | store | load | call => exact awaiting_add _ _

/-- Between two statements, an `rtn` is enough to come to the end of a program. -/
theorem exists_completion_of_between (hr : r.awaiting = none) :
    ∃ (more : List Token) (r' : Reader) (p : Program),
      more.foldlM next r = .ok r' ∧ r'.finish = .ok p := by
  cases hopened : r.opened with
  | none => exact ⟨[], r, ⟨r.statements.reverse⟩, rfl, by simp [finish, hr, hopened]⟩
  | some l =>
    have hnext : r.next ⟨.word .rtn, "", .origin⟩ = .ok (r.close l) := by
      simp [next, take, hr, hopened]
    refine ⟨[⟨.word .rtn, "", .origin⟩], r.close l, ⟨(r.close l).statements.reverse⟩, ?_, ?_⟩
    · simp [hnext]
    · simp [finish, Reader.close, hr]

/-- From wherever a reader stands, some tokens lead to the end of a program. -/
theorem exists_completion (r : Reader) :
    ∃ (more : List Token) (r' : Reader) (p : Program),
      more.foldlM next r = .ok r' ∧ r'.finish = .ok p := by
  cases hr : r.awaiting with
  | none => exact exists_completion_of_between hr
  | some waiting =>
    let r₁ := { r with awaiting := none }.named waiting.1 "" waiting.2
    have hnext : r.next ⟨.name, "", .origin⟩ = .ok r₁ := by
      simp [next, hr, r₁]
    obtain ⟨more, r', p, hmore, hfinish⟩ := exists_completion_of_between
      (awaiting_named { r with awaiting := none } waiting.1 "" waiting.2)
    refine ⟨⟨.name, "", .origin⟩ :: more, r', p, ?_, hfinish⟩
    simpa [hnext, Bind.bind, Except.bind] using hmore

end Completion

/-- Reading stops at the first token that is refused. -/
theorem exists_of_foldlM_error (h : tokens.foldlM next r = .error fault) :
    ∃ before t after r', tokens = before ++ t :: after ∧ before.foldlM next r = .ok r' ∧
      r'.next t = .error fault := by
  induction tokens generalizing r with
  | nil => cases h
  | cons t tokens ih =>
    rw [List.foldlM_cons] at h
    cases hnext : r.next t with
    | error other =>
      rw [hnext] at h
      cases h
      exact ⟨[], t, tokens, r, rfl, rfl, hnext⟩
    | ok r₁ =>
      rw [hnext] at h
      obtain ⟨before, u, after, r', rfl, hbefore, hfault⟩ := ih h
      refine ⟨t :: before, u, after, r', rfl, ?_, hfault⟩
      simpa [hnext, Bind.bind, Except.bind] using hbefore

end Reader

/-- Tokens are viable if the reader accepts them one by one. -/
theorem Token.viable_iff {tokens : List Token} :
    Viable tokens ↔ ∃ r, tokens.foldlM Reader.next Reader.start = .ok r := by
  constructor
  · rintro ⟨more, p, h⟩
    obtain ⟨r, hfold, -⟩ := Program.ofTokens_eq_ok.mp h
    rw [List.foldlM_append] at hfold
    cases htokens : tokens.foldlM Reader.next Reader.start with
    | ok r => exact ⟨r, rfl⟩
    | error fault => simp [htokens, Bind.bind, Except.bind] at hfold
  · rintro ⟨r, hr⟩
    obtain ⟨more, r', p, hmore, hfinish⟩ := r.exists_completion
    refine ⟨more, p, Program.ofTokens_eq_ok.mpr ⟨r', ?_, hfinish⟩⟩
    simpa [List.foldlM_append, hr, Bind.bind, Except.bind] using hmore

theorem Token.Viable.of_append {tokens more : List Token} (h : Viable (tokens ++ more)) :
    Viable tokens := by
  obtain ⟨later, p, hp⟩ := h
  exact ⟨more ++ later, p, by simpa using hp⟩

namespace Program

variable {tokens : List Token} {fault : Fault}

theorem ofTokens_eq_error (h : Program.ofTokens tokens = .error fault) :
    tokens.foldlM Reader.next Reader.start = .error fault ∨
      ∃ r, tokens.foldlM Reader.next Reader.start = .ok r ∧ r.finish = .error fault := by
  rw [ofTokens] at h
  cases hfold : tokens.foldlM Reader.next Reader.start with
  | error other =>
    simp only [hfold, Bind.bind, Except.bind] at h
    cases h
    exact .inl rfl
  | ok r =>
    simp only [hfold, Bind.bind, Except.bind] at h
    exact .inr ⟨r, rfl, h⟩

/-- Where the tokens stop being viable is the first place where they are not. -/
theorem isLeast_not_viable {before after : List Token} {t : Token} (hbefore : Viable before)
    (ht : ¬ Viable (before ++ [t])) :
    IsLeast {i | i < (before ++ t :: after).length ∧ ¬ Viable ((before ++ t :: after).take (i + 1))}
      before.length := by
  constructor
  · have htake : (before ++ t :: after).take (before.length + 1) = before ++ [t] := by
      rw [List.take_length_add_append]
      rfl
    exact ⟨by simp, htake ▸ ht⟩
  · rintro i ⟨-, hi⟩
    by_contra hlt
    have htake : (before ++ t :: after).take (i + 1) = before.take (i + 1) :=
      List.take_append_of_le_length (by omega)
    rw [← List.take_append_drop (i + 1) before] at hbefore
    exact hi (htake ▸ hbefore.of_append)

/-- A fault of reading is about the first token that no program continues, if there is one, and
its kind says what is wrong with this token behind those before it. Otherwise the tokens are only
incomplete, and the fault says what is missing: a name behind the keyword that they end with, or
the `rtn` of the label that is open. -/
theorem ofTokens_error_at_first_unviable (tokens : List Token) (fault : Fault)
    (h : Program.ofTokens tokens = .error fault) :
    (¬ Viable tokens → ∃ i t,
        IsLeast {i | i < tokens.length ∧ ¬ Viable (tokens.take (i + 1))} i ∧
        tokens[i]? = some t ∧ fault.span = t.span ∧ fault.text = t.text ∧
        RefusedBehind (tokens.take i) t fault.kind) ∧
      (Viable tokens →
        (∃ last, tokens.getLast? = some last ∧ last.TakesName ∧
          fault = ⟨.expectedIdentifier, last.span.after, ""⟩) ∨
        ¬ EndsBeforeName tokens ∧ ∃ opening name, LeavesOpen tokens opening name ∧
          fault = ⟨.missingReturn, opening.span, name.text⟩) := by
  rcases ofTokens_eq_error h with hfold | ⟨r, hfold, hfinish⟩
  · obtain ⟨before, t, after, r, rfl, hbefore, hnext⟩ := Reader.exists_of_foldlM_error hfold
    have hrecalls : r.Recalls before := Reader.Recalls.start.foldlM hbefore
    obtain ⟨hspan, htext, hkind⟩ := hrecalls.refuses (Reader.refuses_of_next hnext)
    have hrefused : ¬ Viable (before ++ [t]) := by
      rintro hviable
      obtain ⟨r', hr'⟩ := viable_iff.mp hviable
      simp [List.foldlM_append, hbefore, hnext, Bind.bind, Except.bind] at hr'
    constructor
    · intro _
      refine ⟨before.length, t, isLeast_not_viable (viable_iff.mpr ⟨r, hbefore⟩) hrefused, ?_,
        hspan, htext, ?_⟩
      · simp
      · simpa using hkind
    · intro hviable
      have hsplit : before ++ t :: after = (before ++ [t]) ++ after := by simp
      exact absurd (hsplit ▸ hviable).of_append hrefused
  · have hrecalls : r.Recalls tokens := Reader.Recalls.start.foldlM hfold
    exact ⟨fun hnot => absurd (viable_iff.mpr ⟨r, hfold⟩) hnot, fun _ => hrecalls.finish hfinish⟩

/-- The tokens of `lbl f sto lbl rtn` stop being viable at the second `lbl`, where a name is
missing. Those of `lbl f 5` are viable, but the label is open. -/
theorem ofTokens_error_at_first_unviable_nested :
    let opening : Token := ⟨.word .lbl, "lbl", ⟨0, 3⟩⟩
    let name : Token := ⟨.name, "f", ⟨4, 5⟩⟩
    let tokens : List Token := [opening, name, ⟨.word .sto, "sto", ⟨6, 9⟩⟩,
      ⟨.word .lbl, "lbl", ⟨10, 13⟩⟩, ⟨.word .rtn, "rtn", ⟨14, 17⟩⟩]
    let unfinished : List Token := [opening, name, ⟨.number, "5", ⟨6, 7⟩⟩]
    (ofTokens tokens = .error ⟨.expectedIdentifier, ⟨10, 13⟩, "lbl"⟩ ∧ ¬ Viable tokens ∧
        ∃ i t, IsLeast {i | i < tokens.length ∧ ¬ Viable (tokens.take (i + 1))} i ∧
          tokens[i]? = some t ∧ t.span = ⟨10, 13⟩ ∧
          RefusedBehind (tokens.take i) t .expectedIdentifier) ∧
      ofTokens unfinished = .error ⟨.missingReturn, ⟨0, 3⟩, "f"⟩ ∧ Viable unfinished ∧
        ∃ opening name, LeavesOpen unfinished opening name ∧ opening.span = ⟨0, 3⟩ ∧
          name.text = "f" := by
  intro opening name tokens unfinished
  have hrefused : ofTokens tokens = .error ⟨.expectedIdentifier, ⟨10, 13⟩, "lbl"⟩ := rfl
  have hmissing : ofTokens unfinished = .error ⟨.missingReturn, ⟨0, 3⟩, "f"⟩ := rfl
  have hnot : ¬ Viable tokens := by
    intro hviable
    obtain ⟨r, hr⟩ := viable_iff.mp hviable
    cases hr
  have hviable : Viable unfinished := viable_iff.mpr ⟨_, rfl⟩
  obtain ⟨i, t, hleast, ht, hspan, -, hkind⟩ :=
    (ofTokens_error_at_first_unviable tokens _ hrefused).1 hnot
  refine ⟨⟨hrefused, hnot, i, t, hleast, ht, hspan.symm, hkind⟩, hmissing, hviable, ?_⟩
  obtain ⟨last, -, -, hfault⟩ | ⟨-, opening, name, hopen, hfault⟩ :=
    (ofTokens_error_at_first_unviable unfinished _ hmissing).2 hviable
  · cases hfault
  · exact ⟨opening, name, hopen, congrArg Fault.span hfault.symm, congrArg Fault.text hfault.symm⟩

end Program

end Keystroke
