import Keystroke.Proofs.Program.Positions
import Mathlib.Data.List.DropRight

/-!
# Names missing at the end

A source text may end with a keyword that takes a name. The reader sees tokens only, so it puts the
fault just behind the last of them. Whatever the scan has passed over behind that token are blanks:
the fault stands at the end of the text without the blanks that it ends with, which is the end of
the text only if there are no such blanks.

If a token follows the keyword, the fault stands at this token and is not empty. So the place of the
fault tells the two cases apart.
-/

namespace Keystroke

namespace Lexeme

variable {cs : List Char} {l last : Lexeme} {lexemes : List Lexeme}

theorem Kind.Admits.isBlank_eq_false {kind : Kind} (h : kind.Admits cs) :
    ∀ c ∈ cs, isBlank c = false := by
  rw [admits_iff_spells] at h
  cases cs with
  | nil => nofun
  | cons c rest =>
    obtain ⟨hkind, hrest⟩ := h
    rw [List.forall_mem_cons]
    refine ⟨isBlank_of_ofFirst? hkind, ?_⟩
    intro d hd
    rw [← hrest] at hd
    exact isBlank_of_mem_extension hd

/-- The characters up to the end of a lexeme are not changed by dropping blanks from their end. -/
theorem StandsIn.rdropWhile_take (h : l.StandsIn cs) :
    (cs.take l.span.stop).rdropWhile isBlank = cs.take l.span.stop := by
  have hsplit : cs.take l.span.stop = cs.take l.span.start ++ l.text.toList := by
    rw [h.text_eq, Span.slice, ← List.take_add, Nat.add_sub_cancel' h.nonempty.le]
  have htext : l.text.toList ≠ [] := ((Kind.admits_iff_spells _ _).mp h.admitted).ne_nil
  rw [hsplit, List.rdropWhile_eq_self_iff]
  intro hne
  rw [List.getLast_append_of_ne_nil hne htext]
  simp [h.admitted.isBlank_eq_false _ (List.getLast_mem htext)]

/-- Behind the last lexeme there are blanks only. -/
theorem Tokenizes.isBlank_of_mem_drop (h : Tokenizes 0 cs lexemes)
    (hlast : lexemes.getLast? = some last) : ∀ c ∈ cs.drop last.span.stop, isBlank c = true := by
  intro c hc
  obtain ⟨k, hk⟩ := List.mem_iff_getElem?.mp hc
  rw [List.getElem?_drop] at hk
  refine h.blank _ c (Nat.zero_le _) hk ?_
  rintro l hl ⟨-, hstop⟩
  -- No lexeme ends behind the last one.
  obtain ⟨before, rfl⟩ := List.getLast?_eq_some_iff.mp hlast
  rcases List.mem_append.mp hl with hbefore | hself
  · have hordered := (List.pairwise_append.mp h.ordered).2.2 l hbefore last List.mem_cons_self
    have hnonempty := (h.stands last (by simp)).2.nonempty
    omega
  · obtain rfl := List.mem_singleton.mp hself
    omega

/-- The last lexeme ends where the text ends without the blanks at its end. -/
theorem Tokenizes.stop_getLast (h : Tokenizes 0 cs lexemes)
    (hlast : lexemes.getLast? = some last) :
    last.span.stop = (cs.rdropWhile isBlank).length := by
  have hstands := (h.stands last (List.mem_of_getLast? hlast)).2
  have hblank : cs.rdropWhile isBlank = (cs.take last.span.stop).rdropWhile isBlank := by
    conv_lhs => rw [← List.take_append_drop last.span.stop cs]
    rw [List.rdropWhile, List.reverse_append, List.dropWhile_append_of_pos, List.rdropWhile]
    simpa using h.isBlank_of_mem_drop hlast
  rw [hblank, hstands.rdropWhile_take, List.length_take, Nat.min_eq_left hstands.inRange]

end Lexeme

namespace Token

variable {cs : List Char} {last : Token} {tokens : List Token} {fault : Fault}

theorem TokensOf.stop_getLast (h : TokensOf cs tokens) (hlast : tokens.getLast? = some last) :
    last.span.stop = (cs.rdropWhile Lexeme.isBlank).length := by
  obtain ⟨lexemes, htokenizes, htokens⟩ := h
  have hspans : tokens.map Token.span = lexemes.map Lexeme.span := by
    rw [← List.forall₂_eq_eq_eq, List.forall₂_map_left_iff, List.forall₂_map_right_iff]
    exact (ofLexemes_eq_ok.mp htokens).flip.imp fun t l hlexeme => (eq_of_ofLexeme hlexeme).2.2
  have hspan : lexemes.getLast?.map Lexeme.span = some last.span := by
    rw [← List.getLast?_map, ← hspans, List.getLast?_map, hlast]
    rfl
  obtain ⟨l, hl, hstop⟩ := Option.map_eq_some_iff.mp hspan
  rw [← hstop]
  exact htokenizes.stop_getLast hl

end Token

/-- The text ends where a name is missing: its tokens begin a program, and the last of them is a
keyword that takes a name. -/
def MissesLastName (source : String) : Prop :=
  ∃ tokens, Token.TokensOf source.toList tokens ∧ Token.Viable tokens ∧
    Token.EndsBeforeName tokens

/-- Where the text ends without the blanks at its end. -/
def lastStop (source : String) : Nat := (source.toList.rdropWhile Lexeme.isBlank).length

section Compile

variable {source : String} {fault : Fault}

theorem compile_of_missesLastName (h : MissesLastName source) :
    compile source =
      .error ⟨.expectedIdentifier, ⟨lastStop source, lastStop source⟩, ""⟩ := by
  obtain ⟨tokens, htokens, hviable, hends⟩ := h
  obtain ⟨r, hfold⟩ := Token.viable_iff.mp hviable
  have hrecalls : r.Recalls tokens := Reader.Recalls.start.foldlM hfold
  obtain ⟨last, hlast, verb, hkind⟩ := hends
  have hwaiting := (hrecalls.awaiting last.span verb).mpr ⟨last, hlast, rfl, hkind⟩
  have hstop : last.span.stop = lastStop source := htokens.stop_getLast hlast
  obtain ⟨lexemes, htokenizes, hlex⟩ := htokens
  have hscan : Lexeme.scan source = .ok lexemes :=
    (Lexeme.scanFrom_eq_ok_iff List.length_nil).mpr htokenizes
  simp only [compile, hscan, hlex, Program.ofTokens, hfold, Reader.finish, hwaiting, Span.after,
    hstop, Bind.bind, Except.bind]

/-- If a name is missing, either the text ends there or the token that stands in its place is what
the fault is about. -/
theorem missesLastName_or_shows (h : compile source = .error fault)
    (hkind : fault.kind = .expectedIdentifier) :
    MissesLastName source ∨ fault.span.Shows source.toList fault.text := by
  rcases compile_eq_error h with hscan | ⟨lexemes, hscan, hlex | ⟨tokens, hlex, hread⟩⟩
  · rw [(Lexeme.shows_of_scan_error hscan).1] at hkind
    cases hkind
  · obtain ⟨before, l, after, -, -, -, rfl⟩ :=
      (Token.ofLexemes_eq_error_iff (Lexeme.standsIn_of_scan hscan)).mp hlex
    cases hkind
  · have htokens := Token.tokensOf_of_scan hscan hlex
    rcases Program.ofTokens_eq_error hread with hfold | ⟨r, hfold, hfinish⟩
    · obtain ⟨before, t, after, r, rfl, -, hnext⟩ := Reader.exists_of_foldlM_error hfold
      obtain ⟨-, hspan, htext⟩ := Reader.next_eq_error hnext
      rw [hspan, htext]
      exact .inr (htokens.standsIn t (by simp)).shows_text
    · have hrecalls : r.Recalls tokens := Reader.Recalls.start.foldlM hfold
      rcases hrecalls.finish hfinish with ⟨last, hlast, htakes, -⟩ | ⟨-, opening, name, -, rfl⟩
      · exact .inl ⟨tokens, htokens, Token.viable_iff.mpr ⟨r, hfold⟩, last, hlast, htakes⟩
      · cases hkind

theorem lastStop_eq_length_iff :
    lastStop source = source.length ↔
      ∀ c, source.toList.getLast? = some c → Lexeme.isBlank c = false := by
  have hbegins : source.toList.rdropWhile Lexeme.isBlank <+: source.toList :=
    List.rdropWhile_prefix _ _
  have hlength : lastStop source = source.length ↔
      source.toList.rdropWhile Lexeme.isBlank = source.toList := by
    rw [lastStop, ← String.length_toList]
    exact ⟨hbegins.eq_of_length, congrArg List.length⟩
  rw [hlength, List.rdropWhile_eq_self_iff]
  constructor
  · intro hsolid c hc
    obtain ⟨before, hbefore⟩ := List.getLast?_eq_some_iff.mp hc
    simpa [hbefore] using hsolid (by simp [hbefore])
  · intro hsolid hne
    simp [hsolid _ (List.getLast?_eq_some_getLast hne)]

/-- A text that ends where a name is missing has a fault without a text just behind its last token,
at the end of the text without the blanks that it ends with. This is the end of the text exactly if
it does not end with a blank. If a name is missing elsewhere, a token stands in its place, and this
token is what the fault is about. -/
theorem compile_missing_name (source : String) :
    (MissesLastName source ↔
        compile source = .error ⟨.expectedIdentifier, ⟨lastStop source, lastStop source⟩, ""⟩) ∧
      (lastStop source = source.length ↔
        ∀ c, source.toList.getLast? = some c → Lexeme.isBlank c = false) ∧
      ∀ fault, compile source = .error fault → fault.kind = .expectedIdentifier →
        ¬ MissesLastName source → fault.span.Shows source.toList fault.text := by
  refine ⟨⟨compile_of_missesLastName, ?_⟩, lastStop_eq_length_iff, ?_⟩
  · intro h
    refine (missesLastName_or_shows h rfl).resolve_right ?_
    intro hshows
    exact Nat.lt_irrefl _ hshows.nonempty
  · intro fault h hkind hnot
    exact (missesLastName_or_shows h hkind).resolve_left hnot

/-- A text that ends with a keyword, and one where another keyword stands in the place of the
name. -/
theorem compile_missing_name_call :
    (MissesLastName "1 xeq" ∧ lastStop "1 xeq" = "1 xeq".length ∧
        compile "1 xeq" = .error ⟨.expectedIdentifier, ⟨5, 5⟩, ""⟩) ∧
      compile "sto sto" = .error ⟨.expectedIdentifier, ⟨4, 7⟩, "sto"⟩ ∧
        ¬ MissesLastName "sto sto" ∧ Span.Shows ⟨4, 7⟩ "sto sto".toList "sto" := by
  have hcall : Lexeme.scan "1 xeq" = .ok [⟨.number, "1", ⟨0, 1⟩⟩, ⟨.word, "xeq", ⟨2, 5⟩⟩] := by
    decide +kernel
  have hsto : Lexeme.scan "sto sto" = .ok [⟨.word, "sto", ⟨0, 3⟩⟩, ⟨.word, "sto", ⟨4, 7⟩⟩] := by
    decide +kernel
  have hmissing : compile "1 xeq" = .error ⟨.expectedIdentifier, ⟨5, 5⟩, ""⟩ := by
    rw [compile, hcall]
    rfl
  have hrefused : compile "sto sto" = .error ⟨.expectedIdentifier, ⟨4, 7⟩, "sto"⟩ := by
    rw [compile, hsto]
    rfl
  obtain ⟨hcalls, hsolid, -⟩ := compile_missing_name "1 xeq"
  obtain ⟨hends, -, hshows⟩ := compile_missing_name "sto sto"
  have hnot : ¬ MissesLastName "sto sto" := by
    rw [hends, hrefused]
    simp
  refine ⟨⟨?_, ?_, hmissing⟩, hrefused, hnot, hshows _ hrefused rfl hnot⟩
  · exact hcalls.mpr hmissing
  · rw [hsolid]
    intro c hc
    obtain rfl : 'q' = c := Option.some.inj hc
    decide

/-- A blank behind the keyword is not part of what the fault sees: it does not stand at the end of
the text. -/
theorem missing_name_before_blank :
    MissesLastName "1 xeq " ∧ compile "1 xeq " = .error ⟨.expectedIdentifier, ⟨5, 5⟩, ""⟩ ∧
      "1 xeq ".length = 6 ∧
      ¬ ∀ (source : String) (fault : Fault), compile source = .error fault →
        fault.kind = .expectedIdentifier → MissesLastName source →
          fault.span = ⟨source.length, source.length⟩ := by
  have hscan : Lexeme.scan "1 xeq " = .ok [⟨.number, "1", ⟨0, 1⟩⟩, ⟨.word, "xeq", ⟨2, 5⟩⟩] := by
    decide +kernel
  have hmissing : compile "1 xeq " = .error ⟨.expectedIdentifier, ⟨5, 5⟩, ""⟩ := by
    rw [compile, hscan]
    rfl
  have hends : MissesLastName "1 xeq " := by
    refine ⟨_, Token.tokensOf_of_scan hscan rfl, Token.viable_iff.mpr ⟨_, rfl⟩, _, rfl, ?_⟩
    exact ⟨.call, rfl⟩
  refine ⟨hends, hmissing, by decide, ?_⟩
  intro hall
  have hspan := hall _ _ hmissing rfl hends
  revert hspan
  decide

end Compile

end Keystroke
