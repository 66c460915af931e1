import Keystroke.Proofs.Digits.Quotient
import Mathlib.Logic.Function.Iterate

/-!
# Long division, moment by moment

Long division on paper: bring down the next place, take the divisor away while it fits, write down
how often that was, and go on with what is left. Nothing here limits how often the divisor is taken
away in one place. That it is at most nine times follows from what is left being below the divisor
whenever a place is brought down, and so does that the division comes to an end.

At every moment the places read so far are made up of what has been taken away and of what is left.
In the end the places that were written are those of `div`, which stops after nine attempts.
-/

namespace Keystroke

namespace Digits

/-- A moment of a long division. The quotient so far, what is left over, and the places that have
not been brought down. -/
inductive LongDivision where
  /-- Between two places. -/
  | between (quotient rest places : Digits)
  /-- A place has been brought down, and the divisor was taken away `taken` times since then. -/
  | within (quotient rest : Digits) (taken : Nat) (places : Digits)
  deriving DecidableEq, Repr

namespace LongDivision

/-- What comes next in a division by `b`. At the end nothing changes any more. -/
def next (b : Digits) : LongDivision → LongDivision
  | between quotient rest [] => between quotient rest []
  | between quotient rest (d :: places) => within quotient (rest ++ [d]) 0 places
  | within quotient rest taken places =>
    if compare rest b = .lt then between (quotient ++ [taken.toUInt8]) rest places
    else within quotient (rest.sub b) (taken + 1) places

/-- The division of `a` by `b` after `n` changes. Zeros in front of the divisor are left out. -/
def moment (a b : Digits) (n : Nat) : LongDivision :=
  (next b.significant)^[n] (between [] [] a)

variable {a b read quotient rest places : Digits} {taken : Nat} {d : Digit} {s : LongDivision}

/-- Between two places: what is left of the places `read` is below the divisor. -/
structure Between (b read quotient rest : Digits) : Prop where
  length_eq : quotient.length = read.length
  quotient_digits : WellFormed quotient
  rest_digits : WellFormed rest
  value_read : value read = value quotient * value b + value rest
  rest_lt : value rest < value b

/-- Within the last of the places `read`: the divisor was taken away `taken` times, and what is left
is less than what makes ten of them. -/
structure Within (b read quotient rest : Digits) (taken : Nat) : Prop where
  length_eq : quotient.length + 1 = read.length
  quotient_digits : WellFormed quotient
  rest_digits : WellFormed rest
  value_read : value read = (10 * value quotient + taken) * value b + value rest
  rest_lt : taken * value b + value rest < 10 * value b

/-- The loop invariant of the division of `a` by `b`. -/
def Keeps (a b : Digits) : LongDivision → Prop
  | between quotient rest places => ∃ read, read ++ places = a ∧ Between b read quotient rest
  | within quotient rest taken places =>
    ∃ read, read ++ places = a ∧ Within b read quotient rest taken

section Invariant

theorem Between.bringDown (h : Between b read quotient rest) (hd : d.toNat ≤ 9) :
    Within b (read ++ [d]) quotient (rest ++ [d]) 0 where
  length_eq := by simp [h.length_eq]
  quotient_digits := h.quotient_digits
  rest_digits := by simp [h.rest_digits, hd]
  value_read := by
    rw [value_concat, value_concat, h.value_read]
    ring
  rest_lt := by simpa using value_bring_down_lt hd h.rest_lt

theorem Within.taken_le (h : Within b read quotient rest taken) : taken ≤ 9 := by
  have hlt : taken * value b < 10 * value b := by
    have := h.rest_lt
    omega
  exact Nat.lt_succ_iff.mp (Nat.lt_of_mul_lt_mul_right hlt)

/-- Where the divisor fits once more, it has not been taken away nine times. -/
theorem Within.taken_lt (h : Within b read quotient rest taken) (hle : value b ≤ value rest) :
    taken < 9 := by
  have hlt : (taken + 1) * value b < 10 * value b := by
    have := h.rest_lt
    rw [Nat.succ_mul]
    omega
  exact Nat.succ_lt_succ_iff.mp (Nat.lt_of_mul_lt_mul_right hlt)

theorem Within.again (h : Within b read quotient rest taken) (hb : WellFormed b)
    (hfits : compare rest b ≠ .lt) : Within b read quotient (rest.sub b) (taken + 1) := by
  obtain ⟨hle, hwell, hsub⟩ := sub_of_fits hb h.rest_digits hfits
  have hvalue := h.value_read
  have hlt := h.rest_lt
  refine ⟨h.length_eq, h.quotient_digits, hwell, ?_, ?_⟩
  · rw [hsub, hvalue, ← Nat.add_assoc, Nat.succ_mul (10 * value quotient + taken)]
    omega
  · rw [hsub, Nat.succ_mul]
    omega

theorem Within.write (h : Within b read quotient rest taken) (hb : WellFormed b)
    (hless : compare rest b = .lt) :
    Between b read (quotient ++ [taken.toUInt8]) rest := by
  have hdigit : taken.toUInt8.toNat = taken := by
    have := h.taken_le
    rw [Nat.toUInt8, UInt8.toNat_ofNat']
    omega
  refine ⟨by simp [h.length_eq], ?_, h.rest_digits, ?_, ?_⟩
  · simp [h.quotient_digits, hdigit, h.taken_le]
  · rw [value_concat, hdigit, h.value_read]
  · exact (compare_eq_lt_iff h.rest_digits hb).mp hless

theorem between_start (hpos : 0 < value b) : Between b [] [] [] :=
  ⟨rfl, wellFormed_nil, wellFormed_nil, by simp, hpos⟩

/-- Every change keeps the invariant. -/
theorem Keeps.next (h : s.Keeps a b) (ha : WellFormed a) (hb : WellFormed b) :
    (s.next b).Keeps a b := by
  fun_cases LongDivision.next b s with
  | case1 quotient rest => exact h
  | case2 quotient rest d places =>
    obtain ⟨read, rfl, hread⟩ := h
    obtain ⟨hd, -⟩ := wellFormed_cons.mp (wellFormed_append.mp ha).2
    exact ⟨read ++ [d], by simp, hread.bringDown hd⟩
  | case3 quotient rest taken places hless =>
    obtain ⟨read, hsplit, hread⟩ := h
    exact ⟨read, hsplit, hread.write hb hless⟩
  | case4 quotient rest taken places hfits =>
    obtain ⟨read, hsplit, hread⟩ := h
    exact ⟨read, hsplit, hread.again hb hfits⟩

theorem keeps_moment (ha : WellFormed a) (hb : WellFormed b) (hpos : 0 < value b) (n : Nat) :
    (moment a b n).Keeps a b.significant := by
  induction n with
  | zero => exact ⟨[], rfl, between_start (by simpa using hpos)⟩
  | succ n ih =>
    rw [moment, Function.iterate_succ_apply']
    exact ih.next ha hb.significant

end Invariant

section Progress

/-- The place that was brought down gets its digit after finitely many changes. The attempts that
are left of nine are enough to come to the same digit and rest. -/
theorem Within.exists_between (h : Within b read quotient rest taken) (hb : WellFormed b)
    (places : Digits) :
    ∃ k ≤ 10 - taken, ∃ digit left, takeAway b (9 - taken) taken.toUInt8 rest = (digit, left) ∧
      (next b)^[k] (within quotient rest taken places) =
        between (quotient ++ [digit]) left places ∧
      Between b read (quotient ++ [digit]) left := by
  -- The attempts that are left decrease, and while the divisor fits there are some left.
  induction hattempts : 9 - taken using Nat.strong_induction_on generalizing taken rest with
  | _ attempts ih =>
    by_cases hless : compare rest b = .lt
    · have htaken := h.taken_le
      refine ⟨1, by omega, _, _, takeAway_of_lt _ _ hless, ?_, h.write hb hless⟩
      rw [Function.iterate_one, next, if_pos hless]
    · have htaken : taken < 9 := h.taken_lt (sub_of_fits hb h.rest_digits hless).1
      obtain ⟨k, hk, digit, left, haway, hiterate, hleft⟩ :=
        ih (9 - (taken + 1)) (by omega) (h.again hb hless) rfl
      refine ⟨k + 1, by omega, digit, left, ?_, ?_, hleft⟩
      · have hsucc : attempts = 9 - (taken + 1) + 1 := by omega
        rw [hsucc, takeAway_of_fits _ _ hless, ← haway]
        simp
      · rw [Function.iterate_succ_apply, next, if_neg hless, hiterate]

/-- After the first `i` places that are still to be brought down, their digits are written. -/
theorem Between.exists_between (h : Between b read quotient rest) (hb : WellFormed b)
    (hplaces : WellFormed places) {i : Nat} (hi : i ≤ places.length) :
    ∃ n ≤ 11 * i, ∃ left, (next b)^[n] (between quotient rest places) =
      between (quotient ++ (divFrom b rest places).take i) left (places.drop i) := by
  induction i generalizing read quotient rest places with
  | zero => exact ⟨0, Nat.le_refl _, rest, by simp⟩
  | succ i ih =>
    cases places with
    | nil => simp at hi
    | cons d places =>
      obtain ⟨hd, hplaces⟩ := wellFormed_cons.mp hplaces
      obtain ⟨k, hk, digit, left, haway, hiterate, hleft⟩ :=
        (h.bringDown hd).exists_between hb places
      obtain ⟨n, hn, last, hrun⟩ := ih hleft hplaces (by simpa using hi)
      refine ⟨n + (k + 1), by omega, last, ?_⟩
      have hdigit : divFrom b rest (d :: places) = digit :: divFrom b left places := by
        rw [divFrom_cons, show takeAway b 9 0 (rest ++ [d]) = (digit, left) from haway]
      rw [Function.iterate_add_apply, Function.iterate_succ_apply, next, hiterate, hrun, hdigit]
      simp

end Progress

end LongDivision

theorem value_pos_of_exists {b : Digits} (h : ∃ d ∈ b, d ≠ 0) : 0 < value b := by
  obtain ⟨d, hd, hne⟩ := h
  refine Nat.pos_of_ne_zero fun hzero => hne ?_
  have hzeros := (isZero_iff_value_eq_zero b).mpr hzero
  simpa using List.all_eq_true.mp hzeros d hd

open LongDivision in
/-- Long division of digits by digits that are not all zero. After `k` places have been dealt with,
the first `k` places of the quotient are written, and each place took at most eleven changes; so
the division ends with the places of `div`, which are as many as those of the dividend, and stand
for the quotient without its fraction. Between two places what is left over is below the divisor,
and together with what was taken away it makes up the places that were read. In each place the
divisor is taken away at most nine times, and only from what is not below it. -/
theorem div_place_by_place (a b : Digits) (ha : WellFormed a) (hb : WellFormed b)
    (hnonzero : ∃ d ∈ b, d ≠ 0) :
    (∀ k ≤ a.length, ∃ n ≤ 11 * k, ∃ rest,
        moment a b n = .between ((a.div b).take k) rest (a.drop k)) ∧
      (a.div b).length = a.length ∧ (∀ d ∈ a.div b, d ≤ 9) ∧
      value (a.div b) = value a / value b ∧
      (∀ n quotient rest places, moment a b n = .between quotient rest places →
        value rest < value b ∧
        a.drop quotient.length = places ∧
        value (a.take quotient.length) = value quotient * value b + value rest) ∧
      ∀ n quotient rest taken places, moment a b n = .within quotient rest taken places →
        taken ≤ 9 ∧
        (compare rest b.significant ≠ .lt →
          taken < 9 ∧ value b ≤ value rest ∧
          value (rest.sub b.significant) = value rest - value b) := by
  have hpos : 0 < value b := value_pos_of_exists hnonzero
  have hkeeps := keeps_moment ha hb hpos
  refine ⟨?_, length_div a b, ha.div hb hpos, value_div ha hb hpos, ?_, ?_⟩
  · intro k hk
    have hstart : Between b.significant [] [] [] := between_start (by simpa using hpos)
    exact hstart.exists_between hb.significant ha hk
  · intro n quotient rest places hmoment
    have hkept := hkeeps n
    rw [hmoment] at hkept
    obtain ⟨read, rfl, hread⟩ := hkept
    have hlt := hread.rest_lt
    have hvalue := hread.value_read
    rw [value_significant] at hlt hvalue
    rw [hread.length_eq, List.drop_left, List.take_left]
    exact ⟨hlt, rfl, hvalue⟩
  · intro n quotient rest taken places hmoment
    have hkept := hkeeps n
    rw [hmoment] at hkept
    obtain ⟨read, -, hread⟩ := hkept
    refine ⟨hread.taken_le, fun hfits => ?_⟩
    obtain ⟨hle, -, hsub⟩ := sub_of_fits hb.significant hread.rest_digits hfits
    have htaken := hread.taken_lt hle
    rw [value_significant] at hle hsub
    exact ⟨htaken, hle, hsub⟩

open LongDivision in
/-- A divisor that is written with zeros in front, so that what it is taken away from is shorter in
the first place. In the last place that is longer than the divisor without its zeros, and starts
with a zero itself. -/
theorem div_place_by_place_padded :
    let a : Digits := [8, 1, 4]
    let b : Digits := [0, 0, 0, 7]
    WellFormed a ∧ WellFormed b ∧ (∃ d ∈ b, d ≠ 0) ∧
      a.div b = [1, 1, 6] ∧ value [1, 1, 6] = value a / value b ∧
      moment a b 1 = .within [] [8] 0 [1, 4] ∧ value b ≤ value [8] ∧
      moment a b 7 = .within [1, 1] [0, 4, 4] 0 [] ∧ value b ≤ value [0, 4, 4] ∧
      moment a b 13 = .within [1, 1] [0, 0, 2] 6 [] ∧
      moment a b 14 = .between [1, 1, 6] [0, 0, 2] [] ∧
      value [0, 0, 2] < value b ∧ value a = value [1, 1, 6] * value b + value [0, 0, 2] := by
  intro a b
  have ha : WellFormed a := by decide
  have hb : WellFormed b := by decide
  have hnonzero : ∃ d ∈ b, d ≠ 0 := by decide
  have hdiv : a.div b = [1, 1, 6] := by decide
  have hfirst : moment a b 1 = .within [] [8] 0 [1, 4] := by decide
  have hlast : moment a b 7 = .within [1, 1] [0, 4, 4] 0 [] := by decide
  have hend : moment a b 14 = .between [1, 1, 6] [0, 0, 2] [] := by decide
  obtain ⟨-, -, -, hvalue, hbetween, hwithin⟩ := div_place_by_place a b ha hb hnonzero
  obtain ⟨hlt, -, hread⟩ := hbetween 14 _ _ _ hend
  obtain ⟨-, hshort, -⟩ := (hwithin 1 _ _ _ _ hfirst).2 (by decide)
  obtain ⟨-, hlong, -⟩ := (hwithin 7 _ _ _ _ hlast).2 (by decide)
  exact ⟨ha, hb, hnonzero, hdiv, hdiv ▸ hvalue, hfirst, hshort, hlast, hlong, by decide, hend, hlt,
    hread⟩

end Digits

end Keystroke
