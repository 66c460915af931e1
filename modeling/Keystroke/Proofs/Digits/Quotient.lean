import Keystroke.Proofs.Digits.Value

/-!
# Quotients of digit strings

Long division brings down one place after the other. What is left over is always below the
divisor, so with the next place it holds the divisor at most nine times, and taking the divisor
away that often leaves the remainder. Comparing ignores leading zeros while subtracting works
place by place on whatever is written; both agree because they agree on values.
-/

namespace Keystroke

namespace Digits

variable {a b rest : Digits}

/-- Where comparing finds that `b` fits, taking it away once is exact. -/
theorem sub_of_fits (hb : WellFormed b) (hrest : WellFormed rest)
    (hfits : compare rest b ≠ .lt) :
    value b ≤ value rest ∧ WellFormed (rest.sub b) ∧
      value (rest.sub b) = value rest - value b := by
  rw [Ne, compare_eq_lt_iff hrest hb, not_lt] at hfits
  exact ⟨hfits, hrest.sub hb hfits, value_sub hrest hb hfits⟩

/-- Taking `b` away leaves room for one attempt less. -/
theorem value_sub_lt_of_fits {n : Nat} (hb : WellFormed b) (hrest : WellFormed rest)
    (hfits : compare rest b ≠ .lt) (hbound : value rest < (n + 1) * value b) :
    value (rest.sub b) < n * value b := by
  obtain ⟨hle, -, hsub⟩ := sub_of_fits hb hrest hfits
  rw [Nat.add_mul, Nat.one_mul] at hbound
  omega

/-- Counting up to nine stays within a byte. -/
theorem toNat_add_one {q : Digit} (hq : q.toNat < 9) : (q + 1).toNat = q.toNat + 1 := by
  rw [UInt8.toNat_add]
  change (q.toNat + 1) % 256 = _
  omega

theorem takeAway_of_lt (n : Nat) (q : Digit) (hless : compare rest b = .lt) :
    takeAway b n q rest = (q, rest) := by
  cases n with
  | zero => rfl
  | succ n => rw [takeAway, if_pos hless]

theorem takeAway_of_fits (n : Nat) (q : Digit) (hfits : compare rest b ≠ .lt) :
    takeAway b (n + 1) q rest = takeAway b n (q + 1) (rest.sub b) := by
  rw [takeAway, if_neg hfits]

/-- Taking `b` away as often as it fits counts the quotient and leaves the remainder, if the
quotient does not exceed the number of attempts. -/
theorem takeAway_spec {n : Nat} (q : Digit) (hb : WellFormed b) (hrest : WellFormed rest)
    (hpos : 0 < value b) (hfits : value rest < (n + 1) * value b) (hq : q.toNat + n ≤ 9) :
    (takeAway b n q rest).1.toNat = q.toNat + value rest / value b ∧
      WellFormed (takeAway b n q rest).2 ∧
      value (takeAway b n q rest).2 = value rest % value b := by
  induction n generalizing q rest with
  | zero =>
    have hlt : value rest < value b := by simpa using hfits
    rw [takeAway, Nat.div_eq_of_lt hlt, Nat.mod_eq_of_lt hlt]
    exact ⟨rfl, hrest, rfl⟩
  | succ n ih =>
    rw [takeAway]
    split
    · next hless =>
      have hlt := (compare_eq_lt_iff hrest hb).mp hless
      rw [Nat.div_eq_of_lt hlt, Nat.mod_eq_of_lt hlt]
      exact ⟨rfl, hrest, rfl⟩
    · next hless =>
      obtain ⟨hle, hwell, hsub⟩ := sub_of_fits hb hrest hless
      have hnext := toNat_add_one (q := q) (by omega)
      have hbound := value_sub_lt_of_fits hb hrest hless hfits
      obtain ⟨hcount, hwf, hleft⟩ := ih (q + 1) hwell hbound (by omega)
      rw [hcount, hleft, hnext, hsub, Nat.div_eq_sub_div hpos hle, Nat.mod_eq_sub_mod hle]
      exact ⟨by omega, hwf, rfl⟩

theorem value_concat (a : Digits) (d : Digit) : value (a ++ [d]) = 10 * value a + d.toNat := by
  rw [value_append, value_cons]
  simp only [List.length_singleton, List.length_nil, value_nil, pow_one, pow_zero]
  omega

/-- Bringing down one more place keeps the remainder small enough for one digit. -/
theorem value_bring_down_lt {d : Digit} (hd : d.toNat ≤ 9) (hlt : value rest < value b) :
    value (rest ++ [d]) < (9 + 1) * value b := by
  rw [value_concat]
  omega

/-- One place of a long division gets a digit, and what is left over is below the divisor again. -/
theorem takeAway_place {d : Digit} (hb : WellFormed b) (hrest : WellFormed rest)
    (hd : d.toNat ≤ 9) (hlt : value rest < value b) :
    (takeAway b 9 0 (rest ++ [d])).1.toNat = value (rest ++ [d]) / value b ∧
      (takeAway b 9 0 (rest ++ [d])).1.toNat ≤ 9 ∧
      WellFormed (takeAway b 9 0 (rest ++ [d])).2 ∧
      value (takeAway b 9 0 (rest ++ [d])).2 = value (rest ++ [d]) % value b ∧
      value (takeAway b 9 0 (rest ++ [d])).2 < value b := by
  have hpos : 0 < value b := Nat.zero_lt_of_lt hlt
  have hdown : WellFormed (rest ++ [d]) := by simp [hrest, hd]
  have hbound := value_bring_down_lt hd hlt
  obtain ⟨hcount, hwf, hleft⟩ := takeAway_spec 0 hb hdown hpos hbound (by decide)
  rw [UInt8.toNat_zero, Nat.zero_add] at hcount
  refine ⟨hcount, ?_, hwf, hleft, hleft ▸ Nat.mod_lt _ hpos⟩
  rw [hcount]
  exact Nat.lt_succ_iff.mp (Nat.div_lt_of_lt_mul (Nat.mul_comm _ _ ▸ hbound))

theorem divFrom_cons (b rest : Digits) (d : Digit) (a : Digits) :
    divFrom b rest (d :: a) =
      (takeAway b 9 0 (rest ++ [d])).1 :: divFrom b (takeAway b 9 0 (rest ++ [d])).2 a := rfl

/-- Dividing in two stages: the remainder of the leading places goes on with the other ones. -/
theorem add_div_eq_of_split (leading low unit divisor : Nat) (hpos : 0 < divisor) :
    (leading * unit + low) / divisor =
      leading / divisor * unit + (leading % divisor * unit + low) / divisor := by
  have hsplit : leading * unit + low =
      leading % divisor * unit + low + leading / divisor * unit * divisor := by
    calc leading * unit + low
        = (leading % divisor + divisor * (leading / divisor)) * unit + low := by
          rw [Nat.mod_add_div]
      _ = leading % divisor * unit + low + leading / divisor * unit * divisor := by ring
  rw [hsplit, Nat.add_mul_div_right _ _ hpos, Nat.add_comm]

/-- The places of a quotient, where `rest` is left over from the places before. -/
theorem divFrom_spec (hb : WellFormed b) (hrest : WellFormed rest) (ha : WellFormed a)
    (hlt : value rest < value b) :
    WellFormed (divFrom b rest a) ∧
      value (divFrom b rest a) = (value rest * 10 ^ a.length + value a) / value b := by
  induction a generalizing rest with
  | nil =>
    simp only [divFrom, wellFormed_nil, value_nil, true_and]
    rw [List.length_nil, pow_zero, Nat.mul_one, Nat.add_zero, Nat.div_eq_of_lt hlt]
  | cons d a ih =>
    obtain ⟨hd, ha⟩ := wellFormed_cons.mp ha
    have hpos : 0 < value b := Nat.zero_lt_of_lt hlt
    obtain ⟨hcount, hdigit, hwf, hleft, hless⟩ := takeAway_place hb hrest hd hlt
    obtain ⟨hplaces, hvalue⟩ := ih hwf ha hless
    rw [divFrom_cons, wellFormed_cons, value_cons, length_divFrom, hvalue]
    refine ⟨⟨hdigit, hplaces⟩, ?_⟩
    rw [hcount, hleft, ← add_div_eq_of_split _ _ _ _ hpos, value_concat, value_cons]
    simp only [List.length_cons, pow_succ]
    ring_nf

theorem WellFormed.div (ha : WellFormed a) (hb : WellFormed b) (hpos : 0 < value b) :
    WellFormed (a.div b) :=
  (divFrom_spec hb.significant wellFormed_nil ha (by simpa using hpos)).1

/-- Long division computes the quotient without its fraction. -/
theorem value_div (ha : WellFormed a) (hb : WellFormed b) (hpos : 0 < value b) :
    value (a.div b) = value a / value b := by
  have hspec := divFrom_spec hb.significant wellFormed_nil ha (by simpa using hpos)
  simpa [Digits.div] using hspec.2

end Digits

end Keystroke
