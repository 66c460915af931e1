import Keystroke.Proofs.Registers
import Mathlib.Data.List.Rotate

/-!
# Sequences of register commands

Registers are used through five commands: a number is pushed, popped or looked at, the ring is
turned back, or all registers are set to zero. `Command.onList` says what each command means for a
plain list, which knows neither cells nor a top.

The ring does what the list does. One command changes the list of the registers as it changes a
plain list and returns the same number, so any sequence of commands does. The ring keeps its number
of cells meanwhile, and its top stays among them.
-/

namespace Keystroke

namespace Registers

inductive Command where
  | push (n : Decimal)
  | pop
  | rollDown (n : Nat)
  | get (offset : Nat)
  | clear
  deriving DecidableEq, Repr

/-- The registers after a command, and the number that the command returns. -/
def obey (r : Registers) : Command → Registers × Option Decimal
  | .push n => (r.push n, none)
  | .pop => (r.pop.2, some r.pop.1)
  | .rollDown n => (r.rollDown n, none)
  | .get offset => (r, some (r.get offset))
  | .clear => (r.clear, none)

def obeyAll (r : Registers) : List Command → Registers × List (Option Decimal)
  | [] => (r, [])
  | c :: later =>
    let after := (r.obey c).1.obeyAll later
    (after.1, (r.obey c).2 :: after.2)

/-- What a command does to a list of numbers, the top first, and the number that it returns. -/
def Command.onList (c : Command) (ns : List Decimal) : List Decimal × Option Decimal :=
  match c with
  | .push n => (n :: ns.take (ns.length - 1), none)
  | .pop => (ns.tail ++ [.zero], ns.head?)
  | .rollDown n => (ns.rotate (ns.length - n % ns.length), none)
  | .get offset => (ns, ns[offset % ns.length]?)
  | .clear => (List.replicate ns.length .zero, none)

def Command.allOnList : List Command → List Decimal → List Decimal × List (Option Decimal)
  | [], ns => (ns, [])
  | c :: later, ns =>
    let after := allOnList later (c.onList ns).1
    (after.1, (c.onList ns).2 :: after.2)

variable (r : Registers)

section Ring

theorem index_eq (k : Nat) : r.index k = (r.top + k) % r.size := by
  simp [index]

/-- Turning the ring back moves every register down. Those at the bottom come to the top. -/
theorem get_rollDown (n k : Nat) : (r.rollDown n).get k = r.get (k + r.size - n % r.size) := by
  have hturn : n % r.size < r.size := Nat.mod_lt n r.size_pos
  have hindex : (r.rollDown n).index k = r.index (k + r.size - n % r.size) := by
    calc (r.rollDown n).index k
        = ((r.top + r.size - n % r.size) % r.size + k) % r.size := index_eq _ _
      _ = (r.top + r.size - n % r.size + k) % r.size := Nat.mod_add_mod _ _ _
      _ = (r.top + (k + r.size - n % r.size)) % r.size := by congr 1; omega
      _ = r.index (k + r.size - n % r.size) := (index_eq _ _).symm
  apply Option.some.inj
  calc some ((r.rollDown n).get k)
      = r.cells[(r.rollDown n).index k]? := ((r.rollDown n).getElem?_index k).symm
    _ = r.cells[r.index (k + r.size - n % r.size)]? := by rw [hindex]
    _ = some (r.get (k + r.size - n % r.size)) := r.getElem?_index _

/-- Every offset names an entry of the list, also those that go around the ring. -/
theorem getElem?_toList_mod (offset : Nat) :
    r.toList[offset % r.size]? = some (r.get offset) := by
  have hlt : offset % r.size < r.toList.length := by
    simpa using Nat.mod_lt offset r.size_pos
  simp [List.getElem?_eq_getElem hlt, getElem_toList]

theorem toList_rollDown (n : Nat) :
    (r.rollDown n).toList = r.toList.rotate (r.size - n % r.size) := by
  have hturn : n % r.size < r.size := Nat.mod_lt n r.size_pos
  refine List.ext_getElem (by simp) ?_
  intro k _ _
  have hplace : k + r.size - n % r.size = k + (r.size - n % r.size) := by omega
  simp [getElem_toList, List.getElem_rotate, get_rollDown, hplace]

theorem toList_clear : r.clear.toList = List.replicate r.size .zero := by
  have hpos : max 1 r.size = r.size := Nat.max_eq_right r.size_pos
  simp [clear, toList_zeroed, hpos]

end Ring

/-- No command adds or removes registers. -/
@[simp] theorem size_obey (c : Command) : (r.obey c).1.size = r.size := by
  cases c <;> simp [obey]

@[simp] theorem size_obeyAll (commands : List Command) :
    (r.obeyAll commands).1.size = r.size := by
  induction commands generalizing r with
  | nil => rfl
  | cons c later ih => simp [obeyAll, ih]

/-- A command does the same to the registers and to the list that shows them. -/
theorem onList_toList (c : Command) :
    c.onList r.toList = ((r.obey c).1.toList, (r.obey c).2) := by
  cases c with
  | push n => simp [obey, Command.onList, toList_push]
  | pop => simp [obey, Command.onList, toList_pop, head?_toList, fst_pop]
  | rollDown n => simp [obey, Command.onList, toList_rollDown]
  | get offset => simp [obey, Command.onList, getElem?_toList_mod]
  | clear => simp [obey, Command.onList, toList_clear]

/-- So does a sequence of commands. -/
theorem allOnList_toList (commands : List Command) :
    Command.allOnList commands r.toList =
      ((r.obeyAll commands).1.toList, (r.obeyAll commands).2) := by
  induction commands generalizing r with
  | nil => rfl
  | cons c later ih => simp [Command.allOnList, obeyAll, onList_toList, ih]

section Laws

/-- A number that is popped can be put back. -/
theorem toList_push_pop : (r.pop.2.push r.pop.1).toList = r.toList := by
  obtain ⟨x, rest, hlist⟩ : ∃ x rest, r.toList = x :: rest :=
    List.exists_cons_of_length_pos (by simpa using r.size_pos)
  have hx : r.pop.1 = x := by
    have hhead := r.head?_toList
    simp only [hlist, List.head?_cons, Option.some.injEq] at hhead
    exact r.fst_pop.trans hhead.symm
  have hlength : r.size - 1 = rest.length := by
    simp [← r.length_toList, hlist]
  simp [toList_push, toList_pop, hx, hlist, hlength]

theorem fst_pop_push (n : Decimal) : (r.push n).pop.1 = n := by
  have hhead := (r.push n).head?_toList
  simp only [toList_push, List.head?_cons, Option.some.injEq] at hhead
  exact (fst_pop _).trans hhead.symm

/-- A number that is pushed and popped costs the register at the bottom. -/
theorem toList_pop_push (n : Decimal) :
    (r.push n).pop.2.toList = r.toList.set (r.size - 1) .zero := by
  have hpos := r.size_pos
  have hlast : r.size - 1 < r.toList.length := by
    rw [length_toList]
    omega
  have hnothing : r.toList.drop (r.size - 1 + 1) = [] :=
    List.drop_eq_nil_of_le (by rw [length_toList]; omega)
  rw [List.set_eq_take_append_cons_drop, if_pos hlast, hnothing]
  simp [toList_pop, toList_push]

/-- Numbers that are pushed one after the other stand in front of what was there, the latest
first, as far as there are registers for them. -/
theorem toList_foldl_push (ns : List Decimal) :
    (ns.foldl push r).toList = (ns.reverse ++ r.toList).take r.size := by
  induction ns generalizing r with
  | nil => exact (List.take_of_length_le r.length_toList.le).symm
  | cons n ns ih =>
    have hpos := r.size_pos
    have hpush : (r.push n).toList = (n :: r.toList).take r.size := by
      simp [toList_push, List.take_cons hpos]
    simp only [List.foldl_cons, ih, size_push, hpush, List.reverse_cons, List.append_assoc,
      List.singleton_append]
    simp [List.take_append, List.take_take]

end Laws

/-- A ring of registers is a plain list of `max 1 count` numbers. Whatever commands have been
given, the list that shows the registers is the one that the commands make of zeros, and they have
returned the same numbers. So each command, given next, does to this list what it does to a plain
list. Numbers can be popped and put back, pushing and popping clears the last entry only, and as
many numbers as there are registers push all others out. -/
theorem obeyAll_refines_list (count : Nat) (commands : List Command) :
    let size := max 1 count
    let r := ((zeroed count).obeyAll commands).1
    let shown := r.toList
    (r.cells.size = size ∧ r.top < size ∧ shown.length = size) ∧
      Command.allOnList commands (List.replicate size .zero) =
        (shown, ((zeroed count).obeyAll commands).2) ∧
      ((zeroed count).toList = List.replicate size .zero ∧
        r.clear.toList = List.replicate size .zero ∧
        (∀ n, (r.push n).toList = n :: shown.take (size - 1)) ∧
        (shown.head? = some r.pop.1 ∧ r.pop.2.toList = shown.tail ++ [.zero]) ∧
        (∀ n i, i < size →
          (r.rollDown n).toList[i]? = shown[(i + size - n % size) % size]?) ∧
        ∀ offset, shown[offset % size]? = some (r.get offset)) ∧
      (r.pop.2.push r.pop.1).toList = shown ∧
      (∀ n, (r.push n).pop.1 = n ∧ (r.push n).pop.2.toList = shown.set (size - 1) .zero) ∧
      ∀ ns : List Decimal, size ≤ ns.length →
        (ns.foldl push r).toList = ns.reverse.take size := by
  intro size r shown
  have hsize : r.size = size := by simp [r, size]
  refine ⟨⟨hsize, hsize ▸ r.top_lt, by simp [shown, hsize]⟩, ?_, ⟨toList_zeroed count, ?_, ?_,
    ⟨?_, r.toList_pop⟩, ?_, ?_⟩, r.toList_push_pop, ?_, ?_⟩
  · rw [← toList_zeroed count]
    exact allOnList_toList _ _
  · exact hsize ▸ r.toList_clear
  · intro n
    exact hsize ▸ r.toList_push n
  · exact r.head?_toList.trans (congrArg some r.fst_pop.symm)
  · intro n i hi
    have hturn : n % size < size := Nat.mod_lt n (hsize ▸ r.size_pos)
    have hrolled : (r.rollDown n).toList[i]? = some ((r.rollDown n).get i) := by
      have hentry := (r.rollDown n).getElem?_toList_mod i
      rwa [size_rollDown, hsize, Nat.mod_eq_of_lt hi] at hentry
    have hshown := r.getElem?_toList_mod (i + size - n % size)
    rw [hsize] at hshown
    rw [hrolled, get_rollDown, hsize]
    exact hshown.symm
  · intro offset
    exact hsize ▸ r.getElem?_toList_mod offset
  · intro n
    exact ⟨r.fst_pop_push n, hsize ▸ r.toList_pop_push n⟩
  · intro ns hns
    rw [toList_foldl_push, hsize]
    exact List.take_append_of_le_length (by simpa using hns)

/-- Three registers that have been turned by more than a whole round. The commands return the
numbers that they return on a list, and of four numbers that are pushed then, the first is lost. -/
theorem obeyAll_refines_list_turned :
    let commands : List Command := [.push .one, .rollDown 5, .pop, .get 7]
    let ns : List Decimal :=
      [⟨false, [2], []⟩, ⟨false, [3], []⟩, ⟨false, [4], []⟩, ⟨false, [5], []⟩]
    let r := ((zeroed 3).obeyAll commands).1
    ((zeroed 3).obeyAll commands).2 = [none, none, some .zero, some .one] ∧
      (0 < 3 ∧ (r.rollDown 4).toList[0]? = r.toList[2]?) ∧
      3 ≤ ns.length ∧
      (ns.foldl push r).toList = [⟨false, [5], []⟩, ⟨false, [4], []⟩, ⟨false, [3], []⟩] := by
  intro commands ns r
  obtain ⟨-, hcommands, ⟨-, -, -, -, hroll, -⟩, -, -, hpushed⟩ := obeyAll_refines_list 3 commands
  have hreturned : (Command.allOnList commands (List.replicate 3 .zero)).2 =
      [none, none, some .zero, some .one] := by decide
  exact ⟨(congrArg Prod.snd hcommands).symm.trans hreturned, ⟨by decide, hroll 4 0 (by decide)⟩,
    by decide, hpushed ns (by decide)⟩

end Registers

end Keystroke
