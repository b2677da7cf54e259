import Mathlib.Data.List.Induction
import Mathlib.Data.Nat.ModEq
import Mathlib.Logic.Function.Basic

/-! A closed tape under a head that moves one cell with every value it writes.

The tape has `size` cells and its end is joined to its beginning, so a long run
of values goes over the same cells again and the later ones stay.
-/

set_option autoImplicit false

namespace SzOS.Semantics

structure Tape (V : Type*) where
  cells : Nat → V
  head : Nat

namespace Tape

variable {V : Type*} {size : Nat} {tape : Tape V}

def put (size : Nat) (tape : Tape V) (value : V) : Tape V where
  cells := Function.update tape.cells tape.head value
  head := (tape.head + 1) % size

def puts (size : Nat) (tape : Tape V) (values : List V) : Tape V := values.foldl (put size) tape

theorem puts_snoc (values : List V) (value : V) :
    puts size tape (values ++ [value]) = (puts size tape values).put size value :=
  List.foldl_append

theorem head_puts (inside : tape.head < size) (values : List V) :
    (puts size tape values).head = (tape.head + values.length) % size := by
  induction values using List.reverseRecOn with
  | nil => exact (Nat.mod_eq_of_lt inside).symm
  | append_singleton values value ih =>
    rw [puts_snoc, put, ih, Nat.mod_add_mod, List.length_append]
    rfl

theorem cells_puts_snoc (inside : tape.head < size) (values : List V) (value : V) :
    (puts size tape (values ++ [value])).cells =
      Function.update (puts size tape values).cells ((tape.head + values.length) % size) value := by
  rw [puts_snoc, put, head_puts inside]

/-- Offsets that agree up to the size are the same cell. -/
theorem offset_iff (head i j : Nat) : (head + i) % size = (head + j) % size ↔ i % size = j % size :=
  ⟨fun same => Nat.ModEq.add_left_cancel' head same, fun same => Nat.ModEq.add_left head same⟩

theorem cells_puts_elsewhere (inside : tape.head < size) {values : List V} {cell : Nat}
    (missed : ∀ j < values.length, (tape.head + j) % size ≠ cell) :
    (puts size tape values).cells cell = tape.cells cell := by
  induction values using List.reverseRecOn with
  | nil => rfl
  | append_singleton values value ih =>
    rw [List.length_append, List.length_singleton] at missed
    rw [cells_puts_snoc inside, Function.update_of_ne (missed _ (Nat.lt_succ_self _)).symm]
    exact ih fun j less => missed j (Nat.lt_succ_of_lt less)

/-- A cell holds the last of the values that fell on it. -/
theorem cells_puts (inside : tape.head < size) {values : List V} {j : Nat} (bound : j < values.length)
    (last : ∀ m, j < m → m < values.length → m % size ≠ j % size) :
    (puts size tape values).cells ((tape.head + j) % size) = values[j] := by
  induction values using List.reverseRecOn with
  | nil => exact absurd bound (Nat.not_lt_zero j)
  | append_singleton values value ih =>
    rw [List.length_append, List.length_singleton] at bound last
    rw [cells_puts_snoc inside]
    by_cases newest : j = values.length
    · subst newest
      rw [Function.update_self, List.getElem_concat_length rfl]
    · have earlier : j < values.length := by omega
      have apart := last values.length earlier (Nat.lt_succ_self _)
      rw [Function.update_of_ne fun same => apart ((offset_iff tape.head j _).mp same).symm,
        List.getElem_append_left earlier]
      exact ih earlier fun m above less => last m above (Nat.lt_succ_of_lt less)

end Tape

end SzOS.Semantics
