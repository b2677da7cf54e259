import Mathlib.Logic.Function.Basic
import Mathlib.Tactic.TypeStar

/-! A window of fixed height over an endless page.

Line n of the page belongs to row n % height. Lines come one after another and
only the last one is written on, so each place of a row holds the newest entry
that a line of the row has there.
-/

set_option autoImplicit false

namespace SzOS.Semantics.Window

variable {V : Type*}

/-- What the first `lines` lines show in one place of a row; `place` is that place on each line. -/
def newest (height : Nat) (place : Nat → Option V) (row : Nat) : Nat → Option V
  | 0 => none
  | lines + 1 =>
    if lines % height = row then (place lines).or (newest height place row lines)
    else newest height place row lines

variable {height row lines : Nat} {place other : Nat → Option V}

theorem newest_succ (height : Nat) (place : Nat → Option V) (row lines : Nat) :
    newest height place row (lines + 1) =
      if lines % height = row then (place lines).or (newest height place row lines)
      else newest height place row lines := rfl

theorem newest_congr (same : ∀ line < lines, place line = other line) :
    newest height place row lines = newest height other row lines := by
  induction lines with
  | zero => rfl
  | succ lines ih =>
    rw [newest_succ, newest_succ, same lines (Nat.lt_succ_self lines), ih fun line less => same line (by omega)]

/-- A line that has nothing in the place shows through. -/
theorem newest_unwritten (unwritten : place lines = none) :
    newest height place row (lines + 1) = newest height place row lines := by
  rw [newest_succ, unwritten, Option.none_or, ite_self]

theorem newest_write (entry : V) :
    newest height (Function.update place lines (some entry)) row (lines + 1) =
      if lines % height = row then some entry else newest height place row (lines + 1) := by
  have older : newest height (Function.update place lines (some entry)) row lines =
      newest height place row lines :=
    newest_congr fun line less => Function.update_of_ne (Nat.ne_of_lt less) _ _
  rw [newest_succ, newest_succ, Function.update_self, older]
  split
  next => rfl
  next => rfl

/-- An entry shows when no later line of its row has one in the place. -/
theorem newest_of_last {entry : V} {line : Nat} (below : line < lines)
    (written : place line = some entry)
    (last : ∀ later, line < later → later < lines → later % height = line % height → place later = none) :
    newest height place (line % height) lines = some entry := by
  induction lines with
  | zero => omega
  | succ lines ih =>
    by_cases top : line = lines
    · rw [newest_succ, if_pos (by rw [top]), ← top, written, Option.some_or]
    · have shown := ih (by omega) fun later above less => last later above (by omega)
      rw [newest_succ]
      split
      next same => rw [last lines (by omega) (Nat.lt_succ_self lines) same, Option.none_or, shown]
      next => exact shown

/-- Up to the height of the window each row has one line at most. -/
theorem newest_first (few : lines ≤ height) :
    newest height place row lines = if row < lines then place row else none := by
  induction lines with
  | zero => rfl
  | succ lines ih =>
    rw [newest_succ, Nat.mod_eq_of_lt few, ih (by omega)]
    by_cases last : lines = row
    · rw [if_pos last, if_neg (by omega), if_pos (by omega), last, Option.or_none]
    · rw [if_neg last]
      have same : row < lines ↔ row < lines + 1 := by omega
      simp only [same]

end SzOS.Semantics.Window
