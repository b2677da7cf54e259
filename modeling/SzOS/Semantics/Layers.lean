import Mathlib.Algebra.Group.Nat.Defs
import Mathlib.Data.List.Basic
import Mathlib.Logic.Function.Basic

/-! Stores made one after the other, read back cell by cell: the last store to a cell shows.

A drawing is a list of stores. What it shows at a cell is an option, so that drawings
stack as layers, and a rectangle scanned row by row is a layer with a formula.
-/

set_option autoImplicit false

namespace SzOS.Semantics

section Shown

variable {S K V : Type*} [DecidableEq K] (key : S → K) (value : S → V)

def storeAll (stores : List S) (memory : K → V) : K → V :=
  stores.foldl (fun memory store => Function.update memory (key store) (value store)) memory

/-- The value of the last store to a cell, if there is one. -/
def shown : List S → K → Option V
  | [], _ => none
  | store :: rest, cell =>
    (shown rest cell).or (if key store = cell then some (value store) else none)

theorem shown_nil (cell : K) : shown key value [] cell = none := rfl

theorem shown_cons (store : S) (rest : List S) (cell : K) : shown key value (store :: rest) cell =
    (shown key value rest cell).or (if key store = cell then some (value store) else none) := rfl

theorem storeAll_cell (stores : List S) (memory : K → V) (cell : K) :
    storeAll key value stores memory cell = (shown key value stores cell).getD (memory cell) := by
  induction stores generalizing memory with
  | nil => rfl
  | cons store rest ih =>
    rw [storeAll, List.foldl_cons]
    refine (ih _).trans ?_
    rw [shown_cons]
    cases shown key value rest cell with
    | some later => rfl
    | none =>
      by_cases here : key store = cell
      · subst here
        simp
      · simp [here, Function.update_of_ne (Ne.symm here)]

/-- The later drawing lies over the earlier one. -/
theorem shown_append (first second : List S) (cell : K) :
    shown key value (first ++ second) cell =
      (shown key value second cell).or (shown key value first cell) := by
  induction first with
  | nil => rw [List.nil_append, shown_nil, Option.or_none]
  | cons store rest ih => rw [List.cons_append, shown_cons, ih, shown_cons, Option.or_assoc]

variable {key value}

theorem shown_eq_none {stores : List S} {cell : K} (missed : ∀ store ∈ stores, key store ≠ cell) :
    shown key value stores cell = none := by
  induction stores with
  | nil => rfl
  | cons store rest ih =>
    obtain ⟨first, later⟩ := List.forall_mem_cons.mp missed
    rw [shown_cons, ih later, if_neg first]
    rfl

/-- Stores to a cell that agree on its value, where there are any. -/
theorem shown_eq_some {stores : List S} {cell : K} {v : V}
    (reached : ∃ store ∈ stores, key store = cell)
    (agree : ∀ store ∈ stores, key store = cell → value store = v) :
    shown key value stores cell = some v := by
  induction stores with
  | nil =>
    obtain ⟨_, member, _⟩ := reached
    exact absurd member List.not_mem_nil
  | cons store rest ih =>
    obtain ⟨first, later⟩ := List.forall_mem_cons.mp agree
    rw [shown_cons]
    by_cases again : ∃ store ∈ rest, key store = cell
    · rw [ih again later]
      rfl
    · have missed : ∀ store ∈ rest, key store ≠ cell := fun s member here => again ⟨s, member, here⟩
      obtain ⟨s, member, here⟩ := reached
      rcases List.mem_cons.mp member with rfl | member
      · rw [shown_eq_none missed, if_pos here, first here]
        rfl
      · exact absurd here (missed s member)

end Shown

/-! ## Rectangles -/

/-- Cells in rows of a fixed stride, of which each row is a prefix, are apart. -/
theorem rowMajor_injective {stride row row' col col' : Nat} (inside : col < stride)
    (inside' : col' < stride) (same : row * stride + col = row' * stride + col') :
    row = row' ∧ col = col' := by
  have positive : 0 < stride := Nat.zero_lt_of_lt inside
  have columns := congrArg (· % stride) same
  simp only [Nat.mul_add_mod_self_right, Nat.mod_eq_of_lt inside, Nat.mod_eq_of_lt inside'] at columns
  have rows : row * stride = row' * stride := by omega
  exact ⟨Nat.eq_of_mul_eq_mul_right positive rows, columns⟩

section Scan

variable {S K V : Type*}

/-- The lit cells of a rectangle, row by row. -/
def scan (rows cols : Nat) (lit : Nat → Nat → Bool) (store : Nat → Nat → S) : List S :=
  (List.range rows).flatMap fun row => ((List.range cols).filter (lit row)).map (store row)

theorem scan_all (rows cols : Nat) (store : Nat → Nat → S) :
    scan rows cols (fun _ _ => true) store =
      (List.range rows).flatMap fun row => (List.range cols).map (store row) := by
  simp [scan]

theorem mem_scan {rows cols : Nat} {lit : Nat → Nat → Bool} {store : Nat → Nat → S} {s : S} :
    s ∈ scan rows cols lit store ↔
      ∃ row < rows, ∃ col < cols, lit row col = true ∧ store row col = s := by
  simp only [scan, List.mem_flatMap, List.mem_map, List.mem_filter, List.mem_range]
  constructor
  · rintro ⟨row, inRow, col, ⟨inColumn, on⟩, same⟩
    exact ⟨row, inRow, col, inColumn, on, same⟩
  · rintro ⟨row, inRow, col, inColumn, on, same⟩
    exact ⟨row, inRow, col, ⟨inColumn, on⟩, same⟩

/-- A rectangle placed on a grid whose cells are apart, read at a cell of the grid. -/
theorem shown_scan [DecidableEq K] {key : S → K} {value : S → V} {cell : Nat → Nat → K} {stride : Nat}
    (apart : ∀ x < stride, ∀ x' < stride, ∀ y y', cell x y = cell x' y' → x = x' ∧ y = y')
    {rows cols left top : Nat} {lit : Nat → Nat → Bool} {store : Nat → Nat → S}
    (placed : ∀ row < rows, ∀ col < cols, key (store row col) = cell (left + col) (top + row))
    (fits : left + cols ≤ stride) {x y : Nat} (inside : x < stride) :
    shown key value (scan rows cols lit store) (cell x y) =
      if left ≤ x ∧ x < left + cols ∧ top ≤ y ∧ y < top + rows ∧ lit (y - top) (x - left) = true then
        some (value (store (y - top) (x - left))) else none := by
  -- a store reaches the cell from one place of the rectangle only
  have origin : ∀ row < rows, ∀ col < cols, key (store row col) = cell x y →
      left + col = x ∧ top + row = y := by
    intro row inRow col inColumn reached
    rw [placed row inRow col inColumn] at reached
    exact apart _ (by omega) x inside _ _ reached
  split
  next covered =>
    obtain ⟨fromLeft, toRight, fromTop, toBottom, on⟩ := covered
    have inRow : y - top < rows := by omega
    have inColumn : x - left < cols := by omega
    apply shown_eq_some
    · refine ⟨_, mem_scan.mpr ⟨y - top, inRow, x - left, inColumn, on, rfl⟩, ?_⟩
      rw [placed _ inRow _ inColumn, Nat.add_sub_cancel' fromLeft, Nat.add_sub_cancel' fromTop]
    · intro s member reached
      obtain ⟨row, inRow, col, inColumn, _, rfl⟩ := mem_scan.mp member
      obtain ⟨rfl, rfl⟩ := origin row inRow col inColumn reached
      rw [Nat.add_sub_cancel_left, Nat.add_sub_cancel_left]
  next uncovered =>
    apply shown_eq_none
    intro s member reached
    obtain ⟨row, inRow, col, inColumn, on, rfl⟩ := mem_scan.mp member
    obtain ⟨rfl, rfl⟩ := origin row inRow col inColumn reached
    apply uncovered
    rw [Nat.add_sub_cancel_left, Nat.add_sub_cancel_left]
    exact ⟨by omega, by omega, by omega, by omega, on⟩

end Scan

end SzOS.Semantics
