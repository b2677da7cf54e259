import SzOS.Kernel.TabStops
import SzOS.Semantics.Tape

/-! What `terminal_write` does with text, and what backspaces undo of it.

Row and column together are one position on the screen. Seen that way a byte
without a control function is a value put on a closed tape of 2000 cells, and
the two wraps of the coordinates are the one of the tape.
-/

set_option autoImplicit false

namespace SzOS.Kernel.Tty
open Semantics Libc

def terminalSetcolor (t : Terminal) (color : UInt8) : Terminal := { t with terminalColor := color }

/-- The states in which the functions of the terminal leave it. -/
inductive Reached : Terminal → Prop where
  | start (before : Terminal) : Reached (terminalInitialize before)
  | setcolor {t : Terminal} (reached : Reached t) (color : UInt8) : Reached (terminalSetcolor t color)
  | putentryat {t : Terminal} (reached : Reached t) (c color : UInt8) (x y : Nat) :
      Reached (terminalPutentryat t c color x y)
  | call {t t' : Terminal} (reached : Reached t) (bound : Nat) (c : Call)
      (returned : call bound t c = some t') : Reached t'

theorem Reached.inScreen {t : Terminal} (reached : Reached t) : InScreen t := by
  induction reached with
  | start before => exact initialize_inScreen before
  | setcolor _ color ih => exact ⟨ih.row, ih.column⟩
  | putentryat _ c color x y ih => exact ih.putentryat c color x y
  | call _ bound c returned ih =>
    rw [call_eq] at returned
    exact run_invariant InScreen (fun _ _ _ inside stepped => putchar_inScreen inside stepped) ih returned

/-! ## The screen as a tape -/

def cellCount : Nat := vgaHeight * vgaWidth

def position (t : Terminal) : Nat := t.terminalRow * vgaWidth + t.terminalColumn

def tape (t : Terminal) : Tape UInt16 := ⟨t.terminalBuffer.cells, position t⟩

theorem position_lt {t : Terminal} (inside : InScreen t) : position t < cellCount := by
  have row := inside.row
  have column := inside.column
  unfold vgaHeight at row
  unfold vgaWidth at column
  unfold position cellCount vgaHeight vgaWidth
  omega

/-- Both wraps at once. -/
theorem advanceColumn_position {t : Terminal} (inside : InScreen t) :
    position (advanceColumn t) = (position t + 1) % cellCount := by
  have column := inside.column
  have row := inside.row
  by_cases last : t.terminalColumn + 1 = vgaWidth
  · have next := advanceRow_row inside.home.row
    rw [advanceColumn_last last, position, next, advanceRow_column]
    unfold position cellCount vgaHeight
    unfold vgaWidth at last ⊢
    simp only
    omega
  · rw [advanceColumn_inner (by omega)]
    unfold position cellCount vgaHeight
    unfold vgaHeight at row
    unfold vgaWidth at column last ⊢
    simp only
    omega

/-- A state after bytes that only print: the same colour, and the tape after their entries. -/
structure Printed (t t' : Terminal) (w : List UInt8) : Prop where
  inside : InScreen t'
  color : t'.terminalColor = t.terminalColor
  tape : tape t' = (tape t).puts cellCount (w.map fun uc => vgaEntry uc t.terminalColor)

theorem putchar_printed (bound : Nat) {t : Terminal} (inside : InScreen t) {uc : UInt8} (plain : Plain uc) :
    ∃ t', terminalPutchar (bound + 1) t uc = some t' ∧ Printed t t' [uc] := by
  have stays := inside.putentryat uc t.terminalColor t.terminalColumn t.terminalRow
  refine ⟨_, putchar_plain bound t plain, stays.advanceColumn, by simp, ?_⟩
  unfold tape
  rw [advanceColumn_position stays]
  simp [Tape.puts, Tape.put, position]

/-- `terminal_write` puts its bytes on the tape one after the other. -/
theorem write_printed (bound : Nat) {t : Terminal} (inside : InScreen t) {w : List UInt8}
    (plain : ∀ uc ∈ w, Plain uc) :
    ∃ t', terminalWrite (bound + 1) t w = some t' ∧ Printed t t' w := by
  induction w generalizing t with
  | nil => exact ⟨t, rfl, inside, rfl, rfl⟩
  | cons uc w ih =>
    obtain ⟨here, later⟩ := List.forall_mem_cons.mp plain
    obtain ⟨next, stepped, first⟩ := putchar_printed bound inside here
    obtain ⟨t', ran, rest⟩ := ih first.inside later
    refine ⟨t', ?_, rest.inside, rest.color.trans first.color, ?_⟩
    · rw [terminalWrite, run_cons, stepped, Option.bind_some]
      exact ran
    · rw [rest.tape, first.tape, first.color]
      rfl

section Printed

variable {t t' : Terminal} {w : List UInt8} (inside : InScreen t) (printed : Printed t t' w)
include inside printed

theorem position_printed : position t' = (position t + w.length) % cellCount := by
  have head : (tape t).head < cellCount := position_lt inside
  have moved := congrArg Tape.head printed.tape
  rw [Tape.head_puts head, List.length_map] at moved
  exact moved

theorem cells_printed_elsewhere {cell : Nat} (missed : ∀ j < w.length, (position t + j) % cellCount ≠ cell) :
    t'.terminalBuffer.cells cell = t.terminalBuffer.cells cell := by
  have head : (tape t).head < cellCount := position_lt inside
  rw [show t'.terminalBuffer.cells = (tape t').cells from rfl, printed.tape, Tape.cells_puts_elsewhere head]
  · rfl
  · intro j less
    rw [List.length_map] at less
    exact missed j less

end Printed

/-- Text lies around the screen in the order of its bytes, the last of those that fall on a
cell uppermost. -/
theorem write_wraps {t : Terminal} (reached : Reached t) {w : List UInt8} (plain : ∀ uc ∈ w, Plain uc)
    (bound : Nat) :
    ∃ t', terminalWrite (bound + 1) t w = some t' ∧
      (InScreen t' ∧ position t' = (position t + w.length) % cellCount) ∧
      (∀ i j (short : j < w.length), j % cellCount = i % cellCount →
        (∀ m, j < m → m < w.length → m % cellCount ≠ i % cellCount) →
        t'.terminalBuffer.cells ((position t + i) % cellCount) = vgaEntry w[j] t.terminalColor) ∧
      ∀ cell, (∀ j < w.length, (position t + j) % cellCount ≠ cell) →
        t'.terminalBuffer.cells cell = t.terminalBuffer.cells cell := by
  have head : (tape t).head < cellCount := position_lt reached.inScreen
  obtain ⟨t', ran, printed⟩ := write_printed bound reached.inScreen plain
  have cells : t'.terminalBuffer.cells =
      ((tape t).puts cellCount (w.map fun uc => vgaEntry uc t.terminalColor)).cells :=
    congrArg Tape.cells printed.tape
  refine ⟨t', ran, ⟨printed.inside, position_printed reached.inScreen printed⟩, ?_, ?_⟩
  · intro i j short same last
    have here : (position t + i) % cellCount = ((tape t).head + j) % cellCount :=
      (Tape.offset_iff _ _ _).mpr same.symm
    rw [cells, here, Tape.cells_puts head (by rwa [List.length_map]), List.getElem_map]
    intro m above less
    rw [List.length_map] at less
    rw [same]
    exact last m above less
  · intro cell missed
    exact cells_printed_elsewhere reached.inScreen printed missed

/-- One more byte than the screen has cells: the last one lies over the first. -/
theorem write_wraps_once :
    ∃ t', terminalWrite 1 (terminalInitialize powerOn) (List.replicate 2001 0x41) = some t' ∧
      position t' = 1 := by
  have plain : ∀ uc ∈ List.replicate 2001 (0x41 : UInt8), Plain uc := fun uc member => by
    rw [List.eq_of_mem_replicate member]
    decide
  obtain ⟨t', ran, ⟨_, moved⟩, _⟩ := write_wraps (.start powerOn) plain 0
  have home : position (terminalInitialize powerOn) = 0 := by
    rw [position, (initialize_cursor powerOn).1, (initialize_cursor powerOn).2]
    rfl
  refine ⟨t', ran, ?_⟩
  rw [moved, home, List.length_replicate]
  rfl

/-! ## Backspaces -/

/-- A state after `n` backspaces in one row. -/
structure Erased (n : Nat) (t t' : Terminal) : Prop where
  row : t'.terminalRow = t.terminalRow
  column : t'.terminalColumn + n = t.terminalColumn
  color : t'.terminalColor = t.terminalColor
  blank : ∀ k < n, t'.terminalBuffer.cells (position t' + k) = vgaEntry space t.terminalColor
  kept : ∀ cell, cell < position t' ∨ position t ≤ cell →
    t'.terminalBuffer.cells cell = t.terminalBuffer.cells cell

theorem backspace_erases (bound : Nat) {t : Terminal} (left : 0 < t.terminalColumn) :
    ∃ t', terminalPutchar (bound + 1) t backspace = some t' ∧ Erased 1 t t' := by
  refine ⟨_, putchar_backspace bound t, ?_⟩
  rw [if_pos left]
  refine ⟨rfl, Nat.sub_add_cancel left, rfl, ?_, ?_⟩
  · intro k only
    have here : k = 0 := by omega
    subst here
    exact Function.update_self ..
  · intro cell outside
    refine Function.update_of_ne ?_ _ _
    unfold position at outside
    simp only [putentryat_row, putentryat_column] at outside
    omega

theorem backspaces_erase (bound n : Nat) {t : Terminal} (left : n ≤ t.terminalColumn) :
    ∃ t', terminalWrite (bound + 1) t (List.replicate n backspace) = some t' ∧ Erased n t t' := by
  induction n generalizing t with
  | zero => exact ⟨t, rfl, rfl, rfl, rfl, fun k less => absurd less (Nat.not_lt_zero k), fun _ _ => rfl⟩
  | succ n ih =>
    obtain ⟨next, stepped, first⟩ := backspace_erases bound (Nat.lt_of_lt_of_le (Nat.succ_pos n) left)
    have shorter := first.column
    obtain ⟨t', ran, rest⟩ := ih (t := next) (by omega)
    have column := rest.column
    -- the first backspace blanks the cell that the others start from
    have before : position next + 1 = position t := by
      unfold position
      rw [first.row]
      omega
    have start : position t' + n = position next := by
      unfold position
      rw [rest.row]
      omega
    refine ⟨t', ?_, rest.row.trans first.row, by omega, rest.color.trans first.color, ?_, ?_⟩
    · rw [List.replicate_succ, terminalWrite, run_cons, stepped, Option.bind_some]
      exact ran
    · intro k less
      rw [← first.color]
      by_cases last : k = n
      · rw [last, start, rest.kept _ (Or.inr (Nat.le_refl _)), first.color]
        exact first.blank 0 Nat.one_pos
      · exact rest.blank k (by omega)
    · intro cell outside
      rw [rest.kept cell (by omega), first.kept cell (by omega)]

/-- At the left edge a backspace does nothing. -/
theorem backspaces_idle (bound n : Nat) {t : Terminal} (edge : t.terminalColumn = 0) :
    terminalWrite (bound + 1) t (List.replicate n backspace) = some t := by
  induction n with
  | zero => rfl
  | succ n ih =>
    have idle : ¬ t.terminalColumn > 0 := by omega
    rw [List.replicate_succ, terminalWrite, run_cons, putchar_backspace, if_neg idle, Option.bind_some]
    exact ih

/-- Write the text, and then as many backspaces as it has bytes. -/
def writeAndErase (bound : Nat) (t : Terminal) (w : List UInt8) : Option Terminal :=
  (terminalWrite bound t w).bind fun t => terminalWrite bound t (List.replicate w.length backspace)

/-- The cursor is back, the cells of the text are blank and every other cell is as it was. -/
structure Undone (t t' : Terminal) (w : List UInt8) : Prop where
  row : t'.terminalRow = t.terminalRow
  column : t'.terminalColumn = t.terminalColumn
  blank : ∀ k < w.length,
    t'.terminalBuffer.cells (position t + k) = vgaEntry space t.terminalColor
  kept : ∀ cell, cell < position t ∨ position t + w.length ≤ cell →
    t'.terminalBuffer.cells cell = t.terminalBuffer.cells cell

theorem writeAndErase_undone (bound : Nat) {t : Terminal} (inside : InScreen t) {w : List UInt8}
    (plain : ∀ uc ∈ w, Plain uc) (short : t.terminalColumn + w.length < vgaWidth) :
    ∃ t', writeAndErase (bound + 1) t w = some t' ∧ Undone t t' w := by
  have row := inside.row
  have column := inside.column
  obtain ⟨next, written, printed⟩ := write_printed bound inside plain
  have moved := position_printed inside printed
  have row' := printed.inside.row
  have column' := printed.inside.column
  unfold vgaHeight at row row'
  unfold vgaWidth at column column' short
  -- the text ends in the row that it starts in
  obtain ⟨sameRow, further⟩ : next.terminalRow = t.terminalRow ∧
      next.terminalColumn = t.terminalColumn + w.length := by
    unfold position cellCount vgaHeight vgaWidth at moved
    omega
  obtain ⟨t', erased, back⟩ := backspaces_erase bound w.length (t := next) (by omega)
  have home := back.column
  have same : position t' = position t := by
    unfold position
    rw [back.row, sameRow]
    omega
  have ended : position next = position t + w.length := by
    unfold position
    rw [sameRow, further, Nat.add_assoc]
  refine ⟨t', ?_, back.row.trans sameRow, by omega, ?_, ?_⟩
  · rw [writeAndErase, written, Option.bind_some]
    exact erased
  · intro k less
    rw [← same, back.blank k less, printed.color]
  · intro cell outside
    have cells : next.terminalBuffer.cells cell = t.terminalBuffer.cells cell := by
      apply cells_printed_elsewhere inside printed
      intro j less
      have inScreen : position t + j < cellCount := by
        unfold position cellCount vgaHeight vgaWidth
        omega
      rw [Nat.mod_eq_of_lt inScreen]
      omega
    rw [back.kept cell (by omega), cells]

/-- Text that fills the row leaves the cursor at the left edge of the next, where backspaces
find nothing to take back. -/
theorem writeAndErase_edge (bound : Nat) {t : Terminal} (inside : InScreen t) {w : List UInt8}
    (plain : ∀ uc ∈ w, Plain uc) (full : t.terminalColumn + w.length = vgaWidth) :
    ∃ t', terminalWrite (bound + 1) t w = some t' ∧ writeAndErase (bound + 1) t w = some t' ∧
      t'.terminalRow = (t.terminalRow + 1) % vgaHeight ∧ t'.terminalColumn = 0 := by
  have row := inside.row
  obtain ⟨t', written, printed⟩ := write_printed bound inside plain
  have moved := position_printed inside printed
  have row' := printed.inside.row
  have column' := printed.inside.column
  obtain ⟨nextRow, edge⟩ : t'.terminalRow = (t.terminalRow + 1) % vgaHeight ∧ t'.terminalColumn = 0 := by
    unfold position cellCount at moved
    unfold vgaHeight at *
    unfold vgaWidth at *
    omega
  refine ⟨t', written, ?_, nextRow, edge⟩
  rw [writeAndErase, written, Option.bind_some, backspaces_idle bound _ edge]

/-- Backspaces undo text that leaves the cursor in its row. Text that fills the row to its
end stays, and the cursor with it. -/
theorem backspaces_undo {t : Terminal} (reached : Reached t) {w : List UInt8}
    (plain : ∀ uc ∈ w, Plain uc) (bound : Nat) :
    (t.terminalColumn + w.length < vgaWidth →
      ∃ t', writeAndErase (bound + 1) t w = some t' ∧ Undone t t' w) ∧
    (t.terminalColumn + w.length = vgaWidth →
      ∃ t', terminalWrite (bound + 1) t w = some t' ∧ writeAndErase (bound + 1) t w = some t' ∧
        t'.terminalRow = (t.terminalRow + 1) % vgaHeight ∧ t'.terminalColumn = 0) :=
  ⟨writeAndErase_undone bound reached.inScreen plain, writeAndErase_edge bound reached.inScreen plain⟩

theorem backspaces_undo_ok :
    ∃ t', writeAndErase 1 (terminalInitialize powerOn) [0x6F, 0x6B] = some t' ∧
      Undone (terminalInitialize powerOn) t' [0x6F, 0x6B] := by
  refine (backspaces_undo (.start powerOn) (by simp [Plain, newline, carriageReturn, backspace, tab]) 0).1 ?_
  rw [(initialize_cursor powerOn).2]
  decide

/-- Eighty bytes in an empty row are not undone. -/
theorem full_row_not_undone :
    Reached (terminalInitialize powerOn) ∧ (∀ uc ∈ List.replicate 80 (0x41 : UInt8), Plain uc) ∧
      (terminalInitialize powerOn).terminalColumn + (List.replicate 80 (0x41 : UInt8)).length ≤ vgaWidth ∧
      ∀ bound t', writeAndErase (bound + 1) (terminalInitialize powerOn) (List.replicate 80 0x41) = some t' →
        ¬ Undone (terminalInitialize powerOn) t' (List.replicate 80 0x41) := by
  have plain : ∀ uc ∈ List.replicate 80 (0x41 : UInt8), Plain uc := fun uc member => by
    rw [List.eq_of_mem_replicate member]
    decide
  have full : (terminalInitialize powerOn).terminalColumn + (List.replicate 80 (0x41 : UInt8)).length =
      vgaWidth := by
    rw [(initialize_cursor powerOn).2, List.length_replicate]
    rfl
  refine ⟨.start powerOn, plain, Nat.le_of_eq full, fun bound t' ran undone => ?_⟩
  obtain ⟨left, _, same, next, _⟩ :=
    writeAndErase_edge bound (initialize_inScreen powerOn) plain full
  rw [Option.some.inj (ran.symm.trans same)] at undone
  have row := undone.row
  rw [next, (initialize_cursor powerOn).1] at row
  exact absurd row (by decide)

end SzOS.Kernel.Tty
