import SzOS.Libc.CString
import SzOS.Semantics.Loop
import SzOS.Semantics.Run
import SzOS.Semantics.Store

/-! The VGA text terminal of the i386 kernel (arch/i386/tty.c and vga.h).

Coordinates are `size_t` values that every operation keeps far below 2^32, so
they are natural numbers here. A call that does not return within its bound
answers `none`; the tab loop calls the function it belongs to, hence the bound
on the whole of `terminalPutchar`.
-/

set_option autoImplicit false

namespace SzOS.Kernel.Tty
open Semantics Libc

inductive VgaColor where
  | black | blue | green | cyan | red | magenta | brown | lightGrey
  | darkGrey | lightBlue | lightGreen | lightCyan | lightRed | lightMagenta | lightBrown | white
  deriving DecidableEq, Repr

def vgaEntryColor (fg bg : VgaColor) : UInt8 :=
  UInt8.ofNat fg.ctorIdx ||| UInt8.ofNat bg.ctorIdx <<< 4

def vgaEntry (uc color : UInt8) : UInt16 :=
  uc.toUInt16 ||| color.toUInt16 <<< 8

def vgaWidth : Nat := 80
def vgaHeight : Nat := 25

structure Terminal where
  terminalRow : Nat
  terminalColumn : Nat
  terminalColor : UInt8
  terminalBuffer : Store UInt16

abbrev backspace : UInt8 := 0x08
abbrev tab : UInt8 := 0x09
abbrev newline : UInt8 := 0x0A
abbrev carriageReturn : UInt8 := 0x0D
abbrev space : UInt8 := 0x20

def terminalPutentryat (t : Terminal) (c color : UInt8) (x y : Nat) : Terminal :=
  let index := y * vgaWidth + x
  { t with terminalBuffer := t.terminalBuffer.write index (vgaEntry c color) }

def terminalInitialize (t : Terminal) : Terminal :=
  let t := { t with
    terminalRow := 0
    terminalColumn := 0
    terminalColor := vgaEntryColor .lightGrey .black }
  (List.range vgaHeight).foldl (fun t y =>
    (List.range vgaWidth).foldl (fun t x => terminalPutentryat t space t.terminalColor x y) t) t

/-- `if (++terminal_row == VGA_HEIGHT) terminal_row = 0;` -/
def advanceRow (t : Terminal) : Terminal :=
  if t.terminalRow + 1 = vgaHeight then { t with terminalRow := 0 }
  else { t with terminalRow := t.terminalRow + 1 }

/-- `if (++terminal_column == VGA_WIDTH) { terminal_column = 0; ... }` -/
def advanceColumn (t : Terminal) : Terminal :=
  if t.terminalColumn + 1 = vgaWidth then advanceRow { t with terminalColumn := 0 }
  else { t with terminalColumn := t.terminalColumn + 1 }

def terminalPutchar : Nat → Terminal → UInt8 → Option Terminal
  | 0, _, _ => none
  | bound + 1, t, uc =>
    if uc = newline then
      some (advanceRow { t with terminalColumn := 0 })
    else if uc = carriageReturn then
      some { t with terminalColumn := 0 }
    else if uc = backspace then
      if t.terminalColumn > 0 then
        let t := { t with terminalColumn := t.terminalColumn - 1 }
        some (terminalPutentryat t space t.terminalColor t.terminalColumn t.terminalRow)
      else some t
    else if uc = tab then
      -- ~7u on a 32-bit size_t
      let nextStop := (t.terminalColumn + 8) &&& 0xFFFFFFF8
      whileLoop (fun t => t.terminalColumn < nextStop && t.terminalColumn < vgaWidth)
        (fun t => terminalPutchar bound t space) bound t
    else
      some (advanceColumn
        (terminalPutentryat t uc t.terminalColor t.terminalColumn t.terminalRow))

/-- The bytes at `data`, `size` of them. -/
def terminalWrite (bound : Nat) (t : Terminal) (data : List UInt8) : Option Terminal :=
  run (terminalPutchar bound) t data

def terminalWritestring (bound : Nat) (t : Terminal) (data : CString) : Option Terminal :=
  (strlen data.object).bind fun size => terminalWrite bound t (data.object.take size)

/-! ## Cursor and bounds -/

/-- The coordinates name a cell of the screen. -/
structure InScreen (t : Terminal) : Prop where
  row : t.terminalRow < vgaHeight
  column : t.terminalColumn < vgaWidth

@[simp] theorem putentryat_row (t : Terminal) (c color : UInt8) (x y : Nat) :
    (terminalPutentryat t c color x y).terminalRow = t.terminalRow := rfl

@[simp] theorem putentryat_column (t : Terminal) (c color : UInt8) (x y : Nat) :
    (terminalPutentryat t c color x y).terminalColumn = t.terminalColumn := rfl

@[simp] theorem putentryat_color (t : Terminal) (c color : UInt8) (x y : Nat) :
    (terminalPutentryat t c color x y).terminalColor = t.terminalColor := rfl

@[simp] theorem putentryat_buffer (t : Terminal) (c color : UInt8) (x y : Nat) :
    (terminalPutentryat t c color x y).terminalBuffer =
      t.terminalBuffer.write (y * vgaWidth + x) (vgaEntry c color) := rfl

theorem InScreen.putentryat {t : Terminal} (inside : InScreen t) (c color : UInt8) (x y : Nat) :
    InScreen (terminalPutentryat t c color x y) :=
  ⟨inside.row, inside.column⟩

@[simp] theorem advanceRow_column (t : Terminal) :
    (advanceRow t).terminalColumn = t.terminalColumn := by
  unfold advanceRow
  split <;> rfl

@[simp] theorem advanceRow_color (t : Terminal) :
    (advanceRow t).terminalColor = t.terminalColor := by
  unfold advanceRow
  split <;> rfl

@[simp] theorem advanceRow_buffer (t : Terminal) :
    (advanceRow t).terminalBuffer = t.terminalBuffer := by
  unfold advanceRow
  split <;> rfl

theorem advanceRow_row {t : Terminal} (inside : t.terminalRow < vgaHeight) :
    (advanceRow t).terminalRow = (t.terminalRow + 1) % vgaHeight := by
  unfold advanceRow
  split
  next last => rw [last, Nat.mod_self]
  next inner => rw [Nat.mod_eq_of_lt (by omega)]

@[simp] theorem advanceColumn_color (t : Terminal) :
    (advanceColumn t).terminalColor = t.terminalColor := by
  unfold advanceColumn
  split <;> simp

@[simp] theorem advanceColumn_buffer (t : Terminal) :
    (advanceColumn t).terminalBuffer = t.terminalBuffer := by
  unfold advanceColumn
  split <;> simp

theorem advanceColumn_inner {t : Terminal} (inner : t.terminalColumn + 1 < vgaWidth) :
    advanceColumn t = { t with terminalColumn := t.terminalColumn + 1 } := by
  rw [advanceColumn, if_neg (by omega)]

theorem advanceColumn_last {t : Terminal} (last : t.terminalColumn + 1 = vgaWidth) :
    advanceColumn t = advanceRow { t with terminalColumn := 0 } := by
  rw [advanceColumn, if_pos last]

theorem InScreen.advanceRow {t : Terminal} (inside : InScreen t) : InScreen (advanceRow t) where
  row := by
    rw [advanceRow_row inside.row]
    exact Nat.mod_lt _ (by decide)
  column := by simpa using inside.column

theorem InScreen.home {t : Terminal} (inside : InScreen t) :
    InScreen { t with terminalColumn := 0 } :=
  ⟨inside.row, Nat.zero_lt_succ _⟩

theorem InScreen.advanceColumn {t : Terminal} (inside : InScreen t) :
    InScreen (advanceColumn t) := by
  by_cases last : t.terminalColumn + 1 = vgaWidth
  · rw [advanceColumn_last last]
    exact inside.home.advanceRow
  · have inner : t.terminalColumn + 1 < vgaWidth := by
      have := inside.column
      omega
    rw [advanceColumn_inner inner]
    exact ⟨inside.row, inner⟩

/-! ## One byte -/

theorem putchar_newline (bound : Nat) (t : Terminal) :
    terminalPutchar (bound + 1) t newline = some (advanceRow { t with terminalColumn := 0 }) := rfl

theorem putchar_carriageReturn (bound : Nat) (t : Terminal) :
    terminalPutchar (bound + 1) t carriageReturn = some { t with terminalColumn := 0 } := rfl

theorem putchar_backspace (bound : Nat) (t : Terminal) :
    terminalPutchar (bound + 1) t backspace =
      some (if t.terminalColumn > 0 then
        terminalPutentryat { t with terminalColumn := t.terminalColumn - 1 } space
          t.terminalColor (t.terminalColumn - 1) t.terminalRow
      else t) := by
  by_cases inner : t.terminalColumn > 0
  · rw [if_pos inner]
    exact if_pos inner
  · rw [if_neg inner]
    exact if_neg inner

theorem putchar_tab (bound : Nat) (t : Terminal) :
    terminalPutchar (bound + 1) t tab =
      whileLoop (fun t' => t'.terminalColumn < (t.terminalColumn + 8) &&& 0xFFFFFFF8 &&
          t'.terminalColumn < vgaWidth)
        (fun t' => terminalPutchar bound t' space) bound t := rfl

/-- The bytes that are shown as they are. -/
def Plain (uc : UInt8) : Prop :=
  uc ≠ newline ∧ uc ≠ carriageReturn ∧ uc ≠ backspace ∧ uc ≠ tab

instance (uc : UInt8) : Decidable (Plain uc) := inferInstanceAs (Decidable (_ ∧ _))

theorem putchar_plain (bound : Nat) (t : Terminal) {uc : UInt8} (plain : Plain uc) :
    terminalPutchar (bound + 1) t uc =
      some (advanceColumn
        (terminalPutentryat t uc t.terminalColor t.terminalColumn t.terminalRow)) := by
  obtain ⟨notNewline, notReturn, notBackspace, notTab⟩ := plain
  rw [terminalPutchar, if_neg notNewline, if_neg notReturn, if_neg notBackspace, if_neg notTab]

theorem control_of_not_plain {uc : UInt8} (control : ¬ Plain uc) (notTab : uc ≠ tab) :
    uc = newline ∨ uc = carriageReturn ∨ uc = backspace := by
  unfold Plain at control
  grind

/-- Every byte but the tab returns at once. -/
theorem putchar_returns (bound : Nat) (t : Terminal) {uc : UInt8} (notTab : uc ≠ tab) :
    ∃ t', terminalPutchar (bound + 1) t uc = some t' := by
  by_cases plain : Plain uc
  · exact ⟨_, putchar_plain bound t plain⟩
  · rcases control_of_not_plain plain notTab with rfl | rfl | rfl
    · exact ⟨_, putchar_newline bound t⟩
    · exact ⟨_, putchar_carriageReturn bound t⟩
    · exact ⟨_, putchar_backspace bound t⟩

theorem putchar_mono {bound more : Nat} (enough : bound ≤ more) {t t' : Terminal} {uc : UInt8}
    (ended : terminalPutchar bound t uc = some t') : terminalPutchar more t uc = some t' := by
  induction bound generalizing more t t' uc with
  | zero => simp [terminalPutchar] at ended
  | succ bound ih =>
    obtain ⟨more, rfl⟩ : ∃ rest, more = rest + 1 := ⟨more - 1, by omega⟩
    -- only the loop of a tab uses the bound
    by_cases isTab : uc = tab
    · subst uc
      rw [putchar_tab] at ended ⊢
      exact whileLoop_mono (fun _ _ ran => ih (by omega) ran) (by omega) ended
    · simpa [terminalPutchar, isTab] using ended

end SzOS.Kernel.Tty
