import SzOS.KernelC.Screen
import SzOS.Semantics.Checked

/-! Which bytes of video memory the screen driver touches, and where it leaves the cursor.

The driver is run a second time with a record of every byte it reads or writes,
every value of get_offset and every cursor position it sets; forgetting the
record gives the driver back. Coordinates outside the screen are the second
subject: what kprint_at does with them depends on the length of the string.
-/

set_option autoImplicit false

namespace SzOS.KernelC.Screen
open Libc Semantics

def cursorCell (vga : Vga) : Nat := vga.cursorHigh.toNat * 256 + vga.cursorLow.toNat

inductive Event where
  /-- A byte is read or written at this offset from VIDEO_ADDRESS. -/
  | access (offset : Int)
  /-- A value of get_offset. -/
  | computed (value : Int)
  /-- The cursor was set for this offset, and the registers after it. -/
  | cursor (offset : Int) (vga : Vga)

def Event.Right : Event → Prop
  | .access offset => 0 ≤ offset ∧ offset < 4000
  | .computed value => InSigned 32 value
  | .cursor offset vga => cursorCell vga < 2000 ∧ (getCursorOffset vga).1 = offset

structure Traced where
  vga : Vga
  events : List Event

namespace Traced

def log (t : Traced) (event : Event) : Traced := { t with events := event :: t.events }

def load (t : Traced) (offset : Int) : UInt8 × Traced :=
  (t.vga.vidmem offset, t.log (.access offset))

def store (t : Traced) (offset : Int) (byte : UInt8) : Traced :=
  let t := t.log (.access offset)
  { t with vga := { t.vga with vidmem := Function.update t.vga.vidmem offset byte } }

def getOffset (t : Traced) (col row : Int) : Int × Traced :=
  (Screen.getOffset col row, t.log (.computed (Screen.getOffset col row)))

def getCursorOffset (t : Traced) : Int × Traced :=
  let (offset, vga) := Screen.getCursorOffset t.vga
  (offset, { t with vga })

def setCursorOffset (t : Traced) (offset : Int) : Traced :=
  let vga := Screen.setCursorOffset offset t.vga
  { t with vga }.log (.cursor offset vga)

def memoryCopy (t : Traced) (source dest : Int) : Nat → Traced
  | 0 => t
  | i + 1 =>
    let t := t.memoryCopy source dest i
    let (byte, t) := t.load (source + i)
    t.store (dest + i) byte

def copyRows (t : Traced) : Nat → Traced
  | 0 => t
  | i + 1 =>
    let t := t.copyRows i
    let (source, t) := t.getOffset 0 (i + 1)
    let (dest, t) := t.getOffset 0 i
    t.memoryCopy source dest (maxCols * 2)

def blankLine (t : Traced) (lastLine : Int) : Nat → Traced
  | 0 => t
  | i + 1 => (t.blankLine lastLine i).store (lastLine + i) 0

def scroll (t : Traced) : Traced :=
  let t := t.copyRows (maxRows - 1)
  let (lastLine, t) := t.getOffset 0 (maxRows - 1)
  t.blankLine lastLine (maxCols * 2)

def placeChar (t : Traced) (c attr : UInt8) (offset : Int) : Int × Traced :=
  if c = newline then t.getOffset 0 (getOffsetRow offset + 1)
  else
    let t := t.store offset c
    (offset + 2, t.store (offset + 1) attr)

def scrollAt (t : Traced) (offset : Int) : Int × Traced :=
  if offset ≥ maxRows * maxCols * 2 then (offset - 2 * maxCols, t.scroll) else (offset, t)

def printChar (t : Traced) (c : UInt8) (col row : Int) (attr : UInt8) : Int × Traced :=
  let attr := if attr = 0 then whiteOnBlack else attr
  if col ≥ maxCols ∨ row ≥ maxRows then
    let t := t.store (2 * maxCols * maxRows - 2) 'E'.toUInt8
    let t := t.store (2 * maxCols * maxRows - 1) redOnWhite
    t.getOffset col row
  else
    let (offset, t) := if col ≥ 0 ∧ row ≥ 0 then t.getOffset col row else t.getCursorOffset
    let (offset, t) := t.placeChar c attr offset
    let (offset, t) := t.scrollAt offset
    (offset, t.setCursorOffset offset)

def printLoop (t : Traced) : List UInt8 → Int → Int → Option Traced
  | [], _, _ => none
  | byte :: message, col, row =>
    if byte = 0 then some t
    else
      let (offset, t) := t.printChar byte col row whiteOnBlack
      t.printLoop message (getOffsetCol offset) (getOffsetRow offset)

def kprintAt (t : Traced) (message : List UInt8) (col row : Int) : Option Traced :=
  if col ≥ 0 ∧ row ≥ 0 then
    let (_, t) := t.getOffset col row
    t.printLoop message col row
  else
    let (offset, t) := t.getCursorOffset
    t.printLoop message (getOffsetCol offset) (getOffsetRow offset)

def kprint (t : Traced) (message : CString) : Option Traced := t.kprintAt message.object (-1) (-1)

def clearCells (t : Traced) : Nat → Traced
  | 0 => t
  | i + 1 =>
    let t := t.clearCells i
    let t := t.store (i * 2) ' '.toUInt8
    t.store (i * 2 + 1) whiteOnBlack

def clearScreen (t : Traced) : Traced :=
  let t := t.clearCells (maxCols * maxRows)
  let (home, t) := t.getOffset 0 0
  t.setCursorOffset home

end Traced

/-- A call of the driver; coordinates on or below the screen keep get_offset inside `int`. -/
inductive Call where
  | kprint (message : CString)
  | kprintAt (message : CString) (col row : Int)
      (fits : 0 ≤ col → 0 ≤ row → getOffset col row < 2 ^ 31)
  | clearScreen

def Call.perform (vga : Vga) : Call → Option Vga
  | .kprint message => Screen.kprint message vga
  | .kprintAt message col row _ => Screen.kprintAt message.object col row vga
  | .clearScreen => some (Screen.clearScreen vga)

def Call.trace (t : Traced) : Call → Option Traced
  | .kprint message => t.kprint message
  | .kprintAt message col row _ => t.kprintAt message.object col row
  | .clearScreen => some t.clearScreen

/-! ## Coordinates -/

/-- The red E in the last cell. -/
def flagged (vga : Vga) : Vga :=
  let vidmem := Function.update vga.vidmem 3998 'E'.toUInt8
  { vga with vidmem := Function.update vidmem 3999 redOnWhite }

theorem printChar_rejected {col row : Int} (off : col ≥ maxCols ∨ row ≥ maxRows) (c attr : UInt8)
    (vga : Vga) : printChar c col row attr vga = (getOffset col row, flagged vga) := by
  rw [printChar, if_pos off]
  rfl

/-- The cell that nonnegative coordinates name, on the screen or off it. -/
theorem getOffset_nonneg {col row : Int} (positive : 0 ≤ col ∧ 0 ≤ row) :
    ∃ p : Nat, getOffset col row = 2 * p := by
  refine ⟨(row * 80 + col).toNat, ?_⟩
  unfold getOffset maxCols
  omega

theorem getCursorOffset_cell (vga : Vga) :
    (getCursorOffset vga).1 = 2 * (cursorCell vga : Int) ∧ cursorCell vga < 65536 := by
  have read : (getCursorOffset vga).1 =
      ((vga.cursorHigh.toNat <<< 8 : Nat) + (vga.cursorLow.toNat : Int)) * 2 := rfl
  have high := vga.cursorHigh.toNat_lt
  have low := vga.cursorLow.toNat_lt
  rw [read, Nat.shiftLeft_eq]
  unfold cursorCell
  omega

theorem accepted_cell {col row : Int} {p : Nat} (positive : 0 ≤ col ∧ 0 ≤ row)
    (on : ¬ (col ≥ maxCols ∨ row ≥ maxRows)) (cell : getOffset col row = 2 * p) :
    p < 2000 ∧ col = (p % 80 : Nat) ∧ row = (p / 80 : Nat) := by
  unfold getOffset at cell
  unfold maxCols maxRows at *
  omega

/-! ## The record beside the driver -/

/-- The traced state stands for `vga`, and nothing it has recorded is wrong. -/
structure Traced.Shows (t : Traced) (vga : Vga) : Prop where
  same : t.vga = vga
  right : ∀ event ∈ t.events, event.Right

namespace Traced.Shows

variable {t : Traced} {vga : Vga}

theorem log (shows : t.Shows vga) {event : Event} (right : event.Right) : (t.log event).Shows vga where
  same := shows.same
  right := List.forall_mem_cons.mpr ⟨right, shows.right⟩

theorem load (shows : t.Shows vga) (offset : Int) (inside : 0 ≤ offset ∧ offset < 4000) :
    (t.load offset).1 = vga.vidmem offset ∧ (t.load offset).2.Shows vga := by
  have right : (Event.access offset).Right := inside
  exact ⟨by rw [Traced.load, shows.same], shows.log right⟩

theorem store (shows : t.Shows vga) (offset : Int) (byte : UInt8) (inside : 0 ≤ offset ∧ offset < 4000) :
    (t.store offset byte).Shows { vga with vidmem := Function.update vga.vidmem offset byte } := by
  have right : (Event.access offset).Right := inside
  exact ⟨by rw [← shows.same]; rfl, (shows.log right).right⟩

theorem getOffset (shows : t.Shows vga) (col row : Int) (fits : InSigned 32 (Screen.getOffset col row)) :
    (t.getOffset col row).2.Shows vga := by
  have right : (Event.computed (Screen.getOffset col row)).Right := fits
  exact shows.log right

/-- The start of a line that is at most one below the screen. -/
theorem getOffset_line (shows : t.Shows vga) (row : Nat) (near : row ≤ 25) :
    Screen.getOffset 0 row = 160 * row ∧ (t.getOffset 0 row).2.Shows vga := by
  have line : Screen.getOffset 0 row = 160 * row := by
    unfold Screen.getOffset maxCols
    omega
  refine ⟨line, shows.getOffset 0 row ?_⟩
  rw [line]
  constructor <;> omega

theorem getCursorOffset (shows : t.Shows vga) :
    t.getCursorOffset.1 = (Screen.getCursorOffset vga).1 ∧
      t.getCursorOffset.2.Shows (Screen.getCursorOffset vga).2 := by
  have same := shows.same
  subst same
  exact ⟨rfl, rfl, shows.right⟩

theorem setCursorOffset (shows : t.Shows vga) {p : Nat} (small : p < 2000) :
    (t.setCursorOffset (2 * p)).Shows (vgaAt p vga.vidmem) := by
  have high := toNat_byte (p / 256) (by omega)
  have low := toNat_byte (p % 256) (by omega)
  have right : (Event.cursor (2 * p) (vgaAt p vga.vidmem)).Right := by
    refine ⟨?_, ?_⟩
    · simp only [cursorCell, vgaAt, high, low]
      omega
    · rw [getCursorOffset_vgaAt (by omega)]
  unfold Traced.setCursorOffset
  rw [shows.same, setCursorOffset_cell]
  exact ⟨rfl, List.forall_mem_cons.mpr ⟨right, shows.right⟩⟩

theorem memoryCopy (shows : t.Shows vga) {source dest : Int} {count : Nat}
    (inside : 0 ≤ dest ∧ dest + count ≤ 4000 ∧ 0 ≤ source ∧ source + count ≤ 4000) :
    (t.memoryCopy source dest count).Shows
      { vga with vidmem := Screen.memoryCopy source dest count vga.vidmem } := by
  induction count with
  | zero => exact shows
  | succ i ih =>
    obtain ⟨byte, loaded⟩ := (ih (by omega)).load (source + i) (by omega)
    have stored := loaded.store (dest + i) ((t.memoryCopy source dest i).load (source + i)).1 (by omega)
    refine ⟨stored.same.trans ?_, stored.right⟩
    rw [byte]
    rfl

theorem copyRows (shows : t.Shows vga) {rows : Nat} (inside : rows < 25) :
    (t.copyRows rows).Shows { vga with vidmem := Screen.copyRows rows vga.vidmem } := by
  induction rows with
  | zero => exact shows
  | succ i ih =>
    obtain ⟨source, shows⟩ := (ih (by omega)).getOffset_line (i + 1) (by omega)
    obtain ⟨dest, shows⟩ := shows.getOffset_line i (by omega)
    have width : ((maxCols * 2 : Nat) : Int) = 160 := rfl
    apply shows.memoryCopy
    rw [width]
    change 0 ≤ Screen.getOffset 0 i ∧ Screen.getOffset 0 i + 160 ≤ 4000 ∧
      0 ≤ Screen.getOffset 0 ((i + 1 : Nat) : Int) ∧ Screen.getOffset 0 ((i + 1 : Nat) : Int) + 160 ≤ 4000
    rw [source, dest]
    omega

theorem blankLine (shows : t.Shows vga) {lastLine : Int} {count : Nat}
    (inside : 0 ≤ lastLine ∧ lastLine + count ≤ 4000) :
    (t.blankLine lastLine count).Shows { vga with vidmem := Screen.blankLine lastLine count vga.vidmem } := by
  induction count with
  | zero => exact shows
  | succ i ih => exact (ih (by omega)).store (lastLine + i) 0 (by omega)

theorem scroll (shows : t.Shows vga) :
    t.scroll.Shows { vga with vidmem := Screen.scroll vga.vidmem } := by
  have copied : (t.copyRows (maxRows - 1)).Shows _ := shows.copyRows (by decide)
  obtain ⟨_, computed⟩ := copied.getOffset_line 24 (by decide)
  exact computed.blankLine (by decide)

theorem clearCells (shows : t.Shows vga) {cells : Nat} (inside : cells ≤ 2000) :
    (t.clearCells cells).Shows { vga with vidmem := Screen.clearCells cells vga.vidmem } := by
  induction cells with
  | zero => exact shows
  | succ i ih =>
    have char := (ih (by omega)).store (i * 2) ' '.toUInt8 (by omega)
    exact char.store (i * 2 + 1) whiteOnBlack (by omega)

theorem clearScreen (shows : t.Shows vga) : t.clearScreen.Shows (Screen.clearScreen vga) := by
  have cleared : (t.clearCells (maxCols * maxRows)).Shows _ := shows.clearCells (by decide)
  obtain ⟨_, computed⟩ := cleared.getOffset_line 0 (by decide)
  have home : Screen.getOffset 0 0 = 2 * ((0 : Nat) : Int) := rfl
  rw [Screen.clearScreen, home, setCursorOffset_cell]
  exact computed.setCursorOffset (by decide)

theorem placeChar (shows : t.Shows vga) (c : UInt8) {p : Nat} (small : p < 2000) :
    (t.placeChar c whiteOnBlack (2 * p)).1 = 2 * ((typed c p vga.vidmem).1 : Int) ∧
      (t.placeChar c whiteOnBlack (2 * p)).2.Shows { vga with vidmem := (typed c p vga.vidmem).2 } := by
  unfold Traced.placeChar typed
  split
  · rw [getOffsetRow_cell]
    obtain ⟨line, computed⟩ := shows.getOffset_line (p / 80 + 1) (by omega)
    refine ⟨?_, computed⟩
    change Screen.getOffset 0 ((p / 80 + 1 : Nat) : Int) = _
    rw [line]
    simp only
    omega
  · have char := shows.store (2 * p) c (by omega)
    exact ⟨rfl, char.store (2 * p + 1) whiteOnBlack (by omega)⟩

theorem scrollAt (shows : t.Shows vga) (p : Nat) :
    (t.scrollAt (2 * p)).1 = 2 * ((scrolled p vga.vidmem).1 : Int) ∧
      (t.scrollAt (2 * p)).2.Shows { vga with vidmem := (scrolled p vga.vidmem).2 } := by
  unfold Traced.scrollAt scrolled maxRows maxCols
  by_cases full : 2000 ≤ p
  · rw [if_pos full, if_pos (by omega)]
    exact ⟨by simp only; omega, shows.scroll⟩
  · rw [if_neg full, if_neg (by omega)]
    exact ⟨rfl, shows⟩

theorem printChar (shows : t.Shows vga) (c : UInt8) {col row : Int} (positive : 0 ≤ col ∧ 0 ≤ row)
    (fits : Screen.getOffset col row < 2 ^ 31) :
    ∃ p : Nat, 2 * (p : Int) < 2 ^ 31 ∧ (t.printChar c col row whiteOnBlack).1 = 2 * p ∧
      (Screen.printChar c col row whiteOnBlack vga).1 = 2 * p ∧
      (t.printChar c col row whiteOnBlack).2.Shows (Screen.printChar c col row whiteOnBlack vga).2 := by
  obtain ⟨p, cell⟩ := getOffset_nonneg positive
  have computed : InSigned 32 (Screen.getOffset col row) := by constructor <;> omega
  by_cases off : col ≥ maxCols ∨ row ≥ maxRows
  · have char := shows.store 3998 'E'.toUInt8 (by decide)
    have flag := char.store 3999 redOnWhite (by decide)
    refine ⟨p, cell ▸ fits, ?_⟩
    rw [printChar_rejected off, Traced.printChar, if_pos off]
    exact ⟨cell, cell, flag.getOffset col row computed⟩
  · obtain ⟨small, left, down⟩ := accepted_cell positive off cell
    have computed := shows.getOffset col row computed
    obtain ⟨placed, char⟩ := computed.placeChar c small
    rw [← cell] at placed char
    obtain ⟨moved, scrolled⟩ := char.scrollAt (typed c p vga.vidmem).1
    rw [← placed] at moved scrolled
    have next : (put (p, vga.vidmem) c).1 < 2000 := put_small small c
    have cursor := scrolled.setCursorOffset next
    have traced : t.printChar c col row whiteOnBlack =
        let placed := (t.getOffset col row).2.placeChar c whiteOnBlack (Screen.getOffset col row)
        let moved := placed.2.scrollAt placed.1
        (moved.1, moved.2.setCursorOffset moved.1) := by
      unfold Traced.printChar
      have attr : (if whiteOnBlack = 0 then whiteOnBlack else whiteOnBlack) = whiteOnBlack := ite_self _
      rw [attr, if_neg off, if_pos positive]
      rfl
    have printed := printChar_cell small c vga
    rw [← left, ← down] at printed
    rw [printed, traced]
    refine ⟨(put (p, vga.vidmem) c).1, by omega, moved, rfl, ?_⟩
    simp only [moved]
    exact cursor

theorem printLoop (shows : t.Shows vga) (message : CString) {col row : Int} (positive : 0 ≤ col ∧ 0 ≤ row)
    (fits : Screen.getOffset col row < 2 ^ 31) :
    ∃ final after, t.printLoop message.object col row = some final ∧
      Screen.printLoop message.object col row vga = some after ∧ final.Shows after := by
  obtain ⟨bytes, nonzero⟩ := message
  unfold CString.object
  induction bytes generalizing t vga col row with
  | nil => exact ⟨t, vga, rfl, rfl, shows⟩
  | cons byte bytes ih =>
    have here := nonzero byte List.mem_cons_self
    obtain ⟨p, small, traced, printed, next⟩ := shows.printChar byte positive fits
    rw [← getOffset_cell] at small
    rw [List.cons_append, Traced.printLoop, Screen.printLoop, if_neg here, if_neg here]
    simp only [traced, printed, getOffsetCol_cell, getOffsetRow_cell]
    exact ih next (by omega) small fun other member => nonzero other (List.mem_cons_of_mem byte member)

theorem kprintAt (shows : t.Shows vga) (message : CString) {col row : Int}
    (fits : 0 ≤ col → 0 ≤ row → Screen.getOffset col row < 2 ^ 31) :
    ∃ final after, t.kprintAt message.object col row = some final ∧
      Screen.kprintAt message.object col row vga = some after ∧ final.Shows after := by
  unfold Traced.kprintAt Screen.kprintAt
  by_cases positive : col ≥ 0 ∧ row ≥ 0
  · have fits := fits positive.1 positive.2
    obtain ⟨p, cell⟩ := getOffset_nonneg positive
    rw [if_pos positive, if_pos positive]
    exact (shows.getOffset col row (by constructor <;> omega)).printLoop message positive fits
  · obtain ⟨read, next⟩ := shows.getCursorOffset
    obtain ⟨cursor, small⟩ := getCursorOffset_cell vga
    rw [if_neg positive, if_neg positive]
    simp only [read, cursor, getOffsetCol_cell, getOffsetRow_cell]
    apply next.printLoop message (by omega)
    rw [getOffset_cell]
    omega

theorem call (shows : t.Shows vga) (call : Call) :
    ∃ final after, call.trace t = some final ∧ call.perform vga = some after ∧ final.Shows after := by
  cases call with
  | kprint message =>
    have fits : (0 : Int) ≤ -1 → (0 : Int) ≤ -1 → Screen.getOffset (-1) (-1) < 2 ^ 31 := by omega
    exact shows.kprintAt message fits
  | kprintAt message col row fits => exact shows.kprintAt message fits
  | clearScreen => exact ⟨_, _, rfl, rfl, shows.clearScreen⟩

end Traced.Shows

/-- Every sequence of calls returns, and touches only the screen's own bytes on the way. -/
theorem calls_stay_inside (vga : Vga) (calls : List Call) :
    ∃ final, run Call.trace ⟨vga, []⟩ calls = some final ∧
      run Call.perform vga calls = some final.vga ∧ ∀ event ∈ final.events, event.Right := by
  suffices traced : ∀ t vga, Traced.Shows t vga → ∃ final, run Call.trace t calls = some final ∧
      run Call.perform vga calls = some final.vga ∧ ∀ event ∈ final.events, event.Right from
    traced ⟨vga, []⟩ vga ⟨rfl, fun _ member => absurd member List.not_mem_nil⟩
  induction calls with
  | nil => exact fun t vga shows => ⟨t, rfl, congrArg some shows.same.symm, shows.right⟩
  | cons call calls ih =>
    intro t vga shows
    obtain ⟨next, after, traced, performed, shows⟩ := shows.call call
    rw [run_cons, run_cons, traced, performed]
    exact ih next after shows

/-! ## Rejected coordinates -/

/-- Nothing but the last cell, which holds a red E, and no cursor movement. -/
structure OnlyFlags (vga final : Vga) : Prop where
  char : final.vidmem 3998 = 'E'.toUInt8
  attr : final.vidmem 3999 = redOnWhite
  others : ∀ offset, offset ≠ 3998 → offset ≠ 3999 → final.vidmem offset = vga.vidmem offset
  cursor : final.cursorHigh = vga.cursorHigh ∧ final.cursorLow = vga.cursorLow

theorem flagged_onlyFlags (vga : Vga) : OnlyFlags vga (flagged vga) where
  char := by simp [flagged]
  attr := by simp [flagged]
  others := by
    intro offset first second
    simp [flagged, first, second]
  cursor := ⟨rfl, rfl⟩

theorem OnlyFlags.flagged {vga final : Vga} (only : OnlyFlags vga final) :
    OnlyFlags vga (flagged final) := by
  have flag := flagged_onlyFlags final
  refine ⟨flag.char, flag.attr, ?_, only.cursor⟩
  intro offset first second
  exact (flag.others offset first second).trans (only.others offset first second)

/-- Below the screen every byte is rejected at the same place. -/
theorem printLoop_below (bytes : List UInt8) (nonzero : ∀ byte ∈ bytes, byte ≠ 0) {p : Nat}
    (below : 2000 ≤ p) {vga middle : Vga} (only : OnlyFlags vga middle) :
    ∃ final, printLoop (bytes ++ [0]) (p % 80 : Nat) (p / 80 : Nat) middle = some final ∧
      OnlyFlags vga final := by
  induction bytes generalizing middle with
  | nil => exact ⟨middle, rfl, only⟩
  | cons byte bytes ih =>
    have here := nonzero byte List.mem_cons_self
    have off : ((p % 80 : Nat) : Int) ≥ maxCols ∨ ((p / 80 : Nat) : Int) ≥ maxRows := by
      unfold maxCols maxRows
      omega
    rw [List.cons_append, printLoop, if_neg here, printChar_rejected off, getOffset_cell]
    simp only [getOffsetCol_cell, getOffsetRow_cell]
    exact ih (fun other member => nonzero other (List.mem_cons_of_mem byte member)) only.flagged

/-- On the screen a byte moves the cursor to one of its cells. -/
theorem printLoop_moves {bytes : List UInt8} (nonzero : ∀ byte ∈ bytes, byte ≠ 0) (more : bytes ≠ [])
    {p : Nat} (small : p < 2000) (vga : Vga) :
    ∃ q memory, q < 2000 ∧
      printLoop (bytes ++ [0]) (p % 80 : Nat) (p / 80 : Nat) vga = some (vgaAt q memory) := by
  cases bytes with
  | nil => exact absurd rfl more
  | cons byte bytes =>
    have here := nonzero byte List.mem_cons_self
    have next : (put (p, vga.vidmem) byte).1 < 2000 := put_small small byte
    rw [List.cons_append, printLoop, if_neg here, printChar_cell small]
    simp only [getOffsetCol_cell, getOffsetRow_cell]
    exact ⟨_, _, foldl_put_small bytes next, printLoop_cells bytes
      (fun other member => nonzero other (List.mem_cons_of_mem byte member)) next _⟩

/-- Coordinates right of the screen or below it. -/
structure Rejected (col row : Int) : Prop where
  positive : 0 ≤ col ∧ 0 ≤ row
  off : col ≥ maxCols ∨ row ≥ maxRows
  fits : getOffset col row < 2 ^ 31

/-- What follows the first byte is laid out from the cell that the coordinates amount to. -/
theorem kprintAt_rejected {col row : Int} (rejected : Rejected col row) {p : Nat}
    (cell : getOffset col row = 2 * p) {byte : UInt8} (here : byte ≠ 0) (bytes : List UInt8) (vga : Vga) :
    kprintAt (byte :: bytes ++ [0]) col row vga =
      printLoop (bytes ++ [0]) (p % 80 : Nat) (p / 80 : Nat) (flagged vga) := by
  rw [kprintAt, if_pos rejected.positive, List.cons_append, printLoop, if_neg here,
    printChar_rejected rejected.off, cell]
  simp only [getOffsetCol_cell, getOffsetRow_cell]

/-- Rejected coordinates leave only the red E exactly when no second byte is printed, or
when the cell they amount to lies below the screen as well. -/
theorem rejected_only_flags_iff (message : CString) (nonempty : message.bytes ≠ []) {col row : Int}
    (rejected : Rejected col row) :
    (∀ vga, ∃ final, kprintAt message.object col row vga = some final ∧ OnlyFlags vga final) ↔
      message.bytes.length = 1 ∨ 2000 ≤ row * 80 + col := by
  obtain ⟨bytes, nonzero⟩ := message
  obtain ⟨byte, bytes, rfl⟩ := List.exists_cons_of_ne_nil nonempty
  obtain ⟨p, cell⟩ := getOffset_nonneg rejected.positive
  have amount : row * 80 + col = p := by
    unfold getOffset maxCols at cell
    omega
  have here := nonzero byte List.mem_cons_self
  have later : ∀ other ∈ bytes, other ≠ 0 := fun other member =>
    nonzero other (List.mem_cons_of_mem byte member)
  simp only [CString.object, kprintAt_rejected rejected cell here, amount, List.length_cons]
  constructor
  · intro flags
    by_contra others
    have onScreen : p < 2000 := by omega
    have more : bytes ≠ [] := by
      rintro rfl
      exact others (Or.inl rfl)
    -- no byte of the string can leave the cursor where it stands here
    let vga : Vga := ⟨fun _ => 0, 0, 255, 255⟩
    obtain ⟨final, ran, only⟩ := flags vga
    obtain ⟨q, memory, small, moved⟩ := printLoop_moves later more onScreen (flagged vga)
    cases Option.some.inj (ran.symm.trans moved)
    have high : UInt8.ofNat (q / 256) = 255 := only.cursor.1
    have same := congrArg UInt8.toNat high
    rw [toNat_byte _ (by omega)] at same
    have := same.trans (show (255 : UInt8).toNat = 255 from rfl)
    omega
  · rintro (single | below) vga
    · have none : bytes = [] := List.length_eq_zero_iff.mp (by omega)
      subst none
      exact ⟨flagged vga, rfl, flagged_onlyFlags vga⟩
    · exact printLoop_below bytes later (by omega) (flagged_onlyFlags vga)

/-- Two bytes printed at the column after the last one. -/
def pastTheEdge : CString := ⟨[0x61, 0x62], by simp⟩

theorem rejected_only_flags_iff_pastTheEdge :
    (∀ vga, ∃ final, kprintAt pastTheEdge.object 80 0 vga = some final ∧ OnlyFlags vga final) ↔
      pastTheEdge.bytes.length = 1 ∨ 2000 ≤ (0 : Int) * 80 + 80 :=
  rejected_only_flags_iff pastTheEdge (by decide) ⟨by decide, by decide, by decide⟩

/-- The second byte appears at the start of the second line, and the cursor after it. -/
theorem rejected_prints :
    ∃ vga final, kprintAt pastTheEdge.object 80 0 vga = some final ∧ ¬ OnlyFlags vga final := by
  refine ⟨⟨fun _ => 0, 0, 0, 0⟩, _, rfl, ?_⟩
  intro only
  exact absurd only.cursor.2 (by decide)

end SzOS.KernelC.Screen
