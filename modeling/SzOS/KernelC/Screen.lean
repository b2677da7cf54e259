import Mathlib.Logic.Function.Basic
import SzOS.Libc.CString
import SzOS.Semantics.Copy
import SzOS.Semantics.Run

/-! The 80x25 text screen of kernel-c (drivers/screen.c, kernel/util.c).

Addresses count from VIDEO_ADDRESS. Every call finds its position in the two
cursor registers of the VGA; the theorem compares a sequence of calls with a
page of unlimited length on which their whole text is laid out.
-/

set_option autoImplicit false

namespace SzOS.KernelC.Screen
open Libc Semantics

def maxRows : Nat := 25
def maxCols : Nat := 80
def whiteOnBlack : UInt8 := 0x0f
def redOnWhite : UInt8 := 0xf4

abbrev newline : UInt8 := 0x0A

abbrev Memory := Int → UInt8

/-- Video memory, the register that REG_SCREEN_CTRL selects, and cursor registers 14 and 15. -/
structure Vga where
  vidmem : Memory
  index : UInt8
  cursorHigh : UInt8
  cursorLow : UInt8

inductive Register where
  | ctrl | data

def portByteOut (port : Register) (data : UInt8) (vga : Vga) : Vga :=
  match port with
  | .ctrl => { vga with index := data }
  | .data =>
    if vga.index = 14 then { vga with cursorHigh := data }
    else if vga.index = 15 then { vga with cursorLow := data }
    else vga

/-- REG_SCREEN_CTRL is only written. -/
def portByteIn (port : Register) (vga : Vga) : UInt8 :=
  match port with
  | .ctrl => vga.index
  | .data =>
    if vga.index = 14 then vga.cursorHigh else if vga.index = 15 then vga.cursorLow else 0

def getOffset (col row : Int) : Int := 2 * (row * maxCols + col)
def getOffsetRow (offset : Int) : Int := offset.tdiv (2 * maxCols)
def getOffsetCol (offset : Int) : Int := (offset - getOffsetRow offset * 2 * maxCols).tdiv 2

def getCursorOffset (vga : Vga) : Int × Vga :=
  let vga := portByteOut .ctrl 14 vga
  let offset : Int := (portByteIn .data vga).toNat <<< 8
  let vga := portByteOut .ctrl 15 vga
  let offset := offset + (portByteIn .data vga).toNat
  (offset * 2, vga)

def setCursorOffset (offset : Int) (vga : Vga) : Vga :=
  let offset := offset.tdiv 2
  let vga := portByteOut .ctrl 14 vga
  let vga := portByteOut .data (UInt8.ofInt (offset >>> (8 : Nat))) vga
  let vga := portByteOut .ctrl 15 vga
  portByteOut .data (UInt8.ofInt (offset % 256)) vga

def memoryCopy (source dest : Int) : Nat → Memory → Memory
  | 0, memory => memory
  | i + 1, memory =>
    let memory := memoryCopy source dest i memory
    Function.update memory (dest + i) (memory (source + i))

/-- The rows up to `i`, each copied to the row above it. -/
def copyRows : Nat → Memory → Memory
  | 0, memory => memory
  | i + 1, memory =>
    memoryCopy (getOffset 0 (i + 1)) (getOffset 0 i) (maxCols * 2) (copyRows i memory)

def blankLine (lastLine : Int) : Nat → Memory → Memory
  | 0, memory => memory
  | i + 1, memory => Function.update (blankLine lastLine i memory) (lastLine + i) 0

def scroll (memory : Memory) : Memory :=
  blankLine (getOffset 0 (maxRows - 1)) (maxCols * 2) (copyRows (maxRows - 1) memory)

/-- `print_char` from its test for a newline on. -/
def placeChar (c attr : UInt8) (offset : Int) (vga : Vga) : Int × Vga :=
  if c = newline then (getOffset 0 (getOffsetRow offset + 1), vga)
  else
    let vidmem := Function.update vga.vidmem offset c
    (offset + 2, { vga with vidmem := Function.update vidmem (offset + 1) attr })

def scrollAt (offset : Int) (vga : Vga) : Int × Vga :=
  if offset ≥ maxRows * maxCols * 2 then
    (offset - 2 * maxCols, { vga with vidmem := scroll vga.vidmem })
  else (offset, vga)

def printChar (c : UInt8) (col row : Int) (attr : UInt8) (vga : Vga) : Int × Vga :=
  let attr := if attr = 0 then whiteOnBlack else attr
  if col ≥ maxCols ∨ row ≥ maxRows then
    let vidmem := Function.update vga.vidmem (2 * maxCols * maxRows - 2) 'E'.toUInt8
    let vidmem := Function.update vidmem (2 * maxCols * maxRows - 1) redOnWhite
    (getOffset col row, { vga with vidmem })
  else
    let (offset, vga) := if col ≥ 0 ∧ row ≥ 0 then (getOffset col row, vga) else getCursorOffset vga
    let (offset, vga) := placeChar c attr offset vga
    let (offset, vga) := scrollAt offset vga
    (offset, setCursorOffset offset vga)

/-- The loop of `kprint_at`; a string without its terminator has no end. -/
def printLoop : List UInt8 → Int → Int → Vga → Option Vga
  | [], _, _, _ => none
  | byte :: message, col, row, vga =>
    if byte = 0 then some vga
    else
      let (offset, vga) := printChar byte col row whiteOnBlack vga
      printLoop message (getOffsetCol offset) (getOffsetRow offset) vga

def kprintAt (message : List UInt8) (col row : Int) (vga : Vga) : Option Vga :=
  if col ≥ 0 ∧ row ≥ 0 then printLoop message col row vga
  else
    let (offset, vga) := getCursorOffset vga
    printLoop message (getOffsetCol offset) (getOffsetRow offset) vga

def kprint (message : CString) (vga : Vga) : Option Vga := kprintAt message.object (-1) (-1) vga

def clearCells : Nat → Memory → Memory
  | 0, memory => memory
  | i + 1, memory =>
    let memory := clearCells i memory
    let memory := Function.update memory (i * 2) ' '.toUInt8
    Function.update memory (i * 2 + 1) whiteOnBlack

def clearScreen (vga : Vga) : Vga :=
  setCursorOffset (getOffset 0 0) { vga with vidmem := clearCells (maxCols * maxRows) vga.vidmem }

/-! ## The cursor registers -/

/-- The screen between two calls, with the cursor on cell `p`. -/
def vgaAt (p : Nat) (vidmem : Memory) : Vga := ⟨vidmem, 15, UInt8.ofNat (p / 256), UInt8.ofNat (p % 256)⟩

theorem getOffsetRow_cell (p : Nat) : getOffsetRow (2 * p) = (p / 80 : Nat) := by
  unfold getOffsetRow maxCols
  rw [Int.tdiv_eq_ediv_of_nonneg (by omega)]
  omega

theorem getOffsetCol_cell (p : Nat) : getOffsetCol (2 * p) = (p % 80 : Nat) := by
  unfold getOffsetCol
  rw [getOffsetRow_cell]
  unfold maxCols
  rw [Int.tdiv_eq_ediv_of_nonneg (by omega)]
  omega

theorem getOffset_cell (p : Nat) : getOffset (p % 80 : Nat) (p / 80 : Nat) = 2 * p := by
  unfold getOffset maxCols
  omega

theorem toNat_byte (n : Nat) (small : n < 256) : (UInt8.ofNat n).toNat = n := by
  rw [UInt8.toNat_ofNat']
  exact Nat.mod_eq_of_lt small

theorem getCursorOffset_vgaAt {p : Nat} (small : p < 65536) (vidmem : Memory) :
    getCursorOffset (vgaAt p vidmem) = (2 * (p : Int), vgaAt p vidmem) := by
  have read : getCursorOffset (vgaAt p vidmem) =
      (((UInt8.ofNat (p / 256)).toNat <<< 8 + ((UInt8.ofNat (p % 256)).toNat : Int)) * 2,
        vgaAt p vidmem) := rfl
  have shifted : ((p / 256) <<< 8 : Nat) = (p / 256) * 256 := Nat.shiftLeft_eq ..
  rw [read, toNat_byte (p / 256) (by omega), toNat_byte (p % 256) (by omega), shifted]
  congr 1
  omega

theorem ofInt_natCast (n : Nat) : UInt8.ofInt n = UInt8.ofNat n := by
  have residue : ((n : Int) % 2 ^ 8).toNat = n % 256 := by omega
  rw [UInt8.ofInt, residue]
  apply UInt8.toNat_inj.mp
  rw [UInt8.toNat_ofNat', UInt8.toNat_ofNat', Nat.mod_mod]

theorem setCursorOffset_cell (p : Nat) (vga : Vga) :
    setCursorOffset (2 * p) vga = vgaAt p vga.vidmem := by
  have half : (2 * p : Int).tdiv 2 = p := by
    rw [Int.tdiv_eq_ediv_of_nonneg (by omega)]
    omega
  have high : (p : Int) >>> (8 : Nat) = (p / 256 : Nat) := by
    rw [← Int.natCast_shiftRight, Nat.shiftRight_eq_div_pow]
  have low : (p : Int) % 256 = (p % 256 : Nat) := by omega
  have written : setCursorOffset (2 * p) vga =
      ⟨vga.vidmem, 15, UInt8.ofInt ((2 * p : Int).tdiv 2 >>> (8 : Nat)), UInt8.ofInt ((2 * p : Int).tdiv 2 % 256)⟩ := rfl
  rw [written, half, high, low, ofInt_natCast, ofInt_natCast, vgaAt]

/-! ## One byte and one string -/

/-- A byte printed at cell `p`: the next cell, which may lie below the screen, and the memory. -/
def typed (c : UInt8) (p : Nat) (vidmem : Memory) : Nat × Memory :=
  if c = newline then ((p / 80 + 1) * 80, vidmem)
  else (p + 1, Function.update (Function.update vidmem (2 * p) c) (2 * p + 1) whiteOnBlack)

def scrolled (p : Nat) (vidmem : Memory) : Nat × Memory :=
  if 2000 ≤ p then (p - 80, scroll vidmem) else (p, vidmem)

def put (shown : Nat × Memory) (c : UInt8) : Nat × Memory :=
  scrolled (typed c shown.1 shown.2).1 (typed c shown.1 shown.2).2

theorem typed_le {p : Nat} (small : p < 2000) (c : UInt8) (vidmem : Memory) :
    (typed c p vidmem).1 ≤ 2000 := by
  unfold typed
  split
  · show (p / 80 + 1) * 80 ≤ 2000
    omega
  · exact small

theorem put_small {shown : Nat × Memory} (small : shown.1 < 2000) (c : UInt8) :
    (put shown c).1 < 2000 := by
  have le := typed_le small c shown.2
  unfold put scrolled
  split <;> simp only <;> omega

theorem placeChar_cell (c : UInt8) (p : Nat) (vga : Vga) :
    placeChar c whiteOnBlack (2 * p) vga =
      (2 * ((typed c p vga.vidmem).1 : Int), { vga with vidmem := (typed c p vga.vidmem).2 }) := by
  unfold placeChar typed
  split
  · rw [getOffsetRow_cell]
    simp only [getOffset, maxCols]
    congr 1
  · congr 1

theorem scrollAt_cell (p : Nat) (vga : Vga) :
    scrollAt (2 * p) vga =
      (2 * ((scrolled p vga.vidmem).1 : Int), { vga with vidmem := (scrolled p vga.vidmem).2 }) := by
  unfold scrollAt scrolled maxRows maxCols
  by_cases full : 2000 ≤ p
  · rw [if_pos full, if_pos (by omega)]
    congr 1
    omega
  · rw [if_neg full, if_neg (by omega)]

theorem printChar_cell {p : Nat} (small : p < 2000) (c : UInt8) (vga : Vga) :
    printChar c (p % 80 : Nat) (p / 80 : Nat) whiteOnBlack vga =
      (2 * ((put (p, vga.vidmem) c).1 : Int),
        vgaAt (put (p, vga.vidmem) c).1 (put (p, vga.vidmem) c).2) := by
  have inside : ¬ (((p % 80 : Nat) : Int) ≥ maxCols ∨ ((p / 80 : Nat) : Int) ≥ maxRows) := by
    unfold maxCols maxRows
    omega
  have positive : ((p % 80 : Nat) : Int) ≥ 0 ∧ ((p / 80 : Nat) : Int) ≥ 0 := by omega
  have attr : (if whiteOnBlack = 0 then whiteOnBlack else whiteOnBlack) = whiteOnBlack := ite_self _
  unfold printChar
  simp only [attr, if_neg inside, if_pos positive, getOffset_cell, placeChar_cell, scrollAt_cell,
    setCursorOffset_cell, put]

theorem printLoop_cells (bytes : List UInt8) (nonzero : ∀ byte ∈ bytes, byte ≠ 0) {p : Nat}
    (small : p < 2000) (vidmem : Memory) :
    printLoop (bytes ++ [0]) (p % 80 : Nat) (p / 80 : Nat) (vgaAt p vidmem) =
      some (vgaAt (bytes.foldl put (p, vidmem)).1 (bytes.foldl put (p, vidmem)).2) := by
  induction bytes generalizing p vidmem with
  | nil => rfl
  | cons byte bytes ih =>
    have here := nonzero byte List.mem_cons_self
    have next : (put (p, vidmem) byte).1 < 2000 := put_small small byte
    rw [List.cons_append, printLoop, if_neg here, printChar_cell small]
    simp only [getOffsetCol_cell, getOffsetRow_cell, List.foldl_cons]
    exact ih (fun other member => nonzero other (List.mem_cons_of_mem byte member)) next _

theorem kprint_cells (message : CString) {p : Nat} (small : p < 2000) (vidmem : Memory) :
    kprint message (vgaAt p vidmem) =
      some (vgaAt (message.bytes.foldl put (p, vidmem)).1 (message.bytes.foldl put (p, vidmem)).2) := by
  have cursor := getCursorOffset_vgaAt (p := p) (by omega) vidmem
  have negative : ¬ ((-1 : Int) ≥ 0 ∧ (-1 : Int) ≥ 0) := by decide
  unfold kprint kprintAt
  rw [if_neg negative, cursor]
  simp only [getOffsetCol_cell, getOffsetRow_cell]
  exact printLoop_cells message.bytes message.nonzero small vidmem

theorem foldl_put_small (bytes : List UInt8) {shown : Nat × Memory} (small : shown.1 < 2000) :
    (bytes.foldl put shown).1 < 2000 := by
  induction bytes generalizing shown with
  | nil => exact small
  | cons byte bytes ih => exact ih (put_small small byte)

/-- Successive calls print the bytes of all their strings, wherever these are cut. -/
theorem kprints_cells (strings : List CString) {p : Nat} (small : p < 2000) (vidmem : Memory) :
    run (fun vga message => kprint message vga) (vgaAt p vidmem) strings =
      some (vgaAt ((strings.flatMap CString.bytes).foldl put (p, vidmem)).1
        ((strings.flatMap CString.bytes).foldl put (p, vidmem)).2) := by
  induction strings generalizing p vidmem with
  | nil => rfl
  | cons message strings ih =>
    rw [run_cons, kprint_cells message small, Option.bind_some, List.flatMap_cons, List.foldl_append]
    exact ih (foldl_put_small message.bytes small) _

/-! ## Scrolling -/

theorem memoryCopy_eq (memory : Memory) (source dest : Int) (count : Nat) :
    memoryCopy source dest count memory =
      copyCells (fun i : Nat => dest + i) (fun i => source + i) (List.range count) memory := by
  induction count with
  | zero => rfl
  | succ i ih => rw [memoryCopy, ih, List.range_succ, copyCells_snoc]

theorem memoryCopy_spec (memory : Memory) {source dest : Int} (down : dest ≤ source) (count : Nat)
    (address : Int) :
    memoryCopy source dest count memory address =
      if dest ≤ address ∧ address < dest + count then memory (source + (address - dest))
      else memory address := by
  rw [memoryCopy_eq]
  apply copyCells_block
  apply readFirst_range
  intro i j less _
  constructor <;> omega

theorem copyRows_spec (memory : Memory) (rows : Nat) (address : Int) :
    copyRows rows memory address =
      if 0 ≤ address ∧ address < 160 * rows then memory (address + 160) else memory address := by
  induction rows generalizing address with
  | zero => rw [copyRows, if_neg (by omega)]
  | succ i ih =>
    have source : getOffset 0 ((i : Int) + 1) = 160 * i + 160 := by
      unfold getOffset maxCols
      omega
    have dest : getOffset 0 (i : Int) = 160 * i := by
      unfold getOffset maxCols
      omega
    have width : ((maxCols * 2 : Nat) : Int) = 160 := rfl
    rw [copyRows, source, dest, memoryCopy_spec _ (by omega), width]
    by_cases here : 160 * (i : Int) ≤ address ∧ address < 160 * i + 160
    · rw [if_pos (by omega), ih, if_neg (by omega), if_pos (by omega)]
      congr 1
      omega
    · rw [if_neg (by omega), ih]
      split <;> split <;> first | rfl | omega

theorem blankLine_spec (memory : Memory) (lastLine : Int) (count : Nat) (address : Int) :
    blankLine lastLine count memory address =
      if lastLine ≤ address ∧ address < lastLine + count then 0 else memory address := by
  induction count generalizing address with
  | zero => rw [blankLine, if_neg (by omega)]
  | succ i ih =>
    rw [blankLine]
    by_cases last : address = lastLine + i
    · subst last
      rw [Function.update_self, if_pos (by omega)]
    · rw [Function.update_of_ne last, ih]
      split <;> split <;> first | rfl | omega

theorem scroll_spec (memory : Memory) (address : Int) :
    scroll memory address =
      if 0 ≤ address ∧ address < 3840 then memory (address + 160)
      else if 3840 ≤ address ∧ address < 4000 then 0 else memory address := by
  have bottom : getOffset 0 ((maxRows : Int) - 1) = 3840 := by decide
  have width : ((maxCols * 2 : Nat) : Int) = 160 := rfl
  have height : 160 * ((maxRows - 1 : Nat) : Int) = 3840 := rfl
  unfold scroll
  rw [bottom, blankLine_spec, copyRows_spec, width, height]
  by_cases last : 3840 ≤ address ∧ address < 4000
  · rw [if_pos (by omega), if_neg (by omega), if_pos last]
  · rw [if_neg (by omega), if_neg last]

theorem clearCells_spec (memory : Memory) (cells : Nat) {p : Nat} (inside : p < cells) :
    clearCells cells memory (2 * p) = ' '.toUInt8 ∧
      clearCells cells memory (2 * p + 1) = whiteOnBlack := by
  induction cells with
  | zero => omega
  | succ i ih =>
    simp only [clearCells]
    by_cases last : p = i
    · subst last
      rw [Function.update_of_ne (by omega), Int.mul_comm 2, Function.update_self, Function.update_self]
      exact ⟨rfl, rfl⟩
    · rw [Function.update_of_ne (by omega), Function.update_of_ne (by omega),
        Function.update_of_ne (by omega), Function.update_of_ne (by omega)]
      exact ih (by omega)

/-! ## The reference layout -/

/-- A page that never scrolls, and the place of its next byte. -/
structure Page where
  cells : Nat → Nat → Option UInt8
  line : Nat
  col : Nat

namespace Page

def blank : Page := ⟨fun _ _ => none, 0, 0⟩

def write (page : Page) (byte : UInt8) : Page :=
  if byte = newline then { page with line := page.line + 1, col := 0 }
  else
    let cells line col :=
      if line = page.line ∧ col = page.col then some byte else page.cells line col
    if page.col + 1 = 80 then ⟨cells, page.line + 1, 0⟩ else ⟨cells, page.line, page.col + 1⟩

def layout (text : List UInt8) : Page := text.foldl write blank

/-- The line at the top of the screen. -/
def top (page : Page) : Nat := page.line - 24

end Page

/-- A printed byte with its attribute, or a blank cell. -/
def ShowsCell (vidmem : Memory) (cell : Nat) : Option UInt8 → Prop
  | some byte => vidmem (2 * cell) = byte ∧ vidmem (2 * cell + 1) = whiteOnBlack
  | none => vidmem (2 * cell) = ' '.toUInt8 ∨ vidmem (2 * cell) = 0

/-- The screen shows 25 lines of the page, and the cursor stands where its next byte goes. -/
structure Displays (vga : Vga) (page : Page) : Prop where
  cells : ∀ row col, row < maxRows → col < maxCols →
    ShowsCell vga.vidmem (row * maxCols + col) (page.cells (page.top + row) col)
  cursor : vga.cursorHigh.toNat * 256 + vga.cursorLow.toNat =
    (page.line - page.top) * maxCols + page.col

/-! ## The screen as a window on the page -/

structure Window (top : Nat) (page : Page) (shown : Nat × Memory) : Prop where
  line : page.line = top + shown.1 / 80
  col : page.col = shown.1 % 80
  fresh : ∀ line col, page.line < line ∨ line = page.line ∧ page.col ≤ col →
    page.cells line col = none
  cells : ∀ row col, row < 25 → col < 80 →
    ShowsCell shown.2 (row * 80 + col) (page.cells (top + row) col)

variable {top : Nat} {page : Page} {shown : Nat × Memory}

theorem ShowsCell.congr {first second : Memory} {source target : Nat} {content : Option UInt8}
    (shows : ShowsCell first source content) (char : second (2 * target) = first (2 * source))
    (attr : second (2 * target + 1) = first (2 * source + 1)) : ShowsCell second target content := by
  cases content with
  | some byte => exact ⟨char.trans shows.1, attr.trans shows.2⟩
  | none => exact shows.imp char.trans char.trans

/-- The place after a character, in the window's own numbering. -/
theorem next_place {row : Nat} {place : Nat} (line : page.line = row + place / 80)
    (col : page.col = place % 80) (cells : Nat → Nat → Option UInt8) :
    (if page.col + 1 = 80 then (⟨cells, page.line + 1, 0⟩ : Page)
      else ⟨cells, page.line, page.col + 1⟩) =
      ⟨cells, row + (place + 1) / 80, (place + 1) % 80⟩ := by
  split
  next last =>
    have down : page.line + 1 = row + (place + 1) / 80 := by omega
    have left : 0 = (place + 1) % 80 := by omega
    rw [down, ← left]
  next inside =>
    have same : page.line = row + (place + 1) / 80 := by omega
    have right : page.col + 1 = (place + 1) % 80 := by omega
    rw [← same, right]

theorem typed_window (window : Window top page shown) (c : UInt8) :
    Window top (page.write c) (typed c shown.1 shown.2) := by
  obtain ⟨line, col, fresh, cells⟩ := window
  unfold Page.write typed
  by_cases breaks : c = newline
  · rw [if_pos breaks, if_pos breaks]
    refine ⟨?_, ?_, ?_, cells⟩
    · simp only [line]
      omega
    · simp
    · intro other column below
      apply fresh
      simp only at below
      omega
  · rw [if_neg breaks, if_neg breaks]
    rw [next_place line col]
    refine ⟨rfl, rfl, ?_, ?_⟩
    · intro other column below
      simp only at below ⊢
      rw [if_neg (by omega)]
      apply fresh
      omega
    · intro row column inside width
      have shows := cells row column inside width
      simp only
      by_cases here : top + row = page.line ∧ column = page.col
      · have cell : row * 80 + column = shown.1 := by omega
        rw [if_pos here, cell]
        exact ⟨by rw [Function.update_of_ne (by omega), Function.update_self], Function.update_self ..⟩
      · rw [if_neg here]
        apply shows.congr <;> rw [Function.update_of_ne (by omega), Function.update_of_ne (by omega)]

theorem scrolled_window (window : Window top page shown) (small : shown.1 ≤ 2000) :
    Window (if 2000 ≤ shown.1 then top + 1 else top) page (scrolled shown.1 shown.2) := by
  unfold scrolled
  by_cases full : 2000 ≤ shown.1
  · rw [if_pos full, if_pos full]
    obtain ⟨line, col, fresh, cells⟩ := window
    refine ⟨?_, ?_, fresh, ?_⟩
    · simp only
      omega
    · simp only
      omega
    · intro row column inside width
      simp only
      by_cases last : row = 24
      · have blank : page.cells (top + 1 + row) column = none := by
          apply fresh
          omega
        rw [blank]
        refine Or.inr ?_
        rw [scroll_spec, if_neg (by omega), if_pos (by omega)]
      -- every other row takes the place of the row above it
      · have shows := cells (row + 1) column (by omega) width
        have same : top + (row + 1) = top + 1 + row := by omega
        have above : 2 * ((row * 80 + column : Nat) : Int) + 160 =
            2 * (((row + 1) * 80 + column : Nat) : Int) := by omega
        rw [same] at shows
        apply shows.congr
        · rw [scroll_spec, if_pos (by omega), above]
        · rw [scroll_spec, if_pos (by omega), Int.add_right_comm, above]
  · rw [if_neg full, if_neg full]
    exact window

theorem typed_ge (c : UInt8) (p : Nat) (vidmem : Memory) : p ≤ (typed c p vidmem).1 := by
  unfold typed
  split
  · show p ≤ (p / 80 + 1) * 80
    omega
  · exact Nat.le_succ p

theorem put_window (window : Window page.top page shown) (small : shown.1 < 2000) (c : UInt8) :
    Window (page.write c).top (page.write c) (put shown c) := by
  have line := window.line
  have typedWindow := typed_window window c
  have le := typed_le small c shown.2
  have ge := typed_ge c shown.1 shown.2
  have next := typedWindow.line
  have moved : (if 2000 ≤ (typed c shown.1 shown.2).1 then page.top + 1 else page.top) =
      (page.write c).top := by
    unfold Page.top at *
    split <;> omega
  rw [← moved]
  exact scrolled_window typedWindow le

theorem foldl_window (text : List UInt8) (window : Window page.top page shown)
    (small : shown.1 < 2000) :
    Window (text.foldl Page.write page).top (text.foldl Page.write page) (text.foldl put shown) := by
  induction text generalizing page shown with
  | nil => exact window
  | cons byte text ih => exact ih (put_window window small byte) (put_small small byte)

theorem Window.displays (window : Window page.top page shown) (small : shown.1 < 2000) :
    Displays (vgaAt shown.1 shown.2) page where
  cells := window.cells
  cursor := by
    have line := window.line
    have col := window.col
    have high := toNat_byte (shown.1 / 256) (by omega)
    have low := toNat_byte (shown.1 % 256) (by omega)
    simp only [vgaAt, high, low, maxCols, Page.top] at *
    omega

theorem clearScreen_eq (vga : Vga) : clearScreen vga = vgaAt 0 (clearCells 2000 vga.vidmem) := by
  have home : getOffset 0 0 = 2 * ((0 : Nat) : Int) := by decide
  rw [clearScreen, home, setCursorOffset_cell]
  rfl

theorem cleared_window (memory : Memory) :
    Window Page.blank.top Page.blank (0, clearCells 2000 memory) where
  line := by simp [Page.top, Page.blank]
  col := by simp [Page.blank]
  fresh := fun _ _ _ => rfl
  cells := by
    intro row col inside width
    exact Or.inl (clearCells_spec memory 2000 (by omega)).1

/-- Every list of strings is shown as the last 25 lines of its layout, however the text is cut. -/
theorem kprint_displays (vga : Vga) (strings : List CString) :
    ∃ final, run (fun vga message => kprint message vga) (clearScreen vga) strings = some final ∧
      Displays final (Page.layout (strings.flatMap CString.bytes)) ∧
      ∀ other : List CString, other.flatMap CString.bytes = strings.flatMap CString.bytes →
        run (fun vga message => kprint message vga) (clearScreen vga) other = some final := by
  have home : 0 < 2000 := by decide
  have window := foldl_window (strings.flatMap CString.bytes) (cleared_window vga.vidmem) home
  rw [clearScreen_eq]
  refine ⟨_, kprints_cells strings home _, window.displays (foldl_put_small _ home), ?_⟩
  intro other same
  rw [kprints_cells other home, same]

end SzOS.KernelC.Screen
