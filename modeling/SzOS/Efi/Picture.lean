import Mathlib.Data.Nat.Digits.Defs
import SzOS.Efi.MainLoop
import SzOS.Semantics.Copy
import SzOS.Semantics.Layers

/-! What a frame of the EFI kernel shows on the screen, pixel by pixel.

A frame clears the back buffer, draws the logo, the box, the cursor and the ticks
over one another and copies the buffer to the screen, so nothing of an earlier
frame is seen. The picture depends on the places, the ticks and the box's colour.
-/

set_option autoImplicit false

namespace SzOS.Efi
open Semantics Hardware

/-! ## The picture -/

/-- The screens and buffers that a picture is promised for. -/
structure Display.Shows (d : Display) : Prop where
  wide : 110 ≤ d.width.toNat
  tall : 60 ≤ d.height.toNat
  stride : d.width.toNat ≤ d.pixelsPerLine.toNat
  small : d.extent * 4 < 2 ^ 31
  logoWidth : 40 + d.gimpImage.width.toNat ≤ d.width.toNat
  logoHeight : 50 + d.gimpImage.height.toNat ≤ d.height.toNat
  apart : d.framebuffer + d.extent ≤ d.bufferRasc ∨ d.bufferRasc + d.extent ≤ d.framebuffer

/-- Where things are in a frame, and how many ticks have passed. -/
structure Places where
  boxX : Int
  boxY : Int
  mouseX : Int
  mouseY : Int
  ticks : Nat
  deriving DecidableEq

structure Scene where
  places : Places
  boxColor : BitVec 32

structure Places.Fits (places : Places) (d : Display) : Prop where
  boxX : 0 ≤ places.boxX ∧ places.boxX + 60 ≤ d.width.toNat
  boxY : 0 ≤ places.boxY ∧ places.boxY + 60 ≤ d.height.toNat
  mouseX : 0 ≤ places.mouseX ∧ places.mouseX ≤ (d.width.toNat : Int) - 8
  mouseY : 0 ≤ places.mouseY ∧ places.mouseY ≤ (d.height.toNat : Int) - 8
  ticks : places.ticks < 2 ^ 32

/-- The square or rectangle at a place covers a pixel. -/
def Covers (left top : Int) (wide high x y : Nat) : Prop :=
  left ≤ x ∧ x < left + wide ∧ top ≤ y ∧ y < top + high

instance (left top : Int) (wide high x y : Nat) : Decidable (Covers left top wide high x y) :=
  inferInstanceAs (Decidable (_ ∧ _))

/-- The decimal digits of a number, the highest first. -/
def numeral (n : Nat) : List Nat := if n = 0 then [0] else (Nat.digits 10 n).reverse

def glyph (digit row : Nat) : BitVec 8 := (fontDigits.getD digit []).getD row 0

/-- A pixel of digits written from a place on, nine columns each, highest bit leftmost. -/
def digitLit (digits : List Nat) (left top x y : Nat) : Bool :=
  left ≤ x && top ≤ y && y < top + 8 && (x - left) % 9 < 8 &&
    match digits[(x - left) / 9]? with
    | some digit => (glyph digit (y - top)).getLsbD (7 - (x - left) % 9)
    | none => false

/-- The topmost layer at a pixel of the screen. -/
def picture (d : Display) (scene : Scene) (x y : Nat) : BitVec 32 :=
  if digitLit (numeral scene.places.ticks) 10 10 x y then 0x00FFFFFF
  else if Covers scene.places.mouseX scene.places.mouseY 8 8 x y then 0x00FFFFFF
  else if Covers scene.places.boxX scene.places.boxY 60 60 x y then scene.boxColor
  else if Covers 40 50 d.gimpImage.width.toNat d.gimpImage.height.toNat x y then
    d.gimpImage.color (BitVec.ofNat 32 (x - 40)) (BitVec.ofNat 32 (y - 50))
  else 0x00000000

/-! ## A frame's scene and what is on the screen after its copy -/

def Unpaused (d : Display) (f : FrameState) (p : Pending) : Prop := (enterFrame d f p).2.paused = 0

def sceneOf (d : Display) (f : FrameState) (p : Pending) : Scene :=
  let (shared, a) := enterFrame d f p
  let (mouseX, mouseY, shared) := readCursor shared p
  let shared := shared.serveAll p.ticks
  { places :=
      { boxX := a.x.toInt, boxY := a.y.toInt, mouseX := mouseX.toInt, mouseY := mouseY.toInt
        ticks := shared.globals.ticks.toNat }
    boxColor := listColors.getD a.indexAtualColor 0 }

/-- The memory after the copy of a frame that draws, before its wait. -/
def drawnMemory (d : Display) (f : FrameState) (p : Pending) : Pixels :=
  copyMemory d.framebuffer d.bufferRasc d.sizeBuffer (d.globals.paint (frameStores d f p) f.memory)

theorem frame_memory {d : Display} {f next : FrameState} {p : Pending} (unpaused : Unpaused d f p)
    (drawn : frame d f p = some next) : next.memory = drawnMemory d f p := by
  have running : (enterFrame d f p).2.paused = 0 := unpaused
  unfold frame at drawn
  dsimp only at drawn
  rw [if_pos running] at drawn
  obtain ⟨shared, _, same⟩ := Option.bind_eq_some_iff.mp drawn
  cases same
  unfold drawnMemory frameStores
  dsimp only
  rw [if_pos running]

def spot (d : Display) (base : Address) (x y : Nat) : Address :=
  base + ((y * d.pixelsPerLine.toNat + x : Nat) : Int)

def onScreen (d : Display) (memory : Pixels) (x y : Nat) : BitVec 32 := memory (spot d d.framebuffer x y)

/-! ## Each drawing as a layer -/

section Layers

variable {d : Display}

theorem Display.Shows.suits (shows : d.Shows) : d.Suits :=
  ⟨Nat.le_trans (by decide) shows.wide, shows.tall, shows.stride, shows.logoWidth, shows.logoHeight⟩

def Display.target (d : Display) (store : PixelStore) : Address := d.bufferRasc + store.index

/-- What a drawing into the back buffer shows at a pixel. -/
def layer (d : Display) (stores : List PixelStore) (x y : Nat) : Option (BitVec 32) :=
  shown d.target PixelStore.color stores (spot d d.bufferRasc x y)

theorem layer_append (d : Display) (first second : List PixelStore) (x y : Nat) :
    layer d (first ++ second) x y = (layer d second x y).or (layer d first x y) :=
  shown_append _ _ first second _

theorem paint_layer (d : Display) (stores : List PixelStore) (memory : Pixels) (x y : Nat) :
    d.globals.paint stores memory (spot d d.bufferRasc x y) =
      (layer d stores x y).getD (memory (spot d d.bufferRasc x y)) :=
  storeAll_cell d.target PixelStore.color stores memory _

theorem spot_apart (d : Display) (base : Address) :
    ∀ x < d.pixelsPerLine.toNat, ∀ x' < d.pixelsPerLine.toNat, ∀ y y',
      spot d base x y = spot d base x' y' → x = x' ∧ y = y' := by
  intro x inside x' inside' y y' same
  have cells := Int.ofNat_inj.mp (Int.add_left_cancel same)
  exact (rowMajor_injective inside inside' cells).symm

/-- The index of a line's first pixel does not wrap. -/
theorem line_index (shows : d.Shows) {y : BitVec 32} (inRow : y.toNat < d.height.toNat) :
    (y * d.pixelsPerLine).toNat = y.toNat * d.pixelsPerLine.toNat := by
  have stride := shows.stride
  have wide := shows.wide
  have below := shows.suits.row_inside inRow (show 0 < d.pixelsPerLine.toNat by omega)
  have small := shows.small
  rw [BitVec.toNat_mul]
  exact Nat.mod_eq_of_lt (by omega)

/-- A pixel drawn on the screen goes to its own cell. -/
theorem drawPixel_spot (shows : d.Shows) (framebuffer : Address) {x y : BitVec 32}
    (inColumn : x.toNat < d.width.toNat) (inRow : y.toNat < d.height.toNat) (color : BitVec 32) :
    d.target (drawPixel framebuffer x y d.pixelsPerLine color) =
      spot d d.bufferRasc x.toNat y.toNat := by
  have below := shows.suits.row_inside inRow (Nat.lt_of_lt_of_le inColumn shows.stride)
  have small := shows.small
  have column : x.toInt = x.toNat := BitVec.toInt_eq_toNat_of_lt (by omega)
  show d.bufferRasc + (((y * d.pixelsPerLine).toNat : Int) + x.toInt) = _
  rw [line_index shows inRow, column]
  rfl

/-- A rectangle of lit pixels on the screen. -/
theorem layer_scan (shows : d.Shows) {rows cols left top : Nat} {lit : Nat → Nat → Bool}
    {store : Nat → Nat → PixelStore}
    (placed : ∀ row < rows, ∀ col < cols,
      d.target (store row col) = spot d d.bufferRasc (left + col) (top + row))
    (fits : left + cols ≤ d.width.toNat) {x y : Nat} (inside : x < d.width.toNat) :
    layer d (scan rows cols lit store) x y =
      if left ≤ x ∧ x < left + cols ∧ top ≤ y ∧ y < top + rows ∧ lit (y - top) (x - left) = true then
        some (store (y - top) (x - left)).color else none :=
  shown_scan (spot_apart d d.bufferRasc) placed (Nat.le_trans fits shows.stride)
    (Nat.lt_of_lt_of_le inside shows.stride)

/-- The pixels of a rectangle of words, while it stays on the screen. -/
theorem rectangle_placed (shows : d.Shows) (framebuffer : Address) (color : BitVec 32) {x y : BitVec 32}
    {rows cols : Nat} (columns : x.toNat + cols ≤ d.width.toNat) (lines : y.toNat + rows ≤ d.height.toNat) :
    ∀ row < rows, ∀ col < cols,
      d.target (drawPixel framebuffer (x + BitVec.ofNat 32 col) (y + BitVec.ofNat 32 row)
        d.pixelsPerLine color) = spot d d.bufferRasc (x.toNat + col) (y.toNat + row) := by
  intro row inRow col inColumn
  have widthBound := d.width.isLt
  have heightBound := d.height.isLt
  have column := toNat_add_small x (by omega) inColumn
  have line := toNat_add_small y (by omega) inRow
  rw [drawPixel_spot shows framebuffer (by omega) (by omega), column, line]

theorem clear_layer (shows : d.Shows) {x y : Nat} (inColumn : x < d.width.toNat)
    (inRow : y < d.height.toNat) : layer d (clearBuffer d) x y = some 0 := by
  have placed : ∀ row < d.height.toNat, ∀ col < d.width.toNat,
      d.target (drawPixel d.framebuffer (BitVec.ofNat 32 col) (BitVec.ofNat 32 row) d.pixelsPerLine 0) =
        spot d d.bufferRasc (0 + col) (0 + row) := by
    intro row below col left
    have line : (BitVec.ofNat 32 row).toNat = row := Nat.mod_eq_of_lt (Nat.lt_trans below d.height.isLt)
    have column : (BitVec.ofNat 32 col).toNat = col := Nat.mod_eq_of_lt (Nat.lt_trans left d.width.isLt)
    rw [drawPixel_spot shows d.framebuffer (by omega) (by omega), line, column, Nat.zero_add, Nat.zero_add]
  unfold clearBuffer
  rw [← scan_all, layer_scan shows placed (by omega) inColumn]
  exact if_pos ⟨by omega, by omega, by omega, by omega, rfl⟩

theorem box_layer (shows : d.Shows) (g : GraphicsGlobals) (framebuffer : Address)
    {left top size : BitVec 32} {wide : Nat} (square : size.toInt.toNat = wide)
    (columns : 0 ≤ left.toInt ∧ left.toInt + wide ≤ d.width.toNat)
    (lines : 0 ≤ top.toInt ∧ top.toInt + wide ≤ d.height.toNat) (color : BitVec 32) {x y : Nat}
    (inColumn : x < d.width.toNat) :
    layer d (drawBox g framebuffer left top size d.pixelsPerLine color) x y =
      if Covers left.toInt top.toInt wide wide x y then some color else none := by
  have leftNat := toInt_of_nonneg columns.1
  have topNat := toInt_of_nonneg lines.1
  have fits : left.toNat + wide ≤ d.width.toNat := by omega
  have rows : top.toNat + wide ≤ d.height.toNat := by omega
  unfold drawBox
  rw [square, ← scan_all, layer_scan shows (rectangle_placed shows g.framebuffer color fits rows) fits inColumn]
  apply if_congr
  · simp only [Covers, and_true]
    omega
  · rfl
  · rfl

/-- The logo's pixels; its index is computed in words alone. -/
theorem logo_placed (shows : d.Shows) :
    ∀ row < d.gimpImage.height.toNat, ∀ col < d.gimpImage.width.toNat,
      d.target
        { index := ((50 + BitVec.ofNat 32 row) * d.pixelsPerLine + (40 + BitVec.ofNat 32 col)).toNat
          color := d.gimpImage.color (BitVec.ofNat 32 col) (BitVec.ofNat 32 row) } =
        spot d d.bufferRasc (40 + col) (50 + row) := by
  intro row inRow col inColumn
  have width := shows.logoWidth
  have height := shows.logoHeight
  have widthBound := d.width.isLt
  have heightBound := d.height.isLt
  have stride := shows.stride
  have line : (50 + BitVec.ofNat 32 row : BitVec 32).toNat = 50 + row :=
    toNat_add_small 50 (show 50 + d.gimpImage.height.toNat ≤ 2 ^ 32 by omega) inRow
  have column : (40 + BitVec.ofNat 32 col : BitVec 32).toNat = 40 + col :=
    toNat_add_small 40 (show 40 + d.gimpImage.width.toNat ≤ 2 ^ 32 by omega) inColumn
  have below := shows.suits.row_inside (show 50 + row < d.height.toNat by omega)
    (show 40 + col < d.pixelsPerLine.toNat by omega)
  have small := shows.small
  have index : ((50 + BitVec.ofNat 32 row) * d.pixelsPerLine + (40 + BitVec.ofNat 32 col)).toNat =
      (50 + row) * d.pixelsPerLine.toNat + (40 + col) := by
    rw [BitVec.toNat_add, line_index shows (by omega), line, column]
    exact Nat.mod_eq_of_lt (by omega)
  show d.bufferRasc + _ = _
  rw [index]
  rfl

theorem logo_layer (shows : d.Shows) (framebuffer : Address) {x y : Nat}
    (inColumn : x < d.width.toNat) :
    layer d (drawGimpImage d.gimpImage framebuffer 40 50 d.pixelsPerLine) x y =
      if Covers 40 50 d.gimpImage.width.toNat d.gimpImage.height.toNat x y then
        some (d.gimpImage.color (BitVec.ofNat 32 (x - 40)) (BitVec.ofNat 32 (y - 50))) else none := by
  unfold drawGimpImage
  dsimp only
  rw [← scan_all, layer_scan shows (logo_placed shows) shows.logoWidth inColumn]
  apply if_congr
  · simp only [Covers, and_true]
    omega
  · rfl
  · rfl

/-! ## Digits -/

theorem glyph_bit : ∀ (bits : BitVec 8) (col : Fin 8),
    decide (bits &&& (0x80 >>> col.val) ≠ 0) = bits.getLsbD (7 - col.val) := by
  decide +kernel

def digitChar (digit : Nat) : BitVec 8 := digitZero + BitVec.ofNat 8 digit

theorem digitChar_range : ∀ digit < 10,
    ((digitChar digit).slt digitZero || digitNine.slt (digitChar digit)) = false ∧
      (digitChar digit - digitZero).toNat = digit := by
  decide

/-- A digit is drawn by scanning its glyph. -/
theorem drawChar_scan (g : GraphicsGlobals) {digit : Nat} (decimal : digit < 10) (left top color : BitVec 32) :
    drawChar g (digitChar digit) left top color =
      scan 8 8 (fun row col => decide (glyph digit row &&& (0x80 >>> col) ≠ 0)) fun row col =>
        drawPixel g.framebuffer (left + BitVec.ofNat 32 col) (top + BitVec.ofNat 32 row)
          g.pixelsPerLine color := by
  obtain ⟨isDigit, index⟩ := digitChar_range digit decimal
  unfold drawChar
  rw [isDigit, index]
  rfl

/-- A character at a place shows the bits of its glyph. -/
theorem char_layer (shows : d.Shows) {digit : Nat} (decimal : digit < 10) {left top : BitVec 32}
    (columns : left.toNat + 8 ≤ d.width.toNat) (lines : top.toNat + 8 ≤ d.height.toNat)
    (color : BitVec 32) {x y : Nat} (inColumn : x < d.width.toNat) :
    layer d (drawChar d.globals (digitChar digit) left top color) x y =
      if left.toNat ≤ x ∧ x < left.toNat + 8 ∧ top.toNat ≤ y ∧ y < top.toNat + 8 ∧
        (glyph digit (y - top.toNat)).getLsbD (7 - (x - left.toNat)) = true then some color else none := by
  have scanned : drawChar d.globals (digitChar digit) left top color =
      scan 8 8 _ fun row col => drawPixel d.framebuffer (left + BitVec.ofNat 32 col)
        (top + BitVec.ofNat 32 row) d.pixelsPerLine color :=
    drawChar_scan d.globals decimal left top color
  rw [scanned, layer_scan shows (rectangle_placed shows d.framebuffer color columns lines) columns inColumn]
  apply if_congr
  · constructor
    · rintro ⟨fromLeft, toRight, fromTop, toBottom, on⟩
      have bit := glyph_bit (glyph digit (y - top.toNat)) ⟨x - left.toNat, by omega⟩
      exact ⟨fromLeft, toRight, fromTop, toBottom, bit.symm.trans on⟩
    · rintro ⟨fromLeft, toRight, fromTop, toBottom, on⟩
      have bit := glyph_bit (glyph digit (y - top.toNat)) ⟨x - left.toNat, by omega⟩
      exact ⟨fromLeft, toRight, fromTop, toBottom, bit.trans on⟩
  · rfl
  · rfl

/-- Digits written from a place on are the first digit and the rest nine columns further. -/
theorem digitLit_cons (digit : Nat) (rest : List Nat) (left top x y : Nat) :
    digitLit (digit :: rest) left top x y = true ↔ digitLit rest (left + 9) top x y = true ∨
      (left ≤ x ∧ x < left + 8 ∧ top ≤ y ∧ y < top + 8 ∧
        (glyph digit (y - top)).getLsbD (7 - (x - left)) = true) := by
  simp only [digitLit, Bool.and_eq_true, decide_eq_true_eq]
  by_cases near : x < left + 9
  · have notRest : ¬ left + 9 ≤ x := by omega
    have position : (x - left) / 9 = 0 := by omega
    have column : (x - left) % 9 = x - left := by omega
    rw [position, column, List.getElem?_cons_zero]
    constructor
    · rintro ⟨⟨⟨⟨fromLeft, fromTop⟩, toBottom⟩, toRight⟩, on⟩
      exact Or.inr ⟨fromLeft, by omega, fromTop, toBottom, on⟩
    · rintro (⟨⟨⟨⟨further, _⟩, _⟩, _⟩, _⟩ | ⟨fromLeft, toRight, fromTop, toBottom, on⟩)
      · exact absurd further notRest
      · exact ⟨⟨⟨⟨fromLeft, fromTop⟩, toBottom⟩, by omega⟩, on⟩
  · have position : (x - left) / 9 = (x - (left + 9)) / 9 + 1 := by omega
    have column : (x - left) % 9 = (x - (left + 9)) % 9 := by omega
    rw [position, column, List.getElem?_cons_succ]
    constructor
    · rintro ⟨⟨⟨⟨_, fromTop⟩, toBottom⟩, toRight⟩, on⟩
      exact Or.inl ⟨⟨⟨⟨by omega, fromTop⟩, toBottom⟩, toRight⟩, on⟩
    · rintro (⟨⟨⟨⟨_, fromTop⟩, toBottom⟩, toRight⟩, on⟩ | ⟨_, toRight, _⟩)
      · exact ⟨⟨⟨⟨by omega, fromTop⟩, toBottom⟩, toRight⟩, on⟩
      · omega

theorem digits_layer (shows : d.Shows) {digits : List Nat} (decimal : ∀ digit ∈ digits, digit < 10)
    {left top : BitVec 32} (columns : left.toNat + 9 * digits.length ≤ d.width.toNat)
    (lines : top.toNat + 8 ≤ d.height.toNat) (color : BitVec 32) {x y : Nat}
    (inColumn : x < d.width.toNat) :
    layer d (drawDigits d.globals (digits.map digitChar) left top color) x y =
      if digitLit digits left.toNat top.toNat x y = true then some color else none := by
  induction digits generalizing left with
  | nil =>
    have dark : digitLit [] left.toNat top.toNat x y = false := by simp [digitLit]
    rw [dark]
    rfl
  | cons digit rest ih =>
    obtain ⟨first, later⟩ := List.forall_mem_cons.mp decimal
    rw [List.length_cons] at columns
    have widthBound := d.width.isLt
    have moved : (left + 9).toNat = left.toNat + 9 :=
      toNat_add_small left (show left.toNat + 10 ≤ 2 ^ 32 by omega) (show 9 < 10 by decide)
    have further : layer d (drawDigits d.globals (rest.map digitChar) (left + 9) top color) x y = _ :=
      ih later (by rw [moved]; omega)
    rw [List.map_cons, drawDigits, layer_append, further,
      char_layer shows first (by omega) lines color inColumn, moved]
    have split := digitLit_cons digit rest left.toNat top.toNat x y
    by_cases inRest : digitLit rest (left.toNat + 9) top.toNat x y = true
    · rw [if_pos inRest, if_pos (split.mpr (Or.inl inRest))]
      rfl
    · rw [if_neg inRest, Option.none_or]
      exact if_congr (by rw [split, or_iff_right inRest]) rfl rfl

/-- The digits that the code extracts are the decimal digits, the lowest first. -/
theorem extractDigits_eq (value : BitVec 32) :
    extractDigits value = (Nat.digits 10 value.toNat).map digitChar := by
  induction value using extractDigits.induct with
  | case1 =>
    rw [extractDigits, if_pos rfl]
    rfl
  | case2 value nonzero ih =>
    have positive : 0 < value.toNat := BitVec.toNat_pos_of_ne_zero nonzero
    have ten : (10 : BitVec 32).toNat = 10 := rfl
    have digit : (value % 10).setWidth 8 = BitVec.ofNat 8 (value.toNat % 10) := by
      apply BitVec.eq_of_toNat_eq
      rw [BitVec.toNat_setWidth, BitVec.toNat_umod, ten, BitVec.toNat_ofNat]
    rw [extractDigits, if_neg nonzero, ih, Nat.digits_def' (by decide) positive, BitVec.toNat_udiv, ten,
      digit, List.map_cons]
    rfl

theorem drawNumber_eq (g : GraphicsGlobals) (value x y color : BitVec 32) :
    drawNumber g value x y color = drawDigits g ((numeral value.toNat).map digitChar) x y color := by
  unfold drawNumber numeral
  by_cases zero : value = 0
  · subst zero
    rfl
  · have nonzero : value.toNat ≠ 0 := (BitVec.toNat_pos_of_ne_zero zero).ne'
    rw [if_neg zero, if_neg nonzero, extractDigits_eq, List.map_reverse]

theorem numeral_decimal (n : Nat) : ∀ digit ∈ numeral n, digit < 10 := by
  unfold numeral
  split
  next => simp
  next =>
    intro digit member
    exact Nat.digits_lt_base (by decide) (List.mem_reverse.mp member)

theorem numeral_length (value : BitVec 32) : (numeral value.toNat).length ≤ 10 := by
  unfold numeral
  split
  next => decide
  next =>
    have ten := extractDigits_length (Nat.lt_of_lt_of_le value.isLt (show 2 ^ 32 ≤ 10 ^ 10 by decide))
    rw [extractDigits_eq, List.length_map] at ten
    rwa [List.length_reverse]

theorem number_layer (shows : d.Shows) (value color : BitVec 32) {x y : Nat}
    (inColumn : x < d.width.toNat) :
    layer d (drawNumber d.globals value 10 10 color) x y =
      if digitLit (numeral value.toNat) 10 10 x y = true then some color else none := by
  have wide := shows.wide
  have tall := shows.tall
  have length := numeral_length value
  have ten : (10 : BitVec 32).toNat = 10 := rfl
  rw [drawNumber_eq]
  exact digits_layer shows (numeral_decimal value.toNat) (by omega) (by omega) color inColumn

/-! ## The copy -/

theorem copyMemory_eq (destiny origem : Int) (manyBytes : BitVec 32) (memory : Pixels) :
    copyMemory destiny origem manyBytes memory = copyCells (fun i : Nat => destiny + i) (fun i => origem + i)
      (List.range (manyBytes / 4).toNat) memory := by
  unfold copyMemory copyCells
  simp only [List.bind_eq_flatMap, List.pure_def, ← List.map_eq_flatMap, List.foldl_map]

theorem copyMemory_cell {destiny origem : Int} {manyBytes : BitVec 32} (memory : Pixels) {i : Nat}
    (inside : i < (manyBytes / 4).toNat)
    (apart : destiny + (manyBytes / 4).toNat ≤ origem ∨ origem + (manyBytes / 4).toNat ≤ destiny) :
    copyMemory destiny origem manyBytes memory (destiny + i) = memory (origem + i) := by
  rw [copyMemory_eq]
  apply copyCells_placed _ (List.mem_range.mpr inside)
  apply readFirst_range
  intro j k less below
  constructor <;> omega

theorem sizeBuffer_pixels (shows : d.Shows) : (d.sizeBuffer / 4).toNat = d.extent := by
  have small := shows.small
  have tall := shows.tall
  have four : (4 : BitVec 32).toNat = 4 := rfl
  have grouped : d.height.toNat * (d.pixelsPerLine.toNat * 4) = d.extent * 4 := (Nat.mul_assoc _ _ _).symm
  -- one line of the screen is no larger than all of them
  have line : d.pixelsPerLine.toNat * 4 ≤ d.height.toNat * (d.pixelsPerLine.toNat * 4) :=
    Nat.le_mul_of_pos_left _ (by omega)
  unfold Display.sizeBuffer
  rw [BitVec.toNat_udiv, BitVec.toNat_mul, BitVec.toNat_mul, four,
    Nat.mod_eq_of_lt (show d.pixelsPerLine.toNat * 4 < 2 ^ 32 by omega), grouped,
    Nat.mod_eq_of_lt (by omega), Nat.mul_div_cancel _ (by decide)]

/-! ## The frame -/

/-- Four layers over a ground, as options and as one choice. -/
theorem topmost_eq {V : Type} (first second third fourth : Prop) [Decidable first] [Decidable second]
    [Decidable third] [Decidable fourth] {v₁ v₂ v₃ v₄ ground : V} :
    (((((if first then some v₁ else none).or (if second then some v₂ else none)).or
      (if third then some v₃ else none)).or (if fourth then some v₄ else none)).or (some ground)) =
      some (if first then v₁ else if second then v₂ else if third then v₃ else if fourth then v₄
        else ground) := by
  by_cases covered : first
  · simp [covered]
  by_cases covered₂ : second
  · simp [covered, covered₂]
  by_cases covered₃ : third
  · simp [covered, covered₂, covered₃]
  by_cases covered₄ : fourth <;> simp [covered, covered₂, covered₃, covered₄]

theorem frame_layer (shows : d.Shows) {f : FrameState} {p : Pending} (unpaused : Unpaused d f p)
    (fits : (sceneOf d f p).places.Fits d) {x y : Nat} (inColumn : x < d.width.toNat)
    (inRow : y < d.height.toNat) :
    layer d (frameStores d f p) x y = some (picture d (sceneOf d f p) x y) := by
  have running : (enterFrame d f p).2.paused = 0 := unpaused
  unfold sceneOf at fits ⊢
  unfold frameStores
  dsimp only at fits ⊢
  rw [if_pos running]
  generalize enterFrame d f p = entered at fits
  obtain ⟨shared, a⟩ := entered
  unfold drawFrame
  generalize readCursor shared p = cursor at fits
  obtain ⟨mouseX, mouseY, moved⟩ := cursor
  dsimp only at fits ⊢
  obtain ⟨boxX, boxY, cursorX, cursorY, ticks⟩ := fits
  dsimp only at boxX boxY cursorX cursorY ticks
  have sixty : boxSize.toInt.toNat = 60 := by decide
  have eight : (8 : BitVec 32).toInt.toNat = 8 := by decide
  have value : ((moved.serveAll p.ticks).globals.ticks.setWidth 32).toNat =
      (moved.serveAll p.ticks).globals.ticks.toNat := by
    rw [BitVec.toNat_setWidth]
    exact Nat.mod_eq_of_lt ticks
  rw [layer_append, layer_append, layer_append, layer_append, clear_layer shows inColumn inRow,
    logo_layer shows _ inColumn, box_layer shows _ _ sixty boxX boxY _ inColumn,
    box_layer shows _ _ eight ⟨cursorX.1, by omega⟩ ⟨cursorY.1, by omega⟩ _ inColumn,
    number_layer shows _ _ inColumn, value]
  exact topmost_eq _ _ _ _

/-- After the copy of a frame that draws, every pixel of the screen is that of the picture. -/
theorem drawnMemory_pixel (shows : d.Shows) {f : FrameState} {p : Pending} (unpaused : Unpaused d f p)
    (fits : (sceneOf d f p).places.Fits d) {x y : Nat} (inColumn : x < d.width.toNat)
    (inRow : y < d.height.toNat) :
    onScreen d (drawnMemory d f p) x y = picture d (sceneOf d f p) x y := by
  have pixels := sizeBuffer_pixels shows
  have inside := shows.suits.row_inside inRow (Nat.lt_of_lt_of_le inColumn shows.stride)
  have apart := shows.apart
  rw [← pixels] at inside apart
  unfold onScreen drawnMemory
  refine (copyMemory_cell _ inside apart).trans ?_
  refine (paint_layer d (frameStores d f p) f.memory x y).trans ?_
  rw [frame_layer shows unpaused fits inColumn inRow]
  rfl

end Layers

/-! ## The smallest screen -/

def display110x60 : Display where
  width := 110
  height := 60
  pixelsPerLine := 110
  framebuffer := 0
  bufferRasc := 0x100000
  gimpImage := { width := 64, height := 8, bytesPerPixel := 3, pixelData := fun _ => 0 }

theorem display110x60_shows : display110x60.Shows := by
  constructor <;> decide

def mainStart110x60 : FrameState := mainStart display110x60 remapped (fun _ => 0)

def tenTicks : Pending := { quiet with ticks := List.replicate 10 .time }

theorem enterFrame_noKey (d : Display) {f : FrameState} {p : Pending} (noKey : p.key = fun _ => [])
    (idle : f.shared.globals.lastKey = 0) : enterFrame d f p = (f.shared, clampBox d f.animation) := by
  unfold enterFrame
  rw [noKey]
  simp [keyCases, keyChain, Shared.serveAll, idle, espace, upKey, leftKey, rightKey, downKey]

/-- In the corner of the smallest screen, with the cursor in the middle, at ten ticks. -/
def cornerPlaces : Places := ⟨50, 0, 55, 30, 10⟩

theorem first_scene : sceneOf display110x60 mainStart110x60 tenTicks = ⟨cornerPlaces, 0x00E67E22⟩ := by
  unfold sceneOf
  rw [enterFrame_noKey display110x60 rfl rfl]
  rfl

theorem first_unpaused : Unpaused display110x60 mainStart110x60 tenTicks := by
  unfold Unpaused
  rw [enterFrame_noKey display110x60 rfl rfl]
  rfl

/-- A frame that draws shows its picture, whatever the buffers held, and frames with the same
places, ticks and box colour show the same. -/
theorem frame_shows_picture (d : Display) (shows : d.Shows) :
    (∀ f p, Unpaused d f p → (sceneOf d f p).places.Fits d →
      (∀ next, frame d f p = some next → next.memory = drawnMemory d f p) ∧
        ∀ x < d.width.toNat, ∀ y < d.height.toNat,
          onScreen d (drawnMemory d f p) x y = picture d (sceneOf d f p) x y) ∧
      ∀ f p f' p', Unpaused d f p → Unpaused d f' p' → (sceneOf d f p).places.Fits d →
        sceneOf d f p = sceneOf d f' p' → ∀ x < d.width.toNat, ∀ y < d.height.toNat,
          onScreen d (drawnMemory d f p) x y = onScreen d (drawnMemory d f' p') x y := by
  constructor
  · intro f p unpaused fits
    refine ⟨fun next drawn => frame_memory unpaused drawn, ?_⟩
    intro x inColumn y inRow
    exact drawnMemory_pixel shows unpaused fits inColumn inRow
  · intro f p f' p' unpaused unpaused' fits same x inColumn y inRow
    rw [drawnMemory_pixel shows unpaused fits inColumn inRow,
      drawnMemory_pixel shows unpaused' (same ▸ fits) inColumn inRow, same]

/-- A pixel of the box and one of the first digit in the first frame of the smallest screen. -/
theorem frame_shows_picture_first :
    onScreen display110x60 (drawnMemory display110x60 mainStart110x60 tenTicks) 100 50 = 0x00E67E22 ∧
      onScreen display110x60 (drawnMemory display110x60 mainStart110x60 tenTicks) 13 10 = 0x00FFFFFF := by
  have fits : (sceneOf display110x60 mainStart110x60 tenTicks).places.Fits display110x60 := by
    rw [first_scene]
    constructor <;> decide
  have shown := ((frame_shows_picture display110x60 display110x60_shows).1 _ _ first_unpaused fits).2
  rw [first_scene] at shown
  constructor
  · exact (shown 100 (by decide) 50 (by decide)).trans (by decide)
  · exact (shown 13 (by decide) 10 (by decide)).trans (by simp [picture, cornerPlaces, numeral]; decide)

theorem second_scene : ∃ f, run (frame display110x60) mainStart110x60 [quiet] = some f ∧
    Unpaused display110x60 f quiet ∧ sceneOf display110x60 f quiet = ⟨cornerPlaces, 0x003498DB⟩ := by
  have first : ∃ f, frame display110x60 mainStart110x60 quiet = some f ∧
      f.animation = ⟨54, 3, -5, -4, 0, 1⟩ ∧ f.shared.globals.ticks = 10 ∧
      f.shared.globals.mouseX = 55 ∧ f.shared.globals.mouseY = 30 ∧ f.shared.globals.lastKey = 0 := by
    unfold frame
    rw [enterFrame_noKey display110x60 rfl rfl]
    exact ⟨_, rfl, rfl, rfl, rfl, rfl, rfl⟩
  obtain ⟨f, drawn, animation, ticks, mouseX, mouseY, idle⟩ := first
  refine ⟨f, ?_, ?_, ?_⟩
  · rw [run_cons, drawn]
    rfl
  · unfold Unpaused
    rw [enterFrame_noKey display110x60 rfl idle, animation]
    rfl
  · unfold sceneOf
    rw [enterFrame_noKey display110x60 rfl idle, animation]
    simp only [quiet, readCursor, Shared.serveAll, List.foldl_nil, ticks, mouseX, mouseY]
    rfl

/-- Two runs of the loop that reach the same places and ticks and differ in the colour. -/
theorem same_places_other_picture :
    ¬ ∀ (inputs inputs' : List Pending) (f f' : FrameState) (p p' : Pending),
      run (frame display110x60) mainStart110x60 inputs = some f →
      run (frame display110x60) mainStart110x60 inputs' = some f' →
      Unpaused display110x60 f p → Unpaused display110x60 f' p' →
      (sceneOf display110x60 f p).places.Fits display110x60 →
      (sceneOf display110x60 f p).places = (sceneOf display110x60 f' p').places →
      ∀ x < 110, ∀ y < 60, onScreen display110x60 (drawnMemory display110x60 f p) x y =
        onScreen display110x60 (drawnMemory display110x60 f' p') x y := by
  intro same
  obtain ⟨f', ran, unpaused', scene'⟩ := second_scene
  have fits : cornerPlaces.Fits display110x60 := by constructor <;> decide
  have equal := same [] [quiet] mainStart110x60 f' tenTicks quiet rfl ran first_unpaused unpaused'
    (by rw [first_scene]; exact fits) (by rw [first_scene, scene']) 100 (by decide) 50 (by decide)
  rw [drawnMemory_pixel display110x60_shows first_unpaused (by rw [first_scene]; exact fits) (by decide) (by decide),
    drawnMemory_pixel display110x60_shows unpaused' (by rw [scene']; exact fits) (by decide) (by decide),
    first_scene, scene'] at equal
  exact absurd equal (by decide)

end SzOS.Efi
