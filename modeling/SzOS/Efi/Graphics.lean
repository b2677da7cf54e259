import Mathlib.Algebra.Group.Nat.Defs
import Mathlib.Data.List.Basic
import Mathlib.Logic.Function.Basic

/-! Drawing of the EFI kernel (graphics.c, font.c and `copy_memory` of memory.c).

Memory is counted in pixels of four bytes. A drawing function gives its stores in
source order, each by its distance from `g_draw_target`: that is where they all
go, whatever buffer is passed.
-/

set_option autoImplicit false

namespace SzOS.Efi

/-- A `uint32_t *`, counted in pixels. -/
abbrev Address := Int
abbrev Pixels := Address → BitVec 32

structure GraphicsGlobals where
  framebuffer : Address
  pixelsPerLine : BitVec 32
  drawTarget : Address

structure PixelStore where
  index : Int
  color : BitVec 32

def GraphicsGlobals.paint (g : GraphicsGlobals) (stores : List PixelStore) (memory : Pixels) : Pixels :=
  stores.foldl (fun memory store => Function.update memory (g.drawTarget + store.index) store.color)
    memory

/-! ## graphics.c -/

/-- The product is unsigned and added to the pointer first, then the signed column. -/
def drawPixel (_framebuffer : Address) (x y pixelsPerLine color : BitVec 32) : PixelStore :=
  { index := (y * pixelsPerLine).toNat + x.toInt, color }

def drawBox (g : GraphicsGlobals) (_framebuffer : Address) (x y size pixelsPerLine color : BitVec 32) :
    List PixelStore :=
  (List.range size.toInt.toNat).flatMap fun row =>
    (List.range size.toInt.toNat).map fun col =>
      drawPixel g.framebuffer (x + BitVec.ofNat 32 col) (y + BitVec.ofNat 32 row) pixelsPerLine color

/-- The image that sz.c defines. -/
structure GimpImage where
  width : BitVec 32
  height : BitVec 32
  bytesPerPixel : BitVec 32
  pixelData : BitVec 32 → BitVec 8

def GimpImage.color (image : GimpImage) (x y : BitVec 32) : BitVec 32 :=
  let index := (y * image.width + x) * image.bytesPerPixel
  let r := (image.pixelData (index + 0)).setWidth 32
  let g := (image.pixelData (index + 1)).setWidth 32
  let b := (image.pixelData (index + 2)).setWidth 32
  (r <<< 16) ||| (g <<< 8) ||| b

def drawGimpImage (image : GimpImage) (_framebuffer : Address)
    (screenX screenY pixelsPerLine : BitVec 32) : List PixelStore :=
  (List.range image.height.toNat).flatMap fun row =>
    (List.range image.width.toNat).map fun col =>
      let x := BitVec.ofNat 32 col
      let y := BitVec.ofNat 32 row
      let fbX := screenX + x
      let fbY := screenY + y
      { index := (fbY * pixelsPerLine + fbX).toNat, color := image.color x y }

/-! ## font.c -/

def fontDigits : List (List (BitVec 8)) :=
  [[0x7C, 0xC6, 0xCE, 0xDE, 0xF6, 0xE6, 0xC6, 0x7C],
   [0x18, 0x38, 0x78, 0x18, 0x18, 0x18, 0x18, 0x7E],
   [0x7C, 0xC6, 0x06, 0x0C, 0x18, 0x30, 0x60, 0xFE],
   [0x7C, 0xC6, 0x06, 0x3C, 0x06, 0x06, 0xC6, 0x7C],
   [0x0C, 0x1C, 0x3C, 0x6C, 0xCC, 0xFE, 0x0C, 0x0C],
   [0xFE, 0xC0, 0xC0, 0xFC, 0x06, 0x06, 0xC6, 0x7C],
   [0x3C, 0x60, 0xC0, 0xFC, 0xC6, 0xC6, 0xC6, 0x7C],
   [0xFE, 0xC6, 0x0C, 0x18, 0x30, 0x30, 0x30, 0x30],
   [0x7C, 0xC6, 0xC6, 0x7C, 0xC6, 0xC6, 0xC6, 0x7C],
   [0x7C, 0xC6, 0xC6, 0x7E, 0x06, 0x06, 0x0C, 0x78]]

def digitZero : BitVec 8 := 48
def digitNine : BitVec 8 := 57

def drawChar (g : GraphicsGlobals) (c : BitVec 8) (x y color : BitVec 32) : List PixelStore :=
  if c.slt digitZero || digitNine.slt c then []
  else
    let rows := fontDigits.getD (c - digitZero).toNat []
    (List.range 8).flatMap fun row =>
      let bits := rows.getD row 0
      ((List.range 8).filter fun col => bits &&& (0x80 >>> col) ≠ 0).map fun col =>
        drawPixel g.framebuffer (x + BitVec.ofNat 32 col) (y + BitVec.ofNat 32 row) g.pixelsPerLine color

/-- The loop that extracts the digits, in the order in which it stores them. -/
def extractDigits (value : BitVec 32) : List (BitVec 8) :=
  if value = 0 then []
  else (digitZero + (value % 10).setWidth 8) :: extractDigits (value / 10)
termination_by value.toNat
decreasing_by
  rename_i nonzero
  have positive : 0 < value.toNat := BitVec.toNat_pos_of_ne_zero nonzero
  rw [BitVec.toNat_udiv]
  exact Nat.div_lt_self positive (by decide)

/-- The loop that draws `digits[i]` for `i` from `count - 1` down. -/
def drawDigits (g : GraphicsGlobals) (digits : List (BitVec 8)) (cursorX y color : BitVec 32) :
    List PixelStore :=
  match digits with
  | [] => []
  | digit :: rest => drawChar g digit cursorX y color ++ drawDigits g rest (cursorX + 9) y color

def drawNumber (g : GraphicsGlobals) (value x y color : BitVec 32) : List PixelStore :=
  let digits := if value = 0 then [digitZero] else extractDigits value
  drawDigits g digits.reverse x y color

/-! ## memory.c -/

def copyMemory (destiny origem : Address) (manyBytes : BitVec 32) (memory : Pixels) : Pixels :=
  (List.range (manyBytes / 4).toNat).foldl
    (fun memory i => Function.update memory (destiny + i) (memory (origem + i))) memory

theorem toInt_of_nonneg {x : BitVec 32} (nonneg : 0 ≤ x.toInt) : x.toInt = x.toNat := by
  have cond := BitVec.toInt_eq_toNat_cond x
  have bound := x.isLt
  split at cond <;> omega

/-! ## Where the stores go -/

/-- The stores lie in a buffer of so many pixels that begins at the draw target. -/
def AllInside (extent : Nat) (stores : List PixelStore) : Prop :=
  ∀ store ∈ stores, 0 ≤ store.index ∧ store.index < extent

section Inside

variable {extent : Nat} {stride x y : BitVec 32}

theorem AllInside.append {first second : List PixelStore} (left : AllInside extent first)
    (right : AllInside extent second) : AllInside extent (first ++ second) :=
  List.forall_mem_append.mpr ⟨left, right⟩

theorem toNat_add_small (base : BitVec 32) {offset bound : Nat} (small : base.toNat + bound ≤ 2 ^ 32)
    (below : offset < bound) : (base + BitVec.ofNat 32 offset).toNat = base.toNat + offset := by
  rw [BitVec.toNat_add, BitVec.toNat_ofNat, Nat.add_mod_mod]
  exact Nat.mod_eq_of_lt (by omega)

/-- The 32-bit product only makes the index smaller. -/
theorem drawPixel_inside (framebuffer : Address) (color : BitVec 32) (nonneg : x.toNat < 2 ^ 31)
    (bound : y.toNat * stride.toNat + x.toNat < extent) :
    0 ≤ (drawPixel framebuffer x y stride color).index ∧
      (drawPixel framebuffer x y stride color).index < extent := by
  have column : x.toInt = x.toNat := BitVec.toInt_eq_toNat_of_lt (by omega)
  have smaller : (y * stride).toNat ≤ y.toNat * stride.toNat := by
    rw [BitVec.toNat_mul]
    exact Nat.mod_le _ _
  simp only [drawPixel, column]
  omega

/-- A rectangle of pixels whose last one is inside. -/
theorem drawPixel_offset_inside (framebuffer : Address) (color : BitVec 32) {wide high col row : Nat}
    (columns : x.toNat + wide ≤ 2 ^ 31) (rows : y.toNat + high ≤ 2 ^ 32)
    (bound : (y.toNat + high - 1) * stride.toNat + (x.toNat + wide - 1) < extent)
    (inColumn : col < wide) (inRow : row < high) :
    0 ≤ (drawPixel framebuffer (x + BitVec.ofNat 32 col) (y + BitVec.ofNat 32 row) stride color).index ∧
      (drawPixel framebuffer (x + BitVec.ofNat 32 col) (y + BitVec.ofNat 32 row) stride color).index <
        extent := by
  have column := toNat_add_small x (by omega) inColumn
  have line := toNat_add_small y rows inRow
  -- no pixel of the rectangle comes after its last one
  have before : (y.toNat + row) * stride.toNat ≤ (y.toNat + high - 1) * stride.toNat :=
    Nat.mul_le_mul_right _ (by omega)
  apply drawPixel_inside
  · rw [column]
    omega
  · rw [column, line]
    omega

theorem drawBox_inside (g : GraphicsGlobals) (framebuffer : Address) (color : BitVec 32)
    {size : BitVec 32} (columns : x.toNat + size.toInt.toNat ≤ 2 ^ 31)
    (rows : y.toNat + size.toInt.toNat ≤ 2 ^ 32)
    (bound : (y.toNat + size.toInt.toNat - 1) * stride.toNat + (x.toNat + size.toInt.toNat - 1) < extent) :
    AllInside extent (drawBox g framebuffer x y size stride color) := by
  intro store member
  obtain ⟨row, inRow, member⟩ := List.mem_flatMap.mp member
  obtain ⟨col, inColumn, rfl⟩ := List.mem_map.mp member
  exact drawPixel_offset_inside g.framebuffer color columns rows bound (List.mem_range.mp inColumn)
    (List.mem_range.mp inRow)

/-- While the product does not wrap, a square ends inside only if its last pixel does. -/
theorem drawBox_inside_iff (g : GraphicsGlobals) (framebuffer : Address) (size color : BitVec 32)
    (positive : 0 < size.toInt.toNat) (columns : x.toNat + size.toInt.toNat ≤ 2 ^ 31)
    (exactly : (y.toNat + size.toInt.toNat - 1) * stride.toNat < 2 ^ 32)
    (rows : y.toNat + size.toInt.toNat ≤ 2 ^ 32) :
    AllInside extent (drawBox g framebuffer x y size stride color) ↔
      (y.toNat + size.toInt.toNat - 1) * stride.toNat + (x.toNat + size.toInt.toNat - 1) < extent := by
  constructor
  · intro inside
    have last : size.toInt.toNat - 1 < size.toInt.toNat := by omega
    have drawn := inside _ (List.mem_flatMap.mpr ⟨_, List.mem_range.mpr last,
      List.mem_map.mpr ⟨_, List.mem_range.mpr last, rfl⟩⟩)
    have column := toNat_add_small x (by omega) last
    have line := toNat_add_small y rows last
    have same : y.toNat + (size.toInt.toNat - 1) = y.toNat + size.toInt.toNat - 1 := by omega
    rw [same] at line
    have signed : (x + BitVec.ofNat 32 (size.toInt.toNat - 1)).toInt =
        (x + BitVec.ofNat 32 (size.toInt.toNat - 1)).toNat :=
      BitVec.toInt_eq_toNat_of_lt (by omega)
    simp only [drawPixel, signed, column, BitVec.toNat_mul, line, Nat.mod_eq_of_lt exactly] at drawn
    omega
  · exact drawBox_inside g framebuffer color columns rows

theorem drawGimpImage_inside (image : GimpImage) (framebuffer : Address) {screenX screenY : BitVec 32}
    (columns : screenX.toNat + image.width.toNat ≤ 2 ^ 32)
    (rows : screenY.toNat + image.height.toNat ≤ 2 ^ 32)
    (bound : ∀ row < image.height.toNat, ∀ col < image.width.toNat,
      (screenY.toNat + row) * stride.toNat + (screenX.toNat + col) < extent) :
    AllInside extent (drawGimpImage image framebuffer screenX screenY stride) := by
  intro store member
  obtain ⟨row, inRow, member⟩ := List.mem_flatMap.mp member
  obtain ⟨col, inColumn, rfl⟩ := List.mem_map.mp member
  have column := toNat_add_small screenX columns (List.mem_range.mp inColumn)
  have line := toNat_add_small screenY rows (List.mem_range.mp inRow)
  have below := bound row (List.mem_range.mp inRow) col (List.mem_range.mp inColumn)
  -- here the whole index wraps, which again only makes it smaller
  have smaller : ((screenY.toNat + row) * stride.toNat % 2 ^ 32 + (screenX.toNat + col)) % 2 ^ 32 ≤
      (screenY.toNat + row) * stride.toNat + (screenX.toNat + col) :=
    Nat.le_trans (Nat.mod_le _ _) (Nat.add_le_add_right (Nat.mod_le _ _) _)
  simp only [BitVec.toNat_add, BitVec.toNat_mul, ← column, ← line] at smaller below ⊢
  omega

theorem drawChar_inside (g : GraphicsGlobals) (c : BitVec 8) (color : BitVec 32)
    (columns : x.toNat + 8 ≤ 2 ^ 31) (rows : y.toNat + 8 ≤ 2 ^ 32)
    (bound : (y.toNat + 7) * g.pixelsPerLine.toNat + (x.toNat + 7) < extent) :
    AllInside extent (drawChar g c x y color) := by
  intro store member
  unfold drawChar at member
  split at member
  next => exact absurd member List.not_mem_nil
  next =>
    obtain ⟨row, inRow, member⟩ := List.mem_flatMap.mp member
    obtain ⟨col, lit, rfl⟩ := List.mem_map.mp member
    have inColumn := (List.mem_filter.mp lit).1
    exact drawPixel_offset_inside g.framebuffer color columns rows bound (List.mem_range.mp inColumn)
      (List.mem_range.mp inRow)

theorem drawDigits_inside (g : GraphicsGlobals) (digits : List (BitVec 8)) (color : BitVec 32)
    (columns : x.toNat + 9 * digits.length ≤ 2 ^ 31) (rows : y.toNat + 8 ≤ 2 ^ 32)
    (bound : (y.toNat + 7) * g.pixelsPerLine.toNat + (x.toNat + 9 * digits.length) ≤ extent) :
    AllInside extent (drawDigits g digits x y color) := by
  induction digits generalizing x with
  | nil => exact fun _ member => absurd member List.not_mem_nil
  | cons digit rest ih =>
    rw [List.length_cons] at columns bound
    have moved : (x + 9).toNat = x.toNat + 9 :=
      toNat_add_small x (show x.toNat + 10 ≤ 2 ^ 32 by omega) (show 9 < 10 by decide)
    -- the first digit, and the rest nine columns further
    apply AllInside.append
    · exact drawChar_inside g digit color (by omega) rows (by omega)
    · apply ih
      · rw [moved]
        omega
      · rw [moved]
        omega

theorem extractDigits_length {value : BitVec 32} {count : Nat} (small : value.toNat < 10 ^ count) :
    (extractDigits value).length ≤ count := by
  induction count generalizing value with
  | zero =>
    have none : value = 0 := BitVec.eq_of_toNat_eq (by simpa using small)
    rw [none, extractDigits, if_pos rfl]
    exact Nat.le_refl 0
  | succ count ih =>
    rw [extractDigits]
    split
    next => exact Nat.zero_le _
    next =>
      apply Nat.succ_le_succ
      apply ih
      rw [BitVec.toNat_udiv]
      rw [Nat.pow_succ] at small
      exact Nat.div_lt_of_lt_mul (by rwa [Nat.mul_comm] at small)

/-- A 32-bit value has at most ten digits, each nine columns wide with its spacing. -/
theorem drawNumber_inside (g : GraphicsGlobals) (value color : BitVec 32)
    (columns : x.toNat + 90 ≤ 2 ^ 31) (rows : y.toNat + 8 ≤ 2 ^ 32)
    (bound : (y.toNat + 7) * g.pixelsPerLine.toNat + (x.toNat + 90) ≤ extent) :
    AllInside extent (drawNumber g value x y color) := by
  have ten : (extractDigits value).length ≤ 10 :=
    extractDigits_length (Nat.lt_of_lt_of_le value.isLt (by decide))
  have count : (if value = 0 then [digitZero] else extractDigits value).length ≤ 10 := by
    split
    next => exact Nat.one_le_iff_ne_zero.mpr (by decide)
    next => exact ten
  unfold drawNumber
  apply drawDigits_inside
  · rw [List.length_reverse]
    omega
  · exact rows
  · rw [List.length_reverse]
    omega

end Inside

end SzOS.Efi
