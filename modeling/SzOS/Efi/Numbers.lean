import SzOS.Efi.DrawTarget
import SzOS.Efi.Picture
import SzOS.Semantics.DigitArray
import SzOS.Semantics.Numerals

/-! The number that draw_number of the EFI kernel shows (font.c).

`drawNumber` lists the digits; here they pass through the array of ten characters
that the code fills upwards and draws downwards, and the pixels are those of the
draw target itself.
-/

set_option autoImplicit false

namespace SzOS.Efi
open Semantics hiding numeral

/-! ## draw_number with its array -/

/-- `'0' + (value % 10)`, stored in a `char`. -/
def digitOf (digit : BitVec 32) : BitVec 8 := digitZero + digit.setWidth 8

/-- The first half, which fills the array that the call finds on the stack. -/
def fillDigits (bound : Nat) (digits : Vector (BitVec 8) 10) (value : BitVec 32) :
    Option (Extraction (BitVec 8) 10 32) :=
  if value = 0 then (store digits 0 digitZero).map fun digits => ⟨value, 1, digits⟩
  else extractAll 10 digitOf bound ⟨value, 0, digits⟩

/-- `cursor_x` and the stores so far. -/
def drawDigit (g : GraphicsGlobals) (y color : BitVec 32) (drawn : BitVec 32 × List PixelStore)
    (digit : BitVec 8) : Option (BitVec 32 × List PixelStore) :=
  some (drawn.1 + 9, drawn.2 ++ drawChar g digit drawn.1 y color)

/-- An access outside `digits` has no value. -/
def drawNumberArray (g : GraphicsGlobals) (bound : Nat) (digits : Vector (BitVec 8) 10)
    (value x y color : BitVec 32) : Option (List PixelStore) :=
  (fillDigits bound digits value).bind fun e =>
    (emitDown (drawDigit g y color) e.digits e.count (x, [])).map Prod.snd

theorem run_drawDigit (g : GraphicsGlobals) (digits : List (BitVec 8)) (x y color : BitVec 32)
    (before : List PixelStore) :
    (run (drawDigit g y color) (x, before) digits).map Prod.snd =
      some (before ++ drawDigits g digits x y color) := by
  induction digits generalizing x before with
  | nil => simp [drawDigits]
  | cons digit rest ih =>
    rw [run_cons, drawDigit, Option.bind_some, ih, drawDigits, List.append_assoc]

theorem digitOf_ofNat (digit : Nat) : digitOf (BitVec.ofNat 32 digit) = digitChar digit := by
  have low : (BitVec.ofNat 32 digit).setWidth 8 = BitVec.ofNat 8 digit := by
    apply BitVec.eq_of_toNat_eq
    rw [BitVec.toNat_setWidth, BitVec.toNat_ofNat, BitVec.toNat_ofNat,
      Nat.mod_mod_of_dvd _ (show 2 ^ 8 ∣ 2 ^ 32 by decide)]
  rw [digitOf, low]
  rfl

/-- Ten cells are enough, and the stores are those of `drawNumber`. -/
theorem drawNumberArray_eq (g : GraphicsGlobals) {bound : Nat} (enough : 10 < bound)
    (digits : Vector (BitVec 8) 10) (value x y color : BitVec 32) :
    drawNumberArray g bound digits value x y color = some (drawNumber g value x y color) := by
  unfold drawNumberArray fillDigits
  rw [drawNumber_eq, numeral]
  by_cases zero : value = 0
  · subst zero
    rw [if_pos rfl, store_inside digits (show 0 < 10 by decide), Option.map_some, Option.bind_some]
    have only : (if (0 : BitVec 32).toNat = 0 then [0] else (Nat.digits 10 (0 : BitVec 32).toNat).reverse).map
        digitChar = [digitZero] := by decide
    have first : (digits.set 0 digitZero (show 0 < 10 by decide))[0]? = some digitZero := by simp
    rw [emitDown, first, Option.bind_some, drawDigit, Option.bind_some, emitDown, Option.map_some,
      only, drawDigits, drawDigits, List.append_nil, List.nil_append]
  · have nonzero : value.toNat ≠ 0 := (BitVec.toNat_pos_of_ne_zero zero).ne'
    have ten := digits_length_word value
    have emitted := extractAll_emitDown digitOf (drawDigit g y color) (show 1 < (10 : BitVec 32).toNat by decide)
      digits ten (Nat.lt_of_le_of_lt ten enough) (x, [])
    simp only [digitOf_ofNat] at emitted
    rw [if_neg zero, if_neg nonzero]
    refine Option.map_bind.symm.trans ?_
    rw [emitted, run_drawDigit, List.nil_append, List.map_reverse]
    rfl

/-! ## The numeral -/

/-- The decimal digits are those of the canonical numeral. -/
theorem numeral_bytes (n : Nat) : plainNumeral n = (numeral n).map digitByte := by
  unfold plainNumeral lowDigits numeral
  split
  · rfl
  · rw [List.map_reverse]

/-! ## The pixels -/

/-- The value of a character that is a digit. -/
def digitValue (byte : UInt8) : Nat := byte.toNat - 48

/-- The text, nine columns a character, has a set bit at a pixel of the draw target. -/
def TextLit (g : GraphicsGlobals) (text : List UInt8) (x y : Nat) (a : Address) : Prop :=
  ∃ k, ∃ byte, text[k]? = some byte ∧ ∃ row < 8, ∃ col < 8,
    (glyph (digitValue byte) row).getLsbD (7 - col) = true ∧
      a = g.drawTarget + ((y + row) * g.pixelsPerLine.toNat + (x + 9 * k + col) : Nat)

/-- The glyphs of so many characters lie on the draw target, for which main allocates
`size_buffer` bytes, an `int`, in lines of `g_pixels_per_line` pixels. -/
structure FitsTarget (sizeBuffer pixelsPerLine x y : BitVec 32) (characters : Nat) : Prop where
  left : 0 ≤ x.toInt
  top : 0 ≤ y.toInt
  right : x.toNat + 9 * (characters - 1) + 8 ≤ pixelsPerLine.toNat
  bottom : ((y.toNat + 8) * pixelsPerLine.toNat * 4 : Nat) ≤ sizeBuffer.toInt

section Pixels

variable {g : GraphicsGlobals} {x y color : BitVec 32}

theorem mem_drawDigits {digits : List (BitVec 8)} {store : PixelStore} :
    store ∈ drawDigits g digits x y color ↔
      ∃ k, ∃ digit, digits[k]? = some digit ∧
        store ∈ drawChar g digit (x + BitVec.ofNat 32 (9 * k)) y color := by
  induction digits generalizing x with
  | nil => simp [drawDigits]
  | cons digit rest ih =>
    have moved : ∀ k, x + 9 + BitVec.ofNat 32 (9 * k) = x + BitVec.ofNat 32 (9 * (k + 1)) := by
      intro k
      rw [Nat.mul_succ, Nat.add_comm, BitVec.ofNat_add, ← BitVec.add_assoc]
      rfl
    rw [drawDigits, List.mem_append, ih]
    constructor
    · rintro (first | ⟨k, later, found, member⟩)
      · exact ⟨0, digit, rfl, by simpa using first⟩
      · exact ⟨k + 1, later, found, moved k ▸ member⟩
    · rintro ⟨k, found, here, member⟩
      cases k with
      | zero =>
        cases here
        exact Or.inl (by simpa using member)
      | succ k => exact Or.inr ⟨k, found, here, (moved k).symm ▸ member⟩

theorem mem_drawChar {digit : Nat} (decimal : digit < 10) {store : PixelStore} :
    store ∈ drawChar g (digitChar digit) x y color ↔
      ∃ row < 8, ∃ col < 8, (glyph digit row).getLsbD (7 - col) = true ∧
        drawPixel g.framebuffer (x + BitVec.ofNat 32 col) (y + BitVec.ofNat 32 row) g.pixelsPerLine color =
          store := by
  rw [drawChar_scan g decimal, mem_scan]
  constructor
  · rintro ⟨row, inRow, col, inColumn, lit, same⟩
    exact ⟨row, inRow, col, inColumn, (glyph_bit (glyph digit row) ⟨col, inColumn⟩).symm.trans lit, same⟩
  · rintro ⟨row, inRow, col, inColumn, lit, same⟩
    exact ⟨row, inRow, col, inColumn, (glyph_bit (glyph digit row) ⟨col, inColumn⟩).trans lit, same⟩

/-- No index and no coordinate of a glyph wraps. -/
theorem FitsTarget.pixel {sizeBuffer : BitVec 32} {characters k row col : Nat}
    (fits : FitsTarget sizeBuffer g.pixelsPerLine x y characters) (inText : k < characters)
    (inRow : row < 8) (inColumn : col < 8) :
    (drawPixel g.framebuffer (x + BitVec.ofNat 32 (9 * k) + BitVec.ofNat 32 col) (y + BitVec.ofNat 32 row)
      g.pixelsPerLine color).index =
      ((y.toNat + row) * g.pixelsPerLine.toNat + (x.toNat + 9 * k + col) : Nat) := by
  have right := fits.right
  have bottom := fits.bottom
  have size := sizeBuffer.toInt_lt
  -- eight lines and every line up to the glyphs are smaller than the target
  have eight : 8 * g.pixelsPerLine.toNat ≤ (y.toNat + 8) * g.pixelsPerLine.toNat :=
    Nat.mul_le_mul_right _ (Nat.le_add_left 8 y.toNat)
  have lines : (y.toNat + row) * g.pixelsPerLine.toNat ≤ (y.toNat + 8) * g.pixelsPerLine.toNat :=
    Nat.mul_le_mul_right _ (by omega)
  have high : y.toNat + 8 ≤ (y.toNat + 8) * g.pixelsPerLine.toNat :=
    Nat.le_mul_of_pos_right _ (by omega)
  have start : (x + BitVec.ofNat 32 (9 * k)).toNat = x.toNat + 9 * k :=
    toNat_add_small x (show x.toNat + (9 * k + 1) ≤ 2 ^ 32 by omega) (Nat.lt_succ_self _)
  have column : (x + BitVec.ofNat 32 (9 * k) + BitVec.ofNat 32 col).toNat = x.toNat + 9 * k + col := by
    rw [toNat_add_small (x + BitVec.ofNat 32 (9 * k)) (by rw [start]; omega) inColumn, start]
  have line : (y + BitVec.ofNat 32 row).toNat = y.toNat + row := toNat_add_small y (by omega) inRow
  have signed : (x + BitVec.ofNat 32 (9 * k) + BitVec.ofNat 32 col).toInt = (x.toNat + 9 * k + col : Nat) := by
    rw [BitVec.toInt_eq_toNat_of_lt (by omega), column]
  simp only [drawPixel, signed, BitVec.toNat_mul, line]
  rw [Nat.mod_eq_of_lt (by omega), ← Nat.cast_add]

theorem digitValue_digitByte {digit : Nat} (decimal : digit < 10) : digitValue (digitByte digit) = digit := by
  rw [digitValue, toNat_digitByte decimal, Nat.add_sub_cancel_left]

/-- The stores of a text of digits go to its lit pixels. -/
theorem drawDigits_lit {sizeBuffer : BitVec 32} {digits : List Nat} (decimal : ∀ digit ∈ digits, digit < 10)
    (fits : FitsTarget sizeBuffer g.pixelsPerLine x y digits.length) (a : Address) :
    (∃ store ∈ drawDigits g (digits.map digitChar) x y color, g.drawTarget + store.index = a) ↔
      TextLit g (digits.map digitByte) x.toNat y.toNat a := by
  constructor
  · rintro ⟨store, member, rfl⟩
    obtain ⟨k, char, found, member⟩ := mem_drawDigits.mp member
    rw [List.getElem?_map] at found
    obtain ⟨digit, here, rfl⟩ := Option.map_eq_some_iff.mp found
    have small := decimal digit (List.mem_of_getElem? here)
    obtain ⟨inText, _⟩ := List.getElem?_eq_some_iff.mp here
    obtain ⟨row, inRow, col, inColumn, lit, rfl⟩ := (mem_drawChar small).mp member
    refine ⟨k, digitByte digit, by rw [List.getElem?_map, here, Option.map_some], row, inRow, col, inColumn, ?_, ?_⟩
    · rw [digitValue_digitByte small]
      exact lit
    · rw [fits.pixel inText inRow inColumn]
  · rintro ⟨k, byte, found, row, inRow, col, inColumn, lit, rfl⟩
    rw [List.getElem?_map] at found
    obtain ⟨digit, here, rfl⟩ := Option.map_eq_some_iff.mp found
    have small := decimal digit (List.mem_of_getElem? here)
    obtain ⟨inText, _⟩ := List.getElem?_eq_some_iff.mp here
    rw [digitValue_digitByte small] at lit
    refine ⟨_, mem_drawDigits.mpr ⟨k, digitChar digit, by rw [List.getElem?_map, here, Option.map_some],
      (mem_drawChar small).mpr ⟨row, inRow, col, inColumn, lit, rfl⟩⟩, ?_⟩
    rw [fits.pixel inText inRow inColumn]

theorem drawDigits_color {digits : List Nat} (decimal : ∀ digit ∈ digits, digit < 10) (store : PixelStore)
    (member : store ∈ drawDigits g (digits.map digitChar) x y color) : store.color = color := by
  obtain ⟨k, char, found, member⟩ := mem_drawDigits.mp member
  rw [List.getElem?_map] at found
  obtain ⟨digit, here, rfl⟩ := Option.map_eq_some_iff.mp found
  obtain ⟨row, _, col, _, _, rfl⟩ := (mem_drawChar (decimal digit (List.mem_of_getElem? here))).mp member
  rfl

end Pixels

/-- draw_number stays inside its array and draws the canonical numeral, whatever the array
and the memory hold; `bound` is any bound on the rounds of its loop from 11 up. -/
theorem drawNumber_draws (g : GraphicsGlobals) (bound : Nat) (digits : Vector (BitVec 8) 10)
    (sizeBuffer value : BitVec 32) {x y : BitVec 32} (color : BitVec 32)
    (fits : FitsTarget sizeBuffer g.pixelsPerLine x y (plainNumeral value.toNat).length) :
    (PlainNumeral (plainNumeral value.toNat) ∧ parseDigits (plainNumeral value.toNat) = value.toNat) ∧
      ∃ stores, drawNumberArray g (bound + 11) digits value x y color = some stores ∧
        ∀ memory a,
          (TextLit g (plainNumeral value.toNat) x.toNat y.toNat a → g.paint stores memory a = color) ∧
            (¬ TextLit g (plainNumeral value.toNat) x.toNat y.toNat a →
              g.paint stores memory a = memory a) := by
  refine ⟨⟨plainNumeral_plain _, parseDigits_plainNumeral _⟩, drawNumber g value x y color,
    drawNumberArray_eq g (by omega) digits value x y color, ?_⟩
  rw [numeral_bytes, List.length_map] at fits
  rw [numeral_bytes, drawNumber_eq]
  intro memory a
  have decimal := numeral_decimal value.toNat
  have reached : (∃ store ∈ drawDigits g ((numeral value.toNat).map digitChar) x y color,
      g.drawTarget + store.index = a) ↔ _ := drawDigits_lit decimal fits a
  constructor
  · intro lit
    exact paint_reached (drawDigits_color decimal) (reached.mpr lit) memory
  · intro dark
    exact paint_missed (fun drawn => dark (reached.mp drawn)) memory

/-- The globals on a screen of 800 columns. -/
def wideGlobals : GraphicsGlobals := ⟨0x20000000, 800, 0x100000⟩

/-- The largest value, at the place of the ticks, on 600 lines. -/
theorem drawNumber_draws_largest :
    (PlainNumeral (plainNumeral (0xFFFFFFFF : BitVec 32).toNat) ∧
        parseDigits (plainNumeral (0xFFFFFFFF : BitVec 32).toNat) = (0xFFFFFFFF : BitVec 32).toNat) ∧
      ∃ stores, drawNumberArray wideGlobals (0 + 11) (Vector.replicate 10 0) 0xFFFFFFFF 10 10 0x00FFFFFF =
          some stores ∧
        ∀ memory a,
          (TextLit wideGlobals (plainNumeral (0xFFFFFFFF : BitVec 32).toNat) (10 : BitVec 32).toNat
              (10 : BitVec 32).toNat a → wideGlobals.paint stores memory a = 0x00FFFFFF) ∧
            (¬ TextLit wideGlobals (plainNumeral (0xFFFFFFFF : BitVec 32).toNat) (10 : BitVec 32).toNat
              (10 : BitVec 32).toNat a → wideGlobals.paint stores memory a = memory a) :=
  drawNumber_draws wideGlobals 0 (Vector.replicate 10 0) 1920000 0xFFFFFFFF 0x00FFFFFF
    ⟨by decide, by decide, by decide, by decide⟩

end SzOS.Efi
