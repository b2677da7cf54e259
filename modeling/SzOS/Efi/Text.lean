import SzOS.Efi.Numbers
import SzOS.Libc.CString

/-! Text on the screen of the EFI kernel (font.c): what draw_string draws, and that it can be
read off the pixels.

Only the digits have glyphs; every other character takes its nine columns and leaves them
as they are.
-/

set_option autoImplicit false

namespace SzOS.Efi
open Semantics hiding numeral
open Libc

/-- The loop of `draw_string`; a text without its terminator has no end. -/
def drawString (g : GraphicsGlobals) : List UInt8 → BitVec 32 → BitVec 32 → BitVec 32 →
    Option (List PixelStore)
  | [], _, _, _ => none
  | c :: rest, cursorX, y, color =>
    if c = 0 then some []
    else (drawString g rest (cursorX + 9) y color).map (drawChar g c.toBitVec cursorX y color ++ ·)

/-- A text has a lit bit at a pixel of the draw target; only its digits have bits. -/
def StringLit (g : GraphicsGlobals) (text : List UInt8) (x y : Nat) (a : Address) : Prop :=
  ∃ k, ∃ byte, text[k]? = some byte ∧ IsDigit byte ∧ ∃ row < 8, ∃ col < 8,
    (glyph (digitValue byte) row).getLsbD (7 - col) = true ∧
      a = g.drawTarget + ((y + row) * g.pixelsPerLine.toNat + (x + 9 * k + col) : Nat)

variable {g : GraphicsGlobals} {x y color : BitVec 32}

/-! ## The stores -/

theorem drawString_eq (bytes : List UInt8) (nonzero : ∀ byte ∈ bytes, byte ≠ 0) (x : BitVec 32) :
    drawString g (bytes ++ [0]) x y color = some (drawDigits g (bytes.map UInt8.toBitVec) x y color) := by
  induction bytes generalizing x with
  | nil => rfl
  | cons byte bytes ih =>
    obtain ⟨here, later⟩ := List.forall_mem_cons.mp nonzero
    rw [List.cons_append, drawString, if_neg here, ih later, Option.map_some, List.map_cons, drawDigits]

/-- The test of `draw_char` on a signed `char`. -/
theorem drawChar_range : ∀ c : BitVec 8,
    (c.slt digitZero || digitNine.slt c) = decide (¬ (48 ≤ c.toNat ∧ c.toNat < 58)) ∧
      (48 ≤ c.toNat ∧ c.toNat < 58 → c = digitChar (c.toNat - 48)) := by
  decide

theorem drawChar_digit {byte : UInt8} (digit : IsDigit byte) :
    byte.toBitVec = digitChar (digitValue byte) ∧ digitValue byte < 10 := by
  have range : 48 ≤ byte.toNat ∧ byte.toNat < 58 := digit
  refine ⟨(drawChar_range byte.toBitVec).2 digit, ?_⟩
  unfold digitValue
  omega

/-- Other characters are not drawn. -/
theorem drawChar_other {byte : UInt8} (other : ¬ IsDigit byte) : drawChar g byte.toBitVec x y color = [] := by
  have outside : (byte.toBitVec.slt digitZero || digitNine.slt byte.toBitVec) = true := by
    rw [(drawChar_range byte.toBitVec).1]
    exact decide_eq_true other
  unfold drawChar
  rw [if_pos outside]

theorem mem_drawText {text : List UInt8} {store : PixelStore} :
    store ∈ drawDigits g (text.map UInt8.toBitVec) x y color ↔
      ∃ k, ∃ byte, text[k]? = some byte ∧ IsDigit byte ∧ ∃ row < 8, ∃ col < 8,
        (glyph (digitValue byte) row).getLsbD (7 - col) = true ∧
          drawPixel g.framebuffer (x + BitVec.ofNat 32 (9 * k) + BitVec.ofNat 32 col)
            (y + BitVec.ofNat 32 row) g.pixelsPerLine color = store := by
  rw [mem_drawDigits]
  constructor
  · rintro ⟨k, char, found, member⟩
    rw [List.getElem?_map] at found
    obtain ⟨byte, here, rfl⟩ := Option.map_eq_some_iff.mp found
    by_cases digit : IsDigit byte
    · obtain ⟨same, decimal⟩ := drawChar_digit digit
      rw [same, mem_drawChar decimal] at member
      exact ⟨k, byte, here, digit, member⟩
    · rw [drawChar_other digit] at member
      exact absurd member List.not_mem_nil
  · rintro ⟨k, byte, here, digit, member⟩
    obtain ⟨same, decimal⟩ := drawChar_digit digit
    refine ⟨k, byte.toBitVec, by rw [List.getElem?_map, here, Option.map_some], ?_⟩
    rw [same, mem_drawChar decimal]
    exact member

theorem drawText_lit {sizeBuffer : BitVec 32} {text : List UInt8}
    (fits : FitsTarget sizeBuffer g.pixelsPerLine x y text.length) (a : Address) :
    (∃ store ∈ drawDigits g (text.map UInt8.toBitVec) x y color, g.drawTarget + store.index = a) ↔
      StringLit g text x.toNat y.toNat a := by
  constructor
  · rintro ⟨store, member, rfl⟩
    obtain ⟨k, byte, here, digit, row, inRow, col, inColumn, lit, rfl⟩ := mem_drawText.mp member
    obtain ⟨inText, _⟩ := List.getElem?_eq_some_iff.mp here
    exact ⟨k, byte, here, digit, row, inRow, col, inColumn, lit, by rw [fits.pixel inText inRow inColumn]⟩
  · rintro ⟨k, byte, here, digit, row, inRow, col, inColumn, lit, rfl⟩
    obtain ⟨inText, _⟩ := List.getElem?_eq_some_iff.mp here
    exact ⟨_, mem_drawText.mpr ⟨k, byte, here, digit, row, inRow, col, inColumn, lit, rfl⟩,
      by rw [fits.pixel inText inRow inColumn]⟩

theorem drawText_color {text : List UInt8} (store : PixelStore)
    (member : store ∈ drawDigits g (text.map UInt8.toBitVec) x y color) : store.color = color := by
  obtain ⟨k, byte, here, digit, row, inRow, col, inColumn, lit, rfl⟩ := mem_drawText.mp member
  rfl

/-! ## Reading the pixels -/

theorem glyph_injective : ∀ d < 10, ∀ d' < 10,
    (∀ row < 8, ∀ col < 8, (glyph d row).getLsbD (7 - col) = (glyph d' row).getLsbD (7 - col)) → d = d' := by
  decide

/-- Every glyph has a lit bit. -/
theorem glyph_lit : ∀ d < 10, ∃ row < 8, ∃ col < 8, (glyph d row).getLsbD (7 - col) = true := by
  decide

/-- A pixel of a line, by its row and its column. -/
theorem place_unique {stride row row' column column' : Nat} (inLine : column < stride) (inLine' : column' < stride)
    (same : row * stride + column = row' * stride + column') : row = row' ∧ column = column' := by
  have positive : 0 < stride := Nat.lt_of_le_of_lt (Nat.zero_le column) inLine
  have quotient : ∀ {r c}, c < stride → (r * stride + c) / stride = r := by
    intro r c inside
    rw [Nat.add_comm, Nat.add_mul_div_right _ _ positive, Nat.div_eq_of_lt inside, Nat.zero_add]
  have rows : row = row' := by
    rw [← quotient (r := row) inLine, same, quotient inLine']
  subst rows
  exact ⟨rfl, Nat.add_left_cancel same⟩

/-- So many characters in a line. -/
def InLine (g : GraphicsGlobals) (x characters : Nat) : Prop := x + 9 * (characters - 1) + 8 ≤ g.pixelsPerLine.toNat

section Reading

variable {left top : Nat} {text second : List UInt8}

theorem stringLit_at (room : InLine g left text.length) {k row col : Nat}
    (inLine : left + 9 * k + 8 ≤ g.pixelsPerLine.toNat) (inRow : row < 8) (inColumn : col < 8) :
    StringLit g text left top
        (g.drawTarget + ((top + row) * g.pixelsPerLine.toNat + (left + 9 * k + col) : Nat)) ↔
      ∃ byte, text[k]? = some byte ∧ IsDigit byte ∧ (glyph (digitValue byte) row).getLsbD (7 - col) = true := by
  constructor
  · rintro ⟨k', byte, here, digit, row', _, col', inColumn', lit, same⟩
    obtain ⟨inText, _⟩ := List.getElem?_eq_some_iff.mp here
    unfold InLine at room
    have sum := Int.ofNat.inj (Int.add_left_cancel same)
    obtain ⟨rows, columns⟩ := place_unique (by omega) (by omega) sum
    have sameRow : row = row' := Nat.add_left_cancel rows
    have sameCharacter : k = k' := by omega
    have sameColumn : col = col' := by omega
    subst sameRow sameCharacter sameColumn
    exact ⟨byte, here, digit, lit⟩
  · rintro ⟨byte, here, digit, lit⟩
    exact ⟨k, byte, here, digit, row, inRow, col, inColumn, lit, rfl⟩

theorem digitValue_injective {byte other : UInt8} (digit : IsDigit byte) (digit' : IsDigit other)
    (same : digitValue byte = digitValue other) : byte = other := by
  have low : 48 ≤ byte.toNat := digit.1
  have low' : 48 ≤ other.toNat := digit'.1
  unfold digitValue at same
  exact UInt8.toNat_inj.mp (by omega)

theorem character_read (digits : ∀ byte ∈ text, IsDigit byte) (room : InLine g left text.length)
    (room' : InLine g left second.length)
    (same : ∀ a, StringLit g text left top a ↔ StringLit g second left top a)
    {k : Nat} {byte : UInt8} (here : text[k]? = some byte) : second[k]? = some byte := by
  obtain ⟨inText, _⟩ := List.getElem?_eq_some_iff.mp here
  have inLine : left + 9 * k + 8 ≤ g.pixelsPerLine.toNat := by
    unfold InLine at room
    omega
  have digit := digits byte (List.mem_of_getElem? here)
  have bits : ∀ row < 8, ∀ col < 8, ((glyph (digitValue byte) row).getLsbD (7 - col) = true ↔
      ∃ other, second[k]? = some other ∧ IsDigit other ∧
        (glyph (digitValue other) row).getLsbD (7 - col) = true) := by
    intro row inRow col inColumn
    rw [← stringLit_at room' inLine inRow inColumn, ← same, stringLit_at room inLine inRow inColumn]
    simp [here, digit]
  -- one lit bit shows that the other text goes so far, all of them that it has the same digit there
  obtain ⟨row, inRow, col, inColumn, lit⟩ := glyph_lit (digitValue byte) (drawChar_digit digit).2
  obtain ⟨other, there, digit', _⟩ := (bits row inRow col inColumn).mp lit
  have value : digitValue byte = digitValue other := by
    apply glyph_injective _ (drawChar_digit digit).2 _ (drawChar_digit digit').2
    intro row inRow col inColumn
    apply Bool.eq_iff_iff.mpr
    rw [bits row inRow col inColumn]
    simp [there, digit']
  rw [there, digitValue_injective digit digit' value]

/-- Two texts of digits with the same lit pixels are the same text. -/
theorem text_read (digits : ∀ byte ∈ text, IsDigit byte) (digits' : ∀ byte ∈ second, IsDigit byte)
    (room : InLine g left text.length) (room' : InLine g left second.length)
    (same : ∀ a, StringLit g text left top a ↔ StringLit g second left top a) : text = second := by
  apply List.ext_getElem?
  intro k
  apply Option.ext
  intro byte
  exact ⟨character_read digits room room' same,
    character_read digits' room' room fun a => (same a).symm⟩

end Reading

/-! ## draw_string -/

/-- draw_number draws the numeral as `draw_string` would. -/
theorem drawNumber_string (value : BitVec 32) :
    drawNumber g value x y color = drawDigits g ((plainNumeral value.toNat).map UInt8.toBitVec) x y color := by
  rw [drawNumber_eq, numeral_bytes, List.map_map]
  congr 1
  apply List.map_congr_left
  intro digit member
  have decimal := numeral_decimal value.toNat digit member
  have byte := (drawChar_digit (digitByte_isDigit decimal)).1
  rw [digitValue_digitByte decimal] at byte
  exact byte.symm

/-- draw_string draws the digits of its text and nothing else, a numeral as draw_number does; and on a
target without its colour two texts of digits that leave the same pixels are the same. -/
theorem drawString_readable (g : GraphicsGlobals) (sizeBuffer : BitVec 32) {x y : BitVec 32} (color : BitVec 32)
    (text : CString) (fits : FitsTarget sizeBuffer g.pixelsPerLine x y text.bytes.length) :
    ∃ stores, drawString g text.object x y color = some stores ∧
      (∀ memory a, (StringLit g text.bytes x.toNat y.toNat a → g.paint stores memory a = color) ∧
        (¬ StringLit g text.bytes x.toNat y.toNat a → g.paint stores memory a = memory a)) ∧
      (∀ value : BitVec 32, text.bytes = plainNumeral value.toNat → stores = drawNumber g value x y color) ∧
      ∀ (second : CString) stores' memory,
        FitsTarget sizeBuffer g.pixelsPerLine x y second.bytes.length →
        (∀ byte ∈ text.bytes ++ second.bytes, IsDigit byte) →
        drawString g second.object x y color = some stores' → (∀ a, memory a ≠ color) →
        g.paint stores memory = g.paint stores' memory → text.bytes = second.bytes := by
  have drawn : ∀ (text : CString), FitsTarget sizeBuffer g.pixelsPerLine x y text.bytes.length → ∀ memory a,
      (StringLit g text.bytes x.toNat y.toNat a →
        g.paint (drawDigits g (text.bytes.map UInt8.toBitVec) x y color) memory a = color) ∧
      (¬ StringLit g text.bytes x.toNat y.toNat a →
        g.paint (drawDigits g (text.bytes.map UInt8.toBitVec) x y color) memory a = memory a) := by
    intro text fits memory a
    have reached : (∃ store ∈ drawDigits g (text.bytes.map UInt8.toBitVec) x y color,
        g.drawTarget + store.index = a) ↔ _ := drawText_lit fits a
    rw [← reached]
    exact ⟨fun lit => paint_reached drawText_color lit memory, fun dark => paint_missed dark memory⟩
  refine ⟨_, drawString_eq text.bytes text.nonzero x, drawn text fits, ?_, ?_⟩
  · intro value same
    rw [same, drawNumber_string]
  · intro second stores' memory fits' digits ran fresh same
    cases (drawString_eq second.bytes second.nonzero x).symm.trans ran
    have lit : ∀ text : CString, FitsTarget sizeBuffer g.pixelsPerLine x y text.bytes.length → ∀ a,
        StringLit g text.bytes x.toNat y.toNat a ↔
          g.paint (drawDigits g (text.bytes.map UInt8.toBitVec) x y color) memory a = color := by
      intro text fits a
      obtain ⟨on, off⟩ := drawn text fits memory a
      refine ⟨on, fun shows => ?_⟩
      by_contra dark
      exact fresh a ((off dark).symm.trans shows)
    obtain ⟨first, later⟩ := List.forall_mem_append.mp digits
    apply text_read first later fits.right fits'.right
    intro a
    rw [lit text fits a, lit second fits' a, same]

/-- A text with a space in it, on the screen of 800 columns. -/
def lapTime : CString := CString.literal "12 34"

theorem drawString_readable_lapTime :
    ∃ stores, drawString wideGlobals lapTime.object 10 10 0x00FFFFFF = some stores ∧
      ∀ memory a, ¬ StringLit wideGlobals lapTime.bytes (10 : BitVec 32).toNat (10 : BitVec 32).toNat a →
        wideGlobals.paint stores memory a = memory a := by
  obtain ⟨stores, ran, paints, _⟩ := drawString_readable wideGlobals 1920000 0x00FFFFFF lapTime
    (x := 10) (y := 10) ⟨by decide, by decide, by decide, by decide⟩
  exact ⟨stores, ran, fun memory a => (paints memory a).2⟩

end SzOS.Efi
