import SzOS.Efi.Graphics
import SzOS.Semantics.Checked
import SzOS.Semantics.Layers

/-! Which pixels draw_box of the EFI kernel colours (graphics.c).

The stores go to `g_draw_target`, and a row's first index is a product of 32 bits.
So a square lands in the buffer passed as an argument when the target points as
many pixels past it as the products lose.
-/

set_option autoImplicit false

namespace SzOS.Efi
open Semantics

/-! ## Rows whose first index wraps -/

section Wrap

variable {modulus start stride count : Nat}

theorem row_le (start stride : Nat) {row row' : Nat} (below : row ≤ row') :
    (start + row) * stride ≤ (start + row') * stride :=
  Nat.mul_le_mul_right stride (Nat.add_le_add_left below start)

theorem row_succ (start stride row : Nat) : (start + (row + 1)) * stride = (start + row) * stride + stride := by
  rw [← Nat.add_assoc, Nat.succ_mul]

theorem row_eq (start stride row : Nat) : (start + row) * stride = start * stride + row * stride :=
  Nat.add_mul start row stride

/-- Rows that all wrap equally often are moved as a whole. -/
theorem row_same_wrap (same : start * stride / modulus = (start + (count - 1)) * stride / modulus)
    {row : Nat} (inside : row < count) :
    (start + row) * stride % modulus + start * stride / modulus * modulus = (start + row) * stride := by
  have first : start * stride ≤ (start + row) * stride := row_le _ _ (Nat.zero_le row)
  have last : (start + row) * stride ≤ (start + (count - 1)) * stride := row_le _ _ (by omega)
  have above := Nat.div_le_div_right (c := modulus) first
  have below := Nat.div_le_div_right (c := modulus) last
  have quotient : (start + row) * stride / modulus = start * stride / modulus := by omega
  rw [← quotient]
  exact Nat.mod_add_div' _ _

/-- Rows that fill the modulus once come out in another order. -/
theorem row_full_cycle (full : count * stride = modulus) (row : Nat) :
    (start + row) * stride % modulus = (start + row) % count * stride := by
  rw [← full, Nat.mul_mod_mul_right]

/-- Rows that cross the modulus once wrap as often as the first one or once more. -/
theorem row_wraps_once (crossed : start * stride / modulus < (start + (count - 1)) * stride / modulus)
    (narrow : (count - 1) * stride < modulus) :
    start * stride < start * stride / modulus * modulus + modulus ∧
      start * stride / modulus * modulus + modulus ≤ (start + (count - 1)) * stride ∧
      ∀ row < count,
        (start + row) * stride = start * stride / modulus * modulus + (start + row) * stride % modulus ∨
        (start + row) * stride =
          start * stride / modulus * modulus + modulus + (start + row) * stride % modulus := by
  have positive : 0 < modulus := by omega
  have once : (start * stride / modulus + 1) * modulus = start * stride / modulus * modulus + modulus :=
    Nat.succ_mul _ _
  have start_lt := Nat.lt_mul_of_div_lt (Nat.lt_succ_self (start * stride / modulus)) positive
  have last_ge := (Nat.le_div_iff_mul_le positive).mp (Nat.succ_le_of_lt crossed)
  rw [Nat.succ_eq_add_one, once] at start_lt last_ge
  refine ⟨start_lt, last_ge, ?_⟩
  intro row inside
  have first : start * stride ≤ (start + row) * stride := row_le _ _ (Nat.zero_le row)
  have last : (start + row) * stride ≤ (start + (count - 1)) * stride := row_le _ _ (by omega)
  have whole := row_eq start stride (count - 1)
  have parts := Nat.div_add_mod' ((start + row) * stride) modulus
  have above := Nat.div_le_div_right (c := modulus) first
  have twice := Nat.add_mul (start * stride / modulus) 2 modulus
  have below : (start + row) * stride / modulus < start * stride / modulus + 2 :=
    (Nat.div_lt_iff_lt_mul positive).mpr (by omega)
  rcases Nat.lt_or_ge (start * stride / modulus) ((start + row) * stride / modulus) with more | equal
  · have quotient : (start + row) * stride / modulus = start * stride / modulus + 1 := by omega
    rw [quotient, once] at parts
    exact Or.inr parts.symm
  · have quotient : (start + row) * stride / modulus = start * stride / modulus := by omega
    rw [quotient] at parts
    exact Or.inl parts.symm

/-- The rows with the lowest and the highest first index, as far apart as without wrapping. -/
structure Extremes (modulus start stride count low high : Nat) : Prop where
  lowIn : low < count
  highIn : high < count
  least : ∀ row < count, (start + low) * stride % modulus ≤ (start + row) * stride % modulus
  greatest : ∀ row < count, (start + row) * stride % modulus ≤ (start + high) * stride % modulus
  spread : (start + high) * stride % modulus =
    (start + low) * stride % modulus + (count - 1) * stride

variable {low high : Nat}

theorem Extremes.narrow (extremes : Extremes modulus start stride count low high)
    (wraps : 0 < modulus) : (count - 1) * stride < modulus := by
  have spread := extremes.spread
  have small := Nat.mod_lt ((start + high) * stride) wraps
  omega

/-- Where rows cross, the highest one is before the crossing and the lowest one after it. -/
theorem Extremes.crossing (extremes : Extremes modulus start stride count low high)
    (wraps : 0 < modulus)
    (crossed : start * stride / modulus < (start + (count - 1)) * stride / modulus) :
    (start + high) * stride =
        start * stride / modulus * modulus + (start + high) * stride % modulus ∧
      (start + low) * stride =
        start * stride / modulus * modulus + modulus + (start + low) * stride % modulus := by
  obtain ⟨start_lt, last_ge, rows⟩ := row_wraps_once crossed (extremes.narrow wraps)
  have inside := extremes.highIn
  have spread := extremes.spread
  have lowSmall := Nat.mod_lt ((start + low) * stride) wraps
  have highSmall := Nat.mod_lt ((start + high) * stride) wraps
  have whole := row_eq start stride (count - 1)
  have lowStart : start * stride ≤ (start + low) * stride := row_le _ _ (Nat.zero_le low)
  have highEnd : (start + high) * stride ≤ (start + (count - 1)) * stride := row_le _ _ (by omega)
  rcases rows high inside with before | after <;>
    rcases rows low extremes.lowIn with before' | after' <;> constructor <;> omega

/-- The lowest row then follows the highest one. -/
theorem Extremes.next (extremes : Extremes modulus start stride count low high)
    (wraps : 0 < modulus) (positive : 0 < stride)
    (crossed : start * stride / modulus < (start + (count - 1)) * stride / modulus) :
    low = high + 1 := by
  obtain ⟨highRow, lowRow⟩ := extremes.crossing wraps crossed
  obtain ⟨_, _, rows⟩ := row_wraps_once crossed (extremes.narrow wraps)
  have highSmall := Nat.mod_lt ((start + high) * stride) wraps
  have later : high < low := by
    by_contra earlier
    have order := row_le start stride (Nat.le_of_not_lt earlier)
    omega
  by_contra between
  have lowIn := extremes.lowIn
  have inside : high + 1 < count := by omega
  have step := row_succ start stride high
  have further := row_le start stride (show high + 1 + 1 ≤ low by omega)
  rw [row_succ] at further
  have above := extremes.least (high + 1) inside
  have below := extremes.greatest (high + 1) inside
  rcases rows (high + 1) inside with before | after <;> omega

/-- Such rows either wrap equally often or fill the modulus. -/
theorem Extremes.wrap_cases (extremes : Extremes modulus start stride count low high)
    (wraps : 0 < modulus) (positive : 0 < stride) :
    start * stride / modulus = (start + (count - 1)) * stride / modulus ∧
        (start + low) * stride % modulus + start * stride / modulus * modulus = start * stride ∨
      count * stride = modulus ∧ (start + low) * stride % modulus = 0 := by
  have lowIn := extremes.lowIn
  by_cases same : start * stride / modulus = (start + (count - 1)) * stride / modulus
  · have moved := row_same_wrap same lowIn
    have first := row_same_wrap same (show 0 < count by omega)
    have lowest := extremes.least 0 (by omega)
    have lowStart : start * stride ≤ (start + low) * stride := row_le _ _ (Nat.zero_le low)
    rw [Nat.add_zero] at first lowest
    exact Or.inl ⟨same, by omega⟩
  · right
    have crossed : start * stride / modulus < (start + (count - 1)) * stride / modulus :=
      Nat.lt_of_le_of_ne (Nat.div_le_div_right (row_le _ _ (Nat.zero_le _))) same
    obtain ⟨highRow, lowRow⟩ := extremes.crossing wraps crossed
    have spread := extremes.spread
    have step := row_succ start stride high
    rw [← extremes.next wraps positive crossed] at step
    have full : count * stride = modulus := by
      have split : count * stride = (count - 1) * stride + stride := by
        rw [← Nat.succ_mul]
        congr 1
        omega
      omega
    refine ⟨full, ?_⟩
    have most : (start + high) % count * stride ≤ (count - 1) * stride := by
      apply Nat.mul_le_mul_right
      have turned := Nat.mod_lt (start + high) (show 0 < count by omega)
      omega
    rw [row_full_cycle full high] at spread
    omega

theorem exists_row {row : Nat} (inside : row < count) (start : Nat) :
    ∃ other < count, (start + other) % count = row := by
  have below := Nat.mod_lt start (Nat.zero_lt_of_lt inside)
  refine ⟨(row + (count - start % count)) % count, Nat.mod_lt _ (Nat.zero_lt_of_lt inside), ?_⟩
  have parts := Nat.div_add_mod start count
  have whole : start + (row + (count - start % count)) = row + count * (start / count + 1) := by
    rw [Nat.mul_add, Nat.mul_one]
    omega
  rw [Nat.add_mod_mod, whole, Nat.add_mul_mod_self_left, Nat.mod_eq_of_lt inside]

end Wrap

/-! ## The square and what is painted -/

/-- The pixels of a square of a buffer, with rows of `stride` pixels. -/
def InSquare (b : Int) (x y size stride : Nat) (a : Int) : Prop :=
  ∃ row < size, ∃ col < size, a = b + ((y + row) * stride + (x + col) : Nat)

/-- No sum of coordinates overflows, the square has its colour and nothing else changes. -/
structure FillsSquare (g : GraphicsGlobals) (b : Address) (x y size stride color : BitVec 32) : Prop where
  sums : ∀ k < size.toInt.toNat, InSigned 32 (x.toInt + k) ∧ InSigned 32 (y.toInt + k)
  square : ∀ memory a, InSquare b x.toNat y.toNat size.toInt.toNat stride.toNat a →
    g.paint (drawBox g b x y size stride color) memory a = color
  others : ∀ memory a, ¬ InSquare b x.toNat y.toNat size.toInt.toNat stride.toNat a →
    g.paint (drawBox g b x y size stride color) memory a = memory a

/-- The target lies past the buffer by what each row's product loses, or the rows fill
2^32 indices and the target is the square's first row. -/
def Reaches (target b : Int) (y size stride : Nat) : Prop :=
  y * stride / 2 ^ 32 = (y + (size - 1)) * stride / 2 ^ 32 ∧
      target = b + (y * stride / 2 ^ 32 * 2 ^ 32 : Nat) ∨
    size * stride = 2 ^ 32 ∧ target = b + (y * stride : Nat)

/-- Where the stores go, with their products of 32 bits. -/
def Painted (target : Int) (x y size stride : Nat) (a : Int) : Prop :=
  ∃ row < size, ∃ col < size, a = target + ((y + row) * stride % 2 ^ 32 + (x + col) : Nat)

section Squares

variable {target b : Int} {x y size stride : Nat}

theorem painted_iff_of_reaches (reaches : Reaches target b y size stride) (a : Int) :
    Painted target x y size stride a ↔ InSquare b x y size stride a := by
  rcases reaches with ⟨same, place⟩ | ⟨full, place⟩
  · have rows : ∀ row < size, ∀ col : Nat, target + ((y + row) * stride % 2 ^ 32 + (x + col) : Nat) =
        b + ((y + row) * stride + (x + col) : Nat) := by
      intro row inside col
      have moved := row_same_wrap same inside
      omega
    constructor
    · rintro ⟨row, inRow, col, inColumn, rfl⟩
      exact ⟨row, inRow, col, inColumn, rows row inRow col⟩
    · rintro ⟨row, inRow, col, inColumn, rfl⟩
      exact ⟨row, inRow, col, inColumn, (rows row inRow col).symm⟩
  · have rows : ∀ row col : Nat, target + ((y + row) * stride % 2 ^ 32 + (x + col) : Nat) =
        b + ((y + (y + row) % size) * stride + (x + col) : Nat) := by
      intro row col
      rw [row_full_cycle full, row_eq, place]
      omega
    constructor
    · rintro ⟨row, inRow, col, inColumn, rfl⟩
      exact ⟨(y + row) % size, Nat.mod_lt _ (by omega), col, inColumn, rows row col⟩
    · rintro ⟨row, inRow, col, inColumn, rfl⟩
      obtain ⟨other, inOther, turned⟩ := exists_row inRow y
      have moved := rows other col
      rw [turned] at moved
      exact ⟨other, inOther, col, inColumn, moved.symm⟩

theorem reaches_of_painted (drawn : 0 < size) (inLine : x + size ≤ stride)
    (same : ∀ a, Painted target x y size stride a ↔ InSquare b x y size stride a) :
    Reaches target b y size stride := by
  -- the first and the last pixel of the square are painted by the extreme rows
  obtain ⟨low, lowIn, lowCol, _, first⟩ := (same _).mpr ⟨0, drawn, 0, drawn, rfl⟩
  obtain ⟨high, highIn, highCol, highColIn, last⟩ :=
    (same _).mpr ⟨size - 1, by omega, size - 1, by omega, rfl⟩
  have above : ∀ row < size, b + (y * stride : Nat) ≤ target + ((y + row) * stride % 2 ^ 32 : Nat) := by
    intro row inside
    obtain ⟨other, _, col, _, place⟩ := (same _).mp ⟨row, inside, 0, drawn, rfl⟩
    have := row_le y stride (Nat.zero_le other)
    rw [Nat.add_zero] at this
    omega
  have below : ∀ row < size, target + ((y + row) * stride % 2 ^ 32 : Nat) ≤
      b + ((y + (size - 1)) * stride : Nat) := by
    intro row inside
    obtain ⟨other, inOther, col, inColumn, place⟩ :=
      (same _).mp ⟨row, inside, size - 1, by omega, rfl⟩
    have := row_le y stride (show other ≤ size - 1 by omega)
    omega
  have lowAbove := above low lowIn
  have highBelow := below high highIn
  have whole := row_eq y stride (size - 1)
  rw [Nat.add_zero] at first
  have extremes : Extremes (2 ^ 32) y stride size low high := by
    refine ⟨lowIn, highIn, ?_, ?_, by omega⟩
    · intro row inside
      have lowest := above row inside
      omega
    · intro row inside
      have highest := below row inside
      omega
  rcases extremes.wrap_cases (by decide) (show 0 < stride by omega) with ⟨equal, lost⟩ | ⟨full, zero⟩
  · exact Or.inl ⟨equal, by omega⟩
  · exact Or.inr ⟨full, by omega⟩

end Squares

section Paint

variable {g : GraphicsGlobals} {stores : List PixelStore} {a : Address}

theorem paint_eq_shown (g : GraphicsGlobals) (stores : List PixelStore) (memory : Pixels) (a : Address) :
    g.paint stores memory a =
      (shown (fun store => g.drawTarget + store.index) PixelStore.color stores a).getD (memory a) :=
  storeAll_cell _ _ _ _ _

/-- A cell that stores of one colour reach has that colour. -/
theorem paint_reached {color : BitVec 32} (single : ∀ store ∈ stores, store.color = color)
    (reached : ∃ store ∈ stores, g.drawTarget + store.index = a) (memory : Pixels) :
    g.paint stores memory a = color := by
  rw [paint_eq_shown, shown_eq_some reached fun store member _ => single store member]
  rfl

theorem paint_missed (missed : ¬ ∃ store ∈ stores, g.drawTarget + store.index = a) (memory : Pixels) :
    g.paint stores memory a = memory a := by
  rw [paint_eq_shown, shown_eq_none fun store member here => missed ⟨store, member, here⟩]
  rfl

end Paint

/-! ## draw_box -/

section DrawBox

variable {g : GraphicsGlobals} {b : Address} {x y size stride color : BitVec 32}

theorem drawBox_painted (columns : x.toNat + size.toInt.toNat ≤ 2 ^ 31)
    (rows : y.toNat + size.toInt.toNat ≤ 2 ^ 31) (a : Address) :
    (∃ store ∈ drawBox g b x y size stride color, g.drawTarget + store.index = a) ↔
      Painted g.drawTarget x.toNat y.toNat size.toInt.toNat stride.toNat a := by
  have place : ∀ row < size.toInt.toNat, ∀ col < size.toInt.toNat,
      (drawPixel g.framebuffer (x + BitVec.ofNat 32 col) (y + BitVec.ofNat 32 row) stride color).index =
        ((y.toNat + row) * stride.toNat % 2 ^ 32 + (x.toNat + col) : Nat) := by
    intro row inRow col inColumn
    have column := toNat_add_small x (by omega) inColumn
    have line := toNat_add_small y (by omega) inRow
    have signed : (x + BitVec.ofNat 32 col).toInt = (x + BitVec.ofNat 32 col).toNat :=
      BitVec.toInt_eq_toNat_of_lt (by omega)
    simp only [drawPixel, signed, column, BitVec.toNat_mul, line]
    omega
  constructor
  · rintro ⟨store, member, rfl⟩
    obtain ⟨row, inRow, member⟩ := List.mem_flatMap.mp member
    obtain ⟨col, inColumn, rfl⟩ := List.mem_map.mp member
    have inRow := List.mem_range.mp inRow
    have inColumn := List.mem_range.mp inColumn
    exact ⟨row, inRow, col, inColumn, congrArg _ (place row inRow col inColumn)⟩
  · rintro ⟨row, inRow, col, inColumn, rfl⟩
    refine ⟨_, List.mem_flatMap.mpr ⟨row, List.mem_range.mpr inRow,
      List.mem_map.mpr ⟨col, List.mem_range.mpr inColumn, rfl⟩⟩, ?_⟩
    exact congrArg _ (place row inRow col inColumn)

theorem drawBox_color (store : PixelStore) (member : store ∈ drawBox g b x y size stride color) :
    store.color = color := by
  obtain ⟨row, _, member⟩ := List.mem_flatMap.mp member
  obtain ⟨col, _, rfl⟩ := List.mem_map.mp member
  rfl

/-- Every memory gets exactly the square when the stores go to its pixels. -/
theorem fills_iff_same (g : GraphicsGlobals) (b : Address) (color : BitVec 32)
    (columns : x.toNat + size.toInt.toNat ≤ 2 ^ 31)
    (rows : y.toNat + size.toInt.toNat ≤ 2 ^ 31) :
    ((∀ memory a, InSquare b x.toNat y.toNat size.toInt.toNat stride.toNat a →
        g.paint (drawBox g b x y size stride color) memory a = color) ∧
      ∀ memory a, ¬ InSquare b x.toNat y.toNat size.toInt.toNat stride.toNat a →
        g.paint (drawBox g b x y size stride color) memory a = memory a) ↔
      ∀ a, Painted g.drawTarget x.toNat y.toNat size.toInt.toNat stride.toNat a ↔
        InSquare b x.toNat y.toNat size.toInt.toNat stride.toNat a := by
  have reaches : ∀ a, (∃ store ∈ drawBox g b x y size stride color, g.drawTarget + store.index = a) ↔
      Painted g.drawTarget x.toNat y.toNat size.toInt.toNat stride.toNat a := drawBox_painted columns rows
  constructor
  · rintro ⟨square, others⟩ a
    -- a memory that has another colour everywhere
    let memory : Pixels := fun _ => color + 1
    have other : color + 1 ≠ color := by bv_omega
    constructor
    · intro painted
      by_contra outside
      have colored := paint_reached drawBox_color ((reaches a).mpr painted) memory
      exact other ((others memory a outside).symm.trans colored)
    · intro inside
      by_contra missed
      have kept := paint_missed (mt (reaches a).mp missed) memory
      exact other (kept.symm.trans (square memory a inside))
  · intro same
    constructor
    · intro memory a inside
      exact paint_reached drawBox_color ((reaches a).mpr ((same a).mpr inside)) memory
    · intro memory a outside
      exact paint_missed (fun reached => outside ((same a).mp ((reaches a).mp reached))) memory

/-- No sum overflows when the square ends within the positive half of `int`. -/
theorem sums_iff (left : 0 ≤ x.toInt) (top : 0 ≤ y.toInt) (drawn : 0 < size.toInt.toNat) :
    (∀ k < size.toInt.toNat, InSigned 32 (x.toInt + k) ∧ InSigned 32 (y.toInt + k)) ↔
      x.toInt + size.toInt ≤ 2 ^ 31 ∧ y.toInt + size.toInt ≤ 2 ^ 31 := by
  constructor
  · intro sums
    obtain ⟨column, line⟩ := sums (size.toInt.toNat - 1) (by omega)
    have := column.2
    have := line.2
    omega
  · rintro ⟨columns, rows⟩ k below
    constructor <;> constructor <;> omega

/-- draw_box colours the square of the buffer it is given exactly when `size` is not
positive, or no sum of coordinates overflows and the target reaches that square. -/
theorem drawBox_fills_iff (g : GraphicsGlobals) (b : Address) {x y size stride : BitVec 32}
    (color : BitVec 32) (left : 0 ≤ x.toInt) (top : 0 ≤ y.toInt)
    (inLine : x.toInt + size.toInt ≤ stride.toNat) :
    FillsSquare g b x y size stride color ↔
      size.toInt ≤ 0 ∨ x.toInt + size.toInt ≤ 2 ^ 31 ∧ y.toInt + size.toInt ≤ 2 ^ 31 ∧
        Reaches g.drawTarget b y.toNat size.toInt.toNat stride.toNat := by
  have column := toInt_of_nonneg left
  have line := toInt_of_nonneg top
  by_cases none : size.toInt ≤ 0
  · have empty : size.toInt.toNat = 0 := by omega
    refine ⟨fun _ => Or.inl none, fun _ => ⟨?_, ?_, ?_⟩⟩
    · rw [empty]
      intro k below
      exact absurd below (Nat.not_lt_zero k)
    · rintro memory a ⟨row, inRow, _⟩
      exact absurd (empty ▸ inRow) (Nat.not_lt_zero row)
    · intro memory a _
      apply paint_missed
      rintro ⟨store, member, _⟩
      obtain ⟨row, inRow, _⟩ := List.mem_flatMap.mp member
      exact absurd (empty ▸ List.mem_range.mp inRow) (Nat.not_lt_zero row)
  · have drawn : 0 < size.toInt.toNat := by omega
    constructor
    · rintro ⟨sums, square, others⟩
      obtain ⟨columns, rows⟩ := (sums_iff left top drawn).mp sums
      have same := (fills_iff_same g b color (by omega) (by omega)).mp ⟨square, others⟩
      exact Or.inr ⟨columns, rows, reaches_of_painted drawn (by omega) same⟩
    · rintro (nonpositive | ⟨columns, rows, reaches⟩)
      · exact absurd nonpositive none
      · have right : x.toNat + size.toInt.toNat ≤ 2 ^ 31 := by omega
        have bottom : y.toNat + size.toInt.toNat ≤ 2 ^ 31 := by omega
        obtain ⟨square, others⟩ :=
          (fills_iff_same g b color right bottom).mpr (painted_iff_of_reaches reaches)
        exact ⟨(sums_iff left top drawn).mpr ⟨columns, rows⟩, square, others⟩

end DrawBox

/-- The globals when main shows the result of its memory test, before it sets the target. -/
def memoryTestGlobals : GraphicsGlobals := ⟨0x20000000, 800, 0⟩

theorem drawBox_fills_iff_memoryTest :
    FillsSquare memoryTestGlobals 0x20000000 0 0 20 800 0x0000FF00 ↔
      (20 : BitVec 32).toInt ≤ 0 ∨ (0 : BitVec 32).toInt + (20 : BitVec 32).toInt ≤ 2 ^ 31 ∧
        (0 : BitVec 32).toInt + (20 : BitVec 32).toInt ≤ 2 ^ 31 ∧
        Reaches memoryTestGlobals.drawTarget 0x20000000 (0 : BitVec 32).toNat
          (20 : BitVec 32).toInt.toNat (800 : BitVec 32).toNat :=
  drawBox_fills_iff memoryTestGlobals 0x20000000 0x0000FF00 (by decide) (by decide) (by decide)

/-- The square of the memory test goes to address 0. -/
theorem memoryTest_not_shown :
    ¬ FillsSquare memoryTestGlobals 0x20000000 0 0 20 800 0x0000FF00 := by
  rintro ⟨_, square, others⟩
  have same := (fills_iff_same memoryTestGlobals _ _ (by decide) (by decide)).mp ⟨square, others⟩
  have reaches := reaches_of_painted (by decide) (by decide) same
  unfold Reaches memoryTestGlobals at reaches
  revert reaches
  decide

end SzOS.Efi
