import SzOS.KernelC.Screen

/-! Short texts on the screen of kernel-c: a line that neither scrolls nor breaks is laid
over what the screen shows, cell by cell.
-/

set_option autoImplicit false

namespace SzOS.KernelC.Screen
open Libc

/-- The bytes of a text that starts at a cell. -/
def textAt (bytes : List UInt8) (start cell : Nat) : Option UInt8 :=
  if start ≤ cell then bytes[cell - start]? else none

/-- Cells printed over a screen. -/
def overlay (base : Memory) (content : Nat → Option UInt8) : Memory := fun address =>
  if 0 ≤ address then
    match content (address / 2).toNat with
    | some byte => if address % 2 = 0 then byte else whiteOnBlack
    | none => base address
  else base address

theorem overlay_none (base : Memory) : overlay base (fun _ => none) = base := by
  funext address
  unfold overlay
  split <;> rfl

/-- What is laid over a screen shows at its cells. -/
theorem overlay_cell (base : Memory) (content : Nat → Option UInt8) (cell : Nat) :
    overlay base content (2 * cell) = (content cell).getD (base (2 * cell)) ∧
      overlay base content (2 * cell + 1) =
        if (content cell).isSome then whiteOnBlack else base (2 * cell + 1) := by
  have char : ((2 * (cell : Int)) / 2).toNat = cell := by omega
  have attr : ((2 * (cell : Int) + 1) / 2).toNat = cell := by omega
  unfold overlay
  rw [if_pos (by omega), if_pos (by omega), char, attr]
  cases content cell with
  | none => exact ⟨rfl, rfl⟩
  | some byte => exact ⟨if_pos (by omega), if_neg (by omega)⟩

theorem overlay_update (base : Memory) (content : Nat → Option UInt8) (p : Nat) (c : UInt8) :
    Function.update (Function.update (overlay base content) (2 * p) c) (2 * p + 1) whiteOnBlack =
      overlay base (Function.update content p (some c)) := by
  funext address
  by_cases attr : address = 2 * p + 1
  · subst attr
    rw [Function.update_self, (overlay_cell ..).2, Function.update_self]
    rfl
  · rw [Function.update_of_ne attr]
    by_cases char : address = 2 * p
    · subst char
      rw [Function.update_self, (overlay_cell ..).1, Function.update_self]
      rfl
    · rw [Function.update_of_ne char]
      unfold overlay
      by_cases positive : 0 ≤ address
      · have elsewhere : (address / 2).toNat ≠ p := by omega
        rw [if_pos positive, if_pos positive, Function.update_of_ne elsewhere]
      · rw [if_neg positive, if_neg positive]

theorem textAt_cons (byte : UInt8) (bytes : List UInt8) (p cell : Nat) (content : Nat → Option UInt8) :
    (textAt bytes (p + 1) cell).or (Function.update content p (some byte) cell) =
      (textAt (byte :: bytes) p cell).or (content cell) := by
  unfold textAt
  rcases Nat.lt_trichotomy cell p with left | rfl | right
  · rw [if_neg (by omega), if_neg (by omega), Function.update_of_ne (by omega)]
  · rw [if_neg (by omega), if_pos (Nat.le_refl cell), Function.update_self, Nat.sub_self]
    rfl
  · have index : cell - p = cell - (p + 1) + 1 := by omega
    rw [if_pos (by omega), if_pos (by omega), Function.update_of_ne (by omega), index,
      List.getElem?_cons_succ]

/-- A newline above the last row. -/
theorem put_newline {p : Nat} (above : p < 24 * 80) (memory : Memory) :
    put (p, memory) newline = ((p / 80 + 1) * 80, memory) := by
  unfold put typed scrolled
  rw [if_pos rfl, if_neg (show ¬ 2000 ≤ (p / 80 + 1) * 80 by omega)]

theorem put_text {p : Nat} (inside : p + 1 < 2000) {c : UInt8} (plain : c ≠ newline)
    (base : Memory) (content : Nat → Option UInt8) :
    put (p, overlay base content) c = (p + 1, overlay base (Function.update content p (some c))) := by
  unfold put typed scrolled
  simp only [if_neg plain, if_neg (Nat.not_le_of_lt inside), overlay_update]

/-- A text without newlines that ends before the last cell. -/
theorem foldl_put_text {bytes : List UInt8} (plain : ∀ byte ∈ bytes, byte ≠ newline) {p : Nat}
    (inside : p + bytes.length < 2000) (base : Memory) (content : Nat → Option UInt8) :
    bytes.foldl put (p, overlay base content) =
      (p + bytes.length, overlay base fun cell => (textAt bytes p cell).or (content cell)) := by
  induction bytes generalizing p content with
  | nil =>
    have none : ∀ cell, (textAt [] p cell).or (content cell) = content cell := by
      intro cell
      unfold textAt
      split <;> rfl
    simp only [none]
    rfl
  | cons byte bytes ih =>
    obtain ⟨here, later⟩ := List.forall_mem_cons.mp plain
    rw [List.length_cons] at inside
    rw [List.foldl_cons, put_text (by omega) here, ih later (by omega)]
    simp only [textAt_cons, List.length_cons]
    congr 1
    omega

/-- A string printed at a cell of the screen, wherever the cursor was. -/
theorem kprintAt_cells (message : CString) (nonempty : message.bytes ≠ []) {p : Nat}
    (small : p < 2000) (vga : Vga) :
    kprintAt message.object (p % 80 : Nat) (p / 80 : Nat) vga =
      some (vgaAt (message.bytes.foldl put (p, vga.vidmem)).1
        (message.bytes.foldl put (p, vga.vidmem)).2) := by
  have positive : ((p % 80 : Nat) : Int) ≥ 0 ∧ ((p / 80 : Nat) : Int) ≥ 0 := by omega
  have nonzero := message.nonzero
  unfold kprintAt CString.object
  rw [if_pos positive]
  cases shape : message.bytes with
  | nil => exact absurd shape nonempty
  | cons byte bytes =>
    rw [shape] at nonzero
    obtain ⟨here, later⟩ := List.forall_mem_cons.mp nonzero
    rw [List.cons_append, printLoop, if_neg here, printChar_cell small]
    simp only [getOffsetCol_cell, getOffsetRow_cell]
    exact printLoop_cells bytes later (put_small small byte) _

theorem kprintAt_text {message : CString} (nonempty : message.bytes ≠ [])
    (plain : ∀ byte ∈ message.bytes, byte ≠ newline) {p : Nat}
    (inside : p + message.bytes.length < 2000) {vga : Vga} {base : Memory}
    {content : Nat → Option UInt8} (shows : vga.vidmem = overlay base content) :
    kprintAt message.object (p % 80 : Nat) (p / 80 : Nat) vga =
      some (vgaAt (p + message.bytes.length)
        (overlay base fun cell => (textAt message.bytes p cell).or (content cell))) := by
  rw [kprintAt_cells message nonempty (by omega), shows, foldl_put_text plain inside]

end SzOS.KernelC.Screen
