import Mathlib.Algebra.Group.Nat.Defs
import Mathlib.Data.List.TakeWhile

/-! Hexadecimal numerals of fixed width in ASCII, and fields of text between marks. -/

set_option autoImplicit false

namespace SzOS.Semantics

def hexDigit (digit : Nat) : UInt8 := UInt8.ofNat (if digit < 10 then 48 + digit else 55 + digit)

def hexValue (byte : UInt8) : Nat := if byte.toNat < 58 then byte.toNat - 48 else byte.toNat - 55

/-- The lowest `width` digits of a number, the highest of them first. -/
def hexNumeral : Nat → Nat → List UInt8
  | 0, _ => []
  | width + 1, n => hexDigit (n / 16 ^ width % 16) :: hexNumeral width n

def parseHex (bytes : List UInt8) : Nat :=
  bytes.foldl (fun value byte => value * 16 + hexValue byte) 0

theorem hexValue_hexDigit {digit : Nat} (small : digit < 16) : hexValue (hexDigit digit) = digit := by
  have table : ∀ digit : Fin 16, hexValue (hexDigit digit) = digit.val := by decide
  exact table ⟨digit, small⟩

theorem hexNumeral_length (width n : Nat) : (hexNumeral width n).length = width := by
  induction width with
  | zero => rfl
  | succ width ih => rw [hexNumeral, List.length_cons, ih]

/-- A property of the sixteen digits. -/
theorem hexNumeral_forall (property : UInt8 → Prop) (digits : ∀ digit : Fin 16, property (hexDigit digit))
    (width n : Nat) : ∀ byte ∈ hexNumeral width n, property byte := by
  induction width with
  | zero => exact fun _ member => absurd member List.not_mem_nil
  | succ width ih => exact List.forall_mem_cons.mpr ⟨digits ⟨_, Nat.mod_lt _ (by decide)⟩, ih⟩

theorem parseHex_hexNumeral (width n : Nat) : parseHex (hexNumeral width n) = n % 16 ^ width := by
  have accumulates : ∀ width value, (hexNumeral width n).foldl (fun value byte => value * 16 + hexValue byte) value =
      value * 16 ^ width + n % 16 ^ width := by
    intro width
    induction width with
    | zero =>
      intro value
      rw [hexNumeral, List.foldl_nil, Nat.pow_zero, Nat.mul_one, Nat.mod_one, Nat.add_zero]
    | succ width ih =>
      intro value
      rw [hexNumeral, List.foldl_cons, hexValue_hexDigit (Nat.mod_lt _ (by decide)), ih, Nat.pow_succ,
        Nat.mod_mul, Nat.add_mul, Nat.mul_assoc, Nat.mul_comm 16, Nat.mul_comm (n / 16 ^ width % 16)]
      omega
  rw [parseHex, accumulates, Nat.zero_mul, Nat.zero_add]

/-! ## Marks -/

/-- The text before the first mark. -/
def untilByte (mark : UInt8) (text : List UInt8) : List UInt8 := text.takeWhile (· ≠ mark)

/-- The text behind it. -/
def afterByte (mark : UInt8) (text : List UInt8) : List UInt8 := (text.dropWhile (· ≠ mark)).drop 1

section Marks

variable {mark : UInt8} {first : List UInt8} (unmarked : ∀ byte ∈ first, byte ≠ mark)
include unmarked

theorem untilByte_append (rest : List UInt8) : untilByte mark (first ++ mark :: rest) = first := by
  unfold untilByte
  rw [List.takeWhile_append_of_pos (fun byte member => decide_eq_true (unmarked byte member)),
    List.takeWhile_cons_of_neg (by simp), List.append_nil]

theorem afterByte_append (rest : List UInt8) : afterByte mark (first ++ mark :: rest) = rest := by
  unfold afterByte
  rw [List.dropWhile_append_of_pos (fun byte member => decide_eq_true (unmarked byte member)),
    List.dropWhile_cons_of_neg (by simp)]
  rfl

end Marks

end SzOS.Semantics
