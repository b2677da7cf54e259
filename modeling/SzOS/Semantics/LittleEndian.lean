import Mathlib.Algebra.Order.Group.Nat
import SzOS.Semantics.Blocks

/-! Numbers in consecutive bytes, the lowest byte first. -/

set_option autoImplicit false

namespace SzOS.Semantics

variable {width : Nat}

/-- The bytes of a number, counted from the lowest. -/
def leBytes (value : BitVec width) (i : Nat) : BitVec 8 := value.extractLsb' (8 * i) 8

def leValue (bytes : Nat → BitVec 8) : Nat → Nat
  | 0 => 0
  | count + 1 => leValue bytes count + 2 ^ (8 * count) * (bytes count).toNat

/-- The number in the first `count` bytes. -/
def leRead (width : Nat) (bytes : Nat → BitVec 8) (count : Nat) : BitVec width :=
  BitVec.ofNat width (leValue bytes count)

theorem leValue_congr {bytes other : Nat → BitVec 8} {count : Nat} (same : ∀ i < count, bytes i = other i) :
    leValue bytes count = leValue other count := by
  induction count with
  | zero => rfl
  | succ count ih =>
    rw [leValue, leValue, ih fun i inside => same i (Nat.lt_succ_of_lt inside), same count (Nat.lt_succ_self count)]

theorem leRead_congr {bytes other : Nat → BitVec 8} {count : Nat} (same : ∀ i < count, bytes i = other i) :
    leRead width bytes count = leRead width other count := by
  rw [leRead, leRead, leValue_congr same]

theorem leValue_leBytes (value : BitVec width) (count : Nat) :
    leValue (leBytes value) count = value.toNat % 2 ^ (8 * count) := by
  induction count with
  | zero => rw [leValue, Nat.mul_zero, Nat.pow_zero, Nat.mod_one]
  | succ count ih =>
    have byte : (leBytes value count).toNat = value.toNat / 2 ^ (8 * count) % 2 ^ 8 := by
      rw [leBytes, BitVec.extractLsb'_toNat, Nat.shiftRight_eq_div_pow]
    rw [leValue, ih, byte, ← Nat.mod_mul, ← Nat.pow_add, Nat.mul_succ]

/-- Enough bytes to hold a number give it back. -/
theorem leRead_leBytes (value : BitVec width) {count : Nat} (enough : width ≤ 8 * count) :
    leRead width (leBytes value) count = value := by
  have small : value.toNat < 2 ^ (8 * count) :=
    Nat.lt_of_lt_of_le value.isLt (Nat.pow_le_pow_right (by decide) enough)
  rw [leRead, leValue_leBytes, Nat.mod_eq_of_lt small, BitVec.ofNat_toNat, BitVec.setWidth_eq]

/-! ## In memory -/

def leStore (start count : Nat) (value : BitVec width) (memory : Nat → BitVec 8) : Nat → BitVec 8 :=
  Block.fill ⟨start, count⟩ (leBytes value) memory

def leLoad (width start count : Nat) (memory : Nat → BitVec 8) : BitVec width :=
  leRead width (fun i => memory (start + i)) count

variable {start other count count' : Nat} {memory : Nat → BitVec 8}

theorem leLoad_byte (start : Nat) (memory : Nat → BitVec 8) : leLoad 8 start 1 memory = memory start := by
  simp [leLoad, leRead, leValue]

theorem leLoad_leStore (value : BitVec width) (enough : width ≤ 8 * count) :
    leLoad width start count (leStore start count value memory) = value := by
  have stored : ∀ i < count, leStore start count value memory (start + i) = leBytes value i :=
    fun i inside => Block.fill_inside ⟨start, count⟩ (leBytes value) memory inside
  rw [leLoad, leRead_congr stored, leRead_leBytes value enough]

theorem leLoad_leStore_apart {wide : Nat} (value : BitVec wide)
    (apart : other + count' ≤ start ∨ start + count ≤ other) :
    leLoad width other count' (leStore start count value memory) = leLoad width other count' memory := by
  refine leRead_congr fun i inside => Block.fill_outside ⟨start, count⟩ (leBytes value) memory ?_
  simp only [Block.Covers, Block.stop]
  omega

theorem leStore_outside (value : BitVec width) {address : Nat}
    (outside : address < start ∨ start + count ≤ address) :
    leStore start count value memory address = memory address := by
  refine Block.fill_outside _ _ _ ?_
  simp only [Block.Covers, Block.stop]
  omega

end SzOS.Semantics
