import Mathlib.Algebra.Group.Nat.Defs

/-! Machine words read as numbers: masks, and signed operations below the sign bit. -/

set_option autoImplicit false

namespace SzOS.Semantics

theorem msb_of_lt {width : Nat} {x : BitVec width} (small : 2 * x.toNat < 2 ^ width) :
    x.msb = false := by
  rw [BitVec.msb_eq_false_iff_two_mul_lt]
  exact small

theorem toNat_signExtend_of_lt {width wider : Nat} {x : BitVec width} (small : 2 * x.toNat < 2 ^ width)
    (widens : width ≤ wider) : (x.signExtend wider).toNat = x.toNat := by
  rw [BitVec.signExtend_eq_setWidth_of_msb_false (msb_of_lt small), BitVec.toNat_setWidth]
  exact Nat.mod_eq_of_lt (Nat.lt_of_lt_of_le x.isLt (Nat.pow_le_pow_right Nat.zero_lt_two widens))

theorem toNat_sdiv_of_lt {width : Nat} {x y : BitVec width} (small : 2 * x.toNat < 2 ^ width)
    (small' : 2 * y.toNat < 2 ^ width) : (x.sdiv y).toNat = x.toNat / y.toNat := by
  rw [BitVec.sdiv_eq, msb_of_lt small, msb_of_lt small']
  exact BitVec.toNat_udiv

/-- Numbers below the wrap-around stay apart as words. -/
theorem ofNat_injective {K : Type*} {place : K → Nat} {width : Nat}
    (injective : Function.Injective place) (small : ∀ k, place k < 2 ^ width) :
    Function.Injective fun k => BitVec.ofNat width (place k) := by
  intro first second same
  have places := congrArg BitVec.toNat same
  simp only [BitVec.toNat_ofNat, Nat.mod_eq_of_lt (small _)] at places
  exact injective places

/-- A mask that keeps the low bits does nothing before a truncation to them. -/
theorem setWidth_and_mask {width low : Nat} (x : BitVec width) {mask : BitVec width}
    (ones : mask.setWidth low = BitVec.allOnes low) : (x &&& mask).setWidth low = x.setWidth low := by
  rw [BitVec.setWidth_and, ones, BitVec.and_allOnes]

/-- A word cut in two, whatever stands above the cut parts. -/
theorem setWidth_append {width : Nat} (x : BitVec width) (high low : Nat) :
    (x >>> low).setWidth high ++ x.setWidth low = x.setWidth (high + low) := by
  ext i bound
  rw [BitVec.getElem_append, BitVec.getElem_setWidth]
  split
  next inLow => rw [BitVec.getElem_setWidth]
  next inHigh =>
    rw [BitVec.getElem_setWidth, BitVec.getLsbD_ushiftRight, Nat.add_sub_of_le (Nat.le_of_not_lt inHigh)]

theorem mask_bit : ∀ i : Fin 32, (~~~3#32)[i] = decide (2 ≤ i.val) := by decide

theorem mask_eq_shift (x : BitVec 32) : x &&& ~~~3#32 = (x >>> 2) <<< 2 := by
  ext i bound
  have bit := mask_bit ⟨i, bound⟩
  simp only [Fin.getElem_fin] at bit
  rw [BitVec.getElem_and, bit]
  by_cases low : i < 2
  · simp [low]
  · have same : 2 + (i - 2) = i := by omega
    simp [low, same, Nat.le_of_not_lt low, bound]

/-- Clearing the two low bits rounds down to a multiple of four. -/
theorem toNat_mask (x : BitVec 32) : (x &&& ~~~3#32).toNat = x.toNat / 4 * 4 := by
  have bound := x.isLt
  rw [mask_eq_shift, BitVec.toNat_shiftLeft, BitVec.toNat_ushiftRight, Nat.shiftLeft_eq,
    Nat.shiftRight_eq_div_pow]
  omega

end SzOS.Semantics
