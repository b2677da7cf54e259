import Mathlib.Algebra.Group.Int.Defs
import Mathlib.Algebra.Group.Nat.Defs
import Mathlib.Tactic.TypeStar

/-! Signed machine arithmetic done exactly, with an answer only while the result fits. -/

set_option autoImplicit false

namespace SzOS.Semantics

/-- The range of a signed word. -/
def InSigned (width : Nat) (value : Int) : Prop :=
  -(2 ^ width : Nat) ≤ value * 2 ∧ value * 2 < (2 ^ width : Nat)

instance (width : Nat) (value : Int) : Decidable (InSigned width value) :=
  inferInstanceAs (Decidable (_ ∧ _))

/-- `none` is an overflow. -/
def checked (width : Nat) (value : Int) : Option Int :=
  if InSigned width value then some value else none

variable {width : Nat} {value result : Int} {x y : BitVec width}

theorem checked_eq_some : checked width value = some result ↔ InSigned width value ∧ value = result := by
  unfold checked
  split
  next fits => simp [fits]
  next large => simp [large]

theorem checked_of_inSigned (fits : InSigned width value) : checked width value = some value :=
  if_pos fits

theorem toInt_add_of_inSigned (fits : InSigned width (x.toInt + y.toInt)) :
    (x + y).toInt = x.toInt + y.toInt := by
  rw [BitVec.toInt_add]
  exact Int.bmod_eq_of_le_mul_two fits.1 fits.2

theorem toInt_sub_of_inSigned (fits : InSigned width (x.toInt - y.toInt)) :
    (x - y).toInt = x.toInt - y.toInt := by
  rw [BitVec.toInt_sub]
  exact Int.bmod_eq_of_le_mul_two fits.1 fits.2

theorem toInt_neg_of_inSigned (fits : InSigned width (-x.toInt)) : (-x).toInt = -x.toInt := by
  rw [BitVec.toInt_neg]
  exact Int.bmod_eq_of_le_mul_two fits.1 fits.2

end SzOS.Semantics
