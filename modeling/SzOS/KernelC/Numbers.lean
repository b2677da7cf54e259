import SzOS.Semantics.Checked
import SzOS.Semantics.Loop
import SzOS.Semantics.Numerals
import SzOS.Semantics.Store

/-! int_to_ascii of kernel-c (kernel/util.c).

The digits are written from the lowest up and turned round in place. The buffer
keeps a record of the stores, so that nothing past the terminator is written.
-/

set_option autoImplicit false

namespace SzOS.KernelC
open Semantics

abbrev Buffer := Store UInt8

/-- The variables of the digit loop. -/
structure Digits where
  n : BitVec 32
  i : Nat
  str : Buffer

/-- `str[i++] = n % 10 + '0'; n /= 10` -/
def digitStep (d : Digits) : Digits where
  n := d.n.sdiv 10
  i := d.i + 1
  str := d.str.write d.i (UInt8.ofBitVec ((d.n.srem 10 + 48).setWidth 8))

/-- `n > 0` -/
def digitsLeft (d : Digits) : Bool := (0 : BitVec 32).slt d.n

/-- A do-while loop: the body runs once before the first test. -/
def digitLoop (bound : Nat) (d : Digits) : Option Digits :=
  whileLoop digitsLeft (fun d => some (digitStep d)) bound (digitStep d)

/-- The first `j` swaps of the reversal. -/
def reverseString (i : Nat) (str : Buffer) : Nat → Buffer
  | 0 => str
  | j + 1 =>
    let str := reverseString i str j
    let temp := str.cells j
    let str := str.write j (str.cells (i - j - 1))
    str.write (i - j - 1) temp

def intToAscii (bound : Nat) (n : BitVec 32) (str : Buffer) : Option Buffer := do
  let sign := n
  let n := if sign.slt 0 then -n else n
  let d ← digitLoop bound ⟨n, 0, str⟩
  let (i, str) := if sign.slt 0 then (d.i + 1, d.str.write d.i '-'.toUInt8) else (d.i, d.str)
  let str := str.write i 0
  some (reverseString i str (i / 2))

/-- The call returns, and the buffer holds the numeral and its terminator. -/
def Converts (n : BitVec 32) (str : Buffer) : Prop :=
  ∃ bound final numeral, intToAscii bound n str = some final ∧ Canonical numeral ∧
    parse numeral = n.toInt ∧ final.Holds 0 (numeral ++ [0]) ∧ numeral.length < 12 ∧
    Store.StoresBelow (numeral.length + 1) str final

/-! ## The digits -/

section Words

variable {m : Nat} (small : m < 2 ^ 31)

include small

theorem toInt_ofNat_small : (BitVec.ofNat 32 m).toInt = m := by
  rw [BitVec.toInt_ofNat', Int.bmod_eq_of_le] <;> omega

theorem sdiv_ten : (BitVec.ofNat 32 m).sdiv 10 = BitVec.ofNat 32 (m / 10) := by
  have ten : (10 : BitVec 32).toInt = 10 := rfl
  apply BitVec.eq_of_toInt_eq
  rw [BitVec.toInt_sdiv_of_ne_or_ne _ _ (Or.inr (by decide)), ten, toInt_ofNat_small small,
    toInt_ofNat_small (by omega)]
  rfl

theorem digit_byte :
    UInt8.ofBitVec (((BitVec.ofNat 32 m).srem 10 + 48).setWidth 8) = digitByte (m % 10) := by
  have rest : (BitVec.ofNat 32 m).srem 10 = BitVec.ofNat 32 (m % 10) := by
    have ten : (10 : BitVec 32).toInt = 10 := rfl
    apply BitVec.eq_of_toInt_eq
    rw [BitVec.toInt_srem, ten, toInt_ofNat_small small, toInt_ofNat_small (by omega)]
    rfl
  have table : ∀ digit : Fin 10, UInt8.ofBitVec ((BitVec.ofNat 32 digit.val + 48).setWidth 8) =
      digitByte digit.val := by decide
  rw [rest]
  exact table ⟨m % 10, by omega⟩

theorem positive_iff : (0 : BitVec 32).slt (BitVec.ofNat 32 m) = true ↔ 0 < m := by
  have zero : (0 : BitVec 32).toInt = 0 := rfl
  rw [BitVec.slt_iff_toInt_lt, toInt_ofNat_small small, zero]
  omega

end Words

theorem digitStep_small {m : Nat} (small : m < 2 ^ 31) (i : Nat) (str : Buffer) :
    digitStep ⟨BitVec.ofNat 32 m, i, str⟩ =
      ⟨BitVec.ofNat 32 (m / 10), i + 1, str.write i (digitByte (m % 10))⟩ := by
  rw [digitStep, sdiv_ten small, digit_byte small]

theorem digitLoop_again {d : Digits} (more : digitsLeft (digitStep d) = true) (bound : Nat) :
    digitLoop (bound + 1) d = digitLoop bound (digitStep d) := by
  have body : (fun d => some (digitStep d)) (digitStep d) = some (digitStep (digitStep d)) := rfl
  exact whileLoop_step more body bound

/-- The loop writes the digits from the lowest up. -/
theorem digitLoop_spec {m : Nat} (small : m < 2 ^ 31) (i : Nat) (str : Buffer) :
    ∃ bound, digitLoop bound ⟨BitVec.ofNat 32 m, i, str⟩ =
      some ⟨0, i + (lowDigits m).length, str.writeFrom i ((lowDigits m).map digitByte)⟩ := by
  induction m using Nat.strong_induction_on generalizing i str with
  | _ m ih =>
    have first := digitStep_small small i str
    by_cases last : m < 10
    · have none : m / 10 = 0 := by omega
      have same : m % 10 = m := by omega
      rw [none, same] at first
      refine ⟨1, ?_⟩
      unfold digitLoop
      rw [lowDigits_of_lt last, first]
      rfl
    · have more : digitsLeft (digitStep ⟨BitVec.ofNat 32 m, i, str⟩) = true := by
        rw [first]
        exact (positive_iff (by omega)).mpr (by omega)
      obtain ⟨bound, ran⟩ := ih (m / 10) (by omega) (by omega) (i + 1) (str.write i (digitByte (m % 10)))
      have place : i + ((lowDigits (m / 10)).length + 1) = i + 1 + (lowDigits (m / 10)).length := by omega
      refine ⟨bound + 1, ?_⟩
      rw [digitLoop_again more, first, ran, lowDigits_of_ge (Nat.le_of_not_lt last), List.length_cons, place,
        List.map_cons, Store.writeFrom]

/-! ## The reversal -/

theorem reverseString_cells (str : Buffer) {i j : Nat} (half : j ≤ i / 2) (k : Nat) :
    (reverseString i str j).cells k =
      if k < j ∨ i - j ≤ k ∧ k < i then str.cells (i - 1 - k) else str.cells k := by
  induction j generalizing k with
  | zero => rw [reverseString, if_neg (by omega)]
  | succ j ih =>
    have before := ih (by omega)
    simp only [reverseString, Store.write_cells]
    by_cases upper : k = i - j - 1
    · subst upper
      rw [Function.update_self, before, if_neg (by omega), if_pos (by omega)]
      congr 1
      omega
    · rw [Function.update_of_ne upper]
      by_cases lower : k = j
      · subst lower
        rw [Function.update_self, before, if_neg (by omega), if_pos (by omega)]
        congr 1
        omega
      · rw [Function.update_of_ne lower, before]
        split <;> split <;> first | rfl | omega

theorem reverseString_below {limit i j : Nat} {before str : Buffer} (half : j ≤ i / 2) (inside : i ≤ limit)
    (stores : Store.StoresBelow limit before str) :
    Store.StoresBelow limit before (reverseString i str j) := by
  induction j with
  | zero => exact stores
  | succ j ih => exact ((ih (by omega)).write _ (by omega)).write _ (by omega)

theorem reverseString_holds {str : Buffer} {values rest : List UInt8}
    (held : str.Holds 0 (values ++ rest)) :
    (reverseString values.length str (values.length / 2)).Holds 0 (values.reverse ++ rest) := by
  intro k inside
  have reversed : ∀ k, (reverseString values.length str (values.length / 2)).cells k =
      if k < values.length then str.cells (values.length - 1 - k) else str.cells k := by
    intro k
    rw [reverseString_cells str (Nat.le_refl _)]
    -- the middle cell of an odd number stays where it is
    by_cases middle : values.length / 2 ≤ k ∧ k < values.length - values.length / 2
    · have own : values.length - 1 - k = k := by omega
      rw [if_neg (by omega), own, ite_self]
    · split <;> split <;> first | rfl | omega
  rw [List.length_append, List.length_reverse] at inside
  rw [Nat.zero_add, reversed]
  split
  next low =>
    have cell := held (values.length - 1 - k) (by rw [List.length_append]; omega)
    rw [Nat.zero_add, List.getElem_append_left (by omega)] at cell
    rw [cell, List.getElem_append_left (by rw [List.length_reverse]; exact low), List.getElem_reverse]
  next high =>
    have cell := held k (by rw [List.length_append]; exact inside)
    rw [Nat.zero_add, List.getElem_append_right (by omega)] at cell
    rw [cell, List.getElem_append_right (by rw [List.length_reverse]; omega)]
    simp only [List.length_reverse]

/-! ## The numeral -/

def intMin : BitVec 32 := BitVec.intMin 32

theorem slt_zero_iff (n : BitVec 32) : n.slt 0 = true ↔ n.toInt < 0 := by
  have zero : (0 : BitVec 32).toInt = 0 := rfl
  rw [BitVec.slt_iff_toInt_lt, zero]

/-- Apart from the most negative number the sign step gives the absolute value. -/
theorem magnitude {n : BitVec 32} (other : n ≠ intMin) :
    (if n.slt 0 then -n else n) = BitVec.ofNat 32 n.toInt.natAbs ∧ n.toInt.natAbs < 2 ^ 31 := by
  have least : (BitVec.intMin 32).toInt = -2 ^ 31 := rfl
  have low := n.le_toInt
  have high := n.toInt_lt
  have above : n.toInt ≠ -2 ^ 31 := by
    rw [← least]
    exact fun same => other (BitVec.eq_of_toInt_eq same)
  have small : n.toInt.natAbs < 2 ^ 31 := by omega
  refine ⟨?_, small⟩
  apply BitVec.eq_of_toInt_eq
  rw [toInt_ofNat_small small]
  split
  next negative =>
    have negative := (slt_zero_iff n).mp negative
    rw [toInt_neg_of_inSigned (by constructor <;> omega)]
    omega
  next positive =>
    have positive := mt (slt_zero_iff n).mpr positive
    omega

/-- What lies in the buffer before the reversal. -/
def reversedNumeral (n : Int) : List UInt8 :=
  (lowDigits n.natAbs).map digitByte ++ if n < 0 then [minusByte] else []

theorem reversedNumeral_reverse (n : Int) : (reversedNumeral n).reverse = numeral n := by
  unfold reversedNumeral numeral plainNumeral
  split <;> simp

theorem intToAscii_spec {n : BitVec 32} (other : n ≠ intMin) (str : Buffer) :
    ∃ bound, intToAscii bound n str =
      some (reverseString (reversedNumeral n.toInt).length (str.writeFrom 0 (reversedNumeral n.toInt ++ [0]))
        ((reversedNumeral n.toInt).length / 2)) := by
  obtain ⟨positive, small⟩ := magnitude other
  obtain ⟨bound, ran⟩ := digitLoop_spec small 0 str
  refine ⟨bound, ?_⟩
  unfold intToAscii reversedNumeral
  have dash : '-'.toUInt8 = minusByte := rfl
  dsimp only
  rw [positive, ran, Option.bind_eq_bind, Option.bind_some, Nat.zero_add, dash]
  by_cases negative : n.toInt < 0
  · rw [if_pos ((slt_zero_iff n).mpr negative), if_pos negative]
    simp [Store.writeFrom_append, Store.writeFrom]
  · rw [if_neg (mt (slt_zero_iff n).mp negative), if_neg negative]
    simp [Store.writeFrom_append, Store.writeFrom]

theorem converts_of_ne_intMin {n : BitVec 32} (other : n ≠ intMin) (str : Buffer) : Converts n str := by
  obtain ⟨bound, ran⟩ := intToAscii_spec other str
  have small := (magnitude other).2
  have length : (numeral n.toInt).length ≤ 10 + 1 := numeral_length (by decide) (by omega)
  have same := reversedNumeral_reverse n.toInt
  have count : (reversedNumeral n.toInt).length = (numeral n.toInt).length := by
    rw [← same, List.length_reverse]
  have held := reverseString_holds (Store.holds_writeFrom str 0 (reversedNumeral n.toInt ++ [0]))
  refine ⟨bound, _, numeral n.toInt, ran, numeral_canonical n.toInt, parse_numeral n.toInt, ?_, by omega, ?_⟩
  · rw [← same]
    exact held
  · apply reverseString_below (Nat.le_refl _) (by omega)
    apply (Store.StoresBelow.refl _ str).writeFrom
    rw [List.length_append, count, List.length_singleton, Nat.zero_add]

/-- The sign step leaves -2^31 as it is, whose only digit is the byte before '0' by eight. -/
theorem intToAscii_intMin {bound : Nat} {str final : Buffer} (ran : intToAscii bound intMin str = some final) :
    final.Holds 0 ['-'.toUInt8, '('.toUInt8, 0] := by
  have quotient : intMin.sdiv 10 = BitVec.ofInt 32 (-214748364) := by decide
  have digit : UInt8.ofBitVec ((intMin.srem 10 + 48).setWidth 8) = '('.toUInt8 := by decide
  have unchanged : (if intMin.slt 0 then -intMin else intMin) = intMin := by decide
  have negative : intMin.slt 0 = true := by decide
  have first : digitStep ⟨intMin, 0, str⟩ = ⟨BitVec.ofInt 32 (-214748364), 1, str.write 0 '('.toUInt8⟩ := by
    simp only [digitStep, quotient, digit]
  cases bound with
  | zero => cases ran
  | succ bound =>
    have looped : digitLoop (bound + 1) ⟨intMin, 0, str⟩ =
        some ⟨BitVec.ofInt 32 (-214748364), 1, str.write 0 '('.toUInt8⟩ := by
      unfold digitLoop
      rw [first]
      exact whileLoop_exit rfl bound
    unfold intToAscii at ran
    dsimp only at ran
    rw [unchanged, looped, Option.bind_eq_bind, Option.bind_some, if_pos negative] at ran
    cases ran
    have written : ((str.write 0 '('.toUInt8).write 1 '-'.toUInt8).write 2 0 =
        str.writeFrom 0 (['('.toUInt8, '-'.toUInt8] ++ [0]) := rfl
    dsimp only
    rw [written]
    exact reverseString_holds (Store.holds_writeFrom str 0 (['('.toUInt8, '-'.toUInt8] ++ [0]))

theorem canonical_digit {first second : UInt8} {rest : List UInt8}
    (canonical : Canonical (first :: second :: rest)) : IsDigit second := by
  rcases canonical with plain | ⟨digits, same, plain, _⟩
  · exact plain.digits second (List.mem_cons_of_mem _ List.mem_cons_self)
  · obtain ⟨_, rfl⟩ := List.cons.inj same
    exact plain.digits second List.mem_cons_self

theorem canonical_ne_nil {bytes : List UInt8} (canonical : Canonical bytes) : bytes ≠ [] := by
  rcases canonical with plain | ⟨digits, rfl, _⟩
  · exact plain.nonempty
  · exact List.cons_ne_nil _ _

theorem not_converts_intMin (str : Buffer) : ¬ Converts intMin str := by
  rintro ⟨bound, final, numeral, ran, canonical, _, held, _, _⟩
  have cells := intToAscii_intMin ran
  have second : final.cells 1 = '('.toUInt8 := cells 1 (by decide)
  -- the second byte is neither the terminator nor a digit
  match numeral, canonical, held with
  | [], canonical, _ => exact canonical_ne_nil canonical rfl
  | [first], _, held =>
    have ended : final.cells 1 = 0 := held 1 (by simp)
    exact absurd (second.symm.trans ended) (by decide)
  | first :: other :: rest, canonical, held =>
    have digit : final.cells 1 = other := held 1 (by simp)
    have isDigit := canonical_digit canonical
    rw [← digit, second] at isDigit
    exact absurd isDigit.1 (by decide)

/-- Every number but -2^31 is converted, with at most twelve bytes written. -/
theorem converts_iff (n : BitVec 32) (str : Buffer) : Converts n str ↔ n ≠ intMin := by
  constructor
  · rintro converts rfl
    exact not_converts_intMin str converts
  · intro other
    exact converts_of_ne_intMin other str

def emptyBuffer : Buffer := ⟨fun _ => 0, []⟩

/-- The string for -2^31 is "-(". -/
theorem intMin_text :
    (∃ final, intToAscii 1 intMin emptyBuffer = some final ∧
      final.Holds 0 ['-'.toUInt8, '('.toUInt8, 0]) ∧ ¬ Converts intMin emptyBuffer := by
  have ran : intToAscii 1 intMin emptyBuffer = some _ := rfl
  exact ⟨⟨_, ran, intToAscii_intMin ran⟩, not_converts_intMin emptyBuffer⟩

end SzOS.KernelC
