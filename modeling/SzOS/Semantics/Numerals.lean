import Mathlib.Data.Nat.Digits.Lemmas

/-! Decimal numerals as strings of bytes. -/

set_option autoImplicit false

namespace SzOS.Semantics

def digitByte (digit : Nat) : UInt8 := UInt8.ofNat (48 + digit)
def minusByte : UInt8 := 45

def IsDigit (byte : UInt8) : Prop := 48 ≤ byte.toNat ∧ byte.toNat < 58

instance (byte : UInt8) : Decidable (IsDigit byte) := inferInstanceAs (Decidable (_ ∧ _))

def isDigit (byte : UInt8) : Bool := IsDigit byte

def parseDigits (bytes : List UInt8) : Nat :=
  bytes.foldl (fun value byte => 10 * value + (byte.toNat - 48)) 0

def parse : List UInt8 → Int
  | [] => 0
  | first :: rest => if first = minusByte then -parseDigits rest else parseDigits (first :: rest)

/-- Digits only, and no leading zero except for 0 itself. -/
structure PlainNumeral (bytes : List UInt8) : Prop where
  nonempty : bytes ≠ []
  digits : ∀ byte ∈ bytes, IsDigit byte
  leading : bytes.head? = some (digitByte 0) → bytes = [digitByte 0]

/-- With a minus sign before a number other than 0. -/
def Canonical (bytes : List UInt8) : Prop :=
  PlainNumeral bytes ∨ ∃ digits, bytes = minusByte :: digits ∧ PlainNumeral digits ∧ digits ≠ [digitByte 0]

/-- The digits of a number from the lowest up, at least one. -/
def lowDigits (n : Nat) : List Nat := if n = 0 then [0] else Nat.digits 10 n

def plainNumeral (n : Nat) : List UInt8 := ((lowDigits n).map digitByte).reverse

def numeral (n : Int) : List UInt8 :=
  if n < 0 then minusByte :: plainNumeral n.natAbs else plainNumeral n.natAbs

theorem lowDigits_of_lt {n : Nat} (small : n < 10) : lowDigits n = [n] := by
  unfold lowDigits
  split
  next zero => rw [zero]
  next positive => exact Nat.digits_of_lt 10 n positive small

theorem lowDigits_of_ge {n : Nat} (large : 10 ≤ n) : lowDigits n = n % 10 :: lowDigits (n / 10) := by
  unfold lowDigits
  rw [if_neg (by omega), if_neg (by omega), Nat.digits_def' (by decide) (by omega)]

theorem lowDigits_lt {n digit : Nat} (member : digit ∈ lowDigits n) : digit < 10 := by
  unfold lowDigits at member
  split at member
  · rw [List.mem_singleton.mp member]
    decide
  · exact Nat.digits_lt_base (by decide) member

theorem lowDigits_ne_nil (n : Nat) : lowDigits n ≠ [] := by
  unfold lowDigits
  split
  · exact List.cons_ne_nil 0 []
  next positive => exact Nat.digits_ne_nil_iff_ne_zero.mpr positive

theorem lowDigits_length {n k : Nat} (positive : 0 < k) (small : n < 10 ^ k) : (lowDigits n).length ≤ k := by
  unfold lowDigits
  split
  · exact positive
  · exact (Nat.digits_length_le_iff (by decide) n).mpr small

/-- A word of 32 bits has at most ten decimal digits. -/
theorem digits_length_word (n : BitVec 32) : (Nat.digits 10 n.toNat).length ≤ 10 :=
  (Nat.digits_length_le_iff (by decide) n.toNat).mpr (Nat.lt_of_lt_of_le n.isLt (by decide))

theorem toNat_digitByte {digit : Nat} (small : digit < 10) : (digitByte digit).toNat = 48 + digit := by
  rw [digitByte, UInt8.toNat_ofNat']
  omega

theorem digitByte_isDigit {digit : Nat} (small : digit < 10) : IsDigit (digitByte digit) := by
  unfold IsDigit
  rw [toNat_digitByte small]
  omega

theorem parseDigits_plainNumeral (n : Nat) : parseDigits (plainNumeral n) = n := by
  have value : Nat.ofDigits 10 (lowDigits n) = n := by
    unfold lowDigits
    split
    next zero => rw [zero]; rfl
    next => exact Nat.ofDigits_digits 10 n
  unfold parseDigits plainNumeral
  rw [List.foldl_reverse, List.foldr_map]
  conv => rhs; rw [← value, Nat.ofDigits_eq_foldr]
  apply List.foldr_ext
  intro digit member total
  rw [toNat_digitByte (lowDigits_lt member), Nat.add_sub_cancel_left, Nat.add_comm]
  rfl

theorem plainNumeral_plain (n : Nat) : PlainNumeral (plainNumeral n) where
  nonempty := by simp [plainNumeral, lowDigits_ne_nil]
  digits := by
    intro byte member
    obtain ⟨digit, inDigits, rfl⟩ := List.mem_map.mp (List.mem_reverse.mp member)
    exact digitByte_isDigit (lowDigits_lt inDigits)
  leading := by
    intro first
    by_cases zero : n = 0
    · subst zero
      rfl
    · rw [plainNumeral, List.head?_reverse, List.getLast?_map, lowDigits, if_neg zero] at first
      obtain ⟨digit, last, same⟩ := Option.map_eq_some_iff.mp first
      have small := Nat.digits_lt_base (by decide) (List.mem_of_getLast? last)
      have isZero : digit = 0 := by
        have values := congrArg UInt8.toNat same
        rw [toNat_digitByte small, toNat_digitByte (by decide)] at values
        omega
      rw [List.getLast?_eq_some_getLast (Nat.digits_ne_nil_iff_ne_zero.mpr zero)] at last
      exact absurd ((Option.some.inj last).trans isZero) (Nat.getLast_digit_ne_zero 10 zero)

/-- The number at the end of a text, and what stands before it; both texts from their end. -/
def readLast (text : List UInt8) : Nat × List UInt8 :=
  (parseDigits (text.takeWhile isDigit).reverse, text.dropWhile isDigit)

theorem readLast_plainNumeral (n : Nat) {byte : UInt8} (stop : ¬ IsDigit byte) (rest : List UInt8) :
    readLast ((plainNumeral n).reverse ++ byte :: rest) = (n, byte :: rest) := by
  have digits : ∀ b ∈ (plainNumeral n).reverse, isDigit b = true := fun b member =>
    decide_eq_true ((plainNumeral_plain n).digits b (List.mem_reverse.mp member))
  have stop' : ¬ isDigit byte = true := by simpa [isDigit] using stop
  unfold readLast
  rw [List.takeWhile_append_of_pos digits, List.dropWhile_append_of_pos digits,
    List.takeWhile_cons_of_neg stop', List.dropWhile_cons_of_neg stop', List.append_nil,
    List.reverse_reverse, parseDigits_plainNumeral]

theorem isDigit_ne_minus {byte : UInt8} (digit : IsDigit byte) : byte ≠ minusByte := by
  rintro rfl
  exact absurd digit.1 (by decide)

theorem numeral_canonical (n : Int) : Canonical (numeral n) := by
  have plain := plainNumeral_plain n.natAbs
  unfold numeral
  split
  next negative =>
    refine Or.inr ⟨_, rfl, plain, ?_⟩
    intro zero
    have value := parseDigits_plainNumeral n.natAbs
    rw [zero] at value
    have none : parseDigits [digitByte 0] = 0 := rfl
    omega
  next => exact Or.inl plain

theorem parse_numeral (n : Int) : parse (numeral n) = n := by
  have value := parseDigits_plainNumeral n.natAbs
  have plain := plainNumeral_plain n.natAbs
  unfold numeral
  split
  next negative =>
    rw [parse, if_pos rfl, value]
    omega
  next positive =>
    generalize plainNumeral n.natAbs = bytes at value plain
    cases bytes with
    | nil => exact absurd rfl plain.nonempty
    | cons first rest =>
      rw [parse, if_neg (isDigit_ne_minus (plain.digits first List.mem_cons_self)), value]
      omega

theorem numeral_length {n : Int} {k : Nat} (positive : 0 < k) (small : n.natAbs < 10 ^ k) :
    (numeral n).length ≤ k + 1 := by
  have digits := lowDigits_length positive small
  unfold numeral plainNumeral
  split
  · simp [digits]
  · simp only [List.length_reverse, List.length_map]
    omega

end SzOS.Semantics
