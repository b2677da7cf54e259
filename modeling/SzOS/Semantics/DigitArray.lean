import Mathlib.Data.List.Induction
import Mathlib.Data.Nat.Digits.Defs
import SzOS.Semantics.Loop
import SzOS.Semantics.Run

/-! Digits of a number, collected in a fixed array and given out again.

Division yields the lowest digit first, so the array is filled upwards and read
downwards. An access outside the array has no value.
-/

set_option autoImplicit false

namespace SzOS.Semantics

variable {A S : Type*} {size w : Nat}

def store (array : Vector A size) (index : Nat) (value : A) : Option (Vector A size) :=
  if inside : index < size then some (array.set index value inside) else none

/-- What is left of the number, and the digits so far. -/
structure Extraction (A : Type*) (size w : Nat) where
  n : BitVec w
  count : Nat
  digits : Vector A size

/-- `digits[count++] = char(n % base); n /= base;` -/
def extract (base : BitVec w) (char : BitVec w → A) (e : Extraction A size w) :
    Option (Extraction A size w) :=
  (store e.digits e.count (char (e.n % base))).map fun digits => ⟨e.n / base, e.count + 1, digits⟩

/-- `while (n > 0)` -/
def extractAll (base : BitVec w) (char : BitVec w → A) (bound : Nat) (e : Extraction A size w) :
    Option (Extraction A size w) :=
  whileLoop (fun e => 0 < e.n) (extract base char) bound e

/-- Give out `digits[i]` for `i` from `count - 1` down. -/
def emitDown (emit : S → A → Option S) (digits : Vector A size) : Nat → S → Option S
  | 0, state => some state
  | i + 1, state => (digits[i]?).bind fun digit => (emit state digit).bind (emitDown emit digits i)

/-- The array begins with a list. -/
def BeginsWith (digits : Vector A size) (values : List A) : Prop :=
  ∀ k < values.length, digits[k]? = values[k]?

theorem store_inside (array : Vector A size) {index : Nat} (inside : index < size) (value : A) :
    store array index value = some (array.set index value inside) :=
  dif_pos inside

theorem BeginsWith.snoc {digits : Vector A size} {values : List A} (begins : BeginsWith digits values)
    (value : A) (room : values.length < size) :
    BeginsWith (digits.set values.length value room) (values ++ [value]) := by
  intro k short
  rw [List.length_append, List.length_singleton] at short
  by_cases last : k = values.length
  · subst last
    simp
  · have earlier : k < values.length := by omega
    rw [List.getElem?_append_left earlier, ← begins k earlier]
    simp [Ne.symm last]

theorem emitDown_eq (emit : S → A → Option S) {digits : Vector A size} {values : List A}
    (begins : BeginsWith digits values) (state : S) :
    emitDown emit digits values.length state = run emit state values.reverse := by
  induction values using List.reverseRecOn generalizing state with
  | nil => rfl
  | append_singleton values value ih =>
    have last : digits[values.length]? = some value := by
      rw [begins values.length (by simp)]
      simp
    have before : BeginsWith digits values := fun k short => by
      rw [begins k (by simp; omega), List.getElem?_append_left short]
    rw [List.length_append, List.length_singleton, emitDown, last, Option.bind_some,
      List.reverse_append, List.reverse_singleton, List.singleton_append, run_cons]
    congr 1
    funext next
    exact ih before next

variable {base : BitVec w}

/-- The digits of a number follow those already in the array. -/
theorem extractAll_spec (char : BitVec w → A) (radix : 1 < base.toNat) {bound : Nat} {n : BitVec w} {values : List A}
    {digits : Vector A size} (begins : BeginsWith digits values)
    (room : values.length + (Nat.digits base.toNat n.toNat).length ≤ size)
    (enough : (Nat.digits base.toNat n.toNat).length < bound) :
    ∃ final, extractAll base char bound ⟨n, values.length, digits⟩ =
        some ⟨0, values.length + (Nat.digits base.toNat n.toNat).length, final⟩ ∧
      BeginsWith final (values ++ (Nat.digits base.toNat n.toNat).map fun d => char (BitVec.ofNat w d)) := by
  induction bound generalizing n values digits with
  | zero => omega
  | succ bound ih =>
    by_cases zero : n = 0
    · subst zero
      have none : Nat.digits base.toNat (0 : BitVec w).toNat = [] := by simp
      rw [none, List.map_nil, List.append_nil]
      exact ⟨digits, whileLoop_exit (by simp) bound, begins⟩
    · have positive : 0 < n.toNat := BitVec.toNat_pos_of_ne_zero zero
      have left : 0 < n := BitVec.lt_def.mpr (by simpa using positive)
      -- the lowest digit and the digits of the rest
      have split : Nat.digits base.toNat n.toNat =
          (n % base).toNat :: Nat.digits base.toNat (n / base).toNat := by
        rw [Nat.digits_def' radix positive, BitVec.toNat_umod, BitVec.toNat_udiv]
      rw [split, List.length_cons] at room enough
      have inside : values.length < size := by omega
      have stepped : extract base char ⟨n, values.length, digits⟩ =
          some ⟨n / base, (values ++ [char (n % base)]).length,
            digits.set values.length (char (n % base)) inside⟩ := by
        rw [extract, store_inside digits inside, Option.map_some, List.length_append, List.length_singleton]
      obtain ⟨final, ran, holds⟩ := ih (n := n / base) (begins.snoc (char (n % base)) inside)
        (by rw [List.length_append, List.length_singleton]; omega) (by omega)
      refine ⟨final, ?_, ?_⟩
      · have count : (values ++ [char (n % base)]).length + (Nat.digits base.toNat (n / base).toNat).length =
            values.length + ((Nat.digits base.toNat (n / base).toNat).length + 1) := by
          rw [List.length_append, List.length_singleton]
          omega
        rw [extractAll, whileLoop_step (by simpa using left) stepped, split, List.length_cons, ← count]
        exact ran
      · rw [split, List.map_cons, BitVec.ofNat_toNat, BitVec.setWidth_eq]
        rw [List.append_assoc, List.singleton_append] at holds
        exact holds

/-- Into an empty array, and out of it again. -/
theorem extractAll_emitDown (char : BitVec w → A) (emit : S → A → Option S) (radix : 1 < base.toNat)
    (digits : Vector A size) {bound : Nat} {n : BitVec w}
    (room : (Nat.digits base.toNat n.toNat).length ≤ size)
    (enough : (Nat.digits base.toNat n.toNat).length < bound) (state : S) :
    ((extractAll base char bound ⟨n, 0, digits⟩).bind fun e => emitDown emit e.digits e.count state) =
      run emit state ((Nat.digits base.toNat n.toNat).map fun d => char (BitVec.ofNat w d)).reverse := by
  have empty : BeginsWith digits [] := fun k short => absurd short (Nat.not_lt_zero k)
  obtain ⟨final, ran, begins⟩ := extractAll_spec char radix empty
    (by rw [List.length_nil, Nat.zero_add]; exact room) enough
  have emitted := emitDown_eq emit begins state
  rw [List.nil_append, List.length_map] at emitted
  rw [show extractAll base char bound ⟨n, 0, digits⟩ = _ from ran, Option.bind_some, List.length_nil,
    Nat.zero_add]
  exact emitted

end SzOS.Semantics
