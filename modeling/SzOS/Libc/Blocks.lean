import SzOS.Hardware.I386
import SzOS.Semantics.Copy

/-! Blocks of bytes in the C library (string/memcpy.c, memmove.c, memcmp.c and memset.c).

A pointer is a 32-bit address and a `size_t` a 32-bit number, so an index that
leaves the address space comes back in at zero.
-/

set_option autoImplicit false

namespace SzOS.Libc
open Hardware (Byte)
open Hardware.I386 (Word Memory)
open Semantics

/-- The address of `base[i]`. -/
def cell (base : Word) (i : Nat) : Word := base + BitVec.ofNat 32 i

/-- `dst[i] = src[i];` -/
def copyByte (dst src : Word) (memory : Memory) (i : Nat) : Memory :=
  Function.update memory (cell dst i) (memory (cell src i))

/-- `for (size_t i = 0; i < size; i++)`, with `rounds` of it still to come. -/
def copyUp (dst src : Word) (i : Nat) : Nat → Memory → Memory
  | 0, memory => memory
  | rounds + 1, memory => copyUp dst src (i + 1) rounds (copyByte dst src memory i)

/-- `for (size_t i = size; i != 0; i--)` -/
def copyDown (dst src : Word) : Nat → Memory → Memory
  | 0, memory => memory
  | i + 1, memory => copyDown dst src i (copyByte dst src memory i)

def memcpy (dstptr srcptr size : Word) (memory : Memory) : Word × Memory :=
  (dstptr, copyUp dstptr srcptr 0 size.toNat memory)

def memmove (dstptr srcptr size : Word) (memory : Memory) : Word × Memory :=
  let dst := dstptr
  let src := srcptr
  if dst < src then (dstptr, copyUp dst src 0 size.toNat memory)
  else (dstptr, copyDown dst src size.toNat memory)

/-- The loop of `memcmp`, with `rounds` of it still to come. -/
def memcmpLoop (a b : Word) (memory : Memory) (i : Nat) : Nat → Int
  | 0 => 0
  | rounds + 1 =>
    if memory (cell a i) < memory (cell b i) then -1
    else if memory (cell b i) < memory (cell a i) then 1
    else memcmpLoop a b memory (i + 1) rounds

def memcmp (aptr bptr size : Word) (memory : Memory) : Int :=
  memcmpLoop aptr bptr memory 0 size.toNat

/-- The loop of `memset`, with `rounds` of it still to come. -/
def setUp (buf : Word) (value : Byte) (i : Nat) : Nat → Memory → Memory
  | 0, memory => memory
  | rounds + 1, memory => setUp buf value (i + 1) rounds (Function.update memory (cell buf i) value)

def memset (bufptr value size : Word) (memory : Memory) : Word × Memory :=
  (bufptr, setUp bufptr (value.setWidth 8) 0 size.toNat memory)

/-! ## Ranges -/

/-- The range of `size` bytes from an address on does not wrap around the address space. -/
def Fits (base size : Word) : Prop := base.toNat + size.toNat ≤ 2 ^ 32

instance (base size : Word) : Decidable (Fits base size) := inferInstanceAs (Decidable (_ ≤ _))

/-- The address lies in the range. -/
def InRange (base size address : Word) : Prop :=
  base.toNat ≤ address.toNat ∧ address.toNat < base.toNat + size.toNat

def Apart (first second size : Word) : Prop :=
  ∀ address, InRange first size address → ¬ InRange second size address

variable {dst src base size : Word} {memory : Memory}

theorem cell_toNat (fits : Fits base size) {i : Nat} (inside : i < size.toNat) :
    (cell base i).toNat = base.toNat + i := by
  unfold Fits at fits
  unfold cell
  rw [BitVec.toNat_add, BitVec.toNat_ofNat, Nat.mod_eq_of_lt (by omega), Nat.mod_eq_of_lt (by omega)]

theorem inRange_cell (fits : Fits base size) {i : Nat} (inside : i < size.toNat) :
    InRange base size (cell base i) := by
  unfold InRange
  rw [cell_toNat fits inside]
  omega

theorem cell_ne_cell (fits : Fits dst size) (fits' : Fits src size) {i j : Nat}
    (inside : i < size.toNat) (inside' : j < size.toNat) (apart : dst.toNat + i ≠ src.toNat + j) :
    cell dst i ≠ cell src j := by
  intro same
  apply apart
  rw [← cell_toNat fits inside, ← cell_toNat fits' inside', same]

/-! ## Copies -/

theorem copyUp_eq (dst src : Word) (i rounds : Nat) (memory : Memory) :
    copyUp dst src i rounds memory = copyCells (cell dst) (cell src) (List.range' i rounds) memory := by
  induction rounds generalizing i memory with
  | zero => rfl
  | succ rounds ih =>
    rw [copyUp, ih, List.range'_succ, copyCells_cons]
    rfl

theorem copyDown_eq (dst src : Word) (rounds : Nat) (memory : Memory) :
    copyDown dst src rounds memory =
      copyCells (cell dst) (cell src) (List.range rounds).reverse memory := by
  induction rounds generalizing memory with
  | zero => rfl
  | succ i ih =>
    rw [copyDown, ih, List.range_succ, List.reverse_append, List.reverse_singleton,
      List.singleton_append, copyCells_cons]
    rfl

/-- Upward is right when the destination starts no later, or ends before the source begins. -/
theorem readFirst_up (fits : Fits dst size) (fits' : Fits src size)
    (before : ∀ i j, i < j → j < size.toNat → dst.toNat + i ≠ src.toNat + j) :
    ReadFirst (cell dst) (cell src) (List.range size.toNat) := by
  refine readFirst_range fun i j less inside => ?_
  have inside' : i < size.toNat := Nat.lt_trans less inside
  exact ⟨cell_ne_cell fits fits inside' inside (by omega),
    cell_ne_cell fits fits' inside' inside (before i j less inside)⟩

theorem readFirst_down (fits : Fits dst size) (fits' : Fits src size) (later : src.toNat ≤ dst.toNat) :
    ReadFirst (cell dst) (cell src) (List.range size.toNat).reverse := by
  refine readFirst_range_reverse fun i j less inside => ?_
  have inside' : i < size.toNat := Nat.lt_trans less inside
  exact ⟨cell_ne_cell fits fits inside inside' (by omega),
    cell_ne_cell fits fits' inside inside' (by omega)⟩

/-- `memmove` copies every byte once, in an order that reads first. -/
theorem memmove_order (fits : Fits dst size) (fits' : Fits src size) (memory : Memory) :
    ∃ order, order.Perm (List.range size.toNat) ∧ ReadFirst (cell dst) (cell src) order ∧
      memmove dst src size memory = (dst, copyCells (cell dst) (cell src) order memory) := by
  unfold memmove
  by_cases less : dst < src
  · refine ⟨List.range size.toNat, .refl _, readFirst_up fits fits' ?_, ?_⟩
    · have := BitVec.lt_def.mp less
      omega
    · rw [if_pos less, copyUp_eq, ← List.range_eq_range']
  · refine ⟨(List.range size.toNat).reverse, List.reverse_perm _, readFirst_down fits fits' ?_, ?_⟩
    · exact Nat.not_lt.mp fun lt => less (BitVec.lt_def.mpr lt)
    · rw [if_neg less, copyDown_eq]

/-- The ranges meet where their cells do. -/
theorem readFirst_apart (fits : Fits dst size) (fits' : Fits src size) (apart : Apart dst src size) :
    ReadFirst (cell dst) (cell src) (List.range size.toNat) := by
  refine readFirst_up fits fits' fun i j less inside same => ?_
  have inside' : i < size.toNat := Nat.lt_trans less inside
  apply apart (cell dst i) (inRange_cell fits inside')
  have meet : cell dst i = cell src j := by
    apply BitVec.eq_of_toNat_eq
    rw [cell_toNat fits inside', cell_toNat fits' inside, same]
  rw [meet]
  exact inRange_cell fits' inside

/-- Moving a block leaves at its destination the bytes its source held before, whatever the
overlap, and changes no other byte; apart blocks may as well be copied with `memcpy`. -/
theorem memmove_moves (dst src size : Word) (memory : Memory) (fits : Fits dst size)
    (fits' : Fits src size) :
    (memmove dst src size memory).1 = dst ∧
    (∀ i < size.toNat, (memmove dst src size memory).2 (cell dst i) = memory (cell src i)) ∧
    (∀ address, ¬ InRange dst size address →
      (memmove dst src size memory).2 address = memory address) ∧
    (Apart dst src size →
      (memcpy dst src size memory).2 = (memmove dst src size memory).2) := by
  obtain ⟨order, perm, readFirst, moved⟩ := memmove_order fits fits' memory
  have members : ∀ i, i ∈ order ↔ i < size.toNat := fun i => perm.mem_iff.trans List.mem_range
  rw [moved]
  refine ⟨rfl, ?_, ?_, ?_⟩
  · intro i inside
    exact copyCells_placed readFirst ((members i).mpr inside)
  · intro address outside
    refine copyCells_elsewhere fun i member same => outside ?_
    rw [← same]
    exact inRange_cell fits ((members i).mp member)
  · intro apart
    have up : (memcpy dst src size memory).2 =
        copyCells (cell dst) (cell src) (List.range size.toNat) memory := by
      rw [memcpy, copyUp_eq, ← List.range_eq_range']
    rw [up]
    exact copyCells_perm (readFirst_apart fits fits' apart) readFirst perm.symm

/-- Seven bytes moved up by two within the last sixteen bytes of the address space. -/
theorem memmove_moves_last :
    (memmove 0xFFFFFFF9 0xFFFFFFF7 7 fun address => address.setWidth 8).2 0xFFFFFFFF = 0xFD := by
  have moves := memmove_moves 0xFFFFFFF9 0xFFFFFFF7 7 (fun address => address.setWidth 8)
    (by decide) (by decide)
  exact moves.2.1 6 (by decide)

/-! ## Comparison -/

/-- The bytes from `base[i]` on. -/
def bytesFrom (memory : Memory) (base : Word) (i count : Nat) : List Byte :=
  (List.range' i count).map fun k => memory (cell base k)

/-- A block of `size` bytes. -/
def block (memory : Memory) (base size : Word) : List Byte := bytesFrom memory base 0 size.toNat

variable {a b c : Word}

theorem bytesFrom_succ (memory : Memory) (base : Word) (i count : Nat) :
    bytesFrom memory base i (count + 1) = memory (cell base i) :: bytesFrom memory base (i + 1) count :=
  rfl

theorem memcmpLoop_succ (a b : Word) (memory : Memory) (i rounds : Nat) :
    memcmpLoop a b memory i (rounds + 1) =
      if memory (cell a i) < memory (cell b i) then -1
      else if memory (cell b i) < memory (cell a i) then 1
      else memcmpLoop a b memory (i + 1) rounds := rfl

/-- The scan decides the lexicographic order of the bytes that it has not passed. -/
theorem memcmpLoop_sign (a b : Word) (memory : Memory) (i rounds : Nat) :
    memcmpLoop a b memory i rounds =
      if bytesFrom memory a i rounds < bytesFrom memory b i rounds then -1
      else if bytesFrom memory b i rounds < bytesFrom memory a i rounds then 1 else 0 := by
  induction rounds generalizing i with
  | zero => rfl
  | succ rounds ih =>
    simp only [memcmpLoop_succ, bytesFrom_succ, List.cons_lt_cons_iff]
    by_cases less : memory (cell a i) < memory (cell b i)
    · rw [if_pos less, if_pos (.inl less)]
    by_cases greater : memory (cell b i) < memory (cell a i)
    · have differs : memory (cell a i) ≠ memory (cell b i) := fun same => by
        rw [same] at greater
        exact BitVec.lt_irrefl _ greater
      rw [if_neg less, if_pos greater, if_neg, if_pos (.inl greater)]
      rintro (below | ⟨same, _⟩)
      · exact less below
      · exact differs same
    · have same : memory (cell a i) = memory (cell b i) :=
        BitVec.le_antisymm (BitVec.not_lt.mp greater) (BitVec.not_lt.mp less)
      rw [if_neg less, if_neg greater, ih]
      simp [same]

/-- Equal bytes are passed; the first pair that differs decides. -/
theorem memcmpLoop_first {i start rounds : Nat} (reached : start ≤ i) (inside : i < start + rounds)
    (equal : ∀ j, start ≤ j → j < i → memory (cell a j) = memory (cell b j))
    (differs : memory (cell a i) ≠ memory (cell b i)) :
    memcmpLoop a b memory start rounds =
      Int.sign ((memory (cell a i)).toNat - (memory (cell b i)).toNat) := by
  induction rounds generalizing start with
  | zero => omega
  | succ rounds ih =>
    rw [memcmpLoop_succ]
    by_cases here : start = i
    · subst here
      have apart : (memory (cell a start)).toNat ≠ (memory (cell b start)).toNat :=
        fun same => differs (BitVec.eq_of_toNat_eq same)
      by_cases less : memory (cell a start) < memory (cell b start)
      · rw [if_pos less, Int.sign_eq_neg_one_of_neg (Int.sub_neg_of_lt (Int.ofNat_lt.mpr less))]
      · have greater : memory (cell b start) < memory (cell a start) :=
          Nat.lt_of_le_of_ne (Nat.not_lt.mp less) apart.symm
        rw [if_neg less, if_pos greater, Int.sign_eq_one_of_pos (Int.sub_pos.mpr (Int.ofNat_lt.mpr greater))]
    · have same := equal start (Nat.le_refl start) (Nat.lt_of_le_of_ne reached here)
      rw [same, if_neg (BitVec.lt_irrefl _), if_neg (BitVec.lt_irrefl _)]
      exact ih (by omega) (by omega) fun j above => equal j (Nat.le_of_succ_le above)

theorem memcmp_sign (a b size : Word) (memory : Memory) :
    memcmp a b size memory =
      if block memory a size < block memory b size then -1
      else if block memory b size < block memory a size then 1 else 0 :=
  memcmpLoop_sign a b memory 0 size.toNat

theorem memcmp_le_zero : memcmp a b size memory ≤ 0 ↔ block memory a size ≤ block memory b size := by
  rw [memcmp_sign, ← List.not_lt]
  by_cases less : block memory a size < block memory b size
  · simp [less, List.lt_asymm less]
  · by_cases greater : block memory b size < block memory a size <;> simp [less, greater]

theorem memcmp_swap : memcmp a b size memory = -memcmp b a size memory := by
  rw [memcmp_sign, memcmp_sign]
  by_cases less : block memory a size < block memory b size
  · simp [less, List.lt_asymm less]
  · by_cases greater : block memory b size < block memory a size <;> simp [less, greater]

/-- Neither way above zero: the blocks are below each other. -/
theorem memcmp_eq_zero : memcmp a b size memory = 0 ↔ block memory a size = block memory b size := by
  constructor
  · intro zero
    have zero' : memcmp b a size memory = 0 := by
      rw [memcmp_swap, zero, Int.neg_zero]
    exact List.le_antisymm (memcmp_le_zero.mp (Int.le_of_eq zero)) (memcmp_le_zero.mp (Int.le_of_eq zero'))
  · intro same
    rw [memcmp_sign, same, if_neg (List.lt_irrefl _), if_neg (List.lt_irrefl _)]

/-- `memcmp` orders blocks of one size by the first pair of bytes that differs. -/
theorem memcmp_lexicographic (a b c size : Word) (memory : Memory) :
    (memcmp a b size memory ≤ 0 ↔ block memory a size ≤ block memory b size) ∧
    (memcmp a b size memory = 0 ↔ block memory a size = block memory b size) ∧
    (∀ i < size.toNat, (∀ j < i, memory (cell a j) = memory (cell b j)) →
      memory (cell a i) ≠ memory (cell b i) →
      memcmp a b size memory =
        Int.sign ((memory (cell a i)).toNat - (memory (cell b i)).toNat)) ∧
    memcmp a b size memory = -memcmp b a size memory ∧
    (memcmp a b size memory ≤ 0 → memcmp b c size memory ≤ 0 → memcmp a c size memory ≤ 0) := by
  refine ⟨memcmp_le_zero, memcmp_eq_zero, ?_, memcmp_swap, ?_⟩
  · intro i inside equal differs
    exact memcmpLoop_first (Nat.zero_le i) (by omega) (fun j _ => equal j) differs
  · intro first second
    exact memcmp_le_zero.mpr (List.le_trans (memcmp_le_zero.mp first) (memcmp_le_zero.mp second))

/-! ## Filling -/

theorem setUp_succ (buf : Word) (value : Byte) (i rounds : Nat) (memory : Memory) :
    setUp buf value i (rounds + 1) memory =
      setUp buf value (i + 1) rounds (Function.update memory (cell buf i) value) := rfl

theorem setUp_elsewhere (value : Byte) {i rounds : Nat} {address : Word}
    (missed : ∀ k, i ≤ k → k < i + rounds → address ≠ cell base k) :
    setUp base value i rounds memory address = memory address := by
  induction rounds generalizing i memory with
  | zero => rfl
  | succ rounds ih =>
    rw [setUp_succ, ih fun k above below => missed k (by omega) (by omega),
      Function.update_of_ne (missed i (Nat.le_refl i) (by omega))]

/-- A cell keeps the value once it has it, even where the block comes around to it again. -/
theorem setUp_filled (value : Byte) {i rounds k : Nat} (filled : memory (cell base k) = value ∨ i ≤ k)
    (below : k < i + rounds) : setUp base value i rounds memory (cell base k) = value := by
  induction rounds generalizing i memory with
  | zero =>
    rcases filled with filled | above
    · exact filled
    · omega
  | succ rounds ih =>
    rw [setUp_succ]
    apply ih _ (by omega)
    by_cases same : cell base k = cell base i
    · rw [same, Function.update_self]
      exact .inl rfl
    · rw [Function.update_of_ne same]
      refine filled.imp id fun above => Nat.lt_of_le_of_ne above ?_
      rintro rfl
      exact same rfl

theorem memset_elsewhere (value : Word) {address : Word} (missed : ∀ k < size.toNat, address ≠ cell base k) :
    (memset base value size memory).2 address = memory address :=
  setUp_elsewhere _ fun k _ below => missed k (by omega)

theorem memset_filled (value : Word) {k : Nat} (inside : k < size.toNat) :
    (memset base value size memory).2 (cell base k) = value.setWidth 8 :=
  setUp_filled _ (.inr (Nat.zero_le k)) (by omega)

end SzOS.Libc
