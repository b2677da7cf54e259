import SzOS.Hardware.I386
import SzOS.Semantics.LittleEndian

/-! The interrupt descriptor table of 32-bit protected mode in memory: gates of eight bytes, and
the register through which the processor finds them.
-/

set_option autoImplicit false

namespace SzOS.Hardware.I386
open Semantics

variable {width : Nat}

/-! ## Values in memory -/

/-- Memory as it lies from an address on. -/
def bytesAt (memory : Memory) (base : Word) : Nat → Byte := fun i => memory (base + BitVec.ofNat 32 i)

/-- The low bytes of a value, the lowest at the address. -/
def storeBytes (address : Word) (value : BitVec width) : Nat → Memory → Memory
  | 0, memory => memory
  | count + 1, memory =>
    Function.update (storeBytes address value count memory) (address + BitVec.ofNat 32 count)
      (leBytes value count)

theorem past_inj (base : Word) {i j : Nat} (small : i < 2 ^ 32) (small' : j < 2 ^ 32) :
    base + BitVec.ofNat 32 i = base + BitVec.ofNat 32 j ↔ i = j := by
  refine ⟨fun same => ?_, fun same => same ▸ rfl⟩
  have offset := offset_toNat base small
  rwa [same, offset_toNat base small', eq_comm] at offset

/-- Stores at an offset of an object, seen from its start. -/
theorem bytesAt_storeBytes (memory : Memory) (base : Word) {offset count : Nat} (value : BitVec width)
    (inside : offset + count ≤ 2 ^ 32) {i : Nat} (small : i < 2 ^ 32) :
    bytesAt (storeBytes (base + BitVec.ofNat 32 offset) value count memory) base i =
      leStore offset count value (bytesAt memory base) i := by
  induction count with
  | zero => exact (leStore_outside value (by omega)).symm
  | succ count ih =>
    have earlier := ih (by omega)
    unfold bytesAt at earlier ⊢
    rw [storeBytes, BitVec.add_assoc, ← BitVec.ofNat_add]
    by_cases newest : i = offset + count
    · subst newest
      rw [Function.update_self]
      exact (Block.fill_inside ⟨offset, count + 1⟩ (leBytes value) _ (Nat.lt_succ_self count)).symm
    · rw [Function.update_of_ne fun same => newest ((past_inj base small (by omega)).mp same), earlier]
      by_cases inValue : offset ≤ i ∧ i < offset + count
      · obtain ⟨k, rfl⟩ := Nat.exists_eq_add_of_le inValue.1
        have less : k < count := by omega
        exact (Block.fill_inside ⟨offset, count⟩ (leBytes value) _ less).trans
          (Block.fill_inside ⟨offset, count + 1⟩ (leBytes value) _ (Nat.lt_succ_of_lt less)).symm
      · rw [leStore_outside value (by omega), leStore_outside value (by omega)]

theorem storeBytes_elsewhere (memory : Memory) {address other : Word} (value : BitVec width) {count : Nat}
    (elsewhere : ∀ k < count, other ≠ address + BitVec.ofNat 32 k) :
    storeBytes address value count memory other = memory other := by
  induction count with
  | zero => rfl
  | succ count ih =>
    rw [storeBytes, Function.update_of_ne (elsewhere count (Nat.lt_succ_self count))]
    exact ih fun k less => elsewhere k (Nat.lt_succ_of_lt less)

section Load

variable {wide offset other count count' : Nat} {base : Word} {memory : Memory}

theorem load_store (value : BitVec width) (inside : offset + count ≤ 2 ^ 32) (enough : width ≤ 8 * count) :
    leLoad width offset count (bytesAt (storeBytes (base + BitVec.ofNat 32 offset) value count memory) base) =
      value := by
  have stored : leLoad width offset count (leStore offset count value (bytesAt memory base)) = value :=
    leLoad_leStore value enough
  refine Eq.trans ?_ stored
  exact leRead_congr fun i less => bytesAt_storeBytes memory base value inside (by omega)

theorem load_store_apart (value : BitVec wide) (inside : offset + count ≤ 2 ^ 32)
    (inside' : other + count' ≤ 2 ^ 32) (apart : other + count' ≤ offset ∨ offset + count ≤ other) :
    leLoad width other count'
        (bytesAt (storeBytes (base + BitVec.ofNat 32 offset) value count memory) base) =
      leLoad width other count' (bytesAt memory base) := by
  have kept : leLoad width other count' (leStore offset count value (bytesAt memory base)) =
      leLoad width other count' (bytesAt memory base) := leLoad_leStore_apart value apart
  refine Eq.trans ?_ kept
  exact leRead_congr fun i less => bytesAt_storeBytes memory base value inside (by omega)

theorem load_congr {memory' : Memory} (same : ∀ i, offset ≤ i → i < offset + count →
      bytesAt memory base i = bytesAt memory' base i) :
    leLoad width offset count (bytesAt memory base) = leLoad width offset count (bytesAt memory' base) :=
  leRead_congr fun i less => same (offset + i) (Nat.le_add_right _ _) (Nat.add_lt_add_left less offset)

end Load

/-! ## Gates -/

def Gate.read (bytes : Nat → Byte) : Gate where
  lowOffset := leLoad 16 0 2 bytes
  sel := leLoad 16 2 2 bytes
  always0 := leLoad 8 4 1 bytes
  flags := leLoad 8 5 1 bytes
  highOffset := leLoad 16 6 2 bytes

/-- The entries of a table that starts at an address. -/
def gatesAt (memory : Memory) (table : Word) (number : Nat) : Gate :=
  Gate.read fun i => bytesAt memory table (8 * number + i)

/-- The five stores of a function that sets a gate. -/
def storeGate (table : Word) (number : Nat) (base : Word) (sel : BitVec 16) (flags : Byte)
    (memory : Memory) : Memory :=
  let field (i : Nat) : Word := table + BitVec.ofNat 32 (8 * number + i)
  let memory := storeBytes (field 0) ((base &&& 0xFFFF).setWidth 16) 2 memory
  let memory := storeBytes (field 6) (((base >>> 16) &&& 0xFFFF).setWidth 16) 2 memory
  let memory := storeBytes (field 2) sel 2 memory
  let memory := storeBytes (field 4) (0 : Byte) 1 memory
  storeBytes (field 5) flags 1 memory

section Gates

variable {memory other : Memory} {table : Word} {number : Nat}

theorem gatesAt_eq (memory : Memory) (table : Word) (number : Nat) :
    gatesAt memory table number =
      { lowOffset := leLoad 16 (8 * number + 0) 2 (bytesAt memory table)
        sel := leLoad 16 (8 * number + 2) 2 (bytesAt memory table)
        always0 := leLoad 8 (8 * number + 4) 1 (bytesAt memory table)
        flags := leLoad 8 (8 * number + 5) 1 (bytesAt memory table)
        highOffset := leLoad 16 (8 * number + 6) 2 (bytesAt memory table) } := by
  simp only [gatesAt, Gate.read, leLoad, Nat.add_assoc]

theorem gatesAt_congr (same : ∀ i, 8 * number ≤ i → i < 8 * number + 8 →
      bytesAt memory table i = bytesAt other table i) :
    gatesAt memory table number = gatesAt other table number := by
  have field : ∀ width start count, 8 * number ≤ start → start + count ≤ 8 * number + 8 →
      leLoad width start count (bytesAt memory table) = leLoad width start count (bytesAt other table) :=
    fun width start count low high => load_congr fun i above below => same i (by omega) (by omega)
  rw [gatesAt_eq, gatesAt_eq]
  simp (disch := omega) only [field]

/-- A gate that is set replaces its entry and no other. -/
theorem gatesAt_storeGate (inside : 8 * number + 8 ≤ 2 ^ 32) (base : Word) (sel : BitVec 16) (flags : Byte)
    {n : Nat} (inside' : 8 * n + 8 ≤ 2 ^ 32) :
    gatesAt (storeGate table number base sel flags memory) table n =
      Function.update (gatesAt memory table) number (makeGate base sel flags) n := by
  by_cases same : n = number
  · subst same
    rw [Function.update_self, gatesAt_eq]
    simp (disch := omega) only [storeGate, makeGate, load_store, load_store_apart]
  · rw [Function.update_of_ne same, gatesAt_eq, gatesAt_eq]
    simp (disch := omega) only [storeGate, load_store_apart]

/-- Whatever lies outside the entry is left alone. -/
theorem storeGate_elsewhere (base : Word) (sel : BitVec 16) (flags : Byte) {address : Word}
    (elsewhere : ∀ i < 8, address ≠ table + BitVec.ofNat 32 (8 * number + i)) :
    storeGate table number base sel flags memory address = memory address := by
  have field : ∀ {width : Nat} (value : BitVec width) (memory : Memory) (i count : Nat), i + count ≤ 8 →
      storeBytes (table + BitVec.ofNat 32 (8 * number + i)) value count memory address = memory address := by
    intro width value memory i count inside
    apply storeBytes_elsewhere
    intro k less
    rw [BitVec.add_assoc, ← BitVec.ofNat_add, Nat.add_assoc]
    exact elsewhere (i + k) (by omega)
  simp (disch := decide) only [storeGate, field]

end Gates

/-! ## The register -/

/-- What `lidt` loads. -/
structure Idtr where
  base : Word
  limit : BitVec 16

def lidt (memory : Memory) (operand : Word) : Idtr where
  limit := leLoad 16 0 2 (bytesAt memory operand)
  base := leLoad 32 2 4 (bytesAt memory operand)

/-- The table that the processor finds. -/
def Idtr.table (idtr : Idtr) (memory : Memory) : Idt := ⟨gatesAt memory idtr.base, idtr.limit⟩

/-- The stores of a function that describes a table of 256 gates, and the `lidt` after it. -/
def storeIdtr (operand table : Word) (memory : Memory) : Memory :=
  let memory := storeBytes (operand + BitVec.ofNat 32 0) (8 * 256 - 1 : BitVec 16) 2 memory
  storeBytes (operand + BitVec.ofNat 32 2) table 4 memory

theorem lidt_storeIdtr (operand table : Word) (memory : Memory) :
    lidt (storeIdtr operand table memory) operand = ⟨table, 8 * 256 - 1⟩ := by
  simp (disch := decide) only [lidt, storeIdtr, load_store, load_store_apart]

theorem lidt_congr {memory other : Memory} {operand : Word}
    (same : ∀ i < 6, bytesAt memory operand i = bytesAt other operand i) :
    lidt memory operand = lidt other operand := by
  unfold lidt
  rw [load_congr fun i _ below => same i (by omega), load_congr fun i _ below => same i (by omega)]

theorem storeIdtr_elsewhere (operand table : Word) (memory : Memory) {address : Word}
    (elsewhere : ∀ i < 6, address ≠ operand + BitVec.ofNat 32 i) :
    storeIdtr operand table memory address = memory address := by
  have base : ∀ k < 4, address ≠ operand + BitVec.ofNat 32 2 + BitVec.ofNat 32 k := by
    intro k less
    rw [BitVec.add_assoc, ← BitVec.ofNat_add]
    exact elsewhere (2 + k) (by omega)
  have limit : ∀ k < 2, address ≠ operand + BitVec.ofNat 32 0 + BitVec.ofNat 32 k := by
    intro k less
    rw [BitVec.add_assoc, ← BitVec.ofNat_add, Nat.zero_add]
    exact elsewhere k (by omega)
  rw [storeIdtr, storeBytes_elsewhere _ _ base, storeBytes_elsewhere _ _ limit]

/-! ## A table and its bytes -/

theorem Idt.gate_congr {first second : Idt} {vector : Byte}
    (entry : first.entries vector.toNat = second.entries vector.toNat) (limit : first.limit = second.limit) :
    first.gate vector = second.gate vector := by
  unfold Idt.gate
  rw [entry, limit]

/-- The bytes that the processor finds are those of the table. -/
structure InMemory (memory : Memory) (idtr : Idtr) (idt : Idt) : Prop where
  limit : idtr.limit = idt.limit
  entries : ∀ n < 256, gatesAt memory idtr.base n = idt.entries n

/-- A gate that is set, or a store of another purpose. -/
inductive TableWrite where
  | gate (number : Byte) (base : Word) (sel : BitVec 16) (flags : Byte)
  | store (address : Word) (value : Byte)

def TableWrite.apply (table : Word) (memory : Memory) : TableWrite → Memory
  | .gate number base sel flags => storeGate table number.toNat base sel flags memory
  | .store address value => Function.update memory address value

def TableWrite.entries (entries : Nat → Gate) : TableWrite → Nat → Gate
  | .gate number base sel flags => Function.update entries number.toNat (makeGate base sel flags)
  | .store _ _ => entries

/-- The other stores miss the table. -/
def TableWrite.Misses (table : Word) : TableWrite → Prop
  | .gate _ _ _ _ => True
  | .store address _ => ∀ i < 2048, address ≠ table + BitVec.ofNat 32 i

namespace InMemory

variable {memory : Memory} {idtr : Idtr} {idt : Idt}

theorem gate (held : InMemory memory idtr idt) (vector : Byte) :
    (idtr.table memory).gate vector = idt.gate vector :=
  Idt.gate_congr (held.entries _ vector.isLt) held.limit

theorem storeGate (held : InMemory memory idtr idt) {number : Nat} (inside : number < 256) (base : Word)
    (sel : BitVec 16) (flags : Byte) :
    InMemory (I386.storeGate idtr.base number base sel flags memory) idtr
      { idt with entries := Function.update idt.entries number (makeGate base sel flags) } where
  limit := held.limit
  entries n less := by
    rw [gatesAt_storeGate (by omega) base sel flags (by omega)]
    show (Function.update (gatesAt memory idtr.base) number (makeGate base sel flags) : Nat → Gate) n =
      (Function.update idt.entries number (makeGate base sel flags) : Nat → Gate) n
    by_cases same : n = number
    · rw [same, Function.update_self, Function.update_self]
    · rw [Function.update_of_ne same, Function.update_of_ne same, held.entries n less]

theorem congr {memory' : Memory} (held : InMemory memory idtr idt)
    (same : ∀ i < 2048, bytesAt memory' idtr.base i = bytesAt memory idtr.base i) :
    InMemory memory' idtr idt where
  limit := held.limit
  entries n less := by
    rw [gatesAt_congr fun i _ below => same i (by omega), held.entries n less]

/-- Gates set one after the other, as the functions of a kernel set them. -/
theorem storeGates {K : Type*} (held : InMemory memory idtr idt) (keys : List K) (number : K → Nat)
    (inside : ∀ k, number k < 256) (base : K → Word) (sel : BitVec 16) (flags : Byte) :
    InMemory (keys.foldl (fun memory k => I386.storeGate idtr.base (number k) (base k) sel flags memory) memory)
      idtr { idt with
        entries := writeEntries number (fun k => makeGate (base k) sel flags) keys idt.entries } := by
  induction keys generalizing memory idt with
  | nil => exact held
  | cons k keys ih => exact ih (held.storeGate (inside k) (base k) sel flags)

theorem write (held : InMemory memory idtr idt) {w : TableWrite} (misses : w.Misses idtr.base) :
    InMemory (w.apply idtr.base memory) idtr { idt with entries := w.entries idt.entries } := by
  cases w with
  | gate number base sel flags => exact held.storeGate number.isLt base sel flags
  | store address value => exact held.congr fun i less => Function.update_of_ne (misses i less).symm _ _

theorem writes (held : InMemory memory idtr idt) {ws : List TableWrite}
    (misses : ∀ w ∈ ws, w.Misses idtr.base) :
    InMemory (ws.foldl (TableWrite.apply idtr.base) memory) idtr
      { idt with entries := ws.foldl TableWrite.entries idt.entries } := by
  induction ws generalizing memory idt with
  | nil => exact held
  | cons w ws ih =>
    obtain ⟨here, later⟩ := List.forall_mem_cons.mp misses
    exact ih (held.write here) later

end InMemory

end SzOS.Hardware.I386
