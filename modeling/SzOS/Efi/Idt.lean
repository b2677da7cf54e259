import Mathlib.Logic.Function.Basic
import SzOS.Semantics.Words

/-! The interrupt descriptor table of the EFI kernel (idt.c, include/idt.h). -/

set_option autoImplicit false

namespace SzOS.Efi
open Semantics

structure IdtEntry where
  addrLow : BitVec 16
  sel : BitVec 16
  ist : BitVec 8
  flags : BitVec 8
  addrMid : BitVec 16
  addrHigh : BitVec 32
  reserved : BitVec 32

abbrev IdtTable := Nat → IdtEntry

/-- What `lidt` loads, apart from the address of the table. -/
structure IdtPointer where
  limit : BitVec 16

def configureEntryEmpty (number : Nat) (table : IdtTable) : IdtTable :=
  Function.update table number
    { addrLow := 0, sel := 0, ist := 0, flags := 0, addrMid := 0, addrHigh := 0, reserved := 0 }

/-- `cs` is the selector that `read_current_cs` finds. -/
def configureEntryReal (cs : BitVec 16) (number : Nat) (table : IdtTable) (address : BitVec 64) :
    IdtTable :=
  Function.update table number
    { addrLow := (address &&& 0xFFFF).setWidth 16
      addrMid := ((address >>> 16) &&& 0xFFFF).setWidth 16
      addrHigh := ((address >>> 32) &&& 0xFFFFFFFF).setWidth 32
      sel := cs
      ist := 0
      flags := 0x8E
      reserved := 0 }

/-- The first `count` rounds of the loop of `initiate_idt`. -/
def emptyEntries (count : Nat) (table : IdtTable) : IdtTable :=
  (List.range count).foldl (fun table i => configureEntryEmpty i table) table

/-- An entry takes 16 bytes. -/
def initiateIdt (table : IdtTable) : IdtTable × IdtPointer :=
  (emptyEntries 256 table, ⟨16 * 256 - 1⟩)

/-! ## How the processor reads an entry -/

def IdtEntry.present (entry : IdtEntry) : Bool := entry.flags.getLsbD 7

def IdtEntry.offset (entry : IdtEntry) : BitVec 64 :=
  entry.addrHigh ++ (entry.addrMid ++ entry.addrLow)

/-- The handler of a vector inside the limit whose gate is present. -/
def gate (table : IdtTable) (pointer : IdtPointer) (vector : BitVec 8) : Option (BitVec 64) :=
  if 16 * vector.toNat + 15 ≤ pointer.limit.toNat ∧ (table vector.toNat).present then
    some (table vector.toNat).offset
  else none

theorem join_parts (address : BitVec 64) :
    (address >>> 32).setWidth 32 ++ ((address >>> 16).setWidth 16 ++ address.setWidth 16) =
      address := by
  rw [setWidth_append address 16 16, setWidth_append address 32 32, BitVec.setWidth_eq]

theorem configureEntryReal_self (cs : BitVec 16) (number : Nat) (table : IdtTable)
    (address : BitVec 64) :
    (configureEntryReal cs number table address number).present = true ∧
      (configureEntryReal cs number table address number).offset = address := by
  unfold configureEntryReal
  rw [Function.update_self]
  constructor
  · show (0x8E : BitVec 8).getLsbD 7 = true
    decide
  · unfold IdtEntry.offset
    rw [setWidth_and_mask _ rfl, setWidth_and_mask _ rfl, setWidth_and_mask _ rfl]
    exact join_parts address

theorem configureEntryReal_other (cs : BitVec 16) {number other : Nat} (differ : other ≠ number)
    (table : IdtTable) (address : BitVec 64) :
    configureEntryReal cs number table address other = table other :=
  Function.update_of_ne differ _ _

theorem configureEntryReal_present (cs : BitVec 16) (number other : Nat) (table : IdtTable)
    (address : BitVec 64) :
    (configureEntryReal cs number table address other).present = true ↔
      other = number ∨ (table other).present = true := by
  by_cases same : other = number
  · subst same
    simp only [(configureEntryReal_self cs other table address).1, true_or]
  · rw [configureEntryReal_other cs same]
    simp only [same, false_or]

theorem emptied (table : IdtTable) (count : Nat) {number : Nat} (below : number < count) :
    (emptyEntries count table number).present = false := by
  -- later entries leave the emptied ones as they are
  induction count with
  | zero => exact absurd below (Nat.not_lt_zero _)
  | succ count ih =>
    rw [emptyEntries, List.range_succ, List.foldl_append, List.foldl_cons, List.foldl_nil]
    by_cases newest : number = count
    · subst newest
      unfold configureEntryEmpty
      rw [Function.update_self]
      rfl
    · unfold configureEntryEmpty
      rw [Function.update_of_ne newest]
      exact ih (by omega)

theorem initiateIdt_present (table : IdtTable) {number : Nat} (below : number < 256) :
    ((initiateIdt table).1 number).present = false := by
  simp only [initiateIdt]
  exact emptied table 256 below

end SzOS.Efi
