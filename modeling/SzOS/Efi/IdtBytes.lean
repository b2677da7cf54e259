import Mathlib.Data.List.Induction
import SzOS.Efi.Idt
import SzOS.Semantics.LittleEndian

/-! The interrupt descriptor table as bytes: the packed structure that idt.c writes and the
gate descriptor that the processor reads out of it. -/

set_option autoImplicit false

namespace SzOS.Efi.IdtBytes
open Semantics

/-- Memory from the start of the table. -/
abbrev Table := Nat → BitVec 8

/-! ## The fields of a packed entry, in the order of idt.h -/

def setAddrLow (number : Nat) (value : BitVec 16) : Table → Table := leStore (16 * number) 2 value
def setSel (number : Nat) (value : BitVec 16) : Table → Table := leStore (16 * number + 2) 2 value
def setIst (number : Nat) (value : BitVec 8) : Table → Table := leStore (16 * number + 4) 1 value
def setFlags (number : Nat) (value : BitVec 8) : Table → Table := leStore (16 * number + 5) 1 value
def setAddrMid (number : Nat) (value : BitVec 16) : Table → Table := leStore (16 * number + 6) 2 value
def setAddrHigh (number : Nat) (value : BitVec 32) : Table → Table := leStore (16 * number + 8) 4 value
def setReserved (number : Nat) (value : BitVec 32) : Table → Table := leStore (16 * number + 12) 4 value

def configureEntryEmpty (number : Nat) (table : Table) : Table :=
  let table := setAddrLow number 0 table
  let table := setSel number 0 table
  let table := setIst number 0 table
  let table := setFlags number 0 table
  let table := setAddrMid number 0 table
  let table := setAddrHigh number 0 table
  setReserved number 0 table

/-- `cs` is the selector that `read_current_cs` finds. -/
def configureEntryReal (cs : BitVec 16) (number : Nat) (table : Table) (address : BitVec 64) : Table :=
  let table := setAddrLow number ((address &&& 0xFFFF).setWidth 16) table
  let table := setAddrMid number (((address >>> 16) &&& 0xFFFF).setWidth 16) table
  let table := setAddrHigh number (((address >>> 32) &&& 0xFFFFFFFF).setWidth 32) table
  let table := setSel number cs table
  let table := setIst number 0 table
  let table := setFlags number 0x8E table
  setReserved number 0 table

def initiateIdt (table : Table) : Table × IdtPointer :=
  ((List.range 256).foldl (fun table i => configureEntryEmpty i table) table, ⟨16 * 256 - 1⟩)

/-! ## What the processor reads -/

/-- A 16-byte gate descriptor of 64-bit mode. -/
structure GateDescriptor where
  offset : BitVec 64
  selector : BitVec 16
  gateType : BitVec 4
  system : Bool
  privilege : BitVec 2
  present : Bool

/-- Bytes 0, 1, 6, 7 and 8 to 11 are the offset; byte 5 is the type and the attributes. -/
def decode (entry : Nat → BitVec 8) : GateDescriptor where
  offset := leLoad 32 8 4 entry ++ (leLoad 16 6 2 entry ++ leLoad 16 0 2 entry)
  selector := leLoad 16 2 2 entry
  gateType := (entry 5).setWidth 4
  system := !(entry 5).getLsbD 4
  privilege := (entry 5 >>> 5).setWidth 2
  present := (entry 5).getLsbD 7

/-- The entry of a number. -/
def entryAt (table : Table) (number : Nat) : Nat → BitVec 8 := fun i => table (16 * number + i)

/-- A present 64-bit interrupt gate that leads to an address. -/
structure InterruptGate (address : BitVec 64) (cs : BitVec 16) (descriptor : GateDescriptor) : Prop where
  present : descriptor.present = true
  system : descriptor.system = true
  gateType : descriptor.gateType = 0xE
  offset : descriptor.offset = address
  selector : descriptor.selector = cs

/-! ## Calls -/

inductive Call where
  | empty (number : Nat)
  | real (number : Nat) (address : BitVec 64) (cs : BitVec 16)

def Call.number : Call → Nat
  | .empty number => number
  | .real number _ _ => number

def Call.target : Call → Option (BitVec 64 × BitVec 16)
  | .empty _ => none
  | .real _ address cs => some (address, cs)

def apply (table : Table) : Call → Table
  | .empty number => configureEntryEmpty number table
  | .real number address cs => configureEntryReal cs number table address

def lastCall (calls : List Call) (number : Nat) : Option Call :=
  (calls.filter fun call => call.number = number).getLast?

/-- The gate that the last call for a number asked for. -/
def lastTarget (calls : List Call) (number : Nat) : Option (BitVec 64 × BitVec 16) :=
  (lastCall calls number).bind Call.target

/-! ## The table of entries behind the bytes -/

/-- The bytes read through the packed structure. -/
def view (table : Table) (number : Nat) : IdtEntry where
  addrLow := leLoad 16 (16 * number) 2 table
  sel := leLoad 16 (16 * number + 2) 2 table
  ist := leLoad 8 (16 * number + 4) 1 table
  flags := leLoad 8 (16 * number + 5) 1 table
  addrMid := leLoad 16 (16 * number + 6) 2 table
  addrHigh := leLoad 32 (16 * number + 8) 4 table
  reserved := leLoad 32 (16 * number + 12) 4 table

theorem view_configureEntryEmpty (number : Nat) (table : Table) :
    view (configureEntryEmpty number table) = Efi.configureEntryEmpty number (view table) := by
  funext other
  unfold configureEntryEmpty Efi.configureEntryEmpty
  by_cases same : other = number
  · subst same
    rw [Function.update_self]
    simp (disch := omega) only [view, setAddrLow, setSel, setIst, setFlags, setAddrMid, setAddrHigh, setReserved,
      leLoad_leStore, leLoad_leStore_apart]
  · rw [Function.update_of_ne same]
    simp (disch := omega) only [view, setAddrLow, setSel, setIst, setFlags, setAddrMid, setAddrHigh, setReserved,
      leLoad_leStore_apart]

theorem view_configureEntryReal (cs : BitVec 16) (number : Nat) (table : Table) (address : BitVec 64) :
    view (configureEntryReal cs number table address) =
      Efi.configureEntryReal cs number (view table) address := by
  funext other
  unfold configureEntryReal Efi.configureEntryReal
  by_cases same : other = number
  · subst same
    rw [Function.update_self]
    simp (disch := omega) only [view, setAddrLow, setSel, setIst, setFlags, setAddrMid, setAddrHigh, setReserved,
      leLoad_leStore, leLoad_leStore_apart]
  · rw [Function.update_of_ne same]
    simp (disch := omega) only [view, setAddrLow, setSel, setIst, setFlags, setAddrMid, setAddrHigh, setReserved,
      leLoad_leStore_apart]

theorem leLoad_entryAt (width offset count : Nat) (table : Table) (number : Nat) :
    leLoad width offset count (entryAt table number) = leLoad width (16 * number + offset) count table := by
  simp only [leLoad, entryAt, Nat.add_assoc]

/-- The processor and the structure agree on where the parts of an entry are. -/
theorem decode_entryAt (table : Table) (number : Nat) :
    (decode (entryAt table number)).offset = (view table number).offset ∧
      (decode (entryAt table number)).selector = (view table number).sel ∧
      entryAt table number 5 = (view table number).flags := by
  simp only [decode, leLoad_entryAt]
  exact ⟨rfl, rfl, (leLoad_byte _ table).symm⟩

/-! ## One call -/

theorem empty_decoded (number : Nat) (table : Table) :
    (decode (entryAt (configureEntryEmpty number table) number)).present = false := by
  have flags := (decode_entryAt (configureEntryEmpty number table) number).2.2
  rw [view_configureEntryEmpty, Efi.configureEntryEmpty, Function.update_self] at flags
  simp only [decode, flags]
  decide

theorem real_decoded (cs : BitVec 16) (number : Nat) (table : Table) (address : BitVec 64) :
    InterruptGate address cs (decode (entryAt (configureEntryReal cs number table address) number)) := by
  obtain ⟨offset, selector, flags⟩ := decode_entryAt (configureEntryReal cs number table address) number
  rw [view_configureEntryReal] at offset selector flags
  have whole := (configureEntryReal_self cs number (view table) address).2
  rw [Efi.configureEntryReal, Function.update_self] at selector flags
  have byte : entryAt (configureEntryReal cs number table address) number 5 = 0x8E := flags
  refine ⟨?_, ?_, ?_, offset.trans whole, selector⟩
  all_goals
    simp only [decode, byte]
    decide

/-- A call writes to its own entry only. -/
theorem apply_outside (table : Table) (call : Call) {address : Nat}
    (outside : address < 16 * call.number ∨ 16 * call.number + 16 ≤ address) :
    apply table call address = table address := by
  cases call with
  | empty number =>
    simp only [Call.number] at outside
    simp (disch := omega) only [apply, configureEntryEmpty, setAddrLow, setSel, setIst, setFlags, setAddrMid,
      setAddrHigh, setReserved, leStore_outside]
  | real number target cs =>
    simp only [Call.number] at outside
    simp (disch := omega) only [apply, configureEntryReal, setAddrLow, setSel, setIst, setFlags, setAddrMid,
      setAddrHigh, setReserved, leStore_outside]

theorem apply_other (table : Table) (call : Call) {number : Nat} (differ : call.number ≠ number) {i : Nat}
    (inside : i < 16) : entryAt (apply table call) number i = entryAt table number i :=
  apply_outside table call (by omega)

/-- The sixteen bytes of an entry decide its descriptor. -/
theorem decode_congr {entry other : Nat → BitVec 8} (same : ∀ i < 16, entry i = other i) :
    decode entry = decode other := by
  have field : ∀ width start count, start + count ≤ 16 →
      leLoad width start count entry = leLoad width start count other :=
    fun width start count inside => leRead_congr fun i less => same (start + i) (by omega)
  simp only [decode, field 32 8 4 (by decide), field 16 6 2 (by decide), field 16 0 2 (by decide),
    field 16 2 2 (by decide), same 5 (by decide)]

/-! ## Runs -/

/-- The descriptor answers to a target, or is not present. -/
def Leads (target : Option (BitVec 64 × BitVec 16)) (descriptor : GateDescriptor) : Prop :=
  match target with
  | some (address, cs) => InterruptGate address cs descriptor
  | none => descriptor.present = false

theorem apply_leads (table : Table) (call : Call) :
    Leads call.target (decode (entryAt (apply table call) call.number)) := by
  cases call with
  | empty number => exact empty_decoded number table
  | real number address cs => exact real_decoded cs number table address

theorem lastCall_snoc (calls : List Call) (call : Call) (number : Nat) :
    lastCall (calls ++ [call]) number = if call.number = number then some call else lastCall calls number := by
  unfold lastCall
  rw [List.filter_append]
  split
  next same => rw [List.filter_cons_of_pos (by simpa using same), List.filter_nil, List.getLast?_concat]
  next differ => rw [List.filter_cons_of_neg (by simpa using differ), List.filter_nil, List.append_nil]

theorem lastCall_mem {calls : List Call} {number : Nat} {call : Call} (last : lastCall calls number = some call) :
    call ∈ calls ∧ call.number = number := by
  have member := List.mem_of_getLast? last
  simpa using List.mem_filter.mp member

/-- An entry answers to the last call for its number. -/
theorem calls_lead {calls : List Call} {number : Nat} {call : Call} (table : Table)
    (last : lastCall calls number = some call) :
    Leads call.target (decode (entryAt (calls.foldl apply table) number)) := by
  induction calls using List.reverseRecOn with
  | nil => exact absurd last (by simp [lastCall])
  | append_singleton calls newest ih =>
    rw [lastCall_snoc] at last
    rw [List.foldl_append, List.foldl_cons, List.foldl_nil]
    split at last
    next same =>
      rw [← Option.some.inj last, ← same]
      exact apply_leads _ newest
    next differ =>
      rw [decode_congr fun i inside => apply_other _ newest differ inside]
      exact ih last

/-- Without a call for its number an entry stays. -/
theorem calls_keep {calls : List Call} {number : Nat} (table : Table) (none : lastCall calls number = none)
    {i : Nat} (inside : i < 16) : entryAt (calls.foldl apply table) number i = entryAt table number i := by
  induction calls using List.reverseRecOn with
  | nil => rfl
  | append_singleton calls newest ih =>
    rw [lastCall_snoc] at none
    rw [List.foldl_append, List.foldl_cons, List.foldl_nil]
    split at none
    next => exact absurd none (Option.some_ne_none newest)
    next differ => rw [apply_other _ newest differ inside, ih none]

theorem initiateIdt_calls (table : Table) :
    (initiateIdt table).1 = ((List.range 256).map Call.empty).foldl apply table := by
  rw [List.foldl_map]
  simp only [initiateIdt, apply]

theorem initiateIdt_absent (table : Table) {number : Nat} (inside : number < 256) :
    (decode (entryAt (initiateIdt table).1 number)).present = false := by
  have member : Call.empty number ∈ ((List.range 256).map Call.empty).filter fun call => call.number = number := by
    refine List.mem_filter.mpr ⟨List.mem_map_of_mem (List.mem_range.mpr inside), ?_⟩
    simp [Call.number]
  obtain ⟨call, last⟩ : ∃ call, lastCall ((List.range 256).map Call.empty) number = some call :=
    ⟨_, List.getLast?_eq_some_getLast (List.ne_nil_of_mem member)⟩
  obtain ⟨other, _, rfl⟩ := List.mem_map.mp (lastCall_mem last).1
  rw [initiateIdt_calls]
  exact calls_lead table last

/-- After `initiate_idt` and any calls, every entry is the interrupt gate that the last call for
its number configured, or not present; and a call changes no other entry. -/
theorem idt_decoded (table : Table) (calls : List Call) :
    (∀ number < 256, Leads (lastTarget calls number)
      (decode (entryAt (calls.foldl apply (initiateIdt table).1) number))) ∧
    ∀ before call number, call.number ≠ number → ∀ i < 16,
      entryAt (apply before call) number i = entryAt before number i := by
  refine ⟨fun number inside => ?_, fun before call number differ i => apply_other before call differ⟩
  rw [lastTarget]
  cases last : lastCall calls number with
  | none =>
    rw [decode_congr fun i less => calls_keep _ last less]
    exact initiateIdt_absent table inside
  | some call => exact calls_lead _ last

end SzOS.Efi.IdtBytes
