import SzOS.Hardware.Pic8259
import SzOS.Semantics.Words

/-! A 32-bit x86 processor in flat protected mode, as far as interrupt stubs use it.

Code is a list of instructions run to its end. C functions are entries of the
environment: they get the state at their first instruction, with the return
address on top of the stack, and give the state after their `ret`.
-/

set_option autoImplicit false

namespace SzOS.Hardware.I386
open Semantics

abbrev Word := BitVec 32

inductive Reg where
  | eax | ecx | edx | ebx | esp | ebp | esi | edi
  deriving DecidableEq

inductive Seg where
  | cs | ss | ds | es | fs | gs
  deriving DecidableEq

structure Cpu where
  reg : Reg → Word
  seg : Seg → BitVec 16
  eip : Word
  eflags : Word

def Cpu.setReg (cpu : Cpu) (r : Reg) (value : Word) : Cpu :=
  { cpu with reg := Function.update cpu.reg r value }

def Cpu.setSeg (cpu : Cpu) (s : Seg) (value : BitVec 16) : Cpu :=
  { cpu with seg := Function.update cpu.seg s value }

/-! ## Memory -/

abbrev Memory := Word → Byte

def load32 (memory : Memory) (address : Word) : Word :=
  memory (address + 3) ++ (memory (address + 2) ++ (memory (address + 1) ++ memory address))

def store32 (memory : Memory) (address : Word) (value : Word) : Memory := fun a =>
  if (a - address).toNat < 4 then value.extractLsb' (8 * (a - address).toNat) 8 else memory a

theorem offset_toNat (address : Word) {i : Nat} (small : i < 2 ^ 32) :
    (address + BitVec.ofNat 32 i - address).toNat = i := by
  rw [BitVec.add_comm, BitVec.add_sub_cancel, BitVec.toNat_ofNat, Nat.mod_eq_of_lt small]

theorem store32_at (memory : Memory) (address value : Word) (i : Nat) (inside : i < 4) :
    store32 memory address value (address + BitVec.ofNat 32 i) = value.extractLsb' (8 * i) 8 := by
  unfold store32
  rw [offset_toNat address (by omega), if_pos inside]

theorem bytes_join (value : Word) :
    value.extractLsb' 24 8 ++ (value.extractLsb' 16 8 ++
      (value.extractLsb' 8 8 ++ value.extractLsb' 0 8)) = value := by
  have slice : ∀ start, value.extractLsb' start 8 = (value >>> start).setWidth 8 := by
    intro start
    exact BitVec.eq_of_toNat_eq rfl
  have lowest : value >>> 0 = value := BitVec.ushiftRight_zero value
  rw [slice, slice, slice, slice, lowest, setWidth_append value 8 8, setWidth_append value 8 16,
    setWidth_append value 8 24, BitVec.setWidth_eq]

theorem load32_store32 (memory : Memory) (address value : Word) :
    load32 (store32 memory address value) address = value := by
  have first : store32 memory address value address = value.extractLsb' 0 8 := by
    have offset := store32_at memory address value 0 (by decide)
    rwa [BitVec.add_zero] at offset
  have second := store32_at memory address value 1 (by decide)
  have third := store32_at memory address value 2 (by decide)
  have fourth := store32_at memory address value 3 (by decide)
  unfold load32
  rw [first]
  exact (congrArg₂ _ fourth (congrArg₂ _ third (congrArg (· ++ _) second))).trans (bytes_join value)

/-- A store leaves the words that share no byte with it. -/
theorem load32_store32_apart (memory : Memory) {address other : Word} (value : Word)
    (above : 4 ≤ (other - address).toNat) (below : 4 ≤ (address - other).toNat) :
    load32 (store32 memory address value) other = load32 memory other := by
  have untouched : ∀ i, i < 4 →
      store32 memory address value (other + BitVec.ofNat 32 i) =
        memory (other + BitVec.ofNat 32 i) := by
    intro i inside
    unfold store32
    rw [if_neg]
    bv_omega
  have first : store32 memory address value other = memory other := by
    have offset := untouched 0 (by decide)
    rwa [BitVec.add_zero] at offset
  have second := untouched 1 (by decide)
  have third := untouched 2 (by decide)
  have fourth := untouched 3 (by decide)
  unfold load32
  rw [first]
  exact congrArg₂ _ fourth (congrArg₂ _ third (congrArg (· ++ _) second))

/-! ## Instructions -/

/-- The processor, its memory, and the devices behind the ports. -/
structure State (D : Type*) where
  cpu : Cpu
  memory : Memory
  devices : D

variable {D F : Type*}

namespace State

def sp (s : State D) : Word := s.cpu.reg .esp

def push (s : State D) (value : Word) : State D :=
  { s with
    cpu := s.cpu.setReg .esp (s.sp - 4)
    memory := store32 s.memory (s.sp - 4) value }

def top (s : State D) : Word := load32 s.memory s.sp

def drop (s : State D) : State D := { s with cpu := s.cpu.setReg .esp (s.sp + 4) }

end State

inductive Instr (F : Type*) where
  | cli
  | sti
  | pushImm (value : Word)
  | pusha
  | popa
  | movFromSeg (r : Reg) (sreg : Seg)
  | movToSeg (sreg : Seg) (r : Reg)
  | movImm16 (r : Reg) (value : BitVec 16)
  | push (r : Reg)
  | pop (r : Reg)
  | call (function : F)
  | addEsp (value : Word)
  | inAlDx
  | movzxEaxAl
  | iret

/-- What the instructions meet outside the processor: C functions, ports, the
addresses they return to, and the flags an addition leaves. -/
structure Environment (F D : Type*) where
  call : F → State D → State D
  inb : Port → D → Byte × D
  returnAddress : F → Word
  addFlags : Word → Word → Word → Word

def interruptFlag : Word := 0x200

/-- The low half of a register replaced. -/
def withLow16 (word : Word) (low : BitVec 16) : Word := word.extractLsb' 16 16 ++ low

def withLow8 (word : Word) (low : Byte) : Word := word.extractLsb' 8 24 ++ low

def pushAll (s : State D) (values : List Word) : State D := values.foldl State.push s

/-- Pops into a register, or drops the word where there is none. -/
def popInto (s : State D) : Option Reg → State D
  | some r => { s.drop with cpu := s.drop.cpu.setReg r s.top }
  | none => s.drop

def step (env : Environment F D) (s : State D) : Instr F → State D
  | .cli => { s with cpu := { s.cpu with eflags := s.cpu.eflags &&& ~~~interruptFlag } }
  | .sti => { s with cpu := { s.cpu with eflags := s.cpu.eflags ||| interruptFlag } }
  | .pushImm value => s.push value
  -- the stack pointer is pushed as it was before
  | .pusha =>
    pushAll s ([.eax, .ecx, .edx, .ebx, .esp, .ebp, .esi, .edi].map s.cpu.reg)
  -- and skipped on the way back
  | .popa =>
    [some .edi, some .esi, some .ebp, none, some .ebx, some .edx, some .ecx, some .eax].foldl
      popInto s
  | .movFromSeg r sreg =>
    { s with cpu := s.cpu.setReg r (withLow16 (s.cpu.reg r) (s.cpu.seg sreg)) }
  | .movToSeg sreg r => { s with cpu := s.cpu.setSeg sreg ((s.cpu.reg r).setWidth 16) }
  | .movImm16 r value => { s with cpu := s.cpu.setReg r (withLow16 (s.cpu.reg r) value) }
  | .push r => s.push (s.cpu.reg r)
  | .pop r => popInto s (some r)
  | .call function => env.call function (s.push (env.returnAddress function))
  | .addEsp value =>
    { s with
      cpu := { s.cpu.setReg .esp (s.sp + value) with
        eflags := env.addFlags s.sp value s.cpu.eflags } }
  | .inAlDx =>
    let (value, devices) := env.inb ((s.cpu.reg .edx).setWidth 16) s.devices
    { s with cpu := s.cpu.setReg .eax (withLow8 (s.cpu.reg .eax) value), devices }
  | .movzxEaxAl => { s with cpu := s.cpu.setReg .eax ((s.cpu.reg .eax).setWidth 8 |>.setWidth 32) }
  | .iret =>
    let eip := s.top
    let s := s.drop
    let cs := s.top
    let s := s.drop
    let eflags := s.top
    let s := s.drop
    { s with cpu := { s.cpu.setSeg .cs (cs.setWidth 16) with eip, eflags } }

def exec (env : Environment F D) (code : List (Instr F)) (s : State D) : State D :=
  code.foldl (step env) s

/-- An unconditional jump: the code at its target runs in place of what follows. -/
def jmp (target : List (Instr F)) : List (Instr F) := target

/-! ## Gates and interrupts -/

/-- An eight-byte gate of the interrupt descriptor table. -/
structure Gate where
  lowOffset : BitVec 16
  sel : BitVec 16
  always0 : Byte
  flags : Byte
  highOffset : BitVec 16

def Gate.offset (gate : Gate) : Word := gate.highOffset ++ gate.lowOffset

def Gate.present (gate : Gate) : Bool := gate.flags.getLsbD 7

/-- The gate that the kernels' `set_gate` functions write. -/
def makeGate (handler : Word) (sel : BitVec 16) (flags : Byte) : Gate where
  lowOffset := (handler &&& 0xFFFF).setWidth 16
  highOffset := ((handler >>> 16) &&& 0xFFFF).setWidth 16
  sel := sel
  always0 := 0
  flags := flags

theorem offset_join (handler : Word) :
    (handler >>> 16).setWidth 16 ++ handler.setWidth 16 = handler := by
  rw [setWidth_append handler 16 16, BitVec.setWidth_eq]

theorem makeGate_offset (handler : Word) (sel : BitVec 16) (flags : Byte) :
    (makeGate handler sel flags).offset = handler := by
  unfold Gate.offset makeGate
  dsimp only
  rw [setWidth_and_mask _ rfl, setWidth_and_mask _ rfl]
  exact offset_join handler

/-- The table and the limit that `lidt` loads; a vector past the limit has no gate. -/
structure Idt where
  entries : Nat → Gate
  limit : BitVec 16

def Idt.gate (idt : Idt) (vector : Byte) : Option Gate :=
  let gate := idt.entries vector.toNat
  if 8 * vector.toNat + 7 ≤ idt.limit.toNat ∧ gate.present then some gate else none

theorem Idt.gate_of_entry {idt : Idt} {vector : Byte} {gate : Gate}
    (inside : 8 * vector.toNat + 7 ≤ idt.limit.toNat) (entry : idt.entries vector.toNat = gate)
    (present : gate.present = true) : idt.gate vector = some gate := by
  unfold Idt.gate
  simp only [entry]
  exact if_pos ⟨inside, present⟩

/-- The vector of a line of the pair of controllers, based at 32. -/
theorem lineVector_toNat (line : Fin 16) :
    (BitVec.ofNat 8 (32 + line.val)).toNat = 32 + line.val := by
  rw [BitVec.toNat_ofNat]
  omega

theorem lineVector_injective : Function.Injective fun line : Fin 16 => 32 + line.val := by
  intro first second same
  exact Fin.ext (Nat.add_left_cancel same)

theorem Idt.gate_of_line {idt : Idt} (full : idt.limit = 8 * 256 - 1) {line : Fin 16} {gate : Gate}
    (entry : idt.entries (32 + line) = gate) (present : gate.present = true) :
    idt.gate (BitVec.ofNat 8 (32 + line)) = some gate := by
  have limit : (8 * 256 - 1 : BitVec 16).toNat = 2047 := rfl
  apply Idt.gate_of_entry
  · rw [lineVector_toNat, full, limit]
    omega
  · rw [lineVector_toNat]
    exact entry
  · exact present

/-- The routine that the linker put at an address. -/
def routineAt {R : Type*} (address : R → Word) (routines : List R) (place : Word) : Option R :=
  routines.find? fun routine => address routine = place

theorem routineAt_address {R : Type*} {address : R → Word} (injective : Function.Injective address)
    {routines : List R} {routine : R} (member : routine ∈ routines) :
    routineAt address routines (address routine) = some routine := by
  cases found : routineAt address routines (address routine) with
  | none =>
    have missing := List.find?_eq_none.mp found routine member
    exact absurd rfl (of_decide_eq_false (Bool.eq_false_iff.mpr missing))
  | some other =>
    have same := List.find?_some found
    rw [injective (of_decide_eq_true same)]

section Entries

variable {K V : Type*} (key : K → Nat) (value : K → V)

def writeEntries (keys : List K) (table : Nat → V) : Nat → V :=
  keys.foldl (fun table k => Function.update table (key k) (value k)) table

theorem writeEntries_other {keys : List K} {n : Nat} (others : ∀ k ∈ keys, key k ≠ n)
    (table : Nat → V) : writeEntries key value keys table n = table n := by
  induction keys generalizing table with
  | nil => rfl
  | cons k rest ih =>
    obtain ⟨first, later⟩ := List.forall_mem_cons.mp others
    exact (ih later _).trans (Function.update_of_ne (Ne.symm first) _ _)

theorem writeEntries_mem (injective : Function.Injective key) {keys : List K} {k : K}
    (member : k ∈ keys) (table : Nat → V) :
    writeEntries key value keys table (key k) = value k := by
  induction keys generalizing table with
  | nil => exact absurd member List.not_mem_nil
  | cons other rest ih =>
    by_cases again : k ∈ rest
    · exact ih again _
    · rcases List.mem_cons.mp member with rfl | later
      · have untouched : ∀ j ∈ rest, key j ≠ key k := by
          intro j inRest same
          exact again (injective same ▸ inRest)
        exact (writeEntries_other key value untouched _).trans (Function.update_self _ _ _)
      · exact absurd later again

end Entries

/-- The entry of an interrupt through a gate of the running privilege level. -/
def interrupt (gate : Gate) (s : State D) : State D :=
  let s := pushAll s [s.cpu.eflags, (s.cpu.seg .cs).setWidth 32, s.cpu.eip]
  { s with
    cpu := { s.cpu.setSeg .cs gate.sel with
      eip := gate.offset
      eflags := s.cpu.eflags &&& ~~~interruptFlag } }

section Frame

variable (s : State D)

@[simp] theorem interrupt_devices (gate : Gate) : (interrupt gate s).devices = s.devices := rfl

end Frame

/-- What port reads and the calls of the code leave alone in the devices, the code does. -/
theorem exec_keeps {X : Type*} (view : D → X) {env : Environment F D} {code : List (Instr F)}
    (ports : ∀ port d, view (env.inb port d).2 = view d)
    (calls : ∀ f, Instr.call f ∈ code → ∀ s, view (env.call f s).devices = view s.devices)
    (s : State D) : view (exec env code s).devices = view s.devices := by
  induction code generalizing s with
  | nil => rfl
  | cons i rest ih =>
    -- only a call or a port read can reach the devices
    have first : view (step env s i).devices = view s.devices := by
      cases i with
      | call f => exact calls f List.mem_cons_self _
      | inAlDx => exact ports _ _
      | _ => rfl
    have later := ih (fun f member => calls f (List.mem_cons_of_mem i member)) (step env s i)
    exact later.trans first

theorem exec_append (env : Environment F D) (first second : List (Instr F)) (s : State D) :
    exec env (first ++ second) s = exec env second (exec env first s) :=
  List.foldl_append

@[simp] theorem push_sp (s : State D) (value : Word) : (s.push value).sp = s.sp - 4 := by
  simp only [State.push, State.sp, Cpu.setReg, Function.update_self]

@[simp] theorem push_top (s : State D) (value : Word) : (s.push value).top = value := by
  unfold State.top
  rw [push_sp]
  exact load32_store32 s.memory (s.sp - 4) value

theorem push_reg (s : State D) (value : Word) {r : Reg} (other : r ≠ .esp) :
    (s.push value).cpu.reg r = s.cpu.reg r :=
  Function.update_of_ne other _ _

theorem pushAll_reg (s : State D) (values : List Word) {r : Reg} (other : r ≠ .esp) :
    (pushAll s values).cpu.reg r = s.cpu.reg r := by
  induction values generalizing s with
  | nil => rfl
  | cons value rest ih => exact (ih (s.push value)).trans (push_reg s value other)

theorem pushAll_seg (s : State D) (values : List Word) : (pushAll s values).cpu.seg = s.cpu.seg := by
  induction values generalizing s with
  | nil => rfl
  | cons value rest ih => exact ih (s.push value)

@[simp] theorem exec_nil (env : Environment F D) (s : State D) : exec env [] s = s := rfl

theorem step_push (env : Environment F D) (s : State D) (r : Reg) :
    step env s (.push r) = s.push (s.cpu.reg r) := rfl

theorem step_movFromSeg (env : Environment F D) (s : State D) (r : Reg) (sreg : Seg) :
    (step env s (.movFromSeg r sreg)).cpu.reg r =
      withLow16 (s.cpu.reg r) (s.cpu.seg sreg) :=
  Function.update_self r _ s.cpu.reg

theorem exec_cons (env : Environment F D) (i : Instr F) (rest : List (Instr F)) (s : State D) :
    exec env (i :: rest) s = exec env rest (step env s i) := rfl

/-- Instructions that move neither the stack pointer nor the memory. -/
def Instr.isQuiet : Instr F → Bool
  | .cli | .sti | .movToSeg _ _ => true
  | .movFromSeg r _ | .movImm16 r _ => r ≠ .esp
  | _ => false

theorem interrupt_reg (gate : Gate) (s : State D) {r : Reg} (other : r ≠ .esp) :
    (interrupt gate s).cpu.reg r = s.cpu.reg r :=
  pushAll_reg s [s.cpu.eflags, (s.cpu.seg .cs).setWidth 32, s.cpu.eip] other

theorem interrupt_seg (gate : Gate) (s : State D) {sreg : Seg} (other : sreg ≠ .cs) :
    (interrupt gate s).cpu.seg sreg = s.cpu.seg sreg := by
  have pushed : (pushAll s [s.cpu.eflags, (s.cpu.seg .cs).setWidth 32, s.cpu.eip]).cpu.seg sreg =
      s.cpu.seg sreg := by rw [pushAll_seg]
  exact (Function.update_of_ne other _ _).trans pushed

end SzOS.Hardware.I386
