import SzOS.Hardware.Frames
import SzOS.Kernel.Exceptions
import SzOS.KernelC.Interrupts
import SzOS.KernelC.Numbers
import SzOS.KernelC.Screen

/-! Processor exceptions of kernel-c: what `isr_handler` prints, and where its stub returns.

The handler gets the saved registers by value, prints the number and the name of the
exception and returns. The stub then resumes what was interrupted, so that a fault is
taken again and reported again.
-/

set_option autoImplicit false

namespace SzOS.KernelC
open Semantics Hardware Hardware.I386 Libc Screen
open Kernel.Interrupts (Exception processorPushesErrorCode)

/-! ## cpu/isr.c -/

def exceptionMessages : List CString := [
  "Division By Zero", "Debug", "Non Maskable Interrupt", "Breakpoint",
  "Into Detected Overflow", "Out of Bounds", "Invalid Opcode", "No Coprocessor",
  "Double Fault", "Coprocessor Segment Overrun", "Bad TSS", "Segment Not Present",
  "Stack Fault", "General Protection Fault", "Page Fault", "Unknown Interrupt",
  "Coprocessor Fault", "Alignment Check", "Machine Check", "Reserved",
  "Reserved", "Reserved", "Reserved", "Reserved",
  "Reserved", "Reserved", "Reserved", "Reserved",
  "Reserved", "Reserved", "Reserved", "Reserved"].map CString.literal

/-- The array `s[3]` after a conversion; a store past its end has no defined outcome. -/
def digitsArray (str : Buffer) : Option (List UInt8) :=
  if str.stores.all fun store => store.1 < 3 then some ((List.range 3).map str.cells) else none

/-- `garbage` is what the array holds before. -/
def isrHandler (bound : Nat) (garbage : Nat → UInt8) (r : Kernel.Interrupts.Registers) (vga : Vga) :
    Option Vga := do
  let vga ← kprint (CString.literal "received interrupt: ") vga
  let str ← intToAscii bound r.intNo ⟨garbage, []⟩
  let s ← digitsArray str
  let vga ← kprintAt s (-1) (-1) vga
  let vga ← kprint (CString.literal "\n") vga
  let message ← exceptionMessages[r.intNo.toNat]?
  let vga ← kprint message vga
  kprint (CString.literal "\n") vga

/-! ## The system with its screen -/

/-- The devices, and the screen unless a handler did not return. -/
structure Console where
  devices : Devices
  screen : Option Vga

section System

variable (build : Build) (bound : Nat) (garbage : State Console → Nat → UInt8)

/-- `isr_handler` finds its argument above the return address. -/
def callReporting (f : CFunction) (s : State Console) : State Console :=
  let ran := callFunction build f ⟨s.cpu, s.memory, s.devices.devices⟩
  let screen := match f with
    | .isrHandler =>
      s.devices.screen.bind
        (isrHandler bound (garbage s) (Kernel.Interrupts.Registers.load s.memory (s.sp + 4)))
    | _ => s.devices.screen
  { cpu := ran.cpu, memory := ran.memory, devices := { devices := ran.devices, screen } }

def reporting : Environment CFunction Console where
  call := callReporting build bound garbage
  inb port console :=
    let (value, devices) := portByteIn port console.devices
    (value, { console with devices })
  returnAddress := build.returnAddress
  addFlags := build.addFlags

/-- The stub that the gate of an exception leads to, and the state at its first instruction. -/
def enterException (idt : Idt) (e : Exception) (console : Console) : Option (Stub × State Console) := do
  let gate ← idt.gate (BitVec.ofNat 8 e.vector)
  let stub ← stubAt build gate.offset
  some (stub, pushAll (interrupt gate ⟨e.cpu, e.memory, console⟩) e.pushed)

/-- The state that the stub of an exception returns to. -/
def afterException (idt : Idt) (e : Exception) (console : Console) : Option (State Console) := do
  let (stub, entered) ← enterException build idt e console
  some (exec (reporting build bound garbage) stub.code entered)

/-- What happens to the kernel while it runs: exceptions, hardware requests, its own output. -/
inductive Event where
  | exception (e : Exception)
  | request (r : Request)
  | print (message : CString)

def Console.advance (idt : Idt) (console : Console) : Event → Option Console
  | .exception e => (afterException build bound garbage idt e console).map State.devices
  | .request r => do
    let next ← request build ⟨idt, console.devices⟩ r
    some { console with devices := next.devices }
  | .print message => some { console with screen := console.screen.bind (kprint message) }

/-- What the handler's report of an exception reads. -/
def report (n : Fin 32) : List UInt8 :=
  (CString.literal "received interrupt: ").bytes ++ plainNumeral n ++ (CString.literal "\n").bytes ++
    ((exceptionMessages[n.val]?).map CString.bytes).getD [] ++ (CString.literal "\n").bytes

def Event.text : Event → List UInt8
  | .exception e => report e.vector
  | .request _ => []
  | .print message => message.bytes

/-- The handler returns as compiled C does, and leaves the copy of the registers that it was given. -/
structure LeavesFrame (s : State Console) : Prop where
  sp : (callReporting build bound garbage .isrHandler s).sp = s.sp + 4
  ss : (callReporting build bound garbage .isrHandler s).cpu.seg .ss = s.cpu.seg .ss
  frame : Kernel.Interrupts.Registers.load (callReporting build bound garbage .isrHandler s).memory (s.sp + 4) =
    Kernel.Interrupts.Registers.load s.memory (s.sp + 4)

example (s : State Console) : LeavesFrame someBuild bound garbage s := ⟨drop_sp _, rfl, rfl⟩

/-- Where the stub returns to. `iret` takes an error code that it was not told of for the address. -/
def Resumes (e : Exception) (cpu : Cpu) : Prop :=
  if e.vector.val = 17 ∨ e.vector.val = 21 then
    cpu.eip = e.errorCode ∧ cpu.reg .esp = e.cpu.reg .esp - 4
  else cpu = e.cpu

end System

/-! ## The report -/

theorem printLoop_terminated (bytes rest : List UInt8) (nonzero : ∀ byte ∈ bytes, byte ≠ 0) (col row : Int)
    (vga : Vga) : printLoop (bytes ++ 0 :: rest) col row vga = printLoop (bytes ++ [0]) col row vga := by
  induction bytes generalizing col row vga with
  | nil => rfl
  | cons byte bytes ih =>
    have here := nonzero byte List.mem_cons_self
    rw [List.cons_append, List.cons_append, printLoop, printLoop, if_neg here, if_neg here]
    exact ih (fun other member => nonzero other (List.mem_cons_of_mem byte member)) _ _ _

/-- What follows the terminator is not read. -/
theorem kprintAt_object (message : CString) (rest : List UInt8) (vga : Vga) :
    kprintAt (message.bytes ++ 0 :: rest) (-1) (-1) vga = kprint message vga := by
  have negative : ¬ ((-1 : Int) ≥ 0 ∧ (-1 : Int) ≥ 0) := by decide
  unfold kprint kprintAt CString.object
  rw [if_neg negative, if_neg negative]
  exact printLoop_terminated message.bytes rest message.nonzero _ _ _

/-- The numeral of a vector as a string. -/
def numeralString (n : Nat) : CString where
  bytes := plainNumeral n
  nonzero := by
    rintro byte member rfl
    have digit := (plainNumeral_plain n).digits 0 member
    exact absurd digit.1 (by decide)

/-- The loop divides a vector at most four times. -/
theorem digitLoop_ends {n : Nat} (small : n < 32) (bound : Nat) (str : Buffer) :
    ∃ d, digitLoop (bound + 4) ⟨BitVec.ofNat 32 n, 0, str⟩ = some d ∧ True := by
  have first := digitStep_small (m := n) (by omega) 0 str
  have enough : (BitVec.ofNat 32 (n / 10)).toNat < bound + 4 := by
    rw [BitVec.toNat_ofNat]
    omega
  unfold digitLoop
  rw [first]
  refine whileLoop_total (fun d => ∃ m < 2 ^ 31, d.n = BitVec.ofNat 32 m) (fun _ => True)
    (fun d => d.n.toNat) ?_ (fun _ _ _ => trivial) ⟨n / 10, by omega, rfl⟩ enough
  rintro ⟨_, i, str⟩ ⟨m, inside, rfl⟩ go
  have positive := (positive_iff inside).mp go
  rw [digitStep_small inside]
  refine ⟨_, rfl, ⟨m / 10, by omega, rfl⟩, ?_⟩
  simp only [BitVec.toNat_ofNat]
  omega

/-- Cells that hold a list, read as an array that is long enough. -/
theorem holds_array {str : Buffer} {values : List UInt8} {size : Nat} (held : str.Holds 0 values)
    (fits : values.length ≤ size) : ∃ rest, (List.range size).map str.cells = values ++ rest := by
  refine ⟨((List.range size).map str.cells).drop values.length, ?_⟩
  have front : ((List.range size).map str.cells).take values.length = values := by
    apply List.ext_getElem
    · simp [fits]
    · intro k inArray inside
      have cell := held k inside
      rw [Nat.zero_add] at cell
      simp [cell]
  conv => lhs; rw [← List.take_append_drop values.length ((List.range size).map str.cells), front]

/-- The digits of a vector as they lie in the array before they are turned round. -/
def vectorDigits (n : Nat) : List UInt8 := (lowDigits n).map digitByte

theorem vectorDigits_length {n : Nat} (small : n < 32) : (vectorDigits n).length ≤ 2 := by
  rw [vectorDigits, List.length_map]
  exact lowDigits_length (by decide) (by omega)

/-- The array as `int_to_ascii` leaves it. -/
def converted (n : Nat) (str : Buffer) : Buffer :=
  reverseString (vectorDigits n).length (str.writeFrom 0 (vectorDigits n ++ [0]))
    ((vectorDigits n).length / 2)

theorem intToAscii_vector {n : Nat} (small : n < 32) (bound : Nat) (str : Buffer) :
    intToAscii (bound + 4) (BitVec.ofNat 32 n) str = some (converted n str) := by
  have inside : n < 2 ^ 31 := by omega
  obtain ⟨enough, spec⟩ := digitLoop_spec inside 0 str
  obtain ⟨d, ended, _⟩ := digitLoop_ends small bound str
  rw [whileLoop_unique ended spec] at ended
  have positive : (BitVec.ofNat 32 n).slt 0 = false := by
    apply Bool.eq_false_iff.mpr
    rw [Ne, slt_zero_iff, toInt_ofNat_small inside]
    omega
  unfold intToAscii converted vectorDigits
  dsimp only
  rw [positive, if_neg Bool.false_ne_true, ended, Option.bind_eq_bind, Option.bind_some,
    if_neg Bool.false_ne_true, Store.writeFrom_append, List.length_map]
  simp only [Nat.zero_add, Store.writeFrom]

/-- A vector has at most two digits, so that the array holds them and the terminator. -/
theorem digitsArray_converted {n : Nat} (small : n < 32) (garbage : Nat → UInt8) :
    ∃ rest, digitsArray (converted n ⟨garbage, []⟩) = some ((numeralString n).bytes ++ 0 :: rest) := by
  have few := vectorDigits_length small
  have fits : (vectorDigits n ++ [0]).length ≤ 3 := by
    rw [List.length_append, List.length_singleton]
    omega
  have held : (converted n ⟨garbage, []⟩).Holds 0 ((vectorDigits n).reverse ++ [0]) :=
    reverseString_holds (Store.holds_writeFrom ⟨garbage, []⟩ 0 (vectorDigits n ++ [0]))
  have room : ((vectorDigits n).reverse ++ [0]).length ≤ 3 := by simpa using fits
  obtain ⟨rest, array⟩ := holds_array held room
  have written : Store.StoresBelow 3 ⟨garbage, []⟩
      ((⟨garbage, []⟩ : Buffer).writeFrom 0 (vectorDigits n ++ [0])) :=
    (Store.StoresBelow.refl 3 _).writeFrom (by rwa [Nat.zero_add])
  obtain ⟨record, stores, inArray⟩ := reverseString_below (Nat.le_refl ((vectorDigits n).length / 2))
    (Nat.le_succ_of_le few) written
  refine ⟨rest, ?_⟩
  have inside : (converted n ⟨garbage, []⟩).stores.all (fun store => store.1 < 3) = true := by
    rw [converted, stores, List.append_nil, List.all_eq_true]
    exact fun store member => decide_eq_true (inArray store member)
  rw [digitsArray, if_pos inside, array, List.append_assoc]
  rfl

theorem exceptionMessages_get (n : Fin 32) :
    ∃ message, exceptionMessages[n.val]? = some message ∧ report n =
      (CString.literal "received interrupt: ").bytes ++ (numeralString n).bytes ++
        (CString.literal "\n").bytes ++ message.bytes ++ (CString.literal "\n").bytes := by
  have count : exceptionMessages.length = 32 := by decide
  have inside : n.val < exceptionMessages.length := by
    rw [count]
    exact n.isLt
  refine ⟨exceptionMessages[n.val], List.getElem?_eq_getElem inside, ?_⟩
  rw [report, List.getElem?_eq_getElem inside]
  rfl

theorem isrHandler_reports (bound : Nat) (garbage : Nat → UInt8) {r : Kernel.Interrupts.Registers} {n : Fin 32}
    (vector : r.intNo = BitVec.ofNat 32 n) {p : Nat} (onScreen : p < 2000) (vidmem : Screen.Memory) :
    isrHandler (bound + 4) garbage r (vgaAt p vidmem) =
      some (vgaAt ((report n).foldl put (p, vidmem)).1 ((report n).foldl put (p, vidmem)).2) := by
  obtain ⟨rest, array⟩ := digitsArray_converted n.isLt garbage
  obtain ⟨message, get, text⟩ := exceptionMessages_get n
  have number : r.intNo.toNat = n.val := by
    rw [vector, BitVec.toNat_ofNat]
    omega
  have prints := kprints_cells [CString.literal "received interrupt: ", numeralString n,
    CString.literal "\n", message, CString.literal "\n"] onScreen vidmem
  simp only [List.flatMap_cons, List.flatMap_nil, List.append_nil, ← List.append_assoc] at prints
  rw [← text] at prints
  rw [← prints]
  unfold isrHandler
  rw [number, vector, intToAscii_vector n.isLt bound, get]
  simp only [Option.bind_eq_bind, Option.bind_some, array, kprintAt_object]
  rfl

/-! ## Entry -/

/-- The words that a stub pushes before the common part. -/
def stubWords (n : Fin 32) : List Word :=
  if pushesErrorCode n then [BitVec.ofNat 32 n] else [0, BitVec.ofNat 32 n]

def entryCode (n : Fin 32) : List (Instr CFunction) :=
  .cli :: (stubWords n).map .pushImm ++ (pushState ++ kernelSegments)

theorem isr_eq (n : Fin 32) : isr n = entryCode n ++ .call .isrHandler :: popState := by
  unfold isr entryCode stubWords
  split <;> rfl

section Stub

variable {build : Build} {bound : Nat} {garbage : State Console → Nat → UInt8}

theorem exception_gate (build : Build) (before : System) (n : Fin 32) :
    (setup build before).idt.gate (BitVec.ofNat 8 n) = some (idtGate (build.address (.isr n))) := by
  have vector : (BitVec.ofNat 8 n.val).toNat = n.val := by
    rw [BitVec.toNat_ofNat]
    omega
  have notKeyboard : n.val ≠ 33 := by omega
  apply Idt.gate_of_entry
  · rw [vector]
    show 8 * n.val + 7 ≤ 2047
    omega
  · rw [vector]
    -- the keyboard's gate and those of the other lines come after, at other entries
    have lines : ∀ line ∈ List.finRange 16, 32 + line.val ≠ n.val := by
      intro line _
      omega
    have installed : (isrInstall build before).idt.entries n = idtGate (build.address (.isr n)) :=
      (writeEntries_other (fun line : Fin 16 => 32 + line.val)
        (fun line => idtGate (build.address (.irq line))) lines _).trans
        (writeEntries_mem (fun n : Fin 32 => n.val) (fun n => idtGate (build.address (.isr n)))
          (fun _ _ same => Fin.ext same) (List.mem_finRange n) _)
    exact (Function.update_of_ne notKeyboard _ _).trans installed
  · exact idtGate_present _

/-- The state at a stub's first instruction. -/
structure EnteredStub (e : Exception) (console : Console) (s : State Console) : Prop where
  devices : s.devices = console
  stack : s.Stack (e.cpu.reg .esp)
    (e.pushed ++ [e.cpu.eip, (e.cpu.seg .cs).setWidth 32, e.cpu.eflags])
  reg : ∀ r, r ≠ .esp → s.cpu.reg r = e.cpu.reg r
  seg : ∀ sreg, sreg ≠ .cs → s.cpu.seg sreg = e.cpu.seg sreg

theorem pushed_few (e : Exception) : e.pushed.length ≤ 1 ∧ e.pushed.reverse = e.pushed := by
  unfold Exception.pushed
  split
  · exact ⟨Nat.le_refl 1, rfl⟩
  · exact ⟨Nat.zero_le 1, rfl⟩

theorem enterException_stub (build : Build) (before : System) (e : Exception) (console : Console) :
    ∃ entered, enterException build (setup build before).idt e console = some (.isr e.vector, entered) ∧
      EnteredStub e console entered := by
  unfold enterException
  rw [exception_gate, Option.bind_eq_bind, Option.bind_some, idtGate, makeGate_offset, stubAt_address]
  obtain ⟨length, reverse⟩ := pushed_few e
  refine ⟨_, rfl, ?_, ?_, ?_, ?_⟩
  · rw [pushAll_devices]
    rfl
  · have fits : 4 * (e.pushed.length + 3) ≤ 2 ^ 32 := by omega
    have stack := (interrupt_stack (s := ⟨e.cpu, e.memory, console⟩)
      (makeGate (build.address (.isr e.vector)) 0x08 0x8E)).pushAll fits
    rw [reverse] at stack
    exact stack
  · intro r other
    rw [pushAll_reg _ _ other, interrupt_reg _ _ other]
  · intro sreg other
    rw [pushAll_seg, interrupt_seg _ _ other]

/-- The copy of the registers, from the data segment up to the interrupted flags. -/
def frameWords (e : Exception) (saved : State Console) : List Word :=
  withLow16 (e.cpu.reg .eax) (e.cpu.seg .ds) :: (savedRegisters saved ++
    ((stubWords e.vector).reverse ++
      (e.pushed ++ [e.cpu.eip, (e.cpu.seg .cs).setWidth 32, e.cpu.eflags])))

/-- The state at the first instruction of `isr_handler`. -/
structure AtHandler (build : Build) (e : Exception) (console : Console) (saved s : State Console) : Prop where
  devices : s.devices = console
  general : ∀ r, r ≠ .esp → saved.cpu.reg r = e.cpu.reg r
  stack : s.Stack (e.cpu.reg .esp) (build.returnAddress .isrHandler :: frameWords e saved)
  ss : s.cpu.seg .ss = e.cpu.seg .ss

theorem kernelSegments_quiet : ∀ i ∈ kernelSegments, i.isQuiet = true := by
  simp [kernelSegments, Instr.isQuiet]

theorem kernelSegments_ss (env : Environment CFunction Console) (s : State Console) :
    (exec env kernelSegments s).cpu.seg .ss = s.cpu.seg .ss := rfl

/-- Code without calls leaves the devices and the screen. -/
theorem exec_callFree (build : Build) (bound : Nat) (garbage : State Console → Nat → UInt8)
    {code : List (Instr CFunction)} (callFree : ∀ i ∈ code, i.isCall = false) (s : State Console) :
    (exec (reporting build bound garbage) code s).devices = s.devices := by
  refine exec_keeps (fun console => console) ?_ ?_ s
  · intro port console
    have same : (portByteIn port console.devices).2 = console.devices := by
      unfold portByteIn
      split
      · rfl
      split
      · rfl
      split <;> rfl
    show { console with devices := (portByteIn port console.devices).2 } = console
    rw [same]
  · intro f member
    exact absurd (callFree _ member) (by simp [Instr.isCall])

theorem entryCode_callFree (n : Fin 32) : ∀ i ∈ entryCode n, i.isCall = false := by
  unfold entryCode stubWords
  split <;> simp [pushState, kernelSegments, Instr.isCall]

theorem popState_callFree : ∀ i ∈ (popState : List (Instr CFunction)), i.isCall = false := by
  simp [popState, loadSegments, Instr.isCall]

/-- The state in which the stub calls its handler. -/
def atHandler (build : Build) (bound : Nat) (garbage : State Console → Nat → UInt8) (n : Fin 32)
    (s : State Console) : State Console :=
  (exec (reporting build bound garbage) (entryCode n) s).push (build.returnAddress .isrHandler)

theorem entryCode_spec {e : Exception} {console : Console} {s : State Console}
    (entered : EnteredStub e console s) :
    ∃ saved, AtHandler build e console saved (atHandler build bound garbage e.vector s) := by
  have devices := exec_callFree build bound garbage (entryCode_callFree e.vector) s
  have few : (stubWords e.vector).length ≤ 2 := by
    unfold stubWords
    split <;> simp
  have words : (e.pushed ++ [e.cpu.eip, (e.cpu.seg .cs).setWidth 32, e.cpu.eflags]).length ≤ 4 := by
    have length := (pushed_few e).1
    simp only [List.length_append, List.length_cons, List.length_nil]
    omega
  have disabled : (step (reporting build bound garbage) s .cli).Stack _ _ := entered.stack.congr rfl rfl
  have fits : 4 * ((stubWords e.vector).length +
      (e.pushed ++ [e.cpu.eip, (e.cpu.seg .cs).setWidth 32, e.cpu.eflags]).length) ≤ 2 ^ 32 := by omega
  have stacked := disabled.pushAll fits
  have regs : ∀ r, r ≠ .esp → (pushAll (step (reporting build bound garbage) s .cli)
      (stubWords e.vector)).cpu.reg r = e.cpu.reg r :=
    fun r other => (pushAll_reg _ _ other).trans (entered.reg r other)
  have segs : ∀ sreg, sreg ≠ .cs → (pushAll (step (reporting build bound garbage) s .cli)
      (stubWords e.vector)).cpu.seg sreg = e.cpu.seg sreg :=
    fun sreg other => (congrFun (pushAll_seg _ _) sreg).trans (entered.seg sreg other)
  unfold atHandler
  rw [entryCode, List.cons_append, exec_cons, exec_append, exec_append, exec_pushImms] at devices ⊢
  generalize pushAll (step (reporting build bound garbage) s .cli) (stubWords e.vector) = saved
    at stacked regs segs devices ⊢
  have room : ((stubWords e.vector).reverse ++
      (e.pushed ++ [e.cpu.eip, (e.cpu.seg .cs).setWidth 32, e.cpu.eflags])).length ≤ 16 := by
    rw [List.length_append, List.length_reverse]
    omega
  obtain ⟨built, seg⟩ := pushState_stack (reporting build bound garbage) stacked room
  rw [regs .eax (by decide), segs .ds (by decide)] at built
  have inKernel := exec_quiet_stack (reporting build bound garbage) kernelSegments_quiet built
  have ss := kernelSegments_ss (reporting build bound garbage)
    (exec (reporting build bound garbage) pushState saved)
  rw [seg, segs .ss (by decide)] at ss
  generalize exec (reporting build bound garbage) kernelSegments
    (exec (reporting build bound garbage) pushState saved) = before at inKernel ss devices ⊢
  have eight : (savedRegisters saved).length = 8 := rfl
  refine ⟨saved, devices.trans entered.devices, regs, inKernel.push ?_ _, ss⟩
  rw [List.length_append, List.length_cons, eight]
  omega

/-! ## The frame -/

theorem pushes_agree_iff : ∀ n : Fin 32,
    pushesErrorCode n = processorPushesErrorCode n ↔ n ≠ 17 ∧ n ≠ 21 := by
  decide

/-- Every stub pushes the vector last. -/
theorem frameWords_vector (e : Exception) (saved : State Console) :
    ∃ rest, frameWords e saved = withLow16 (e.cpu.reg .eax) (e.cpu.seg .ds) ::
      (savedRegisters saved ++ (BitVec.ofNat 32 e.vector :: rest)) := by
  unfold frameWords stubWords
  split <;> exact ⟨_, rfl⟩

theorem frameWords_of_agree {e : Exception} (saved : State Console)
    (agree : pushesErrorCode e.vector = processorPushesErrorCode e.vector) :
    ∃ code, frameWords e saved = withLow16 (e.cpu.reg .eax) (e.cpu.seg .ds) :: (savedRegisters saved ++
      [BitVec.ofNat 32 e.vector, code, e.cpu.eip, (e.cpu.seg .cs).setWidth 32, e.cpu.eflags]) := by
  unfold frameWords stubWords Exception.pushed
  rw [agree]
  split <;> exact ⟨_, rfl⟩

/-- Where only the processor pushes an error code, the stub's word stands before it. -/
theorem frameWords_of_disagree {e : Exception} (saved : State Console)
    (disagree : pushesErrorCode e.vector ≠ processorPushesErrorCode e.vector) :
    frameWords e saved = (withLow16 (e.cpu.reg .eax) (e.cpu.seg .ds) :: (savedRegisters saved ++
      [BitVec.ofNat 32 e.vector, 0, e.errorCode, e.cpu.eip, (e.cpu.seg .cs).setWidth 32])) ++
        [e.cpu.eflags] := by
  have onlyProcessor : ∀ n : Fin 32, pushesErrorCode n ≠ processorPushesErrorCode n →
      pushesErrorCode n = false ∧ processorPushesErrorCode n = true := by decide
  obtain ⟨stub, processor⟩ := onlyProcessor e.vector disagree
  unfold frameWords stubWords Exception.pushed
  rw [stub, processor]
  rfl

section Handler

variable {e : Exception} {console : Console} {saved s : State Console}

theorem AtHandler.intNo (here : AtHandler build e console saved s) :
    (Kernel.Interrupts.Registers.load s.memory (s.sp + 4)).intNo = BitVec.ofNat 32 e.vector := by
  obtain ⟨rest, words⟩ := frameWords_vector e saved
  have held := here.stack.held.2
  rw [words] at held
  have ninth := wordsAt_getElem held (k := 9) (by simp [savedRegisters])
  show load32 s.memory (s.sp + 4 + 36) = _
  simpa [savedRegisters] using ninth

/-- What a handler that leaves its frame returns to. -/
theorem LeavesFrame.returned (leaves : LeavesFrame build bound garbage s) {base back : Word}
    {words more : List Word} (stack : s.Stack base (back :: (words ++ more))) (length : words.length = 14) :
    (callReporting build bound garbage .isrHandler s).Stack
      (base - BitVec.ofNat 32 (4 * more.length)) words := by
  have held := wordsAt_take stack.held.2 words.length
  rw [List.take_left] at held
  have kept := Kernel.Interrupts.load_words (callReporting build bound garbage .isrHandler s).memory (s.sp + 4)
  rw [leaves.frame, Kernel.Interrupts.words_of_wordsAt held length, ← leaves.sp] at kept
  refine ⟨?_, kept⟩
  have sp := stack.sp
  rw [leaves.sp, ← sp, List.length_cons, List.length_append, length]
  bv_omega

theorem AtHandler.resumes (here : AtHandler build e console saved s)
    (leaves : LeavesFrame build bound garbage s) :
    Resumes e (exec (reporting build bound garbage) popState
      (callReporting build bound garbage .isrHandler s)).cpu := by
  have ss : (callReporting build bound garbage .isrHandler s).cpu.seg .ss = e.cpu.seg .ss :=
    leaves.ss.trans here.ss
  by_cases agree : pushesErrorCode e.vector = processorPushesErrorCode e.vector
  · obtain ⟨alignment, control⟩ := (pushes_agree_iff e.vector).mp agree
    obtain ⟨code, words⟩ := frameWords_of_agree saved agree
    have stack := here.stack
    rw [words, ← List.append_nil (_ :: (_ ++ _))] at stack
    have returned := leaves.returned stack rfl
    rw [List.length_nil, Nat.mul_zero, BitVec.sub_zero] at returned
    have neither : ¬(e.vector.val = 17 ∨ e.vector.val = 21) :=
      not_or.mpr ⟨Fin.val_ne_of_ne alignment, Fin.val_ne_of_ne control⟩
    rw [Resumes, if_neg neither]
    exact popState_resumes (reporting build bound garbage) e.dataSegments here.general ss returned
  · have shifted : e.vector.val = 17 ∨ e.vector.val = 21 := by
      by_contra neither
      obtain ⟨alignment, control⟩ := not_or.mp neither
      exact agree ((pushes_agree_iff e.vector).mpr
        ⟨Fin.ne_of_val_ne alignment, Fin.ne_of_val_ne control⟩)
    have stack := here.stack
    rw [frameWords_of_disagree saved agree] at stack
    have returned := leaves.returned stack rfl
    obtain ⟨left, eip, _⟩ := popState_spec (reporting build bound garbage) returned
    rw [Resumes, if_pos shifted]
    exact ⟨eip, left.sp_nil⟩

end Handler

theorem isr_calls (n : Fin 32) (s : State Console) :
    calls (reporting build bound garbage) (isr n) s =
      [(.isrHandler, atHandler build bound garbage n s)] := by
  rw [isr_eq, calls_append_of_callFree _ (entryCode_callFree n)]
  exact congrArg (List.cons _) (calls_of_callFree _ popState_callFree _)

theorem isr_exec (n : Fin 32) (s : State Console) :
    exec (reporting build bound garbage) (isr n) s = exec (reporting build bound garbage) popState
      (callReporting build bound garbage .isrHandler (atHandler build bound garbage n s)) := by
  rw [isr_eq, exec_append, exec_cons]
  rfl

/-! ## Runs -/

/-- The gates of the setup, and a screen that has received these bytes since it was cleared. -/
structure Shown (build : Build) (idt : Idt) (vga : Vga) (text : List UInt8) (console : Console) : Prop where
  setUp : SetUp build ⟨idt, console.devices⟩
  screen : console.screen = some (vgaAt (text.foldl put (0, clearCells 2000 vga.vidmem)).1
    (text.foldl put (0, clearCells 2000 vga.vidmem)).2)

theorem exception_reported (build : Build) (garbage : State Console → Nat → UInt8) (before : System)
    (e : Exception) {vga : Vga} {text : List UInt8} {console : Console}
    (shown : Shown build (setup build before).idt vga text console) :
    ∃ after, afterException build (bound + 4) garbage (setup build before).idt e console = some after ∧
      Shown build (setup build before).idt vga (text ++ report e.vector) after.devices := by
  obtain ⟨entered, enters, atStub⟩ := enterException_stub build before e console
  obtain ⟨saved, here⟩ : ∃ saved, AtHandler build e console saved
    (atHandler build (bound + 4) garbage e.vector entered) := entryCode_spec atStub
  have small : (text.foldl put (0, clearCells 2000 vga.vidmem)).1 < 2000 :=
    foldl_put_small text (show 0 < 2000 by decide)
  unfold afterException
  rw [enters, Option.bind_eq_bind, Option.bind_some]
  refine ⟨_, rfl, ?_⟩
  show Shown _ _ _ _ (exec _ (isr e.vector) entered).devices
  rw [isr_exec, exec_callFree _ _ _ popState_callFree]
  have console' := here.devices
  have number := here.intNo
  generalize atHandler build (bound + 4) garbage e.vector entered = s at console' number
  unfold callReporting
  refine ⟨?_, ?_⟩
  · show SetUp build ⟨_, s.devices.devices⟩
    rw [console']
    exact shown.setUp
  · show s.devices.screen.bind _ = _
    rw [console', shown.screen, Option.bind_some, isrHandler_reports bound _ number small, List.foldl_append]

/-- Every request is serviced or held back, and no service prints. -/
theorem request_shown {idt : Idt} {vga : Vga} {text : List UInt8} {console : Console}
    (shown : Shown build idt vga text console) (r : Request) :
    ∃ next, request build ⟨idt, console.devices⟩ r = some next ∧
      Shown build idt vga text { console with devices := next.devices } := by
  obtain ⟨devices, serviced⟩ : ∃ devices, request build ⟨idt, console.devices⟩ r = some ⟨idt, devices⟩ := by
    by_cases interrupted : (⟨idt, console.devices⟩ : System).interrupted r.line = true
    · exact ⟨_, shown.setUp.request interrupted⟩
    · exact ⟨console.devices, if_neg interrupted⟩
  exact ⟨_, serviced, request_setUp shown.setUp serviced, shown.screen⟩

theorem advance_shown (build : Build) (garbage : State Console → Nat → UInt8) (before : System)
    {vga : Vga} {text : List UInt8} {console : Console}
    (shown : Shown build (setup build before).idt vga text console) (event : Event) :
    ∃ next, console.advance build (bound + 4) garbage (setup build before).idt event = some next ∧
      Shown build (setup build before).idt vga (text ++ event.text) next := by
  cases event with
  | exception e =>
    obtain ⟨after, returned, reported⟩ := exception_reported build garbage before e shown
    refine ⟨after.devices, ?_, reported⟩
    rw [Console.advance, returned, Option.map_some]
  | request r =>
    obtain ⟨next, serviced, same⟩ := request_shown shown r
    refine ⟨{ console with devices := next.devices }, ?_, ?_⟩
    · rw [Console.advance, serviced]
      rfl
    · rwa [Event.text, List.append_nil]
  | print message =>
    have small : (text.foldl put (0, clearCells 2000 vga.vidmem)).1 < 2000 :=
      foldl_put_small text (show 0 < 2000 by decide)
    refine ⟨_, rfl, shown.setUp, ?_⟩
    show console.screen.bind _ = _
    rw [shown.screen, Option.bind_some, kprint_cells message small, Event.text, List.foldl_append]

theorem run_shown (build : Build) (garbage : State Console → Nat → UInt8) (before : System)
    {vga : Vga} (events : List Event) {text : List UInt8} {console : Console}
    (shown : Shown build (setup build before).idt vga text console) :
    ∃ final, run (Console.advance build (bound + 4) garbage (setup build before).idt) console events =
        some final ∧
      Shown build (setup build before).idt vga (text ++ events.flatMap Event.text) final := by
  induction events generalizing text console with
  | nil => exact ⟨console, rfl, by rwa [List.flatMap_nil, List.append_nil]⟩
  | cons event events ih =>
    obtain ⟨next, advanced, kept⟩ := advance_shown build garbage before shown event
    obtain ⟨final, ran, end'⟩ := ih kept
    refine ⟨final, ?_, ?_⟩
    · rw [run_cons, advanced, Option.bind_some, ran]
    · rwa [List.flatMap_cons, ← List.append_assoc]

end Stub

end SzOS.KernelC
