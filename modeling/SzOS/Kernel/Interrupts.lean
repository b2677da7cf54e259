import SzOS.Hardware.I386
import SzOS.Semantics.Run

/-! Hardware interrupts of the kernel (arch/i386/cpu): gates, stubs, the table of
registered handlers and the dispatcher.

`irq_register_handler` fills the table that `isr_handler` reads, but the stubs of
the hardware lines call `irq_handler`, which does not look into it.
-/

set_option autoImplicit false

namespace SzOS.Kernel.Interrupts
open Semantics Hardware Hardware.I386

/-! ## isr.h, isr.c, irq.c -/

structure Registers where
  ds : Word
  edi : Word
  esi : Word
  ebp : Word
  esp : Word
  ebx : Word
  edx : Word
  ecx : Word
  eax : Word
  intNo : Word
  errCode : Word
  eip : Word
  cs : Word
  eflags : Word
  useresp : Word
  ss : Word

/-- The packed structure at an address. -/
def Registers.load (memory : Memory) (regs : Word) : Registers where
  ds := load32 memory regs
  edi := load32 memory (regs + 4)
  esi := load32 memory (regs + 8)
  ebp := load32 memory (regs + 12)
  esp := load32 memory (regs + 16)
  ebx := load32 memory (regs + 20)
  edx := load32 memory (regs + 24)
  ecx := load32 memory (regs + 28)
  eax := load32 memory (regs + 32)
  intNo := load32 memory (regs + 36)
  errCode := load32 memory (regs + 40)
  eip := load32 memory (regs + 44)
  cs := load32 memory (regs + 48)
  eflags := load32 memory (regs + 52)
  useresp := load32 memory (regs + 56)
  ss := load32 memory (regs + 60)

/-- A call of a registered handler, with the frame that its argument points to. -/
structure Invocation where
  handler : Word
  regs : Registers

/-- What the C functions act on: the controllers, `interrupt_handlers`, the handler
calls made so far, and whether `isr_handler` has panicked. -/
structure Devices where
  pics : PicPair
  interruptHandlers : Nat → Word
  invocations : List Invocation
  panicked : Bool

def inb (port : Port) (d : Devices) : Byte × Devices :=
  if port = PicPair.masterData then (d.pics.master.imr, d)
  else if port = PicPair.slaveData then (d.pics.slave.imr, d)
  else (0xFF, d)

def outb (port : Port) (value : Byte) (d : Devices) : Devices :=
  { d with pics := d.pics.outb port value }

def isrRegisterHandler (n : Byte) (handler : Word) (d : Devices) : Devices :=
  { d with interruptHandlers := Function.update d.interruptHandlers n.toNat handler }

/-- The panic writes its message and halts with interrupts off. -/
def isrHandler (regs : Registers) (d : Devices) : Devices :=
  let handler := d.interruptHandlers regs.intNo.toNat
  if handler ≠ 0 then { d with invocations := d.invocations ++ [⟨handler, regs⟩] }
  else if regs.intNo < 32 then { d with panicked := true }
  else d

def irqHandler (_regs : Registers) (d : Devices) : Devices := outb 0x20 0x20 d

/-! ## pic.c -/

def picRemap (offset1 offset2 : Byte) (d : Devices) : Devices :=
  let (a1, d) := inb 0x21 d
  let (a2, d) := inb 0xA1 d
  let d := outb 0x20 0x11 d
  let d := outb 0xA0 0x11 d
  let d := outb 0x21 offset1 d
  let d := outb 0xA1 offset2 d
  let d := outb 0x21 4 d
  let d := outb 0xA1 2 d
  let d := outb 0x21 0x01 d
  let d := outb 0xA1 0x01 d
  let d := outb 0x21 a1 d
  outb 0xA1 a2 d

def picClearMask (irqLine : Byte) (d : Devices) : Devices :=
  let port : Port := if irqLine < 8 then 0x21 else 0xA1
  let line := if irqLine < 8 then irqLine else irqLine - 8
  let (value, d) := inb port d
  outb port (value &&& ~~~(1#8 <<< line.toNat)) d

def picSetMask (irqLine : Byte) (d : Devices) : Devices :=
  let port : Port := if irqLine < 8 then 0x21 else 0xA1
  let line := if irqLine < 8 then irqLine else irqLine - 8
  let (value, d) := inb port d
  outb port (value ||| (1#8 <<< line.toNat)) d

def irqBase : Byte := 0x20

def irqRegisterHandler (irq : Byte) (handler : Word) (d : Devices) : Devices :=
  picClearMask irq (isrRegisterHandler (irqBase + irq) handler d)

/-! ## isr_stubs.S -/

inductive CFunction where
  | isrHandler | irqHandler

def saveState : List (Instr CFunction) := [.pusha, .movFromSeg .eax .ds, .push .eax]

def kernelSegments : List (Instr CFunction) :=
  [.movImm16 .eax 0x10, .movToSeg .ds .eax, .movToSeg .es .eax, .movToSeg .fs .eax,
    .movToSeg .gs .eax]

def callWithFrame (function : CFunction) : List (Instr CFunction) :=
  [.push .esp, .call function, .addEsp 4]

def restoreAndReturn : List (Instr CFunction) :=
  [.pop .eax, .movToSeg .ds .eax, .movToSeg .es .eax, .movToSeg .fs .eax, .movToSeg .gs .eax,
    .popa, .addEsp 8, .sti, .iret]

def isrCommonStub : List (Instr CFunction) :=
  saveState ++ kernelSegments ++ callWithFrame .isrHandler ++ restoreAndReturn

def irqCommonStub : List (Instr CFunction) :=
  saveState ++ kernelSegments ++ callWithFrame .irqHandler ++ restoreAndReturn

/-- The vectors that use `ISR_ERRCODE`. -/
def pushesErrorCode (n : Fin 32) : Bool := n.val ∈ [8, 10, 11, 12, 13, 14]

def isr (n : Fin 32) : List (Instr CFunction) :=
  if pushesErrorCode n then .cli :: .pushImm (BitVec.ofNat 32 n) :: jmp isrCommonStub
  else .cli :: .pushImm 0 :: .pushImm (BitVec.ofNat 32 n) :: jmp isrCommonStub

def irq (n : Fin 16) : List (Instr CFunction) :=
  .cli :: .pushImm 0 :: .pushImm (BitVec.ofNat 32 (32 + n)) :: jmp irqCommonStub

inductive Stub where
  | isr (n : Fin 32)
  | irq (n : Fin 16)
  deriving DecidableEq

def Stub.code : Stub → List (Instr CFunction)
  | .isr n => Interrupts.isr n
  | .irq n => Interrupts.irq n

def stubs : List Stub := (List.finRange 32).map Stub.isr ++ (List.finRange 16).map Stub.irq

/-- What the compiler and the linker decided: where the stubs are, and what a C
function leaves in the processor and the memory. -/
structure Build where
  address : Stub → Word
  injective : Function.Injective address
  residue : CFunction → State Devices → Cpu × Memory
  returnAddress : CFunction → Word
  addFlags : Word → Word → Word → Word

variable (build : Build)

/-- A C function finds the address of the frame above the return address. -/
def callFunction (f : CFunction) (s : State Devices) : State Devices :=
  let regs := Registers.load s.memory (load32 s.memory (s.sp + 4))
  let devices := match f with
    | .isrHandler => isrHandler regs s.devices
    | .irqHandler => irqHandler regs s.devices
  let (cpu, memory) := build.residue f s
  { cpu, memory, devices }

def environment : Environment CFunction Devices where
  call := callFunction build
  inb := inb
  returnAddress := build.returnAddress
  addFlags := build.addFlags

/-! ## Setup -/

structure System where
  idt : Idt
  devices : Devices

def kernelCs : BitVec 16 := 0x08
def interruptGate : Byte := 0x8E

def idtSetGate (num : Nat) (base : Word) (sel : BitVec 16) (flags : Byte) (entries : Nat → Gate) :
    Nat → Gate :=
  Function.update entries num (makeGate base sel flags)

def idtInstall (s : System) : System :=
  { s with idt := { entries := fun _ => ⟨0, 0, 0, 0, 0⟩, limit := 8 * 256 - 1 } }

def isrInstall (s : System) : System :=
  let entries := (List.finRange 32).foldl
    (fun entries (n : Fin 32) => idtSetGate n (build.address (.isr n)) kernelCs interruptGate entries)
    s.idt.entries
  { s with idt := { s.idt with entries } }

def irqInstall (s : System) : System :=
  let devices := picRemap irqBase (irqBase + 8) s.devices
  let entries := (List.finRange 16).foldl
    (fun entries (n : Fin 16) =>
      idtSetGate (32 + n) (build.address (.irq n)) kernelCs interruptGate entries)
    s.idt.entries
  { idt := { s.idt with entries }, devices }

def interruptsInitialize (s : System) : System :=
  let s := irqInstall build (isrInstall build (idtInstall s))
  let d := outb 0x21 0xFF s.devices
  let d := outb 0xA1 0xFF d
  let d := outb 0x21 0xFD d
  { s with devices := d }

/-! ## Registrations and interrupts -/

/-- An interrupt on a line, with the processor and memory it interrupts. -/
structure Request where
  line : Fin 16
  cpu : Cpu
  memory : Memory

def stubAt (place : Word) : Option Stub := routineAt build.address stubs place

/-- The interrupt is taken through the gate of its vector and its stub runs to the end. -/
def takeInterrupt (s : System) (r : Request) : Option System := do
  let gate ← s.idt.gate (s.devices.pics.vector r.line)
  let stub ← stubAt build gate.offset
  let entered := interrupt gate
    { cpu := r.cpu, memory := r.memory
      devices := { s.devices with pics := s.devices.pics.deliver r.line } }
  some { s with devices := (exec (environment build) stub.code entered).devices }

/-- The frame that the processor and the stub have saved. -/
def savedFrame (r : Request) : Registers where
  ds := withLow16 (r.cpu.reg .eax) (r.cpu.seg .ds)
  edi := r.cpu.reg .edi
  esi := r.cpu.reg .esi
  ebp := r.cpu.reg .ebp
  esp := r.cpu.reg .esp - 20
  ebx := r.cpu.reg .ebx
  edx := r.cpu.reg .edx
  ecx := r.cpu.reg .ecx
  eax := r.cpu.reg .eax
  intNo := BitVec.ofNat 32 (32 + r.line)
  errCode := 0
  eip := r.cpu.eip
  cs := (r.cpu.seg .cs).setWidth 32
  eflags := r.cpu.eflags
  useresp := load32 r.memory (r.cpu.reg .esp)
  ss := load32 r.memory (r.cpu.reg .esp + 4)

inductive Event where
  | register (line : Fin 16) (handler : Word)
  | interrupt (r : Request)

/-- The system, and for each line the handler registered last unless it is NULL. -/
structure Session where
  system : System
  latest : Fin 16 → Option Word

def event (s : Session) : Event → Option Session
  | .register line handler =>
    let devices := irqRegisterHandler (BitVec.ofNat 8 line) handler s.system.devices
    some
      { system := { s.system with devices }
        latest := Function.update s.latest line (if handler = 0 then none else some handler) }
  | .interrupt r => (takeInterrupt build s.system r).map fun system => { s with system }

/-- The kernel as loaded: its static tables are zero. -/
def loaded (idt : Idt) (pics : PicPair) : System :=
  ⟨idt, { pics, interruptHandlers := fun _ => 0, invocations := [], panicked := false }⟩

def start (idt : Idt) (pics : PicPair) : Session :=
  ⟨interruptsInitialize build (loaded idt pics), fun _ => none⟩

/-- The handler registered last for the line is called once with the saved frame. -/
def Dispatched (s : Session) : Event → Prop
  | .register _ _ => True
  | .interrupt r => ∃ next, takeInterrupt build s.system r = some next ∧
      next.devices.invocations = s.system.devices.invocations ++
        (s.latest r.line).toList.map fun handler => ⟨handler, savedFrame r⟩

def NoHandler (s : Session) : Event → Prop
  | .register _ _ => True
  | .interrupt r => s.latest r.line = none

/-! ## What holds in every session -/

/-- The controllers' initialization words after `pic_remap`. -/
def remappedInit : (Stage × Byte × Byte) × (Stage × Byte × Byte) :=
  ((.ready, 0x20, 4), (.ready, 0x28, 2))

/-- The initialized controllers under two masks, with no line in service. -/
def idlePics (master slave : Byte) : PicPair :=
  ⟨⟨.ready, false, true, 0x20, 4, 1, master, 0⟩, ⟨.ready, false, true, 0x28, 2, 1, slave, 0⟩⟩

theorem idlePics_init (master slave : Byte) : (idlePics master slave).init = remappedInit := rfl

structure SetUp (build : Build) (s : Session) : Prop where
  init : s.system.devices.pics.init = remappedInit
  gates : ∀ line : Fin 16, s.system.idt.gate (BitVec.ofNat 8 (32 + line)) =
    some (makeGate (build.address (.irq line)) kernelCs interruptGate)
  table : ∀ line : Fin 16, s.system.devices.interruptHandlers (32 + line) =
    (s.latest line).getD 0
  notNull : ∀ line handler, s.latest line = some handler → handler ≠ 0

variable {build : Build}

theorem initialize_entry (before : System) (line : Fin 16) :
    (interruptsInitialize build before).idt.entries (32 + line) =
      makeGate (build.address (.irq line)) kernelCs interruptGate := by
  exact writeEntries_mem (fun n : Fin 16 => 32 + n.val)
    (fun n => makeGate (build.address (.irq n)) kernelCs interruptGate)
    lineVector_injective (List.mem_finRange line) _

theorem makeGate_present (handler : Word) (sel : BitVec 16) :
    (makeGate handler sel interruptGate).present = true := by
  show interruptGate.getLsbD 7 = true
  decide

theorem initialize_pics (build : Build) (before : System) :
    (interruptsInitialize build before).devices.pics = idlePics 0xFD 0xFF := rfl

theorem initialize_gate (build : Build) (before : System) (line : Fin 16) :
    (interruptsInitialize build before).idt.gate (BitVec.ofNat 8 (32 + line)) =
      some (makeGate (build.address (.irq line)) kernelCs interruptGate) := by
  apply Idt.gate_of_line rfl
  · exact initialize_entry before line
  · exact makeGate_present _ _

theorem start_setUp (build : Build) (idt : Idt) (pics : PicPair) :
    SetUp build (start build idt pics) where
  init := rfl
  gates := initialize_gate build (loaded idt pics)
  table := fun _ => rfl
  notNull := fun _ _ none => nomatch none

/-! ## A registration -/

theorem picClearMask_init {d : Devices} (ready : d.pics.init = remappedInit) (line : Byte) :
    (picClearMask line d).pics.init = remappedInit := by
  have stages := ready
  simp only [PicPair.init, remappedInit, Prod.mk.injEq] at stages
  obtain ⟨⟨master, _, _⟩, slave, _, _⟩ := stages
  unfold picClearMask
  dsimp only
  split
  · exact (PicPair.init_mask master slave (Or.inl rfl) _).trans ready
  · exact (PicPair.init_mask master slave (Or.inr rfl) _).trans ready

theorem inb_devices (port : Port) (d : Devices) : (inb port d).2 = d := by
  unfold inb
  split
  · rfl
  split <;> rfl

theorem picClearMask_handlers (line : Byte) (d : Devices) :
    (picClearMask line d).interruptHandlers = d.interruptHandlers := by
  unfold picClearMask outb
  simp only [inb_devices]

theorem slot_toNat (line : Fin 16) :
    (irqBase + BitVec.ofNat 8 line).toNat = 32 + line.val := by
  rw [BitVec.toNat_add, BitVec.toNat_ofNat]
  show (32 + line.val % 256) % 256 = _
  omega

theorem register_setUp {s next : Session} (setUp : SetUp build s) {line : Fin 16} {handler : Word}
    (registered : event build s (.register line handler) = some next) : SetUp build next := by
  cases registered
  have ready : (isrRegisterHandler (irqBase + BitVec.ofNat 8 line) handler
      s.system.devices).pics.init = remappedInit := setUp.init
  refine ⟨picClearMask_init ready _, setUp.gates, ?_, ?_⟩
  · intro other
    dsimp only [irqRegisterHandler]
    rw [picClearMask_handlers, isrRegisterHandler]
    dsimp only
    rw [slot_toNat]
    -- a NULL handler empties the slot of its line
    by_cases same : other = line
    · subst same
      rw [Function.update_self, Function.update_self]
      split
      next null => exact null
      next => rfl
    · have distinct : 32 + other.val ≠ 32 + line.val := by
        intro equal
        exact same (Fin.ext (Nat.add_left_cancel equal))
      rw [Function.update_of_ne distinct, Function.update_of_ne same]
      exact setUp.table other
  · intro other last found
    dsimp only at found
    by_cases same : other = line
    · subst same
      rw [Function.update_self] at found
      split at found
      next => cases found
      next notNull =>
        cases found
        exact notNull
    · rw [Function.update_of_ne same] at found
      exact setUp.notNull other last found

/-! ## An interrupt -/

/-- Everything but the lines in service. -/
def unserved (d : Devices) :
    (Nat → Word) × List Invocation × ((Stage × Byte × Byte) × (Stage × Byte × Byte)) :=
  (d.interruptHandlers, d.invocations, d.pics.init)

def irqEntry (n : Fin 16) : List (Instr CFunction) :=
  .cli :: .pushImm 0 :: .pushImm (BitVec.ofNat 32 (32 + n)) ::
    (saveState ++ kernelSegments ++ [.push .esp])

/-- No code here but the C functions changes the devices. -/
theorem exec_local {code : List (Instr CFunction)} (callFree : ∀ f, Instr.call f ∉ code)
    (s : State Devices) : (exec (environment build) code s).devices = s.devices := by
  apply exec_keeps fun d => d
  · exact inb_devices
  · intro f member
    exact absurd member (callFree f)

theorem irq_devices (s : State Devices) (n : Fin 16) :
    (exec (environment build) (irq n) s).devices = outb 0x20 0x20 s.devices := by
  have split : irq n = irqEntry n ++ .call .irqHandler :: .addEsp 4 :: restoreAndReturn := rfl
  have before : ∀ f, Instr.call f ∉ irqEntry n := by
    simp [irqEntry, saveState, kernelSegments]
  have after : ∀ f, Instr.call f ∉ (.addEsp 4 :: restoreAndReturn : List (Instr CFunction)) := by
    simp [restoreAndReturn]
  rw [split, exec_append, exec_cons, exec_local after]
  show outb 0x20 0x20 (exec (environment build) (irqEntry n) s).devices = _
  rw [exec_local before]

theorem irq_keeps (s : State Devices) (line : Fin 16) :
    unserved (exec (environment build) (irq line) s).devices = unserved s.devices := by
  rw [irq_devices]
  rfl

theorem stubAt_irq (build : Build) (line : Fin 16) :
    stubAt build (build.address (.irq line)) = some (.irq line) := by
  apply routineAt_address build.injective
  simp [stubs]

theorem vector_of_remapped {pics : PicPair} (init : pics.init = remappedInit) (line : Fin 16) :
    pics.vector line = BitVec.ofNat 8 (32 + line) := by
  have agree : ∀ line, (idlePics 0 0).vector line = BitVec.ofNat 8 (32 + line.val) := by decide
  rw [← agree]
  exact PicPair.vector_of_init init line

/-- An interrupt runs the stub of its line, whatever is masked or in service. -/
theorem takeInterrupt_eq {s : System} (init : s.devices.pics.init = remappedInit) (r : Request)
    (gate : s.idt.gate (BitVec.ofNat 8 (32 + r.line)) =
      some (makeGate (build.address (.irq r.line)) kernelCs interruptGate)) :
    takeInterrupt build s r = some { s with
      devices := (exec (environment build) (irq r.line)
        (interrupt (makeGate (build.address (.irq r.line)) kernelCs interruptGate)
          { cpu := r.cpu, memory := r.memory
            devices := { s.devices with pics := s.devices.pics.deliver r.line } })).devices } := by
  unfold takeInterrupt
  rw [vector_of_remapped init, gate, Option.bind_eq_bind, Option.bind_some, makeGate_offset, stubAt_irq]
  rfl

theorem takeInterrupt_spec {s : Session} (setUp : SetUp build s) (r : Request) :
    ∃ devices, takeInterrupt build s.system r = some { s.system with devices } ∧
      unserved devices = unserved s.system.devices := by
  refine ⟨_, takeInterrupt_eq setUp.init r (setUp.gates r.line), ?_⟩
  refine (irq_keeps _ r.line).trans ?_
  unfold unserved
  rw [interrupt_devices, PicPair.init_deliver]

theorem event_setUp {s next : Session} (setUp : SetUp build s) {e : Event}
    (occurred : event build s e = some next) : SetUp build next := by
  cases e with
  | register line handler => exact register_setUp setUp occurred
  | interrupt r =>
    obtain ⟨devices, taken, kept⟩ := takeInterrupt_spec setUp r
    rw [event, taken] at occurred
    cases occurred
    simp only [unserved, Prod.mk.injEq] at kept
    obtain ⟨handlers, _, init⟩ := kept
    refine ⟨init.trans setUp.init, setUp.gates, ?_, setUp.notNull⟩
    intro line
    exact (congrFun handlers _).trans (setUp.table line)

theorem dispatched_iff {s : Session} (setUp : SetUp build s) (e : Event) :
    Dispatched build s e ↔ NoHandler s e := by
  cases e with
  | register line handler => exact Iff.rfl
  | interrupt r =>
    obtain ⟨devices, taken, kept⟩ := takeInterrupt_spec setUp r
    simp only [unserved, Prod.mk.injEq] at kept
    obtain ⟨_, invocations, _⟩ := kept
    unfold Dispatched NoHandler
    simp only [taken, Option.some.injEq, exists_eq_left', invocations]
    -- nothing is called, which is right only if nothing was registered
    cases s.latest r.line <;> simp

/-- The table is right: `isr_handler`, given the frame of a line, calls its handler once. -/
theorem isrHandler_dispatches {s : Session} (setUp : SetUp build s) {line : Fin 16}
    {regs : Registers} (vector : regs.intNo = BitVec.ofNat 32 (32 + line)) :
    (isrHandler regs s.system.devices).invocations = s.system.devices.invocations ++
      (s.latest line).toList.map fun handler => ⟨handler, regs⟩ := by
  have slot : regs.intNo.toNat = 32 + line.val := by
    rw [vector, BitVec.toNat_ofNat]
    omega
  have notException : ¬ regs.intNo < 32 := by
    rw [BitVec.lt_def, slot]
    show ¬ 32 + line.val < 32
    omega
  have entry := setUp.table line
  unfold isrHandler
  dsimp only
  -- a hardware vector is no exception, so an empty entry does not panic
  rw [slot, entry, if_neg notException]
  cases found : s.latest line with
  | none => simp
  | some handler => rw [Option.getD_some, if_pos (setUp.notNull line handler found)]; rfl

/-- In every sequence of registrations and interrupts, each interrupt is dispatched
as promised exactly when no handler is registered for its line. -/
theorem interrupts_dispatched_iff (build : Build) (idt : Idt) (pics : PicPair) (events : List Event) :
    Along (event build) (Dispatched build) (start build idt pics) events ↔
      Along (event build) NoHandler (start build idt pics) events := by
  apply Along.congr (SetUp build)
  · intro s e setUp
    exact dispatched_iff setUp e
  · intro s e next setUp _ occurred
    exact event_setUp setUp occurred
  · exact start_setUp build idt pics

def somePlace : Stub → Nat
  | .isr n => 0x1000 + n.val
  | .irq n => 0x2000 + n.val

theorem somePlace_injective : Function.Injective fun stub => BitVec.ofNat 32 (somePlace stub) := by
  apply ofNat_injective
  · intro first second places
    cases first <;> cases second <;> simp only [somePlace] at places <;>
      first
      | exact congrArg _ (Fin.ext (by omega))
      | omega
  · intro stub
    cases stub <;> simp only [somePlace] <;> omega

/-- Stubs at fixed places, and C functions that only return. -/
def someBuild : Build where
  address stub := BitVec.ofNat 32 (somePlace stub)
  injective := somePlace_injective
  residue _ s := (s.drop.cpu, s.memory)
  returnAddress _ := 0
  addFlags _ _ flags := flags

def somePics : PicPair :=
  ⟨⟨.ready, false, true, 0x08, 4, 1, 0, 0⟩, ⟨.ready, false, true, 0x70, 2, 1, 0, 0⟩⟩

/-- A request in a kernel that runs on its own segments. -/
def plainRequest (line : Fin 16) : Request := ⟨line, ⟨fun _ => 0, fun _ => 0x10, 0, 0x200⟩, fun _ => 0⟩

/-- A handler registered for the keyboard line is not called by its interrupt. -/
theorem registered_handler_not_called :
    ¬ Along (event someBuild) (Dispatched someBuild)
      (start someBuild ⟨fun _ => ⟨0, 0, 0, 0, 0⟩, 0⟩ somePics)
      [.register 1 0x5000, .interrupt (plainRequest 1)] := by
  intro dispatched
  have setUp := start_setUp someBuild ⟨fun _ => ⟨0, 0, 0, 0, 0⟩, 0⟩ somePics
  have second := (dispatched.2 _ rfl).1
  have registered := (dispatched_iff (register_setUp setUp rfl) _).mp second
  have found : (some 0x5000 : Option Word) = none := registered
  cases found

end SzOS.Kernel.Interrupts
