import SzOS.Hardware.Stack
import SzOS.Semantics.Run

/-! Hardware interrupts of kernel-c: gates, stubs and the end of interrupt.

`main` leaves gate 33 with `keyboard_isr`, which sends no end of interrupt. The
other lines go through `irq_common_stub`, which gives `irq_handler` the word on
top of the stack, the saved data segment, where it expects the vector.
-/

set_option autoImplicit false

namespace SzOS.KernelC
open Semantics Hardware Hardware.I386

/-! ## Devices and C functions -/

structure Keyboard where
  keyBuffer : Nat → Byte
  lastScancode : Byte

/-- `scancode` is the byte that waits at port 0x60. -/
structure Devices where
  pics : PicPair
  scancode : Byte
  keyboard : Keyboard

def portByteIn (port : Port) (d : Devices) : Byte × Devices :=
  if port = 0x60 then (d.scancode, d)
  else if port = PicPair.masterData then (d.pics.master.imr, d)
  else if port = PicPair.slaveData then (d.pics.slave.imr, d)
  else (0xFF, d)

def portByteOut (port : Port) (data : Byte) (d : Devices) : Devices :=
  { d with pics := d.pics.outb port data }

def keyboardHandler (scancode : Byte) (k : Keyboard) : Keyboard :=
  let k := { k with lastScancode := scancode }
  if scancode &&& 0x80 ≠ 0 then
    { k with keyBuffer := Function.update k.keyBuffer (scancode &&& 0x7F).toNat 0 }
  else { k with keyBuffer := Function.update k.keyBuffer scancode.toNat 1 }

/-- cpu/irq.c. -/
def irqHandler (irqNumber : Word) (d : Devices) : Devices :=
  let d :=
    if irqNumber = 33 then
      let (scancode, d) := portByteIn 0x60 d
      { d with keyboard := keyboardHandler scancode d.keyboard }
    else d
  let d := if irqNumber ≥ 40 then portByteOut 0xA0 0x20 d else d
  portByteOut 0x20 0x20 d

/-! ## cpu/interrupt.asm -/

inductive CFunction where
  | isrHandler | irqHandler | keyboardHandler

def saveState : List (Instr CFunction) := [.pusha, .movFromSeg .eax .ds, .push .eax]

def kernelSegments : List (Instr CFunction) :=
  [.movImm16 .eax 0x10, .movToSeg .ds .eax, .movToSeg .es .eax, .movToSeg .fs .eax,
    .movToSeg .gs .eax]

def restoreAndReturn : List (Instr CFunction) :=
  [.pop .eax, .movToSeg .ds .eax, .movToSeg .es .eax, .movToSeg .fs .eax, .movToSeg .gs .eax,
    .popa, .addEsp 8, .sti, .iret]

def isrCommonStub : List (Instr CFunction) :=
  saveState ++ kernelSegments ++ .call .isrHandler :: restoreAndReturn

def irqCommonStub : List (Instr CFunction) :=
  saveState ++ kernelSegments ++ .call .irqHandler :: restoreAndReturn

def keyboardCommonStub : List (Instr CFunction) :=
  saveState ++ kernelSegments ++ [.movImm16 .edx 0x60, .inAlDx, .movzxEaxAl, .push .eax] ++
    .call .keyboardHandler :: .addEsp 4 :: restoreAndReturn

/-- The vectors whose stubs push no dummy error code. -/
def pushesErrorCode (n : Fin 32) : Bool := n.val ∈ [8, 10, 11, 12, 13, 14]

def isr (n : Fin 32) : List (Instr CFunction) :=
  if pushesErrorCode n then .cli :: .pushImm (BitVec.ofNat 32 n) :: jmp isrCommonStub
  else .cli :: .pushImm 0 :: .pushImm (BitVec.ofNat 32 n) :: jmp isrCommonStub

def irq (n : Fin 16) : List (Instr CFunction) :=
  .cli :: .pushImm 0 :: .pushImm (BitVec.ofNat 32 (32 + n)) :: jmp irqCommonStub

def keyboardIsr : List (Instr CFunction) :=
  .cli :: .pushImm 0 :: .pushImm 33 :: jmp keyboardCommonStub

inductive Stub where
  | isr (n : Fin 32)
  | irq (n : Fin 16)
  | keyboardIsr
  deriving DecidableEq

def Stub.code : Stub → List (Instr CFunction)
  | .isr n => KernelC.isr n
  | .irq n => KernelC.irq n
  | .keyboardIsr => KernelC.keyboardIsr

def stubs : List Stub :=
  (List.finRange 32).map Stub.isr ++ ((List.finRange 16).map Stub.irq ++ [.keyboardIsr])

/-- What the compiler and the linker decided: where the stubs are, and what a C
function leaves in the processor and the memory. -/
structure Build where
  address : Stub → Word
  injective : Function.Injective address
  residue : CFunction → State Devices → Cpu × Memory
  returnAddress : CFunction → Word
  addFlags : Word → Word → Word → Word

variable (build : Build)

/-- A C function reads its argument above the return address. -/
def callFunction (f : CFunction) (s : State Devices) : State Devices :=
  let argument := load32 s.memory (s.sp + 4)
  let devices := match f with
    | .isrHandler => s.devices
    | .irqHandler => irqHandler argument s.devices
    | .keyboardHandler =>
      { s.devices with keyboard := keyboardHandler (argument.setWidth 8) s.devices.keyboard }
  let (cpu, memory) := build.residue f s
  { cpu, memory, devices }

def environment : Environment CFunction Devices where
  call := callFunction build
  inb := portByteIn
  returnAddress := build.returnAddress
  addFlags := build.addFlags

def stubAt (address : Word) : Option Stub := routineAt build.address stubs address

/-! ## Setup -/

/-- A present 32-bit interrupt gate of ring 0. -/
def idtGate (handler : Word) : Gate := makeGate handler 0x08 0x8E

def setIdtGate (n : Nat) (handler : Word) (entries : Nat → Gate) : Nat → Gate :=
  Function.update entries n (idtGate handler)

structure System where
  idt : Idt
  devices : Devices

def remap (d : Devices) : Devices :=
  let d := portByteOut 0x20 0x11 d
  let d := portByteOut 0xA0 0x11 d
  let d := portByteOut 0x21 0x20 d
  let d := portByteOut 0xA1 0x28 d
  let d := portByteOut 0x21 0x04 d
  let d := portByteOut 0xA1 0x02 d
  let d := portByteOut 0x21 0x01 d
  let d := portByteOut 0xA1 0x01 d
  let d := portByteOut 0x21 0x0 d
  portByteOut 0xA1 0x0 d

def isrInstall (s : System) : System :=
  let entries := (List.finRange 32).foldl
    (fun entries (n : Fin 32) => setIdtGate n (build.address (.isr n)) entries) s.idt.entries
  let devices := remap s.devices
  let entries := (List.finRange 16).foldl
    (fun entries (n : Fin 16) => setIdtGate (32 + n) (build.address (.irq n)) entries) entries
  { idt := { entries, limit := 8 * 256 - 1 }, devices }

/-- The masks that `pic_init` saves are not used again. -/
def picInit (s : System) : System :=
  let (_mask1, devices) := portByteIn 0x21 s.devices
  let (_mask2, devices) := portByteIn 0xA1 devices
  { s with devices := remap devices }

def keyboardInit (s : System) : System :=
  { idt := { s.idt with entries := setIdtGate 33 (build.address .keyboardIsr) s.idt.entries }
    devices := { s.devices with keyboard := { s.devices.keyboard with keyBuffer := fun _ => 0 } } }

/-- `main` up to `sti`; what it draws and allocates concerns no interrupt. -/
def setup (before : System) : System := keyboardInit build (picInit (isrInstall build before))

/-! ## Requests -/

/-- A hardware request, the processor and memory it interrupts, and the byte that
the keyboard has ready. -/
structure Request where
  line : Fin 16
  cpu : Cpu
  memory : Memory
  scancode : Byte

def System.interrupted (s : System) (line : Fin 16) : Bool :=
  s.devices.pics.passes line && s.devices.pics.accepts line

def System.stub (s : System) (line : Fin 16) : Option (Gate × Stub) := do
  let gate ← s.idt.gate (s.devices.pics.vector line)
  let stub ← stubAt build gate.offset
  some (gate, stub)

/-- The state in which the stub starts. -/
def entered (s : System) (r : Request) (gate : Gate) : State Devices :=
  interrupt gate
    { cpu := r.cpu, memory := r.memory
      devices := { s.devices with pics := s.devices.pics.deliver r.line, scancode := r.scancode } }

/-- A request serviced to completion, or held back. `none` is a vector without a routine. -/
def request (s : System) (r : Request) : Option System :=
  if s.interrupted r.line then do
    let (gate, stub) ← s.stub build r.line
    some { s with devices := (exec (environment build) stub.code (entered s r gate)).devices }
  else some s

/-- When the service returns, the bits that the request set are out of service. -/
def Released (s : System) (r : Request) : Prop :=
  ∀ next, request build s r = some next → s.interrupted r.line = true →
    next.devices.pics.holds r.line = false

/-- The word that the common stub leaves on top of the stack for `irq_handler`. -/
def irqNumber (r : Request) : Word := withLow16 (r.cpu.reg .eax) (r.cpu.seg .ds)

/-- Not the keyboard; and for the slave's lines the word passes for one of its vectors. -/
def Acknowledged (s : System) (r : Request) : Prop :=
  s.interrupted r.line = true → r.line.val ≠ 1 ∧ (r.line.val < 8 ∨ 40 ≤ irqNumber r)

/-! ## What the stubs do to the controllers -/

variable {build}

/-- The stub's own pushes and `pusha` leave the other registers as they were. -/
theorem entry_registers (env : Environment CFunction Devices) (s : State Devices) (number : Word) :
    (exec env [.cli, .pushImm 0, .pushImm number, .pusha] s).cpu.reg .eax = s.cpu.reg .eax ∧
      (exec env [.cli, .pushImm 0, .pushImm number, .pusha] s).cpu.seg = s.cpu.seg := by
  have notEsp : Reg.eax ≠ Reg.esp := by decide
  simp only [exec, List.foldl_cons, List.foldl_nil, step, pushAll_reg _ _ notEsp,
    push_reg _ _ notEsp, pushAll_seg]
  exact ⟨trivial, rfl⟩

def irqEntry (number : Word) : List (Instr CFunction) :=
  [.cli, .pushImm 0, .pushImm number] ++ (saveState ++ kernelSegments)

theorem entry_top (env : Environment CFunction Devices) (s : State Devices) (number : Word) :
    (exec env (irqEntry number) s).top = withLow16 (s.cpu.reg .eax) (s.cpu.seg .ds) := by
  obtain ⟨eax, seg⟩ := entry_registers env s number
  have split : irqEntry number =
      ([.cli, .pushImm 0, .pushImm number, .pusha] : List (Instr CFunction)) ++
        (([.movFromSeg .eax .ds, .push .eax] : List (Instr CFunction)) ++ kernelSegments) := rfl
  rw [split, exec_append, exec_append]
  -- the loads of the kernel's segment move neither the stack pointer nor the memory
  rw [exec_quiet_top env (by decide)]
  rw [exec_cons, exec_cons, exec_nil, step_push, push_top, step_movFromSeg, eax, seg]

/-- No code here but the C functions changes the devices. -/
theorem exec_local {X : Type} (view : Devices → X) {code : List (Instr CFunction)}
    (calls : ∀ f, Instr.call f ∈ code → ∀ s, view (callFunction build f s).devices = view s.devices)
    (s : State Devices) : view (exec (environment build) code s).devices = view s.devices := by
  apply exec_keeps view ?_ calls
  intro port d
  simp only [environment, portByteIn]
  split
  · rfl
  split
  · rfl
  split <;> rfl

/-- `irq_handler` gets the saved data segment, with what was above it in `eax`, not the vector. -/
theorem irq_devices (s : State Devices) (n : Fin 16) :
    (exec (environment build) (irq n) s).devices =
      irqHandler (withLow16 (s.cpu.reg .eax) (s.cpu.seg .ds)) s.devices := by
  have split : irq n = irqEntry (BitVec.ofNat 32 (32 + n)) ++ .call .irqHandler :: restoreAndReturn :=
    rfl
  rw [split, exec_append, exec_cons]
  -- what follows the call touches no device
  rw [exec_local (fun d => d) (by simp [restoreAndReturn])]
  have top := entry_top (environment build) s (BitVec.ofNat 32 (32 + n))
  have before : (exec (environment build) (irqEntry (BitVec.ofNat 32 (32 + n))) s).devices = s.devices :=
    exec_local (fun d => d) (by simp [irqEntry, saveState, kernelSegments]) s
  generalize exec (environment build) (irqEntry (BitVec.ofNat 32 (32 + n))) s = called at top before ⊢
  -- above the return address lies what was on top before the call
  have argument := push_second called (build.returnAddress .irqHandler)
  rw [top] at argument
  show irqHandler (load32 _ _) called.devices = _
  rw [← argument, before]
  rfl

theorem keyboardIsr_pics (s : State Devices) :
    (exec (environment build) keyboardIsr s).devices.pics = s.devices.pics := by
  apply exec_local (fun d => d.pics)
  intro f member s
  have function : f = .keyboardHandler := by
    simpa [keyboardIsr, keyboardCommonStub, jmp, saveState, kernelSegments, restoreAndReturn] using member
  rw [function]
  rfl

/-! ## What the setup leaves behind -/

theorem idtGate_present (handler : Word) : (idtGate handler).present = true := by
  show (0x8E : Byte).getLsbD 7 = true
  decide

theorem stubAt_address (build : Build) (stub : Stub) :
    stubAt build (build.address stub) = some stub := by
  apply routineAt_address build.injective
  cases stub <;> simp [stubs]

def remapped : PicPair where
  master :=
    { stage := .ready, single := false, needsIcw4 := true, vectorBase := 32, cascade := 4, mode := 1
      imr := 0, isr := 0 }
  slave :=
    { stage := .ready, single := false, needsIcw4 := true, vectorBase := 40, cascade := 2, mode := 1
      imr := 0, isr := 0 }

/-- The routine behind the gate of a line. -/
def servingStub (line : Fin 16) : Stub := if line.val = 1 then .keyboardIsr else .irq line

/-- The gates, and the controllers up to the lines in service. -/
structure SetUp (build : Build) (s : System) : Prop where
  pics : ∃ master slave, s.devices.pics = remapped.withIsr master slave
  gates : ∀ line : Fin 16, s.idt.gate (BitVec.ofNat 8 (32 + line)) =
    some (idtGate (build.address (servingStub line)))

theorem isrInstall_entry (build : Build) (before : System) (line : Fin 16) :
    (isrInstall build before).idt.entries (32 + line) = idtGate (build.address (.irq line)) := by
  exact writeEntries_mem (fun n : Fin 16 => 32 + n.val) (fun n => idtGate (build.address (.irq n)))
    lineVector_injective (List.mem_finRange line) _

theorem setup_entry (build : Build) (before : System) (line : Fin 16) :
    (setup build before).idt.entries (32 + line) = idtGate (build.address (servingStub line)) := by
  unfold servingStub
  by_cases keyboard : line.val = 1
  · rw [if_pos keyboard, keyboard]
    exact Function.update_self 33 (idtGate (build.address .keyboardIsr))
      (isrInstall build before).idt.entries
  · have other : 32 + line.val ≠ 33 := by
      intro same
      exact keyboard (Nat.add_left_cancel same)
    rw [if_neg keyboard]
    exact (Function.update_of_ne other _ _).trans (isrInstall_entry build before line)

theorem setup_setUp (build : Build) (before : System) : SetUp build (setup build before) where
  pics := ⟨0, 0, rfl⟩
  gates := by
    intro line
    apply Idt.gate_of_line rfl
    · exact setup_entry build before line
    · exact idtGate_present _

/-! ## The end of interrupt of every line -/

variable {s : System}

theorem SetUp.stub (setUp : SetUp build s) (line : Fin 16) :
    s.stub build line =
      some (idtGate (build.address (servingStub line)), servingStub line) := by
  obtain ⟨master, slave, pics⟩ := setUp.pics
  have vector : ∀ line, remapped.vector line = BitVec.ofNat 8 (32 + line.val) := by decide
  unfold System.stub
  rw [pics, PicPair.vector_withIsr, vector, setUp.gates, Option.bind_eq_bind, Option.bind_some,
    idtGate, makeGate_offset, stubAt_address]
  rfl

/-- The devices after a service. -/
def served (build : Build) (s : System) (r : Request) : Devices :=
  (exec (environment build) (servingStub r.line).code
    (entered s r (idtGate (build.address (servingStub r.line))))).devices

theorem SetUp.request (setUp : SetUp build s) {r : Request} (interrupted : s.interrupted r.line = true) :
    KernelC.request build s r = some { s with devices := served build s r } := by
  unfold KernelC.request
  rw [if_pos interrupted, setUp.stub]
  rfl

theorem irqHandler_pics (number : Word) (d : Devices) :
    (irqHandler number d).pics =
      (if number ≥ 40 then d.pics.outb PicPair.slaveCommand Chip.nonSpecificEoi else d.pics).outb
        PicPair.masterCommand Chip.nonSpecificEoi := by
  unfold irqHandler
  dsimp only
  split <;> split <;> rfl

theorem served_keyboard {r : Request} (keyboard : r.line.val = 1) :
    (served build s r).pics = s.devices.pics.deliver r.line := by
  have stub : (servingStub r.line).code = keyboardIsr := by
    rw [servingStub, if_pos keyboard]
    rfl
  unfold served
  rw [stub, keyboardIsr_pics]
  rfl

theorem served_irq {r : Request} (notKeyboard : r.line.val ≠ 1) :
    (served build s r).pics =
      (if irqNumber r ≥ 40 then
        (s.devices.pics.deliver r.line).outb PicPair.slaveCommand Chip.nonSpecificEoi
      else s.devices.pics.deliver r.line).outb PicPair.masterCommand Chip.nonSpecificEoi := by
  have stub : (servingStub r.line).code = irq r.line := by
    rw [servingStub, if_neg notKeyboard]
    rfl
  unfold served
  rw [stub, irq_devices, irqHandler_pics]
  unfold entered
  rw [interrupt_reg _ _ (by decide), interrupt_seg _ _ (by decide)]
  rfl

/-- The master's end of interrupt leaves its other lines alone. -/
theorem low_released {pics : PicPair} {line : Fin 16} (low : ¬ 8 ≤ line.val)
    (accepted : pics.accepts line = true) (number : Word) :
    ((if number ≥ 40 then (pics.deliver line).outb PicPair.slaveCommand Chip.nonSpecificEoi
      else pics.deliver line).outb PicPair.masterCommand Chip.nonSpecificEoi).holds line = false := by
  have released := PicPair.accepts_not_holds accepted
  rw [← PicPair.acknowledge_deliver accepted, PicPair.acknowledge, if_neg low] at released
  unfold PicPair.holds at released ⊢
  rw [PicPair.slaveLine_low low] at released ⊢
  split <;> exact released

theorem high_released_iff {pics : PicPair} {line : Fin 16} (high : 8 ≤ line.val)
    (accepted : pics.accepts line = true) (number : Word) :
    ((if number ≥ 40 then (pics.deliver line).outb PicPair.slaveCommand Chip.nonSpecificEoi
      else pics.deliver line).outb PicPair.masterCommand Chip.nonSpecificEoi).holds line = false ↔
      40 ≤ number := by
  by_cases forSlave : number ≥ 40
  · rw [if_pos forSlave]
    have released := PicPair.accepts_not_holds accepted
    rw [← PicPair.acknowledge_deliver accepted, PicPair.acknowledge, if_pos high] at released
    exact ⟨fun _ => forSlave, fun _ => released⟩
  · rw [if_neg forSlave]
    rw [PicPair.deliver_holds_slave pics high]
    exact ⟨fun released => Bool.noConfusion released, fun reached => (forSlave reached).elim⟩

theorem released_iff (setUp : SetUp build s) (r : Request) :
    Released build s r ↔ Acknowledged s r := by
  unfold Released Acknowledged
  by_cases interrupted : s.interrupted r.line = true
  · have accepted := (Bool.and_eq_true_iff.mp interrupted).2
    rw [setUp.request interrupted]
    simp only [interrupted, forall_const, Option.some.injEq, forall_eq']
    by_cases keyboard : r.line.val = 1
    -- the stub of the keyboard sends no end of interrupt
    · rw [served_keyboard keyboard, PicPair.deliver_holds]
      simp [keyboard]
    · rw [served_irq keyboard]
      by_cases high : 8 ≤ r.line.val
      -- a line of the slave needs both, and the second depends on the word read
      · rw [high_released_iff high accepted]
        simp [keyboard, Nat.not_lt_of_le high]
      · rw [low_released high accepted]
        simp [keyboard, Nat.lt_of_not_le high]
  · simp only [interrupted, false_implies, implies_true, Bool.false_eq_true]

theorem request_setUp (setUp : SetUp build s) {r : Request} {next : System}
    (serviced : KernelC.request build s r = some next) : SetUp build next := by
  by_cases interrupted : s.interrupted r.line = true
  · rw [setUp.request interrupted] at serviced
    cases serviced
    refine ⟨?_, setUp.gates⟩
    obtain ⟨_, _, pics⟩ := setUp.pics
    obtain ⟨_, _, delivered⟩ := s.devices.pics.deliver_withIsr r.line
    -- a service only changes which lines are in service
    rw [pics, PicPair.withIsr_withIsr] at delivered
    by_cases keyboard : r.line.val = 1
    · exact ⟨_, _, (served_keyboard keyboard).trans (pics ▸ delivered)⟩
    · rw [served_irq keyboard, pics, delivered]
      split
      · exact ⟨_, _, rfl⟩
      · exact ⟨_, _, rfl⟩
  · unfold KernelC.request at serviced
    rw [if_neg interrupted] at serviced
    cases serviced
    exact setUp

/-- In every run of requests after the setup, each service releases what its
request set exactly when its line and the saved data segment get the right
controllers acknowledged. -/
theorem requests_released_iff (build : Build) (before : System) (requests : List Request) :
    Along (request build) (Released build) (setup build before) requests ↔
      Along (request build) Acknowledged (setup build before) requests := by
  apply Along.congr (SetUp build)
  · intro s r setUp
    exact released_iff setUp r
  · intro s r next setUp _ serviced
    exact request_setUp setUp serviced
  · exact setup_setUp build before

def somePlace : Stub → Nat
  | .isr n => 0x1000 + n.val
  | .irq n => 0x2000 + n.val
  | .keyboardIsr => 0x3000

theorem somePlace_injective : Function.Injective fun stub => BitVec.ofNat 32 (somePlace stub) := by
  apply ofNat_injective
  · intro first second places
    cases first <;> cases second <;> simp only [somePlace] at places <;>
      first
      | rfl
      | exact congrArg _ (Fin.ext (by omega))
      | omega
  · intro stub
    cases stub <;> simp only [somePlace] <;> omega

/-- Stubs at fixed places, and C functions that only return. -/
def someBuild : Build where
  address stub := BitVec.ofNat 32 (somePlace stub)
  injective := somePlace_injective
  residue _ s := (s.drop.cpu, s.memory)
  returnAddress _ := 0
  addFlags _ _ flags := flags

def beforeSetup : System where
  idt := ⟨fun _ => ⟨0, 0, 0, 0, 0⟩, 0⟩
  devices := ⟨remapped, 0, ⟨fun _ => 0, 0⟩⟩

/-- A request in a kernel that runs on its own segments. -/
def plainRequest (line : Fin 16) : Request :=
  ⟨line, ⟨fun _ => 0, fun _ => 0x10, 0, 0x200⟩, fun _ => 0, 0x1E⟩

/-- The first key leaves line 1 in service. -/
theorem key_not_released : ¬ Along (request someBuild) (Released someBuild)
    (setup someBuild beforeSetup) [plainRequest 1] := by
  intro released
  have setUp := setup_setUp someBuild beforeSetup
  have acknowledged := (released_iff setUp (plainRequest 1)).mp released.1
  exact (acknowledged (by decide)).1 rfl

/-! ## The number that irq_handler receives -/

/-- What `irq_handler` does at the ports, the byte read passed to `keyboard_handler`. -/
inductive Access where
  | readKeyboard
  | endOfInterrupt (port : Port)
  deriving DecidableEq

def perform (d : Devices) : Access → Devices
  | .readKeyboard =>
    let (scancode, d) := portByteIn 0x60 d
    { d with keyboard := keyboardHandler scancode d.keyboard }
  | .endOfInterrupt port => portByteOut port 0x20 d

/-- The accesses that a number calls for. -/
def irqAccesses (irqNumber : Word) : List Access :=
  (if irqNumber = 33 then [.readKeyboard] else []) ++
    ((if irqNumber ≥ 40 then [.endOfInterrupt 0xA0] else []) ++ [.endOfInterrupt 0x20])

theorem irqHandler_performs (irqNumber : Word) (d : Devices) :
    irqHandler irqNumber d = (irqAccesses irqNumber).foldl perform d := by
  unfold irqHandler irqAccesses
  by_cases keyboard : irqNumber = 33 <;> by_cases slave : irqNumber ≥ 40
  · simp only [if_pos keyboard, if_pos slave]
    rfl
  · simp only [if_pos keyboard, if_neg slave]
    rfl
  · simp only [if_neg keyboard, if_pos slave]
    rfl
  · simp only [if_neg keyboard, if_neg slave]
    rfl

theorem irqAccesses_eq_iff (first second : Word) :
    irqAccesses first = irqAccesses second ↔
      (first = 33 ↔ second = 33) ∧ (first ≥ 40 ↔ second ≥ 40) := by
  have reads : ∀ number, .readKeyboard ∈ irqAccesses number ↔ number = 33 := by
    intro number
    unfold irqAccesses
    split <;> split <;> simp_all
  have slave : ∀ number, .endOfInterrupt 0xA0 ∈ irqAccesses number ↔ number ≥ 40 := by
    intro number
    unfold irqAccesses
    split <;> split <;> simp_all
  constructor
  · intro same
    exact ⟨by rw [← reads, same, reads], by rw [← slave, same, slave]⟩
  · rintro ⟨keyboard, slave⟩
    simp only [irqAccesses, keyboard, slave]

/-- `irq_handler` is called once, with the vector of the line, and makes the line's accesses. -/
structure Dispatched (build : Build) (n : Fin 16) (s : State Devices) : Prop where
  called : ∃ called, calls (environment build) (irq n) s = [(.irqHandler, called)] ∧
    load32 called.memory (called.sp + 4) = BitVec.ofNat 32 (32 + n)
  accesses : (exec (environment build) (irq n) s).devices =
    (irqAccesses (BitVec.ofNat 32 (32 + n))).foldl perform s.devices

theorem irq_calls (build : Build) (n : Fin 16) (s : State Devices) :
    ∃ called, calls (environment build) (irq n) s = [(.irqHandler, called)] ∧
      load32 called.memory (called.sp + 4) = withLow16 (s.cpu.reg .eax) (s.cpu.seg .ds) := by
  have split : irq n = irqEntry (BitVec.ofNat 32 (32 + n)) ++ .call .irqHandler :: restoreAndReturn :=
    rfl
  rw [split, calls_append_of_callFree _ (by simp [irqEntry, saveState, kernelSegments, Instr.isCall]),
    calls, calls_of_callFree _ (by simp [restoreAndReturn, Instr.isCall])]
  refine ⟨_, rfl, ?_⟩
  rw [push_second]
  exact entry_top (environment build) s (BitVec.ofNat 32 (32 + n))

theorem withLow16_eq_iff (word : Word) (low : BitVec 16) (n : Fin 16) :
    withLow16 word low = BitVec.ofNat 32 (32 + n) ↔
      word.extractLsb' 16 16 = 0 ∧ low = BitVec.ofNat 16 (32 + n) := by
  have halves : BitVec.ofNat 32 (32 + n) = (0 : BitVec 16) ++ BitVec.ofNat 16 (32 + n) := by
    revert n
    decide
  rw [halves, withLow16]
  constructor
  · intro same
    have low := congrArg (BitVec.setWidth 16) same
    have high := congrArg (BitVec.extractLsb' 16 16) same
    rw [BitVec.setWidth_append_eq_right, BitVec.setWidth_append_eq_right] at low
    rw [BitVec.extractLsb'_append_eq_left, BitVec.extractLsb'_append_eq_left] at high
    exact ⟨high, low⟩
  · rintro ⟨high, rfl⟩
    rw [high]

/-- The number is the vector exactly when the interrupted program's data segment is that
number and the upper half of its `eax` is 0; the accesses follow the word, not the line. -/
theorem irq_number_iff (build : Build) (n : Fin 16) (gate : Gate) (s : State Devices) :
    (Dispatched build n (interrupt gate s) ↔
      (s.cpu.reg .eax).extractLsb' 16 16 = 0 ∧ s.cpu.seg .ds = BitVec.ofNat 16 (32 + n)) ∧
    (exec (environment build) (irq n) (interrupt gate s)).devices =
      (irqAccesses (withLow16 (s.cpu.reg .eax) (s.cpu.seg .ds))).foldl perform s.devices ∧
    (irqAccesses (withLow16 (s.cpu.reg .eax) (s.cpu.seg .ds)) = irqAccesses (BitVec.ofNat 32 (32 + n)) ↔
      (withLow16 (s.cpu.reg .eax) (s.cpu.seg .ds) = 33 ↔ n.val = 1) ∧
        (withLow16 (s.cpu.reg .eax) (s.cpu.seg .ds) ≥ 40 ↔ 8 ≤ n.val)) := by
  have eax := interrupt_reg gate s (show Reg.eax ≠ .esp by decide)
  have ds := interrupt_seg gate s (show Seg.ds ≠ .cs by decide)
  obtain ⟨called, once, argument⟩ := irq_calls build n (interrupt gate s)
  have devices : (exec (environment build) (irq n) (interrupt gate s)).devices = _ :=
    irq_devices (interrupt gate s) n
  rw [eax, ds] at argument devices
  rw [irqHandler_performs, interrupt_devices] at devices
  refine ⟨?_, devices, ?_⟩
  · rw [← withLow16_eq_iff]
    constructor
    · rintro ⟨⟨called', once', vector⟩, _⟩
      cases once.symm.trans once'
      exact argument.symm.trans vector
    · intro vector
      exact ⟨⟨called, once, argument.trans vector⟩, vector ▸ devices⟩
  · rw [irqAccesses_eq_iff]
    have lines : ∀ n : Fin 16, (BitVec.ofNat 32 (32 + n.val) = 33 ↔ n.val = 1) ∧
        (BitVec.ofNat 32 (32 + n.val) ≥ 40 ↔ 8 ≤ n.val) := by decide
    rw [(lines n).1, (lines n).2]

/-- A program on the kernel's own segments, interrupted by the clock. -/
def interruptedProgram : State Devices :=
  ⟨⟨fun _ => 0, fun _ => 0x10, 0, 0x200⟩, fun _ => 0, beforeSetup.devices⟩

/-- The clock's number is 16, and the slave gets no end of interrupt. -/
theorem clock_number_is_segment :
    ¬ Dispatched someBuild 8 (interrupt (idtGate 0) interruptedProgram) := by
  rintro ⟨⟨called, once, vector⟩, _⟩
  obtain ⟨called', once', argument⟩ := irq_calls someBuild 8 (interrupt (idtGate 0) interruptedProgram)
  cases once.symm.trans once'
  have same := argument.symm.trans vector
  rw [interrupt_reg _ _ (by decide), interrupt_seg _ _ (by decide)] at same
  exact absurd same (by decide)

end SzOS.KernelC
