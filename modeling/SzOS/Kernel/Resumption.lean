import SzOS.Kernel.Exceptions

/-! The code that a hardware interrupt of the kernel interrupts: what `irq_handler` is
told of it, and what it finds when it goes on.

The processor, the stub and `irq_handler` use the interrupted stack below its stack
pointer. On a stack that ends at address 0 these bytes wrap to the top of the memory.
-/

set_option autoImplicit false

namespace SzOS.Kernel.Interrupts
open Semantics Hardware Hardware.I386

/-! ## Interrupts -/

section Definitions

variable (build : Build)

/-- The stub that an interrupt of a line leads to, and the state at its first instruction. -/
def enterInterrupt (s : System) (r : Request) : Option (Stub × State Devices) := do
  let gate ← s.idt.gate (s.devices.pics.vector r.line)
  let stub ← stubAt build gate.offset
  some (stub, interrupt gate
    { cpu := r.cpu, memory := r.memory
      devices := { s.devices with pics := s.devices.pics.deliver r.line } })

/-- The stub runs from there to the end. -/
theorem takeInterrupt_enters (s : System) (r : Request) :
    takeInterrupt build s r = (enterInterrupt build s r).map fun (stub, entered) =>
      { s with devices := (exec (environment build) stub.code entered).devices } := by
  unfold takeInterrupt enterInterrupt
  cases s.idt.gate (s.devices.pics.vector r.line) with
  | none => rfl
  | some gate =>
    cases found : stubAt build gate.offset with
    | none => simp [found]
    | some stub => simp [found]

/-- The fields of the frame that tell what was interrupted. -/
structure Tells (r : Request) (regs : Registers) : Prop where
  intNo : regs.intNo = BitVec.ofNat 32 (32 + r.line)
  errCode : regs.errCode = 0
  eip : regs.eip = r.cpu.eip
  cs : regs.cs = (r.cpu.seg .cs).setWidth 32
  eflags : regs.eflags = r.cpu.eflags
  general : [regs.eax, regs.ecx, regs.edx, regs.ebx, regs.ebp, regs.esi, regs.edi] =
    [.eax, .ecx, .edx, .ebx, .ebp, .esi, .edi].map r.cpu.reg

/-- `irq_handler` returns as compiled C does and leaves the frame alone. Its source stores nothing
in memory, so the compiled code stores only in its stack frame of so many bytes and in the
two words above, which are its own during the call: the return address and the argument. -/
structure Conforms (depth : Nat) (s : State Devices) : Prop where
  sp : (build.residue .irqHandler s).1.reg .esp = s.sp + 4
  ss : (build.residue .irqHandler s).1.seg .ss = s.cpu.seg .ss
  argument : Registers.load (build.residue .irqHandler s).2 (frameAddress s) =
    Registers.load s.memory (frameAddress s)
  memory : ∀ a, depth + 8 ≤ (a - (s.sp - BitVec.ofNat 32 depth)).toNat →
    (build.residue .irqHandler s).2 a = s.memory a

/-- The handler is told what was interrupted and, if it conforms, the processor is back where
it was, and so is the memory from the stack pointer up, for handlers that have room. -/
def Transparent (room : Nat → Prop) (s : System) (r : Request) : Prop :=
  ∃ entered atHandler, enterInterrupt build s r = some (.irq r.line, entered) ∧
    calls (environment build) (Stub.irq r.line).code entered = [(.irqHandler, atHandler)] ∧
    Tells r (Registers.load atHandler.memory (frameAddress atHandler)) ∧
    ∀ depth, Conforms build depth atHandler →
      (exec (environment build) (Stub.irq r.line).code entered).cpu = r.cpu ∧
      (room depth → ∀ a, r.cpu.reg .esp ≤ a →
        (exec (environment build) (Stub.irq r.line).code entered).memory a = r.memory a)

end Definitions

variable {build : Build}

/-! ## Entry -/

theorem enterInterrupt_spec {s : Session} (setUp : SetUp build s) (r : Request) :
    enterInterrupt build s.system r = some (.irq r.line,
      interrupt (makeGate (build.address (.irq r.line)) kernelCs interruptGate)
        { cpu := r.cpu, memory := r.memory
          devices := { s.system.devices with pics := s.system.devices.pics.deliver r.line } }) := by
  unfold enterInterrupt
  rw [vector_of_remapped setUp.init, setUp.gates, Option.bind_eq_bind, Option.bind_some, makeGate_offset, stubAt_irq]
  rfl

/-- What the frame holds, from its first field up to the interrupted flags. -/
def requestWords (r : Request) (saved : State Devices) : List Word :=
  withLow16 (r.cpu.reg .eax) (r.cpu.seg .ds) :: (savedRegisters saved ++
    [BitVec.ofNat 32 (32 + r.line), 0, r.cpu.eip, (r.cpu.seg .cs).setWidth 32, r.cpu.eflags])

/-- The state at the first instruction of `irq_handler`, 64 bytes below the interrupted code. -/
structure AtIrqHandler (build : Build) (r : Request) (saved s : State Devices) : Prop where
  general : ∀ reg, reg ≠ .esp → saved.cpu.reg reg = r.cpu.reg reg
  stack : s.Stack (r.cpu.reg .esp)
    (build.returnAddress .irqHandler :: frameAddress s :: requestWords r saved)
  frame : frameAddress s = s.sp + 8
  ss : s.cpu.seg .ss = r.cpu.seg .ss
  kept : Kept (r.cpu.reg .esp) 64 r.memory s.memory

theorem irqEntry_spec (gate : Gate) (r : Request) (devices : Devices) :
    ∃ saved, AtIrqHandler build r saved
      ((exec (environment build) (irqEntry r.line) (interrupt gate ⟨r.cpu, r.memory, devices⟩)).push
        (build.returnAddress .irqHandler)) := by
  have code : irqEntry r.line = .cli :: [0, BitVec.ofNat 32 (32 + r.line)].map .pushImm ++
      (saveState ++ kernelSegments ++ [.push .esp]) := rfl
  have interrupted := interrupt_stack (s := ⟨r.cpu, r.memory, devices⟩) gate
  have bySystem := interrupt_kept (s := ⟨r.cpu, r.memory, devices⟩) gate
  have regs : ∀ reg, reg ≠ .esp → (interrupt gate ⟨r.cpu, r.memory, devices⟩).cpu.reg reg = r.cpu.reg reg :=
    fun reg other => interrupt_reg gate _ other
  have segs : ∀ sreg, sreg ≠ .cs → (interrupt gate ⟨r.cpu, r.memory, devices⟩).cpu.seg sreg = r.cpu.seg sreg :=
    fun sreg other => interrupt_seg gate _ other
  have few : ([0, BitVec.ofNat 32 (32 + r.line)] : List Word).length +
      ([r.cpu.eip, (r.cpu.seg .cs).setWidth 32, r.cpu.eflags] : List Word).length ≤ 16 :=
    show 2 + 3 ≤ 16 by decide
  rw [code]
  generalize interrupt gate ⟨r.cpu, r.memory, devices⟩ = entered at interrupted bySystem regs segs
  obtain ⟨saved, general, stack, frame, ss, byStub⟩ := entry_spec build .irqHandler interrupted few rfl
  rw [regs .eax (by decide), segs .ds (by decide)] at stack
  refine ⟨saved, ?_, stack, frame, ss.trans (segs .ss (by decide)), ?_⟩
  · intro reg other
    rw [general reg other, regs reg other]
  · exact (bySystem.mono (by decide)).trans byStub

/-! ## The frame and the resumption -/

theorem irq_code (n : Fin 16) :
    (Stub.irq n).code = irqEntry n ++ .call .irqHandler :: .addEsp 4 :: restoreAndReturn := rfl

theorem irq_calls (build : Build) (n : Fin 16) (s : State Devices) :
    calls (environment build) (Stub.irq n).code s =
      [(.irqHandler,
        (exec (environment build) (irqEntry n) s).push (build.returnAddress .irqHandler))] := by
  have callFree : ∀ i ∈ irqEntry n, i.isCall = false := by
    simp [irqEntry, saveState, kernelSegments, Instr.isCall]
  rw [irq_code, stub_calls build .irqHandler callFree]

/-- The code after the call stores nothing. -/
theorem return_memory (env : Environment CFunction Devices) (s : State Devices) :
    (exec env (.addEsp 4 :: restoreAndReturn) s).memory = s.memory := rfl

section AtIrqHandler

variable {r : Request} {saved s : State Devices}

theorem AtIrqHandler.tells (at' : AtIrqHandler build r saved s) :
    Tells r (Registers.load s.memory (frameAddress s)) := by
  have words := words_of_wordsAt (frame_held at'.stack at'.frame) rfl
  simp only [requestWords, savedRegisters, Registers.words, List.map_cons, List.map_nil, List.cons_append,
    List.nil_append, List.cons.injEq] at words
  obtain ⟨_, edi, esi, ebp, _, ebx, edx, ecx, eax, intNo, errCode, eip, cs, eflags, _⟩ := words
  refine ⟨intNo, errCode, eip, cs, eflags, ?_⟩
  rw [edi, esi, ebp, ebx, edx, ecx, eax]
  have regs := at'.general
  simp [regs]

theorem AtIrqHandler.resumed (at' : AtIrqHandler build r saved s) {depth : Nat} (conforms : Conforms build depth s)
    (dataSegments : ∀ sreg ∈ [Seg.es, .fs, .gs], r.cpu.seg sreg = r.cpu.seg .ds) :
    (exec (environment build) (.addEsp 4 :: restoreAndReturn)
      (callFunction build .irqHandler s)).cpu = r.cpu := by
  have ss : (callFunction build .irqHandler s).cpu.seg .ss = r.cpu.seg .ss := conforms.ss.trans at'.ss
  have stack := returned_stack at'.stack at'.frame rfl
    (show (callFunction build .irqHandler s).sp = s.sp + 4 from conforms.sp) conforms.argument
  exact resume_spec (environment build) dataSegments at'.general ss stack

/-- Only the handler's frame lies below the 64 bytes, and only its own words within them. -/
theorem AtIrqHandler.memory (at' : AtIrqHandler build r saved s) {depth : Nat}
    (conforms : Conforms build depth s) :
    Kept (r.cpu.reg .esp) (64 + depth) r.memory (callFunction build .irqHandler s).memory := by
  have sixteen : s.sp + BitVec.ofNat 32 (4 * 16) = r.cpu.reg .esp := at'.stack.sp
  refine (at'.kept.mono (Nat.le_add_right 64 depth)).trans ?_
  intro a outside
  apply conforms.memory
  rw [← sixteen] at outside
  have small : depth < 2 ^ 32 := by omega
  bv_omega

end AtIrqHandler

theorem transparent_of_setUp {s : Session} (setUp : SetUp build s) (r : Request)
    (dataSegments : ∀ sreg ∈ [Seg.es, .fs, .gs], r.cpu.seg sreg = r.cpu.seg .ds) :
    Transparent build (fun depth => 64 + depth ≤ (r.cpu.reg .esp).toNat) s.system r := by
  obtain ⟨saved, at'⟩ : ∃ saved, AtIrqHandler build r saved _ :=
    irqEntry_spec (makeGate (build.address (.irq r.line)) kernelCs interruptGate) r
      { s.system.devices with pics := s.system.devices.pics.deliver r.line }
  refine ⟨_, _, enterInterrupt_spec setUp r, irq_calls build r.line _, at'.tells, ?_⟩
  intro depth conforms
  rw [irq_code, stub_exec]
  refine ⟨at'.resumed conforms dataSegments, ?_⟩
  intro room a above
  rw [return_memory]
  exact (at'.memory conforms).above room above

/-- In every state that registrations and interrupts lead to, every interrupt on every line is
invisible to the code it interrupts, where the stack has room above address 0. -/
theorem interrupts_transparent (build : Build) (idt : Idt) (pics : PicPair) {events : List Event} {s : Session}
    (reached : run (event build) (start build idt pics) events = some s) (r : Request)
    (dataSegments : ∀ sreg ∈ [Seg.es, .fs, .gs], r.cpu.seg sreg = r.cpu.seg .ds) :
    Transparent build (fun depth => 64 + depth ≤ (r.cpu.reg .esp).toNat) s.system r := by
  have setUp : SetUp build s := run_invariant (SetUp build)
    (fun _ _ _ holds occurred => event_setUp holds occurred) (start_setUp build idt pics) reached
  exact transparent_of_setUp setUp r dataSegments

/-- An interrupt in a kernel that runs on its own segments. -/
def requestAt (line : Fin 16) (esp : Word) : Request where
  line
  cpu := ⟨fun reg => if reg = .esp then esp else 0, fun sreg => if sreg = .cs then 0x08 else 0x10,
    0x100000, 0x202⟩
  memory _ := 0

/-- Compiled code that uses no stack of its own. -/
theorem someBuild_conforms (s : State Devices) : Conforms someBuild 0 s where
  sp := drop_sp s
  ss := rfl
  argument := rfl
  memory _ _ := rfl

theorem interrupts_transparent_roomy :
    ∃ entered atHandler, enterInterrupt someBuild
        (start someBuild ⟨fun _ => ⟨0, 0, 0, 0, 0⟩, 0⟩ somePics).system (requestAt 1 0x9000) =
          some (.irq 1, entered) ∧
      Tells (requestAt 1 0x9000) (Registers.load atHandler.memory (frameAddress atHandler)) ∧
      Conforms someBuild 0 atHandler ∧
      (exec (environment someBuild) (Stub.irq 1).code entered).cpu = (requestAt 1 0x9000).cpu ∧
      ∀ a, 0x9000 ≤ a → (exec (environment someBuild) (Stub.irq 1).code entered).memory a = 0 := by
  have reached : run (event someBuild) (start someBuild ⟨fun _ => ⟨0, 0, 0, 0, 0⟩, 0⟩ somePics) [] =
      some (start someBuild ⟨fun _ => ⟨0, 0, 0, 0, 0⟩, 0⟩ somePics) := rfl
  obtain ⟨entered, atHandler, enters, _, tells, resumes⟩ :=
    interrupts_transparent someBuild _ somePics reached (requestAt 1 0x9000) (by decide)
  obtain ⟨cpu, memory⟩ := resumes 0 (someBuild_conforms atHandler)
  exact ⟨entered, atHandler, enters, tells, someBuild_conforms atHandler, cpu, memory (by decide)⟩

/-- On a stack that ends at 0 the saved flags stand above the stack pointer, where the memory
was 0. -/
theorem empty_stack_overwritten :
    ¬ Transparent someBuild (fun _ => True)
      (start someBuild ⟨fun _ => ⟨0, 0, 0, 0, 0⟩, 0⟩ somePics).system (requestAt 1 0) := by
  rintro ⟨entered, atHandler, _, called, tells, resumes⟩
  obtain ⟨_, memory⟩ := resumes 0 (someBuild_conforms atHandler)
  have same : ∀ a, atHandler.memory a = 0 := by
    intro a
    rw [irq_calls] at called
    have kept := memory trivial a (show (0 : Word) ≤ a from BitVec.le_def.mpr (Nat.zero_le _))
    rw [irq_code, stub_exec, return_memory] at kept
    cases called
    exact kept
  have flags : load32 atHandler.memory (frameAddress atHandler + 52) = 0x202 := tells.eflags
  unfold load32 at flags
  rw [same, same, same, same] at flags
  revert flags
  decide

end SzOS.Kernel.Interrupts
