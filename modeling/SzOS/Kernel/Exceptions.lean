import SzOS.Hardware.Stack
import SzOS.Kernel.Interrupts

/-! Processor exceptions of the kernel: the frame that `isr_handler` receives and the
state that the stub's `iret` resumes.

The processor pushes an error code for the alignment check (17) and the control
protection exception (21), but their stubs are `ISR_NOERRCODE` and push another word.
-/

set_option autoImplicit false

namespace SzOS.Kernel.Interrupts
open Semantics Hardware Hardware.I386

/-! ## Exceptions -/

/-- The vectors for which the processor pushes an error code. -/
def processorPushesErrorCode (n : Fin 32) : Bool := n.val ∈ [8, 10, 11, 12, 13, 14, 17, 21]

/-- An exception, with the processor and memory it interrupts. The kernel's data
segment registers are all the same, and bit 1 of the flags is always set. -/
structure Exception where
  vector : Fin 32
  errorCode : Word
  cpu : Cpu
  memory : Memory
  dataSegments : ∀ sreg ∈ [Seg.es, .fs, .gs], cpu.seg sreg = cpu.seg .ds
  reservedFlag : cpu.eflags.getLsbD 1 = true

def Exception.pushed (e : Exception) : List Word :=
  if processorPushesErrorCode e.vector then [e.errorCode] else []

variable (build : Build)

/-- The stub that the gate of an exception leads to, and the state at its first instruction. -/
def enterException (s : System) (e : Exception) : Option (Stub × State Devices) := do
  let gate ← s.idt.gate (BitVec.ofNat 8 e.vector)
  let stub ← stubAt build gate.offset
  some (stub, pushAll (interrupt gate ⟨e.cpu, e.memory, s.devices⟩) e.pushed)

/-- The address of the frame, where a C function finds it. -/
def frameAddress (s : State Devices) : Word := load32 s.memory (s.sp + 4)

/-- The frame says what was interrupted and why. -/
structure FrameRight (e : Exception) (regs : Registers) : Prop where
  intNo : regs.intNo = BitVec.ofNat 32 e.vector
  errCode : regs.errCode = e.pushed.headD 0
  eip : regs.eip = e.cpu.eip
  cs : regs.cs = (e.cpu.seg .cs).setWidth 32
  eflags : regs.eflags = e.cpu.eflags
  general : [regs.eax, regs.ecx, regs.edx, regs.ebx, regs.ebp, regs.esi, regs.edi] =
    [.eax, .ecx, .edx, .ebx, .ebp, .esi, .edi].map e.cpu.reg

/-- `isr_handler` and the handler it calls return as compiled C does and leave the frame. -/
structure ReturnsUnmodified (s : State Devices) : Prop where
  sp : (build.residue .isrHandler s).1.reg .esp = s.sp + 4
  ss : (build.residue .isrHandler s).1.seg .ss = s.cpu.seg .ss
  frame : Registers.load (build.residue .isrHandler s).2 (frameAddress s) =
    Registers.load s.memory (frameAddress s)

example (s : State Devices) : ReturnsUnmodified someBuild s := ⟨drop_sp s, rfl, rfl⟩

/-- The handler gets the right frame and, if one is registered and returns, the
processor is back where it was. -/
def Faithful (s : System) (e : Exception) : Prop :=
  ∃ stub entered atHandler, enterException build s e = some (stub, entered) ∧
    calls (environment build) stub.code entered = [(.isrHandler, atHandler)] ∧
    FrameRight e (Registers.load atHandler.memory (frameAddress atHandler)) ∧
    (s.devices.interruptHandlers e.vector ≠ 0 → ReturnsUnmodified build atHandler →
      (exec (environment build) stub.code entered).cpu = e.cpu)

variable {build : Build}

/-! ## The frame in memory -/

/-- The fields that the processor and the stub push, from the lowest address up. -/
def Registers.words (regs : Registers) : List Word :=
  [regs.ds, regs.edi, regs.esi, regs.ebp, regs.esp, regs.ebx, regs.edx, regs.ecx, regs.eax,
    regs.intNo, regs.errCode, regs.eip, regs.cs, regs.eflags]

theorem load_words (memory : Memory) (regs : Word) :
    wordsAt memory regs (Registers.load memory regs).words := by
  simp [Registers.words, Registers.load, wordsAt, BitVec.add_assoc]

theorem words_of_wordsAt {memory : Memory} {regs : Word} {words : List Word}
    (held : wordsAt memory regs words) (length : words.length = 14) :
    (Registers.load memory regs).words = words :=
  wordsAt_unique length.symm (load_words memory regs) held

/-! ## Entry -/

/-- The words that a stub pushes before the common part. -/
def stubWords (n : Fin 32) : List Word :=
  if pushesErrorCode n then [BitVec.ofNat 32 n] else [0, BitVec.ofNat 32 n]

def entrySequence (n : Fin 32) : List (Instr CFunction) :=
  .cli :: (stubWords n).map .pushImm ++ (saveState ++ kernelSegments ++ [.push .esp])

theorem isr_code (n : Fin 32) :
    (Stub.isr n).code = entrySequence n ++ .call .isrHandler :: .addEsp 4 :: restoreAndReturn := by
  show isr n = _
  unfold isr entrySequence stubWords
  split <;> rfl

theorem exec_pushImm (env : Environment CFunction Devices) (values : List Word) (s : State Devices) :
    exec env (values.map .pushImm) s = pushAll s values := by
  induction values generalizing s with
  | nil => rfl
  | cons value rest ih => exact ih (s.push value)

theorem kernelSegments_quiet : ∀ i ∈ kernelSegments, i.isQuiet = true := by
  simp [kernelSegments, Instr.isQuiet]

theorem saveState_spec (env : Environment CFunction Devices) {s : State Devices} {base : Word}
    {words : List Word} (stack : s.Stack base words) (fits : words.length ≤ 16) :
    (exec env saveState s).Stack base
        (withLow16 (s.cpu.reg .eax) (s.cpu.seg .ds) :: savedRegisters s ++ words) ∧
      (exec env saveState s).cpu.seg = s.cpu.seg ∧
      Kept base (4 * (9 + words.length)) s.memory (exec env saveState s).memory := by
  obtain ⟨saved, seg, regs⟩ := step_pusha env stack (by omega)
  have kept := step_pusha_kept env stack (by omega)
  have quiet : (Instr.movFromSeg .eax .ds : Instr CFunction).isQuiet = true := rfl
  have moved := step_quiet_stack env saved quiet
  have data := step_movFromSeg env (step env s .pusha) .eax .ds
  rw [seg, regs .eax (by decide)] at data
  have eight : (savedRegisters s ++ words).length = 8 + words.length := List.length_append
  have pushed := moved.push_kept (withLow16 (s.cpu.reg .eax) (s.cpu.seg .ds))
  rw [eight] at pushed
  rw [saveState, exec_cons, exec_cons, exec_cons, exec_nil, step_push, data, List.cons_append]
  refine ⟨moved.push (by omega) _, ?_, (kept.mono (by omega)).trans (pushed.mono (by omega))⟩
  rw [push_seg, step_movFromSeg_seg, seg]

theorem kernelSegments_ss (env : Environment CFunction Devices) (s : State Devices) :
    (exec env kernelSegments s).cpu.seg .ss = s.cpu.seg .ss := rfl

/-- Up to the call, above the words that the stub found on the stack. -/
theorem common_spec (env : Environment CFunction Devices) {s : State Devices} {base : Word}
    {words : List Word} (stack : s.Stack base words) (fits : words.length ≤ 16) :
    ∃ frame, (exec env (saveState ++ kernelSegments ++ [Instr.push .esp]) s).Stack base
        (frame :: withLow16 (s.cpu.reg .eax) (s.cpu.seg .ds) :: savedRegisters s ++ words) ∧
      (exec env (saveState ++ kernelSegments ++ [Instr.push .esp]) s).sp + 4 = frame ∧
      (exec env (saveState ++ kernelSegments ++ [Instr.push .esp]) s).cpu.seg .ss = s.cpu.seg .ss ∧
      Kept base (4 * (10 + words.length)) s.memory
        (exec env (saveState ++ kernelSegments ++ [Instr.push .esp]) s).memory := by
  obtain ⟨saved, seg, kept⟩ := saveState_spec env stack fits
  have inKernel := exec_quiet_stack env kernelSegments_quiet saved
  have memory := exec_quiet_memory env kernelSegments_quiet (exec env saveState s)
  have ss := (kernelSegments_ss env (exec env saveState s)).trans (congrFun seg .ss)
  rw [exec_append, exec_append, exec_cons, exec_nil, step_push]
  rw [← memory] at kept
  generalize exec env kernelSegments (exec env saveState s) = t at inKernel ss kept
  have nine : (withLow16 (s.cpu.reg .eax) (s.cpu.seg .ds) :: savedRegisters s ++ words).length =
      9 + words.length := by
    simp [savedRegisters]
    omega
  have pushed := inKernel.push_kept t.sp
  rw [nine] at pushed
  refine ⟨t.sp, inKernel.push ?_ _, ?_, ss, (kept.mono (by omega)).trans (pushed.mono (by omega))⟩
  · rw [nine]
    omega
  · rw [push_sp, BitVec.sub_add_cancel]

/-- Up to the first instruction of the C function, from a stack that holds some words. -/
theorem entry_spec (build : Build) (f : CFunction) {s handler : State Devices} {base : Word}
    {words codes : List Word} (stack : s.Stack base words) (few : codes.length + words.length ≤ 16)
    (entered : (exec (environment build)
      (.cli :: codes.map .pushImm ++ (saveState ++ kernelSegments ++ [Instr.push .esp])) s).push
        (build.returnAddress f) = handler) :
    ∃ saved : State Devices, (∀ r, r ≠ .esp → saved.cpu.reg r = s.cpu.reg r) ∧
      handler.Stack base (build.returnAddress f :: frameAddress handler ::
        withLow16 (s.cpu.reg .eax) (s.cpu.seg .ds) :: (savedRegisters saved ++ (codes.reverse ++ words))) ∧
      frameAddress handler = handler.sp + 8 ∧ handler.cpu.seg .ss = s.cpu.seg .ss ∧
      Kept base (4 * (11 + (codes.length + words.length))) s.memory handler.memory := by
  have disabled : (step (environment build) s .cli).Stack base words := stack.congr rfl rfl
  have room : 4 * (codes.length + words.length) ≤ 2 ^ 32 := by omega
  have stacked := disabled.pushAll room
  have kept : Kept base _ s.memory _ := disabled.pushAll_kept room
  have regs : ∀ r, r ≠ .esp →
      (pushAll (step (environment build) s .cli) codes).cpu.reg r = s.cpu.reg r :=
    fun r other => pushAll_reg _ _ other
  have segs : (pushAll (step (environment build) s .cli) codes).cpu.seg = s.cpu.seg := pushAll_seg _ _
  rw [List.cons_append, exec_cons, exec_append, exec_pushImm] at entered
  generalize pushAll (step (environment build) s .cli) codes = saved at stacked kept regs segs entered
  have length : (codes.reverse ++ words).length = codes.length + words.length := by simp
  obtain ⟨frame, built, above, ss, common⟩ := common_spec (environment build) stacked (by omega)
  have ten : (frame :: withLow16 (saved.cpu.reg .eax) (saved.cpu.seg .ds) :: savedRegisters saved ++
      (codes.reverse ++ words)).length = 10 + (codes.length + words.length) := by
    simp [savedRegisters]
    omega
  have called := built.push (by rw [ten]; omega) (build.returnAddress f)
  have pushed := built.push_kept (build.returnAddress f)
  rw [ten] at pushed
  rw [length] at common
  have address := called.held.2.1
  rw [regs .eax (by decide), segs] at called
  generalize exec (environment build) (saveState ++ kernelSegments ++ [Instr.push .esp]) saved = before
    at called address above ss common pushed entered
  subst entered
  have frameAt : frameAddress (before.push (build.returnAddress f)) = frame := address
  refine ⟨saved, regs, ?_, ?_, ss.trans (congrFun segs .ss), ?_⟩
  · rw [frameAt]
    exact called
  · have eight : (8 : Word) = 4 + 4 := rfl
    rw [frameAt, push_sp, eight, ← BitVec.add_assoc, BitVec.sub_add_cancel, above]
  · exact (kept.mono (by omega)).trans ((common.mono (by omega)).trans (pushed.mono (by omega)))

theorem exception_gate (build : Build) (before : System) (n : Fin 32) :
    (interruptsInitialize build before).idt.gate (BitVec.ofNat 8 n) =
      some (makeGate (build.address (.isr n)) kernelCs interruptGate) := by
  have vector : (BitVec.ofNat 8 n.val).toNat = n.val := by
    rw [BitVec.toNat_ofNat]
    omega
  apply Idt.gate_of_entry
  · rw [vector]
    show 8 * n.val + 7 ≤ 2047
    omega
  · rw [vector]
    -- the gates of the hardware lines come after, at other entries
    have lines : ∀ line ∈ List.finRange 16, 32 + line.val ≠ n.val := by
      intro line _
      omega
    exact (writeEntries_other (fun line : Fin 16 => 32 + line.val)
      (fun line => makeGate (build.address (.irq line)) kernelCs interruptGate) lines _).trans
      (writeEntries_mem (fun n : Fin 32 => n.val)
        (fun n => makeGate (build.address (.isr n)) kernelCs interruptGate)
        (fun _ _ same => Fin.ext same) (List.mem_finRange n) _)
  · exact makeGate_present _ _

theorem stubAt_isr (build : Build) (n : Fin 32) :
    stubAt build (build.address (.isr n)) = some (.isr n) := by
  apply routineAt_address build.injective
  simp [stubs]

/-- The state at a stub's first instruction. -/
structure Entered (e : Exception) (s : State Devices) : Prop where
  stack : s.Stack (e.cpu.reg .esp)
    (e.pushed ++ [e.cpu.eip, (e.cpu.seg .cs).setWidth 32, e.cpu.eflags])
  reg : ∀ r, r ≠ .esp → s.cpu.reg r = e.cpu.reg r
  seg : ∀ sreg, sreg ≠ .cs → s.cpu.seg sreg = e.cpu.seg sreg

theorem pushed_length (e : Exception) : e.pushed.length ≤ 1 := by
  unfold Exception.pushed
  split <;> simp

theorem pushed_reverse (e : Exception) : e.pushed.reverse = e.pushed := by
  unfold Exception.pushed
  split <;> rfl

theorem enterException_spec (build : Build) (before : System) (devices : Devices) (e : Exception) :
    ∃ entered, enterException build { interruptsInitialize build before with devices } e =
      some (.isr e.vector, entered) ∧ Entered e entered := by
  unfold enterException
  rw [exception_gate, Option.bind_eq_bind, Option.bind_some, makeGate_offset, stubAt_isr]
  refine ⟨_, rfl, ?_, ?_, ?_⟩
  · have interrupted := interrupt_stack (s := ⟨e.cpu, e.memory, devices⟩)
      (makeGate (build.address (.isr e.vector)) kernelCs interruptGate)
    have length := pushed_length e
    have fits : 4 * (e.pushed.length + 3) ≤ 2 ^ 32 := by omega
    have stack := interrupted.pushAll fits
    rw [pushed_reverse] at stack
    exact stack
  · intro r other
    rw [pushAll_reg _ _ other, interrupt_reg _ _ other]
  · intro sreg other
    rw [pushAll_seg, interrupt_seg _ _ other]

/-- What the frame holds, from its first field up to the interrupted flags and past them. -/
def frameWords (e : Exception) (saved : State Devices) : List Word :=
  withLow16 (e.cpu.reg .eax) (e.cpu.seg .ds) :: (savedRegisters saved ++
    ((stubWords e.vector).reverse ++
      (e.pushed ++ [e.cpu.eip, (e.cpu.seg .cs).setWidth 32, e.cpu.eflags])))

/-- The state at the first instruction of `isr_handler`. -/
structure AtHandler (build : Build) (e : Exception) (saved s : State Devices) : Prop where
  general : ∀ r, r ≠ .esp → saved.cpu.reg r = e.cpu.reg r
  stack : s.Stack (e.cpu.reg .esp)
    (build.returnAddress .isrHandler :: frameAddress s :: frameWords e saved)
  frame : frameAddress s = s.sp + 8
  ss : s.cpu.seg .ss = e.cpu.seg .ss

theorem entrySequence_spec {e : Exception} {s : State Devices} (entered : Entered e s) :
    ∃ saved, AtHandler build e saved
      ((exec (environment build) (entrySequence e.vector) s).push (build.returnAddress .isrHandler)) := by
  have pushed := pushed_length e
  have codes : (stubWords e.vector).length ≤ 2 := by
    unfold stubWords
    split <;> simp
  have few : (stubWords e.vector).length + (e.pushed ++
      [e.cpu.eip, (e.cpu.seg .cs).setWidth 32, e.cpu.eflags]).length ≤ 16 := by
    simp only [List.length_append, List.length_cons, List.length_nil]
    omega
  obtain ⟨saved, general, stack, frame, ss, _⟩ := entry_spec build .isrHandler entered.stack few rfl
  rw [entered.reg .eax (by decide), entered.seg .ds (by decide)] at stack
  refine ⟨saved, ?_, stack, frame, ss.trans (entered.seg .ss (by decide))⟩
  intro r other
  rw [general r other, entered.reg r other]

/-! ## Return -/

def segments (cs ss data : BitVec 16) : Seg → BitVec 16
  | .cs => cs
  | .ss => ss
  | _ => data

def reloadSegments : List (Instr CFunction) :=
  [.movToSeg .ds .eax, .movToSeg .es .eax, .movToSeg .fs .eax, .movToSeg .gs .eax]

theorem reloadSegments_quiet : ∀ i ∈ reloadSegments, i.isQuiet = true := by
  simp [reloadSegments, Instr.isQuiet]

theorem reloadSegments_seg (env : Environment CFunction Devices) (s : State Devices) :
    (exec env reloadSegments s).cpu.seg =
      segments (s.cpu.seg .cs) (s.cpu.seg .ss) ((s.cpu.reg .eax).setWidth 16) := by
  funext sreg
  cases sreg <;> rfl

theorem restoreAndReturn_eq : restoreAndReturn =
    Instr.pop .eax :: reloadSegments ++ [Instr.popa, .addEsp 8, .sti, .iret] := rfl

/-- The registers, the data segments and the return state come from the stack. -/
theorem return_spec (env : Environment CFunction Devices) {s saved : State Devices}
    {base argument ds intNo errCode eip cs eflags : Word} {rest : List Word}
    (stack : s.Stack base (argument :: ds :: (savedRegisters saved ++
      (intNo :: errCode :: eip :: cs :: eflags :: rest)))) :
    (exec env (.addEsp 4 :: restoreAndReturn) s).Stack base rest ∧
      (exec env (.addEsp 4 :: restoreAndReturn) s).cpu.eip = eip ∧
      (exec env (.addEsp 4 :: restoreAndReturn) s).cpu.eflags = eflags ∧
      (∀ r, r ≠ .esp → (exec env (.addEsp 4 :: restoreAndReturn) s).cpu.reg r = saved.cpu.reg r) ∧
      (exec env (.addEsp 4 :: restoreAndReturn) s).cpu.seg =
        segments (cs.setWidth 16) (s.cpu.seg .ss) (ds.setWidth 16) := by
  rw [restoreAndReturn_eq, exec_cons, List.cons_append, exec_cons, exec_append]
  -- the argument, then the saved data segment
  have atFrame : (step env s (.addEsp 4)).Stack base _ := step_addEsp_stack env [argument] stack
  have segs := step_addEsp_seg env s 4
  generalize step env s (.addEsp 4) = framed at atFrame segs
  have popped := popInto_stack atFrame (some .eax) (by decide)
  have eax : (popInto framed (some .eax)).cpu.reg .eax = ds := by
    rw [popInto_reg (by decide), if_pos rfl, atFrame.top]
  have poppedSegs := (popInto_seg framed (some .eax)).trans segs
  rw [step_pop]
  generalize popInto framed (some .eax) = inKernel at popped eax poppedSegs
  have reloaded := exec_quiet_stack env reloadSegments_quiet popped
  have data := reloadSegments_seg env inKernel
  rw [eax, poppedSegs] at data
  generalize exec env reloadSegments inKernel = inOld at reloaded data
  obtain ⟨general, generalSegs, regs⟩ := step_popa env reloaded
  rw [exec_cons, exec_cons, exec_cons, exec_cons, exec_nil]
  generalize step env inOld .popa = restored at general generalSegs regs
  -- the vector and the error code
  have atReturn : (step env restored (.addEsp 8)).Stack base _ :=
    step_addEsp_stack env [intNo, errCode] general
  have returnRegs := fun r other => step_addEsp_reg env restored 8 (r := r) other
  have returnSegs := step_addEsp_seg env restored 8
  generalize step env restored (.addEsp 8) = atReturn' at atReturn returnRegs returnSegs
  have enabled : (step env atReturn' .sti).Stack base _ := atReturn.congr rfl rfl
  obtain ⟨left, eipRight, eflagsRight, segRight, regRight⟩ := step_iret env enabled
  refine ⟨left, eipRight, eflagsRight, ?_, ?_⟩
  · intro r other
    rw [regRight r other, step_sti_reg, returnRegs r other, regs r other]
  · rw [segRight, step_sti_seg, returnSegs, generalSegs, data]
    funext sreg
    cases sreg <;> rfl

/-- Over a frame that holds an interrupted processor, the code after the call resumes it. -/
theorem resume_spec (env : Environment CFunction Devices) {cpu : Cpu} {s saved : State Devices}
    {argument intNo errCode : Word} (dataSegments : ∀ sreg ∈ [Seg.es, .fs, .gs], cpu.seg sreg = cpu.seg .ds)
    (general : ∀ r, r ≠ .esp → saved.cpu.reg r = cpu.reg r) (ss : s.cpu.seg .ss = cpu.seg .ss)
    (stack : s.Stack (cpu.reg .esp) (argument :: withLow16 (cpu.reg .eax) (cpu.seg .ds) ::
      (savedRegisters saved ++ [intNo, errCode, cpu.eip, (cpu.seg .cs).setWidth 32, cpu.eflags]))) :
    (exec env (.addEsp 4 :: restoreAndReturn) s).cpu = cpu := by
  obtain ⟨left, eip, eflags, regs, segs⟩ := return_spec env stack
  generalize exec env (.addEsp 4 :: restoreAndReturn) s = final at left eip eflags regs segs
  apply Cpu.ext
  · funext r
    by_cases isEsp : r = .esp
    · rw [isEsp]
      exact left.sp_nil
    · rw [regs r isEsp, general r isEsp]
  · rw [segs, ss, withLow16_setWidth, BitVec.setWidth_setWidth_of_le _ (by decide), BitVec.setWidth_eq]
    funext sreg
    cases sreg with
    | cs => rfl
    | ss => rfl
    | ds => rfl
    | es => exact (dataSegments .es (by decide)).symm
    | fs => exact (dataSegments .fs (by decide)).symm
    | gs => exact (dataSegments .gs (by decide)).symm
  · exact eip
  · exact eflags

/-! ## The frame and the resumption -/

/-- A stub calls its C function and nothing else. -/
theorem stub_calls (build : Build) (f : CFunction) {entry : List (Instr CFunction)}
    (callFree : ∀ i ∈ entry, i.isCall = false) (s : State Devices) :
    calls (environment build) (entry ++ .call f :: .addEsp 4 :: restoreAndReturn) s =
      [(f, (exec (environment build) entry s).push (build.returnAddress f))] := by
  have after : ∀ i ∈ (.addEsp 4 :: restoreAndReturn : List (Instr CFunction)), i.isCall = false := by
    simp [restoreAndReturn, Instr.isCall]
  rw [calls_append_of_callFree _ callFree]
  exact congrArg (List.cons _) (calls_of_callFree _ after _)

theorem stub_exec (build : Build) (f : CFunction) (entry : List (Instr CFunction)) (s : State Devices) :
    exec (environment build) (entry ++ .call f :: .addEsp 4 :: restoreAndReturn) s =
      exec (environment build) (.addEsp 4 :: restoreAndReturn)
        (callFunction build f ((exec (environment build) entry s).push (build.returnAddress f))) := by
  rw [exec_append, exec_cons]
  rfl

theorem isr_calls (build : Build) (n : Fin 32) (s : State Devices) :
    calls (environment build) (Stub.isr n).code s =
      [(.isrHandler,
        (exec (environment build) (entrySequence n) s).push (build.returnAddress .isrHandler))] := by
  have callFree : ∀ i ∈ entrySequence n, i.isCall = false := by
    unfold entrySequence stubWords
    split <;> simp [saveState, kernelSegments, Instr.isCall]
  rw [isr_code, stub_calls build .isrHandler callFree]

section Frame

variable {s t : State Devices} {base back : Word} {words : List Word}

/-- The frame lies above the return address and the argument. -/
theorem frame_held (stack : s.Stack base (back :: frameAddress s :: words))
    (frame : frameAddress s = s.sp + 8) : wordsAt s.memory (frameAddress s) words := by
  have held := stack.held.2.2
  rw [BitVec.add_assoc] at held
  rw [frame]
  exact held

/-- After a return that left the frame alone it lies under the argument. -/
theorem returned_stack (stack : s.Stack base (back :: frameAddress s :: words))
    (frame : frameAddress s = s.sp + 8) (length : words.length = 14) (sp : t.sp = s.sp + 4)
    (kept : Registers.load t.memory (frameAddress s) = Registers.load s.memory (frameAddress s)) :
    t.Stack base (t.top :: words) := by
  have held := load_words t.memory (frameAddress s)
  rw [kept, words_of_wordsAt (frame_held stack frame) length, frame] at held
  refine ⟨?_, rfl, ?_⟩
  · have popped := stack.drop.sp
    rwa [drop_sp, List.length_cons, ← sp, ← List.length_cons (a := t.top)] at popped
  · rw [sp, BitVec.add_assoc]
    exact held

end Frame

variable {e : Exception} {saved s : State Devices}

theorem codes_of_agree (agree : pushesErrorCode e.vector = processorPushesErrorCode e.vector) :
    (stubWords e.vector).reverse ++ e.pushed = [BitVec.ofNat 32 e.vector, e.pushed.headD 0] := by
  unfold stubWords Exception.pushed
  rw [agree]
  split <;> rfl

theorem frameWords_of_agree (agree : pushesErrorCode e.vector = processorPushesErrorCode e.vector) :
    frameWords e saved = withLow16 (e.cpu.reg .eax) (e.cpu.seg .ds) :: (savedRegisters saved ++
      [BitVec.ofNat 32 e.vector, e.pushed.headD 0, e.cpu.eip, (e.cpu.seg .cs).setWidth 32,
        e.cpu.eflags]) := by
  rw [frameWords, ← List.append_assoc (stubWords _).reverse, codes_of_agree agree]
  rfl

theorem pushes_agree_iff : ∀ n : Fin 32,
    pushesErrorCode n = processorPushesErrorCode n ↔ n ≠ 17 ∧ n ≠ 21 := by
  decide

/-- Where only the processor pushes an error code, the stub's word stands before it. -/
theorem codes_of_disagree (disagree : pushesErrorCode e.vector ≠ processorPushesErrorCode e.vector) :
    (stubWords e.vector).reverse = [BitVec.ofNat 32 e.vector, 0] ∧ e.pushed = [e.errorCode] := by
  have onlyProcessor : ∀ n : Fin 32, pushesErrorCode n ≠ processorPushesErrorCode n →
      pushesErrorCode n = false ∧ processorPushesErrorCode n = true := by decide
  obtain ⟨stub, processor⟩ := onlyProcessor e.vector disagree
  unfold stubWords Exception.pushed
  rw [stub, processor]
  exact ⟨rfl, rfl⟩

theorem AtHandler.frameRight (at' : AtHandler build e saved s)
    (agree : pushesErrorCode e.vector = processorPushesErrorCode e.vector) :
    FrameRight e (Registers.load s.memory (frameAddress s)) := by
  have held := frame_held at'.stack at'.frame
  rw [frameWords_of_agree agree] at held
  have words := words_of_wordsAt held rfl
  simp only [savedRegisters, Registers.words, List.map_cons, List.map_nil, List.cons_append,
    List.nil_append, List.cons.injEq] at words
  obtain ⟨_, edi, esi, ebp, _, ebx, edx, ecx, eax, intNo, errCode, eip, cs, eflags, _⟩ := words
  refine ⟨intNo, errCode, eip, cs, eflags, ?_⟩
  rw [edi, esi, ebp, ebx, edx, ecx, eax]
  have regs := at'.general
  simp [regs]

/-- A shifted frame is right only if the interrupted flags are the error code's 0. -/
theorem AtHandler.not_frameRight (at' : AtHandler build e saved s)
    (disagree : pushesErrorCode e.vector ≠ processorPushesErrorCode e.vector) :
    ¬ FrameRight e (Registers.load s.memory (frameAddress s)) := by
  intro right
  obtain ⟨stub, processor⟩ := codes_of_disagree disagree
  have held := wordsAt_take (frame_held at'.stack at'.frame) 14
  rw [frameWords, stub, processor] at held
  have words := words_of_wordsAt held rfl
  simp only [savedRegisters, Registers.words, List.map_cons, List.map_nil, List.cons_append,
    List.nil_append, List.take_succ_cons, List.cons.injEq] at words
  obtain ⟨_, _, _, _, _, _, _, _, _, _, errCode, eip, cs, eflags, _⟩ := words
  have pushed := right.errCode
  rw [processor, errCode] at pushed
  have zero : e.cpu.eflags = 0 :=
    calc e.cpu.eflags = (e.cpu.seg .cs).setWidth 32 := right.eflags.symm.trans eflags
      _ = e.cpu.eip := right.cs.symm.trans cs
      _ = e.errorCode := right.eip.symm.trans eip
      _ = 0 := pushed.symm
  have reserved := e.reservedFlag
  rw [zero] at reserved
  cases reserved

theorem AtHandler.resumed (at' : AtHandler build e saved s)
    (agree : pushesErrorCode e.vector = processorPushesErrorCode e.vector)
    (returned : ReturnsUnmodified build s) :
    (exec (environment build) (.addEsp 4 :: restoreAndReturn)
      (callFunction build .isrHandler s)).cpu = e.cpu := by
  have ss : (callFunction build .isrHandler s).cpu.seg .ss = e.cpu.seg .ss := returned.ss.trans at'.ss
  have length : (frameWords e saved).length = 14 := by
    rw [frameWords_of_agree agree]
    rfl
  have stack := returned_stack at'.stack at'.frame length
    (show (callFunction build .isrHandler s).sp = s.sp + 4 from returned.sp) returned.frame
  rw [frameWords_of_agree agree] at stack
  exact resume_spec (environment build) e.dataSegments at'.general ss stack

theorem faithful_iff (build : Build) (before : System) (devices : Devices) (e : Exception) :
    Faithful build { interruptsInitialize build before with devices } e ↔
      pushesErrorCode e.vector = processorPushesErrorCode e.vector := by
  obtain ⟨entered, enters, atEntry⟩ := enterException_spec build before devices e
  obtain ⟨saved, at'⟩ : ∃ saved, AtHandler build e saved _ := entrySequence_spec atEntry
  constructor
  · rintro ⟨stub, entered', atHandler, enters', called, right, _⟩
    rw [enters] at enters'
    cases enters'
    rw [isr_calls] at called
    cases called
    by_contra disagree
    exact at'.not_frameRight disagree right
  · intro agree
    refine ⟨_, _, _, enters, isr_calls build e.vector entered, at'.frameRight agree, ?_⟩
    intro _ returned
    rw [isr_code, stub_exec]
    exact at'.resumed agree returned

/-- Every exception is passed to its handler as it was and resumed as it was, except the
alignment check and the control protection exception. -/
theorem exceptions_faithful_iff (build : Build) (before : System) (devices : Devices)
    (e : Exception) :
    Faithful build { interruptsInitialize build before with devices } e ↔
      e.vector ≠ 17 ∧ e.vector ≠ 21 :=
  (faithful_iff build before devices e).trans (pushes_agree_iff e.vector)

/-- An alignment check in a kernel that runs on its own segments. -/
def alignmentCheck : Exception where
  vector := 17
  errorCode := 0
  cpu := ⟨fun _ => 0x9000, fun sreg => if sreg = .cs then 0x08 else 0x10, 0x100000, 0x202⟩
  memory _ := 0
  dataSegments := by decide
  reservedFlag := by decide

/-- Its frame has the error code in the place of the interrupted instruction. -/
theorem alignment_check_unfaithful :
    ¬ Faithful someBuild (start someBuild ⟨fun _ => ⟨0, 0, 0, 0, 0⟩, 0⟩ somePics).system
      alignmentCheck := by
  intro faithful
  have agree := (faithful_iff someBuild _ _ alignmentCheck).mp faithful
  have disagree : pushesErrorCode 17 ≠ processorPushesErrorCode 17 := by decide
  exact disagree agree

end SzOS.Kernel.Interrupts
