import SzOS.Hardware.Stack

/-! The code around a C handler: what an interrupt stub saves on the stack, and what it
takes back before its `iret`.
-/

set_option autoImplicit false

namespace SzOS.Hardware.I386
open Semantics

variable {D F : Type*}

theorem wordsAt_getElem {memory : Memory} {address : Word} {words : List Word}
    (held : wordsAt memory address words) {k : Nat} (inside : k < words.length) :
    load32 memory (address + BitVec.ofNat 32 (4 * k)) = words[k] := by
  induction words generalizing address k with
  | nil => exact absurd inside (Nat.not_lt_zero k)
  | cons word rest ih =>
    cases k with
    | zero =>
      rw [Nat.mul_zero, BitVec.add_zero]
      exact held.1
    | succ k =>
      rw [Nat.mul_succ, Nat.add_comm, BitVec.ofNat_add, ← BitVec.add_assoc]
      exact ih held.2 (Nat.lt_of_succ_lt_succ inside)

theorem pushAll_devices (s : State D) (values : List Word) :
    (pushAll s values).devices = s.devices := by
  induction values generalizing s with
  | nil => rfl
  | cons value rest ih => exact ih (s.push value)

def pushState : List (Instr F) := [.pusha, .movFromSeg .eax .ds, .push .eax]

def loadSegments : List (Instr F) :=
  [.movToSeg .ds .eax, .movToSeg .es .eax, .movToSeg .fs .eax, .movToSeg .gs .eax]

def popState : List (Instr F) := .pop .eax :: loadSegments ++ [.popa, .addEsp 8, .sti, .iret]

/-- Segment registers of a program whose data segments are all the same. -/
def flatSegments (cs ss data : BitVec 16) : Seg → BitVec 16
  | .cs => cs
  | .ss => ss
  | _ => data

theorem flatSegments_eq {seg : Seg → BitVec 16} (same : ∀ sreg ∈ [Seg.es, .fs, .gs], seg sreg = seg .ds) :
    flatSegments (seg .cs) (seg .ss) (seg .ds) = seg := by
  funext sreg
  cases sreg with
  | cs => rfl
  | ss => rfl
  | ds => rfl
  | es => exact (same .es (by decide)).symm
  | fs => exact (same .fs (by decide)).symm
  | gs => exact (same .gs (by decide)).symm

section Frames

variable (env : Environment F D) {s : State D} {base : Word} {words : List Word}

theorem exec_pushImms (values : List Word) (s : State D) :
    exec env (values.map .pushImm) s = pushAll s values := by
  induction values generalizing s with
  | nil => rfl
  | cons value rest ih => exact ih (s.push value)

theorem pushState_stack (stack : s.Stack base words) (fits : words.length ≤ 16) :
    (exec env pushState s).Stack base
        (withLow16 (s.cpu.reg .eax) (s.cpu.seg .ds) :: savedRegisters s ++ words) ∧
      (exec env pushState s).cpu.seg = s.cpu.seg := by
  obtain ⟨saved, seg, regs⟩ := step_pusha env stack (by omega)
  have quiet : (Instr.movFromSeg .eax .ds : Instr F).isQuiet = true := rfl
  have moved := step_quiet_stack env saved quiet
  have data := step_movFromSeg env (step env s .pusha) .eax .ds
  rw [seg, regs .eax (by decide)] at data
  have eight : (savedRegisters s ++ words).length = 8 + words.length := List.length_append
  rw [pushState, exec_cons, exec_cons, exec_cons, exec_nil, step_push, data, List.cons_append]
  refine ⟨moved.push (by omega) _, ?_⟩
  rw [push_seg, step_movFromSeg_seg, seg]

theorem loadSegments_quiet : ∀ i ∈ (loadSegments : List (Instr F)), i.isQuiet = true := by
  simp [loadSegments, Instr.isQuiet]

theorem loadSegments_seg (s : State D) :
    (exec env loadSegments s).cpu.seg =
      flatSegments (s.cpu.seg .cs) (s.cpu.seg .ss) ((s.cpu.reg .eax).setWidth 16) := by
  funext sreg
  cases sreg <;> rfl

/-- The data segment, the registers, two words of no further use and the return state. -/
theorem popState_spec {saved : State D} {ds first second eip cs eflags : Word} {rest : List Word}
    (stack : s.Stack base (ds :: (savedRegisters saved ++
      (first :: second :: eip :: cs :: eflags :: rest)))) :
    (exec env popState s).Stack base rest ∧
      (exec env popState s).cpu.eip = eip ∧ (exec env popState s).cpu.eflags = eflags ∧
      (∀ r, r ≠ .esp → (exec env popState s).cpu.reg r = saved.cpu.reg r) ∧
      (exec env popState s).cpu.seg =
        flatSegments (cs.setWidth 16) (s.cpu.seg .ss) (ds.setWidth 16) := by
  have popped := popInto_stack stack (some .eax) (by decide)
  have eax : (popInto s (some .eax)).cpu.reg .eax = ds := by
    rw [popInto_reg (by decide), if_pos rfl, stack.top]
  have seg := popInto_seg s (some .eax)
  rw [popState, List.cons_append, exec_cons, exec_append, step_pop]
  generalize popInto s (some .eax) = inKernel at popped eax seg
  have loaded := exec_quiet_stack env loadSegments_quiet popped
  have data := loadSegments_seg env inKernel
  rw [eax, seg] at data
  generalize exec env loadSegments inKernel = inOld at loaded data
  obtain ⟨general, generalSegs, regs⟩ := step_popa env loaded
  rw [exec_cons, exec_cons, exec_cons, exec_cons, exec_nil]
  generalize step env inOld .popa = restored at general generalSegs regs
  have atReturn : (step env restored (.addEsp 8)).Stack base _ :=
    step_addEsp_stack env [first, second] general
  have returnRegs := fun r other => step_addEsp_reg env restored 8 (r := r) other
  have returnSegs := step_addEsp_seg env restored 8
  generalize step env restored (.addEsp 8) = returning at atReturn returnRegs returnSegs
  have enabled : (step env returning .sti).Stack base _ := atReturn.congr rfl rfl
  obtain ⟨left, eipRight, eflagsRight, segRight, regRight⟩ := step_iret env enabled
  refine ⟨left, eipRight, eflagsRight, ?_, ?_⟩
  · intro r other
    rw [regRight r other, step_sti_reg, returnRegs r other, regs r other]
  · rw [segRight, step_sti_seg, returnSegs, generalSegs, data]
    funext sreg
    cases sreg <;> rfl

/-- Over the frame of an interrupted processor, that processor is resumed. -/
theorem popState_resumes {cpu : Cpu} {saved : State D} {first second : Word}
    (dataSegments : ∀ sreg ∈ [Seg.es, .fs, .gs], cpu.seg sreg = cpu.seg .ds)
    (general : ∀ r, r ≠ .esp → saved.cpu.reg r = cpu.reg r) (ss : s.cpu.seg .ss = cpu.seg .ss)
    (stack : s.Stack (cpu.reg .esp) (withLow16 (cpu.reg .eax) (cpu.seg .ds) :: (savedRegisters saved ++
      [first, second, cpu.eip, (cpu.seg .cs).setWidth 32, cpu.eflags]))) :
    (exec env popState s).cpu = cpu := by
  obtain ⟨left, eip, eflags, regs, segs⟩ := popState_spec env stack
  generalize exec env popState s = final at left eip eflags regs segs
  rw [ss, withLow16_setWidth, BitVec.setWidth_setWidth_of_le _ (by decide), BitVec.setWidth_eq,
    flatSegments_eq dataSegments] at segs
  apply Cpu.ext
  · funext r
    by_cases isEsp : r = .esp
    · rw [isEsp]
      exact left.sp_nil
    · rw [regs r isEsp, general r isEsp]
  · exact segs
  · exact eip
  · exact eflags

end Frames

end SzOS.Hardware.I386
