import SzOS.Hardware.I386

/-! The stack of the 32-bit processor as a list of words under a fixed base.

A push puts a word at the head and a pop takes it away; the base recovers the stack
pointer from the number of words, also where addresses wrap around.
-/

set_option autoImplicit false

namespace SzOS.Hardware.I386
open Semantics

attribute [ext] Cpu

/-! ## Words in memory -/

/-- The words from an address up. -/
def wordsAt (memory : Memory) (address : Word) : List Word → Prop
  | [] => True
  | word :: rest => load32 memory address = word ∧ wordsAt memory (address + 4) rest

theorem wordsAt_unique {memory : Memory} {address : Word} {first second : List Word}
    (length : first.length = second.length) (one : wordsAt memory address first)
    (other : wordsAt memory address second) : first = second := by
  induction first generalizing address second with
  | nil => exact (List.length_eq_zero_iff.mp length.symm).symm
  | cons word rest ih =>
    cases second with
    | nil => cases length
    | cons word' rest' =>
      rw [← one.1, ← other.1, ih (Nat.succ.inj length) one.2 other.2]

theorem wordsAt_take {memory : Memory} {address : Word} {words : List Word}
    (held : wordsAt memory address words) (length : Nat) :
    wordsAt memory address (words.take length) := by
  induction words generalizing address length with
  | nil => rwa [List.take_nil]
  | cons word rest ih =>
    cases length with
    | zero => trivial
    | succ length => exact ⟨held.1, ih held.2 length⟩

/-- A store before the words leaves them, unless they reach around to it. -/
theorem wordsAt_store32 {memory : Memory} {place address value : Word} {words : List Word}
    (held : wordsAt memory address words) (after : 4 ≤ (address - place).toNat)
    (before : (address - place).toNat + 4 * words.length ≤ 2 ^ 32) :
    wordsAt (store32 memory place value) address words := by
  induction words generalizing address with
  | nil => trivial
  | cons word rest ih =>
    rw [List.length_cons] at before
    refine ⟨(load32_store32_apart memory value after ?_).trans held.1, ?_⟩
    · bv_omega
    · cases rest with
      | nil => trivial
      | cons next rest =>
        have further : (address + 4 - place).toNat = (address - place).toNat + 4 := by
          rw [List.length_cons] at before
          bv_omega
        apply ih held.2 <;> rw [further] <;> omega

/-! ## What is kept -/

/-- The memory is the same but for so many bytes directly below the base. -/
def Kept (base : Word) (used : Nat) (before after : Memory) : Prop :=
  ∀ a, (a - base).toNat + used < 2 ^ 32 → after a = before a

section Kept

variable {base : Word} {used more : Nat} {before between after : Memory}

theorem Kept.refl (base : Word) (used : Nat) (memory : Memory) : Kept base used memory memory :=
  fun _ _ => rfl

theorem Kept.trans (first : Kept base used before between) (second : Kept base used between after) :
    Kept base used before after :=
  fun a outside => (second a outside).trans (first a outside)

theorem Kept.mono (kept : Kept base used before after) (enough : used ≤ more) :
    Kept base more before after :=
  fun a outside => kept a (by omega)

/-- Where the bytes used do not reach below address 0, none of them is above the base. -/
theorem Kept.above (kept : Kept base used before after) (room : used ≤ base.toNat) {a : Word}
    (above : base ≤ a) : after a = before a := by
  apply kept
  have offset : (a - base).toNat = a.toNat - base.toNat := BitVec.toNat_sub_of_le above
  have bound := a.isLt
  have least := BitVec.le_def.mp above
  omega

end Kept

/-! ## Pushes and pops -/

variable {D F : Type*}

/-- The words on the stack, last pushed first, down from the base. -/
structure State.Stack (s : State D) (base : Word) (words : List Word) : Prop where
  sp : s.sp + BitVec.ofNat 32 (4 * words.length) = base
  held : wordsAt s.memory s.sp words

@[simp] theorem drop_sp (s : State D) : s.drop.sp = s.sp + 4 :=
  Function.update_self Reg.esp _ s.cpu.reg

namespace State.Stack

variable {s t : State D} {base value : Word} {words : List Word}

theorem empty (s : State D) : s.Stack s.sp [] := ⟨BitVec.add_zero s.sp, trivial⟩

theorem single (s : State D) : s.Stack (s.sp + 4) [s.top] := ⟨rfl, rfl, trivial⟩

theorem sp_nil (stack : s.Stack base []) : s.sp = base := by
  have sp := stack.sp
  rwa [List.length_nil, Nat.mul_zero, BitVec.add_zero] at sp

theorem congr (stack : s.Stack base words) (memory : t.memory = s.memory)
    (sp : t.cpu.reg .esp = s.cpu.reg .esp) : t.Stack base words := by
  have same : t.sp = s.sp := sp
  exact ⟨same ▸ stack.sp, by rw [memory, same]; exact stack.held⟩

theorem sp_cons {s : State D} {base : Word} {length : Nat}
    (sp : s.sp + BitVec.ofNat 32 (4 * (length + 1)) = base) :
    s.sp + 4 + BitVec.ofNat 32 (4 * length) = base := by
  rw [Nat.mul_add, BitVec.ofNat_add] at sp
  rw [← sp, BitVec.add_assoc, BitVec.add_comm 4]
  rfl

theorem push (stack : s.Stack base words) (fits : 4 * words.length + 4 ≤ 2 ^ 32) (value : Word) :
    (s.push value).Stack base (value :: words) where
  sp := by
    rw [push_sp, List.length_cons, Nat.mul_add, BitVec.ofNat_add, ← stack.sp]
    show s.sp - 4 + (_ + 4) = _
    rw [BitVec.add_comm _ 4, ← BitVec.add_assoc, BitVec.sub_add_cancel]
  held := by
    refine ⟨push_top s value, ?_⟩
    rw [push_sp, BitVec.sub_add_cancel]
    have offset : (s.sp - (s.sp - 4)).toNat = 4 := by bv_omega
    apply wordsAt_store32 stack.held
    · exact Nat.le_of_eq offset.symm
    · rw [offset]
      omega

theorem pushAll (stack : s.Stack base words) {values : List Word}
    (fits : 4 * (values.length + words.length) ≤ 2 ^ 32) :
    (I386.pushAll s values).Stack base (values.reverse ++ words) := by
  induction values generalizing s words with
  | nil => exact stack
  | cons value rest ih =>
    rw [List.length_cons] at fits
    have pushed := stack.push (by omega) value
    rw [List.reverse_cons, List.append_assoc]
    apply ih pushed
    rw [List.length_cons]
    omega

theorem push_kept (stack : s.Stack base words) (value : Word) :
    Kept base (4 * (words.length + 1)) s.memory (s.push value).memory := by
  intro a outside
  have sp := stack.sp
  show store32 s.memory (s.sp - 4) value a = s.memory a
  unfold store32
  apply if_neg
  have below : s.sp = base - BitVec.ofNat 32 (4 * words.length) := by rw [← sp, BitVec.add_sub_cancel]
  rw [below]
  bv_omega

theorem pushAll_kept (stack : s.Stack base words) {values : List Word}
    (fits : 4 * (values.length + words.length) ≤ 2 ^ 32) :
    Kept base (4 * (values.length + words.length)) s.memory (I386.pushAll s values).memory := by
  induction values generalizing s words with
  | nil => exact Kept.refl _ _ _
  | cons value rest ih =>
    rw [List.length_cons] at fits
    have first := stack.push_kept value
    have later := ih (stack.push (by omega) value) (by rw [List.length_cons]; omega)
    rw [List.length_cons] at later ⊢
    exact (first.mono (by omega)).trans (later.mono (by omega))

theorem top (stack : s.Stack base (value :: words)) : s.top = value := stack.held.1

theorem drop (stack : s.Stack base (value :: words)) : s.drop.Stack base words := by
  refine ⟨?_, ?_⟩
  · rw [drop_sp]
    exact sp_cons stack.sp
  · rw [drop_sp]
    exact stack.held.2

end State.Stack

/-- The word below the one just pushed. -/
theorem push_second (s : State D) (value : Word) :
    load32 (s.push value).memory ((s.push value).sp + 4) = s.top := by
  have room : 4 * 1 + 4 ≤ 2 ^ 32 := by decide
  have pushed := (State.Stack.single s).push room value
  exact pushed.held.2.1

/-! ## Instructions -/

@[simp] theorem withLow16_setWidth (word : Word) (low : BitVec 16) :
    (withLow16 word low).setWidth 16 = low :=
  BitVec.setWidth_append_eq_right

@[simp] theorem push_seg (s : State D) (value : Word) : (s.push value).cpu.seg = s.cpu.seg := rfl

theorem step_movFromSeg_seg (env : Environment F D) (s : State D) (r : Reg) (sreg : Seg) :
    (step env s (.movFromSeg r sreg)).cpu.seg = s.cpu.seg := rfl

/-- The registers as `pusha` leaves them, from the lowest address up. -/
def savedRegisters (s : State D) : List Word :=
  [.edi, .esi, .ebp, .esp, .ebx, .edx, .ecx, .eax].map s.cpu.reg

theorem step_pusha (env : Environment F D) {s : State D} {base : Word} {words : List Word}
    (stack : s.Stack base words) (fits : 4 * (8 + words.length) ≤ 2 ^ 32) :
    (step env s .pusha).Stack base (savedRegisters s ++ words) ∧
      (step env s .pusha).cpu.seg = s.cpu.seg ∧
      ∀ r, r ≠ .esp → (step env s .pusha).cpu.reg r = s.cpu.reg r := by
  have pushed : step env s .pusha =
      pushAll s ((savedRegisters s).reverse) := rfl
  have length : (savedRegisters s).reverse.length = 8 := rfl
  have saved : (pushAll s (savedRegisters s).reverse).Stack base _ :=
    stack.pushAll (by rw [length]; exact fits)
  rw [List.reverse_reverse] at saved
  rw [pushed]
  refine ⟨saved, pushAll_seg s _, ?_⟩
  intro r other
  exact pushAll_reg s _ other

theorem step_pusha_kept (env : Environment F D) {s : State D} {base : Word} {words : List Word}
    (stack : s.Stack base words) (fits : 4 * (8 + words.length) ≤ 2 ^ 32) :
    Kept base (4 * (8 + words.length)) s.memory (step env s .pusha).memory := by
  have length : (savedRegisters s).reverse.length = 8 := rfl
  have kept := stack.pushAll_kept (by rw [length]; exact fits)
  rw [length] at kept
  exact kept

theorem popInto_stack {s : State D} {base value : Word} {words : List Word}
    (stack : s.Stack base (value :: words)) (target : Option Reg) (notEsp : target ≠ some .esp) :
    (popInto s target).Stack base words := by
  cases target with
  | none => exact stack.drop
  | some r =>
    have other : Reg.esp ≠ r := fun same => notEsp (congrArg some same.symm)
    exact stack.drop.congr rfl (Function.update_of_ne other _ _)

theorem popInto_seg (s : State D) (target : Option Reg) : (popInto s target).cpu.seg = s.cpu.seg := by
  cases target <;> rfl

theorem popInto_reg {s : State D} {target : Option Reg} {r : Reg} (notEsp : r ≠ .esp) :
    (popInto s target).cpu.reg r = if target = some r then s.top else s.cpu.reg r := by
  have dropped : s.drop.cpu.reg r = s.cpu.reg r := Function.update_of_ne notEsp _ _
  cases target with
  | none => exact dropped
  | some own =>
    by_cases same : own = r
    · subst same
      rw [if_pos rfl]
      exact Function.update_self _ _ _
    · rw [if_neg fun equal => same (Option.some.inj equal)]
      exact (Function.update_of_ne (Ne.symm same) _ _).trans dropped

/-- A sequence of pops that finds the saved registers. -/
theorem popAll_spec {targets : List (Option Reg)} (notEsp : ∀ target ∈ targets, target ≠ some .esp)
    (saved : Option Reg → Word) {s : State D} {base : Word} {words : List Word}
    (stack : s.Stack base (targets.map saved ++ words)) :
    (targets.foldl popInto s).Stack base words ∧
      (targets.foldl popInto s).cpu.seg = s.cpu.seg ∧
      ∀ r, r ≠ .esp → (some r ∈ targets ∨ s.cpu.reg r = saved (some r)) →
        (targets.foldl popInto s).cpu.reg r = saved (some r) := by
  induction targets generalizing s with
  | nil =>
    refine ⟨stack, rfl, ?_⟩
    rintro r _ (member | already)
    · exact absurd member List.not_mem_nil
    · exact already
  | cons target rest ih =>
    obtain ⟨first, later⟩ := List.forall_mem_cons.mp notEsp
    have popped := popInto_stack stack target first
    obtain ⟨left, seg, regs⟩ := ih later popped
    refine ⟨left, seg.trans (popInto_seg s target), ?_⟩
    intro r other found
    apply regs r other
    rw [popInto_reg other, stack.top]
    -- a register already right may be popped again, from the same saved word
    rcases found with member | already
    · rcases List.mem_cons.mp member with same | inRest
      · right
        rw [if_pos same.symm, same]
      · exact Or.inl inRest
    · right
      split
      next same => rw [same]
      next => exact already

theorem step_quiet_stack (env : Environment F D) {s : State D} {base : Word} {words : List Word}
    (stack : s.Stack base words) {i : Instr F} (quiet : i.isQuiet = true) :
    (step env s i).Stack base words := by
  cases i with
  | cli => exact stack.congr rfl rfl
  | sti => exact stack.congr rfl rfl
  | movToSeg sreg r => exact stack.congr rfl rfl
  | movFromSeg r sreg =>
    exact stack.congr rfl (Function.update_of_ne (Ne.symm (of_decide_eq_true quiet)) _ _)
  | movImm16 r value =>
    exact stack.congr rfl (Function.update_of_ne (Ne.symm (of_decide_eq_true quiet)) _ _)
  | _ => cases quiet

theorem exec_quiet_stack (env : Environment F D) {code : List (Instr F)}
    (quiet : ∀ i ∈ code, i.isQuiet = true) {s : State D} {base : Word} {words : List Word}
    (stack : s.Stack base words) : (exec env code s).Stack base words := by
  induction code generalizing s with
  | nil => exact stack
  | cons i rest ih =>
    obtain ⟨first, later⟩ := List.forall_mem_cons.mp quiet
    exact ih later (step_quiet_stack env stack first)

theorem exec_quiet_memory (env : Environment F D) {code : List (Instr F)}
    (quiet : ∀ i ∈ code, i.isQuiet = true) (s : State D) : (exec env code s).memory = s.memory := by
  induction code generalizing s with
  | nil => rfl
  | cons i rest ih =>
    obtain ⟨first, later⟩ := List.forall_mem_cons.mp quiet
    have kept : (step env s i).memory = s.memory := by
      cases i <;> first | rfl | cases first
    exact (ih later (step env s i)).trans kept

theorem exec_quiet_top (env : Environment F D) {code : List (Instr F)}
    (quiet : ∀ i ∈ code, i.isQuiet = true) (s : State D) : (exec env code s).top = s.top :=
  (exec_quiet_stack env quiet (State.Stack.single s)).top

/-- `addl` to the stack pointer drops the words it passes. -/
theorem step_addEsp_stack (env : Environment F D) {s : State D} {base : Word}
    (dropped : List Word) {words : List Word} (stack : s.Stack base (dropped ++ words)) :
    (step env s (.addEsp (BitVec.ofNat 32 (4 * dropped.length)))).Stack base words := by
  have sp : (step env s (.addEsp (BitVec.ofNat 32 (4 * dropped.length)))).sp =
      s.sp + BitVec.ofNat 32 (4 * dropped.length) := Function.update_self Reg.esp _ s.cpu.reg
  constructor
  · rw [sp, ← stack.sp, List.length_append, Nat.mul_add, BitVec.ofNat_add, BitVec.add_assoc]
  · rw [sp]
    have held : wordsAt s.memory s.sp (dropped ++ words) := stack.held
    show wordsAt s.memory _ words
    clear sp stack
    generalize s.sp = address at held
    induction dropped generalizing address with
    | nil => rwa [List.length_nil, Nat.mul_zero, BitVec.add_zero]
    | cons word rest ih =>
      rw [List.length_cons, Nat.mul_add, BitVec.ofNat_add, BitVec.add_comm _ 4#32, ← BitVec.add_assoc]
      exact ih _ held.2

theorem step_addEsp_reg (env : Environment F D) (s : State D) (value : Word) {r : Reg}
    (other : r ≠ .esp) : (step env s (.addEsp value)).cpu.reg r = s.cpu.reg r :=
  Function.update_of_ne other _ _

theorem step_addEsp_seg (env : Environment F D) (s : State D) (value : Word) :
    (step env s (.addEsp value)).cpu.seg = s.cpu.seg := rfl

theorem step_sti_reg (env : Environment F D) (s : State D) : (step env s .sti).cpu.reg = s.cpu.reg := rfl

theorem step_sti_seg (env : Environment F D) (s : State D) : (step env s .sti).cpu.seg = s.cpu.seg := rfl

theorem step_pop (env : Environment F D) (s : State D) (r : Reg) :
    step env s (.pop r) = popInto s (some r) := rfl

/-- `popa` finds what `pusha` left, apart from the stack pointer. -/
theorem step_popa (env : Environment F D) {s saved : State D} {base : Word} {words : List Word}
    (stack : s.Stack base (savedRegisters saved ++ words)) :
    (step env s .popa).Stack base words ∧ (step env s .popa).cpu.seg = s.cpu.seg ∧
      ∀ r, r ≠ .esp → (step env s .popa).cpu.reg r = saved.cpu.reg r := by
  have pops : step env s .popa =
    [some .edi, some .esi, some .ebp, none, some .ebx, some .edx, some .ecx, some .eax].foldl
      popInto s := rfl
  have words : savedRegisters saved =
    [some .edi, some .esi, some .ebp, none, some .ebx, some .edx, some .ecx, some .eax].map
      fun target => saved.cpu.reg (target.getD .esp) := rfl
  rw [words] at stack
  obtain ⟨left, seg, regs⟩ := popAll_spec (by decide) _ stack
  rw [pops]
  refine ⟨left, seg, ?_⟩
  intro r other
  apply regs r other
  left
  cases r <;> simp at other ⊢

/-- What `iret` takes from the stack. -/
theorem step_iret (env : Environment F D) {s : State D} {base eip cs eflags : Word}
    {words : List Word} (stack : s.Stack base (eip :: cs :: eflags :: words)) :
    (step env s .iret).Stack base words ∧
      (step env s .iret).cpu.eip = eip ∧ (step env s .iret).cpu.eflags = eflags ∧
      (step env s .iret).cpu.seg = Function.update s.cpu.seg .cs (cs.setWidth 16) ∧
      ∀ r, r ≠ .esp → (step env s .iret).cpu.reg r = s.cpu.reg r := by
  refine ⟨stack.drop.drop.drop.congr rfl rfl, stack.top, stack.drop.drop.top, ?_, ?_⟩
  · exact congrArg (Function.update s.cpu.seg .cs <| BitVec.setWidth 16 ·) stack.drop.top
  · intro r other
    have skipped : ∀ s : State D, s.drop.cpu.reg r = s.cpu.reg r := by
      intro s
      exact Function.update_of_ne other _ _
    exact (skipped _).trans ((skipped _).trans (skipped _))

theorem interrupt_stack {s : State D} (gate : Gate) :
    (interrupt gate s).Stack s.sp [s.cpu.eip, (s.cpu.seg .cs).setWidth 32, s.cpu.eflags] := by
  have fits : 4 * (3 + 0) ≤ 2 ^ 32 := by decide
  have pushed : (pushAll s [s.cpu.eflags, (s.cpu.seg .cs).setWidth 32, s.cpu.eip]).Stack s.sp _ :=
    (State.Stack.empty s).pushAll fits
  exact pushed.congr rfl rfl

theorem interrupt_kept {s : State D} (gate : Gate) : Kept s.sp 12 s.memory (interrupt gate s).memory := by
  have fits : 4 * ([s.cpu.eflags, (s.cpu.seg .cs).setWidth 32, s.cpu.eip].length + ([] : List Word).length) ≤
      2 ^ 32 := show 4 * (3 + 0) ≤ 2 ^ 32 by decide
  exact (State.Stack.empty s).pushAll_kept fits

/-! ## Calls -/

/-- The calls that a run makes, each with the state at the function's first instruction. -/
def calls (env : Environment F D) : List (Instr F) → State D → List (F × State D)
  | [], _ => []
  | .call function :: rest, s =>
    (function, s.push (env.returnAddress function)) :: calls env rest (step env s (.call function))
  | i :: rest, s => calls env rest (step env s i)

def Instr.isCall : Instr F → Bool
  | .call _ => true
  | _ => false

theorem calls_append_of_callFree (env : Environment F D) {code : List (Instr F)}
    (callFree : ∀ i ∈ code, i.isCall = false) (rest : List (Instr F)) (s : State D) :
    calls env (code ++ rest) s = calls env rest (exec env code s) := by
  induction code generalizing s with
  | nil => rfl
  | cons i code ih =>
    obtain ⟨first, later⟩ := List.forall_mem_cons.mp callFree
    cases i with
    | call function => cases first
    | _ => exact ih later _

theorem calls_of_callFree (env : Environment F D) {code : List (Instr F)}
    (callFree : ∀ i ∈ code, i.isCall = false) (s : State D) : calls env code s = [] := by
  have all := calls_append_of_callFree env callFree [] s
  rwa [List.append_nil] at all

end SzOS.Hardware.I386
