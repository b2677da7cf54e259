import SzOS.Kernel.Interrupts
import SzOS.Kernel.Tty
import SzOS.Semantics.DigitArray
import SzOS.Semantics.Numerals

/-! The PANIC line of the kernel (arch/i386/cpu/isr.c).

`terminal_putchar` is a parameter: what the functions do with the terminal is
the sequence of bytes that they pass to it, whatever it does with them.
-/

set_option autoImplicit false

namespace SzOS.Kernel.Panic
open Hardware.I386 (Word)
open Interrupts (Registers)
open Libc Semantics

section Printing

variable {S : Type} (putchar : S → UInt8 → Option S)

def writestring (state : S) (data : CString) : Option S :=
  (strlen data.object).bind fun size => run putchar state (data.object.take size)

/-- `'0' + (n % 10)`, stored in a `char`. -/
def digitChar (digit : Word) : UInt8 := UInt8.ofBitVec ((48 + digit).setWidth 8)

/-- `digits` is the array as the call finds it. -/
def writeUint (bound : Nat) (digits : Vector UInt8 10) (n : Word) (state : S) : Option S :=
  if n = 0 then putchar state (digitChar 0)
  else (extractAll 10 digitChar bound ⟨n, 0, digits⟩).bind fun e => emitDown putchar e.digits e.count state

def exceptionMessages : List CString := [
  "Division By Zero", "Debug", "Non Maskable Interrupt", "Breakpoint",
  "Into Detected Overflow", "Out of Bounds", "Invalid Opcode", "No Coprocessor",
  "Double Fault", "Coprocessor Segment Overrun", "Bad TSS", "Segment Not Present",
  "Stack Fault", "General Protection Fault", "Page Fault", "Unknown Interrupt",
  "Coprocessor Fault", "Alignment Check", "Machine Check", "SIMD Floating-Point",
  "Reserved", "Reserved", "Reserved", "Reserved",
  "Reserved", "Reserved", "Reserved", "Reserved",
  "Reserved", "Reserved", "Reserved", "Reserved"].map CString.literal

/-- The branch of `isr_handler` for an exception that has no handler; the arrays of the two calls
of `write_uint` hold what the stack held. -/
def printPanic (bound : Nat) (first second : Vector UInt8 10) (regs : Registers) (state : S) : Option S := do
  let state ← writestring putchar state (CString.literal "\nPANIC: ")
  let message ← exceptionMessages[regs.intNo.toNat]?
  let state ← writestring putchar state message
  let state ← writestring putchar state (CString.literal " (interrupt ")
  let state ← writeUint putchar bound first regs.intNo state
  let state ← writestring putchar state (CString.literal ", error code ")
  let state ← writeUint putchar bound second regs.errCode state
  writestring putchar state (CString.literal ")\n")

/-- How `isr_handler` ends: back in the stub, or in the loop of `hlt`. -/
inductive Ended (S : Type) where
  | returned (state : S)
  | halted (state : S)

/-- A handler is null or acts on what the kernel prints to. -/
def isrHandler (handlers : Vector (Option (Registers → S → Option S)) 256) (bound : Nat)
    (first second : Vector UInt8 10) (regs : Registers) (state : S) : Option (Ended S) := do
  match ← handlers[regs.intNo.toNat]? with
  | some handler => (handler regs state).map .returned
  | none =>
    if regs.intNo < 32 then (printPanic putchar bound first second regs state).map .halted
    else some (.returned state)

/-! ## Strings and numbers -/

theorem terminalWritestring_eq (bound : Nat) :
    Tty.terminalWritestring bound = writestring (Tty.terminalPutchar bound) := rfl

theorem writestring_run (state : S) (data : CString) :
    writestring putchar state data = run putchar state data.bytes := by
  rw [writestring, strlen_object]
  simp [CString.object]

theorem digitChar_eq {digit : Nat} (small : digit < 10) :
    digitChar (BitVec.ofNat 32 digit) = digitByte digit := by
  apply UInt8.toNat_inj.mp
  rw [toNat_digitByte small, digitChar, UInt8.toNat_ofBitVec, BitVec.toNat_setWidth, BitVec.toNat_add,
    BitVec.toNat_ofNat]
  have zero : (48 : Word).toNat = 48 := rfl
  omega

theorem ten_radix : 1 < (10 : Word).toNat := by decide

/-- The ten cells are enough, and the digits come out as the numeral. -/
theorem writeUint_run {bound : Nat} (enough : 10 < bound) (digits : Vector UInt8 10) (n : Word) (state : S) :
    writeUint putchar bound digits n state = run putchar state (plainNumeral n.toNat) := by
  unfold writeUint
  by_cases zero : n = 0
  · subst zero
    rw [if_pos rfl, show plainNumeral (0 : Word).toNat = [digitChar 0] from rfl, run_cons]
    simp
  · have positive : n.toNat ≠ 0 := fun none => zero (BitVec.eq_of_toNat_eq none)
    have ten := digits_length_word n
    have numeral : ((Nat.digits 10 n.toNat).map fun d => digitChar (BitVec.ofNat 32 d)).reverse =
        plainNumeral n.toNat := by
      rw [plainNumeral, lowDigits, if_neg positive]
      congr 1
      exact List.map_congr_left fun d member => digitChar_eq (Nat.digits_lt_base (by decide) member)
    rw [if_neg zero, ← numeral]
    exact extractAll_emitDown digitChar putchar ten_radix digits ten (Nat.lt_of_le_of_lt ten enough) state

/-! ## The line -/

/-- The bytes of a PANIC line. -/
def panicLine (message : CString) (intNo errCode : Nat) : List UInt8 :=
  (CString.literal "\nPANIC: ").bytes ++ message.bytes ++ (CString.literal " (interrupt ").bytes ++
    plainNumeral intNo ++ (CString.literal ", error code ").bytes ++ plainNumeral errCode ++
    (CString.literal ")\n").bytes

/-- Read the two numbers of a PANIC line, starting at its end. -/
def readBack (line : List UInt8) : Nat × Nat :=
  let (errCode, before) := readLast (line.reverse.drop 2)
  let (intNo, _) := readLast (before.drop 13)
  (intNo, errCode)

theorem readBack_panicLine (message : CString) (intNo errCode : Nat) :
    readBack (panicLine message intNo errCode) = (intNo, errCode) := by
  -- the three texts around the numbers, from their ends
  have tail : (CString.literal ")\n").bytes.reverse = [0x0A, 0x29] := by decide
  have middle : (CString.literal ", error code ").bytes.reverse =
      [0x20, 0x65, 0x64, 0x6F, 0x63, 0x20, 0x72, 0x6F, 0x72, 0x72, 0x65, 0x20, 0x2C] := by decide
  have head : (CString.literal " (interrupt ").bytes.reverse =
      [0x20, 0x74, 0x70, 0x75, 0x72, 0x72, 0x65, 0x74, 0x6E, 0x69, 0x28, 0x20] := by decide
  have space : ¬ IsDigit 0x20 := by decide
  simp only [readBack, panicLine, List.reverse_append, tail, middle, head, List.cons_append,
    List.nil_append, List.drop_succ_cons, List.drop_zero, readLast_plainNumeral _ space]

theorem printPanic_message {bound : Nat} (enough : 10 < bound) (first second : Vector UInt8 10)
    {regs : Registers} {message : CString} (found : exceptionMessages[regs.intNo.toNat]? = some message)
    (state : S) :
    printPanic putchar bound first second regs state =
      run putchar state (panicLine message regs.intNo.toNat regs.errCode.toNat) := by
  unfold printPanic panicLine
  simp only [Option.bind_eq_bind, writestring_run, writeUint_run putchar enough, run_append, found,
    Option.bind_some, Option.bind_assoc]

theorem printPanic_run {bound : Nat} (enough : 10 < bound) (first second : Vector UInt8 10)
    {regs : Registers} (exception : regs.intNo < 32) (state : S) :
    ∃ message, printPanic putchar bound first second regs state =
      run putchar state (panicLine message regs.intNo.toNat regs.errCode.toNat) := by
  have count : exceptionMessages.length = 32 := by decide
  have inside : regs.intNo.toNat < exceptionMessages.length := by
    rw [count]
    exact BitVec.lt_def.mp exception
  exact ⟨_, printPanic_message putchar enough first second (List.getElem?_eq_getElem inside) state⟩

end Printing

/-- Take down the bytes. -/
def record (out : List UInt8) (c : UInt8) : Option (List UInt8) := some (out ++ [c])

theorem run_record (out bytes : List UInt8) : run record out bytes = some (out ++ bytes) := by
  induction bytes generalizing out with
  | nil => simp
  | cons c bytes ih =>
    rw [run_cons, record, Option.bind_some, ih, List.append_assoc]
    rfl

/-- `write_uint` passes on the numeral of every number, and the two numbers of a PANIC line
can be read off it again. -/
theorem panic_readable (bound : Nat) :
    (∀ n : Word, ∃ numeral, (PlainNumeral numeral ∧ parseDigits numeral = n.toNat) ∧
      (∀ digits out, writeUint record (bound + 11) digits n out = some (out ++ numeral)) ∧
      ∀ (S : Type) (putchar : S → UInt8 → Option S) digits state,
        writeUint putchar (bound + 11) digits n state = run putchar state numeral) ∧
    ∀ (S : Type) (putchar : S → UInt8 → Option S) handlers first second regs state,
      handlers[regs.intNo.toNat]? = some none → regs.intNo < 32 →
      ∃ line, readBack line = (regs.intNo.toNat, regs.errCode.toNat) ∧
        isrHandler putchar handlers (bound + 11) first second regs state =
          (run putchar state line).map .halted := by
  have enough : 10 < bound + 11 := by omega
  constructor
  · intro n
    refine ⟨plainNumeral n.toNat, ⟨plainNumeral_plain n.toNat, parseDigits_plainNumeral n.toNat⟩, ?_, ?_⟩
    · intro digits out
      rw [writeUint_run record enough, run_record]
    · intro S putchar digits state
      exact writeUint_run putchar enough digits n state
  · intro S putchar handlers first second regs state unhandled exception
    obtain ⟨message, printed⟩ := printPanic_run putchar enough first second exception state
    refine ⟨_, readBack_panicLine message _ _, ?_⟩
    unfold isrHandler
    rw [unhandled, ← printed]
    exact if_pos exception

end SzOS.Kernel.Panic
