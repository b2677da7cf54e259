import Mathlib.Data.Bool.AllAny
import SzOS.Hardware.Frames
import SzOS.Kernel.Exceptions
import SzOS.Kernel.Panic
import SzOS.Kernel.Writing

/-! What the screen shows when an exception without a handler stops the kernel.

The stub's frame has the two numbers, `isr_handler` makes the PANIC line of them, and
`terminal_putchar` puts the line on a row of its own.
-/

set_option autoImplicit false

namespace SzOS.Kernel.Panic
open Hardware Hardware.I386 Libc Semantics
open Interrupts (Registers Exception Build System Devices Stub AtHandler)
open Tty (Terminal terminalPutchar vgaWidth vgaHeight vgaEntry position cellCount InScreen Plain)

/-! ## A line between two newlines -/

def rowEntries (t : Terminal) (row n : Nat) : List UInt16 :=
  (List.range n).map fun column => t.terminalBuffer.cells (row * vgaWidth + column)

/-- The text is at the start of the row under the cursor's, and nothing else has changed on
the screen. -/
structure LineShown (w : List UInt8) (t t' : Terminal) : Prop where
  row : t'.terminalRow = (t.terminalRow + 2) % vgaHeight
  column : t'.terminalColumn = 0
  text : rowEntries t' ((t.terminalRow + 1) % vgaHeight) w.length =
    w.map fun uc => vgaEntry uc t.terminalColor
  kept : ∀ cell, cell < (t.terminalRow + 1) % vgaHeight * vgaWidth ∨
      (t.terminalRow + 1) % vgaHeight * vgaWidth + w.length ≤ cell →
    t'.terminalBuffer.cells cell = t.terminalBuffer.cells cell

section Line

variable {t home ended : Terminal} {w : List UInt8}

/-- Text from the left edge that ends in its row. -/
theorem row_printed (inside : InScreen home) (edge : home.terminalColumn = 0) (short : w.length < vgaWidth)
    (printed : Tty.Printed home ended w) :
    ended.terminalRow = home.terminalRow ∧
      rowEntries ended home.terminalRow w.length = (w.map fun uc => vgaEntry uc home.terminalColor) ∧
      ∀ cell, cell < home.terminalRow * vgaWidth ∨ home.terminalRow * vgaWidth + w.length ≤ cell →
        ended.terminalBuffer.cells cell = home.terminalBuffer.cells cell := by
  have row := inside.row
  have start : position home = home.terminalRow * vgaWidth := by rw [position, edge, Nat.add_zero]
  have inRow : ∀ j ≤ w.length,
      (position home + j) % cellCount = home.terminalRow * vgaWidth + j := by
    intro j upTo
    rw [start]
    apply Nat.mod_eq_of_lt
    unfold cellCount
    unfold vgaHeight vgaWidth at *
    omega
  refine ⟨?_, ?_, ?_⟩
  · have moved := Tty.position_printed inside printed
    have column := printed.inside.column
    rw [inRow _ (Nat.le_refl _), position] at moved
    unfold vgaWidth at *
    omega
  · have head : (Tty.tape home).head < cellCount := Tty.position_lt inside
    apply List.ext_getElem
    · simp [rowEntries]
    · intro j less less'
      have here : j < w.length := by simpa [rowEntries] using less
      have cells : ended.terminalBuffer.cells = (Tty.tape ended).cells := rfl
      have last : ∀ m, j < m → m < (w.map fun uc => vgaEntry uc home.terminalColor).length →
          m % cellCount ≠ j % cellCount := by
        intro m above inText
        rw [List.length_map] at inText
        unfold cellCount
        unfold vgaHeight
        unfold vgaWidth at short ⊢
        omega
      have put := Tape.cells_puts head less' last
      rw [show (Tty.tape home).head = position home from rfl, inRow j (Nat.le_of_lt here)] at put
      simp only [rowEntries, List.getElem_map, List.getElem_range, cells, printed.tape]
      rw [put, List.getElem_map]
  · intro cell outside
    apply Tty.cells_printed_elsewhere inside printed
    intro j less
    rw [inRow j (Nat.le_of_lt less)]
    omega

theorem line_shown (bound : Nat) (inside : InScreen t) (plain : ∀ uc ∈ w, Plain uc)
    (short : w.length < vgaWidth) :
    ∃ t', run (terminalPutchar (bound + 1)) t (Tty.newline :: (w ++ [Tty.newline])) = some t' ∧
      InScreen t' ∧ LineShown w t t' := by
  have begins := Tty.putchar_newline bound t
  have home : InScreen (Tty.advanceRow { t with terminalColumn := 0 }) := inside.home.advanceRow
  have below : (Tty.advanceRow { t with terminalColumn := 0 }).terminalRow =
      (t.terminalRow + 1) % vgaHeight := Tty.advanceRow_row inside.home.row
  obtain ⟨ended, wrote, printed⟩ := Tty.write_printed bound home plain
  obtain ⟨sameRow, text, kept⟩ := row_printed home (Tty.advanceRow_column _) short printed
  have ends := Tty.putchar_newline bound ended
  rw [below, Tty.advanceRow_color] at text
  rw [below, Tty.advanceRow_buffer] at kept
  refine ⟨Tty.advanceRow { ended with terminalColumn := 0 }, ?_, printed.inside.home.advanceRow,
    ?_, ?_, ?_, ?_⟩
  · rw [run_cons, begins, Option.bind_some, run_append,
      show run (terminalPutchar (bound + 1)) _ w = _ from wrote, Option.bind_some, run_cons, ends]
    rfl
  · rw [Tty.advanceRow_row printed.inside.home.row]
    show (ended.terminalRow + 1) % vgaHeight = _
    rw [sameRow, below, Nat.mod_add_mod]
  · exact Tty.advanceRow_column _
  · unfold rowEntries at text ⊢
    rw [Tty.advanceRow_buffer]
    exact text
  · rw [Tty.advanceRow_buffer]
    exact kept

end Line

/-! ## The text of the PANIC line -/

def panicText (message : CString) (intNo errCode : Nat) : List UInt8 :=
  (CString.literal "PANIC: ").bytes ++ message.bytes ++ (CString.literal " (interrupt ").bytes ++
    plainNumeral intNo ++ (CString.literal ", error code ").bytes ++ plainNumeral errCode ++
    (CString.literal ")").bytes

theorem panicLine_text (message : CString) (intNo errCode : Nat) :
    panicLine message intNo errCode = Tty.newline :: (panicText message intNo errCode ++ [Tty.newline]) := by
  have head : (CString.literal "\nPANIC: ").bytes = Tty.newline :: (CString.literal "PANIC: ").bytes := by decide
  have tail : (CString.literal ")\n").bytes = (CString.literal ")").bytes ++ [Tty.newline] := by decide
  simp only [panicLine, panicText, head, tail, List.cons_append, List.append_assoc]

theorem isDigit_plain {byte : UInt8} (digit : IsDigit byte) : Plain byte := by
  have low := digit.1
  refine ⟨?_, ?_, ?_, ?_⟩ <;>
  · rintro rfl
    exact absurd low (by decide)

theorem plainNumeral_shown (n : Nat) : ∀ byte ∈ plainNumeral n, Plain byte :=
  fun byte member => isDigit_plain ((plainNumeral_plain n).digits byte member)

theorem messages_shown : ∀ message ∈ exceptionMessages,
    (∀ byte ∈ message.bytes, Plain byte) ∧ message.bytes.length ≤ 27 := by
  have checked : ∀ message ∈ exceptionMessages,
      message.bytes.all (Plain ·) = true ∧ message.bytes.length ≤ 27 := by decide
  exact fun message known => (checked message known).imp_left List.all_iff_forall_prop.mp

theorem texts_shown : ∀ text ∈ ["PANIC: ", " (interrupt ", ", error code ", ")"],
    ∀ byte ∈ (CString.literal text).bytes, Plain byte := by
  have checked : ∀ text ∈ ["PANIC: ", " (interrupt ", ", error code ", ")"],
      (CString.literal text).bytes.all (Plain ·) = true := by decide
  exact fun text known => List.all_iff_forall_prop.mp (checked text known)

theorem panicText_plain {message : CString} (known : message ∈ exceptionMessages) (intNo errCode : Nat) :
    ∀ byte ∈ panicText message intNo errCode, Plain byte := by
  intro byte member
  simp only [panicText, List.mem_append] at member
  obtain (((((panic | name) | interrupt) | vector) | code) | number) | close := member
  · exact texts_shown _ (by simp) byte panic
  · exact (messages_shown message known).1 byte name
  · exact texts_shown _ (by simp) byte interrupt
  · exact plainNumeral_shown _ byte vector
  · exact texts_shown _ (by simp) byte code
  · exact plainNumeral_shown _ byte number
  · exact texts_shown _ (by simp) byte close

/-- The longest line is that of a coprocessor segment overrun. -/
theorem panicText_length {message : CString} (known : message ∈ exceptionMessages) {intNo : Nat}
    (small : intNo < 32) (errCode : Word) : (panicText message intNo errCode.toNat).length ≤ 72 := by
  have name := (messages_shown message known).2
  have vector := lowDigits_length (n := intNo) (k := 2) Nat.two_pos (by omega)
  have code := lowDigits_length (n := errCode.toNat) (k := 10) (by decide) (by omega)
  have texts : (CString.literal "PANIC: ").bytes.length + (CString.literal " (interrupt ").bytes.length +
      (CString.literal ", error code ").bytes.length + (CString.literal ")").bytes.length = 33 := by decide
  simp only [panicText, plainNumeral, List.length_append, List.length_reverse, List.length_map]
  omega

/-! ## The frame -/

/-- The error code of the frame, which for the exceptions without one is the stub's. -/
def framedCode (e : Exception) : Word := if Interrupts.pushesErrorCode e.vector then e.errorCode else 0

theorem framed_codes (e : Exception) :
    ∃ rest, (Interrupts.stubWords e.vector).reverse ++ e.pushed =
      BitVec.ofNat 32 e.vector :: framedCode e :: rest := by
  have both : ∀ n : Fin 32, Interrupts.pushesErrorCode n = true →
      Interrupts.processorPushesErrorCode n = true := by decide
  unfold Interrupts.stubWords Exception.pushed framedCode
  split
  next stub =>
    rw [both e.vector stub]
    exact ⟨[], rfl⟩
  next => exact ⟨_, rfl⟩

section Frame

variable {build : Build} {e : Exception} {saved s : State Devices}

theorem framed_numbers (here : AtHandler build e saved s) :
    (Registers.load s.memory (Interrupts.frameAddress s)).intNo = BitVec.ofNat 32 e.vector ∧
      (Registers.load s.memory (Interrupts.frameAddress s)).errCode = framedCode e := by
  obtain ⟨rest, codes⟩ := framed_codes e
  have held := Interrupts.frame_held here.stack here.frame
  rw [Interrupts.frameWords, ← List.append_assoc (Interrupts.stubWords _).reverse, codes] at held
  have ninth := wordsAt_getElem held (k := 9) (by simp [savedRegisters])
  have tenth := wordsAt_getElem held (k := 10) (by simp [savedRegisters])
  constructor
  · show load32 s.memory (Interrupts.frameAddress s + 36) = _
    simpa [savedRegisters] using ninth
  · show load32 s.memory (Interrupts.frameAddress s + 40) = _
    simpa [savedRegisters] using tenth

theorem enterException_devices {system : System} {stub : Stub} {entered : State Devices}
    (enters : Interrupts.enterException build system e = some (stub, entered)) :
    entered.devices = system.devices := by
  obtain ⟨gate, _, found⟩ := Option.bind_eq_some_iff.mp enters
  obtain ⟨routine, _, here⟩ := Option.bind_eq_some_iff.mp found
  cases here
  exact pushAll_devices _ _

theorem atHandler_devices (build : Build) (n : Fin 32) (s : State Devices) :
    ((exec (Interrupts.environment build) (Interrupts.entrySequence n) s).push
      (build.returnAddress .isrHandler)).devices = s.devices := by
  apply Interrupts.exec_local
  unfold Interrupts.entrySequence Interrupts.stubWords
  split <;> simp [Interrupts.saveState, Interrupts.kernelSegments]

end Frame

/-! ## The panic -/

/-- `interrupt_handlers`, with what the functions in it do to the terminal. -/
def handlerTable (acts : Word → Registers → Terminal → Option Terminal) (d : Devices) :
    Vector (Option (Registers → Terminal → Option Terminal)) 256 :=
  .ofFn fun n => if d.interruptHandlers n.val = 0 then none else some (acts (d.interruptHandlers n.val))

theorem handlerTable_none (acts : Word → Registers → Terminal → Option Terminal) {d : Devices} {n : Nat}
    (inside : n < 256) (unhandled : d.interruptHandlers n = 0) :
    (handlerTable acts d)[n]? = some none := by
  rw [Vector.getElem?_eq_getElem inside, handlerTable, Vector.getElem_ofFn, if_pos unhandled]

/-- The characters in the first cells of a row. -/
def lineRead (t : Terminal) (row n : Nat) : List UInt8 := (rowEntries t row n).map UInt16.toUInt8

theorem vgaEntry_character (uc color : UInt8) : (vgaEntry uc color).toUInt8 = uc := by
  have low : (vgaEntry uc color).toUInt8.toBitVec =
      (uc.toBitVec.setWidth 16 ||| color.toBitVec.setWidth 16 <<< 8).setWidth 8 := rfl
  apply UInt8.toBitVec_inj.mp
  rw [low]
  ext i inside
  simp only [BitVec.getElem_setWidth, BitVec.getLsbD_or, BitVec.getLsbD_setWidth, BitVec.getLsbD_shiftLeft]
  grind

theorem LineShown.read {w : List UInt8} {t t' : Terminal} (shown : LineShown w t t') :
    lineRead t' ((t.terminalRow + 1) % vgaHeight) w.length = w := by
  rw [lineRead, shown.text, List.map_map]
  exact (List.map_congr_left fun uc _ => vgaEntry_character uc _).trans (List.map_id w)

theorem isrHandler_halts {bound : Nat} {e : Exception} {regs : Registers} {message : CString}
    {handlers : Vector (Option (Registers → Terminal → Option Terminal)) 256} {t t' : Terminal}
    (intNo : regs.intNo = BitVec.ofNat 32 e.vector) (errCode : regs.errCode = framedCode e)
    (unhandled : handlers[e.vector.val]? = some none) (found : exceptionMessages[e.vector.val]? = some message)
    (printed : run (terminalPutchar (bound + 1)) t
      (Tty.newline :: (panicText message e.vector (framedCode e).toNat ++ [Tty.newline])) = some t')
    (first second : Vector UInt8 10) :
    isrHandler (terminalPutchar (bound + 1)) handlers (bound + 11) first second regs t =
      some (.halted t') := by
  have enough : 10 < bound + 11 := by omega
  have number : regs.intNo.toNat = e.vector.val := by
    rw [intNo, BitVec.toNat_ofNat]
    omega
  have exception : regs.intNo < 32 := by
    rw [BitVec.lt_def, number]
    exact e.vector.isLt
  rw [← number] at unhandled found
  unfold isrHandler
  rw [unhandled]
  show (if regs.intNo < 32 then _ else _) = _
  rw [if_pos exception, printPanic_message _ enough first second found, panicLine_text, number, errCode,
    printed]
  rfl

end SzOS.Kernel.Panic
