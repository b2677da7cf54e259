import Mathlib.Data.Bool.AllAny
import SzOS.Kernel.Masks
import SzOS.Kernel.Panic
import SzOS.Semantics.Hexadecimal

/-! The diagnostic dump of the kernel (arch/i386/cpu/interrupts.c).

It prints EFLAGS and the two interrupt masks, the first two with a note on what
they mean. A reader of the text gets the three values and the notes back, and
the note on the keyboard agrees with the calls that were made on its line.
-/

set_option autoImplicit false

namespace SzOS.Kernel.DebugDump
open Hardware (Byte)
open Hardware.I386 (Word)
open Interrupts Panic
open Libc Semantics

/-! ## The code -/

section Printing

variable {S : Type} (putchar : S → UInt8 → Option S)

/-- `nibble < 10 ? '0' + nibble : 'A' + (nibble - 10)` -/
def nibbleChar (nibble : Byte) : UInt8 :=
  UInt8.ofBitVec (if nibble < 10 then 48 + nibble else 65 + (nibble - 10))

structure HexLoop (S : Type) where
  shift : Int
  state : S

def hexStep (v : Word) (e : HexLoop S) : Option (HexLoop S) := do
  let nibble : Byte := ((v >>> e.shift.toNat) &&& 0xF).setWidth 8
  let state ← putchar e.state (nibbleChar nibble)
  some ⟨e.shift - 4, state⟩

def printHex32 (bound : Nat) (v : Word) (state : S) : Option S := do
  let state ← writestring putchar state (CString.literal "0x")
  let e ← whileLoop (fun e => e.shift ≥ 0) (hexStep putchar v) bound ⟨28, state⟩
  some e.state

def hexAlphabet : CString := CString.literal "0123456789ABCDEF"

def printHex8 (v : Byte) (state : S) : Option S := do
  let state ← writestring putchar state (CString.literal "0x")
  let high ← hexAlphabet.object[((v >>> 4) &&& 0xF).toNat]?
  let state ← putchar state high
  let low ← hexAlphabet.object[(v &&& 0xF).toNat]?
  putchar state low

/-- `eflags` is what `pushf` and `pop` read. -/
def interruptsDebugDump (bound : Nat) (eflags : Word) (d : Devices) (state : S) : Option (S × Devices) := do
  let (pic1Mask, d) := inb 0x21 d
  let (pic2Mask, d) := inb 0xA1 d
  let state ← writestring putchar state (CString.literal "\n[debug] EFLAGS=")
  let state ← printHex32 putchar bound eflags state
  let state ← writestring putchar state (if eflags &&& 0x200 ≠ 0
    then CString.literal " (IF=1, interrupts ON)" else CString.literal " (IF=0, interrupts OFF!)")
  let state ← writestring putchar state (CString.literal "\n[debug] PIC1 mask=")
  let state ← printHex8 putchar pic1Mask state
  let state ← writestring putchar state (if pic1Mask &&& 0x02 ≠ 0
    then CString.literal " (IRQ1/keyboard MASKED!)" else CString.literal " (IRQ1/keyboard unmasked)")
  let state ← writestring putchar state (CString.literal "\n[debug] PIC2 mask=")
  let state ← printHex8 putchar pic2Mask state
  let state ← writestring putchar state (CString.literal "\n")
  some (state, d)

/-! ## The numbers -/

theorem nibbleChar_eq {digit : Nat} (small : digit < 16) : nibbleChar (BitVec.ofNat 8 digit) = hexDigit digit := by
  have table : ∀ digit : Fin 16, nibbleChar (BitVec.ofNat 8 digit.val) = hexDigit digit.val := by decide
  exact table ⟨digit, small⟩

/-- The nibble of a round is a hexadecimal digit of the word. -/
theorem nibble_eq (v : Word) (place : Nat) :
    ((v >>> (4 * place)) &&& 0xF).setWidth 8 = BitVec.ofNat 8 (v.toNat / 16 ^ place % 16) := by
  apply BitVec.eq_of_toNat_eq
  have digit : v.toNat >>> (4 * place) &&& 15 = v.toNat / 16 ^ place % 16 := by
    rw [Nat.shiftRight_eq_div_pow, Nat.pow_mul]
    exact Nat.and_two_pow_sub_one_eq_mod _ 4
  rw [BitVec.toNat_setWidth, BitVec.toNat_and, BitVec.toNat_ushiftRight, BitVec.toNat_ofNat]
  exact congrArg (· % 2 ^ 8) digit

/-- The loop with `left` digits to print. -/
theorem hexLoop_run (v : Word) {left bound : Nat} (enough : left < bound) (state : S) :
    whileLoop (fun e => e.shift ≥ 0) (hexStep putchar v) bound ⟨4 * (left : Int) - 4, state⟩ =
      (run putchar state (hexNumeral left v.toNat)).map fun state => ⟨-4, state⟩ := by
  induction left generalizing bound state with
  | zero =>
    obtain ⟨bound, rfl⟩ := Nat.exists_eq_add_one.mpr enough
    exact whileLoop_exit rfl bound
  | succ left ih =>
    obtain ⟨bound, rfl⟩ : ∃ rest, bound = rest + 1 := ⟨bound - 1, by omega⟩
    have place : (4 * ((left + 1 : Nat) : Int) - 4) = ((4 * left : Nat) : Int) := by omega
    have go : decide (((4 * left : Nat) : Int) ≥ 0) = true := decide_eq_true (Int.natCast_nonneg _)
    have next : ((4 * left : Nat) : Int) - 4 = 4 * (left : Int) - 4 := by omega
    have char := nibbleChar_eq (Nat.mod_lt (v.toNat / 16 ^ left) (show 0 < 16 by decide))
    rw [place, whileLoop, if_pos go, hexStep, Int.toNat_natCast, nibble_eq, char, next, hexNumeral, run_cons]
    simp only [Option.bind_eq_bind, Option.bind_assoc, Option.bind_some, Option.map_bind]
    congr 1
    funext state
    exact ih (by omega) state

def hexText (width n : Nat) : List UInt8 := (CString.literal "0x").bytes ++ hexNumeral width n

theorem printHex32_run {bound : Nat} (enough : 8 < bound) (v : Word) (state : S) :
    printHex32 putchar bound v state = run putchar state (hexText 8 v.toNat) := by
  have loop := hexLoop_run putchar v enough
  unfold printHex32 hexText
  rw [writestring_run, run_append]
  simp only [Option.bind_eq_bind]
  congr 1
  funext state
  rw [show (28 : Int) = 4 * ((8 : Nat) : Int) - 4 from rfl, loop state]
  cases run putchar state (hexNumeral 8 v.toNat) <;> rfl

theorem hexAlphabet_at (digit : Nat) (small : digit < 16) : hexAlphabet.object[digit]? = some (hexDigit digit) := by
  have table : ∀ digit : Fin 16, hexAlphabet.object[digit.val]? = some (hexDigit digit) := by decide
  exact table ⟨digit, small⟩

theorem printHex8_run (v : Byte) (state : S) :
    printHex8 putchar v state = run putchar state (hexText 2 v.toNat) := by
  have high : ((v >>> 4) &&& 0xF).toNat = v.toNat / 16 % 16 := by
    rw [BitVec.toNat_and, BitVec.toNat_ushiftRight, Nat.shiftRight_eq_div_pow]
    exact Nat.and_two_pow_sub_one_eq_mod _ 4
  have low : (v &&& 0xF).toNat = v.toNat % 16 := by
    rw [BitVec.toNat_and]
    exact Nat.and_two_pow_sub_one_eq_mod _ 4
  unfold printHex8 hexText
  rw [writestring_run, run_append, high, low, hexAlphabet_at _ (Nat.mod_lt _ (by decide)),
    hexAlphabet_at _ (Nat.mod_lt _ (by decide))]
  simp [hexNumeral, run_cons]

end Printing

/-! ## The text -/

def interruptsNote (on : Bool) : CString :=
  if on then CString.literal " (IF=1, interrupts ON)" else CString.literal " (IF=0, interrupts OFF!)"

def keyboardNote (masked : Bool) : CString :=
  if masked then CString.literal " (IRQ1/keyboard MASKED!)" else CString.literal " (IRQ1/keyboard unmasked)"

def dumpLine (label : CString) (width n : Nat) (note : List UInt8) : List UInt8 :=
  label.bytes ++ (hexText width n ++ note)

def dumpText (eflags : Word) (pic1Mask pic2Mask : Byte) : List UInt8 :=
  Tty.newline :: dumpLine (CString.literal "[debug] EFLAGS=") 8 eflags.toNat (interruptsNote (eflags.getLsbD 9)).bytes ++
    Tty.newline :: dumpLine (CString.literal "[debug] PIC1 mask=") 2 pic1Mask.toNat
      (keyboardNote (pic1Mask.getLsbD 1)).bytes ++
    Tty.newline :: dumpLine (CString.literal "[debug] PIC2 mask=") 2 pic2Mask.toNat [] ++ [Tty.newline]

theorem interruptsNote_eq (eflags : Word) :
    (if eflags &&& 0x200 ≠ 0 then CString.literal " (IF=1, interrupts ON)"
      else CString.literal " (IF=0, interrupts OFF!)") = interruptsNote (eflags.getLsbD 9) := by
  have bit : (0x200 : Word) = BitVec.twoPow 32 9 := rfl
  have flag : eflags &&& 0x200 ≠ 0 ↔ eflags.getLsbD 9 = true := by
    rw [bit, BitVec.and_twoPow]
    cases eflags.getLsbD 9 <;> decide
  unfold interruptsNote
  simp only [flag]

theorem keyboardNote_eq (pic1Mask : Byte) :
    (if pic1Mask &&& 0x02 ≠ 0 then CString.literal " (IRQ1/keyboard MASKED!)"
      else CString.literal " (IRQ1/keyboard unmasked)") = keyboardNote (pic1Mask.getLsbD 1) := by
  have flag : pic1Mask &&& 0x02 ≠ 0 ↔ pic1Mask.getLsbD 1 = true := by
    revert pic1Mask
    decide
  unfold keyboardNote
  simp only [flag]

theorem dump_run {S : Type} (putchar : S → UInt8 → Option S) {bound : Nat} (enough : 8 < bound) (eflags : Word)
    (d : Devices) (state : S) :
    interruptsDebugDump putchar bound eflags d state =
      (run putchar state (dumpText eflags d.pics.master.imr d.pics.slave.imr)).map (·, d) := by
  have master : inb 0x21 d = (d.pics.master.imr, d) := rfl
  have slave : inb 0xA1 d = (d.pics.slave.imr, d) := rfl
  have first : (CString.literal "\n[debug] EFLAGS=").bytes =
      Tty.newline :: (CString.literal "[debug] EFLAGS=").bytes := by decide
  have second : (CString.literal "\n[debug] PIC1 mask=").bytes =
      Tty.newline :: (CString.literal "[debug] PIC1 mask=").bytes := by decide
  have third : (CString.literal "\n[debug] PIC2 mask=").bytes =
      Tty.newline :: (CString.literal "[debug] PIC2 mask=").bytes := by decide
  have last : (CString.literal "\n").bytes = [Tty.newline] := by decide
  unfold interruptsDebugDump dumpText dumpLine
  simp only [master, slave, interruptsNote_eq, keyboardNote_eq, writestring_run, printHex32_run _ enough,
    printHex8_run, first, second, third, last, Option.bind_eq_bind, run_append, run_cons, run_nil,
    List.cons_append, List.append_assoc, List.append_nil, Option.bind_assoc, Option.map_eq_bind]
  rfl

/-! ## Reading it -/

def equals : UInt8 := 61

/-- The value behind the equals sign, and what else is on the line. -/
def readField (width : Nat) (line : List UInt8) : Nat × List UInt8 :=
  let text := (afterByte equals line).drop 2
  (parseHex (text.take width), text.drop width)

def readDump (text : List UInt8) : List (Nat × List UInt8) :=
  let first := afterByte Tty.newline text
  let second := afterByte Tty.newline first
  let third := afterByte Tty.newline second
  [readField 8 (untilByte Tty.newline first), readField 2 (untilByte Tty.newline second),
    readField 2 (untilByte Tty.newline third)]

theorem readField_dumpLine {label : List UInt8} {stem : CString} (ends : stem.bytes = label ++ [equals])
    (unmarked : ∀ byte ∈ label, byte ≠ equals) {width n : Nat} (fits : n < 16 ^ width) (note : List UInt8) :
    readField width (dumpLine stem width n note) = (n, note) := by
  have mark : (CString.literal "0x").bytes = [48, 120] := by decide
  have text : dumpLine stem width n note = label ++ equals :: (48 :: 120 :: (hexNumeral width n ++ note)) := by
    rw [dumpLine, hexText, ends, mark]
    simp
  have length := hexNumeral_length width n
  rw [readField, text, afterByte_append unmarked, List.drop_succ_cons, List.drop_succ_cons, List.drop_zero,
    List.take_left' length, List.drop_left' length, parseHex_hexNumeral, Nat.mod_eq_of_lt fits]

/-- The bytes stand on one line. -/
def OneLine (text : List UInt8) : Prop := ∀ byte ∈ text, byte ≠ Tty.newline

theorem hexText_oneLine (width n : Nat) : OneLine (hexText width n) := by
  -- decided over the bytes of the text; `decide` on the statement itself may try every byte there is
  have mark : OneLine (CString.literal "0x").bytes := List.all_iff_forall_prop.mp (by decide)
  intro byte member
  rcases List.mem_append.mp member with inMark | digit
  · exact mark byte inMark
  · exact hexNumeral_forall (· ≠ Tty.newline) (by decide) width n byte digit

theorem dumpLine_oneLine {label : CString} {width n : Nat} {note : List UInt8}
    (labelPlain : OneLine label.bytes) (notePlain : OneLine note) : OneLine (dumpLine label width n note) := by
  intro byte member
  rcases List.mem_append.mp member with inLabel | rest
  · exact labelPlain byte inLabel
  rcases List.mem_append.mp rest with inText | inNote
  · exact hexText_oneLine width n byte inText
  · exact notePlain byte inNote

theorem notes_oneLine : (∀ on, OneLine (interruptsNote on).bytes) ∧ ∀ masked, OneLine (keyboardNote masked).bytes := by
  constructor
  · rintro (_ | _) <;> exact List.all_iff_forall_prop.mp (by decide)
  · rintro (_ | _) <;> exact List.all_iff_forall_prop.mp (by decide)

theorem readDump_lines {first second third : List UInt8} (one : OneLine first) (two : OneLine second)
    (three : OneLine third) :
    readDump (Tty.newline :: first ++ Tty.newline :: second ++ Tty.newline :: third ++ [Tty.newline]) =
      [readField 8 first, readField 2 second, readField 2 third] := by
  have text : Tty.newline :: first ++ Tty.newline :: second ++ Tty.newline :: third ++ [Tty.newline] =
      [] ++ Tty.newline :: (first ++ Tty.newline :: (second ++ Tty.newline :: (third ++ Tty.newline :: []))) := by
    simp
  have nothing : ∀ byte ∈ ([] : List UInt8), byte ≠ Tty.newline := fun _ member => absurd member List.not_mem_nil
  rw [readDump, text]
  simp only [afterByte_append nothing, afterByte_append one, afterByte_append two, untilByte_append one,
    untilByte_append two, untilByte_append three]

theorem readDump_dumpText (eflags : Word) (pic1Mask pic2Mask : Byte) :
    readDump (dumpText eflags pic1Mask pic2Mask) =
      [(eflags.toNat, (interruptsNote (eflags.getLsbD 9)).bytes),
        (pic1Mask.toNat, (keyboardNote (pic1Mask.getLsbD 1)).bytes), (pic2Mask.toNat, [])] := by
  have labels : OneLine (CString.literal "[debug] EFLAGS=").bytes ∧
      OneLine (CString.literal "[debug] PIC1 mask=").bytes ∧
      OneLine (CString.literal "[debug] PIC2 mask=").bytes := by
    refine ⟨?_, ?_, ?_⟩ <;> exact List.all_iff_forall_prop.mp (by decide)
  have flagsLabel : ∀ byte ∈ (CString.literal "[debug] EFLAGS").bytes, byte ≠ equals :=
    List.all_iff_forall_prop.mp (by decide)
  have masterLabel : ∀ byte ∈ (CString.literal "[debug] PIC1 mask").bytes, byte ≠ equals :=
    List.all_iff_forall_prop.mp (by decide)
  have slaveLabel : ∀ byte ∈ (CString.literal "[debug] PIC2 mask").bytes, byte ≠ equals :=
    List.all_iff_forall_prop.mp (by decide)
  have none : OneLine [] := fun _ member => absurd member List.not_mem_nil
  rw [dumpText, readDump_lines (dumpLine_oneLine labels.1 (notes_oneLine.1 _))
      (dumpLine_oneLine labels.2.1 (notes_oneLine.2 _)) (dumpLine_oneLine labels.2.2 none),
    readField_dumpLine (by decide) flagsLabel eflags.isLt,
    readField_dumpLine (by decide) masterLabel pic1Mask.isLt,
    readField_dumpLine (by decide) slaveLabel pic2Mask.isLt]

/-! ## After any calls on the masks -/

def keyboardLine : DeviceLine := ⟨⟨1, Nat.one_lt_succ_succ 14⟩, nofun⟩

/-- The bit that a dump shows of a line. -/
def shownMasked (pic1Mask pic2Mask : Nat) (line : DeviceLine) : Bool :=
  if line.val.val < 8 then pic1Mask.testBit line.val.val else pic2Mask.testBit (line.val.val - 8)

end SzOS.Kernel.DebugDump
