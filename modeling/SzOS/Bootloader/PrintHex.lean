import Mathlib.Data.List.TakeWhile
import SzOS.KernelC.BootSector

/-! print and print_hex of the two boot sectors (legacy/bootloader and legacy/kernel-c/boot).

The routines are the same up to the first value of the loop counter. `HEX_OUT`
is part of the boot sector and keeps what the call before left in it. Flags are
left out: nothing reads them after the jump that follows their comparison.
-/

set_option autoImplicit false

namespace SzOS.Bootloader
open Semantics Hardware
open KernelC (Half)
open KernelC.BootSector

/-! ## Registers -/

def dx (m : Machine) : Half := m.registers.dh ++ m.registers.dl

def setAl (m : Machine) (value : Byte) : Machine := { m with registers := { m.registers with al := value } }

def setAh (m : Machine) (value : Byte) : Machine := { m with registers := { m.registers with ah := value } }

def setAx (m : Machine) (value : Half) : Machine :=
  { m with registers := { m.registers with ah := (value >>> 8).setWidth 8, al := value.setWidth 8 } }

def setBx (m : Machine) (value : Half) : Machine := { m with registers := { m.registers with bx := value } }

def setCx (m : Machine) (value : Half) : Machine :=
  { m with registers := { m.registers with ch := (value >>> 8).setWidth 8, cl := value.setWidth 8 } }

def setDx (m : Machine) (value : Half) : Machine :=
  { m with registers := { m.registers with dh := (value >>> 8).setWidth 8, dl := value.setWidth 8 } }

/-! ## The routines -/

/-- int 0x10, function 0x0E. It returns with `bx` and `sp` as they were, and below video memory
and above the data of the BIOS it writes only to the stack. -/
structure Teletype where
  run : Machine → Machine
  depth : Nat
  bx : ∀ m, (run m).registers.bx = m.registers.bx
  sp : ∀ m, (run m).sp = m.sp
  memory : ∀ m address, 0x7C00 ≤ address → address < 0xA000 →
    address + depth < m.sp.toNat ∨ m.sp.toNat ≤ address → (run m).memory address = m.memory address

/-- How a routine comes back: the text shown, the address returned to and the state there. -/
structure Outcome where
  shown : List Byte
  ip : Half
  machine : Machine

/-- `mov al, [bx]` -/
def loadAl (m : Machine) : Machine := setAl m (m.memory m.registers.bx.toNat)

/-- The text so far, and the machine. -/
structure Printing where
  shown : List Byte
  machine : Machine

/-- `cmp al, 0` -/
def printing (s : Printing) : Bool := (loadAl s.machine).registers.al ≠ 0

def printStep (teletype : Teletype) (s : Printing) : Option Printing :=
  let m := setAh (loadAl s.machine) 0x0E
  let shown := s.shown ++ [m.registers.al]
  let m := teletype.run m
  some ⟨shown, setBx m (m.registers.bx + 1)⟩

def printLoop (teletype : Teletype) (bound : Nat) (s : Printing) : Option Printing :=
  whileLoop printing (printStep teletype) bound s

def print (teletype : Teletype) (bound : Nat) (m : Machine) : Option Outcome :=
  (printLoop teletype bound ⟨[], m.pusha⟩).map fun s =>
    let m := (loadAl s.machine).popa
    ⟨s.shown, m.top, m.drop⟩

/-- From `add al, 0x30` to `step2`. -/
def hexAscii (al : Byte) : Byte :=
  let al := al + 0x30
  if (0x39 : Byte).slt al then al + 7 else al

/-- One round of `hex_loop`, its comparison left out. -/
def hexRound (hexOut : Half) (m : Machine) : Machine :=
  let m := setAx m (dx m)
  let m := setAx m (m.registers.ax &&& 0x000F)
  let m := setAl m (hexAscii m.registers.al)
  let m := setBx m (hexOut + 5)
  let m := setBx m (m.registers.bx - m.registers.cx)
  let m := { m with memory := Function.update m.memory m.registers.bx.toNat m.registers.al }
  let m := setDx m ((dx m).rotateRight 4)
  setCx m (m.registers.cx + 1)

/-- `cmp cx, 4` -/
def hexTest (m : Machine) : Bool := m.registers.cx ≠ 4

def hexStep (hexOut : Half) (m : Machine) : Option Machine := some (hexRound hexOut m)

def hexLoop (hexOut : Half) (bound : Nat) (m : Machine) : Option Machine :=
  whileLoop hexTest (hexStep hexOut) bound m

/-- A call of `print_hex`, entered with its return address on the stack: where `HEX_OUT` is, where
`print` returns to, and what holds of the boot sector and its stack. -/
structure Call (teletype : Teletype) where
  machine : Machine
  hexOut : Half
  afterPrint : Half
  low : 0x7C00 ≤ hexOut.toNat
  high : hexOut.toNat + 7 ≤ 0x7E00
  room : 0x7E00 + 34 + teletype.depth ≤ machine.sp.toNat
  top : machine.sp.toNat + 2 ≤ 0xA000
  zero : machine.memory hexOut.toNat = 0x30
  x : machine.memory (hexOut.toNat + 1) = 0x78
  stop : machine.memory (hexOut.toNat + 6) = 0

variable {teletype : Teletype}

/-- `print_hex`, where its counter starts at `start`. -/
def printHexFrom (start : Half) (call : Call teletype) (bound : Nat) : Option Outcome :=
  let m := setCx call.machine.pusha start
  (hexLoop call.hexOut bound m).bind fun m =>
    let m := setBx m call.hexOut
    (print teletype bound (m.push call.afterPrint)).bind fun printed =>
      if printed.ip = call.afterPrint then
        let m := printed.machine.popa
        some ⟨printed.shown, m.top, m.drop⟩
      else none

/-- legacy/kernel-c/boot/print_hex.asm: `mov cx, 0` -/
def kernelCPrintHex (call : Call teletype) (bound : Nat) : Option Outcome := printHexFrom 0 call bound

/-- legacy/bootloader/boot_sect_print_hex.asm: `mov cx, 4` -/
def bootloaderPrintHex (call : Call teletype) (bound : Nat) : Option Outcome := printHexFrom 4 call bound

/-! ## The text it should show -/

def nibble (value : Half) (i : Nat) : BitVec 4 := value.extractLsb' (4 * i) 4

/-- The digit in ASCII, A to F in upper case. -/
def hexByte (digit : BitVec 4) : Byte :=
  BitVec.ofNat 8 (if digit.toNat < 10 then 0x30 + digit.toNat else 0x41 + (digit.toNat - 10))

def hexDigits (value : Half) : List Byte :=
  [hexByte (nibble value 3), hexByte (nibble value 2), hexByte (nibble value 1), hexByte (nibble value 0)]

def hexText (value : Half) : List Byte := [0x30, 0x78] ++ hexDigits value

/-- Back behind the call, with every general register as it was before. -/
structure Restored (m : Machine) (outcome : Outcome) : Prop where
  ip : outcome.ip = m.top
  registers : outcome.machine.registers = m.registers
  bp : outcome.machine.bp = m.bp
  si : outcome.machine.si = m.si
  di : outcome.machine.di = m.di
  sp : outcome.machine.sp = m.sp + 2

/-! ## Words on the stack -/

/-- The words from the stack pointer up. -/
def Stacked (m : Machine) : List Half → Prop
  | [] => True
  | value :: rest => m.top = value ∧ Stacked m.drop rest

variable {m m' : Machine} {value : Half} {values : List Half}

theorem drop_sp (room : m.sp.toNat + 2 < 2 ^ 16) : m.drop.sp.toNat = m.sp.toNat + 2 := by
  have two : (2 : Half).toNat = 2 := rfl
  rw [Machine.drop, BitVec.toNat_add, two, Nat.mod_eq_of_lt room]

theorem Stacked.congr (held : Stacked m values) (sp : m'.sp = m.sp)
    (room : m.sp.toNat + 2 * values.length < 2 ^ 16)
    (same : ∀ address, m.sp.toNat ≤ address → address < m.sp.toNat + 2 * values.length →
      m'.memory address = m.memory address) : Stacked m' values := by
  induction values generalizing m m' with
  | nil => trivial
  | cons value rest ih =>
    rw [List.length_cons] at room same
    have further := drop_sp (m := m) (by omega)
    have top : m'.top = m.top :=
      top_congr sp (same _ (by rw [sp]) (by rw [sp]; omega)) (same _ (by rw [sp]; omega) (by rw [sp]; omega))
    refine ⟨top.trans held.1, ih held.2 (congrArg (· + 2) sp) (by omega) fun address low high => ?_⟩
    exact same address (by omega) (by omega)

theorem Stacked.push (held : Stacked m values) (room : 2 ≤ m.sp.toNat)
    (small : m.sp.toNat + 2 * values.length < 2 ^ 16) (value : Half) :
    Stacked (m.push value) (value :: values) :=
  ⟨push_top m value, held.congr drop_push_sp small fun _ low _ => push_elsewhere room (Or.inr low)⟩

theorem Stacked.pushAll (held : Stacked m values) (pushed : List Half)
    (room : 2 * pushed.length ≤ m.sp.toNat) (small : m.sp.toNat + 2 * values.length < 2 ^ 16) :
    Stacked (m.pushAll pushed) (pushed.reverse ++ values) := by
  induction pushed generalizing m values with
  | nil => exact held
  | cons value pushed ih =>
    rw [List.length_cons] at room
    have lower := push_sp m value (by omega)
    have next := ih (held.push (by omega) small value) (by omega) (by rw [List.length_cons]; omega)
    rwa [List.reverse_cons, List.append_assoc, List.singleton_append]

theorem pusha_stacked (room : 16 ≤ m.sp.toNat) :
    Stacked m.pusha [m.di, m.si, m.bp, m.sp, m.registers.bx, dx m, m.registers.cx, m.registers.ax] := by
  have empty : Stacked m [] := trivial
  exact empty.pushAll [m.registers.ax, m.registers.cx, dx m, m.registers.bx, m.sp, m.bp, m.si, m.di]
    room m.sp.isLt

/-- `pusha` writes the sixteen bytes below the stack pointer. -/
theorem pusha_spec (room : 16 ≤ m.sp.toNat) :
    m.pusha.sp.toNat = m.sp.toNat - 16 ∧ m.pusha.registers = m.registers ∧
      ∀ address, address < m.sp.toNat - 16 ∨ m.sp.toNat ≤ address → m.pusha.memory address = m.memory address := by
  obtain ⟨sp, memory⟩ := pushAll_spec (m := m)
    [m.registers.ax, m.registers.cx, dx m, m.registers.bx, m.sp, m.bp, m.si, m.di] room
  exact ⟨sp, pushAll_registers _, memory⟩

theorem word_split (value : Half) : (value >>> 8).setWidth 8 ++ value.setWidth 8 = value :=
  word_wordBytes value

theorem setCx_cx (m : Machine) (value : Half) : (setCx m value).registers.cx = value := word_split value

theorem popa_memory (m : Machine) : m.popa.memory = m.memory := rfl

/-- The words that `popa` takes, from the top. -/
theorem popa_words {di si bp sp bx dx cx ax : Half} (held : Stacked m [di, si, bp, sp, bx, dx, cx, ax]) :
    m.popa.registers = ⟨(ax >>> 8).setWidth 8, ax.setWidth 8, bx, (cx >>> 8).setWidth 8, cx.setWidth 8,
        (dx >>> 8).setWidth 8, dx.setWidth 8⟩ ∧
      m.popa.bp = bp ∧ m.popa.si = si ∧ m.popa.di = di := by
  obtain ⟨rfl, rfl, rfl, -, rfl, rfl, rfl, rfl, -⟩ := held
  exact ⟨rfl, rfl, rfl, rfl⟩

/-- `popa` over what `pusha` has pushed brings every general register back. -/
theorem popa_pusha (saved : Machine) (room : 16 ≤ saved.sp.toNat) (sp : m.sp = saved.pusha.sp)
    (same : ∀ address, saved.sp.toNat - 16 ≤ address → address < saved.sp.toNat →
      m.memory address = saved.pusha.memory address) :
    m.popa.registers = saved.registers ∧ m.popa.bp = saved.bp ∧ m.popa.si = saved.si ∧
      m.popa.di = saved.di ∧ m.popa.sp = saved.sp := by
  obtain ⟨spNat, _, _⟩ := pusha_spec room
  have limit := saved.sp.isLt
  have held := (pusha_stacked room).congr sp (by rw [spNat]; simp; omega) fun address low high => by
    simp only [List.length_cons, List.length_nil] at high
    exact same address (by omega) (by omega)
  obtain ⟨registers, bp, si, di⟩ := popa_words held
  refine ⟨?_, bp, si, di, ?_⟩
  · rw [registers, dx, KernelC.Registers.cx, KernelC.Registers.ax]
    have high : ∀ high low : Byte, ((high ++ low : Half) >>> 8).setWidth 8 = high :=
      fun high low => word_high low high
    have low : ∀ high low : Byte, (high ++ low : Half).setWidth 8 = low :=
      fun high low => word_low low high
    simp only [high, low]
  · rw [popa_sp, sp]
    apply BitVec.eq_of_toNat_eq
    rw [BitVec.toNat_add, spNat]
    have sixteen : (16 : Half).toNat = 16 := rfl
    omega

/-- `popa` and `ret` at the end of a routine that began with `pusha`. -/
theorem leave_restored (saved : Machine) (shown : List Byte) (room : 16 ≤ saved.sp.toNat)
    (sp : m.sp = saved.pusha.sp)
    (same : ∀ address, saved.sp.toNat - 16 ≤ address → address < saved.sp.toNat →
      m.memory address = saved.pusha.memory address)
    (above : ∀ address, saved.sp.toNat ≤ address → address < saved.sp.toNat + 2 →
      m.memory address = saved.memory address) :
    Restored saved ⟨shown, m.popa.top, m.popa.drop⟩ := by
  obtain ⟨registers, bp, si, di, out⟩ := popa_pusha saved room sp same
  have memory := popa_memory m
  generalize m.popa = popped at registers bp si di out memory ⊢
  have ip : popped.top = saved.top := by
    refine top_congr out ?_ ?_ <;> rw [out, memory] <;> exact above _ (by omega) (by omega)
  exact ⟨ip, registers, bp, si, di, congrArg (· + 2) out⟩

/-! ## The digits -/

theorem hexAscii_eq : ∀ digit : BitVec 4, hexAscii (digit.setWidth 8) = hexByte digit := by decide

theorem nibble_zero (value : Half) : (value &&& 0x000F).setWidth 8 = (nibble value 0).setWidth 8 := by
  have mask : (0x000F : Half).toNat = 2 ^ 4 - 1 := rfl
  apply BitVec.eq_of_toNat_eq
  rw [BitVec.toNat_setWidth, BitVec.toNat_setWidth, BitVec.toNat_and, mask, Nat.and_two_pow_sub_one_eq_mod,
    nibble, BitVec.extractLsb'_toNat, Nat.mul_zero, Nat.shiftRight_zero]

theorem nibble_rotateRight (value : Half) {i : Nat} (below : i < 3) :
    nibble (value.rotateRight 4) i = nibble value (i + 1) := by
  apply BitVec.eq_of_getLsbD_eq
  intro bit inside
  have lower : 4 * i + bit < 16 - 4 := by omega
  rw [nibble, nibble, BitVec.getLsbD_extractLsb', BitVec.getLsbD_extractLsb',
    BitVec.getLsbD_rotateRight_of_lt (by decide)]
  simp only [lower, decide_true, cond_true]
  congr 2
  omega

/-- What a round changes: one digit in memory, `dx` and `cx`, and scratch registers. -/
theorem hexRound_spec (hexOut : Half) (m : Machine) :
    (hexRound hexOut m).memory = Function.update m.memory (hexOut + 5 - m.registers.cx).toNat
        (hexByte (nibble (dx m) 0)) ∧
      dx (hexRound hexOut m) = (dx m).rotateRight 4 ∧
      (hexRound hexOut m).registers.cx = m.registers.cx + 1 ∧ (hexRound hexOut m).sp = m.sp := by
  refine ⟨?_, word_split _, word_split _, rfl⟩
  have al : (((((dx m) >>> 8).setWidth 8 ++ (dx m).setWidth 8 : Half) &&& 0x000F).setWidth 8 : Byte) =
      (nibble (dx m) 0).setWidth 8 := by
    rw [word_split, nibble_zero]
  rw [← hexAscii_eq, ← al]
  rfl

/-- The state after `k` rounds from a state with the counter at 0. -/
structure Rounds (hexOut : Half) (first : Machine) (k : Nat) (m : Machine) : Prop where
  counter : m.registers.cx = BitVec.ofNat 16 k
  digits : ∀ i, k + i < 4 → nibble (dx m) i = nibble (dx first) (k + i)
  written : ∀ i < k, m.memory (hexOut.toNat + 5 - i) = hexByte (nibble (dx first) i)
  kept : ∀ address, address + k ≤ hexOut.toNat + 5 ∨ hexOut.toNat + 5 < address →
    m.memory address = first.memory address
  sp : m.sp = first.sp

variable {hexOut : Half} {first : Machine} {k : Nat}

theorem Rounds.next (small : hexOut.toNat + 7 ≤ 0x7E00) (rounds : Rounds hexOut first k m) (more : k < 4) :
    Rounds hexOut first (k + 1) (hexRound hexOut m) := by
  obtain ⟨memory, rotated, counter, sp⟩ := hexRound_spec hexOut m
  have address : (hexOut + 5 - m.registers.cx).toNat = hexOut.toNat + 5 - k := by
    rw [rounds.counter]
    bv_omega
  refine ⟨?_, ?_, ?_, ?_, sp.trans rounds.sp⟩
  · rw [counter, rounds.counter, BitVec.ofNat_add]
    rfl
  · intro i inside
    rw [rotated, nibble_rotateRight _ (by omega), rounds.digits (i + 1) (by omega)]
    congr 1
    omega
  · intro i inside
    rw [memory, address]
    by_cases last : i = k
    · rw [last, Function.update_self, rounds.digits 0 (by omega), Nat.add_zero]
    · rw [Function.update_of_ne (by omega), rounds.written i (by omega)]
  · intro other outside
    rw [memory, address, Function.update_of_ne (by omega), rounds.kept other (by omega)]

/-- The loop makes the rounds that are left. -/
theorem Rounds.finish (small : hexOut.toNat + 7 ≤ 0x7E00) (rounds : Rounds hexOut first k m) (more : k ≤ 4)
    {bound : Nat} (enough : 4 - k < bound) :
    ∃ last, hexLoop hexOut bound m = some last ∧ Rounds hexOut first 4 last := by
  induction bound generalizing k m with
  | zero => omega
  | succ bound ih =>
    by_cases done : k = 4
    · subst done
      have stop : hexTest m = false := by simp [hexTest, rounds.counter]
      exact ⟨m, whileLoop_exit stop bound, rounds⟩
    · have go : hexTest m = true := by
        have differs : m.registers.cx ≠ 4 := by
          rw [rounds.counter]
          bv_omega
        simpa [hexTest] using differs
      obtain ⟨last, ran, finished⟩ := ih (rounds.next small (by omega)) (by omega) (by omega)
      have step : hexLoop hexOut (bound + 1) m = hexLoop hexOut bound (hexRound hexOut m) :=
        whileLoop_step go (rfl : hexStep hexOut m = _) bound
      exact ⟨last, step.trans ran, finished⟩

/-! ## The text -/

/-- A string in memory with its terminator. -/
def TextAt (memory : Nat → Byte) (address : Nat) : List Byte → Prop
  | [] => memory address = 0
  | byte :: rest => byte ≠ 0 ∧ memory address = byte ∧ TextAt memory (address + 1) rest

theorem TextAt.congr {memory memory' : Nat → Byte} {address : Nat} {text : List Byte}
    (text_at : TextAt memory address text)
    (same : ∀ other, address ≤ other → other ≤ address + text.length → memory' other = memory other) :
    TextAt memory' address text := by
  induction text generalizing address with
  | nil => exact (same address (Nat.le_refl _) (Nat.le_refl _)).trans text_at
  | cons byte rest ih =>
    obtain ⟨nonzero, here, later⟩ := text_at
    rw [List.length_cons] at same
    refine ⟨nonzero, (same address (Nat.le_refl _) (by omega)).trans here, ih later fun other low high => ?_⟩
    exact same other (by omega) (by omega)

/-- Bytes before a terminator are the string up to the first NUL among them. -/
theorem textAt_takeWhile {memory : Nat → Byte} {address : Nat} {bytes : List Byte}
    (held : ∀ k (inside : k < bytes.length), memory (address + k) = bytes[k])
    (stop : memory (address + bytes.length) = 0) :
    TextAt memory address (bytes.takeWhile (· ≠ 0)) := by
  induction bytes generalizing address with
  | nil => exact stop
  | cons byte rest ih =>
    have here : memory address = byte := held 0 (Nat.zero_lt_succ _)
    by_cases zero : byte = 0
    · subst zero
      rw [List.takeWhile_cons_of_neg (by simp)]
      exact here
    · rw [List.takeWhile_cons_of_pos (by simpa using zero)]
      refine ⟨zero, here, ih (fun k inside => ?_) ?_⟩
      · have shifted : address + 1 + k = address + (k + 1) := by omega
        rw [shifted]
        exact held (k + 1) (Nat.succ_lt_succ inside)
      · have shifted : address + 1 + rest.length = address + (rest.length + 1) := by omega
        rw [shifted]
        exact stop

/-- What a routine leaves below its stack's top: the boot sector and the cells from `sp` up. -/
def Kept (sp : Nat) (before after : Nat → Byte) : Prop :=
  ∀ address, 0x7C00 ≤ address ∧ address < 0x7E00 ∨ sp ≤ address ∧ address < 0xA000 →
    after address = before address

/-- A round shows the byte at `bx` and goes one further; it leaves the boot sector and the stack. -/
theorem printStep_spec {byte : Byte} (shown : List Byte) (here : m.memory m.registers.bx.toNat = byte)
    (room : 0x7E00 + teletype.depth ≤ m.sp.toNat) :
    ∃ next, printStep teletype ⟨shown, m⟩ = some ⟨shown ++ [byte], next⟩ ∧
      next.registers.bx = m.registers.bx + 1 ∧ next.sp = m.sp ∧ Kept m.sp.toNat m.memory next.memory := by
  obtain ⟨called, calls⟩ : ∃ called, called = teletype.run (setAh (loadAl m) 0x0E) := ⟨_, rfl⟩
  refine ⟨setBx called (called.registers.bx + 1), ?_, ?_, ?_, ?_⟩
  · rw [calls, ← here]
    rfl
  · rw [calls]
    exact congrArg (· + 1) (teletype.bx _)
  · rw [calls]
    exact teletype.sp _
  · intro address inside
    rw [calls]
    refine teletype.memory _ address (by omega) (by omega) ?_
    show address + teletype.depth < m.sp.toNat ∨ m.sp.toNat ≤ address
    omega

/-- The loop shows the string that `bx` points to. -/
theorem printLoop_spec {text shown : List Byte} {bound : Nat}
    (text_at : TextAt m.memory m.registers.bx.toNat text) (low : 0x7C00 ≤ m.registers.bx.toNat)
    (high : m.registers.bx.toNat + text.length < 0x7E00) (room : 0x7E00 + teletype.depth ≤ m.sp.toNat)
    (enough : text.length < bound) :
    ∃ last, printLoop teletype bound ⟨shown, m⟩ = some ⟨shown ++ text, last⟩ ∧ last.sp = m.sp ∧
      Kept m.sp.toNat m.memory last.memory := by
  induction text generalizing m shown bound with
  | nil =>
    obtain ⟨bound, rfl⟩ : ∃ rest, bound = rest + 1 := ⟨bound - 1, by omega⟩
    have stop : printing ⟨shown, m⟩ = false := by
      have zero : m.memory m.registers.bx.toNat = 0 := text_at
      simp [printing, loadAl, setAl, zero]
    rw [List.append_nil]
    exact ⟨m, whileLoop_exit stop bound, rfl, fun _ _ => rfl⟩
  | cons byte rest ih =>
    obtain ⟨bound, rfl⟩ : ∃ rest, bound = rest + 1 := ⟨bound - 1, by omega⟩
    obtain ⟨nonzero, here, later⟩ := text_at
    rw [List.length_cons] at high enough
    have go : printing ⟨shown, m⟩ = true := by simpa [printing, loadAl, setAl, here] using nonzero
    obtain ⟨next, step, moved, sp, kept⟩ := printStep_spec shown here room
    have bx : next.registers.bx.toNat = m.registers.bx.toNat + 1 := by
      rw [moved]
      bv_omega
    have text_at' : TextAt next.memory next.registers.bx.toNat rest := by
      rw [bx]
      exact later.congr fun other low' high' => kept other (Or.inl ⟨by omega, by omega⟩)
    have round : printLoop teletype (bound + 1) ⟨shown, m⟩ = printLoop teletype bound ⟨shown ++ [byte], next⟩ :=
      whileLoop_step go step bound
    obtain ⟨last, ran, sp', kept'⟩ : ∃ last, printLoop teletype bound ⟨shown ++ [byte], next⟩ =
        some ⟨shown ++ [byte] ++ rest, last⟩ ∧ last.sp = next.sp ∧ Kept next.sp.toNat next.memory last.memory :=
      ih text_at' (by omega) (by omega) (by rw [sp]; exact room) (by omega)
    refine ⟨last, ?_, sp'.trans sp, ?_⟩
    · rw [List.append_assoc, List.singleton_append] at ran
      exact round.trans ran
    · intro address inside
      rw [sp] at kept'
      rw [kept' address inside, kept address inside]

theorem print_spec {text : List Byte} {bound : Nat} (text_at : TextAt m.memory m.registers.bx.toNat text)
    (low : 0x7C00 ≤ m.registers.bx.toNat) (high : m.registers.bx.toNat + text.length < 0x7E00)
    (room : 0x7E00 + 16 + teletype.depth ≤ m.sp.toNat) (top : m.sp.toNat + 2 ≤ 0xA000)
    (enough : text.length < bound) :
    ∃ outcome, print teletype bound m = some outcome ∧ outcome.shown = text ∧ Restored m outcome ∧
      Kept m.sp.toNat m.memory outcome.machine.memory := by
  obtain ⟨sp, registers, memory⟩ := pusha_spec (m := m) (by omega)
  have pushed : TextAt m.pusha.memory m.pusha.registers.bx.toNat text := by
    rw [registers]
    exact text_at.congr fun other low' high' => memory other (by omega)
  obtain ⟨last, ran, sp', kept⟩ : ∃ last, printLoop teletype bound ⟨[], m.pusha⟩ = some ⟨text, last⟩ ∧
      last.sp = m.pusha.sp ∧ Kept m.pusha.sp.toNat m.pusha.memory last.memory := by
    refine printLoop_spec pushed ?_ ?_ ?_ enough
    · rwa [registers]
    · rwa [registers]
    · omega
  have kept' : Kept m.sp.toNat m.memory last.memory := fun address inside => by
    rw [kept address (by omega), memory address (by omega)]
  obtain ⟨loaded, loads⟩ : ∃ loaded, loaded = loadAl last := ⟨_, rfl⟩
  have loaded_sp : loaded.sp = m.pusha.sp := by rw [loads]; exact sp'
  have loaded_memory : loaded.memory = last.memory := by rw [loads]; rfl
  have returned : Restored m ⟨text, loaded.popa.top, loaded.popa.drop⟩ := by
    refine leave_restored m text (by omega) loaded_sp (fun address low' high' => ?_) fun address low' high' => ?_
    · rw [loaded_memory]
      exact kept address (by omega)
    · rw [loaded_memory]
      exact kept' address (by omega)
  have ended : print teletype bound m = some ⟨text, loaded.popa.top, loaded.popa.drop⟩ := by
    rw [print, ran, Option.map_some, loads]
  have memory' := (popa_memory loaded).trans loaded_memory
  -- the registers that `popa` takes play no part any more
  generalize loaded.popa = popped at returned ended memory'
  refine ⟨_, ended, rfl, returned, ?_⟩
  show Kept m.sp.toNat m.memory popped.memory
  rw [memory']
  exact kept'

/-- The call of `print` within `print_hex`: its return address goes below the saved registers. -/
theorem callPrint_spec {call : Call teletype} {bound : Nat} {last : Machine} {text : List Byte}
    (sp : last.sp = call.machine.pusha.sp) (text_at : TextAt last.memory call.hexOut.toNat text)
    (short : text.length ≤ 6) (enough : 6 < bound) :
    ∃ printed, print teletype bound ((setBx last call.hexOut).push call.afterPrint) = some printed ∧
      printed.shown = text ∧ printed.ip = call.afterPrint ∧ printed.machine.sp = call.machine.pusha.sp ∧
      ∀ address, call.machine.sp.toNat - 16 ≤ address → address < 0xA000 →
        printed.machine.memory address = last.memory address := by
  have room := call.room
  have top := call.top
  have low := call.low
  have high := call.high
  obtain ⟨spNat, _, _⟩ := pusha_spec (m := call.machine) (by omega)
  obtain ⟨m, sets⟩ : ∃ m, m = setBx last call.hexOut := ⟨_, rfl⟩
  have m_sp : m.sp = call.machine.pusha.sp := by rw [sets]; exact sp
  have m_memory : m.memory = last.memory := by rw [sets]; rfl
  have m_bx : m.registers.bx = call.hexOut := by rw [sets]; rfl
  rw [← sets]
  have called_sp := push_sp m call.afterPrint (by rw [m_sp]; omega)
  rw [m_sp, spNat] at called_sp
  have elsewhere : ∀ address, address < call.machine.sp.toNat - 18 ∨ call.machine.sp.toNat - 16 ≤ address →
      (m.push call.afterPrint).memory address = last.memory address := by
    intro address outside
    rw [← m_memory]
    exact push_elsewhere (by rw [m_sp]; omega) (by rw [m_sp]; omega)
  obtain ⟨printed, prints, shown, restored, kept⟩ : ∃ printed,
      print teletype bound (m.push call.afterPrint) = some printed ∧ printed.shown = text ∧
      Restored (m.push call.afterPrint) printed ∧
      Kept (m.push call.afterPrint).sp.toNat (m.push call.afterPrint).memory printed.machine.memory := by
    refine print_spec ?_ ?_ ?_ ?_ ?_ (by omega)
    · rw [push_registers, m_bx]
      exact text_at.congr fun other low' high' => elsewhere other (by omega)
    all_goals
      try rw [push_registers, m_bx]
      omega
  refine ⟨printed, prints, shown, restored.ip.trans (push_top m call.afterPrint), ?_, ?_⟩
  · rw [restored.sp, ← m_sp]
    exact drop_push_sp
  · intro address above below
    rw [kept address (by omega), elsewhere address (by omega)]

/-- Once the loop has left a string in `HEX_OUT`, that is what is shown. -/
theorem printHexFrom_spec {start : Half} {call : Call teletype} {bound : Nat} {last : Machine} {text : List Byte}
    (ran : hexLoop call.hexOut bound (setCx call.machine.pusha start) = some last)
    (sp : last.sp = call.machine.pusha.sp)
    (kept : ∀ address, 0x7E00 ≤ address → last.memory address = call.machine.pusha.memory address)
    (text_at : TextAt last.memory call.hexOut.toNat text) (short : text.length ≤ 6) (enough : 6 < bound) :
    ∃ outcome, printHexFrom start call bound = some outcome ∧ outcome.shown = text ∧
      Restored call.machine outcome := by
  have room := call.room
  have top := call.top
  obtain ⟨_, _, memory⟩ := pusha_spec (m := call.machine) (by omega)
  obtain ⟨printed, prints, shown, after, back, printKept⟩ := callPrint_spec sp text_at short enough
  have stack : ∀ address, call.machine.sp.toNat - 16 ≤ address → address < 0xA000 →
      printed.machine.memory address = call.machine.pusha.memory address := by
    intro address above below
    rw [printKept address above below, kept address (by omega)]
  have returned : Restored call.machine ⟨printed.shown, printed.machine.popa.top, printed.machine.popa.drop⟩ := by
    refine leave_restored call.machine _ (by omega) back (fun address low' high' => ?_) fun address low' high' => ?_
    · exact stack address low' (by omega)
    · rw [stack address (by omega) (by omega), memory address (by omega)]
  refine ⟨⟨printed.shown, printed.machine.popa.top, printed.machine.popa.drop⟩, ?_, shown, returned⟩
  rw [printHexFrom, ran, Option.bind_some]
  exact (congrArg (Option.bind · _) prints).trans (if_pos after)

/-! ## The two counters -/

theorem hexByte_ne_zero : ∀ digit : BitVec 4, hexByte digit ≠ 0 := by decide

/-- The digit positions of `HEX_OUT` as the call finds them. -/
def Call.earlier (call : Call teletype) : List Byte :=
  [call.machine.memory (call.hexOut.toNat + 2), call.machine.memory (call.hexOut.toNat + 3),
    call.machine.memory (call.hexOut.toNat + 4), call.machine.memory (call.hexOut.toNat + 5)]

/-- The pushes leave `HEX_OUT`. -/
theorem Call.pusha_memory (call : Call teletype) {address : Nat} (inside : address < 0x7E00) :
    call.machine.pusha.memory address = call.machine.memory address := by
  have room := call.room
  exact (pusha_spec (by omega)).2.2 address (by omega)

theorem kernelCPrintHex_shows (call : Call teletype) {bound : Nat} (enough : 6 < bound) :
    ∃ outcome, kernelCPrintHex call bound = some outcome ∧ outcome.shown = hexText (dx call.machine) ∧
      Restored call.machine outcome := by
  have room := call.room
  have high := call.high
  obtain ⟨_, registers, _⟩ := pusha_spec (m := call.machine) (by omega)
  obtain ⟨first, starts⟩ : ∃ first, first = setCx call.machine.pusha 0 := ⟨_, rfl⟩
  have memory : first.memory = call.machine.pusha.memory := by rw [starts]; rfl
  have value : dx first = dx call.machine := by
    rw [starts, dx, dx, ← registers]
    rfl
  have started : Rounds call.hexOut first 0 first := by
    refine ⟨?_, fun i _ => by rw [Nat.zero_add], fun i none => absurd none (Nat.not_lt_zero i), fun _ _ => rfl, rfl⟩
    rw [starts, setCx_cx]
    rfl
  obtain ⟨last, ran, rounds⟩ := started.finish high (by decide) (show 4 - 0 < bound by omega)
  have kept : ∀ address, address < 0x7E00 → address ≤ call.hexOut.toNat + 1 ∨ call.hexOut.toNat + 5 < address →
      last.memory address = call.machine.memory address := by
    intro address inside outside
    rw [rounds.kept address (by omega), memory, call.pusha_memory inside]
  have digit : ∀ i, i < 4 → last.memory (call.hexOut.toNat + 5 - i) = hexByte (nibble (dx call.machine) i) := by
    intro i inside
    rw [rounds.written i inside, value]
  have text_at : TextAt last.memory call.hexOut.toNat (hexText (dx call.machine)) := by
    refine ⟨by decide, (kept _ (by omega) (by omega)).trans call.zero, by decide,
      (kept _ (by omega) (by omega)).trans call.x, ?_⟩
    refine ⟨hexByte_ne_zero _, digit 3 (by decide), hexByte_ne_zero _, digit 2 (by decide),
      hexByte_ne_zero _, digit 1 (by decide), hexByte_ne_zero _, digit 0 (by decide), ?_⟩
    exact (kept _ (by omega) (by omega)).trans call.stop
  rw [starts] at ran
  refine printHexFrom_spec ran ?_ ?_ text_at (Nat.le_refl 6) enough
  · rw [rounds.sp, starts]
    rfl
  · intro address above
    rw [rounds.kept address (by omega), memory]

/-- With its counter at 4 the loop ends before its first round. -/
theorem bootloaderPrintHex_shows (call : Call teletype) {bound : Nat} (enough : 6 < bound) :
    ∃ outcome, bootloaderPrintHex call bound = some outcome ∧
      outcome.shown = [0x30, 0x78] ++ call.earlier.takeWhile (· ≠ 0) ∧ Restored call.machine outcome := by
  have high := call.high
  obtain ⟨bound, rfl⟩ : ∃ rest, bound = rest + 1 := ⟨bound - 1, by omega⟩
  have ran : hexLoop call.hexOut (bound + 1) (setCx call.machine.pusha 4) = some (setCx call.machine.pusha 4) :=
    whileLoop_exit (by simp [hexTest, setCx_cx]) bound
  have at_ : ∀ address, address < 0x7E00 → (setCx call.machine.pusha 4).memory address =
      call.machine.memory address := fun address inside => call.pusha_memory inside
  have text_at : TextAt (setCx call.machine.pusha 4).memory call.hexOut.toNat
      (([0x30, 0x78] ++ call.earlier).takeWhile (· ≠ 0)) := by
    refine textAt_takeWhile (fun k inside => ?_) ((at_ _ ?_).trans call.stop)
    · rw [at_ _ (by simp [Call.earlier] at inside; omega)]
      match k, inside with
      | 0, _ => exact call.zero
      | 1, _ => exact call.x
      | 2, _ | 3, _ | 4, _ | 5, _ => rfl
    · show call.hexOut.toNat + 6 < 0x7E00
      omega
  have text : ([0x30, 0x78] ++ call.earlier).takeWhile (· ≠ 0) = [0x30, 0x78] ++ call.earlier.takeWhile (· ≠ 0) :=
    List.takeWhile_append_of_pos (by decide)
  have short : (call.earlier.takeWhile (· ≠ 0)).length ≤ 4 := (List.takeWhile_prefix _).length_le
  rw [text] at text_at
  refine printHexFrom_spec ran rfl (fun _ _ => rfl) text_at ?_ enough
  rw [List.length_append]
  exact Nat.add_le_add_left short 2

/-- Both routines show the four digits of `dx` and restore the registers. -/
def Agree {teletype teletype' : Teletype} (kernelC : Call teletype) (bootloader : Call teletype') (bound : Nat) :
    Prop :=
  ∃ first second, kernelCPrintHex kernelC bound = some first ∧ bootloaderPrintHex bootloader bound = some second ∧
    first.shown = hexText (dx kernelC.machine) ∧ second.shown = first.shown ∧
    Restored kernelC.machine first ∧ Restored bootloader.machine second

theorem takeWhile_eq_iff {values digits : List Byte} (length : values.length = digits.length)
    (nonzero : ∀ digit ∈ digits, digit ≠ 0) : values.takeWhile (· ≠ 0) = digits ↔ values = digits := by
  constructor
  · intro same
    have whole : values.takeWhile (· ≠ 0) = values :=
      (List.takeWhile_prefix _).eq_of_length (by rw [same, length])
    rw [← whole, same]
  · rintro rfl
    exact List.takeWhile_eq_self_iff.mpr fun digit member => by simpa using nonzero digit member

/-- The routine of the boot loader shows what `HEX_OUT` held, so the two agree exactly when that was
the number already. -/
theorem printHex_agree_iff {teletype teletype' : Teletype} (kernelC : Call teletype)
    (bootloader : Call teletype') (same : dx kernelC.machine = dx bootloader.machine) (bound : Nat) :
    Agree kernelC bootloader (bound + 7) ↔ bootloader.earlier = hexDigits (dx bootloader.machine) := by
  obtain ⟨first, ran, shown, restored⟩ := kernelCPrintHex_shows kernelC (show 6 < bound + 7 by omega)
  obtain ⟨second, ran', shown', restored'⟩ := bootloaderPrintHex_shows bootloader (show 6 < bound + 7 by omega)
  have nonzero : ∀ digit ∈ hexDigits (dx bootloader.machine), digit ≠ 0 := by
    simp only [hexDigits, List.forall_mem_cons]
    exact ⟨hexByte_ne_zero _, hexByte_ne_zero _, hexByte_ne_zero _, hexByte_ne_zero _,
      fun _ none => absurd none List.not_mem_nil⟩
  have length : bootloader.earlier.length = (hexDigits (dx bootloader.machine)).length := rfl
  rw [← takeWhile_eq_iff length nonzero]
  constructor
  · rintro ⟨first', second', one, other, text, equal, -, -⟩
    rw [Option.some.inj (one.symm.trans ran)] at text equal
    rw [Option.some.inj (other.symm.trans ran'), shown', shown, hexText, same] at equal
    exact List.append_cancel_left equal
  · intro equal
    refine ⟨first, second, ran, ran', shown, ?_, restored, restored'⟩
    rw [shown, shown', equal, same, hexText]

/-- A BIOS that puts the character into the first cell of video memory. -/
def firstCell : Teletype where
  run m := { m with memory := Function.update m.memory 0xB8000 m.registers.al }
  depth := 6
  bx _ := rfl
  sp _ := rfl
  memory _ address _ below _ := Function.update_of_ne (by omega) _ _

/-- `HEX_OUT` as it is assembled in legacy/bootloader: `db '0x0010', 0`. -/
def assembled : List Byte := [0x30, 0x78, 0x30, 0x30, 0x31, 0x30, 0]

def hexOutBlock : Block := ⟨0x7D00, 7⟩

/-- A boot sector with `HEX_OUT` at 0x7D00. -/
def assembledAt : Nat → Byte := hexOutBlock.fill (assembled.getD · 0) fun _ => 0

theorem assembledAt_offset {i : Nat} (inside : i < 7) :
    assembledAt ((0x7D00 : Half).toNat + i) = assembled.getD i 0 :=
  hexOutBlock.fill_inside _ _ inside

theorem assembledAt_start : assembledAt (0x7D00 : Half).toNat = 0x30 :=
  assembledAt_offset (show 0 < 7 by decide)

/-- The first call of `boot_sect_main.asm`. -/
def firstMachine (value : Half) : Machine where
  registers := ⟨0, 0, 0, 0, 0, (value >>> 8).setWidth 8, value.setWidth 8⟩
  bp := 0x8000
  si := 0
  di := 0
  sp := 0x7FFE
  flags := 0
  memory := assembledAt

theorem firstMachine_memory (value : Half) : (firstMachine value).memory = assembledAt := rfl

theorem firstMachine_sp (value : Half) : (firstMachine value).sp.toNat = 0x7FFE := rfl

def firstCall (value : Half) : Call firstCell where
  machine := firstMachine value
  hexOut := 0x7D00
  afterPrint := 0x7C80
  low := by decide
  high := by decide
  room := by
    rw [firstMachine_sp]
    decide
  top := by
    rw [firstMachine_sp]
    decide
  zero := by rw [firstMachine_memory, assembledAt_start]
  x := by
    rw [firstMachine_memory, assembledAt_offset (by decide)]
    rfl
  stop := by
    rw [firstMachine_memory, assembledAt_offset (by decide)]
    rfl

theorem firstCall_dx (value : Half) : dx (firstCall value).machine = value := word_split value

theorem firstCall_earlier (value : Half) : (firstCall value).earlier = [0x30, 0x30, 0x31, 0x30] := by
  simp only [Call.earlier, firstCall, firstMachine_memory]
  rw [assembledAt_offset (by decide), assembledAt_offset (by decide), assembledAt_offset (by decide),
    assembledAt_offset (by decide)]
  rfl

/-- The value that `HEX_OUT` holds from the start. -/
theorem printHex_agree_0010 : Agree (firstCall 0x0010) (firstCall 0x0010) 7 := by
  refine (printHex_agree_iff (firstCall 0x0010) (firstCall 0x0010) rfl 0).mpr ?_
  rw [firstCall_earlier, firstCall_dx]
  decide

/-- For 0x1234 the boot loader's routine shows 0x0010. -/
theorem printHex_1234_shows_0010 :
    (∃ outcome, bootloaderPrintHex (firstCall 0x1234) 7 = some outcome ∧
      outcome.shown = [0x30, 0x78, 0x30, 0x30, 0x31, 0x30]) ∧
    hexText (dx (firstCall 0x1234).machine) = [0x30, 0x78, 0x31, 0x32, 0x33, 0x34] ∧
    ¬ Agree (firstCall 0x1234) (firstCall 0x1234) 7 := by
  have text : hexText (dx (firstCall 0x1234).machine) = [0x30, 0x78, 0x31, 0x32, 0x33, 0x34] := by
    rw [firstCall_dx]
    decide
  have left : [0x30, 0x78] ++ (firstCall 0x1234).earlier.takeWhile (· ≠ 0) =
      [0x30, 0x78, 0x30, 0x30, 0x31, 0x30] := by
    rw [firstCall_earlier]
    decide
  obtain ⟨outcome, ran, shown, _⟩ := bootloaderPrintHex_shows (firstCall 0x1234) (show 6 < 7 by decide)
  rw [left] at shown
  refine ⟨⟨outcome, ran, shown⟩, text, ?_⟩
  rintro ⟨first, second, -, other, right, same, -, -⟩
  rw [Option.some.inj (other.symm.trans ran), shown, right, text] at same
  exact absurd same (by decide)

end SzOS.Bootloader
