import SzOS.KernelC.DiskLoad
import SzOS.Semantics.Blocks

/-! The boot sector of kernel-c while it loads the kernel (boot/bootsect.asm).

The loader's code and variables, its stack and its buffer share one memory. What
runs once a read has overwritten the code is not the loader any more, so a run
is followed only as long as the code and the frame of the interrupt are there.
-/

set_option autoImplicit false

namespace SzOS.KernelC.BootSector
open Semantics Hardware

def kernelSectors : Half := 100
def kernelOffset : Half := 0x1000

/-- All segment registers are 0, so an offset is an address. -/
structure Machine where
  registers : Registers
  bp : Half
  si : Half
  di : Half
  sp : Half
  flags : Half
  memory : Nat → Byte

def bootSector : Block := ⟨0x7C00, 512⟩

/-- What the assembler decided: where the variables are, and where calls return to. -/
structure Layout where
  sectorsLeft : Nat
  bootDrive : Nat
  inside : Block.Inside bootSector.start bootSector.stop ⟨sectorsLeft, 7⟩
  afterLoadKernel : Half
  afterDiskLoad : Half
  afterInterrupt : Half

/-! ## Words, stack and variables in memory -/

def word (low high : Byte) : Half := high ++ low

def wordBytes (value : Half) : Nat → Byte
  | 0 => value.setWidth 8
  | _ => (value >>> 8).setWidth 8

theorem word_low (low high : Byte) : (word low high).setWidth 8 = low :=
  BitVec.setWidth_append_eq_right

theorem word_high (low high : Byte) : (word low high >>> 8).setWidth 8 = high := by
  rw [word, BitVec.setWidth_ushiftRight_eq_extractLsb, BitVec.extractLsb'_append_eq_left]

theorem word_wordBytes (value : Half) : word (wordBytes value 0) (wordBytes value 1) = value :=
  setWidth_append value 8 8 |>.trans (BitVec.setWidth_eq _)

namespace Machine

def push (m : Machine) (value : Half) : Machine :=
  { m with
    sp := m.sp - 2
    memory := Block.fill ⟨(m.sp - 2).toNat, 2⟩ (wordBytes value) m.memory }

def top (m : Machine) : Half := word (m.memory m.sp.toNat) (m.memory (m.sp.toNat + 1))

def drop (m : Machine) : Machine := { m with sp := m.sp + 2 }

def pushAll (m : Machine) (values : List Half) : Machine := values.foldl push m

def pusha (m : Machine) : Machine :=
  let r := m.registers
  m.pushAll [r.ax, r.cx, r.dh ++ r.dl, r.bx, m.sp, m.bp, m.si, m.di]

def popa (m : Machine) : Machine :=
  let m := { m with di := m.top }.drop
  let m := { m with si := m.top }.drop
  let m := { m with bp := m.top }.drop.drop
  let m := { m with registers := { m.registers with bx := m.top } }.drop
  let m := { m with registers :=
    { m.registers with dh := (m.top >>> 8).setWidth 8, dl := m.top.setWidth 8 } }.drop
  let m := { m with registers :=
    { m.registers with ch := (m.top >>> 8).setWidth 8, cl := m.top.setWidth 8 } }.drop
  { m with registers :=
    { m.registers with ah := (m.top >>> 8).setWidth 8, al := m.top.setWidth 8 } }.drop

end Machine

/-- `SECTORS_LEFT`, then the five bytes in the order of the source. -/
def variableByte (v : Variables) : Nat → Byte
  | 0 => wordBytes v.sectorsLeft 0
  | 1 => wordBytes v.sectorsLeft 1
  | 2 => v.curCyl
  | 3 => v.curHead
  | 4 => v.curSect
  | 5 => v.available
  | _ => v.sectorsNow

namespace Layout

variable (layout : Layout)

def block : Block := ⟨layout.sectorsLeft, 7⟩

def load (memory : Nat → Byte) : Variables where
  sectorsLeft := word (memory layout.sectorsLeft) (memory (layout.sectorsLeft + 1))
  curCyl := memory (layout.sectorsLeft + 2)
  curHead := memory (layout.sectorsLeft + 3)
  curSect := memory (layout.sectorsLeft + 4)
  available := memory (layout.sectorsLeft + 5)
  sectorsNow := memory (layout.sectorsLeft + 6)

def view (m : Machine) : Loader := { m.registers, layout.load m.memory with }

def store (m : Machine) (l : Loader) : Machine :=
  { m with
    registers := l.toRegisters
    memory := layout.block.fill (variableByte l.toVariables) m.memory }

/-- The boot sector apart from the variables holds the bytes that the BIOS loaded there. -/
def codeIntact (boot memory : Nat → Byte) : Bool :=
  (List.range' bootSector.start bootSector.size).all fun address =>
    layout.block.Covers address || memory address == boot address

end Layout

/-! ## int 0x13 and the loop -/

def buffer (read : Read) : Block := ⟨read.bx.toNat, 512 * read.count⟩

/-- The sectors of the floppy image arrive in the buffer. -/
def transfer (image : Nat → Byte) (read : Read) (m : Machine) : Machine :=
  { m with memory := (buffer read).fill (fun offset => image (512 * read.linear + offset)) m.memory }

/-- The frame of the interrupt is popped; the run goes on where it was interrupted. -/
def interruptReturn (layout : Layout) (boot : Nat → Byte) (m : Machine) : Option Machine :=
  if layout.codeIntact boot m.memory ∧ m.top = layout.afterInterrupt ∧ m.drop.top = 0 then
    let m := m.drop.drop
    some { m with flags := m.top }.drop
  else none

/-- A read that the BIOS carries out. -/
def bios (layout : Layout) (boot image : Nat → Byte) (m : Machine) : Option Machine :=
  let read := m.registers.read
  let m := ((m.push m.flags).push 0).push layout.afterInterrupt
  let m := transfer image read m
  interruptReturn layout boot m

def pending (layout : Layout) (m : Machine) : Bool := (layout.load m.memory).sectorsLeft ≠ 0

/-- The read that follows when the loop goes on. -/
def nextRead (layout : Layout) (m : Machine) : Read := (prepare (layout.view m)).read

def readTrack (layout : Layout) (boot image : Nat → Byte) (m : Machine) : Option Machine :=
  let m := layout.store m (prepare (layout.view m))
  let count := m.registers.al
  (bios layout boot image m).bind fun m =>
    match advance (layout.view m) ⟨false, 0, count⟩ with
    | .ok l => some (layout.store m l)
    | .error _ => none

/-- The call, `pusha` and the first assignments of `disk_load_many`. -/
def enterDiskLoad (layout : Layout) (m : Machine) : Machine :=
  let m := (m.push layout.afterDiskLoad).pusha
  layout.store m (loaderSetup (layout.view m))

/-- `popa` and `ret`, which must lead back to `load_kernel`. -/
def leaveDiskLoad (layout : Layout) (m : Machine) : Option Machine :=
  let m := m.popa
  if m.top = layout.afterDiskLoad then some m.drop else none

/-- The call of `load_kernel` up to its call of `disk_load_many`. `print` and `print_nl`, which it
calls first, restore the registers. -/
def enterLoadKernel (layout : Layout) (sectors : Half) (m : Machine) : Machine :=
  let m := { m with bp := 0x9000, sp := 0x9000 }
  let m := m.push layout.afterLoadKernel
  { m with registers := { m.registers with
      bx := kernelOffset, ah := (sectors >>> 8).setWidth 8, al := sectors.setWidth 8
      dl := m.memory layout.bootDrive } }

/-- The state in which `disk_load_many` first tests `SECTORS_LEFT`. -/
def loopEntry (layout : Layout) (sectors : Half) (m : Machine) : Machine :=
  enterDiskLoad layout (enterLoadKernel layout sectors m)

/-- From the start of the boot sector's own stack; `none` when a return leads elsewhere. -/
def loadKernel (layout : Layout) (image : Nat → Byte) (sectors : Half) (bound : Nat) (m : Machine) :
    Option Machine :=
  (whileLoop (pending layout) (readTrack layout m.memory image) bound (loopEntry layout sectors m)).bind
    fun m => (leaveDiskLoad layout m).bind fun m =>
      if m.top = layout.afterLoadKernel then some m.drop else none

/-- The return addresses, the registers of `pusha` and the frame of the interrupt. -/
def liveStack : Block := ⟨0x8FE6, 0x1A⟩

/-- Every read leaves the boot sector and the live stack, and both calls return. -/
def Safe (layout : Layout) (image : Nat → Byte) (sectors : Half) (m : Machine) : Prop :=
  (∀ visited, Visits (pending layout) (readTrack layout m.memory image) (loopEntry layout sectors m)
      visited → pending layout visited = true →
        (buffer (nextRead layout visited)).Apart bootSector ∧
          (buffer (nextRead layout visited)).Apart liveStack) ∧
    ∃ bound final, loadKernel layout image sectors bound m = some final ∧ final.sp = 0x9000

/-! ## Stack and variables -/

variable {m : Machine} {value : Half}

theorem lower_sp {sp : Half} (room : 2 ≤ sp.toNat) : (sp - 2).toNat = sp.toNat - 2 := by
  bv_omega

theorem push_sp (m : Machine) (value : Half) (room : 2 ≤ m.sp.toNat) :
    (m.push value).sp.toNat = m.sp.toNat - 2 := lower_sp room

@[simp] theorem push_registers (m : Machine) (value : Half) :
    (m.push value).registers = m.registers := rfl

theorem drop_push_sp : (m.push value).drop.sp = m.sp := BitVec.sub_add_cancel m.sp 2

theorem push_elsewhere (room : 2 ≤ m.sp.toNat) {address : Nat}
    (elsewhere : address < m.sp.toNat - 2 ∨ m.sp.toNat ≤ address) :
    (m.push value).memory address = m.memory address := by
  apply Block.fill_outside
  simp only [Block.Covers, Block.stop, lower_sp room]
  omega

theorem push_top (m : Machine) (value : Half) : (m.push value).top = value := by
  have low := Block.fill_inside ⟨(m.sp - 2).toNat, 2⟩ (wordBytes value) m.memory (show 0 < 2 by decide)
  have high := Block.fill_inside ⟨(m.sp - 2).toNat, 2⟩ (wordBytes value) m.memory (show 1 < 2 by decide)
  exact (congrArg₂ word low high).trans (word_wordBytes value)

/-- What stood on top before a push is there again after the drop. -/
theorem drop_push_top (room : 2 ≤ m.sp.toNat) : (m.push value).drop.top = m.top := by
  simp only [Machine.top]
  rw [drop_push_sp]
  exact congrArg₂ word (push_elsewhere room (Or.inr (Nat.le_refl _)))
    (push_elsewhere room (Or.inr (Nat.le_succ _)))

theorem top_congr {first second : Machine} (sp : first.sp = second.sp)
    (low : first.memory first.sp.toNat = second.memory first.sp.toNat)
    (high : first.memory (first.sp.toNat + 1) = second.memory (first.sp.toNat + 1)) :
    first.top = second.top := by
  simp only [Machine.top, ← sp, low, high]

variable (layout : Layout)

@[simp] theorem load_fill (l : Variables) (memory : Nat → Byte) :
    layout.load (layout.block.fill (variableByte l) memory) = l := by
  have at_ : ∀ offset, offset < 7 →
      layout.block.fill (variableByte l) memory (layout.sectorsLeft + offset) = variableByte l offset :=
    fun offset inside => Block.fill_inside layout.block _ memory inside
  have first := at_ 0 (by decide)
  rw [Nat.add_zero] at first
  simp only [Layout.load, first, at_ 1 (by decide), at_ 2 (by decide), at_ 3 (by decide),
    at_ 4 (by decide), at_ 5 (by decide), at_ 6 (by decide), variableByte, word_wordBytes]

@[simp] theorem view_store (m : Machine) (l : Loader) : layout.view (layout.store m l) = l := by
  simp only [Layout.view, Layout.store, load_fill]

theorem load_congr {first second : Nat → Byte} (agree : layout.block.Agree first second) :
    layout.load first = layout.load second := by
  have at_ : ∀ offset, offset < 7 →
      first (layout.sectorsLeft + offset) = second (layout.sectorsLeft + offset) := by
    intro offset inside
    apply agree
    simp only [Block.Covers, Block.stop, Layout.block]
    omega
  have here := at_ 0 (by decide)
  rw [Nat.add_zero] at here
  simp only [Layout.load, here, at_ 1 (by decide), at_ 2 (by decide), at_ 3 (by decide),
    at_ 4 (by decide), at_ 5 (by decide), at_ 6 (by decide)]

/-- The code's cells, which the loader itself never writes. -/
def CodeCell (layout : Layout) (address : Nat) : Prop :=
  bootSector.Covers address ∧ ¬ layout.block.Covers address

theorem codeIntact_iff (boot memory : Nat → Byte) :
    layout.codeIntact boot memory = true ↔
      ∀ address, CodeCell layout address → memory address = boot address := by
  simp only [Layout.codeIntact, List.all_eq_true, List.mem_range'_1, Bool.or_eq_true,
    decide_eq_true_eq, beq_iff_eq, CodeCell]
  constructor
  · rintro intact address ⟨covered, code⟩
    exact (intact address covered).resolve_left code
  · intro same address covered
    by_cases isVariable : layout.block.Covers address
    · exact Or.inl isVariable
    · exact Or.inr (same address ⟨covered, isVariable⟩)

/-! ## One read -/

/-- The stack pointer between `pusha` and `popa`. -/
def loopSp : Half := 0x8FEC

/-- Where the interrupt's return address and flags are on the stack. -/
def interruptFrame : Block := ⟨0x8FE6, 6⟩

/-- The processor pushes the flags, its segment 0 and the return address. -/
def enterInterrupt (m : Machine) : Machine :=
  ((m.push m.flags).push 0).push layout.afterInterrupt

theorem enterInterrupt_memory (sp : m.sp = loopSp) {address : Nat}
    (outside : ¬ interruptFrame.Covers address) :
    (enterInterrupt layout m).memory address = m.memory address := by
  have sp1 : m.sp.toNat = 0x8FEC := by rw [sp]; rfl
  have sp2 := push_sp m m.flags (by omega)
  have sp3 := push_sp (m.push m.flags) 0 (by omega)
  simp only [interruptFrame, Block.Covers, Block.stop] at outside
  rw [enterInterrupt, push_elsewhere (by omega) (by omega), push_elsewhere (by omega) (by omega),
    push_elsewhere (by omega) (by omega)]

/-- The frame, word by word, whatever else the memory holds. -/
theorem enterInterrupt_frame (sp : m.sp = loopSp) {framed : Machine}
    (same : framed.sp = (enterInterrupt layout m).sp)
    (frame : ∀ address, interruptFrame.Covers address →
      framed.memory address = (enterInterrupt layout m).memory address) :
    framed.top = layout.afterInterrupt ∧ framed.drop.top = 0 ∧ framed.drop.drop.top = m.flags := by
  have sp1 : m.sp.toNat = 0x8FEC := by rw [sp]; rfl
  have sp2 := push_sp m m.flags (by omega)
  have sp3 := push_sp (m.push m.flags) 0 (by omega)
  have sp4 := push_sp ((m.push m.flags).push 0) layout.afterInterrupt (by omega)
  have dropped : framed.drop.sp = ((m.push m.flags).push 0).sp := by
    have popped : (enterInterrupt layout m).drop.sp = ((m.push m.flags).push 0).sp := drop_push_sp
    exact (congrArg (· + 2) same).trans popped
  have twice : framed.drop.drop.sp = (m.push m.flags).sp := by
    have popped : ((m.push m.flags).push 0).drop.sp = (m.push m.flags).sp := drop_push_sp
    exact (congrArg (· + 2) dropped).trans popped
  have inFrame : ∀ address, 0x8FE6 ≤ address → address < 0x8FEC → framed.memory address =
      (((m.push m.flags).push 0).push layout.afterInterrupt).memory address := by
    intro address low high
    exact frame address ⟨low, high⟩
  refine ⟨?_, ?_, ?_⟩
  · rw [enterInterrupt] at same
    refine (top_congr same ?_ ?_).trans (push_top _ _)
    all_goals
      rw [same]
      exact inFrame _ (by omega) (by omega)
  · refine (top_congr dropped ?_ ?_).trans (push_top (m.push m.flags) 0)
    all_goals
      rw [dropped]
      exact (inFrame _ (by omega) (by omega)).trans (push_elsewhere (by omega) (by omega))
  · refine (top_congr twice ?_ ?_).trans (push_top m m.flags)
    all_goals
      rw [twice]
      exact (inFrame _ (by omega) (by omega)).trans ((push_elsewhere (by omega) (by omega)).trans
        (push_elsewhere (by omega) (by omega)))

/-- The three words of the frame are popped again. -/
theorem interruptReturn_sp {framed : Machine} (same : framed.sp = (enterInterrupt layout m).sp) :
    framed.drop.drop.drop.sp = m.sp := by
  show framed.sp + 2 + 2 + 2 = m.sp
  rw [same]
  show m.sp - 2 - 2 - 2 + 2 + 2 + 2 = m.sp
  simp only [BitVec.sub_add_cancel]

variable {layout} {boot image : Nat → Byte}

theorem transfer_above {read : Read} (below : (buffer read).stop ≤ 0x7C00) {address : Nat}
    (above : 0x7C00 ≤ address) : (transfer image read m).memory address = m.memory address := by
  have outside : ¬ (buffer read).Covers address := by
    simp only [Block.Covers]
    omega
  exact (buffer read).fill_outside (fun offset => image (512 * read.linear + offset)) m.memory outside

/-- A read below the boot sector leaves the code, the variables and the stack. -/
theorem bios_spec (boot image : Nat → Byte) (sp : m.sp = loopSp)
    (below : (buffer m.registers.read).stop ≤ 0x7C00)
    (intact : ∀ address, CodeCell layout address → m.memory address = boot address) :
    ∃ next, bios layout boot image m = some next ∧ next.registers = m.registers ∧ next.sp = m.sp ∧
      ∀ address, bootSector.Covers address ∨ 0x8FEC ≤ address →
        next.memory address = m.memory address := by
  obtain ⟨arrived, arrives⟩ : ∃ arrived, arrived =
    transfer image m.registers.read (enterInterrupt layout m) := ⟨_, rfl⟩
  have above : ∀ address, 0x7C00 ≤ address →
      arrived.memory address = (enterInterrupt layout m).memory address := by
    intro address high
    rw [arrives]
    exact transfer_above below high
  have memory : ∀ address, bootSector.Covers address ∨ 0x8FEC ≤ address →
      arrived.memory address = m.memory address := by
    intro address elsewhere
    simp only [bootSector, Block.Covers, Block.stop] at elsewhere
    rw [above address (by omega)]
    apply enterInterrupt_memory layout sp
    simp only [interruptFrame, Block.Covers, Block.stop]
    omega
  have code : layout.codeIntact boot arrived.memory = true := by
    rw [codeIntact_iff]
    intro address cell
    rw [memory address (Or.inl cell.1), intact address cell]
  have same : arrived.sp = (enterInterrupt layout m).sp := by rw [arrives]; rfl
  obtain ⟨ip, cs, _⟩ := enterInterrupt_frame layout sp same fun address covered =>
    above address (Nat.le_trans (by decide) covered.1)
  have step : bios layout boot image m = interruptReturn layout boot arrived := by
    rw [arrives]
    rfl
  have registers : arrived.registers = m.registers := by rw [arrives]; rfl
  rw [step, interruptReturn, if_pos ⟨code, ip, cs⟩]
  refine ⟨_, rfl, registers, ?_, memory⟩
  · exact interruptReturn_sp layout same

/-! ## The loop -/

/-- What holds at each test of the loop when every read so far ended below the boot sector. -/
structure Sound (layout : Layout) (boot entry : Nat → Byte) (total : Nat) (m : Machine) : Prop where
  placed : Placed total (layout.view m).toVariables
  buffer : m.registers.bx.toNat + 512 * (layout.view m).sectorsLeft.toNat = 0x1000 + 512 * total
  below : m.registers.bx.toNat ≤ 0x7C00
  sp : m.sp = loopSp
  code : ∀ address, CodeCell layout address → m.memory address = boot address
  stack : ∀ address, 0x8FEC ≤ address → m.memory address = entry address

variable {entry : Nat → Byte} {total : Nat}

theorem store_elsewhere (l : Loader) {address : Nat} (elsewhere : ¬ layout.block.Covers address) :
    (layout.store m l).memory address = m.memory address :=
  layout.block.fill_outside _ m.memory elsewhere

theorem code_or_stack {address : Nat} (cell : CodeCell layout address ∨ 0x8FEC ≤ address) :
    ¬ layout.block.Covers address := by
  have inside := layout.inside
  rcases cell with cell | above
  · exact cell.2
  · simp only [Block.Inside, Block.stop, bootSector, Block.Covers, Layout.block] at *
    omega

theorem nextRead_eq (sound : Sound layout boot entry total m) (small : total ≤ 2879)
    (go : pending layout m = true) :
    (nextRead layout m).count = (layout.view m).chunk ∧ 0 < (layout.view m).chunk ∧
      (layout.view m).OnDisk ∧ (nextRead layout m).bx = m.registers.bx := by
  have more : 0 < (layout.view m).sectorsLeft.toNat :=
    (sectorsLeft_pos _).mp (decide_eq_true_iff.mp go)
  have onDisk := sound.placed.onDisk small more
  obtain ⟨oneTrack, _, count⟩ := read_oneTrack onDisk more
  refine ⟨count, count ▸ oneTrack.count, onDisk, ?_⟩
  rw [nextRead, prepare_eq]
  rfl

/-- The interrupt of one round: the variables come back as they were prepared. -/
theorem fetch_spec (boot image : Nat → Byte) (sp : m.sp = loopSp)
    (below : (buffer (nextRead layout m)).stop ≤ 0x7C00)
    (intact : ∀ address, CodeCell layout address → m.memory address = boot address) :
    ∃ back, bios layout boot image (layout.store m (prepare (layout.view m))) = some back ∧
      layout.view back = prepare (layout.view m) ∧ back.sp = loopSp ∧
      ∀ address, CodeCell layout address ∨ 0x8FEC ≤ address → back.memory address = m.memory address := by
  obtain ⟨prepared, stored⟩ : ∃ prepared, prepared = layout.store m (prepare (layout.view m)) := ⟨_, rfl⟩
  have registers : prepared.registers = (prepare (layout.view m)).toRegisters := by rw [stored]; rfl
  have viewed : layout.view prepared = prepare (layout.view m) := by rw [stored, view_store]
  have stackPointer : prepared.sp = loopSp := by rw [stored]; exact sp
  have kept : ∀ address, CodeCell layout address ∨ 0x8FEC ≤ address →
      prepared.memory address = m.memory address := by
    intro address cell
    rw [stored, store_elsewhere _ (code_or_stack cell)]
  obtain ⟨back, returned, same, restored, memory⟩ := bios_spec boot image stackPointer
    (by rw [registers]; exact below)
    (fun address cell => (kept address (Or.inl cell)).trans (intact address cell))
  have agree : layout.block.Agree back.memory prepared.memory := by
    intro address covered
    have inside := layout.inside
    apply memory
    simp only [Block.Inside, Block.Covers, Block.stop, Layout.block, bootSector] at *
    omega
  refine ⟨back, ?_, ?_, restored.trans stackPointer, ?_⟩
  · rw [← stored, returned]
  · rw [← viewed, Layout.view, Layout.view, same, load_congr layout agree]
  · intro address cell
    rw [memory address (cell.imp_left And.left), kept address cell]

theorem readTrack_sound (image : Nat → Byte) (sound : Sound layout boot entry total m)
    (small : total ≤ 100) (go : pending layout m = true)
    (below : (buffer (nextRead layout m)).stop ≤ 0x7C00) :
    ∃ next, readTrack layout boot image m = some next ∧ Sound layout boot entry total next ∧
      (layout.view next).sectorsLeft.toNat < (layout.view m).sectorsLeft.toNat := by
  obtain ⟨count, chunkPos, onDisk, bx⟩ := nextRead_eq sound (by omega) go
  have more : 0 < (layout.view m).sectorsLeft.toNat :=
    (sectorsLeft_pos _).mp (decide_eq_true_iff.mp go)
  obtain ⟨back, returned, reloaded, sp, memory⟩ := fetch_spec boot image sound.sp below sound.code
  obtain ⟨answer, answers⟩ : ∃ answer : Answer, answer = ⟨false, 0, (prepare (layout.view m)).al⟩ :=
    ⟨_, rfl⟩
  have carry : answer.carry = false := by rw [answers]
  have counted : answer.al = (prepare (layout.view m)).read.al := by rw [answers]; rfl
  obtain ⟨next, advanced, stepped⟩ := advance_prepare onDisk carry counted
  have chunkLe := chunk_le_left (layout.view m).toVariables
  have start := sound.buffer
  have moved : next.bx.toNat = m.registers.bx.toNat + 512 * (layout.view m).chunk := by
    have wrapped : next.bx.toNat = (m.registers.bx.toNat + 512 * (layout.view m).chunk) % 2 ^ 16 :=
      stepped.buffer
    omega
  refine ⟨layout.store back next, ?_, ⟨?_, ?_, ?_, sp, ?_, ?_⟩, ?_⟩
  · rw [answers] at advanced
    have request : (layout.store m (prepare (layout.view m))).registers.al =
        (prepare (layout.view m)).al := rfl
    simp only [readTrack, returned, request, Option.bind_some, reloaded, advanced]
  · rw [view_store]
    exact sound.placed.step more stepped
  · rw [view_store, stepped.left]
    show next.bx.toNat + _ = _
    omega
  -- the read ended below the boot sector, and the next one starts there
  · show next.bx.toNat ≤ 0x7C00
    have ending : m.registers.bx.toNat + 512 * (layout.view m).chunk ≤ 0x7C00 := by
      simpa only [buffer, Block.stop, count, bx] using below
    omega
  · intro address cell
    rw [store_elsewhere _ cell.2, memory address (Or.inl cell), sound.code address cell]
  · intro address above
    rw [store_elsewhere _ (code_or_stack (Or.inr above)), memory address (Or.inr above),
      sound.stack address above]
  · rw [view_store, stepped.left]
    omega

/-! ## Entry and return -/

theorem pushAll_registers (values : List Half) : (m.pushAll values).registers = m.registers := by
  induction values generalizing m with
  | nil => rfl
  | cons value values ih => exact ih (m := m.push value)

theorem pushAll_spec (values : List Half) (room : 2 * values.length ≤ m.sp.toNat) :
    (m.pushAll values).sp.toNat = m.sp.toNat - 2 * values.length ∧
      ∀ address, address < m.sp.toNat - 2 * values.length ∨ m.sp.toNat ≤ address →
        (m.pushAll values).memory address = m.memory address := by
  induction values generalizing m with
  | nil => exact ⟨rfl, fun _ _ => rfl⟩
  | cons value values ih =>
    rw [List.length_cons] at room ⊢
    have lower := push_sp m value (by omega)
    obtain ⟨sp, memory⟩ := ih (m := m.push value) (by omega)
    refine ⟨sp.trans (by omega), ?_⟩
    intro address elsewhere
    exact (memory address (by omega)).trans (push_elsewhere (by omega) (by omega))

theorem popa_sp (m : Machine) : m.popa.sp = m.sp + 16 := by
  show m.sp + 2 + 2 + 2 + 2 + 2 + 2 + 2 + 2 = m.sp + 16
  simp only [BitVec.add_assoc]
  rfl

/-- The call of `disk_load_many` writes below the return address and to its variables only. -/
theorem enter_spec {caller : Machine} (called : caller.sp = 0x8FFE) :
    (enterDiskLoad layout caller).sp = loopSp ∧
      ∀ address, CodeCell layout address ∨ 0x8FFC ≤ address →
        (enterDiskLoad layout caller).memory address =
          (caller.push layout.afterDiskLoad).memory address := by
  have sp1 : caller.sp.toNat = 0x8FFE := by rw [called]; rfl
  have sp2 := push_sp caller layout.afterDiskLoad (by omega)
  obtain ⟨sp3, kept⟩ := pushAll_spec (m := caller.push layout.afterDiskLoad)
    [caller.registers.ax, caller.registers.cx, caller.registers.dh ++ caller.registers.dl,
      caller.registers.bx, (caller.push layout.afterDiskLoad).sp, caller.bp, caller.si, caller.di]
    (by simp; omega)
  constructor
  · apply BitVec.eq_of_toNat_eq
    exact sp3.trans (by rw [sp2, sp1]; rfl)
  · intro address cell
    have outside : ¬ layout.block.Covers address :=
      code_or_stack (cell.imp_right fun above => by omega)
    rw [enterDiskLoad, store_elsewhere _ outside]
    apply kept
    simp only [CodeCell, bootSector, Block.Covers, Block.stop] at cell
    simp only [List.length_cons, List.length_nil]
    omega

theorem enter_code {caller : Machine} (called : caller.sp = 0x8FFE) {address : Nat}
    (cell : CodeCell layout address) :
    (enterDiskLoad layout caller).memory address = caller.memory address := by
  have sp1 : caller.sp.toNat = 0x8FFE := by rw [called]; rfl
  have covered := cell.1
  simp only [bootSector, Block.Covers, Block.stop] at covered
  rw [(enter_spec called).2 address (Or.inl cell)]
  exact push_elsewhere (by omega) (by omega)

/-- The loop starts with the caller's registers. -/
theorem enter_view (layout : Layout) (caller : Machine) :
    (enterDiskLoad layout caller).registers = caller.registers ∧
      ∃ l : Loader, l.toRegisters = caller.registers ∧
        layout.view (enterDiskLoad layout caller) = loaderSetup l := by
  obtain ⟨saved, pushes⟩ : ∃ saved, saved = (caller.push layout.afterDiskLoad).pusha := ⟨_, rfl⟩
  have registers : saved.registers = caller.registers := by
    rw [pushes]
    exact pushAll_registers _
  refine ⟨?_, layout.view saved, registers, ?_⟩
  · simp only [enterDiskLoad, ← pushes]
    exact registers
  · simp only [enterDiskLoad, ← pushes]
    exact view_store layout _ _

theorem leave_spec {caller entry last : Machine} (called : caller.sp = 0x8FFE)
    (entered : entry = enterDiskLoad layout caller) (sp : last.sp = loopSp)
    (stack : ∀ address, 0x8FEC ≤ address → last.memory address = entry.memory address) :
    ∃ back, leaveDiskLoad layout last = some back ∧ back.top = caller.top ∧ back.sp = caller.sp := by
  have sp1 : caller.sp.toNat = 0x8FFE := by rw [called]; rfl
  have sp2 := push_sp caller layout.afterDiskLoad (by omega)
  have kept : ∀ address, 0x8FFC ≤ address →
      last.memory address = (caller.push layout.afterDiskLoad).memory address := by
    intro address above
    rw [stack address (by omega), entered]
    exact (enter_spec called).2 address (Or.inr above)
  have popped : last.popa.sp = (caller.push layout.afterDiskLoad).sp := by
    rw [popa_sp, sp]
    show 0x8FFC = caller.sp - 2
    rw [called]
    rfl
  have ip : last.popa.top = layout.afterDiskLoad := by
    have same : last.popa.top = (caller.push layout.afterDiskLoad).top :=
      top_congr popped (kept _ (by rw [popped]; omega)) (kept _ (by rw [popped]; omega))
    rw [same, push_top]
  refine ⟨last.popa.drop, ?_, ?_, ?_⟩
  · rw [leaveDiskLoad]
    exact if_pos ip
  · have dropped : last.popa.drop.sp = (caller.push layout.afterDiskLoad).drop.sp :=
      congrArg (· + 2) popped
    have same : last.popa.drop.top = (caller.push layout.afterDiskLoad).drop.top := by
      refine top_congr dropped (kept _ ?_) (kept _ ?_) <;> rw [dropped, drop_push_sp] <;> omega
    rw [same, drop_push_top (by omega)]
  · show last.popa.sp + 2 = caller.sp
    rw [popped]
    exact drop_push_sp

variable (layout) {sectors : Half}

theorem caller_spec (sectors : Half) (m : Machine) :
    (enterLoadKernel layout sectors m).sp = 0x8FFE ∧
      (enterLoadKernel layout sectors m).top = layout.afterLoadKernel ∧
      (enterLoadKernel layout sectors m).registers.ax = sectors ∧
      (enterLoadKernel layout sectors m).registers.bx = kernelOffset ∧
      ∀ address, bootSector.Covers address →
        (enterLoadKernel layout sectors m).memory address = m.memory address := by
  obtain ⟨start, started⟩ : ∃ start : Machine, start = { m with bp := 0x9000, sp := 0x9000 } := ⟨_, rfl⟩
  have sp : start.sp.toNat = 0x9000 := by rw [started]; rfl
  refine ⟨?_, ?_, ?_, ?_, ?_⟩
  · show (0x9000 : Half) - 2 = 0x8FFE
    decide
  · exact push_top { m with bp := 0x9000, sp := 0x9000 } layout.afterLoadKernel
  · exact word_wordBytes sectors
  · rfl
  · intro address covered
    simp only [bootSector, Block.Covers, Block.stop] at covered
    have kept : (start.push layout.afterLoadKernel).memory address = start.memory address :=
      push_elsewhere (by omega) (by omega)
    rw [started] at kept
    exact kept

theorem entry_sound (sectors : Half) (m : Machine) :
    Sound layout m.memory (loopEntry layout sectors m).memory sectors.toNat
      (loopEntry layout sectors m) := by
  obtain ⟨sp, _, ax, bx, memory⟩ := caller_spec layout sectors m
  unfold loopEntry
  obtain ⟨caller, called⟩ : ∃ caller, caller = enterLoadKernel layout sectors m := ⟨_, rfl⟩
  rw [← called] at sp ax bx memory ⊢
  obtain ⟨entered, _⟩ : (enterDiskLoad layout caller).sp = loopSp ∧ _ := enter_spec sp
  obtain ⟨registers, l, same, viewed⟩ := enter_view layout caller
  have count : l.ax = sectors := by rw [same, ax]
  have left : (loaderSetup l).sectorsLeft = sectors := count
  have offset : (enterDiskLoad layout caller).registers.bx = kernelOffset := by rw [registers, bx]
  refine ⟨?_, ?_, ?_, entered, ?_, fun _ _ => rfl⟩
  · rw [viewed]
    exact count ▸ loaderSetup_placed l
  · rw [viewed, left, offset]
    rfl
  · rw [offset]
    decide
  · intro address cell
    rw [enter_code sp cell, memory address cell.1]

variable {layout}

/-- With reads below the boot sector the loop ends, where the whole kernel has been read. -/
theorem loop_ends {m : Machine} (image : Nat → Byte) (small : sectors ≤ kernelSectors)
    (below : ∀ visited, Visits (pending layout) (readTrack layout m.memory image)
      (loopEntry layout sectors m) visited →
      Sound layout m.memory (loopEntry layout sectors m).memory sectors.toNat visited →
      pending layout visited = true → (buffer (nextRead layout visited)).stop ≤ 0x7C00) :
    ∃ bound last, whileLoop (pending layout) (readTrack layout m.memory image) bound
        (loopEntry layout sectors m) = some last ∧
      Sound layout m.memory (loopEntry layout sectors m).memory sectors.toNat last ∧
      pending layout last = false := by
  have limit : sectors.toNat ≤ 100 := small
  obtain ⟨last, ended, sound, finished⟩ := whileLoop_total_visited
    (Sound layout m.memory (loopEntry layout sectors m).memory sectors.toNat)
    (fun m => (layout.view m).sectorsLeft.toNat)
    (fun state visits sound go => readTrack_sound image sound limit go (below state visits sound go))
    (entry_sound layout sectors m) (Nat.lt_succ_self _)
  exact ⟨_, last, ended, sound, finished⟩

theorem Sound.finished {m : Machine} (sound : Sound layout boot entry total m)
    (stopped : pending layout m = false) : 0x1000 + 512 * total ≤ 0x7C00 := by
  have zero : (layout.view m).sectorsLeft = 0 :=
    Decidable.not_not.mp (decide_eq_false_iff_not.mp stopped)
  have buffer := sound.buffer
  rw [zero] at buffer
  have below := sound.below
  simp at buffer
  omega

theorem safe_le {m : Machine} {image : Nat → Byte} (small : sectors ≤ kernelSectors)
    (safe : Safe layout image sectors m) : sectors.toNat ≤ 54 := by
  have below : ∀ visited, Visits (pending layout) (readTrack layout m.memory image)
      (loopEntry layout sectors m) visited →
      Sound layout m.memory (loopEntry layout sectors m).memory sectors.toNat visited →
      pending layout visited = true → (buffer (nextRead layout visited)).stop ≤ 0x7C00 := by
    intro visited visits sound go
    obtain ⟨apart, _⟩ := safe.1 visited visits go
    obtain ⟨_, _, _, bx⟩ := nextRead_eq sound (Nat.le_trans small (by decide)) go
    -- a read that starts at or below 0x7C00 and misses the boot sector ends below it
    have low := sound.below
    simp only [Block.Apart, Block.stop, bootSector, buffer, bx] at apart ⊢
    omega
  obtain ⟨_, last, _, sound, stopped⟩ := loop_ends image small below
  have reached := sound.finished stopped
  omega

/-- The reads keep away from the boot sector and the stack exactly up to 54 sectors. -/
theorem loadKernel_safe_iff (layout : Layout) (m : Machine) {sectors : Half}
    (small : sectors ≤ kernelSectors) :
    (∀ image, Safe layout image sectors m) ↔ sectors.toNat ≤ 54 := by
  constructor
  · intro safe
    exact safe_le small (safe fun _ => 0)
  · intro few image
    have limit : sectors.toNat ≤ 100 := small
    have below : ∀ {entry visited}, Sound layout m.memory entry sectors.toNat visited →
        pending layout visited = true → (buffer (nextRead layout visited)).stop ≤ 0x7C00 := by
      intro entry visited sound go
      obtain ⟨count, _, _, bx⟩ := nextRead_eq sound (by omega) go
      have chunkLe := chunk_le_left (layout.view visited).toVariables
      have start := sound.buffer
      simp only [buffer, Block.stop, count, bx]
      omega
    constructor
    · intro visited visits go
      have sound : Sound layout m.memory (loopEntry layout sectors m).memory sectors.toNat visited := by
        refine visits.invariant ?_ (entry_sound layout sectors m)
        intro state next sound go ran
        obtain ⟨after, same, kept, _⟩ := readTrack_sound image sound limit go (below sound go)
        exact Option.some.inj (same.symm.trans ran) ▸ kept
      have stop := below sound go
      constructor <;> refine Or.inl ?_ <;> simp only [bootSector, liveStack] <;> omega
    · obtain ⟨bound, last, ended, sound, _⟩ :=
        loop_ends image small (fun visited _ sound go => below sound go)
      obtain ⟨sp, top, _⟩ := caller_spec layout sectors m
      obtain ⟨back, left, backTop, backSp⟩ := leave_spec sp rfl sound.sp sound.stack
      refine ⟨bound, back.drop, ?_, ?_⟩
      · rw [loadKernel, ended, Option.bind_some, left, Option.bind_some]
        exact if_pos (backTop.trans top)
      · show back.sp + 2 = 0x9000
        rw [backSp, sp]
        rfl

def plainLayout : Layout where
  sectorsLeft := 0x7D00
  bootDrive := 0x7D10
  inside := by simp [Block.Inside, Block.stop, bootSector]
  afterLoadKernel := 0x7C13
  afterDiskLoad := 0x7CF0
  afterInterrupt := 0x7C80

def blankMachine : Machine where
  registers := ⟨0, 0, 0, 0, 0, 0, 0⟩
  bp := 0
  si := 0
  di := 0
  sp := 0
  flags := 0
  memory := fun _ => 0

theorem loadKernel_safe_iff_hundred :
    (∀ image, Safe plainLayout image 100 blankMachine) ↔ (100 : Half).toNat ≤ 54 :=
  loadKernel_safe_iff plainLayout blankMachine (by decide)

/-- The 100 sectors of the source: a read overwrites the running boot sector. -/
theorem hundred_sectors_unsafe : ¬ Safe plainLayout (fun _ => 0) kernelSectors blankMachine := by
  intro safe
  exact absurd (safe_le (by decide) safe) (by decide)

end SzOS.KernelC.BootSector
