import SzOS.KernelC.BootSector

/-! Where a load puts its sectors (boot/disk.asm).

`disk_load_many` adds every chunk to the 16-bit `bx` and leaves `es` as it is. The
caller's `es:bx` may lead anywhere, also over the loader: a run is followed as
long as the code of `disk_load_many` and the frame of the interrupt are there.
-/

set_option autoImplicit false

namespace SzOS.KernelC.Placement
open Semantics Hardware BootSector

/-- The layout of the boot sector with the bytes of `disk_load_many`; its variables follow them. -/
structure Program extends Layout where
  code : Block
  before : code.Inside bootSector.start sectorsLeft
  occupied : 0 < code.size

def Program.codeIntact (program : Program) (boot memory : Nat → Byte) : Bool :=
  (List.range' program.code.start program.code.size).all fun address =>
    memory address == boot address

/-- `es:bx` as a linear address; the bytes of a read follow each other from there. -/
def target (es : Half) (read : Read) : Block := ⟨16 * es.toNat + read.bx.toNat, 512 * read.count⟩

/-- The bytes of the floppy image from a linear sector on. -/
def content (image : Nat → Byte) (linear : Nat) : Nat → Byte := fun offset => image (512 * linear + offset)

def transfer (image : Nat → Byte) (es : Half) (read : Read) (m : Machine) : Machine :=
  { m with memory := (target es read).fill (content image read.linear) m.memory }

/-- The interrupt returns when its frame still is the one that was pushed. -/
def interruptReturn (program : Program) (boot : Nat → Byte) (m : Machine) : Option Machine :=
  if program.codeIntact boot m.memory ∧ m.top = program.afterInterrupt ∧ m.drop.top = 0 ∧
      m.drop.drop.top = m.flags then
    some m.drop.drop.drop
  else none

def bios (program : Program) (boot image : Nat → Byte) (es : Half) (m : Machine) : Option Machine :=
  interruptReturn program boot (transfer image es m.registers.read (enterInterrupt program.toLayout m))

def readTrack (program : Program) (boot image : Nat → Byte) (es : Half) (m : Machine) :
    Option Machine :=
  let m := program.store m (prepare (program.view m))
  let count := m.registers.al
  (bios program boot image es m).bind fun m =>
    match advance (program.view m) ⟨false, 0, count⟩ with
    | .ok l => some (program.store m l)
    | .error _ => none

/-- From the call to `.done`. -/
def diskLoadMany (program : Program) (image : Nat → Byte) (es : Half) (bound : Nat) (m : Machine) :
    Option Machine :=
  whileLoop (pending program.toLayout) (readTrack program m.memory image es) bound
    (enterDiskLoad program.toLayout m)

/-- The place of a sector, counted from the first one loaded. -/
def slot (es bx : Half) (sector : Nat) : Block := ⟨16 * es.toNat + bx.toNat + 512 * sector, 512⟩

/-- Two reads of one load, the second one later. -/
def Successive (program : Program) (image : Nat → Byte) (es : Half) (m first second : Machine) : Prop :=
  ∃ next, Visits (pending program.toLayout) (readTrack program m.memory image es)
      (enterDiskLoad program.toLayout m) first ∧
    pending program.toLayout first = true ∧ readTrack program m.memory image es first = some next ∧
    Visits (pending program.toLayout) (readTrack program m.memory image es) next second ∧
    pending program.toLayout second = true

/-- Every sector is in its place at the end, and no read meets what an earlier one brought. -/
structure Places (program : Program) (image : Nat → Byte) (es : Half) (m : Machine) : Prop where
  ends : ∃ bound last, diskLoadMany program image es bound m = some last ∧
    ∀ sector < m.registers.ax.toNat, ∀ offset < 512,
      last.memory ((slot es m.registers.bx sector).start + offset) =
        content image (1 + sector) offset
  apart : ∀ first second, Successive program image es m first second →
    (target es (nextRead program.toLayout first)).Apart
      (target es (nextRead program.toLayout second))

/-- The block leaves alone what the loop lives on. -/
structure Program.Spares (program : Program) (block : Block) : Prop where
  code : block.Apart program.code
  cells : block.Apart program.block
  frame : block.Apart interruptFrame

/-- The sectors of the first tracks, without the boot sector. -/
def fetched (tracks : Nat) : Nat := 18 * tracks - 1

/-- The last chunk starts inside the segment, and no sector belongs where the loader is. -/
structure Fits (program : Program) (es bx : Half) (sectors : Nat) : Prop where
  offset : bx.toNat + 512 * fetched (sectors / 18) < 2 ^ 16
  spares : ∀ sector < sectors, program.Spares (slot es bx sector)

/-! ## One interrupt -/

variable {program : Program} {boot image : Nat → Byte} {es bx : Half} {m : Machine}

theorem codeIntact_iff (program : Program) (boot memory : Nat → Byte) :
    program.codeIntact boot memory = true ↔
      ∀ address, program.code.Covers address → memory address = boot address := by
  simp only [Program.codeIntact, List.all_eq_true, List.mem_range'_1, beq_iff_eq, Block.Covers,
    Block.stop]

/-- A read that spares the loader comes back, and only its target and the frame are written. -/
theorem bios_spec (program : Program) (image : Nat → Byte) (sp : m.sp = loopSp)
    (spares : program.Spares (target es m.registers.read))
    (intact : ∀ address, program.code.Covers address → m.memory address = boot address) :
    ∃ next, bios program boot image es m = some next ∧ next.registers = m.registers ∧
      next.sp = m.sp ∧ next.flags = m.flags ∧ ∀ address, ¬ interruptFrame.Covers address →
        next.memory address =
          (target es m.registers.read).fill (content image m.registers.read.linear) m.memory address := by
  obtain ⟨arrived, arrives⟩ : ∃ arrived, arrived =
    transfer image es m.registers.read (enterInterrupt program.toLayout m) := ⟨_, rfl⟩
  have memory : ∀ address, ¬ interruptFrame.Covers address → arrived.memory address =
      (target es m.registers.read).fill (content image m.registers.read.linear) m.memory address := by
    intro address outside
    rw [arrives]
    show (target es m.registers.read).fill _ (enterInterrupt program.toLayout m).memory address = _
    rw [Block.fill, Block.fill, enterInterrupt_memory program.toLayout sp outside]
  have frame : ∀ address, interruptFrame.Covers address →
      arrived.memory address = (enterInterrupt program.toLayout m).memory address := by
    intro address covered
    rw [arrives]
    exact Block.fill_outside _ _ _ (spares.frame.elsewhere covered)
  have code : program.codeIntact boot arrived.memory = true := by
    rw [codeIntact_iff]
    intro address covered
    have outside : ¬ interruptFrame.Covers address := by
      have below := program.before
      have inside := program.inside
      simp only [interruptFrame, bootSector, Block.Inside, Block.Covers, Block.stop] at *
      omega
    rw [memory address outside, Block.fill_outside _ _ _ (spares.code.elsewhere covered),
      intact address covered]
  have same : arrived.sp = (enterInterrupt program.toLayout m).sp := by rw [arrives]; rfl
  have kept : arrived.flags = m.flags := by rw [arrives]; rfl
  have registers : arrived.registers = m.registers := by rw [arrives]; rfl
  obtain ⟨ip, cs, flags⟩ := enterInterrupt_frame program.toLayout sp same frame
  refine ⟨arrived.drop.drop.drop, ?_, registers, ?_, kept, memory⟩
  · rw [bios, ← arrives]
    exact if_pos ⟨code, ip, cs, flags.trans kept.symm⟩
  · exact interruptReturn_sp program.toLayout same

/-- What a read that came back has left alone: the code, and both ends of the frame. -/
theorem bios_some {next : Machine} (sp : m.sp = loopSp)
    (ran : bios program boot image es m = some next) :
    next.memory = (transfer image es m.registers.read (enterInterrupt program.toLayout m)).memory ∧
      next.registers = m.registers ∧
      (∀ address, program.code.Covers address → next.memory address = boot address) ∧
      next.memory 0x8FE6 = program.afterInterrupt.setWidth 8 ∧
      next.memory 0x8FEB = (m.flags >>> 8).setWidth 8 := by
  obtain ⟨arrived, arrives⟩ : ∃ arrived, arrived =
    transfer image es m.registers.read (enterInterrupt program.toLayout m) := ⟨_, rfl⟩
  rw [bios, ← arrives] at ran
  obtain ⟨⟨code, ip, _, flags⟩, ended⟩ := Option.ite_none_right_eq_some.mp ran
  rw [← Option.some.inj ended]
  have stack : arrived.sp = 0x8FE6 := by
    rw [arrives]
    show m.sp - 2 - 2 - 2 = 0x8FE6
    rw [sp]
    rfl
  have registers : arrived.registers = m.registers := by rw [arrives]; rfl
  have kept : arrived.flags = m.flags := by rw [arrives]; rfl
  refine ⟨?_, registers, (codeIntact_iff program boot _).mp code, ?_, ?_⟩
  · rw [← arrives]
    rfl
  · rw [← ip, Machine.top, word_low, stack]
    rfl
  · rw [← kept, ← flags, Machine.top, word_high]
    show _ = arrived.memory ((arrived.sp + 2 + 2).toNat + 1)
    rw [stack]
    rfl

/-! ## One track -/

variable {total tracks : Nat} {flags : Half}

/-- What the read after the first tracks fetches, in sectors. -/
def fetching (total tracks : Nat) : Nat :=
  min (total - fetched tracks) (fetched (tracks + 1) - fetched tracks)

/-- Where it goes: the sum wraps in `bx`. -/
def chunk (es bx : Half) (total tracks : Nat) : Block :=
  ⟨16 * es.toNat + (bx.toNat + 512 * fetched tracks) % 2 ^ 16, 512 * fetching total tracks⟩

/-- What holds at the test of the loop after some reads. -/
structure AtTrack (program : Program) (boot : Nat → Byte) (flags bx : Half) (total tracks : Nat)
    (m : Machine) : Prop where
  placed : Placed total (program.view m).toVariables
  left : (program.view m).sectorsLeft.toNat = total - fetched tracks
  buffer : fetched tracks < total →
    m.registers.bx.toNat = (bx.toNat + 512 * fetched tracks) % 2 ^ 16
  sp : m.sp = loopSp
  flags : m.flags = flags
  code : ∀ address, program.code.Covers address → m.memory address = boot address

theorem AtTrack.pending_iff (here : AtTrack program boot flags bx total tracks m) :
    pending program.toLayout m = true ↔ fetched tracks < total := by
  have left := here.left
  rw [pending, decide_eq_true_iff]
  refine (sectorsLeft_pos _).trans ?_
  show 0 < (program.view m).sectorsLeft.toNat ↔ _
  omega

/-- The read that comes next. -/
theorem AtTrack.request (es : Half) (here : AtTrack program boot flags bx total tracks m)
    (small : total ≤ 2879) (more : fetched tracks < total) :
    (program.view m).OnDisk ∧ (program.view m).chunk = fetching total tracks ∧
      0 < fetching total tracks ∧ (nextRead program.toLayout m).count = fetching total tracks ∧
      (nextRead program.toLayout m).linear = 1 + fetched tracks ∧
      target es (nextRead program.toLayout m) = chunk es bx total tracks := by
  have left := here.left
  have remains : 0 < (program.view m).sectorsLeft.toNat := by omega
  have onDisk := here.placed.onDisk small remains
  have place := here.placed.place remains
  have counted : (program.view m).chunk = fetching total tracks := by
    have low := onDisk.sectLow
    have high := onDisk.sectHigh
    unfold Variables.place at place
    unfold Variables.chunk fetching
    unfold fetched at *
    omega
  obtain ⟨oneTrack, linear, count⟩ := read_oneTrack onDisk remains
  have offset : (nextRead program.toLayout m).bx = m.registers.bx := by
    rw [nextRead, prepare_eq]
    rfl
  have start : (nextRead program.toLayout m).linear = 1 + fetched tracks := by
    refine linear.trans (place.trans ?_)
    omega
  have size : (nextRead program.toLayout m).count = fetching total tracks := count.trans counted
  refine ⟨onDisk, counted, ?_, size, start, ?_⟩
  · rw [← counted, ← count]
    exact oneTrack.count
  · rw [target, chunk, offset, here.buffer more, size]

/-- The machine at the interrupt, with the request in its registers. -/
def prepared (program : Program) (m : Machine) : Machine :=
  program.store m (prepare (program.view m))

theorem prepared_memory (program : Program) (m : Machine) {address : Nat}
    (outside : ¬ program.block.Covers address) : (prepared program m).memory address = m.memory address :=
  store_elsewhere _ outside

theorem code_outside {address : Nat} (covered : program.code.Covers address) :
    ¬ program.block.Covers address ∧ ¬ interruptFrame.Covers address := by
  have below := program.before
  have inside := program.inside
  simp only [interruptFrame, bootSector, Layout.block, Block.Inside, Block.Covers, Block.stop] at *
  omega

theorem cells_outside {address : Nat} (covered : program.block.Covers address) :
    ¬ interruptFrame.Covers address := by
  have inside := program.inside
  simp only [interruptFrame, bootSector, Layout.block, Block.Inside, Block.Covers, Block.stop] at *
  omega

theorem AtTrack.prepared_code (here : AtTrack program boot flags bx total tracks m) {address : Nat}
    (covered : program.code.Covers address) : (prepared program m).memory address = boot address := by
  rw [prepared_memory program m (code_outside covered).1, here.code address covered]

/-- The interrupt of one round: the variables come back as they were prepared. -/
theorem fetch_spec (image : Nat → Byte) (here : AtTrack program boot flags bx total tracks m)
    (small : total ≤ 2879) (more : fetched tracks < total)
    (spares : program.Spares (chunk es bx total tracks)) :
    ∃ back, bios program boot image es (prepared program m) = some back ∧
      program.view back = prepare (program.view m) ∧ back.sp = loopSp ∧ back.flags = flags ∧
      (∀ address, program.code.Covers address → back.memory address = boot address) ∧
      ∀ address, ¬ program.block.Covers address → ¬ interruptFrame.Covers address →
        back.memory address =
          (chunk es bx total tracks).fill (content image (1 + fetched tracks)) m.memory address := by
  obtain ⟨_, _, _, _, start, goal⟩ := here.request es small more
  have read : (prepared program m).registers.read = nextRead program.toLayout m := rfl
  obtain ⟨back, returned, registers, sp, kept, memory⟩ :=
    bios_spec (m := prepared program m) program image here.sp
      (by rw [read, goal]; exact spares) (fun address covered => here.prepared_code covered)
  rw [read, goal, start] at memory
  have agree : program.block.Agree back.memory (prepared program m).memory := by
    intro address covered
    rw [memory address (cells_outside covered)]
    exact Block.fill_outside _ _ _ (spares.cells.elsewhere covered)
  refine ⟨back, returned, ?_, sp.trans here.sp, kept.trans here.flags, ?_, ?_⟩
  · rw [← view_store program.toLayout m (prepare (program.view m))]
    rw [Layout.view, Layout.view, registers, load_congr program.toLayout agree]
    rfl
  · intro address covered
    rw [memory address (code_outside covered).2,
      Block.fill_outside _ _ _ (spares.code.elsewhere covered), here.prepared_code covered]
  · intro address outside outside'
    rw [memory address outside', Block.fill, Block.fill, prepared_memory program m outside]

/-- A chunk that spares the loader arrives, and the next test follows. -/
theorem readTrack_spec (image : Nat → Byte) (here : AtTrack program boot flags bx total tracks m)
    (small : total ≤ 2879) (more : fetched tracks < total)
    (spares : program.Spares (chunk es bx total tracks)) :
    ∃ next, readTrack program boot image es m = some next ∧
      AtTrack program boot flags bx total (tracks + 1) next ∧
      ∀ address, ¬ program.block.Covers address → ¬ interruptFrame.Covers address →
        next.memory address =
          (chunk es bx total tracks).fill (content image (1 + fetched tracks)) m.memory address := by
  obtain ⟨onDisk, counted, _⟩ := here.request es small more
  obtain ⟨back, returned, reloaded, sp, kept, code, memory⟩ :=
    fetch_spec image here small more spares
  obtain ⟨answer, answers⟩ : ∃ answer : Answer, answer = ⟨false, 0, (prepare (program.view m)).al⟩ :=
    ⟨_, rfl⟩
  have carry : answer.carry = false := by rw [answers]
  have asked : answer.al = (prepare (program.view m)).read.al := by rw [answers]; rfl
  obtain ⟨next, advanced, stepped⟩ := advance_prepare onDisk carry asked
  have left := here.left
  have remains : 0 < (program.view m).sectorsLeft.toNat := by omega
  refine ⟨program.store back next, ?_, ⟨?_, ?_, ?_, sp, kept, ?_⟩, ?_⟩
  · rw [answers] at advanced
    have request : (prepared program m).registers.al = (prepare (program.view m)).al := rfl
    simp only [readTrack]
    rw [← prepared, returned, request, Option.bind_some, reloaded, advanced]
  · rw [view_store]
    exact here.placed.step remains stepped
  · rw [view_store, stepped.left, counted, left]
    unfold fetching fetched
    omega
  -- a chunk that leaves something is a whole track
  · intro further
    show next.bx.toNat = _
    have wrapped : next.bx.toNat = (m.registers.bx.toNat + 512 * (program.view m).chunk) % 2 ^ 16 :=
      stepped.buffer
    have full : fetched tracks + fetching total tracks = fetched (tracks + 1) := by
      unfold fetching fetched at *
      omega
    rw [wrapped, counted, here.buffer more]
    omega
  · intro address covered
    rw [store_elsewhere _ (code_outside covered).1, code address covered]
  · intro address outside outside'
    rw [store_elsewhere _ outside, memory address outside outside']

/-! ## A chunk over the loader -/

theorem succ_ne (x : Byte) : x + 1 ≠ x := by
  bv_omega

/-- The loader goes on only when `al` still equals `SECTORS_NOW`. -/
theorem advance_counted {l next : Loader} {answer : Answer} (advanced : advance l answer = .ok next) :
    answer.al = l.sectorsNow := by
  simp only [advance] at advanced
  split at advanced
  next => cases advanced
  next =>
    split at advanced
    next => cases advanced
    next same => exact Decidable.not_not.mp same

/-- What is in memory when the loop goes on after a read of so many sectors. -/
structure Survived (program : Program) (boot : Nat → Byte) (flags : Half) (count : Nat)
    (memory : Nat → Byte) : Prop where
  code : ∀ address, program.code.Covers address → memory address = boot address
  ip : memory 0x8FE6 = program.afterInterrupt.setWidth 8
  flags : memory 0x8FEB = (flags >>> 8).setWidth 8
  counted : memory (program.sectorsLeft + 6) = BitVec.ofNat 8 count

theorem readTrack_some {next : Machine} (here : AtTrack program boot flags bx total tracks m)
    (small : total ≤ 2879) (more : fetched tracks < total)
    (ran : readTrack program boot image es m = some next) :
    ∃ arrived : Nat → Byte, Survived program boot flags (fetching total tracks) arrived ∧
      ∀ address, (chunk es bx total tracks).Covers address → arrived address =
        content image (1 + fetched tracks) (address - (chunk es bx total tracks).start) := by
  obtain ⟨_, _, _, size, start, goal⟩ := here.request es small more
  obtain ⟨back, returned, went⟩ := Option.bind_eq_some_iff.mp ran
  obtain ⟨memory, _, code, ip, high⟩ := bios_some (m := prepared program m) here.sp returned
  have read : (prepared program m).registers.read = nextRead program.toLayout m := rfl
  refine ⟨back.memory, ⟨code, ip, ?_, ?_⟩, ?_⟩
  · rw [high]
    exact congrArg (fun flags : Half => (flags >>> 8).setWidth 8) here.flags
  · cases advanced : advance (program.view back)
        ⟨false, 0, (program.store m (prepare (program.view m))).registers.al⟩ with
    | error fault => rw [advanced] at went; cases went
    | ok l =>
      have same : (nextRead program.toLayout m).al = back.memory (program.sectorsLeft + 6) :=
        advance_counted advanced
      rw [← same, ← size]
      exact ((BitVec.ofNat_toNat 8 (nextRead program.toLayout m).al).trans (BitVec.setWidth_eq _)).symm
  · intro address covered
    rw [memory, read, transfer, goal, start]
    exact if_pos covered

/-- A block of whole sectors that may leave any byte anywhere misses the loader. -/
theorem spares_of_survived {block : Block} {count : Nat} (size : 512 ≤ block.size)
    (shown : ∀ value address, block.Covers address →
      ∃ memory, Survived program boot flags count memory ∧ memory address = value) :
    program.Spares block := by
  have inside := program.inside
  have below := program.before
  have code : block.Apart program.code := by
    by_contra meet
    obtain ⟨address, covered, isCode⟩ := Block.exists_common (by omega) program.occupied meet
    obtain ⟨memory, survived, value⟩ := shown (boot address + 1) address covered
    exact succ_ne _ (value.symm.trans (survived.code address isCode))
  refine ⟨code, ?_, ?_⟩
  -- from the variables on, a block that misses the code reaches the last of them
  · by_contra meet
    have occupied := program.occupied
    have last : block.Covers (program.sectorsLeft + 6) := by
      simp only [Block.Apart, Block.Covers, Block.Inside, Block.stop, Layout.block, bootSector] at *
      omega
    obtain ⟨memory, survived, value⟩ := shown (BitVec.ofNat 8 count + 1) _ last
    exact succ_ne _ (value.symm.trans survived.counted)
  · by_contra meet
    have ends : block.Covers 0x8FE6 ∨ block.Covers 0x8FEB := by
      simp only [Block.Apart, Block.Covers, Block.stop, interruptFrame] at *
      omega
    rcases ends with low | high
    · obtain ⟨memory, survived, value⟩ := shown (program.afterInterrupt.setWidth 8 + 1) _ low
      exact succ_ne _ (value.symm.trans survived.ip)
    · obtain ⟨memory, survived, value⟩ := shown ((flags >>> 8).setWidth 8 + 1) _ high
      exact succ_ne _ (value.symm.trans survived.flags)

/-- A chunk that meets the loader does not let it go on for every image. -/
theorem spares_of_runs (small : total ≤ 2879) (more : fetched tracks < total)
    (runs : ∀ image, ∃ m next, AtTrack program boot flags bx total tracks m ∧
      readTrack program boot image es m = some next) :
    program.Spares (chunk es bx total tracks) := by
  have size : 512 ≤ (chunk es bx total tracks).size := by
    obtain ⟨_, _, here, _⟩ := runs fun _ => 0
    obtain ⟨_, _, some, _⟩ := here.request es small more
    show 512 ≤ 512 * fetching total tracks
    omega
  -- an image made of one byte shows it wherever the chunk goes
  apply spares_of_survived size
  intro value address covered
  obtain ⟨m, next, here, ran⟩ := runs fun _ => value
  obtain ⟨arrived, survived, brought⟩ := readTrack_some here small more ran
  exact ⟨arrived, survived, brought address covered⟩

/-! ## The whole load -/

variable {entry : Machine}

/-- The machine after a number of chunks that spared the loader. -/
theorem reaches (image : Nat → Byte) (start : AtTrack program boot flags bx total 0 entry)
    (small : total ≤ 2879) (more : fetched tracks < total)
    (spares : ∀ earlier < tracks, program.Spares (chunk es bx total earlier)) :
    ∃ m, Visits (pending program.toLayout) (readTrack program boot image es) entry m ∧
      AtTrack program boot flags bx total tracks m := by
  induction tracks with
  | zero => exact ⟨entry, .here, start⟩
  | succ tracks ih =>
    have earlier : fetched tracks < total := by
      unfold fetched at *
      omega
    obtain ⟨m, visits, here⟩ := ih earlier fun before order => spares before (Nat.lt_succ_of_lt order)
    obtain ⟨next, ran, there, _⟩ :=
      readTrack_spec image here small earlier (spares tracks (Nat.lt_succ_self tracks))
    exact ⟨next, visits.next (here.pending_iff.mpr earlier) ran, there⟩

theorem spares_of_ends (es : Half) (start : AtTrack program boot flags bx total 0 entry)
    (small : total ≤ 2879) (ends : ∀ image, ∃ bound last, whileLoop (pending program.toLayout)
      (readTrack program boot image es) bound entry = some last) :
    ∀ tracks, fetched tracks < total → program.Spares (chunk es bx total tracks) := by
  intro tracks
  induction tracks using Nat.strongRecOn with
  | ind tracks ih =>
    intro more
    have spared : ∀ earlier < tracks, program.Spares (chunk es bx total earlier) := by
      intro earlier order
      refine ih earlier order ?_
      unfold fetched at *
      omega
    have runs : ∀ image, ∃ m next, AtTrack program boot flags bx total tracks m ∧
        readTrack program boot image es m = some next := by
      intro image
      obtain ⟨bound, last, ended⟩ := ends image
      obtain ⟨m, visits, here⟩ := reaches image start small more spared
      obtain ⟨next, ran⟩ := visits.runs ended (here.pending_iff.mpr more)
      exact ⟨m, next, here, ran⟩
    exact spares_of_runs small more runs

/-- With chunks that spare the loader the load ends, and what each chunk does to memory adds up. -/
theorem loop_ends (holds : Nat → (Nat → Byte) → Prop) (image : Nat → Byte)
    (start : AtTrack program boot flags bx total 0 entry) (small : total ≤ 2879)
    (spares : ∀ tracks, fetched tracks < total → program.Spares (chunk es bx total tracks))
    (first : holds 0 entry.memory)
    (keep : ∀ tracks memory next, fetched tracks < total → holds tracks memory →
      (∀ address, ¬ program.block.Covers address → ¬ interruptFrame.Covers address →
        next address =
          (chunk es bx total tracks).fill (content image (1 + fetched tracks)) memory address) →
      holds (tracks + 1) next) :
    ∃ bound last tracks, whileLoop (pending program.toLayout) (readTrack program boot image es) bound
      entry = some last ∧ total ≤ fetched tracks ∧ holds tracks last.memory := by
  have step : ∀ m, (∃ tracks, AtTrack program boot flags bx total tracks m ∧ holds tracks m.memory) →
      pending program.toLayout m = true → ∃ next, readTrack program boot image es m = some next ∧
        (∃ tracks, AtTrack program boot flags bx total tracks next ∧ holds tracks next.memory) ∧
        (program.view next).sectorsLeft.toNat < (program.view m).sectorsLeft.toNat := by
    rintro m ⟨tracks, here, held⟩ go
    have more := here.pending_iff.mp go
    obtain ⟨next, ran, there, memory⟩ := readTrack_spec image here small more (spares tracks more)
    refine ⟨next, ran, ⟨tracks + 1, there, keep tracks m.memory next.memory more held memory⟩, ?_⟩
    rw [there.left, here.left]
    unfold fetched at *
    omega
  have leave : ∀ m, (∃ tracks, AtTrack program boot flags bx total tracks m ∧ holds tracks m.memory) →
      pending program.toLayout m = false → ∃ tracks, total ≤ fetched tracks ∧ holds tracks m.memory := by
    rintro m ⟨tracks, here, held⟩ stopped
    refine ⟨tracks, ?_, held⟩
    by_contra more
    have go := here.pending_iff.mpr (Nat.lt_of_not_le more)
    rw [go] at stopped
    cases stopped
  obtain ⟨last, ended, tracks, reached, held⟩ := whileLoop_total _ _
    (fun m => (program.view m).sectorsLeft.toNat) step leave ⟨0, start, first⟩ (Nat.lt_succ_self _)
  exact ⟨_, last, tracks, ended, reached, held⟩

theorem AtTrack.visits (image : Nat → Byte) (small : total ≤ 2879)
    (spares : ∀ tracks, fetched tracks < total → program.Spares (chunk es bx total tracks))
    {first later : Machine} (here : AtTrack program boot flags bx total tracks first)
    (visits : Visits (pending program.toLayout) (readTrack program boot image es) first later) :
    ∃ after, tracks ≤ after ∧ AtTrack program boot flags bx total after later := by
  induction visits with
  | here => exact ⟨tracks, Nat.le_refl _, here⟩
  | next _ go ran ih =>
    obtain ⟨before, order, there⟩ := ih
    have more := there.pending_iff.mp go
    obtain ⟨next, same, after, _⟩ := readTrack_spec image there small more (spares before more)
    rw [Option.some.inj (ran.symm.trans same)]
    exact ⟨before + 1, Nat.le_succ_of_le order, after⟩

theorem pushAll_flags (values : List Half) : (m.pushAll values).flags = m.flags := by
  induction values generalizing m with
  | nil => rfl
  | cons value values ih => exact ih (m := m.push value)

theorem store_flags (layout : Layout) (m : Machine) (l : Loader) : (layout.store m l).flags = m.flags :=
  rfl

/-- The first test of the loop, in a call from `load_kernel`. -/
theorem enter_atTrack (program : Program) (called : m.sp = 0x8FFE) :
    AtTrack program m.memory m.flags m.registers.bx m.registers.ax.toNat 0
      (enterDiskLoad program.toLayout m) := by
  obtain ⟨sp, _⟩ : (enterDiskLoad program.toLayout m).sp = loopSp ∧ _ := enter_spec called
  obtain ⟨registers, l, same, viewed⟩ := enter_view program.toLayout m
  have count : l.ax = m.registers.ax := by rw [same]
  refine ⟨?_, ?_, ?_, sp, ?_, ?_⟩
  · rw [viewed, ← count]
    exact loaderSetup_placed l
  · rw [viewed, ← count]
    rfl
  · intro _
    rw [registers]
    exact (Nat.mod_eq_of_lt m.registers.bx.isLt).symm
  · simp only [enterDiskLoad, store_flags]
    exact pushAll_flags _
  · intro address covered
    have inside := program.inside
    have below := program.before
    have cell : CodeCell program.toLayout address := by
      refine ⟨?_, (code_outside covered).1⟩
      simp only [bootSector, Block.Inside, Block.Covers, Block.stop] at *
      omega
    exact enter_code called cell

/-! ## Where the sectors are -/

variable {sector : Nat}

theorem Fits.straight (fits : Fits program es bx total) (more : fetched tracks < total) :
    (bx.toNat + 512 * fetched tracks) % 2 ^ 16 = bx.toNat + 512 * fetched tracks := by
  have offset := fits.offset
  apply Nat.mod_eq_of_lt
  unfold fetched at *
  omega

theorem Fits.spares_chunk (fits : Fits program es bx total) (more : fetched tracks < total) :
    program.Spares (chunk es bx total tracks) := by
  have some : 0 < fetching total tracks := by
    unfold fetching fetched at *
    omega
  have pieces : ∀ piece < fetching total tracks, program.Spares
      ⟨16 * es.toNat + (bx.toNat + 512 * fetched tracks) + 512 * piece, 512⟩ := by
    intro piece inside
    have spared := fits.spares (fetched tracks + piece) (by unfold fetching at inside; omega)
    rw [slot] at spared
    have same : 16 * es.toNat + (bx.toNat + 512 * fetched tracks) + 512 * piece =
        16 * es.toNat + bx.toNat + 512 * (fetched tracks + piece) := by omega
    rw [same]
    exact spared
  rw [chunk, fits.straight more]
  exact ⟨Block.apart_of_pieces (by decide) some program.occupied fun piece inside =>
      (pieces piece inside).code,
    Block.apart_of_pieces (by decide) some (by simp [Layout.block]) fun piece inside =>
      (pieces piece inside).cells,
    Block.apart_of_pieces (by decide) some (by decide) fun piece inside =>
      (pieces piece inside).frame⟩

/-- The sectors of the first tracks are in their places. -/
def Loaded (image : Nat → Byte) (es bx : Half) (total tracks : Nat) (memory : Nat → Byte) : Prop :=
  ∀ sector < min total (fetched tracks), ∀ offset < 512,
    memory ((slot es bx sector).start + offset) = content image (1 + sector) offset

/-- Sectors that are in place stay there, and those of the next chunk join them. -/
theorem Fits.keep (fits : Fits program es bx total) (image : Nat → Byte) (more : fetched tracks < total)
    {memory next : Nat → Byte} (placed : Loaded image es bx total tracks memory)
    (written : ∀ address, ¬ program.block.Covers address → ¬ interruptFrame.Covers address →
      next address =
        (chunk es bx total tracks).fill (content image (1 + fetched tracks)) memory address) :
    Loaded image es bx total (tracks + 1) next := by
  intro sector loaded offset inside
  have spared := fits.spares sector (by omega)
  have mine : (slot es bx sector).Covers ((slot es bx sector).start + offset) := by
    simp only [Block.Covers, Block.stop, slot]
    omega
  rw [written _ (fun covered => spared.cells.elsewhere covered mine)
    (fun covered => spared.frame.elsewhere covered mine), chunk, fits.straight more]
  by_cases before : sector < fetched tracks
  · rw [Block.fill_outside]
    · exact placed sector (by omega) offset inside
    · simp only [Block.Covers, slot]
      omega
  · have address : (slot es bx sector).start + offset =
        16 * es.toNat + (bx.toNat + 512 * fetched tracks) + (512 * (sector - fetched tracks) + offset) := by
      simp only [slot]
      omega
    rw [address, Block.fill_inside ⟨_, _⟩]
    · rw [content, content]
      congr 1
      omega
    · show _ < 512 * fetching total tracks
      unfold fetching
      omega

theorem places_of_fits (image : Nat → Byte) (called : m.sp = 0x8FFE)
    (small : m.registers.ax.toNat ≤ 2879) (fits : Fits program es m.registers.bx m.registers.ax.toNat) :
    Places program image es m := by
  have start := enter_atTrack program called
  constructor
  · have none : Loaded image es m.registers.bx m.registers.ax.toNat 0
        (enterDiskLoad program.toLayout m).memory := by
      intro sector loaded
      exact absurd loaded (by simp [fetched])
    obtain ⟨bound, last, tracks, ended, reached, placed⟩ := loop_ends
      (Loaded image es m.registers.bx m.registers.ax.toNat) image start small
      (fun tracks more => fits.spares_chunk more) none
      (fun tracks memory next more placed written => fits.keep image more placed written)
    refine ⟨bound, last, ended, ?_⟩
    intro sector inside
    exact placed sector (by omega)
  · rintro first second ⟨next, visits, go, ran, later, further⟩
    obtain ⟨before, _, here⟩ :=
      start.visits image small (fun tracks more => fits.spares_chunk more) visits
    have more := here.pending_iff.mp go
    obtain ⟨after, same, there, _⟩ := readTrack_spec image here small more (fits.spares_chunk more)
    rw [Option.some.inj (same.symm.trans ran)] at there
    obtain ⟨place, order, last⟩ :=
      there.visits image small (fun tracks more => fits.spares_chunk more) later
    have rest := last.pending_iff.mp further
    obtain ⟨_, _, _, _, _, goal⟩ := here.request es small more
    obtain ⟨_, _, _, _, _, goal'⟩ := last.request es small rest
    rw [goal, goal', chunk, chunk, fits.straight more, fits.straight rest]
    refine Or.inl ?_
    simp only [Block.stop]
    unfold fetching fetched at *
    omega

/-! ## A chunk past the segment -/

/-- One byte everywhere, but for the first byte of one sector. -/
def marked (value : Byte) (sector : Nat) : Nat → Byte := fun address =>
  if address = 512 * (1 + sector) then value + 1 else value

/-- Once `bx` has wrapped, no read brings the marked byte to the place of the last chunk. -/
theorem wrapped_keep {value : Byte} (wraps : 2 ^ 16 ≤ bx.toNat + 512 * fetched (total / 18))
    (more : fetched tracks < total) {memory next : Nat → Byte}
    (held : memory (slot es bx (fetched (total / 18))).start = value)
    (written : ∀ address, ¬ program.block.Covers address → ¬ interruptFrame.Covers address →
      next address = (chunk es bx total tracks).fill
        (content (marked value (fetched (total / 18))) (1 + fetched tracks)) memory address) :
    next (slot es bx (fetched (total / 18))).start = value := by
  have small := bx.isLt
  have inside := program.inside
  rw [written, Block.fill]
  · split
    next covered =>
      rw [content, marked, if_neg]
      -- earlier and later chunks hold other sectors, and the last one starts too low
      simp only [Block.Covers, Block.stop, chunk, slot] at covered ⊢
      unfold fetching at covered
      unfold fetched at *
      omega
    next => exact held
  · simp only [Block.Inside, Block.Covers, Block.stop, Layout.block, bootSector, slot] at *
    omega
  · simp only [Block.Covers, Block.stop, interruptFrame, slot]
    omega

theorem wrapped_lost (program : Program) {value : Byte} (called : m.sp = 0x8FFE)
    (small : m.registers.ax.toNat ≤ 2879)
    (spares : ∀ tracks, fetched tracks < m.registers.ax.toNat →
      program.Spares (chunk es m.registers.bx m.registers.ax.toNat tracks))
    (wraps : 2 ^ 16 ≤ m.registers.bx.toNat + 512 * fetched (m.registers.ax.toNat / 18))
    (before : (enterDiskLoad program.toLayout m).memory
      (slot es m.registers.bx (fetched (m.registers.ax.toNat / 18))).start = value) :
    ¬ Places program (marked value (fetched (m.registers.ax.toNat / 18))) es m := by
  intro places
  obtain ⟨bound, final, ended, placed⟩ := places.ends
  obtain ⟨_, final', _, ended', _, held⟩ := loop_ends
    (fun _ memory =>
      memory (slot es m.registers.bx (fetched (m.registers.ax.toNat / 18))).start = value)
    (marked value (fetched (m.registers.ax.toNat / 18))) (enter_atTrack program called) small spares
    before fun tracks memory next more held written => wrapped_keep wraps more held written
  rw [← whileLoop_unique ended ended'] at held
  have last : fetched (m.registers.ax.toNat / 18) < m.registers.ax.toNat := by
    have small := m.registers.bx.isLt
    unfold fetched at *
    omega
  have shown := placed _ last 0 (by decide)
  rw [Nat.add_zero, held, content, marked, if_pos (Nat.add_zero _)] at shown
  exact succ_ne value shown.symm

/-- The load puts every sector in its place exactly when the last chunk starts inside the segment
and no place meets the loader's code, its variables or the frame of the interrupt. -/
theorem sectors_placed_iff (program : Program) (es : Half) {m : Machine} (called : m.sp = 0x8FFE)
    (small : m.registers.ax.toNat ≤ 2879) :
    (∀ image, Places program image es m) ↔
      Fits program es m.registers.bx m.registers.ax.toNat := by
  constructor
  · intro places
    have spares := spares_of_ends es (enter_atTrack program called) small fun image =>
      have ⟨bound, last, ended, _⟩ := (places image).ends
      ⟨bound, last, ended⟩
    have offset : m.registers.bx.toNat + 512 * fetched (m.registers.ax.toNat / 18) < 2 ^ 16 := by
      by_contra wraps
      exact wrapped_lost program called small spares (Nat.le_of_not_lt wraps) rfl (places _)
    refine ⟨offset, ?_⟩
    intro sector inside
    have below : fetched ((sector + 1) / 18) ≤ sector := by
      unfold fetched
      omega
    have straight : (m.registers.bx.toNat + 512 * fetched ((sector + 1) / 18)) % 2 ^ 16 =
        m.registers.bx.toNat + 512 * fetched ((sector + 1) / 18) := by
      apply Nat.mod_eq_of_lt
      unfold fetched at *
      omega
    have ⟨code, cells, frame⟩ := spares ((sector + 1) / 18) (by omega)
    have low : (chunk es m.registers.bx m.registers.ax.toNat ((sector + 1) / 18)).start ≤
        (slot es m.registers.bx sector).start := by
      rw [chunk, straight]
      simp only [slot]
      omega
    have high : (slot es m.registers.bx sector).stop ≤
        (chunk es m.registers.bx m.registers.ax.toNat ((sector + 1) / 18)).stop := by
      rw [chunk, straight]
      simp only [slot, Block.stop]
      unfold fetching fetched at *
      omega
    exact ⟨code.part low high, cells.part low high, frame.part low high⟩
  · intro fits image
    exact places_of_fits image called small fits

def plainProgram : Program where
  toLayout := plainLayout
  code := ⟨0x7C60, 0x70⟩
  before := by simp [Block.Inside, Block.stop, bootSector, plainLayout]
  occupied := by decide

/-- A call for 144 sectors to the start of a segment. -/
def wholeSegment : Machine where
  registers := ⟨0, 144, 0, 0, 0, 0, 0⟩
  bp := 0
  si := 0
  di := 0
  sp := 0x8FFE
  flags := 0
  memory := fun _ => 0

theorem sectors_placed_iff_wholeSegment :
    (∀ image, Places plainProgram image 0x1000 wholeSegment) ↔
      Fits plainProgram 0x1000 wholeSegment.registers.bx wholeSegment.registers.ax.toNat :=
  sectors_placed_iff plainProgram 0x1000 rfl (by decide)

/-- The last sector goes to the offset 0x1E00, over sector 15, instead of to 0x11E00. -/
theorem wholeSegment_wraps : ¬ Places plainProgram (marked 0 143) 0x1000 wholeSegment := by
  have count : wholeSegment.registers.ax.toNat = 144 := by decide
  have last : fetched (wholeSegment.registers.ax.toNat / 18) = 143 := by rw [count]; rfl
  rw [← last]
  refine wrapped_lost plainProgram rfl (by decide) ?_ ?_ ?_
  · intro tracks _
    constructor <;> refine Or.inr (Nat.le_trans ?_ (Nat.le_add_right _ _)) <;> decide
  · rw [last]
    decide
  · obtain ⟨_, kept⟩ : (enterDiskLoad plainLayout wholeSegment).sp = loopSp ∧ _ := enter_spec rfl
    have address : (slot 0x1000 wholeSegment.registers.bx
        (fetched (wholeSegment.registers.ax.toNat / 18))).start = 0x21E00 := by
      rw [last]
      rfl
    rw [address]
    refine (kept 0x21E00 (Or.inr (by decide))).trans (push_elsewhere ?_ ?_) <;> decide

end SzOS.KernelC.Placement
