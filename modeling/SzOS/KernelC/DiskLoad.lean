import SzOS.Hardware.I386
import SzOS.Semantics.Loop

/-! The disk reader of kernel-c's boot sector (boot/disk.asm).

`disk_load_many` reads one track at a time, since the BIOS does not go on to the
next one by itself. Registers that the source uses by halves are bytes here.
-/

set_option autoImplicit false

namespace SzOS.KernelC
open Semantics Hardware

abbrev Half := BitVec 16

def sectorsPerTrack : Byte := 18
def headsPerCylinder : Byte := 2

structure Registers where
  ah : Byte
  al : Byte
  bx : Half
  ch : Byte
  cl : Byte
  dh : Byte
  dl : Byte

/-- The words and bytes after the code. -/
structure Variables where
  sectorsLeft : Half
  curCyl : Byte
  curHead : Byte
  curSect : Byte
  available : Byte
  sectorsNow : Byte

structure Loader extends Registers, Variables

def Registers.ax (r : Registers) : Half := r.ah ++ r.al
def Registers.cx (r : Registers) : Half := r.ch ++ r.cl

def Loader.setAx (l : Loader) (value : Half) : Loader :=
  { l with ah := (value >>> 8).setWidth 8, al := value.setWidth 8 }

/-! ## BIOS reads (int 0x13, function 2) -/

structure Read where
  al : Byte
  ch : Byte
  cl : Byte
  dh : Byte
  dl : Byte
  bx : Half

structure Answer where
  carry : Bool
  ah : Byte
  al : Byte

def Registers.read (r : Registers) : Read := ⟨r.al, r.ch, r.cl, r.dh, r.dl, r.bx⟩

namespace Read

def count (read : Read) : Nat := read.al.toNat
def head (read : Read) : Nat := read.dh.toNat

-- the two high bits of cl belong to the cylinder
def sector (read : Read) : Nat := read.cl.toNat % 64
def cylinder (read : Read) : Nat := read.ch.toNat + 256 * (read.cl.toNat / 64)

def linear (read : Read) : Nat := (read.cylinder * 2 + read.head) * 18 + read.sector - 1

def sectors (read : Read) : List Nat := List.range' read.linear read.count

/-- The read stays inside one track of a floppy with 18 sectors, 2 heads and 80 cylinders. -/
structure OneTrack (read : Read) : Prop where
  sector : 1 ≤ read.sector
  count : 1 ≤ read.count
  track : read.sector + read.count - 1 ≤ 18
  head : read.head < 2
  cylinder : read.cylinder ≤ 79

end Read

/-- The answer to a read may depend on every read before it. -/
abbrev Drive := List Read → Read → Answer

/-- Reads inside a track succeed and report the count that was asked for. -/
def Drive.Succeeds (drive : Drive) : Prop :=
  ∀ earlier (read : Read), read.OneTrack →
    (drive earlier read).carry = false ∧ (drive earlier read).al = read.al

/-! ## disk_load_many -/

def loaderSetup (l : Loader) : Loader :=
  { l with sectorsLeft := l.ax, curCyl := 0, curHead := 0, curSect := 2 }

/-- From `.loop` to the interrupt. -/
def prepare (l : Loader) : Loader :=
  let l := { l with al := sectorsPerTrack - l.curSect + 1 }
  let l := { l with available := l.al }
  let l := l.setAx l.sectorsLeft
  let l := { l with ch := 0, cl := l.available }
  let l := if l.ax ≤ l.cx then l else { l with al := l.cl }
  let l := { l with sectorsNow := l.al }
  { l with ah := 0x02, al := l.sectorsNow, ch := l.curCyl, cl := l.curSect, dh := l.curHead }

/-- What the loader prints before it stops at `jmp $`. -/
inductive Fault where
  | diskError (shown : Half)
  | sectorsError

/-- From the interrupt to the jump back. -/
def advance (l : Loader) (answer : Answer) : Except Fault Loader :=
  let l := { l with ah := answer.ah, al := answer.al }
  if answer.carry then .error (.diskError (l.ah ++ l.dl))
  else if l.al ≠ l.sectorsNow then .error .sectorsError
  else
    let l := { l with ah := 0, al := l.sectorsNow }
    let l := { l with sectorsLeft := l.sectorsLeft - l.ax }
    let l := l.setAx (l.ax <<< 9)
    let l := { l with bx := l.bx + l.ax, curSect := 1, al := l.curHead + 1 }
    if l.al.slt headsPerCylinder then .ok { l with curHead := l.al }
    else .ok { l with curHead := 0, curCyl := l.curCyl + 1 }

/-- The loader and the reads it has made, oldest first. -/
structure Progress where
  loader : Loader
  reads : List Read

def Progress.pending (p : Progress) : Bool := p.loader.sectorsLeft ≠ 0

def readTrack (drive : Drive) (p : Progress) : Option Progress :=
  let l := prepare p.loader
  match advance l (drive p.reads l.read) with
  | .ok next => some ⟨next, p.reads ++ [l.read]⟩
  | .error _ => none

def diskLoadMany (drive : Drive) (bound : Nat) (l : Loader) : Option Progress :=
  (whileLoop Progress.pending (readTrack drive) bound ⟨loaderSetup l, []⟩).map fun p =>
    { p with loader := { p.loader with toRegisters := l.toRegisters } }

/-! ## One track -/

/-- Where the next read starts, as a linear sector. -/
def Variables.place (v : Variables) : Nat :=
  (v.curCyl.toNat * 2 + v.curHead.toNat) * 18 + v.curSect.toNat - 1

structure Variables.OnDisk (v : Variables) : Prop where
  sectLow : 1 ≤ v.curSect.toNat
  sectHigh : v.curSect.toNat ≤ 18
  head : v.curHead.toNat < 2
  cylinder : v.curCyl.toNat ≤ 79

/-- What the current track still has, or less when less is left. -/
def Variables.chunk (v : Variables) : Nat := min v.sectorsLeft.toNat (19 - v.curSect.toNat)

@[simp] theorem ax_setAx (l : Loader) (value : Half) : (l.setAx value).ax = value := by
  simp only [Loader.setAx, Registers.ax]
  exact setWidth_append value 8 8 |>.trans (BitVec.setWidth_eq _)

theorem toNat_zeroHigh (x : Byte) : ((0 : Byte) ++ x : Half).toNat = x.toNat := by
  rw [BitVec.toNat_append]
  simp

variable {l : Loader}

theorem chunk_le_left (v : Variables) : v.chunk ≤ v.sectorsLeft.toNat := Nat.min_le_left _ _

/-- The count of the next read, as the code computes it. -/
def Variables.now (v : Variables) : Byte :=
  let available := sectorsPerTrack - v.curSect + 1
  if v.sectorsLeft ≤ (0 : Byte) ++ available then v.sectorsLeft.setWidth 8 else available

theorem prepare_eq (l : Loader) :
    prepare l = { l with
      ah := 0x02, al := l.now, ch := l.curCyl, cl := l.curSect, dh := l.curHead
      available := sectorsPerTrack - l.curSect + 1, sectorsNow := l.now } := by
  have same : (l.setAx l.sectorsLeft).ax = l.sectorsLeft := ax_setAx l l.sectorsLeft
  simp only [Loader.setAx, Registers.ax] at same
  simp only [prepare, Loader.setAx, Registers.ax, Registers.cx, Variables.now, same]
  split <;> rfl

theorem toNat_now (onDisk : l.OnDisk) : l.now.toNat = l.chunk := by
  have low := onDisk.sectLow
  have high := onDisk.sectHigh
  have available : (sectorsPerTrack - l.curSect + 1).toNat = 19 - l.curSect.toNat := by
    unfold sectorsPerTrack
    bv_omega
  unfold Variables.now Variables.chunk
  simp only [BitVec.le_def, toNat_zeroHigh, available]
  split
  next fits =>
    rw [BitVec.toNat_setWidth]
    omega
  next more =>
    rw [available]
    omega

/-- After a read of `now` sectors that went well. -/
theorem advance_eq (l : Loader) {answer : Answer} (carry : answer.carry = false)
    (counted : answer.al = l.sectorsNow) :
    ∃ next, advance l answer = .ok next ∧
      next.sectorsLeft = l.sectorsLeft - ((0 : Byte) ++ l.sectorsNow) ∧
      next.bx = l.bx + ((0 : Byte) ++ l.sectorsNow) <<< 9 ∧ next.curSect = 1 ∧ next.dl = l.dl ∧
      (next.curHead, next.curCyl) =
        if (l.curHead + 1).slt headsPerCylinder then (l.curHead + 1, l.curCyl)
        else (0, l.curCyl + 1) := by
  have same := ax_setAx { l with ah := 0, al := l.sectorsNow } (((0 : Byte) ++ l.sectorsNow) <<< 9)
  simp only [Loader.setAx, Registers.ax] at same
  simp only [advance, carry, counted, Loader.setAx, Registers.ax, same, Bool.false_eq_true, if_false,
    ne_eq, not_true_eq_false]
  split
  all_goals exact ⟨_, rfl, rfl, rfl, rfl, rfl, by simp⟩

/-- The next track: the other head, then the next cylinder. -/
theorem next_track {v next : Variables} (onDisk : v.OnDisk)
    (moved : (next.curHead, next.curCyl) =
      if (v.curHead + 1).slt headsPerCylinder then (v.curHead + 1, v.curCyl)
      else (0, v.curCyl + 1)) :
    next.curHead.toNat < 2 ∧
      next.curCyl.toNat * 2 + next.curHead.toNat = v.curCyl.toNat * 2 + v.curHead.toNat + 1 := by
  have small := onDisk.head
  have cylinder := onDisk.cylinder
  have heads : v.curHead = 0 ∨ v.curHead = 1 := by bv_omega
  rcases heads with front | back
  · have step : ((0 + 1 : Byte).slt headsPerCylinder) = true := by decide
    rw [front, if_pos step] at moved
    obtain ⟨curHead, curCyl⟩ := Prod.mk.inj moved
    simp [curHead, curCyl, front]
  · have last : ¬ (1 + 1 : Byte).slt headsPerCylinder := by decide
    rw [back, if_neg last] at moved
    obtain ⟨curHead, curCyl⟩ := Prod.mk.inj moved
    have carried : (v.curCyl + 1).toNat = v.curCyl.toNat + 1 := by bv_omega
    simp only [curHead, curCyl, back, carried]
    simp
    omega

/-- One track, from one test of the loop to the next. -/
structure Stepped (v next : Loader) : Prop where
  left : next.sectorsLeft.toNat = v.sectorsLeft.toNat - v.chunk
  buffer : next.bx.toNat = (v.bx.toNat + 512 * v.chunk) % 2 ^ 16
  drive : next.dl = v.dl
  sector : next.curSect = 1
  head : next.curHead.toNat < 2
  track : next.curCyl.toNat * 2 + next.curHead.toNat = v.curCyl.toNat * 2 + v.curHead.toNat + 1

theorem advance_prepare (onDisk : l.OnDisk) {answer : Answer} (carry : answer.carry = false)
    (counted : answer.al = (prepare l).read.al) :
    ∃ next, advance (prepare l) answer = .ok next ∧ Stepped l next := by
  have now := toNat_now onDisk
  have within := onDisk.sectLow
  have chunkLe := chunk_le_left l.toVariables
  have small : l.chunk ≤ 18 := by
    unfold Variables.chunk
    omega
  have same : answer.al = (prepare l).sectorsNow := by
    rw [counted, prepare_eq]
    rfl
  obtain ⟨next, advanced, left, buffer, sector, drive, moved⟩ := advance_eq _ carry same
  rw [prepare_eq] at left buffer drive moved
  obtain ⟨head, track⟩ := next_track onDisk moved
  refine ⟨next, advanced, ?_, ?_, drive, sector, head, track⟩
  · rw [left, BitVec.toNat_sub_of_le, toNat_zeroHigh, now]
    rw [BitVec.le_def, toNat_zeroHigh, now]
    exact chunkLe
  · rw [buffer, BitVec.toNat_add, BitVec.toNat_shiftLeft, toNat_zeroHigh, now, Nat.shiftLeft_eq]
    simp only [Nat.reducePow]
    omega

/-! ## The whole load -/

/-- Where the loader stands when it has `total` sectors to read in all. -/
structure Placed (total : Nat) (v : Variables) : Prop where
  left : v.sectorsLeft.toNat ≤ total
  sectLow : 1 ≤ v.curSect.toNat
  sectHigh : v.curSect.toNat ≤ 18
  head : v.curHead.toNat < 2
  place : 0 < v.sectorsLeft.toNat → v.place = total - v.sectorsLeft.toNat + 1

variable {total : Nat}

theorem loaderSetup_placed (l : Loader) : Placed l.ax.toNat (loaderSetup l).toVariables where
  left := Nat.le_refl _
  sectLow := by simp [loaderSetup]
  sectHigh := by simp [loaderSetup]
  head := by simp [loaderSetup]
  place := fun _ => by simp [loaderSetup, Variables.place]

theorem Placed.onDisk {v : Variables} (placed : Placed total v) (small : total ≤ 2879)
    (more : 0 < v.sectorsLeft.toNat) : v.OnDisk := by
  have place := placed.place more
  have low := placed.sectLow
  refine ⟨placed.sectLow, placed.sectHigh, placed.head, ?_⟩
  unfold Variables.place at place
  omega

theorem Placed.step {next : Loader} (placed : Placed total l.toVariables)
    (more : 0 < l.sectorsLeft.toNat) (stepped : Stepped l next) : Placed total next.toVariables := by
  obtain ⟨left, low, high, _, place⟩ := placed
  have place := place more
  have chunkLe := chunk_le_left l.toVariables
  have sect : next.curSect.toNat = 1 := by rw [stepped.sector]; rfl
  refine ⟨?_, ?_, ?_, stepped.head, ?_⟩
  · rw [stepped.left]
    omega
  · omega
  · omega
  -- a chunk that leaves something ends its track
  · intro rest
    rw [stepped.left] at rest ⊢
    have track := stepped.track
    have full : l.chunk = 19 - l.curSect.toNat := by
      unfold Variables.chunk at rest ⊢
      omega
    unfold Variables.place at place ⊢
    rw [sect]
    omega

/-- The read that the loader makes in a state on the disk. -/
theorem read_oneTrack (onDisk : l.OnDisk) (left : 0 < l.sectorsLeft.toNat) :
    (prepare l).read.OneTrack ∧ (prepare l).read.linear = l.place ∧
      (prepare l).read.count = l.chunk := by
  have count := toNat_now onDisk
  obtain ⟨low, high, head, cylinder⟩ := onDisk
  have sector : (prepare l).read.sector = l.curSect.toNat := by
    rw [prepare_eq]
    show l.curSect.toNat % 64 = l.curSect.toNat
    omega
  have cyl : (prepare l).read.cylinder = l.curCyl.toNat := by
    rw [prepare_eq]
    simp only [Read.cylinder, Registers.read]
    omega
  have front : (prepare l).read.head = l.curHead.toNat := by
    rw [prepare_eq]
    rfl
  have counted : (prepare l).read.count = l.chunk := by
    rw [prepare_eq]
    exact count
  refine ⟨⟨?_, ?_, ?_, ?_, ?_⟩, ?_, counted⟩
  · rw [sector]; exact low
  · rw [counted, Variables.chunk]; omega
  · rw [sector, counted, Variables.chunk]; omega
  · rw [front]; exact head
  · rw [cyl]; exact cylinder
  · rw [Read.linear, cyl, front, sector, Variables.place]

/-- What has been read when `total` sectors are to be read in all. -/
structure Loading (total : Nat) (p : Progress) : Prop where
  placed : Placed total p.loader.toVariables
  tracks : ∀ read ∈ p.reads, read.OneTrack
  covered : p.reads.flatMap Read.sectors = List.range' 1 (total - p.loader.sectorsLeft.toNat)

variable {p : Progress} {drive : Drive}

theorem sectorsLeft_pos (left : Half) : left ≠ 0 ↔ 0 < left.toNat := by
  constructor
  · intro more
    bv_omega
  · rintro more rfl
    exact absurd more (by decide)

theorem pending_iff (p : Progress) : p.pending = true ↔ 0 < p.loader.sectorsLeft.toNat := by
  rw [Progress.pending, decide_eq_true_iff]
  exact sectorsLeft_pos _

theorem readTrack_loading (succeeds : drive.Succeeds) (small : total ≤ 2879)
    (loading : Loading total p) (pending : p.pending = true) :
    ∃ next, readTrack drive p = some next ∧ Loading total next ∧
      next.loader.sectorsLeft.toNat < p.loader.sectorsLeft.toNat := by
  have more := (pending_iff p).mp pending
  have onDisk := loading.placed.onDisk small more
  obtain ⟨oneTrack, linear, count⟩ := read_oneTrack onDisk more
  obtain ⟨carry, counted⟩ := succeeds p.reads _ oneTrack
  obtain ⟨next, advanced, stepped⟩ := advance_prepare onDisk carry counted
  have left := loading.placed.left
  have chunkLe := chunk_le_left p.loader.toVariables
  have chunkPos : 0 < p.loader.chunk := count ▸ oneTrack.count
  refine ⟨⟨next, p.reads ++ [(prepare p.loader).read]⟩, ?_,
    ⟨loading.placed.step more stepped, ?_, ?_⟩, ?_⟩
  · simp only [readTrack, advanced]
  · intro read member
    rcases List.mem_append.mp member with earlier | here
    · exact loading.tracks read earlier
    · rw [List.mem_singleton.mp here]
      exact oneTrack
  -- the new sectors start where the covered ones end
  · rw [List.flatMap_append, loading.covered, List.flatMap_singleton, Read.sectors, linear, count,
      loading.placed.place more, stepped.left, Nat.add_comm _ 1, List.range'_append_1]
    congr 1
    omega
  · simp only [stepped.left]
    omega

theorem Loading.done (loading : Loading total p) (finished : p.pending = false) :
    p.reads.flatMap Read.sectors = List.range' 1 total := by
  have zero : p.loader.sectorsLeft.toNat = 0 := by
    have none := mt (pending_iff p).mpr (by simp [finished])
    omega
  rw [loading.covered, zero, Nat.sub_zero]

def readyDrive : Drive := fun _ read => ⟨false, 0, read.al⟩

end SzOS.KernelC
