import Mathlib.Data.List.Induction
import SzOS.Kernel.Interrupts

/-! The interrupt masks of the kernel over whole histories of calls.

Each line's own mask bit follows the last call on it. A line of the slave also needs
the master's bit 2, which `interrupts_initialize` sets and a call on another line
never clears.
-/

set_option autoImplicit false

namespace SzOS.Kernel.Interrupts
open Semantics Hardware Hardware.I386

/-! ## Calls -/

/-- A line that a device can have, not the one that the slave is on. -/
def DeviceLine := { line : Fin 16 // line.val ≠ 2 }

instance : DecidableEq DeviceLine := inferInstanceAs (DecidableEq { line : Fin 16 // line.val ≠ 2 })

inductive MaskCall where
  | setMask (line : DeviceLine)
  | clearMask (line : DeviceLine)
  | registerHandler (line : DeviceLine) (handler : Word)

def MaskCall.line : MaskCall → DeviceLine
  | .setMask line | .clearMask line | .registerHandler line _ => line

/-- Whether the call is meant to let the line's requests through. -/
def MaskCall.opens : MaskCall → Bool
  | .setMask _ => false
  | .clearMask _ | .registerHandler _ _ => true

def maskCall (d : Devices) : MaskCall → Devices
  | .setMask line => picSetMask (BitVec.ofNat 8 line.val) d
  | .clearMask line => picClearMask (BitVec.ofNat 8 line.val) d
  | .registerHandler line handler => irqRegisterHandler (BitVec.ofNat 8 line.val) handler d

variable (build : Build) (before : System)

/-- The devices after the setup and a sequence of calls. -/
def afterCalls (calls : List MaskCall) : Devices :=
  calls.foldl maskCall (interruptsInitialize build before).devices

def lastCall (line : DeviceLine) (calls : List MaskCall) : Option MaskCall :=
  (calls.filter fun call => call.line = line).getLast?

/-- The last call on the line opened it; without any, only the keyboard is open. -/
def opened (line : DeviceLine) (calls : List MaskCall) : Bool :=
  match lastCall line calls with
  | some call => call.opens
  | none => line.val.val = 1

/-- The line's requests reach the processor exactly when it was opened, and the calls
on other lines do not matter to it. -/
def FollowsCalls (calls : List MaskCall) (line : DeviceLine) : Prop :=
  (afterCalls build before calls).pics.passes line.val = opened line calls ∧
    ∀ call : MaskCall, call.line ≠ line →
      (afterCalls build before (calls ++ [call])).pics.passes line.val =
        (afterCalls build before calls).pics.passes line.val

variable {build before}

/-! ## The bit of one line -/

def lineMasked (pics : PicPair) (line : Fin 16) : Bool :=
  if line.val < 8 then pics.master.imr.getLsbD line else pics.slave.imr.getLsbD (line.val - 8)

theorem passes_eq (pics : PicPair) (line : Fin 16) :
    pics.passes line = (!lineMasked pics line && (line.val < 8 || !lineMasked pics 2)) := by
  unfold PicPair.passes
  by_cases low : line.val < 8
  · have own : PicPair.masterLine line = ⟨line, low⟩ := dif_pos low
    rw [own, PicPair.slaveLine_low (Nat.not_le_of_lt low), lineMasked, if_pos low]
    simp [low, Chip.masked]
  · have cascade : PicPair.masterLine line = 2 := dif_neg low
    rw [cascade, PicPair.slaveLine_high (Nat.le_of_not_lt low), lineMasked, if_neg low, Bool.and_comm]
    have inside : line.val - 8 < 8 := by omega
    simp [low, Chip.masked, lineMasked, BitVec.getLsbD_eq_getElem inside]

theorem shifted_bit {line other : Nat} (small : other < 8) :
    (1#8 <<< line).getLsbD other = decide (other = line) := by
  rw [BitVec.getLsbD_shiftLeft, BitVec.getLsbD_one]
  by_cases same : other = line
  · simp [same, same ▸ small]
  · have later : ¬ (other - line = 0 ∧ line ≤ other) := by omega
    simp [same]
    omega

/-- A bit of a mask written with the others kept. -/
structure WritesBit (change : Byte → Byte → Byte) (value : Bool) : Prop where
  bit : ∀ (mask : Byte) (line other : Nat), other < 8 →
    (change mask (1#8 <<< line)).getLsbD other = if other = line then value else mask.getLsbD other

theorem set_writesBit : WritesBit (fun mask bit => mask ||| bit) true where
  bit := by
    intro mask line other small
    rw [BitVec.getLsbD_or, shifted_bit small]
    by_cases same : other = line <;> simp [same]

theorem clear_writesBit : WritesBit (fun mask bit => mask &&& ~~~bit) false where
  bit := by
    intro mask line other small
    rw [BitVec.getLsbD_and, BitVec.getLsbD_not, shifted_bit small]
    by_cases same : other = line <;> simp [same, small]

/-! ## One call -/

/-- What `pic_set_mask` and `pic_clear_mask` share. -/
def changeMask (change : Byte → Byte → Byte) (irqLine : Byte) (d : Devices) : Devices :=
  let port : Port := if irqLine < 8 then 0x21 else 0xA1
  let line := if irqLine < 8 then irqLine else irqLine - 8
  let (value, d) := inb port d
  outb port (change value (1#8 <<< line.toNat)) d

theorem picSetMask_eq (irqLine : Byte) (d : Devices) :
    picSetMask irqLine d = changeMask (fun mask bit => mask ||| bit) irqLine d := rfl

theorem picClearMask_eq (irqLine : Byte) (d : Devices) :
    picClearMask irqLine d = changeMask (fun mask bit => mask &&& ~~~bit) irqLine d := rfl

variable {change : Byte → Byte → Byte} {value : Bool}

theorem line_lt_eight (line : Fin 16) : BitVec.ofNat 8 line < 8 ↔ line.val < 8 := by
  rw [BitVec.lt_def, BitVec.toNat_ofNat, Nat.mod_eq_of_lt (by omega)]
  rfl

theorem changeMask_low (change : Byte → Byte → Byte) {d : Devices}
    (ready : d.pics.master.stage = .ready) {line : Fin 16} (low : line.val < 8) :
    (changeMask change (BitVec.ofNat 8 line) d).pics =
      { d.pics with
        master := { d.pics.master with imr := change d.pics.master.imr (1#8 <<< line.val) } } := by
  have within := (line_lt_eight line).mpr low
  have number : (BitVec.ofNat 8 line.val).toNat = line.val := by
    rw [BitVec.toNat_ofNat]
    omega
  unfold changeMask
  simp only [if_pos within, number]
  show PicPair.mk (d.pics.master.writeData _) d.pics.slave = _
  rw [Chip.writeData, ready]
  rfl

theorem changeMask_high (change : Byte → Byte → Byte) {d : Devices}
    (ready : d.pics.slave.stage = .ready) {line : Fin 16} (high : ¬ line.val < 8) :
    (changeMask change (BitVec.ofNat 8 line) d).pics =
      { d.pics with
        slave := { d.pics.slave with imr := change d.pics.slave.imr (1#8 <<< (line.val - 8)) } } := by
  have past := (line_lt_eight line).not.mpr high
  have number : (BitVec.ofNat 8 line.val - 8).toNat = line.val - 8 := by
    rw [BitVec.toNat_sub, BitVec.toNat_ofNat]
    show (256 - 8 + line.val % 256) % 256 = _
    omega
  unfold changeMask
  simp only [if_neg past, number]
  show PicPair.mk d.pics.master (d.pics.slave.writeData _) = _
  rw [Chip.writeData, ready]
  rfl

theorem ready_stages {pics : PicPair} (ready : pics.init = remappedInit) :
    pics.master.stage = .ready ∧ pics.slave.stage = .ready := by
  simp only [PicPair.init, remappedInit, Prod.mk.injEq] at ready
  exact ⟨ready.1.1, ready.2.1⟩

/-- A change writes the line's own bit and keeps every other. -/
theorem changeMask_lineMasked (writes : WritesBit change value) {d : Devices}
    (ready : d.pics.init = remappedInit) (line other : Fin 16) :
    lineMasked (changeMask change (BitVec.ofNat 8 line) d).pics other =
      if other = line then value else lineMasked d.pics other := by
  obtain ⟨master, slave⟩ := ready_stages ready
  unfold lineMasked
  simp only [Fin.ext_iff]
  by_cases low : line.val < 8
  · rw [changeMask_low change master low]
    by_cases otherLow : other.val < 8
    · rw [if_pos otherLow, if_pos otherLow]
      exact writes.bit _ _ _ otherLow
    -- a line of the other chip
    · rw [if_neg otherLow, if_neg otherLow, if_neg (by omega)]
  · rw [changeMask_high change slave low]
    by_cases otherLow : other.val < 8
    · rw [if_pos otherLow, if_pos otherLow, if_neg (by omega)]
    · rw [if_neg otherLow, if_neg otherLow]
      have small : other.val - 8 < 8 := by omega
      rw [writes.bit _ _ _ small]
      have shifted : other.val - 8 = line.val - 8 ↔ other.val = line.val := by omega
      simp only [shifted]

theorem changeMask_init (change : Byte → Byte → Byte) {d : Devices}
    (ready : d.pics.init = remappedInit) (line : Fin 16) :
    (changeMask change (BitVec.ofNat 8 line) d).pics.init = remappedInit := by
  obtain ⟨master, slave⟩ := ready_stages ready
  by_cases low : line.val < 8
  · rw [changeMask_low change master low]
    exact ready
  · rw [changeMask_high change slave low]
    exact ready

/-! ## Histories -/

theorem maskCall_spec {d : Devices} (ready : d.pics.init = remappedInit) (call : MaskCall) :
    (maskCall d call).pics.init = remappedInit ∧ ∀ line,
      lineMasked (maskCall d call).pics line =
        if line = call.line.val then !call.opens else lineMasked d.pics line := by
  cases call with
  | setMask line =>
    rw [maskCall, picSetMask_eq]
    exact ⟨changeMask_init _ ready line.val, changeMask_lineMasked set_writesBit ready line.val⟩
  | clearMask line =>
    rw [maskCall, picClearMask_eq]
    exact ⟨changeMask_init _ ready line.val, changeMask_lineMasked clear_writesBit ready line.val⟩
  | registerHandler line handler =>
    rw [maskCall, irqRegisterHandler, picClearMask_eq]
    have kept : (isrRegisterHandler (irqBase + BitVec.ofNat 8 line.val) handler d).pics = d.pics := rfl
    rw [← kept] at ready ⊢
    generalize isrRegisterHandler (irqBase + BitVec.ofNat 8 line.val) handler d = registered at ready
    exact ⟨changeMask_init _ ready line.val, changeMask_lineMasked clear_writesBit ready line.val⟩

theorem afterCalls_append (build : Build) (before : System) (calls : List MaskCall)
    (call : MaskCall) :
    afterCalls build before (calls ++ [call]) = maskCall (afterCalls build before calls) call := by
  unfold afterCalls
  rw [List.foldl_append]
  rfl

theorem opened_append (line : DeviceLine) (calls : List MaskCall) (call : MaskCall) :
    opened line (calls ++ [call]) = if line = call.line then call.opens else opened line calls := by
  unfold opened lastCall
  rw [List.filter_append]
  by_cases same : line = call.line
  · simp [same]
  · have skipped : [call].filter (fun call => call.line = line) = [] := by
      simp [Ne.symm same]
    rw [skipped, List.append_nil, if_neg same]

/-- After any calls, every line's own bit follows the last call on it and the slave's
line is masked. -/
theorem afterCalls_masks (build : Build) (before : System) (calls : List MaskCall) :
    (afterCalls build before calls).pics.init = remappedInit ∧
      lineMasked (afterCalls build before calls).pics 2 = true ∧
      ∀ line : DeviceLine,
        lineMasked (afterCalls build before calls).pics line.val = !opened line calls := by
  induction calls using List.reverseRecOn with
  | nil =>
    have start : (afterCalls build before []).pics = idlePics 0xFD 0xFF := initialize_pics build before
    rw [start]
    refine ⟨idlePics_init _ _, by decide, ?_⟩
    have bits : ∀ line : Fin 16, line.val ≠ 2 →
        lineMasked (idlePics 0xFD 0xFF) line = !decide (line.val = 1) := by decide
    intro line
    exact bits line.val line.property
  | append_singleton calls call ih =>
    obtain ⟨ready, cascade, own⟩ := ih
    obtain ⟨kept, bits⟩ := maskCall_spec ready call
    rw [afterCalls_append]
    refine ⟨kept, ?_, ?_⟩
    · have other : (2 : Fin 16) ≠ call.line.val := fun same => call.line.property (same ▸ rfl)
      rw [bits, if_neg other, cascade]
    · intro line
      rw [bits, opened_append, own]
      by_cases same : line = call.line
      · rw [if_pos same, if_pos (congrArg Subtype.val same)]
      · rw [if_neg same, if_neg fun values => same (Subtype.ext values)]

theorem passes_afterCalls (calls : List MaskCall) (line : DeviceLine) :
    (afterCalls build before calls).pics.passes line.val = (opened line calls && line.val.val < 8) := by
  obtain ⟨_, cascade, own⟩ := afterCalls_masks build before calls
  rw [passes_eq, own, cascade, Bool.not_not, Bool.not_true, Bool.or_false]

/-- In every history, a line follows the calls on it exactly when it is on the master or
the last call on it left it closed. -/
theorem line_follows_calls_iff (build : Build) (before : System) (calls : List MaskCall)
    (line : DeviceLine) :
    FollowsCalls build before calls line ↔ line.val.val < 8 ∨ opened line calls = false := by
  have others : ∀ call : MaskCall, call.line ≠ line →
      (afterCalls build before (calls ++ [call])).pics.passes line.val =
        (afterCalls build before calls).pics.passes line.val := by
    intro call other
    rw [passes_afterCalls, passes_afterCalls, opened_append, if_neg (Ne.symm other)]
  unfold FollowsCalls
  rw [and_iff_left others, passes_afterCalls]
  cases opened line calls <;> simp

def mouseLine : DeviceLine := ⟨⟨12, Nat.lt_add_of_pos_right (Nat.succ_pos 3)⟩, nofun⟩

/-- A handler registered for the mouse leaves its line cut off at the master. -/
theorem registered_mouse_cut_off :
    ¬ FollowsCalls someBuild (loaded ⟨fun _ => ⟨0, 0, 0, 0, 0⟩, 0⟩ somePics)
      [.registerHandler mouseLine 0x5000] mouseLine := by
  intro follows
  have passes := follows.1
  rw [passes_afterCalls] at passes
  exact absurd passes (by decide)

end SzOS.Kernel.Interrupts
