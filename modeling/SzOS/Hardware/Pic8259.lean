import Mathlib.Algebra.Group.Nat.Defs
import Mathlib.Logic.Function.Basic

/-! A pair of 8259 interrupt controllers, the slave on line 2 of the master.

Each chip takes its initialization words in order: ICW1 on the command port, the
others on the data port. Outside a sequence the data port sets the mask. Lines
are fully nested: a request waits for every line in service of its own or a
higher priority, and a non-specific end of interrupt ends the highest one.
-/

set_option autoImplicit false

namespace SzOS.Hardware

abbrev Byte := BitVec 8
abbrev Port := BitVec 16

/-- What the data port takes next. -/
inductive Stage where
  | ready | icw2 | icw3 | icw4
  deriving DecidableEq

structure Chip where
  stage : Stage
  single : Bool
  needsIcw4 : Bool
  vectorBase : Byte
  cascade : Byte
  mode : Byte
  imr : Byte
  isr : Byte
  deriving DecidableEq

namespace Chip

def initBit (value : Byte) : Bool := value.getLsbD 4

def nonSpecificEoi : Byte := 0x20

/-- ICW1 starts a sequence and clears both registers; the other commands are not modelled. -/
def writeCommand (chip : Chip) (value : Byte) : Chip :=
  if initBit value then
    { chip with
      stage := .icw2, single := value.getLsbD 1, needsIcw4 := value.getLsbD 0
      mode := 0, imr := 0, isr := 0 }
  -- the lowest bit set is the level of the highest priority
  else if value = nonSpecificEoi then { chip with isr := chip.isr &&& (chip.isr - 1) }
  else chip

def afterIcw3 (chip : Chip) : Stage := if chip.needsIcw4 then .icw4 else .ready

def writeData (chip : Chip) (value : Byte) : Chip :=
  match chip.stage with
  | .ready => { chip with imr := value }
  | .icw2 =>
    { chip with
      vectorBase := value &&& 0xF8
      stage := if chip.single then chip.afterIcw3 else .icw3 }
  | .icw3 => { chip with cascade := value, stage := chip.afterIcw3 }
  | .icw4 => { chip with mode := value, stage := .ready }

/-- The levels that keep `line` waiting while they are in service. -/
def blocking (line : Fin 8) : Byte := BitVec.ofNat 8 (2 ^ (line.val + 1) - 1)

def lineBit (line : Fin 8) : Byte := BitVec.ofNat 8 (2 ^ line.val)

def masked (chip : Chip) (line : Fin 8) : Bool := chip.imr.getLsbD line

def accepts (chip : Chip) (line : Fin 8) : Bool := chip.isr &&& blocking line = 0

def deliver (chip : Chip) (line : Fin 8) : Chip := { chip with isr := chip.isr ||| lineBit line }

def inService (chip : Chip) (line : Fin 8) : Bool := chip.isr.getLsbD line

/-- The end of interrupt after a delivery undoes it. -/
theorem eoi_deliver_isr :
    ∀ (isr : Byte) (line : Fin 8), isr &&& blocking line = 0 →
      (isr ||| lineBit line) &&& ((isr ||| lineBit line) - 1) = isr := by
  decide +kernel

theorem eoi_deliver {chip : Chip} {line : Fin 8} (accepted : chip.accepts line = true) :
    (chip.deliver line).writeCommand nonSpecificEoi = chip := by
  have isr := eoi_deliver_isr chip.isr line (of_decide_eq_true accepted)
  unfold writeCommand deliver
  rw [if_neg (by decide), if_pos rfl]
  simp only [isr]

theorem deliver_inService (chip : Chip) (line : Fin 8) : (chip.deliver line).inService line = true := by
  have bit : ∀ line : Fin 8, (lineBit line).getLsbD line = true := by decide
  unfold inService deliver
  rw [BitVec.getLsbD_or, bit, Bool.or_true]

theorem accepts_not_inService {chip : Chip} {line : Fin 8} (accepted : chip.accepts line = true) :
    chip.inService line = false := by
  -- the line itself is among those that block it
  have clear : ∀ (isr : Byte) (line : Fin 8), isr &&& blocking line = 0 →
      isr.getLsbD line = false := by decide +kernel
  exact clear chip.isr line (of_decide_eq_true accepted)

/-- The chip with other lines in service. -/
def withIsr (chip : Chip) (isr : Byte) : Chip := { chip with isr := isr }

end Chip

/-! ## The pair -/

structure PicPair where
  master : Chip
  slave : Chip
  deriving DecidableEq

namespace PicPair

def masterCommand : Port := 0x20
def masterData : Port := 0x21
def slaveCommand : Port := 0xA0
def slaveData : Port := 0xA1

/-- A byte written to a port; the other ports belong to other devices. -/
def outb (pics : PicPair) (port : Port) (value : Byte) : PicPair :=
  if port = masterCommand then { pics with master := pics.master.writeCommand value }
  else if port = masterData then { pics with master := pics.master.writeData value }
  else if port = slaveCommand then { pics with slave := pics.slave.writeCommand value }
  else if port = slaveData then { pics with slave := pics.slave.writeData value }
  else pics

/-- The master line that a request arrives on, and its line on the slave if it has one. -/
def masterLine (line : Fin 16) : Fin 8 := if bound : line.val < 8 then ⟨line, bound⟩ else 2

def slaveLine (line : Fin 16) : Option (Fin 8) :=
  if 8 ≤ line.val then some ⟨line.val - 8, by omega⟩ else none

/-- The masks let a request through: its own bit, and the cascade bit of a slave line. -/
def passes (pics : PicPair) (line : Fin 16) : Bool :=
  !pics.master.masked (masterLine line) && (slaveLine line).all fun own => !pics.slave.masked own

def accepts (pics : PicPair) (line : Fin 16) : Bool :=
  pics.master.accepts (masterLine line) && (slaveLine line).all pics.slave.accepts

def deliver (pics : PicPair) (line : Fin 16) : PicPair where
  master := pics.master.deliver (masterLine line)
  slave := match slaveLine line with
    | none => pics.slave
    | some own => pics.slave.deliver own

/-- The vector the processor reads: the slave answers for its lines when the two
chips agree on the cascade line. -/
def vector (pics : PicPair) (line : Fin 16) : Byte :=
  match slaveLine line with
  | none => pics.master.vectorBase ||| BitVec.ofNat 8 line.val
  | some own =>
    if pics.master.cascade.getLsbD 2 && pics.slave.cascade = 2 then
      pics.slave.vectorBase ||| BitVec.ofNat 8 own.val
    else pics.master.vectorBase ||| 2

/-- The request's own bit and, for a slave line, the cascade bit are still in service. -/
def holds (pics : PicPair) (line : Fin 16) : Bool :=
  pics.master.inService (masterLine line) || (slaveLine line).any pics.slave.inService

/-- An end of interrupt to the master, and before it one to the slave for its lines. -/
def acknowledge (pics : PicPair) (line : Fin 16) : PicPair :=
  let pics := if 8 ≤ line.val then pics.outb slaveCommand Chip.nonSpecificEoi else pics
  pics.outb masterCommand Chip.nonSpecificEoi

/-- Other lines in service; masks and vectors do not see them. -/
def withIsr (pics : PicPair) (master slave : Byte) : PicPair :=
  ⟨pics.master.withIsr master, pics.slave.withIsr slave⟩

theorem deliver_withIsr (pics : PicPair) (line : Fin 16) :
    ∃ master slave, pics.deliver line = pics.withIsr master slave := by
  unfold deliver
  split
  next => exact ⟨_, pics.slave.isr, rfl⟩
  next => exact ⟨_, _, rfl⟩

@[simp] theorem withIsr_withIsr (pics : PicPair) (master slave master' slave' : Byte) :
    (pics.withIsr master slave).withIsr master' slave' = pics.withIsr master' slave' := rfl

theorem vector_withIsr (pics : PicPair) (master slave : Byte) (line : Fin 16) :
    (pics.withIsr master slave).vector line = pics.vector line := rfl

/-- What the initialization words left; masks and lines in service do not count. -/
def init (pics : PicPair) : (Stage × Byte × Byte) × (Stage × Byte × Byte) :=
  ((pics.master.stage, pics.master.vectorBase, pics.master.cascade),
    (pics.slave.stage, pics.slave.vectorBase, pics.slave.cascade))

theorem vector_of_init {pics other : PicPair} (same : pics.init = other.init) (line : Fin 16) :
    pics.vector line = other.vector line := by
  simp only [init, Prod.mk.injEq] at same
  obtain ⟨⟨_, masterBase, masterCascade⟩, _, slaveBase, slaveCascade⟩ := same
  unfold vector
  rw [masterBase, masterCascade, slaveBase, slaveCascade]

theorem init_deliver (pics : PicPair) (line : Fin 16) : (pics.deliver line).init = pics.init := by
  unfold deliver init
  split <;> rfl

/-- A mask written outside a sequence of initialization words. -/
theorem init_mask {pics : PicPair} (master : pics.master.stage = .ready)
    (slave : pics.slave.stage = .ready) {port : Port} (data : port = masterData ∨ port = slaveData)
    (value : Byte) : (pics.outb port value).init = pics.init := by
  rcases data with rfl | rfl
  · simp only [outb, init, Chip.writeData, master]
    rfl
  · simp only [outb, init, Chip.writeData, slave]
    rfl

section Ports

variable (pics : PicPair) (value : Byte)

@[simp] theorem outb_masterCommand : pics.outb masterCommand value =
    { pics with master := pics.master.writeCommand value } := rfl

@[simp] theorem outb_slaveCommand : pics.outb slaveCommand value =
    { pics with slave := pics.slave.writeCommand value } := rfl

end Ports

theorem slaveLine_low {line : Fin 16} (low : ¬ 8 ≤ line.val) : slaveLine line = none := dif_neg low

theorem slaveLine_high {line : Fin 16} (high : 8 ≤ line.val) :
    slaveLine line = some ⟨line.val - 8, by omega⟩ := dif_pos high

/-- Ends of interrupt to the chips that took part undo an accepted delivery. -/
theorem acknowledge_deliver {pics : PicPair} {line : Fin 16} (accepted : pics.accepts line = true) :
    (pics.deliver line).acknowledge line = pics := by
  have both := Bool.and_eq_true_iff.mp accepted
  have master := Chip.eoi_deliver both.1
  unfold acknowledge
  by_cases high : 8 ≤ line.val
  · have slave := both.2
    simp only [slaveLine_high high, Option.all_some] at slave
    rw [if_pos high]
    simp only [deliver, slaveLine_high high, outb_slaveCommand, outb_masterCommand, master,
      Chip.eoi_deliver slave]
  · rw [if_neg high]
    simp only [deliver, slaveLine_low high, outb_masterCommand, master]

theorem accepts_not_holds {pics : PicPair} {line : Fin 16} (accepted : pics.accepts line = true) :
    pics.holds line = false := by
  have both := Bool.and_eq_true_iff.mp accepted
  have master := Chip.accepts_not_inService both.1
  unfold holds
  rw [master, Bool.false_or]
  by_cases high : 8 ≤ line.val
  · have slave := both.2
    simp only [slaveLine_high high, Option.all_some] at slave
    simp only [slaveLine_high high, Option.any_some, Chip.accepts_not_inService slave]
  · simp only [slaveLine_low high, Option.any_none]

theorem deliver_holds (pics : PicPair) (line : Fin 16) : (pics.deliver line).holds line = true := by
  have master : (pics.deliver line).master.inService (masterLine line) = true :=
    Chip.deliver_inService pics.master (masterLine line)
  unfold holds
  rw [master, Bool.true_or]

/-- What is written to the master's ports leaves a slave line in service. -/
theorem deliver_holds_slave (pics : PicPair) {line : Fin 16} (high : 8 ≤ line.val) (value : Byte) :
    ((pics.deliver line).outb masterCommand value).holds line = true := by
  have slave := Chip.deliver_inService pics.slave ⟨line.val - 8, by omega⟩
  unfold holds
  simp only [outb_masterCommand, deliver, slaveLine_high high, Option.any_some, slave, Bool.or_true]

end PicPair

end SzOS.Hardware
