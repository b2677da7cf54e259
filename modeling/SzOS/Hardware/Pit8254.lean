import SzOS.Hardware.Pic8259

/-! Channel 0 of an 8254 interval timer, whose output is interrupt line 0.

A control word selects how the count is written and forgets a half-written count. The
count is reloaded whenever it runs out; 0 stands for the largest count.
-/

set_option autoImplicit false

namespace SzOS.Hardware

/-- The bytes of the count that the data port takes. -/
inductive PitAccess where
  | lowByte | highByte | lowThenHigh
  deriving DecidableEq

structure PitChannel where
  access : PitAccess
  mode : BitVec 3
  bcd : Bool
  /-- The low byte, while the high one is awaited. -/
  low : Option Byte
  count : BitVec 16

namespace PitChannel

def commandPort : Port := 0x43
def dataPort : Port := 0x40

/-- Bits 6 and 7 select the channel, 4 and 5 the access, where 0 only latches the count. -/
def writeCommand (channel : PitChannel) (value : Byte) : PitChannel :=
  if value.extractLsb' 6 2 ≠ 0 then channel
  else
    let programmed (access : PitAccess) : PitChannel :=
      { channel with access, mode := value.extractLsb' 1 3, bcd := value.getLsbD 0, low := none }
    match (value.extractLsb' 4 2).toNat with
    | 1 => programmed .lowByte
    | 2 => programmed .highByte
    | 3 => programmed .lowThenHigh
    | _ => channel

def writeData (channel : PitChannel) (value : Byte) : PitChannel :=
  match channel.access with
  | .lowByte => { channel with count := value.setWidth 16 }
  | .highByte => { channel with count := value ++ (0 : Byte) }
  | .lowThenHigh =>
    match channel.low with
    | none => { channel with low := some value }
    | some low => { channel with low := none, count := value ++ low }

def outb (channel : PitChannel) (port : Port) (value : Byte) : PitChannel :=
  if port = commandPort then channel.writeCommand value
  else if port = dataPort then channel.writeData value
  else channel

/-- Four decimal digits, one in each half byte. -/
def decimal (count : BitVec 16) : Nat :=
  (count.extractLsb' 12 4).toNat * 1000 + (count.extractLsb' 8 4).toNat * 100 +
    (count.extractLsb' 4 4).toNat * 10 + (count.extractLsb' 0 4).toNat

/-- Input clocks from one reload to the next. -/
def period (channel : PitChannel) : Nat :=
  if channel.bcd then (if channel.count = 0 then 10000 else decimal channel.count)
  else if channel.count = 0 then 65536 else channel.count.toNat

/-- A count written as two bytes in binary, after the control word for it. -/
theorem outb_count (channel : PitChannel) {command : Byte} (channel0 : command.extractLsb' 6 2 = 0)
    (access : (command.extractLsb' 4 2).toNat = 3) (low high : Byte) :
    ((channel.outb commandPort command).outb dataPort low).outb dataPort high =
      { access := .lowThenHigh, mode := command.extractLsb' 1 3, bcd := command.getLsbD 0
        low := none, count := high ++ low } := by
  have programmed : channel.outb commandPort command =
      { channel with
        access := .lowThenHigh, mode := command.extractLsb' 1 3, bcd := command.getLsbD 0
        low := none } := by
    unfold outb writeCommand
    rw [if_pos rfl, if_neg (not_not.mpr channel0)]
    simp only [access]
  rw [programmed]
  rfl

theorem period_binary {channel : PitChannel} (binary : channel.bcd = false) :
    channel.period = if channel.count = 0 then 65536 else channel.count.toNat := by
  unfold period
  rw [binary]
  rfl

end PitChannel

end SzOS.Hardware
