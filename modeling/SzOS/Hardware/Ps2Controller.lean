import SzOS.Hardware.Pic8259

/-! An 8042 PS/2 controller as its host sees it: two one-byte buffers and a status byte.

The controller takes bytes from its input buffer and puts bytes into its output
buffer at times of its own.
-/

set_option autoImplicit false

namespace SzOS.Hardware

structure Ps2Controller where
  inputFull : Bool
  outputFull : Bool
  data : Byte
  flags : Byte

namespace Ps2Controller

/-- Bit 0 is the output buffer, bit 1 the input buffer. -/
def status (c : Ps2Controller) : Byte :=
  (if c.outputFull then 0x01 else 0) ||| (if c.inputFull then 0x02 else 0) ||| (c.flags &&& 0xFC)

def readData (c : Ps2Controller) : Byte × Ps2Controller := (c.data, { c with outputFull := false })

/-- A byte for the controller or for a device; what it does is the controller's affair. -/
def write (c : Ps2Controller) : Ps2Controller := { c with inputFull := true }

inductive Move where
  | accept
  | respond (byte : Byte)
  | setFlags (value : Byte)

def Move.apply (c : Ps2Controller) : Move → Ps2Controller
  | .accept => { c with inputFull := false }
  | .respond byte => if c.outputFull then c else { c with outputFull := true, data := byte }
  | .setFlags value => { c with flags := value }

theorem Move.inputFull_clear {c : Ps2Controller} (clear : c.inputFull = false) (m : Move) :
    (m.apply c).inputFull = false := by
  cases m with
  | accept => rfl
  | respond byte =>
    rw [apply]
    split <;> exact clear
  | setFlags value => exact clear

theorem flags_masked (bits flags : Byte) {mask : Byte} (low : 0xFC &&& mask = 0#8) :
    (bits ||| (flags &&& 0xFC)) &&& mask = bits &&& mask := by
  rw [BitVec.and_or_distrib_right, BitVec.and_assoc, low, BitVec.and_zero, BitVec.or_zero]

theorem status_output (c : Ps2Controller) : c.status &&& 0x01 = 0 ↔ c.outputFull = false := by
  rw [status, flags_masked _ _ (by decide)]
  cases c.outputFull <;> cases c.inputFull <;> decide

theorem status_input (c : Ps2Controller) : c.status &&& 0x02 = 0 ↔ c.inputFull = false := by
  rw [status, flags_masked _ _ (by decide)]
  cases c.outputFull <;> cases c.inputFull <;> decide

end Ps2Controller

end SzOS.Hardware
