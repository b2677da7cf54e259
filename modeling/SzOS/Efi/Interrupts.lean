import SzOS.Efi.Idt
import SzOS.Hardware.Pic8259
import SzOS.Semantics.Run

/-! Interrupts of the EFI kernel: the controllers, the gates and the three device
handlers (pic_timer.c, mouse.c) as `main` sets them up before its loop.

`remap_pic` writes both masks to the master, so that only line 4 is let
through, whose gate is empty. The promise made for each line is shown to hold
for exactly the other lines.
-/

set_option autoImplicit false

namespace SzOS.Efi
open Semantics Hardware

/-! ## pic_timer.c -/

def picInit : Byte := 0x11
def picIcw4 : Byte := 0x01
def irqBaseMaster : Byte := 32
def irqBaseSlave : Byte := 40
def pic1MaskDefault : Byte := 0xF8
def pic2MaskDefault : Byte := 0xEF

def remapPic (pics : PicPair) : PicPair :=
  let pics := pics.outb PicPair.masterCommand picInit
  let pics := pics.outb PicPair.slaveCommand picInit
  let pics := pics.outb PicPair.masterData irqBaseMaster
  let pics := pics.outb PicPair.slaveData irqBaseSlave
  let pics := pics.outb PicPair.masterData 0x04
  let pics := pics.outb PicPair.slaveData 0x02
  let pics := pics.outb PicPair.masterData picIcw4
  let pics := pics.outb PicPair.slaveData picIcw4
  let pics := pics.outb PicPair.masterData pic1MaskDefault
  -- the slave's mask, written to the master's port
  pics.outb PicPair.masterData pic2MaskDefault

def sendEoi (pics : PicPair) (irq : Byte) : PicPair :=
  let pics := if irq ≥ 8 then pics.outb PicPair.slaveCommand Chip.nonSpecificEoi else pics
  pics.outb PicPair.masterCommand Chip.nonSpecificEoi

/-- The variables that the handlers share with the main loop, and the static ones of `handler_mouse`. -/
structure Globals where
  ticks : BitVec 64
  lastKey : BitVec 32
  mouseX : BitVec 32
  mouseY : BitVec 32
  byteIndex : Nat
  packet : Nat → BitVec 32

def handlerTime (g : Globals) (pics : PicPair) : Globals × PicPair :=
  ({ g with ticks := g.ticks + 1 }, sendEoi pics 0)

/-- `data` is the byte that the handler reads from the PS/2 data port. -/
def handlerKeyboard (data : Byte) (g : Globals) (pics : PicPair) : Globals × PicPair :=
  ({ g with lastKey := data.setWidth 32 }, sendEoi pics 1)

/-! ## mouse.c -/

def mouseInitState (startX startY : BitVec 32) (g : Globals) : Globals :=
  { g with mouseX := startX, mouseY := startY }

/-- A packet byte as `int8_t`. -/
def signed8 (byte : BitVec 32) : BitVec 32 := (byte.setWidth 8).signExtend 32

def clipNegative (coordinate : BitVec 32) : BitVec 32 :=
  if coordinate.slt 0 then 0 else coordinate

def mouseByte (data : Byte) (g : Globals) : Globals :=
  let g := { g with
    packet := Function.update g.packet g.byteIndex (data.setWidth 32)
    byteIndex := g.byteIndex + 1 }
  -- the third byte completes a packet, whose first byte is not looked at
  if g.byteIndex = 3 then
    { g with
      mouseX := clipNegative (g.mouseX + signed8 (g.packet 1))
      mouseY := clipNegative (g.mouseY - signed8 (g.packet 2))
      byteIndex := 0 }
  else g

def handlerMouse (data : Byte) (g : Globals) (pics : PicPair) : Globals × PicPair :=
  (mouseByte data g, sendEoi pics 12)

/-! ## The machine -/

structure Machine where
  pics : PicPair
  idt : IdtTable
  idtr : IdtPointer
  globals : Globals

/-- Where the linker put the handlers. -/
structure HandlerAddresses where
  test : BitVec 64
  time : BitVec 64
  keyboard : BitVec 64
  mouse : BitVec 64
  distinct : [test, time, keyboard, mouse].Nodup

variable (addresses : HandlerAddresses)

/-- Running the code at an address; `none` where no device handler starts. -/
def handlerAt (address : BitVec 64) (data : Byte) (g : Globals) (pics : PicPair) :
    Option (Globals × PicPair) :=
  if address = addresses.time then some (handlerTime g pics)
  else if address = addresses.keyboard then some (handlerKeyboard data g pics)
  else if address = addresses.mouse then some (handlerMouse data g pics)
  else none

/-- The part of `main` from `initiate_idt` to `remap_pic`. `activate_mouse` only
talks to the 8042 controller. -/
def setup (cs : BitVec 16) (width height : BitVec 32) (before : Machine) : Machine :=
  let (idt, idtr) := initiateIdt before.idt
  let idt := configureEntryReal cs 3 idt addresses.test
  let idt := configureEntryReal cs 32 idt addresses.time
  let idt := configureEntryReal cs 33 idt addresses.keyboard
  let idt := configureEntryReal cs 44 idt addresses.mouse
  { pics := remapPic before.pics, idt, idtr
    globals := mouseInitState (width / 2) (height / 2) before.globals }

structure Request where
  line : Fin 16
  data : Byte

/-- The processor is interrupted by a request on this line. -/
def Machine.interrupted (m : Machine) (line : Fin 16) : Bool :=
  m.pics.passes line && m.pics.accepts line

def Machine.handler (m : Machine) (line : Fin 16) : Option (BitVec 64) :=
  gate m.idt m.idtr (m.pics.vector line)

/-- A request served to completion, or held back. `none` is the fault of an empty gate. -/
def request (m : Machine) (r : Request) : Option Machine :=
  if m.interrupted r.line then do
    let address ← m.handler r.line
    let (globals, pics) ← handlerAt addresses address r.data m.globals (m.pics.deliver r.line)
    some { m with globals, pics }
  else some m

/-! ## The promise of the setup -/

/-- The handler that serves a device line. -/
def deviceHandler (line : Fin 16) : Option (BitVec 64) :=
  if line = 0 then some addresses.time
  else if line = 1 then some addresses.keyboard
  else if line = 12 then some addresses.mouse
  else none

/-- The masks open the cascade line and the lines with a gate, the device lines
reach their handlers, and nothing reaches an empty gate. -/
structure LineServed (m : Machine) (line : Fin 16) : Prop where
  masks : m.pics.passes line = true ↔ line = 2 ∨ (m.idt (32 + line.val)).present = true
  device : ∀ address, deviceHandler addresses line = some address →
    m.interrupted line = true ∧ m.handler line = some address
  noEmptyGate : m.interrupted line = true → (m.handler line).isSome = true

/-- The lines whose requests the written masks treat as the setup intends. -/
def wellMasked (line : Fin 16) : Bool := line ∉ [0, 1, 2, 4, 12]

/-- The controllers as `remap_pic` leaves them. -/
def remapped : PicPair where
  master :=
    { stage := .ready, single := false, needsIcw4 := true, vectorBase := 32, cascade := 4, mode := 1
      imr := 0xEF, isr := 0 }
  slave :=
    { stage := .ready, single := false, needsIcw4 := true, vectorBase := 40, cascade := 2, mode := 1
      imr := 0, isr := 0 }

theorem remapPic_eq (pics : PicPair) : remapPic pics = remapped := rfl

theorem remapped_passes : ∀ line, remapped.passes line = true ↔ line = 4 := by decide

theorem setup_gates (cs : BitVec 16) (width height : BitVec 32) (before : Machine) (line : Fin 16) :
    ((setup addresses cs width height before).idt (32 + line.val)).present = true ↔
      line = 0 ∨ line = 1 ∨ line = 12 := by
  have bound := line.isLt
  have empty := initiateIdt_present before.idt (show 32 + line.val < 256 by omega)
  simp only [setup, configureEntryReal_present, empty, Fin.ext_iff, Bool.false_eq_true, or_false]
  show _ ↔ line.val = 0 ∨ line.val = 1 ∨ line.val = 12
  omega

/-- What the setup leaves behind, as far as requests can tell. -/
structure SetUp (m : Machine) : Prop where
  pics : m.pics = remapped
  gates : ∀ line : Fin 16, (m.idt (32 + line.val)).present = true ↔ line = 0 ∨ line = 1 ∨ line = 12

theorem setup_setUp (cs : BitVec 16) (width height : BitVec 32) (before : Machine) :
    SetUp (setup addresses cs width height before) :=
  ⟨remapPic_eq before.pics, setup_gates addresses cs width height before⟩

variable {addresses} {m : Machine}

theorem SetUp.interrupted_iff (setUp : SetUp m) (line : Fin 16) :
    m.interrupted line = true ↔ line = 4 := by
  have accepted : ∀ line, remapped.accepts line = true := by decide
  unfold Machine.interrupted
  rw [setUp.pics, accepted, Bool.and_true, remapped_passes]

theorem SetUp.no_handler (setUp : SetUp m) : m.handler 4 = none := by
  have vector : remapped.vector 4 = 36 := by decide
  have empty : (m.idt 36).present = true ↔ (4 : Fin 16) = 0 ∨ (4 : Fin 16) = 1 ∨ (4 : Fin 16) = 12 :=
    setUp.gates 4
  unfold Machine.handler gate
  rw [setUp.pics, vector]
  exact if_neg fun both => absurd (empty.mp both.2) (by decide)

/-- A request is held back, or faults: no handler runs. -/
theorem SetUp.request (setUp : SetUp m) {r : Request} {next : Machine}
    (served : Efi.request addresses m r = some next) : next = m := by
  unfold Efi.request at served
  split at served
  next interrupted =>
    rw [(setUp.interrupted_iff r.line).mp interrupted, setUp.no_handler] at served
    cases served
  next => exact (Option.some.inj served).symm

theorem SetUp.lineServed_iff (setUp : SetUp m) (line : Fin 16) :
    LineServed addresses m line ↔ wellMasked line = true := by
  constructor
  · intro served
    have masks := served.masks
    rw [setUp.pics, remapped_passes, setUp.gates] at masks
    have agree : ∀ line : Fin 16, (line = 4 ↔ line = 2 ∨ line = 0 ∨ line = 1 ∨ line = 12) →
        wellMasked line = true := by decide
    exact agree line masks
  · intro masked
    have outside : ∀ line : Fin 16, wellMasked line = true →
        line ≠ 4 ∧ line ≠ 0 ∧ line ≠ 1 ∧ line ≠ 2 ∧ line ≠ 12 := by decide
    obtain ⟨not4, not0, not1, not2, not12⟩ := outside line masked
    refine ⟨?_, ?_, ?_⟩
    · rw [setUp.pics, remapped_passes, setUp.gates]
      simp only [not4, not0, not1, not2, not12, or_false]
    · intro address device
      simp [deviceHandler, not0, not1, not12] at device
    · intro interrupted
      exact absurd ((setUp.interrupted_iff line).mp interrupted) not4

variable (addresses)

theorem SetUp.held {m : Machine} (setUp : SetUp m) {r : Request}
    (masked : wellMasked r.line = true) : Efi.request addresses m r = some m := by
  unfold Efi.request
  rw [if_neg]
  intro interrupted
  rw [(setUp.interrupted_iff r.line).mp interrupted] at masked
  exact absurd masked (by decide)

/-- In every run of requests after the setup, each line is served as intended at
the time of its request exactly when no request is on one of the lines 0, 1, 2, 4 and 12. -/
theorem requests_served_iff (cs : BitVec 16) (width height : BitVec 32) (before : Machine)
    (requests : List Request) :
    Along (request addresses) (fun m r => LineServed addresses m r.line)
        (setup addresses cs width height before) requests ↔
      ∀ r ∈ requests, wellMasked r.line = true := by
  have start := setup_setUp addresses cs width height before
  have served : ∀ m (r : Request), SetUp m →
      (LineServed addresses m r.line ↔ wellMasked r.line = true) :=
    fun m r setUp => setUp.lineServed_iff r.line
  have kept : ∀ m (r : Request) next, SetUp m → wellMasked r.line = true →
      request addresses m r = some next → SetUp next := by
    intro m r next setUp _ ran
    rw [setUp.request ran]
    exact setUp
  have returns : ∀ m (r : Request), SetUp m → wellMasked r.line = true →
      ∃ next, request addresses m r = some next ∧ SetUp next :=
    fun m r setUp masked => ⟨m, setUp.held addresses masked, setUp⟩
  exact (Along.congr SetUp served kept start).trans (Along.inputs SetUp returns start)

/-- A machine before the setup: controllers never initialized, an empty table. -/
def beforeSetup : Machine where
  pics := ⟨⟨.ready, false, false, 0, 0, 0, 0, 0⟩, ⟨.ready, false, false, 0, 0, 0, 0, 0⟩⟩
  idt := fun _ => ⟨0, 0, 0, 0, 0, 0, 0⟩
  idtr := ⟨0⟩
  globals := ⟨0, 0, 0, 0, 0, fun _ => 0⟩

def someAddresses : HandlerAddresses := ⟨0x1000, 0x2000, 0x3000, 0x4000, by decide⟩

/-- The timer is masked, although its gate is present. -/
theorem timer_not_served : ¬ LineServed someAddresses (setup someAddresses 0x38 800 600 beforeSetup) 0 := by
  rw [(setup_setUp someAddresses 0x38 800 600 beforeSetup).lineServed_iff]
  decide

end SzOS.Efi
