import SzOS.Hardware.Ps2Controller
import SzOS.Kernel.EndOfInterrupt
import SzOS.Kernel.KeyboardBuffer

/-! The keyboard driver in the running kernel: bytes from the keyboard to `keyboard_read`.

`keyboard_callback` is registered for line 1, but the interrupt of the line does not reach
it, and `irq_handler` does not read port 0x60. The first byte stays in the controller, which
raises no other interrupt while it does.
-/

set_option autoImplicit false

namespace SzOS.Kernel.KeyboardDriver
open Semantics Hardware Hardware.I386
open Interrupts (Build Session System Request Devices Invocation SetUp irqRegisterHandler)
open Keyboard (KeyboardBuffer keyboardRead)

/-! ## arch/i386/drivers/keyboard.c -/

/-- The driver's variables, and the first cell of the screen, where the callback leaves a mark. -/
structure Driver where
  keys : KeyboardBuffer
  shiftPressed : Bool
  ctrlPressed : Bool
  altPressed : Bool
  capsLock : Bool
  p : Byte
  firstCell : BitVec 16

def keyboardCtrlPressed (d : Driver) : Bool := d.ctrlPressed
def keyboardAltPressed (d : Driver) : Bool := d.altPressed
def keyboardShiftPressed (d : Driver) : Bool := d.shiftPressed

def keyboardCallback (d : Driver) (c : Ps2Controller) : Driver × Ps2Controller :=
  let d := { d with firstCell := d.p.setWidth 16 ||| (0x4F#16 <<< 8) }
  let d := { d with p := if d.p = 0x39 then 0x30 else d.p + 1 }
  if c.status &&& 1 ≠ 0 then (d, c.readData.2) else (d, c)

/-- The driver as it is loaded. -/
def loadedDriver (buffer : Nat → UInt8) (firstCell : BitVec 16) : Driver :=
  ⟨⟨buffer, 0, 0⟩, false, false, false, false, 0x30, firstCell⟩

/-! ## The keyboard, its controller and the kernel -/

/-- `waiting` are the bytes that the keyboard has not yet handed to its controller, and `raised`
counts the interrupts of the controller. -/
structure Desk where
  session : Session
  controller : Ps2Controller
  waiting : List Byte
  driver : Driver
  raised : Nat

theorem keyboardLine_lt : 1 < 16 := Nat.one_lt_succ_succ 14

def keyboardLine : Fin 16 := ⟨1, keyboardLine_lt⟩

section System

variable (build : Build) (callback : Word)

def keyboardInitialize (d : Desk) : Option Desk := do
  let driver := { d.driver with keys := Keyboard.keyboardInitialize d.driver.keys }
  let session ← Interrupts.event build d.session (.register keyboardLine callback)
  some { d with driver, session }

/-- The handlers that an interrupt called, of which only the driver's own is of interest here. -/
def runHandlers (called : List Invocation) (state : Driver × Ps2Controller) : Driver × Ps2Controller :=
  called.foldl (fun (driver, controller) invocation =>
    if invocation.handler = callback then keyboardCallback driver controller
    else (driver, controller)) state

def entered (d : Desk) (system : System) : Desk :=
  let called := system.devices.invocations.drop d.session.system.devices.invocations.length
  let (driver, controller) := runHandlers callback called (d.driver, d.controller)
  { d with session := { d.session with system }, driver, controller }

/-- A request on some line, as the two interrupt controllers let it through. -/
def service (r : Request) (d : Desk) : Option Desk := do
  let system ← Interrupts.request build d.session.system r
  some (entered callback d system)

inductive Event where
  | key (byte : Byte)
  | transfer (cpu : Cpu) (memory : Memory)
  | request (r : Request)
  | register (line : Fin 16) (handler : Word)
  | read (outC : UInt8)

/-- The controller takes a byte from the keyboard when its output buffer is empty, and raises line 1. -/
def advance (d : Desk) : Event → Option Desk
  | .key byte => some { d with waiting := d.waiting ++ [byte] }
  | .transfer cpu memory =>
    match d.controller.outputFull, d.waiting with
    | false, byte :: rest =>
      service build callback ⟨keyboardLine, cpu, memory⟩
        { d with
          controller := (Ps2Controller.Move.respond byte).apply d.controller
          waiting := rest
          raised := d.raised + 1 }
    | _, _ => some d
  | .request r => service build callback r d
  | .register line handler => do
    let session ← Interrupts.event build d.session (.register line handler)
    some { d with session }
  | .read outC =>
    let (_, _, keys) := keyboardRead d.driver.keys outC
    some { d with driver := { d.driver with keys } }

/-- The kernel set up, with a keyboard from which nothing has come yet. -/
def start (idt : Idt) (pics : PicPair) (controller : Ps2Controller) (buffer : Nat → UInt8)
    (firstCell : BitVec 16) : Option Desk :=
  keyboardInitialize build callback
    { session := Interrupts.start build idt pics
      controller := controller
      waiting := []
      driver := loadedDriver buffer firstCell
      raised := 0 }

end System

/-- A read finds nothing and leaves its argument alone. -/
def FindsNothing (d : Desk) : Event → Prop
  | .read outC => keyboardRead d.driver.keys outC = (false, outC, d.driver.keys)
  | _ => True

def Event.typed : Event → List Byte
  | .key byte => [byte]
  | _ => []

/-- Where the bytes typed are: at most one in the controller, none in the driver. -/
structure Stuck (typed : List Byte) (before : Ps2Controller) (buffer : Nat → UInt8)
    (firstCell : BitVec 16) (d : Desk) : Prop where
  driver : d.driver = loadedDriver buffer firstCell
  waiting : d.waiting = typed.drop d.raised
  once : d.raised ≤ 1
  first : d.raised = 1 → d.controller.outputFull = true ∧ typed.head? = some d.controller.data
  untouched : d.raised = 0 → d.controller = before
  occupied : before.outputFull = true → d.raised = 0

/-- The buffer and the modifier keys. -/
def Driver.state (d : Driver) : KeyboardBuffer × Bool × Bool × Bool × Bool :=
  (d.keys, d.shiftPressed, d.ctrlPressed, d.altPressed, d.capsLock)

/-- The callback throws the byte away: it leaves its mark and takes what the controller holds. -/
theorem keyboardCallback_discards (d : Driver) (c : Ps2Controller) :
    (keyboardCallback d c).1.state = d.state ∧ (keyboardCallback d c).2.outputFull = false := by
  have full := Ps2Controller.status_output c
  unfold keyboardCallback
  dsimp only
  split
  next => exact ⟨rfl, rfl⟩
  next empty => exact ⟨rfl, full.mp (not_not.mp empty)⟩

theorem runHandlers_state (callback : Word) (called : List Invocation) (state : Driver × Ps2Controller) :
    (runHandlers callback called state).1.state = state.1.state := by
  induction called generalizing state with
  | nil => rfl
  | cons invocation called ih =>
    refine (ih _).trans ?_
    dsimp only
    split
    · exact (keyboardCallback_discards state.1 state.2).1
    · rfl

/-! ## An interrupt calls no handler -/

variable {build : Build} (callback : Word)

/-- What holds of the session besides: the setup, and that no handler has been called. -/
structure Uncalled (build : Build) (s : Session) : Prop where
  setUp : SetUp build s
  none : s.system.devices.invocations = []

theorem request_uncalled {s : Session} (uncalled : Uncalled build s) (r : Request) :
    ∃ system, Interrupts.request build s.system r = some system ∧ Uncalled build { s with system } := by
  unfold Interrupts.request
  split
  · obtain ⟨devices, taken, kept⟩ := Interrupts.takeInterrupt_spec uncalled.setUp r
    have occurred : Interrupts.event build s (.interrupt r) =
        some { s with system := { s.system with devices } } := by
      rw [Interrupts.event, taken]
      rfl
    simp only [Interrupts.unserved, Prod.mk.injEq] at kept
    exact ⟨_, taken, Interrupts.event_setUp uncalled.setUp occurred, kept.2.1.trans uncalled.none⟩
  · exact ⟨s.system, rfl, uncalled⟩

theorem service_uncalled {d : Desk} (uncalled : Uncalled build d.session) (r : Request) :
    ∃ system, service build callback r d = some { d with session := { d.session with system } } ∧
      Uncalled build { d.session with system } := by
  obtain ⟨system, serviced, kept⟩ := request_uncalled uncalled r
  have empty : system.devices.invocations = [] := kept.none
  refine ⟨system, ?_, kept⟩
  rw [service, serviced, Option.bind_eq_bind, Option.bind_some, entered, empty, List.drop_nil]
  rfl

theorem register_uncalled {s : Session} (uncalled : Uncalled build s) (line : Fin 16) (handler : Word) :
    ∃ session, Interrupts.event build s (.register line handler) = some session ∧
      Uncalled build session := by
  refine ⟨_, rfl, Interrupts.register_setUp uncalled.setUp rfl, ?_⟩
  show (irqRegisterHandler (BitVec.ofNat 8 line) handler s.system.devices).invocations = []
  rw [← uncalled.none]
  unfold irqRegisterHandler Interrupts.picClearMask Interrupts.outb
  simp only [Interrupts.inb_devices]
  rfl

/-! ## Runs -/

section Run

variable {typed : List Byte} {before : Ps2Controller} {buffer : Nat → UInt8} {firstCell : BitVec 16} {d : Desk}

theorem Stuck.raised_le (stuck : Stuck typed before buffer firstCell d) : d.raised ≤ typed.length := by
  have once := stuck.once
  by_cases none : d.raised = 0
  · omega
  · obtain ⟨_, head⟩ := stuck.first (by omega)
    have nonempty : typed ≠ [] := by
      rintro rfl
      cases head
    have length := List.length_pos_iff.mpr nonempty
    omega

theorem Stuck.key (stuck : Stuck typed before buffer firstCell d) (byte : Byte) :
    Stuck (typed ++ [byte]) before buffer firstCell { d with waiting := d.waiting ++ [byte] } where
  driver := stuck.driver
  waiting := by
    show d.waiting ++ [byte] = _
    rw [stuck.waiting, List.drop_append_of_le_length stuck.raised_le]
  once := stuck.once
  first one := by
    obtain ⟨full, head⟩ := stuck.first one
    rw [List.head?_append, head]
    exact ⟨full, rfl⟩
  untouched := stuck.untouched
  occupied := stuck.occupied

/-- Only the very first byte finds the controller's output buffer empty. -/
theorem Stuck.transfer (stuck : Stuck typed before buffer firstCell d) {byte : Byte} {rest : List Byte}
    (empty : d.controller.outputFull = false) (waiting : d.waiting = byte :: rest) :
    Stuck typed before buffer firstCell { d with
      controller := (Ps2Controller.Move.respond byte).apply d.controller
      waiting := rest
      raised := d.raised + 1 } := by
  have none : d.raised = 0 := by
    have once := stuck.once
    by_contra some
    obtain ⟨full, _⟩ := stuck.first (by omega)
    exact Bool.noConfusion (full.symm.trans empty)
  have all : typed = byte :: rest := by
    rw [← waiting, stuck.waiting, none, List.drop_zero]
  have responded : (Ps2Controller.Move.respond byte).apply d.controller =
      { d.controller with outputFull := true, data := byte } := by
    rw [Ps2Controller.Move.apply, empty]
    rfl
  refine ⟨stuck.driver, ?_, ?_, ?_, ?_, ?_⟩
  · rw [all, none]
    rfl
  · show d.raised + 1 ≤ 1
    omega
  · intro _
    rw [responded, all]
    exact ⟨rfl, rfl⟩
  · intro zero
    exact absurd zero (Nat.succ_ne_zero d.raised)
  · intro full
    rw [stuck.untouched none, full] at empty
    cases empty

theorem Stuck.findsNothing (stuck : Stuck typed before buffer firstCell d) (event : Event) :
    FindsNothing d event := by
  cases event with
  | read outC =>
    show keyboardRead d.driver.keys outC = _
    rw [stuck.driver]
    rfl
  | _ => trivial

theorem advance_stuck (uncalled : Uncalled build d.session) (stuck : Stuck typed before buffer firstCell d)
    (event : Event) : ∃ next, advance build callback d event = some next ∧
      Uncalled build next.session ∧ Stuck (typed ++ event.typed) before buffer firstCell next := by
  cases event with
  | key byte => exact ⟨_, rfl, uncalled, stuck.key byte⟩
  | transfer cpu memory =>
    simp only [Event.typed, List.append_nil, advance]
    split
    next byte rest empty waiting =>
      have moved := stuck.transfer empty waiting
      obtain ⟨system, serviced, kept⟩ := service_uncalled callback (d := { d with
        controller := (Ps2Controller.Move.respond byte).apply d.controller
        waiting := rest
        raised := d.raised + 1 }) uncalled ⟨keyboardLine, cpu, memory⟩
      exact ⟨_, serviced, kept, moved.driver, moved.waiting, moved.once, moved.first, moved.untouched,
        moved.occupied⟩
    next => exact ⟨d, rfl, uncalled, stuck⟩
  | request r =>
    obtain ⟨system, serviced, kept⟩ := service_uncalled callback uncalled r
    refine ⟨_, serviced, kept, ?_⟩
    show Stuck (typed ++ []) _ _ _ _
    rw [List.append_nil]
    exact ⟨stuck.driver, stuck.waiting, stuck.once, stuck.first, stuck.untouched, stuck.occupied⟩
  | register line handler =>
    obtain ⟨session, registered, kept⟩ := register_uncalled uncalled line handler
    refine ⟨{ d with session }, ?_, kept, ?_⟩
    · rw [advance, registered]
      rfl
    · show Stuck (typed ++ []) _ _ _ _
      rw [List.append_nil]
      exact ⟨stuck.driver, stuck.waiting, stuck.once, stuck.first, stuck.untouched, stuck.occupied⟩
  | read outC =>
    have nothing : keyboardRead d.driver.keys outC = _ := stuck.findsNothing (.read outC)
    refine ⟨d, ?_, uncalled, ?_⟩
    · rw [advance, nothing]
    · show Stuck (typed ++ []) _ _ _ _
      rwa [List.append_nil]

theorem run_stuck (events : List Event) (uncalled : Uncalled build d.session)
    (stuck : Stuck typed before buffer firstCell d) :
    Along (advance build callback) FindsNothing d events ∧
      ∃ final, run (advance build callback) d events = some final ∧
        Stuck (typed ++ events.flatMap Event.typed) before buffer firstCell final := by
  induction events generalizing d typed with
  | nil => exact ⟨trivial, d, rfl, by rwa [List.flatMap_nil, List.append_nil]⟩
  | cons event events ih =>
    obtain ⟨next, advanced, kept, further⟩ := advance_stuck callback uncalled stuck event
    obtain ⟨along, final, ran, end'⟩ := ih kept further
    refine ⟨⟨stuck.findsNothing event, ?_⟩, final, ?_, ?_⟩
    · intro other same
      cases Option.some.inj (advanced.symm.trans same)
      exact along
    · rw [run_cons, advanced, Option.bind_some, ran]
    · rwa [List.flatMap_cons, ← List.append_assoc]

end Run

/-- Whatever is typed, registered or raised on the lines and whenever the kernel reads, `keyboard_read`
finds nothing and the driver stays as it was loaded. The controller raises one interrupt at most, for
the first byte typed, which it keeps; the bytes after it stay in the keyboard. Nor would the callback,
if it were called, give the driver a byte. -/
theorem keyboard_read_finds_nothing (build : Build) (callback : Word) (idt : Idt) (pics : PicPair)
    (controller : Ps2Controller) (buffer : Nat → UInt8) (firstCell : BitVec 16) (events : List Event) :
    ∃ started, start build callback idt pics controller buffer firstCell = some started ∧
      Along (advance build callback) FindsNothing started events ∧
      (∃ final, run (advance build callback) started events = some final ∧
        Stuck (events.flatMap Event.typed) controller buffer firstCell final) ∧
      ∀ called state, (runHandlers callback called state).1.state = state.1.state := by
  have loaded : Uncalled build (Interrupts.start build idt pics) :=
    ⟨Interrupts.start_setUp build idt pics, rfl⟩
  obtain ⟨session, registered, uncalled⟩ := register_uncalled loaded keyboardLine callback
  have fresh : Stuck [] controller buffer firstCell
      ⟨session, controller, [], loadedDriver buffer firstCell, 0⟩ :=
    ⟨rfl, rfl, Nat.zero_le 1, fun one => absurd one Nat.zero_ne_one, fun _ => rfl, fun _ => rfl⟩
  obtain ⟨along, ran⟩ := run_stuck callback events uncalled fresh
  refine ⟨_, ?_, along, ran, runHandlers_state callback⟩
  rw [start, keyboardInitialize, registered]
  rfl

end SzOS.Kernel.KeyboardDriver
