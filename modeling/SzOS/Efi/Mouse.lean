import SzOS.Hardware.Ps2Controller
import SzOS.Semantics.Run

/-! The PS/2 mouse setup of the EFI kernel (mouse.c), beside the controller it talks to.

Each wait loop tests one bit of the status byte. hardware.h gives both bits the
value 0x01, so the wait before a write looks at the output buffer.
-/

set_option autoImplicit false

namespace SzOS.Efi.Mouse
open Semantics Hardware

abbrev Word := BitVec 32

def ps2StatusOutput : Byte := 0x01
def ps2StatusInput : Byte := 0x01

def ps2CmdEnableAux : Byte := 0xA8
def ps2CmdReadCfg : Byte := 0x20
def ps2CmdWriteCfg : Byte := 0x60
def ps2CmdWriteMouse : Byte := 0xD4
def mouseCmdDefaults : Byte := 0xF6
def mouseCmdEnable : Byte := 0xF4

/-- The calls of `activate_mouse`; a byte and what is kept of a read may depend on `config`. -/
inductive Call where
  | ps2WriteCommand (byte : Byte)
  | ps2WriteData (byte : Word → Byte)
  | readData (keep : Word → Word → Word)

def activateMouse : List Call :=
  [.ps2WriteCommand ps2CmdEnableAux,
   .ps2WriteCommand ps2CmdReadCfg,
   .readData fun _ byte => (byte ||| 0x02) &&& ~~~0x20,
   .ps2WriteCommand ps2CmdWriteCfg,
   .ps2WriteData fun config => config.setWidth 8,
   .ps2WriteCommand ps2CmdWriteMouse,
   .ps2WriteData fun _ => mouseCmdDefaults,
   .readData fun config _ => config,
   .ps2WriteCommand ps2CmdWriteMouse,
   .ps2WriteData fun _ => mouseCmdEnable,
   .readData fun config _ => config]

/-- The calls not yet finished, whether the wait of the first one is over, and the bytes
written so far with their ports, newest first. -/
structure Driver where
  calls : List Call
  waited : Bool
  config : Word
  written : List (BitVec 16 × Byte)

structure System where
  driver : Driver
  controller : Ps2Controller

/-- One test of the status byte. -/
def System.poll (s : System) (ended : Bool) : System :=
  { s with driver := { s.driver with waited := ended } }

def System.write (s : System) (port : BitVec 16) (byte : Byte) (rest : List Call) : System where
  driver := { s.driver with
    calls := rest, waited := false, written := (port, byte) :: s.driver.written }
  controller := s.controller.write

def System.read (s : System) (keep : Word → Word → Word) (rest : List Call) : System :=
  let (byte, controller) := s.controller.readData
  { driver := { s.driver with
      calls := rest, waited := false, config := keep s.driver.config (byte.setWidth 32) }
    controller }

/-- The driver's next port access; `mask` is the bit that `wait_input_buffer_clear` tests. -/
def System.access (mask : Byte) (s : System) : System :=
  match s.driver.calls with
  | [] => s
  | .ps2WriteCommand byte :: rest =>
    if s.driver.waited then s.write 0x64 byte rest
    else s.poll (s.controller.status &&& mask = 0)
  | .ps2WriteData byte :: rest =>
    if s.driver.waited then s.write 0x60 (byte s.driver.config) rest
    else s.poll (s.controller.status &&& mask = 0)
  | .readData keep :: rest =>
    if s.driver.waited then s.read keep rest
    else s.poll (s.controller.status &&& ps2StatusOutput ≠ 0)

/-! ## Interleavings -/

inductive Event where
  | access
  | controller (m : Ps2Controller.Move)

def step (mask : Byte) (s : System) : Event → System
  | .access => s.access mask
  | .controller m => { s with controller := m.apply s.controller }

def start (controller : Ps2Controller) : System where
  driver := { calls := activateMouse, waited := false, config := 0, written := [] }
  controller

/-- The call under way is a write. -/
def System.Writing (s : System) : Prop :=
  match s.driver.calls with
  | .ps2WriteCommand _ :: _ => True
  | .ps2WriteData _ :: _ => True
  | _ => False

/-- A write finds the input buffer clear, and a wait for a write ends when it is clear. -/
def Orderly (mask : Byte) (s : System) : Event → Prop
  | .access => s.Writing →
    (s.driver.waited = true → s.controller.inputFull = false) ∧
      (s.driver.waited = false → s.controller.inputFull = false →
        (s.access mask).driver.waited = true)
  | .controller _ => True

/-- A wait for a write finds the two buffers both full or both empty. -/
def Matched (s : System) : Event → Prop
  | .access => s.Writing → s.driver.waited = false →
    s.controller.inputFull = s.controller.outputFull
  | .controller _ => True

/-! ## What a run keeps -/

variable {s : System} {mask : Byte}

/-- A write whose wait is over finds the input buffer clear. -/
def Safe (s : System) : Prop :=
  s.Writing → s.driver.waited = true → s.controller.inputFull = false

/-- What a port access can be. -/
inductive Accessed (mask : Byte) (s : System) : System → Prop where
  | finished : s.driver.calls = [] → Accessed mask s s
  | waitClear : s.Writing → s.driver.waited = false →
      Accessed mask s (s.poll (s.controller.status &&& mask = 0))
  | waitFull : ¬ s.Writing → s.driver.waited = false →
      Accessed mask s (s.poll (s.controller.status &&& ps2StatusOutput ≠ 0))
  | wrote (port : BitVec 16) (byte : Byte) (rest : List Call) : s.Writing →
      s.driver.waited = true → Accessed mask s (s.write port byte rest)
  | read (keep : Word → Word → Word) (rest : List Call) : ¬ s.Writing →
      s.driver.waited = true → Accessed mask s (s.read keep rest)

theorem access_cases (mask : Byte) (s : System) : Accessed mask s (s.access mask) := by
  unfold System.access
  split
  next none => exact .finished none
  next byte rest here =>
    have writing : s.Writing := by simp [System.Writing, here]
    split
    next waited => exact .wrote _ _ _ writing waited
    next waiting => exact .waitClear writing (Bool.eq_false_iff.mpr waiting)
  next byte rest here =>
    have writing : s.Writing := by simp [System.Writing, here]
    split
    next waited => exact .wrote _ _ _ writing waited
    next waiting => exact .waitClear writing (Bool.eq_false_iff.mpr waiting)
  next keep rest here =>
    have reading : ¬ s.Writing := by simp [System.Writing, here]
    split
    next waited => exact .read _ _ reading waited
    next waiting => exact .waitFull reading (Bool.eq_false_iff.mpr waiting)

theorem access_waiting (writing : s.Writing) (waiting : s.driver.waited = false) :
    s.access mask = s.poll (s.controller.status &&& mask = 0) := by
  have accessed := access_cases mask s
  generalize s.access mask = after at accessed
  cases accessed with
  | finished none => simp [System.Writing, none] at writing
  | waitClear => rfl
  | waitFull reading => exact absurd writing reading
  | wrote port byte rest _ waited => simp [waiting] at waited
  | read keep rest _ waited => simp [waiting] at waited

/-- A mask whose bit is clear only when the input buffer is, at the waits of the run. -/
theorem Safe.access (safe : Safe s)
    (tells : s.Writing → s.driver.waited = false → s.controller.status &&& mask = 0 →
      s.controller.inputFull = false) : Safe (s.access mask) := by
  have accessed := access_cases mask s
  generalize s.access mask = after at accessed
  cases accessed with
  | finished => exact safe
  | waitClear writing waiting => exact fun _ ended => tells writing waiting (of_decide_eq_true ended)
  | waitFull reading => exact fun writing => absurd writing reading
  | wrote => exact fun _ waited => absurd waited Bool.false_ne_true
  | read => exact fun _ waited => absurd waited Bool.false_ne_true

theorem Safe.controller (safe : Safe s) (m : Ps2Controller.Move) :
    Safe (step mask s (.controller m)) :=
  fun writing waited => Ps2Controller.Move.inputFull_clear (safe writing waited) m

theorem start_safe (controller : Ps2Controller) : Safe (start controller) :=
  fun _ waited => absurd waited Bool.false_ne_true

theorem Safe.orderly (safe : Safe s)
    (tells : s.Writing → s.driver.waited = false → s.controller.inputFull = false →
      s.controller.status &&& mask = 0) : Orderly mask s .access := by
  intro writing
  refine ⟨safe writing, ?_⟩
  intro waiting clear
  rw [access_waiting writing waiting]
  exact decide_eq_true (tells writing waiting clear)

/-! ## Every run -/

theorem matched_tells (matched : Matched s .access) (writing : s.Writing)
    (waiting : s.driver.waited = false) :
    s.controller.status &&& ps2StatusInput = 0 ↔ s.controller.inputFull = false := by
  rw [matched writing waiting]
  exact s.controller.status_output

/-- The setup on a controller, as far as the events go. -/
abbrev Runs (mask : Byte) (property : System → Event → Prop) (s : System) (events : List Event) : Prop :=
  Along (fun s e => some (step mask s e)) property s events

theorem matched_orderly (safe : Safe s) {events : List Event}
    (matched : Runs ps2StatusInput Matched s events) :
    Runs ps2StatusInput (Orderly ps2StatusInput) s events := by
  refine Along.of_invariant Safe ?_ ?_ safe matched
  · intro s e safe matched
    cases e with
    | controller m => trivial
    | access => exact safe.orderly fun writing waiting => (matched_tells matched writing waiting).mpr
  · intro s e next safe matched stepped
    cases stepped
    cases e with
    | controller m => exact safe.controller m
    | access => exact safe.access fun writing waiting => (matched_tells matched writing waiting).mp

/-- An unmatched wait ends before the input buffer is clear, or goes on although it is. -/
theorem unmatched_disorderly (unmatched : ¬ Matched s .access) :
    ¬ Runs ps2StatusInput (Orderly ps2StatusInput) s [.access, .access] := by
  simp only [Matched, Classical.not_imp] at unmatched
  obtain ⟨writing, waiting, differ⟩ := unmatched
  rintro ⟨first, rest⟩
  obtain ⟨second, _⟩ := rest _ rfl
  have polled : s.access ps2StatusInput = s.poll (s.controller.status &&& ps2StatusInput = 0) :=
    access_waiting writing waiting
  have tested := s.controller.status_output
  cases full : s.controller.inputFull with
  | false =>
    have ended := (first writing).2 waiting full
    rw [polled] at ended
    have empty := tested.mp (of_decide_eq_true ended)
    exact differ (full.trans empty.symm)
  | true =>
    have empty : s.controller.outputFull = false := by
      cases output : s.controller.outputFull with
      | false => rfl
      | true => exact absurd (full.trans output.symm) differ
    have ended : (s.access ps2StatusInput).driver.waited = true := by
      rw [polled]
      exact decide_eq_true (tested.mpr empty)
    have clear := (second (by show (s.access ps2StatusInput).Writing; rw [polled]; exact writing)).1 ended
    have kept : (s.access ps2StatusInput).controller.inputFull = true := by
      rw [polled]
      exact full
    exact Bool.false_ne_true (clear.symm.trans kept)

/-- Setup on any controller: orderly in every run whose waits are all matched, and a wait
that is not matched is disorderly, or the access that follows it at once. -/
theorem activateMouse_orderly (controller : Ps2Controller) (events : List Event) :
    (Runs ps2StatusInput Matched (start controller) events →
      Runs ps2StatusInput (Orderly ps2StatusInput) (start controller) events) ∧
    ∀ s, ¬ Matched s .access → ¬ Runs ps2StatusInput (Orderly ps2StatusInput) s [.access, .access] :=
  ⟨matched_orderly (start_safe controller), fun _ => unmatched_disorderly⟩

/-- The second command is written while the first is still in the input buffer, and a byte
that waits in the output buffer keeps the first one from being written. -/
theorem busy_or_leftover_disorderly :
    ¬ Runs ps2StatusInput (Orderly ps2StatusInput) (start ⟨false, false, 0, 0⟩)
        [.access, .access, .access, .access] ∧
      ¬ Runs ps2StatusInput (Orderly ps2StatusInput) (start ⟨false, true, 0, 0⟩) [.access] := by
  constructor
  · rintro ⟨_, rest⟩
    obtain ⟨_, rest⟩ := rest _ rfl
    obtain ⟨_, rest⟩ := rest _ rfl
    obtain ⟨fourth, _⟩ := rest _ rfl
    exact absurd ((fourth trivial).1 rfl) (by decide)
  · rintro ⟨first, _⟩
    exact absurd ((first trivial).2 rfl rfl) (by decide)

/-- With bit 1 the same code is orderly on every controller. -/
theorem bit_one_orderly (controller : Ps2Controller) (events : List Event) :
    Runs 0x02 (Orderly 0x02) (start controller) events := by
  have always : Runs 0x02 (fun _ _ => True) (start controller) events := by
    refine (Along.inputs (fun _ => True) ?_ trivial).mpr fun _ _ => trivial
    exact fun s e _ _ => ⟨_, rfl, trivial⟩
  refine Along.of_invariant Safe ?_ ?_ (start_safe controller) always
  · intro s e safe _
    cases e with
    | controller m => trivial
    | access => exact safe.orderly fun _ _ => s.controller.status_input.mpr
  · intro s e next safe _ stepped
    cases stepped
    cases e with
    | controller m => exact safe.controller m
    | access => exact safe.access fun _ _ => s.controller.status_input.mp

end SzOS.Efi.Mouse
