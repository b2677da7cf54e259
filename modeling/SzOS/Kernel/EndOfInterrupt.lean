import SzOS.Kernel.Interrupts

/-! The end of interrupt of the kernel's hardware lines.

`irq_handler` writes an end of interrupt to the master only; `pic_send_eoi`, which
serves the slave's lines as well, is not called. A line of the slave stays in
service there.
-/

set_option autoImplicit false

namespace SzOS.Kernel.Interrupts
open Semantics Hardware Hardware.I386

/-! ## Requests -/

variable (build : Build)

def System.interrupted (s : System) (line : Fin 16) : Bool :=
  s.devices.pics.passes line && s.devices.pics.accepts line

/-- A request serviced to completion, or held back by the controllers. -/
def request (s : System) (r : Request) : Option System :=
  if s.interrupted r.line then takeInterrupt build s r else some s

/-- The kernel's setup, and then any two masks. -/
def masked (before : System) (master slave : Byte) : System :=
  let s := interruptsInitialize build before
  { s with devices := outb 0xA1 slave (outb 0x21 master s.devices) }

/-- Nothing in service keeps a request that the masks let through waiting, and its
service returns with its own bits out of service. -/
def Serviced (s : System) (r : Request) : Prop :=
  s.devices.pics.passes r.line = true →
    s.devices.pics.accepts r.line = true ∧
      ∃ next, request build s r = some next ∧ next.devices.pics.holds r.line = false

variable {build}

/-! ## One service -/

theorem idlePics_accepts (master slave : Byte) (line : Fin 16) :
    (idlePics master slave).accepts line = true := by
  have idle : ∀ line, (idlePics 0 0).accepts line = true := by decide
  exact idle line

structure Idle (build : Build) (master slave : Byte) (s : System) : Prop where
  pics : s.devices.pics = idlePics master slave
  gates : ∀ line : Fin 16, s.idt.gate (BitVec.ofNat 8 (32 + line)) =
    some (makeGate (build.address (.irq line)) kernelCs interruptGate)

theorem masked_idle (build : Build) (before : System) (master slave : Byte) :
    Idle build master slave (masked build before master slave) where
  pics := rfl
  gates := initialize_gate build before

variable {s : System} {master slave : Byte}

theorem Idle.request (idle : Idle build master slave s) {r : Request}
    (passes : (idlePics master slave).passes r.line = true) :
    ∃ devices, Interrupts.request build s r = some { s with devices } ∧
      devices.pics = ((idlePics master slave).deliver r.line).outb PicPair.masterCommand
        Chip.nonSpecificEoi := by
  have init : s.devices.pics.init = remappedInit := idle.pics ▸ idlePics_init master slave
  have interrupted : s.interrupted r.line = true := by
    unfold System.interrupted
    rw [idle.pics, passes, idlePics_accepts, Bool.and_self]
  unfold Interrupts.request
  rw [if_pos interrupted, takeInterrupt_eq init r (idle.gates r.line), irq_devices, interrupt_devices]
  refine ⟨_, rfl, ?_⟩
  show (s.devices.pics.deliver r.line).outb 0x20 0x20 = _
  rw [idle.pics]
  rfl

theorem Idle.held_back (idle : Idle build master slave s) {r : Request}
    (stopped : ¬ (idlePics master slave).passes r.line = true) :
    Interrupts.request build s r = some s := by
  unfold Interrupts.request System.interrupted
  rw [idle.pics, Bool.eq_false_iff.mpr stopped, Bool.false_and]
  rfl

/-- For a line of the master one end of interrupt is the whole acknowledgement. -/
theorem low_acknowledged {pics : PicPair} {line : Fin 16} (low : line.val < 8)
    (accepted : pics.accepts line = true) :
    (pics.deliver line).outb PicPair.masterCommand Chip.nonSpecificEoi = pics := by
  have undone := PicPair.acknowledge_deliver accepted
  rwa [PicPair.acknowledge, if_neg (Nat.not_le_of_lt low)] at undone

theorem serviced_iff (idle : Idle build master slave s) (r : Request) :
    Serviced build s r ↔ ((idlePics master slave).passes r.line = true → r.line.val < 8) := by
  unfold Serviced
  rw [idle.pics]
  apply forall_congr'
  intro passes
  obtain ⟨devices, serviced, pics⟩ := idle.request passes
  have accepted := idlePics_accepts master slave r.line
  simp only [accepted, true_and, serviced, Option.some.injEq, exists_eq_left', pics]
  by_cases low : r.line.val < 8
  · rw [low_acknowledged low accepted, PicPair.accepts_not_holds accepted]
    exact ⟨fun _ => low, fun _ => rfl⟩
  · rw [PicPair.deliver_holds_slave _ (Nat.le_of_not_lt low)]
    exact ⟨fun released => Bool.noConfusion released, fun within => (low within).elim⟩

theorem request_idle (idle : Idle build master slave s) {r : Request}
    (low : (idlePics master slave).passes r.line = true → r.line.val < 8) :
    ∃ next, request build s r = some next ∧ Idle build master slave next := by
  by_cases passes : (idlePics master slave).passes r.line = true
  · obtain ⟨devices, serviced, pics⟩ := idle.request passes
    refine ⟨_, serviced, ?_, idle.gates⟩
    rw [pics, low_acknowledged (low passes) (idlePics_accepts master slave r.line)]
  · exact ⟨s, idle.held_back passes, idle⟩

/-- In every sequence of requests under every two masks, the services end what they
began exactly when the masks let no line of the slave through. -/
theorem requests_serviced_iff (build : Build) (before : System) (master slave : Byte)
    (requests : List Request) :
    Along (request build) (Serviced build) (masked build before master slave) requests ↔
      ∀ r ∈ requests, (masked build before master slave).devices.pics.passes r.line = true →
        r.line.val < 8 := by
  have idle := masked_idle build before master slave
  rw [idle.pics]
  refine Iff.trans (Along.congr (Idle build master slave) ?_ ?_ idle)
    (Along.inputs (Idle build master slave) ?_ idle)
  · intro s r inv
    exact serviced_iff inv r
  · intro s r next inv low stepped
    obtain ⟨_, same, kept⟩ := request_idle inv low
    cases Option.some.inj (stepped.symm.trans same)
    exact kept
  · intro s r inv low
    exact request_idle inv low

/-- With nothing masked, the first tick of the clock on line 8 stays in service. -/
theorem clock_not_serviced : ¬ Along (request someBuild) (Serviced someBuild)
    (masked someBuild (loaded ⟨fun _ => ⟨0, 0, 0, 0, 0⟩, 0⟩ somePics) 0 0) [plainRequest 8] := by
  intro serviced
  have idle := masked_idle someBuild (loaded ⟨fun _ => ⟨0, 0, 0, 0, 0⟩, 0⟩ somePics) 0 0
  have low := (serviced_iff idle (plainRequest 8)).mp serviced.1 (by decide)
  exact absurd low (by decide)

end SzOS.Kernel.Interrupts
