import SzOS.Efi.Picture

/-! The first frame of the EFI kernel under the masks that its own setup leaves.

The loop waits for ticks at the end of each frame. After `remap_pic` no device line
with a handler is let through, so the processor takes no interrupt, no tick is
counted and the screen keeps the first picture.
-/

set_option autoImplicit false

namespace SzOS.Efi
open Semantics Hardware

/-! ## The interrupts that the hardware can deliver -/

variable (addresses : HandlerAddresses)

/-- After some requests that were served or held back, a further one interrupts the processor,
and serving it is this interrupt. -/
def Deliverable (m : Machine) (i : Interrupt) : Prop :=
  ∃ requests later, run (request addresses) m requests = some later ∧
    ∃ r next, later.interrupted r.line = true ∧ request addresses later r = some next ∧
      i.serve { globals := later.globals, pics := later.pics.deliver r.line } =
        { globals := next.globals, pics := next.pics }

/-- Only interrupts that the hardware can deliver. -/
structure Pending.FromDevices (m : Machine) (p : Pending) : Prop where
  key : ∀ access, ∀ i ∈ p.key access, Deliverable addresses m i
  mouseX : ∀ i ∈ p.mouseX, Deliverable addresses m i
  mouseY : ∀ i ∈ p.mouseY, Deliverable addresses m i
  ticks : ∀ i ∈ p.ticks, Deliverable addresses m i
  delayStart : ∀ i ∈ p.delayStart, Deliverable addresses m i
  delay : ∀ pending ∈ p.delay, ∀ i ∈ pending, Deliverable addresses m i

variable {addresses}

/-- The one line let through has an empty gate. -/
theorem SetUp.not_deliverable {m : Machine} (setUp : SetUp m) (i : Interrupt) :
    ¬ Deliverable addresses m i := by
  rintro ⟨requests, later, ran, r, next, interrupted, served, _⟩
  have kept : SetUp later := by
    refine run_invariant SetUp ?_ setUp ran
    intro state input next setUp served
    rw [setUp.request served]
    exact setUp
  unfold Efi.request at served
  rw [if_pos interrupted, (kept.interrupted_iff r.line).mp interrupted, kept.no_handler] at served
  cases served

/-- No interrupt anywhere in the frame. -/
structure Pending.Silent (p : Pending) : Prop where
  key : p.key = fun _ => []
  mouseX : p.mouseX = []
  mouseY : p.mouseY = []
  ticks : p.ticks = []
  delayStart : p.delayStart = []
  delay : ∀ pending ∈ p.delay, pending = []

theorem SetUp.silent {m : Machine} (setUp : SetUp m) {p : Pending} (devices : p.FromDevices addresses m) :
    p.Silent := by
  have empty : ∀ {pending : List Interrupt}, (∀ i ∈ pending, Deliverable addresses m i) → pending = [] := by
    intro pending all
    exact List.eq_nil_iff_forall_not_mem.mpr fun i member => setUp.not_deliverable i (all i member)
  exact ⟨funext fun access => empty (devices.key access), empty devices.mouseX, empty devices.mouseY,
    empty devices.ticks, empty devices.delayStart, fun pending member => empty (devices.delay pending member)⟩

/-! ## The wait -/

/-- Polls that see no tick, however many. -/
theorem pollTicks_silent {ticksInitial ticksForWait : BitVec 64} {shared : Shared}
    (early : shared.globals.ticks - ticksInitial < ticksForWait) {polls : List (List Interrupt)}
    (silent : ∀ pending ∈ polls, pending = []) : pollTicks ticksInitial ticksForWait polls shared = none := by
  induction polls with
  | nil => rfl
  | cons pending rest ih =>
    obtain ⟨rfl, later⟩ := List.forall_mem_cons.mp silent
    have still : (shared.serveAll []).globals.ticks - ticksInitial < ticksForWait := early
    rw [pollTicks]
    exact (if_pos still).trans (ih later)

theorem delayReal_silent {ticksForWait : BitVec 64} (waits : 0 < ticksForWait) {p : Pending}
    (silent : p.Silent) (shared : Shared) : delayReal ticksForWait p shared = none := by
  unfold delayReal
  rw [silent.delayStart]
  refine pollTicks_silent ?_ silent.delay
  rw [BitVec.sub_self]
  exact waits

/-! ## The first picture -/

/-- The frame's places before anything has moved: the box at its start, or at the far edges of a
small screen, and the cursor in the middle. -/
def firstScene (d : Display) : Scene where
  places :=
    { boxX := (clampCoordinate d.width 100).toInt, boxY := (clampCoordinate d.height 100).toInt
      mouseX := (d.width / 2).toInt, mouseY := (d.height / 2).toInt, ticks := 0 }
  boxColor := 0x00E67E22

variable {d : Display}

theorem first_enter (pics : PicPair) (memory : Pixels) {p : Pending} (silent : p.Silent) :
    enterFrame d (mainStart d pics memory) p =
      ((mainStart d pics memory).shared, clampBox d (mainStart d pics memory).animation) :=
  enterFrame_noKey d silent.key rfl

theorem first_sceneOf (pics : PicPair) (memory : Pixels) {p : Pending} (silent : p.Silent) :
    sceneOf d (mainStart d pics memory) p = firstScene d := by
  unfold sceneOf readCursor
  rw [first_enter pics memory silent, silent.mouseX, silent.mouseY, silent.ticks]
  rfl

theorem first_frame_waits (pics : PicPair) (memory : Pixels) {p : Pending} (silent : p.Silent) :
    Unpaused d (mainStart d pics memory) p ∧ frame d (mainStart d pics memory) p = none := by
  have running : (enterFrame d (mainStart d pics memory) p).2.paused = 0 := by
    rw [first_enter pics memory silent]
    rfl
  refine ⟨running, ?_⟩
  unfold frame
  dsimp only
  rw [if_pos running, delayReal_silent (by decide) silent]
  rfl

theorem Display.Shows.narrow (shows : d.Shows) : d.width.toNat * 240 < 2 ^ 31 ∧
    d.height.toNat * 440 < 2 ^ 31 := by
  have wide := shows.wide
  have tall := shows.tall
  have stride := shows.stride
  have small := shows.small
  have columns := Nat.mul_le_mul tall stride
  have rows := Nat.mul_le_mul (Nat.le_refl d.height.toNat) (Nat.le_trans wide stride)
  unfold Display.extent at small
  omega

theorem toInt_small {value : BitVec 32} (small : value.toNat < 2 ^ 31) : value.toInt = value.toNat :=
  BitVec.toInt_eq_toNat_of_lt (by omega)

theorem firstScene_fits (shows : d.Shows) : (firstScene d).places.Fits d := by
  have wide := shows.wide
  have tall := shows.tall
  obtain ⟨narrow, low⟩ := shows.narrow
  have room : RoomForBox 100 := show (100 : BitVec 32).toInt + 60 < 2 ^ 31 by decide
  have boxX : (clampCoordinate d.width 100).toNat + 60 ≤ d.width.toNat :=
    clampCoordinate_fits (by omega) room
  have boxY : (clampCoordinate d.height 100).toNat + 60 ≤ d.height.toNat := clampCoordinate_fits tall room
  have two : (2 : BitVec 32).toNat = 2 := rfl
  have mouseX : (d.width / 2).toNat = d.width.toNat / 2 := by rw [BitVec.toNat_udiv, two]
  have mouseY : (d.height / 2).toNat = d.height.toNat / 2 := by rw [BitVec.toNat_udiv, two]
  constructor <;> dsimp only [firstScene]
  · rw [toInt_small (by omega)]
    omega
  · rw [toInt_small (by omega)]
    omega
  · rw [toInt_small (by omega), mouseX]
    omega
  · rw [toInt_small (by omega), mouseY]
    omega
  · decide

/-- A thousand polls on the smallest screen. -/
def polls : Pending :=
  { quiet with delay := List.replicate 1000 [] }

end SzOS.Efi
