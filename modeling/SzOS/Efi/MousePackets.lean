import Mathlib.Algebra.Group.Int.Defs
import SzOS.Efi.Interrupts

/-! Mouse movements of the EFI kernel: what `handler_mouse` makes of whole packets.

A packet gives each movement in nine bits, the sign bit in its first byte. The handler
reads the low eight bits as a signed byte and does not look at the first one.
-/

set_option autoImplicit false

namespace SzOS.Efi
open Semantics Hardware

/-- A movement packet of the PS/2 mouse without its overflow bits. -/
structure Packet where
  flags : Byte
  lowX : Byte
  lowY : Byte
  noOverflow : flags &&& 0xC0 = 0

namespace Packet

def bytes (p : Packet) : List Byte := [p.flags, p.lowX, p.lowY]

/-- Nine bits in two's complement. -/
def nineBits (sign : Bool) (low : Byte) : Int := if sign then (low.toNat : Int) - 256 else low.toNat

def dx (p : Packet) : Int := nineBits (p.flags.getLsbD 4) p.lowX
def dy (p : Packet) : Int := nineBits (p.flags.getLsbD 5) p.lowY

/-- The movement that the packet encodes; the mouse counts upwards, the screen downwards. -/
def apply (position : Int × Int) (p : Packet) : Int × Int :=
  (max 0 (position.1 + p.dx), max 0 (position.2 - p.dy))

end Packet

/-! ## Packets at the handler -/

def Globals.position (g : Globals) : Int × Int := (g.mouseX.toInt, g.mouseY.toInt)

/-- One interrupt for each byte. -/
def Globals.receive (g : Globals) (bytes : List Byte) : Globals :=
  bytes.foldl (fun g data => mouseByte data g) g

def Globals.receiveAll (g : Globals) (packets : List Packet) : Globals :=
  g.receive (packets.flatMap Packet.bytes)

/-- After these packets the position is the encoded one, and the next packet does not
move it before its last byte. -/
def Applied (g : Globals) (packets : List Packet) : Prop :=
  (g.receiveAll packets).position = packets.foldl Packet.apply g.position ∧
    ∀ next : Packet,
      ((g.receiveAll packets).receive [next.flags]).position = (g.receiveAll packets).position ∧
      ((g.receiveAll packets).receive [next.flags, next.lowX]).position =
        (g.receiveAll packets).position

/-- The movement stays in the range of `int`. -/
def InInt (position : Int × Int) (p : Packet) : Prop :=
  -2 ^ 31 ≤ position.1 + p.dx ∧ position.1 + p.dx < 2 ^ 31 ∧
    -2 ^ 31 ≤ position.2 - p.dy ∧ position.2 - p.dy < 2 ^ 31

def StaysInInt (position : Int × Int) (packets : List Packet) : Prop :=
  Along (fun position p => some (Packet.apply position p)) InInt position packets

/-- A movement that a signed byte holds, or one that ends at 0 whichever way it is read. -/
def ReadRight (coordinate movement asByte : Int) : Prop :=
  movement = asByte ∨
    coordinate + movement ≤ 0 ∧ -2 ^ 31 ≤ coordinate + asByte ∧ coordinate + asByte ≤ 0

def PacketFits (g : Globals) (p : Packet) : Prop :=
  ReadRight g.mouseX.toInt p.dx p.lowX.toInt ∧ ReadRight g.mouseY.toInt (-p.dy) (-p.lowY.toInt)

def deliver (g : Globals) (p : Packet) : Option Globals := some (g.receive p.bytes)

/-! ## One packet -/

theorem nineBits_spec (sign : Bool) (low : Byte) :
    -256 ≤ Packet.nineBits sign low ∧ Packet.nineBits sign low ≤ 255 ∧
      (Packet.nineBits sign low = low.toInt ∨ Packet.nineBits sign low = low.toInt + 256 ∨
        Packet.nineBits sign low = low.toInt - 256) := by
  have bound := low.isLt
  unfold Packet.nineBits
  rw [BitVec.toInt_eq_toNat_cond]
  split <;> split <;> omega

/-- The signed byte is the movement exactly between -128 and 127. -/
theorem nineBits_eq_toInt_iff (sign : Bool) (low : Byte) :
    Packet.nineBits sign low = low.toInt ↔
      -128 ≤ Packet.nineBits sign low ∧ Packet.nineBits sign low ≤ 127 := by
  have bound := low.isLt
  unfold Packet.nineBits
  rw [BitVec.toInt_eq_toNat_cond]
  split <;> split <;> omega

theorem toInt_signed8 (data : Byte) : (signed8 (data.setWidth 32)).toInt = data.toInt := by
  unfold signed8
  rw [BitVec.setWidth_setWidth_of_le data (by decide), BitVec.setWidth_eq,
    BitVec.toInt_signExtend_of_le (by decide)]

theorem toInt_clipNegative (x : BitVec 32) : (clipNegative x).toInt = max 0 x.toInt := by
  have zero : (0 : BitVec 32).toInt = 0 := rfl
  unfold clipNegative
  split
  next negative =>
    rw [BitVec.slt_iff_toInt_lt, zero] at negative
    omega
  next nonneg =>
    rw [BitVec.slt_iff_toInt_lt, zero] at nonneg
    omega

/-- What the clipped sum says, also where it wraps. -/
theorem clip_eq_iff {sum coordinate movement asByte : Int} (wrapped : sum = (coordinate + asByte).bmod (2 ^ 32))
    (near : movement = asByte ∨ movement = asByte + 256 ∨ movement = asByte - 256)
    (low : -2 ^ 31 ≤ coordinate + movement) (high : coordinate + movement < 2 ^ 31) :
    max 0 sum = max 0 (coordinate + movement) ↔ ReadRight coordinate movement asByte := by
  unfold ReadRight
  rw [wrapped, Int.bmod_def]
  split <;> omega

theorem receive_three {g : Globals} (start : g.byteIndex = 0) (p : Packet) :
    (g.receive p.bytes).byteIndex = 0 ∧
      (g.receive p.bytes).mouseX = clipNegative (g.mouseX + signed8 (p.lowX.setWidth 32)) ∧
      (g.receive p.bytes).mouseY = clipNegative (g.mouseY - signed8 (p.lowY.setWidth 32)) := by
  simp [Globals.receive, Packet.bytes, mouseByte, start, Function.update]

theorem receive_unmoved {g : Globals} (start : g.byteIndex = 0) (p : Packet) :
    (g.receive [p.flags]).position = g.position ∧
      (g.receive [p.flags, p.lowX]).position = g.position := by
  simp [Globals.receive, mouseByte, start, Globals.position]

theorem receive_applied_iff {g : Globals} (start : g.byteIndex = 0) {p : Packet}
    (range : InInt g.position p) :
    (g.receive p.bytes).position = p.apply g.position ↔ PacketFits g p := by
  obtain ⟨lowX, highX, lowY, highY⟩ := range
  obtain ⟨_, x, y⟩ := receive_three start p
  have movedX := (nineBits_spec (p.flags.getLsbD 4) p.lowX).2.2
  have movedY := (nineBits_spec (p.flags.getLsbD 5) p.lowY).2.2
  have sumX : (g.mouseX + signed8 (p.lowX.setWidth 32)).toInt =
      (g.mouseX.toInt + p.lowX.toInt).bmod (2 ^ 32) := by
    rw [BitVec.toInt_add, toInt_signed8]
  have sumY : (g.mouseY - signed8 (p.lowY.setWidth 32)).toInt =
      (g.mouseY.toInt + -p.lowY.toInt).bmod (2 ^ 32) := by
    rw [BitVec.toInt_sub, toInt_signed8, Int.sub_eq_add_neg]
  have movedDown : -p.dy = -p.lowY.toInt ∨ -p.dy = -p.lowY.toInt + 256 ∨
      -p.dy = -p.lowY.toInt - 256 := by
    unfold Packet.dy
    omega
  have right := clip_eq_iff sumX movedX lowX highX
  have down := clip_eq_iff sumY movedDown lowY highY
  simp only [Globals.position, Packet.apply, x, y, toInt_clipNegative, Prod.mk.injEq]
  exact and_congr right down

/-! ## Sequences of packets -/

theorem receiveAll_cons (g : Globals) (p : Packet) (rest : List Packet) :
    g.receiveAll (p :: rest) = (g.receive p.bytes).receiveAll rest := by
  simp [Globals.receiveAll, Globals.receive]

theorem receiveAll_index {g : Globals} (start : g.byteIndex = 0) (packets : List Packet) :
    (g.receiveAll packets).byteIndex = 0 := by
  induction packets generalizing g with
  | nil => exact start
  | cons p rest ih =>
    rw [receiveAll_cons]
    exact ih (receive_three start p).1

theorem applied_cons {g : Globals} {p : Packet} (applied : (g.receive p.bytes).position = p.apply g.position)
    (rest : List Packet) : Applied g (p :: rest) ↔ Applied (g.receive p.bytes) rest := by
  simp only [Applied, receiveAll_cons, List.foldl_cons, applied]

/-- Every prefix of a sequence moves the position as encoded exactly when each of its
packets, where it arrives, has movements that a signed byte holds or that end at 0. -/
theorem packets_applied_iff (g : Globals) (start : g.byteIndex = 0) (packets : List Packet)
    (range : StaysInInt g.position packets) :
    (∀ first rest, packets = first ++ rest → Applied g first) ↔
      Along deliver PacketFits g packets := by
  induction packets generalizing g with
  | nil =>
    refine ⟨fun _ => trivial, ?_⟩
    intro _ first rest same
    obtain ⟨rfl, _⟩ := List.append_eq_nil_iff.mp same.symm
    exact ⟨rfl, receive_unmoved start⟩
  | cons p packets ih =>
    have step := receive_applied_iff start range.1
    have next := (receive_three start p).1
    constructor
    · intro applied
      have here : (g.receive p.bytes).position = p.apply g.position := by
        simpa [receiveAll_cons, Globals.receiveAll] using (applied [p] packets rfl).1
      have later : StaysInInt (g.receive p.bytes).position packets := here ▸ range.2 _ rfl
      refine ⟨step.mp here, ?_⟩
      intro after delivered
      cases delivered
      apply (ih _ next later).mp
      rintro first rest rfl
      exact (applied_cons here first).mp (applied (p :: first) rest rfl)
    · rintro ⟨fits, along⟩ first rest same
      have here := step.mpr fits
      have later : StaysInInt (g.receive p.bytes).position packets := here ▸ range.2 _ rfl
      cases first with
      | nil => exact ⟨rfl, receive_unmoved start⟩
      | cons q first =>
        obtain ⟨rfl, tail⟩ := List.cons.inj same
        exact (applied_cons here first).mpr ((ih _ next later).mpr (along _ rfl) first rest tail)

def mouseAt (x y : BitVec 32) : Globals :=
  { ticks := 0, lastKey := 0, mouseX := x, mouseY := y, byteIndex := 0, packet := fun _ => 0 }

/-- Five to the right and three up. -/
def shortMove : Packet := ⟨0x08, 5, 3, by decide⟩

theorem packets_applied_iff_shortMove :
    (∀ first rest, [shortMove] = first ++ rest → Applied (mouseAt 100 100) first) ↔
      Along deliver PacketFits (mouseAt 100 100) [shortMove] :=
  packets_applied_iff (mouseAt 100 100) rfl [shortMove]
    ⟨by unfold InInt; decide, fun _ _ => trivial⟩

/-- Two hundred to the right: the cursor goes 56 to the left. -/
def longMove : Packet := ⟨0x08, 200, 0, by decide⟩

theorem long_move_misread :
    StaysInInt (mouseAt 100 100).position [longMove] ∧ ¬ Applied (mouseAt 100 100) [longMove] := by
  refine ⟨⟨by unfold InInt; decide, fun _ _ => trivial⟩, ?_⟩
  intro applied
  have x : ((mouseAt 100 100).receiveAll [longMove]).mouseX.toInt = 44 := by decide
  have moved := congrArg Prod.fst applied.1
  have right : (44 : Int) = 300 := x.symm.trans moved
  exact absurd right (by decide)

end SzOS.Efi
