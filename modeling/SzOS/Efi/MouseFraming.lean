import Mathlib.Algebra.BigOperators.Group.List.Basic
import SzOS.Efi.MousePackets

/-! Mouse packets of which bytes are lost: `handler_mouse` counts bytes and nothing else.

The first byte of a packet always has bit 3 set, but the handler does not look for it. After
a loss it takes every later byte for the wrong one, and the first bytes, which are never 0,
move the pointer to an edge and keep it there.
-/

set_option autoImplicit false

namespace SzOS.Efi
open Semantics Hardware

/-- Bit 3 of the first byte, by which a reader could find the start of a packet. -/
def Packet.Marked (p : Packet) : Prop := p.flags.getLsbD 3 = true

instance (p : Packet) : Decidable p.Marked := inferInstanceAs (Decidable (_ = true))

/-- The first bytes of packets as numbers. -/
def flagsSum (packets : List Packet) : Int := packets.foldr (fun p sum => p.flags.toNat + sum) 0

variable {g : Globals}

/-! ## The count of bytes -/

theorem mouseByte_index (inside : g.byteIndex < 3) (data : Byte) :
    (mouseByte data g).byteIndex = (g.byteIndex + 1) % 3 := by
  unfold mouseByte
  dsimp only
  split
  next last => rw [last]
  next more =>
    dsimp only at more ⊢
    omega

theorem receive_append (g : Globals) (first second : List Byte) :
    g.receive (first ++ second) = (g.receive first).receive second :=
  List.foldl_append

/-- The next byte's place is the number of bytes so far, whatever they were. -/
theorem receive_index (inside : g.byteIndex < 3) (bytes : List Byte) :
    (g.receive bytes).byteIndex = (g.byteIndex + bytes.length) % 3 := by
  induction bytes generalizing g with
  | nil => exact (Nat.mod_eq_of_lt inside).symm
  | cons data bytes ih =>
    have next := mouseByte_index inside data
    have small : (mouseByte data g).byteIndex < 3 := by omega
    rw [List.length_cons]
    refine (ih small).trans ?_
    omega

theorem receiveAll_length (packets : List Packet) :
    (packets.flatMap Packet.bytes).length = 3 * packets.length := by
  induction packets with
  | nil => rfl
  | cons p packets ih =>
    rw [List.flatMap_cons, List.length_append, ih, List.length_cons]
    show 3 + _ = _
    omega

/-! ## The pointer -/

theorem receive_nonneg (start : 0 ≤ g.mouseX.toInt ∧ 0 ≤ g.mouseY.toInt) (bytes : List Byte) :
    0 ≤ (g.receive bytes).mouseX.toInt ∧ 0 ≤ (g.receive bytes).mouseY.toInt := by
  induction bytes generalizing g with
  | nil => exact start
  | cons data bytes ih =>
    apply ih
    unfold mouseByte
    dsimp only
    split
    · dsimp only
      rw [toInt_clipNegative, toInt_clipNegative]
      exact ⟨Int.le_max_left 0 _, Int.le_max_left 0 _⟩
    · exact start

/-- A first byte is between 8 and 63, and as a signed byte the same. -/
theorem flags_range {p : Packet} (marked : p.Marked) :
    8 ≤ p.flags.toNat ∧ p.flags.toNat < 64 ∧ p.flags.toInt = p.flags.toNat := by
  have range : ∀ flags : Byte, flags &&& 0xC0 = 0 → flags.getLsbD 3 = true →
      8 ≤ flags.toNat ∧ flags.toNat < 64 ∧ flags.toInt = flags.toNat := by decide
  exact range p.flags p.noOverflow marked

/-- One byte short: the first byte of the next packet counts as the upward movement. -/
theorem receive_slipped_two (at' : g.byteIndex = 2) (p : Packet) :
    (g.receive p.bytes).byteIndex = 2 ∧
      (g.receive p.bytes).mouseX = clipNegative (g.mouseX + signed8 (g.packet 1)) ∧
      (g.receive p.bytes).mouseY = clipNegative (g.mouseY - signed8 (p.flags.setWidth 32)) ∧
      (g.receive p.bytes).packet 1 = p.lowY.setWidth 32 := by
  simp [Globals.receive, Packet.bytes, mouseByte, at', Function.update]

/-- Two bytes short: it counts as the movement to the right. -/
theorem receive_slipped_one (at' : g.byteIndex = 1) (p : Packet) :
    (g.receive p.bytes).byteIndex = 1 ∧
      (g.receive p.bytes).mouseX = clipNegative (g.mouseX + signed8 (p.flags.setWidth 32)) ∧
      (g.receive p.bytes).mouseY = clipNegative (g.mouseY - signed8 (p.lowX.setWidth 32)) := by
  simp [Globals.receive, Packet.bytes, mouseByte, at', Function.update]

theorem setWidth_flags_toInt {p : Packet} (marked : p.Marked) :
    (signed8 (p.flags.setWidth 32)).toInt = p.flags.toNat := by
  rw [toInt_signed8]
  exact (flags_range marked).2.2

theorem flagsSum_cons (p : Packet) (packets : List Packet) :
    flagsSum (p :: packets) = p.flags.toNat + flagsSum packets := rfl

theorem flagsSum_ge {packets : List Packet} (marked : ∀ p ∈ packets, p.Marked) :
    8 * (packets.length : Int) ≤ flagsSum packets := by
  induction packets with
  | nil => exact Int.le_refl 0
  | cons p packets ih =>
    obtain ⟨first, later⟩ := List.forall_mem_cons.mp marked
    have least := (flags_range first).1
    have rest := ih later
    rw [flagsSum_cons, List.length_cons]
    omega

/-- Movements of one coordinate, each a byte, clipped below 0. -/
def pushed (coordinate : BitVec 32) (movements : List Byte) : BitVec 32 :=
  movements.foldl (fun c m => clipNegative (c + signed8 (m.setWidth 32))) coordinate

/-- With one byte short, the pointer rises to the top whatever the mouse does, and moves sideways
by what the packets say of the other direction. -/
theorem receiveAll_slipped_two (at' : g.byteIndex = 2) {last : Byte} (pending : g.packet 1 = last.setWidth 32)
    (nonneg : 0 ≤ g.mouseY.toInt) {packets : List Packet} (marked : ∀ p ∈ packets, p.Marked) :
    (g.receiveAll packets).byteIndex = 2 ∧
      (g.receiveAll packets).mouseY.toInt = max 0 (g.mouseY.toInt - flagsSum packets) ∧
      (g.receiveAll packets).mouseX =
        pushed g.mouseX ((last :: packets.map Packet.lowY).take packets.length) := by
  induction packets generalizing g last with
  | nil =>
    have same : (g.mouseY.toInt - flagsSum []) = g.mouseY.toInt := Int.sub_zero _
    exact ⟨at', by rw [same]; exact (Int.max_eq_right nonneg).symm, rfl⟩
  | cons p packets ih =>
    obtain ⟨first, later⟩ := List.forall_mem_cons.mp marked
    obtain ⟨index, x, y, next⟩ := receive_slipped_two at' p
    obtain ⟨least, most, _⟩ := flags_range first
    have bound := BitVec.toInt_lt (x := g.mouseY)
    have risen : (g.receive p.bytes).mouseY.toInt = max 0 (g.mouseY.toInt - p.flags.toNat) := by
      rw [y, toInt_clipNegative, BitVec.toInt_sub, setWidth_flags_toInt first, Int.bmod_eq_of_le] <;> omega
    have further := ih index next (by omega) later
    have more := flagsSum_ge later
    rw [receiveAll_cons, flagsSum_cons]
    refine ⟨further.1, ?_, ?_⟩
    · rw [further.2.1, risen]
      omega
    · rw [further.2.2, x, pending]
      rfl

/-- With two bytes short it runs to the right, as far as `int` goes. -/
theorem receiveAll_slipped_one (at' : g.byteIndex = 1) {packets : List Packet}
    (marked : ∀ p ∈ packets, p.Marked) :
    (g.receiveAll packets).byteIndex = 1 ∧
      (0 ≤ g.mouseX.toInt → g.mouseX.toInt + flagsSum packets < 2 ^ 31 →
        (g.receiveAll packets).mouseX.toInt = g.mouseX.toInt + flagsSum packets) := by
  induction packets generalizing g with
  | nil => exact ⟨at', fun _ _ => (Int.add_zero _).symm⟩
  | cons p packets ih =>
    obtain ⟨first, later⟩ := List.forall_mem_cons.mp marked
    obtain ⟨index, x, y⟩ := receive_slipped_one at' p
    obtain ⟨least, most, _⟩ := flags_range first
    have further := ih index later
    have more := flagsSum_ge later
    rw [receiveAll_cons, flagsSum_cons]
    refine ⟨further.1, ?_⟩
    intro nonneg inside
    have moved : (g.receive p.bytes).mouseX.toInt = g.mouseX.toInt + p.flags.toNat := by
      rw [x, toInt_clipNegative, BitVec.toInt_add, setWidth_flags_toInt first, Int.bmod_eq_of_le] <;> omega
    rw [further.2 (by omega) (by omega), moved]
    omega

/-- What is left of a packet moves nothing. -/
theorem receive_part (aligned : g.byteIndex = 0) (first second : Byte) :
    ((g.receive [first]).byteIndex = 1 ∧ (g.receive [first]).mouseX = g.mouseX) ∧
    (g.receive [first, second]).byteIndex = 2 ∧
      (g.receive [first, second]).packet 1 = second.setWidth 32 ∧
      (g.receive [first, second]).mouseX = g.mouseX ∧ (g.receive [first, second]).mouseY = g.mouseY := by
  simp [Globals.receive, mouseByte, aligned, Function.update]

/-- Ten down, as the mouse sends it. -/
def shortFall : Packet := ⟨0x28, 0, 0xF6, by decide⟩

end SzOS.Efi
