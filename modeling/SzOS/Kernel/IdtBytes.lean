import SzOS.Hardware.GateBytes
import SzOS.Kernel.Interrupts
import SzOS.Libc.Blocks

/-! The interrupt descriptor table of the kernel in memory (arch/i386/cpu/idt.c).

Elsewhere the table is a function from vectors to gates. Here it is the bytes of `idt`, which
`idt_install` clears, and `idtp`, from which `lidt` takes their address.
-/

set_option autoImplicit false

namespace SzOS.Kernel.IdtBytes
open Hardware Hardware.I386 Libc
open Interrupts (Build System kernelCs interruptGate)

/-- Where the linker put the variables of idt.c. -/
structure Place where
  idt : Word
  idtp : Word
  apart : ∀ i < 2048, ∀ j < 6, cell idt i ≠ cell idtp j

variable (build : Build) (place : Place)

def idtSetGate (num : Byte) (base : Word) (sel : BitVec 16) (flags : Byte) (memory : Memory) : Memory :=
  storeGate place.idt num.toNat base sel flags memory

def idtInstall (memory : Memory) : Memory × Idtr :=
  let memory := storeIdtr place.idtp place.idt memory
  let memory := (memset place.idt 0 (8 * 256) memory).2
  (memory, lidt memory place.idtp)

def isrInstall (memory : Memory) : Memory :=
  (List.finRange 32).foldl (fun memory (n : Fin 32) =>
    idtSetGate place (BitVec.ofNat 8 n) (build.address (.isr n)) kernelCs interruptGate memory) memory

def irqInstall (memory : Memory) : Memory :=
  (List.finRange 16).foldl (fun memory (n : Fin 16) =>
    idtSetGate place (BitVec.ofNat 8 (32 + n)) (build.address (.irq n)) kernelCs interruptGate memory) memory

/-- What `interrupts_initialize` does to memory and to the processor's register. -/
def interruptsInitialize (memory : Memory) : Memory × Idtr :=
  let installed := idtInstall place memory
  (irqInstall build place (isrInstall build place installed.1), installed.2)

/-! ## The empty table -/

theorem cleared_gate {memory : Memory} {table : Word} {number : Nat}
    (cleared : ∀ i, 8 * number ≤ i → i < 8 * number + 8 → bytesAt memory table i = 0) :
    gatesAt memory table number = ⟨0, 0, 0, 0, 0⟩ := by
  have zero : gatesAt memory table number = gatesAt (fun _ => 0) table number := gatesAt_congr cleared
  rw [zero]
  rfl

theorem idt_size : (8 * 256 : Word).toNat = 2048 := by decide

/-- The bytes of the table and the register, once `memset` has run. -/
theorem idtInstall_eq (memory : Memory) :
    idtInstall place memory = ((memset place.idt 0 (8 * 256) (storeIdtr place.idtp place.idt memory)).2,
      lidt (memset place.idt 0 (8 * 256) (storeIdtr place.idtp place.idt memory)).2 place.idtp) := rfl

theorem idtInstall_idtr (memory : Memory) : (idtInstall place memory).2 = ⟨place.idt, 8 * 256 - 1⟩ := by
  rw [idtInstall_eq, ← lidt_storeIdtr place.idtp place.idt memory]
  apply lidt_congr
  intro j less
  -- both sides as reads of one cell, or the kernel runs all 2048 rounds of `memset`
  rw [bytesAt, bytesAt]
  refine memset_elsewhere 0 fun i inside => ?_
  rw [idt_size] at inside
  exact (place.apart i inside j less).symm

theorem idtInstall_inMemory (memory : Memory) (before : System) :
    InMemory (idtInstall place memory).1 (idtInstall place memory).2 (Interrupts.idtInstall before).idt := by
  rw [idtInstall_idtr, idtInstall_eq]
  refine ⟨rfl, fun n less => cleared_gate fun i _ below => ?_⟩
  rw [bytesAt]
  apply memset_filled 0
  rw [idt_size]
  omega

/-! ## The gates -/

section Gates

variable {build place} {memory : Memory} {idtr : Idtr} {s : System}

theorem idtSetGates_inMemory (held : InMemory memory idtr s.idt) (base : idtr.base = place.idt) (first : Nat)
    {count : Nat} (inside : first + count ≤ 256) (address : Fin count → Word) :
    InMemory ((List.finRange count).foldl (fun memory (n : Fin count) =>
        idtSetGate place (BitVec.ofNat 8 (first + n)) (address n) kernelCs interruptGate memory) memory)
      idtr { s.idt with
        entries := (List.finRange count).foldl (fun entries (n : Fin count) =>
          Interrupts.idtSetGate (first + n) (address n) kernelCs interruptGate entries) s.idt.entries } := by
  have number : ∀ n : Fin count, (BitVec.ofNat 8 (first + n)).toNat = first + n := fun n => by
    rw [BitVec.toNat_ofNat]
    omega
  simp only [idtSetGate, number, ← base]
  exact held.storeGates (List.finRange count) (fun n => first + n.val) (fun n => by omega) address kernelCs
    interruptGate

theorem isrInstall_inMemory (held : InMemory memory idtr s.idt) (base : idtr.base = place.idt) :
    InMemory (isrInstall build place memory) idtr (Interrupts.isrInstall build s).idt := by
  have gates := idtSetGates_inMemory held base 0 (by decide) fun n : Fin 32 => build.address (.isr n)
  simp only [Nat.zero_add] at gates
  exact gates

theorem irqInstall_inMemory (held : InMemory memory idtr s.idt) (base : idtr.base = place.idt) :
    InMemory (irqInstall build place memory) idtr (Interrupts.irqInstall build s).idt :=
  idtSetGates_inMemory held base 32 (by decide) fun n : Fin 16 => build.address (.irq n)

end Gates

theorem interruptsInitialize_inMemory (memory : Memory) (before : System) :
    InMemory (interruptsInitialize build place memory).1 ⟨place.idt, 8 * 256 - 1⟩
      (Interrupts.interruptsInitialize build before).idt := by
  have cleared := idtInstall_inMemory place memory before
  rw [idtInstall_idtr] at cleared
  exact irqInstall_inMemory (isrInstall_inMemory cleared rfl) rfl

theorem initialized_idtr (memory : Memory) :
    (interruptsInitialize build place memory).2 = ⟨place.idt, 8 * 256 - 1⟩ := idtInstall_idtr place memory

/-- The gates that nobody sets are those that `idt_install` cleared. -/
theorem unset_gate (before : System) {vector : Byte} (unset : 48 ≤ vector.toNat) :
    (Interrupts.interruptsInitialize build before).idt.gate vector = none := by
  have lines : ∀ line ∈ List.finRange 16, 32 + line.val ≠ vector.toNat := by
    intro line _
    omega
  have exceptions : ∀ n ∈ List.finRange 32, n.val ≠ vector.toNat := by
    intro n _
    omega
  have entry : (Interrupts.interruptsInitialize build before).idt.entries vector.toNat = ⟨0, 0, 0, 0, 0⟩ :=
    (writeEntries_other (fun line : Fin 16 => 32 + line.val)
      (fun line => makeGate (build.address (.irq line)) kernelCs interruptGate) lines _).trans
      (writeEntries_other (fun n : Fin 32 => n.val)
        (fun n => makeGate (build.address (.isr n)) kernelCs interruptGate) exceptions _)
  unfold Idt.gate
  rw [entry]
  exact if_neg fun found => absurd found.2 (by decide)

/-! ## Other memory -/

section Elsewhere

variable {address : Word} (table : ∀ i < 2048, address ≠ cell place.idt i)
include table

theorem idtSetGates_elsewhere {count : Nat} (number : Fin count → Byte) (base : Fin count → Word)
    (memory : Memory) :
    (List.finRange count).foldl (fun memory n =>
      idtSetGate place (number n) (base n) kernelCs interruptGate memory) memory address = memory address := by
  induction List.finRange count generalizing memory with
  | nil => rfl
  | cons n rest ih =>
    rw [List.foldl_cons, ih]
    exact storeGate_elsewhere _ _ _ fun i less => table _ (by omega)

theorem idtInstall_elsewhere (memory : Memory) (pointer : ∀ j < 6, address ≠ cell place.idtp j) :
    (idtInstall place memory).1 address = memory address := by
  have cleared : (memset place.idt 0 (8 * 256) (storeIdtr place.idtp place.idt memory)).2 address =
      storeIdtr place.idtp place.idt memory address := by
    refine memset_elsewhere 0 fun i inside => ?_
    rw [idt_size] at inside
    exact table i inside
  rw [idtInstall_eq]
  dsimp only
  rw [cleared, storeIdtr_elsewhere _ _ _ pointer]

theorem isrInstall_elsewhere (memory : Memory) : isrInstall build place memory address = memory address :=
  idtSetGates_elsewhere place table (fun n => BitVec.ofNat 8 n) (fun n => build.address (.isr n)) memory

theorem irqInstall_elsewhere (memory : Memory) : irqInstall build place memory address = memory address :=
  idtSetGates_elsewhere place table (fun n => BitVec.ofNat 8 (32 + n)) (fun n => build.address (.irq n)) memory

theorem interruptsInitialize_elsewhere (memory : Memory) (pointer : ∀ j < 6, address ≠ cell place.idtp j) :
    (interruptsInitialize build place memory).1 address = memory address := by
  rw [interruptsInitialize]
  simp only [irqInstall_elsewhere build place table, isrInstall_elsewhere build place table,
    idtInstall_elsewhere place table memory pointer]

end Elsewhere

/-- The processor finds in memory the gates of the model on every vector, none of them above the
lines, whatever memory held before. It goes on to find what is set, as long as no other store hits
the table, and nothing but the variables of idt.c is written. -/
theorem idt_in_memory (build : Build) (place : Place) (memory : Memory) (before : System) :
    (∀ writes : List TableWrite, (∀ w ∈ writes, w.Misses place.idt) → ∀ vector,
      ((interruptsInitialize build place memory).2.table
          (writes.foldl (TableWrite.apply place.idt) (interruptsInitialize build place memory).1)).gate vector =
        Idt.gate
          { (Interrupts.interruptsInitialize build before).idt with
            entries := writes.foldl TableWrite.entries
              (Interrupts.interruptsInitialize build before).idt.entries } vector) ∧
    (∀ vector : Byte, 48 ≤ vector.toNat →
      ((interruptsInitialize build place memory).2.table (interruptsInitialize build place memory).1).gate vector =
        none) ∧
    ∀ address, (∀ i < 2048, address ≠ cell place.idt i) → (∀ j < 6, address ≠ cell place.idtp j) →
      (interruptsInitialize build place memory).1 address = memory address := by
  have installed := interruptsInitialize_inMemory build place memory before
  rw [initialized_idtr]
  refine ⟨fun writes misses vector => (installed.writes misses).gate vector, fun vector unset => ?_,
    fun address table pointer => interruptsInitialize_elsewhere build place table memory pointer⟩
  rw [installed.gate, unset_gate build before unset]

theorem plainPlace_apart : ∀ i < 2048, ∀ j < 6, cell 0x10000 i ≠ cell 0x20000 j := by
  intro i inside j less
  unfold cell
  bv_omega

def plainPlace : Place := ⟨0x10000, 0x20000, plainPlace_apart⟩

/-- In a memory full of ones too there is no gate above the lines. -/
theorem idt_in_memory_ones :
    ((interruptsInitialize Interrupts.someBuild plainPlace fun _ => 0xFF).2.table
      (interruptsInitialize Interrupts.someBuild plainPlace fun _ => 0xFF).1).gate 0x80 = none := by
  have found := idt_in_memory Interrupts.someBuild plainPlace (fun _ => 0xFF)
    (Interrupts.loaded ⟨fun _ => ⟨0, 0, 0, 0, 0⟩, 0⟩ Interrupts.somePics)
  exact found.2.1 0x80 (by decide)

end SzOS.Kernel.IdtBytes
