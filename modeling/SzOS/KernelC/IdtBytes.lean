import SzOS.Hardware.GateBytes
import SzOS.KernelC.Interrupts

/-! The interrupt descriptor table of kernel-c in memory (cpu/idt.c).

Nothing clears the bytes of `idt`, so the entries that are never set are what was in memory when
the kernel was loaded.
-/

set_option autoImplicit false

namespace SzOS.KernelC.IdtBytes
open Hardware Hardware.I386

/-- Where the linker put the variables of idt.c. -/
structure Place where
  idt : Word
  idtReg : Word
  apart : ∀ i < 2048, ∀ j < 6, idt + BitVec.ofNat 32 i ≠ idtReg + BitVec.ofNat 32 j

variable (build : Build) (place : Place)

def setIdtGate (n : Nat) (handler : Word) (memory : Memory) : Memory :=
  storeGate place.idt n handler 0x08 0x8E memory

def setIdt (memory : Memory) : Memory × Idtr :=
  let memory := storeIdtr place.idtReg place.idt memory
  (memory, lidt memory place.idtReg)

def isrInstall (memory : Memory) : Memory × Idtr :=
  let memory := (List.finRange 32).foldl
    (fun memory (n : Fin 32) => setIdtGate place n (build.address (.isr n)) memory) memory
  let memory := (List.finRange 16).foldl
    (fun memory (n : Fin 16) => setIdtGate place (32 + n) (build.address (.irq n)) memory) memory
  setIdt place memory

def keyboardInit (memory : Memory) : Memory := setIdtGate place 33 (build.address .keyboardIsr) memory

/-- What `main` does to the table and to the processor's register before `sti`. -/
def setup (memory : Memory) : Memory × Idtr :=
  let installed := isrInstall build place memory
  (keyboardInit build place installed.1, installed.2)

/-! ## The gates -/

/-- The table as it lies in memory, under the register that `set_idt` loads. -/
def lyingAt (memory : Memory) : Idt := ⟨gatesAt memory place.idt, 8 * 256 - 1⟩

section Gates

variable {build place} {memory : Memory} {idt : Idt}

theorem setIdt_idtr (memory : Memory) : (setIdt place memory).2 = ⟨place.idt, 8 * 256 - 1⟩ :=
  lidt_storeIdtr place.idtReg place.idt memory

theorem setIdt_inMemory (held : InMemory memory ⟨place.idt, 8 * 256 - 1⟩ idt) :
    InMemory (setIdt place memory).1 ⟨place.idt, 8 * 256 - 1⟩ idt :=
  held.congr fun i inside => storeIdtr_elsewhere _ _ _ fun j less => place.apart i inside j less

theorem isrInstall_inMemory (memory : Memory) (devices : Devices) :
    InMemory (isrInstall build place memory).1 ⟨place.idt, 8 * 256 - 1⟩
      (KernelC.isrInstall build ⟨lyingAt place memory, devices⟩).idt := by
  have lying : InMemory memory ⟨place.idt, 8 * 256 - 1⟩ (lyingAt place memory) := ⟨rfl, fun _ _ => rfl⟩
  have isrs := lying.storeGates (List.finRange 32) (fun n => n.val) (fun n => by omega)
    (fun n => build.address (.isr n)) 0x08 0x8E
  have irqs := isrs.storeGates (List.finRange 16) (fun n => 32 + n.val) (fun n => by omega)
    (fun n => build.address (.irq n)) 0x08 0x8E
  exact setIdt_inMemory irqs

theorem setup_inMemory (memory : Memory) (devices : Devices) :
    InMemory (setup build place memory).1 ⟨place.idt, 8 * 256 - 1⟩
      (KernelC.setup build ⟨lyingAt place memory, devices⟩).idt := by
  have installed : InMemory (isrInstall build place memory).1 ⟨place.idt, 8 * 256 - 1⟩ _ :=
    isrInstall_inMemory memory devices
  exact installed.storeGate (by decide) (build.address .keyboardIsr) 0x08 0x8E

end Gates

theorem setup_idtr (memory : Memory) : (setup build place memory).2 = ⟨place.idt, 8 * 256 - 1⟩ := by
  rw [setup]
  dsimp only
  rw [isrInstall]
  exact setIdt_idtr _

theorem setup_entry_kept (before : System) {n : Nat} (unset : 48 ≤ n) :
    (KernelC.setup build before).idt.entries n = before.idt.entries n := by
  have lines : ∀ line ∈ List.finRange 16, 32 + line.val ≠ n := by
    intro line _
    omega
  have exceptions : ∀ k ∈ List.finRange 32, k.val ≠ n := by
    intro k _
    omega
  have installed : (KernelC.isrInstall build before).idt.entries n = before.idt.entries n :=
    (writeEntries_other (fun line : Fin 16 => 32 + line.val) (fun line => idtGate (build.address (.irq line)))
      lines _).trans
      (writeEntries_other (fun k : Fin 32 => k.val) (fun k => idtGate (build.address (.isr k))) exceptions _)
  have keyboard : n ≠ 33 := by omega
  exact (Function.update_of_ne keyboard _ _).trans installed

/-! ## Other memory -/

section Elsewhere

variable {address : Word} (table : ∀ i < 2048, address ≠ place.idt + BitVec.ofNat 32 i)
include table

theorem setIdtGate_elsewhere {n : Nat} (inside : n < 256) (handler : Word) (memory : Memory) :
    setIdtGate place n handler memory address = memory address :=
  storeGate_elsewhere _ _ _ fun i less => table _ (by omega)

theorem setIdtGates_elsewhere {count : Nat} (number : Fin count → Nat) (inside : ∀ n, number n < 256)
    (handler : Fin count → Word) (memory : Memory) :
    (List.finRange count).foldl (fun memory n => setIdtGate place (number n) (handler n) memory) memory address =
      memory address := by
  induction List.finRange count generalizing memory with
  | nil => rfl
  | cons n rest ih => rw [List.foldl_cons, ih, setIdtGate_elsewhere place table (inside n)]

theorem setup_elsewhere (memory : Memory)
    (register : ∀ j < 6, address ≠ place.idtReg + BitVec.ofNat 32 j) :
    (setup build place memory).1 address = memory address := by
  have loaded : ∀ memory, (setIdt place memory).1 address = memory address :=
    fun memory => storeIdtr_elsewhere _ _ _ register
  have installed : (isrInstall build place memory).1 address = memory address := by
    rw [isrInstall, loaded, setIdtGates_elsewhere place table _ (fun n => by omega),
      setIdtGates_elsewhere place table _ (fun n => by omega)]
  exact (setIdtGate_elsewhere place table (by decide) _ _).trans installed

end Elsewhere

/-- The processor finds in memory the gates of the model, also after further gates and other
stores. On a vector above the lines it takes whatever memory held for a gate. -/
theorem gates_left_over (build : Build) (place : Place) (memory : Memory) (devices : Devices) :
    (∀ writes : List TableWrite, (∀ w ∈ writes, w.Misses place.idt) → ∀ vector,
      ((setup build place memory).2.table
          (writes.foldl (TableWrite.apply place.idt) (setup build place memory).1)).gate vector =
        Idt.gate
          { (KernelC.setup build ⟨lyingAt place memory, devices⟩).idt with
            entries := writes.foldl TableWrite.entries
              (KernelC.setup build ⟨lyingAt place memory, devices⟩).idt.entries } vector) ∧
    (∀ vector : Byte, 48 ≤ vector.toNat →
      ((setup build place memory).2.table (setup build place memory).1).gate vector =
        (lyingAt place memory).gate vector) ∧
    ∀ address, (∀ i < 2048, address ≠ place.idt + BitVec.ofNat 32 i) →
      (∀ j < 6, address ≠ place.idtReg + BitVec.ofNat 32 j) →
      (setup build place memory).1 address = memory address := by
  have installed : InMemory (setup build place memory).1 ⟨place.idt, 8 * 256 - 1⟩ _ :=
    setup_inMemory memory devices
  rw [setup_idtr]
  refine ⟨fun writes misses vector => (installed.writes misses).gate vector, fun vector unset => ?_,
    fun address table register => setup_elsewhere build place table memory register⟩
  rw [installed.gate]
  exact Idt.gate_congr (setup_entry_kept build _ unset) rfl

theorem plainPlace_apart : ∀ i < 2048, ∀ j < 6,
    (0x10000 : Word) + BitVec.ofNat 32 i ≠ 0x20000 + BitVec.ofNat 32 j := by
  intro i inside j less
  bv_omega

def plainPlace : Place := ⟨0x10000, 0x20000, plainPlace_apart⟩

/-- A memory full of ones has a gate on every vector. -/
theorem gates_left_over_ones :
    ((setup someBuild plainPlace fun _ => 0xFF).2.table (setup someBuild plainPlace fun _ => 0xFF).1).gate 0x80 =
      some ⟨0xFFFF, 0xFFFF, 0xFF, 0xFF, 0xFFFF⟩ := by
  have found := gates_left_over someBuild plainPlace (fun _ => 0xFF) beforeSetup.devices
  exact (found.2.1 0x80 (by decide)).trans rfl

end SzOS.KernelC.IdtBytes
