import SzOS.Semantics.Blocks
import SzOS.Semantics.Run
import SzOS.Semantics.Words

/-! The bump allocator of kernel-c (kernel/heap.c).

`kmalloc` rounds the size up and adds it to the cursor modulo 2^32 before it
compares the sum with the end of the heap. The blocks it hands out are as
promised exactly as long as neither sum wraps.
-/

set_option autoImplicit false

namespace SzOS.KernelC.Heap
open Semantics

def heapStart : BitVec 32 := 0x100000
def heapSize : BitVec 32 := 0x400000

structure HeapState where
  heapCurrent : BitVec 32
  heapEnd : BitVec 32

def heapInit (heap : HeapState) : HeapState :=
  { heap with heapCurrent := heapStart, heapEnd := heapStart + heapSize }

/-- `none` is the endless loop of a request past the end. -/
def kmalloc (heap : HeapState) (size : BitVec 32) : Option (BitVec 32 × HeapState) :=
  let size := (size + 3) &&& ~~~3#32
  if heap.heapCurrent + size > heap.heapEnd then none
  else
    let ptr := heap.heapCurrent
    some (ptr, { heap with heapCurrent := heap.heapCurrent + size })

def kfree (heap : HeapState) (_ptr : BitVec 32) : HeapState := heap

/-! ## Calls and what they promise -/

inductive Call where
  | kmalloc (size : BitVec 32)
  | kfree (ptr : BitVec 32)

/-- The heap and, newest first, the blocks its callers were given. -/
structure Session where
  heap : HeapState
  issued : List Block

def call (session : Session) : Call → Option Session
  | .kmalloc size =>
    (kmalloc session.heap size).map fun (ptr, heap) =>
      { heap, issued := ⟨ptr.toNat, size.toNat⟩ :: session.issued }
  | .kfree ptr => some { session with heap := kfree session.heap ptr }

def start (before : HeapState) : Session := ⟨heapInit before, []⟩

/-- What is left of the heap holds the request. -/
def Fits (heap : HeapState) (size : BitVec 32) : Prop :=
  heap.heapCurrent.toNat + size.toNat ≤ 0x500000

def Promise (session : Session) : Call → Prop
  | .kmalloc size =>
    (∀ ptr heap, kmalloc session.heap size = some (ptr, heap) →
      ptr.toNat % 4 = 0 ∧ Block.Inside 0x100000 0x500000 ⟨ptr.toNat, size.toNat⟩ ∧
        ∀ other ∈ session.issued, Block.Apart ⟨ptr.toNat, size.toNat⟩ other) ∧
    (¬ Fits session.heap size → kmalloc session.heap size = none)
  | .kfree _ => True

/-- Rounding the size and adding it to the cursor stay below 2^32. -/
def InRange (session : Session) : Call → Prop
  | .kmalloc size => session.heap.heapCurrent.toNat + size.toNat + 3 < 2 ^ 32
  | .kfree _ => True

/-! ## The arithmetic of one request -/

/-- The size rounded up, modulo 2^32. -/
def rounded (size : BitVec 32) : Nat := (size.toNat + 3) % 2 ^ 32 / 4 * 4

theorem toNat_rounded (size : BitVec 32) : ((size + 3) &&& ~~~3#32).toNat = rounded size := by
  rw [toNat_mask, BitVec.toNat_add]
  rfl

/-- The invariant of the calls whose sums stay in range. -/
structure Sound (session : Session) : Prop where
  ending : session.heap.heapEnd = 0x500000
  aligned : session.heap.heapCurrent.toNat % 4 = 0
  low : 0x100000 ≤ session.heap.heapCurrent.toNat
  high : session.heap.heapCurrent.toNat ≤ 0x500000
  packed : Block.Packed 0x100000 session.heap.heapCurrent.toNat session.issued

theorem start_sound (before : HeapState) : Sound (start before) where
  ending := rfl
  aligned := show heapStart.toNat % 4 = 0 by decide
  low := Nat.le_refl 0x100000
  high := show 0x100000 ≤ 0x500000 by decide
  packed := Block.Packed.nil

variable {session : Session} {size : BitVec 32}

/-- The sum that is compared with the end of the heap. -/
def advanced (session : Session) (size : BitVec 32) : Nat :=
  (session.heap.heapCurrent.toNat + rounded size) % 2 ^ 32

theorem toNat_advanced (session : Session) (size : BitVec 32) :
    (session.heap.heapCurrent + ((size + 3) &&& ~~~3#32)).toNat = advanced session size := by
  rw [BitVec.toNat_add, toNat_rounded]
  rfl

theorem over_iff (sound : Sound session) :
    session.heap.heapCurrent + ((size + 3) &&& ~~~3#32) > session.heap.heapEnd ↔
      0x500000 < advanced session size := by
  rw [sound.ending, gt_iff_lt, BitVec.lt_def, toNat_advanced]
  rfl

theorem kmalloc_none (sound : Sound session) (full : 0x500000 < advanced session size) :
    kmalloc session.heap size = none :=
  if_pos ((over_iff sound).mpr full)

theorem kmalloc_some (sound : Sound session) (under : ¬ 0x500000 < advanced session size) :
    ∃ heap, kmalloc session.heap size = some (session.heap.heapCurrent, heap) ∧
      heap.heapEnd = 0x500000 ∧ heap.heapCurrent.toNat = advanced session size :=
  ⟨_, if_neg (under ∘ (over_iff sound).mp), sound.ending, toNat_advanced session size⟩

theorem advanced_inRange (sound : Sound session) (inRange : InRange session (.kmalloc size)) :
    session.heap.heapCurrent.toNat + size.toNat ≤ advanced session size ∧
      advanced session size % 4 = 0 ∧
      (0x500000 < advanced session size ↔ ¬ Fits session.heap size) := by
  have aligned := sound.aligned
  simp only [InRange, Fits, advanced, rounded] at *
  omega

/-- Once a sum wraps the request returns, and its block leaves the heap. -/
theorem advanced_wraps (sound : Sound session) (wraps : ¬ InRange session (.kmalloc size)) :
    ¬ 0x500000 < advanced session size ∧
      0x500000 < session.heap.heapCurrent.toNat + size.toNat := by
  have aligned := sound.aligned
  have high := sound.high
  have bound := size.isLt
  simp only [InRange, advanced, rounded] at *
  omega

/-! ## Every run of calls -/

theorem promise_iff (sound : Sound session) (input : Call) :
    Promise session input ↔ InRange session input := by
  cases input with
  | kfree ptr => exact Iff.rfl
  | kmalloc size =>
    constructor
    · intro promise
      by_contra wraps
      -- a wrapped sum passes the test, and the block ends past the heap
      obtain ⟨under, outside⟩ := advanced_wraps sound wraps
      obtain ⟨heap, returned, _⟩ := kmalloc_some sound under
      have inside := (promise.1 _ _ returned).2.1.2
      exact absurd inside (Nat.not_le_of_lt outside)
    · intro inRange
      obtain ⟨_, _, full⟩ := advanced_inRange sound inRange
      refine ⟨?_, fun notFits => kmalloc_none sound (full.mpr notFits)⟩
      intro ptr heap returned
      by_cases past : 0x500000 < advanced session size
      · rw [kmalloc_none sound past] at returned
        cases returned
      · obtain ⟨_, served, _⟩ := kmalloc_some sound past
        rw [served] at returned
        cases returned
        have fits : Fits session.heap size := Classical.not_not.mp (past ∘ full.mpr)
        exact ⟨sound.aligned, ⟨sound.low, fits⟩, sound.packed.fresh_apart (Nat.le_refl _)⟩

theorem call_sound (sound : Sound session) {input : Call} (inRange : InRange session input)
    {next : Session} (called : call session input = some next) : Sound next := by
  cases input with
  | kfree ptr =>
    cases called
    exact sound
  | kmalloc size =>
    obtain ⟨moved, aligned, _⟩ := advanced_inRange sound inRange
    by_cases past : 0x500000 < advanced session size
    · rw [call, kmalloc_none sound past] at called
      cases called
    -- the new block starts at the cursor, above every older one
    · obtain ⟨heap, served, ending, current⟩ := kmalloc_some sound past
      rw [call, served] at called
      cases called
      rw [← current] at moved aligned past
      exact ⟨ending, aligned, Nat.le_trans sound.low (Nat.le_trans (Nat.le_add_right _ _) moved),
        Nat.le_of_not_lt past, sound.packed.issue sound.low (Nat.le_refl _) moved⟩

/-- In every run from `heap_init` all calls keep the promise exactly when none wraps. -/
theorem kmalloc_promise_iff (before : HeapState) (calls : List Call) :
    Along call Promise (start before) calls ↔ Along call InRange (start before) calls := by
  apply Along.congr Sound
  · intro session input sound
    exact promise_iff sound input
  · intro session input next sound inRange called
    exact call_sound sound inRange called
  · exact start_sound before

/-- Blocks of a run in which no call wraps are pairwise apart. -/
theorem issued_apart {before : HeapState} {calls : List Call} {final : Session}
    (inRange : Along call InRange (start before) calls)
    (ran : run call (start before) calls = some final) :
    final.issued.Pairwise Block.Apart := by
  have sound : Sound final :=
    Along.run_invariant Sound (fun _ _ _ sound inRange called => call_sound sound inRange called)
      (start_sound before) inRange ran
  exact sound.packed.apart

/-- The size wraps to 0: the call returns the start of the heap without taking any of it. -/
theorem kmalloc_max_breaks_promise :
    ¬ Along call Promise (start ⟨0, 0⟩) [.kmalloc 0xFFFFFFFF] := by
  intro promise
  have inside := (promise.1.1 0x100000 ⟨0x100000, 0x500000⟩ rfl).2.1.2
  exact absurd inside (by decide)

end SzOS.KernelC.Heap
