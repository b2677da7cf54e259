import SzOS.Semantics.RingBuffer
import SzOS.Semantics.Simulation

/-! The ring buffer of the PS/2 keyboard driver (arch/i386/drivers/keyboard.c).

The interrupt handler pushes, the caller reads; here every operation runs to
completion. The ring keeps one of its 256 slots free and is shown to be a queue
of 255 bytes that drops its oldest byte when it is full.
-/

set_option autoImplicit false

namespace SzOS.Kernel.Keyboard
open Semantics

def kbdBufferSize : Nat := 256

structure KeyboardBuffer where
  buffer : Nat → UInt8
  bufHead : Nat
  bufTail : Nat

def bufferPush (k : KeyboardBuffer) (c : UInt8) : KeyboardBuffer :=
  let next := (k.bufHead + 1) % kbdBufferSize
  let k := if next = k.bufTail then
      { k with bufTail := (k.bufTail + 1) % kbdBufferSize }
    else k
  { k with buffer := Function.update k.buffer k.bufHead c, bufHead := next }

/-- The result, the byte at `out_c` afterwards, and the buffer. -/
def keyboardRead (k : KeyboardBuffer) (outC : UInt8) : Bool × UInt8 × KeyboardBuffer :=
  if k.bufTail = k.bufHead then (false, outC, k)
  else
    let outC := k.buffer k.bufTail
    (true, outC, { k with bufTail := (k.bufTail + 1) % kbdBufferSize })

/-- The part of `keyboard_initialize` that concerns the buffer; its bytes are left as they are. -/
def keyboardInitialize (k : KeyboardBuffer) : KeyboardBuffer :=
  { k with bufHead := 0, bufTail := 0 }

/-! ## The ring -/

def KeyboardBuffer.ring (k : KeyboardBuffer) : RingBuffer UInt8 :=
  ⟨k.buffer, k.bufHead, k.bufTail⟩

/-- The bytes queued, oldest first. -/
def KeyboardBuffer.queued (k : KeyboardBuffer) : List UInt8 := k.ring.contents kbdBufferSize

theorem ring_push (k : KeyboardBuffer) (c : UInt8) :
    (bufferPush k c).ring = k.ring.push kbdBufferSize c := by
  unfold bufferPush KeyboardBuffer.ring RingBuffer.push RingBuffer.advance
  split <;> simp_all

theorem read_empty {k : KeyboardBuffer} (empty : k.ring.tail = k.ring.head) (outC : UInt8) :
    keyboardRead k outC = (false, outC, k) :=
  if_pos empty

theorem read_pop {k : KeyboardBuffer} {c : UInt8} {rest : RingBuffer UInt8}
    (popped : k.ring.pop kbdBufferSize = some (c, rest)) (outC : UInt8) :
    ∃ k', keyboardRead k outC = (true, c, k') ∧ k'.ring = rest := by
  unfold RingBuffer.pop at popped
  split at popped
  next => cases popped
  next inhabited =>
    cases popped
    exact ⟨_, if_neg inhabited, rfl⟩

/-! ## Refinement of the queue -/

inductive Operation where
  | push (c : UInt8)
  | read (outC : UInt8)

def bufferStep (k : KeyboardBuffer) : Operation → Option (Bool × UInt8) × KeyboardBuffer
  | .push c => (none, bufferPush k c)
  | .read outC =>
    let (result, outC, k) := keyboardRead k outC
    (some (result, outC), k)

/-- The drop-oldest queue of capacity 255 that the buffer is meant to be. -/
abbrev KeyQueue := BoundedQueue UInt8 255

def queueStep (queue : KeyQueue) : Operation → Option (Bool × UInt8) × KeyQueue
  | .push c => (none, queue.push c)
  | .read outC =>
    match queue.pop with
    | none => (some (false, outC), queue)
    | some (c, rest) => (some (true, c), rest)

/-- The window of the ring and the queue hold the same numbered bytes. -/
def Represents (k : KeyboardBuffer) (queue : KeyQueue) : Prop :=
  ∃ bytes first next, RingBuffer.Window kbdBufferSize bytes first next k.ring ∧
    Numbers bytes first next queue

theorem Represents.queued {k : KeyboardBuffer} {queue : KeyQueue} (represents : Represents k queue) :
    k.queued = queue.elements := by
  obtain ⟨bytes, first, next, window, numbers⟩ := represents
  rw [KeyboardBuffer.queued, window.contents, numbers.2]

theorem Represents.bounds {k : KeyboardBuffer} {queue : KeyQueue} (represents : Represents k queue) :
    k.bufHead < kbdBufferSize ∧ k.bufTail < kbdBufferSize := by
  obtain ⟨bytes, first, next, window, _⟩ := represents
  exact window.bounds

theorem represents_initial (before : KeyboardBuffer) :
    Represents (keyboardInitialize before) BoundedQueue.empty := by
  refine ⟨fun _ => 0, 0, 0, ⟨rfl, rfl, Nat.le_refl 0, by decide, ?_⟩, Nat.le_refl 0, rfl⟩
  intro j below
  omega

theorem Represents.push {k : KeyboardBuffer} {queue : KeyQueue} (represents : Represents k queue)
    (c : UInt8) : Represents (bufferPush k c) (queue.push c) := by
  obtain ⟨bytes, first, next, window, numbers⟩ := represents
  -- the byte pushed gets the next number, which no byte has yet
  let bytes' := Function.update bytes next c
  have agree : ∀ j, j < next → bytes' j = bytes j := by
    intro j below
    exact Function.update_of_ne (Nat.ne_of_lt below) c bytes
  have newest : bytes' next = c := Function.update_self next c bytes
  have pushed := (window.congr agree).push
  have numbered := (numbers.congr agree).push
  rw [newest] at pushed numbered
  exact ⟨bytes', _, _, ring_push k c ▸ pushed, numbered⟩

theorem Represents.read {k : KeyboardBuffer} {queue : KeyQueue} (represents : Represents k queue)
    (outC : UInt8) :
    (bufferStep k (.read outC)).1 = (queueStep queue (.read outC)).1 ∧
      Represents (bufferStep k (.read outC)).2 (queueStep queue (.read outC)).2 := by
  obtain ⟨bytes, first, next, window, numbers⟩ := represents
  -- the two sides find themselves empty together
  by_cases empty : first = next
  · subst next
    simp only [bufferStep, queueStep, read_empty (window.empty_iff.mpr rfl), numbers.pop_none]
    exact ⟨trivial, bytes, first, first, window, numbers⟩
  · have inhabited : first < next := by
      have := window.ordered
      omega
    obtain ⟨ring, popped, window'⟩ := window.pop inhabited
    obtain ⟨rest, taken, numbers'⟩ := numbers.pop inhabited
    obtain ⟨k', read, same⟩ := read_pop popped outC
    simp only [bufferStep, queueStep, read, taken]
    exact ⟨trivial, bytes, first + 1, next, same ▸ window', numbers'⟩

theorem buffer_simulates_queue : Simulates Represents bufferStep queueStep := by
  intro k queue operation represents
  cases operation with
  | push c => exact ⟨rfl, represents.push c⟩
  | read outC => exact represents.read outC

/-- After any operations the results are those of the queue, and so are the bytes kept. -/
theorem keyboard_buffer_refines_queue (before : KeyboardBuffer) (operations : List Operation) :
    let buffer := respond bufferStep (keyboardInitialize before) operations
    let queue := respond queueStep BoundedQueue.empty operations
    buffer.1 = queue.1 ∧ buffer.2.queued = queue.2.elements ∧
      buffer.2.bufHead < kbdBufferSize ∧ buffer.2.bufTail < kbdBufferSize := by
  obtain ⟨results, represents⟩ :=
    buffer_simulates_queue.respond (represents_initial before) operations
  exact ⟨results, represents.queued, represents.bounds⟩

end SzOS.Kernel.Keyboard
