import SzOS.Kernel.KeyboardBuffer

/-! `keyboard_read` with the keyboard interrupt arriving between its accesses.

The reader loads `buf_tail`, `buf_head`, `buf_tail` again, the byte, and
`buf_tail` a third time before it stores it; the interrupt may push any bytes in
each gap. Which schedules have a sequential explanation depends on the number of
bytes queued and of pushes in each gap.
-/

set_option autoImplicit false

namespace SzOS.Kernel.Keyboard
open Semantics

def KeyboardBuffer.pushAll (k : KeyboardBuffer) (bytes : List UInt8) : KeyboardBuffer :=
  bytes.foldl bufferPush k

/-- The bytes pushed in each gap of one `keyboard_read`, named by the access that follows. -/
structure Interrupts where
  beforeHead : List UInt8
  beforeIndex : List UInt8
  beforeByte : List UInt8
  beforeAdvance : List UInt8
  beforeStore : List UInt8

def Interrupts.pushes (i : Interrupts) : List UInt8 :=
  i.beforeHead ++ (i.beforeIndex ++ (i.beforeByte ++ (i.beforeAdvance ++ i.beforeStore)))

/-- `keyboard_read` access by access. When it returns false it makes no access
after the load of `buf_head`, and the other bytes arrive after it. -/
def keyboardReadInterrupted (k : KeyboardBuffer) (outC : UInt8) (i : Interrupts) :
    Bool × UInt8 × KeyboardBuffer :=
  let tested := k.bufTail
  let k := k.pushAll i.beforeHead
  if tested = k.bufHead then
    (false, outC, k.pushAll (i.beforeIndex ++ (i.beforeByte ++ (i.beforeAdvance ++ i.beforeStore))))
  else
    let k := k.pushAll i.beforeIndex
    -- the tail again, for the index
    let index := k.bufTail
    let k := k.pushAll i.beforeByte
    let outC := k.buffer index
    let k := k.pushAll i.beforeAdvance
    -- and a third time, to advance it; the store may be late
    let advanced := (k.bufTail + 1) % kbdBufferSize
    let k := k.pushAll i.beforeStore
    (true, outC, { k with bufTail := advanced })

theorem interrupted_nothing (k : KeyboardBuffer) (outC : UInt8) :
    keyboardReadInterrupted k outC ⟨[], [], [], [], []⟩ = keyboardRead k outC :=
  rfl

/-- Some sequential order of the read among the pushes has the same outcome. -/
def Explained (k : KeyboardBuffer) (outC : UInt8) (i : Interrupts) : Prop :=
  ∃ before after, before ++ after = i.pushes ∧
    let interrupted := keyboardReadInterrupted k outC i
    let sequential := keyboardRead (k.pushAll before) outC
    interrupted.1 = sequential.1 ∧ interrupted.2.1 = sequential.2.1 ∧
      interrupted.2.2.queued = (sequential.2.2.pushAll after).queued

inductive Reachable : KeyboardBuffer → Prop where
  | start (before : KeyboardBuffer) : Reachable (keyboardInitialize before)
  | push {k : KeyboardBuffer} (reached : Reachable k) (c : UInt8) : Reachable (bufferPush k c)
  | read {k : KeyboardBuffer} (reached : Reachable k) (outC : UInt8) (i : Interrupts) :
      Reachable (keyboardReadInterrupted k outC i).2.2

/-! ## Numbered bytes -/

def KeyWindow (bytes : Nat → UInt8) (first next : Nat) (k : KeyboardBuffer) : Prop :=
  RingBuffer.Window kbdBufferSize bytes first next k.ring

variable {bytes : Nat → UInt8} {first next : Nat} {k : KeyboardBuffer}

theorem ring_pushAll (k : KeyboardBuffer) (inputs : List UInt8) :
    (k.pushAll inputs).ring = k.ring.pushAll kbdBufferSize inputs := by
  induction inputs generalizing k with
  | nil => rfl
  | cons c rest ih =>
    have pushed := ih (bufferPush k c)
    rw [ring_push] at pushed
    exact pushed

theorem pushAll_append (k : KeyboardBuffer) (first second : List UInt8) :
    k.pushAll (first ++ second) = (k.pushAll first).pushAll second :=
  List.foldl_append

theorem KeyWindow.pushAll (window : KeyWindow bytes first next k) {inputs : List UInt8}
    (arrive : Arrives bytes next inputs) :
    KeyWindow bytes (oldest kbdBufferSize first (next + inputs.length)) (next + inputs.length)
      (k.pushAll inputs) := by
  unfold KeyWindow
  rw [ring_pushAll]
  exact RingBuffer.Window.pushAll window inputs arrive

theorem KeyWindow.queued (window : KeyWindow bytes first next k) :
    k.queued = stretch bytes first next :=
  RingBuffer.Window.contents window

theorem KeyWindow.initial (bytes : Nat → UInt8) (before : KeyboardBuffer) :
    KeyWindow bytes 0 0 (keyboardInitialize before) where
  head := rfl
  tail := rfl
  ordered := Nat.le_refl 0
  room := Nat.zero_lt_succ _
  held := fun _ below => absurd below (Nat.not_lt_zero _)

/-- The reader's copy of the index, advanced and stored after `start` was read. -/
theorem KeyWindow.store (window : KeyWindow bytes first next k) {start : Nat}
    (ordered : start + 1 ≤ next) :
    KeyWindow bytes (start + 1 + (next - (start + 1)) / kbdBufferSize * kbdBufferSize) next
      { k with bufTail := (start % kbdBufferSize + 1) % kbdBufferSize } := by
  rw [Nat.mod_add_mod]
  exact RingBuffer.Window.reseat window ordered

theorem KeyWindow.read (window : KeyWindow bytes first next k) (inhabited : first < next)
    (outC : UInt8) :
    ∃ k', keyboardRead k outC = (true, bytes first, k') ∧ KeyWindow bytes (first + 1) next k' := by
  obtain ⟨ring, popped, window'⟩ := RingBuffer.Window.pop window inhabited
  obtain ⟨k', read, same⟩ := read_pop popped outC
  refine ⟨k', read, ?_⟩
  unfold KeyWindow
  rw [same]
  exact window'

/-! ## The outcome of a schedule in terms of the counts -/

/-- How many bytes were pushed in each gap. -/
structure PushCounts where
  beforeHead : Nat
  beforeIndex : Nat
  beforeByte : Nat
  beforeAdvance : Nat
  beforeStore : Nat

def Interrupts.counts (i : Interrupts) : PushCounts :=
  ⟨i.beforeHead.length, i.beforeIndex.length, i.beforeByte.length, i.beforeAdvance.length,
    i.beforeStore.length⟩

namespace PushCounts

/-- The bytes that have arrived by each access, from the oldest one queued on. -/
def byHead (counts : PushCounts) (queued : Nat) : Nat := queued + counts.beforeHead
def byIndex (counts : PushCounts) (queued : Nat) : Nat := counts.byHead queued + counts.beforeIndex
def byByte (counts : PushCounts) (queued : Nat) : Nat := counts.byIndex queued + counts.beforeByte
def byAdvance (counts : PushCounts) (queued : Nat) : Nat :=
  counts.byByte queued + counts.beforeAdvance
def byStore (counts : PushCounts) (queued : Nat) : Nat :=
  counts.byAdvance queued + counts.beforeStore

end PushCounts

/-- How many bytes a full buffer has dropped once `arrived` bytes were there and none was read. -/
def dropped (arrived : Nat) : Nat := arrived - 255

/-- The newest byte that fell on the slot of the oldest one kept at the load of the index. -/
def fetched (queued : Nat) (counts : PushCounts) : Nat :=
  let index := dropped (counts.byIndex queued)
  index + (counts.byByte queued - 1 - index) / kbdBufferSize * kbdBufferSize

/-- The test of the indices is not fooled, and either nothing is dropped between
the last load of the tail and its store and the byte fetched is the oldest one,
or one byte is dropped there and the byte fetched is one already dropped; all
this up to full turns of the ring. -/
def SequentialCounts (queued : Nat) (counts : PushCounts) : Prop :=
  if counts.byHead queued % kbdBufferSize = 0 then queued = 0
  else
    (dropped (counts.byStore queued) % kbdBufferSize =
        dropped (counts.byAdvance queued) % kbdBufferSize ∧
      fetched queued counts = dropped (counts.byStore queued)) ∨
    (dropped (counts.byStore queued) % kbdBufferSize =
        (dropped (counts.byAdvance queued) + 1) % kbdBufferSize ∧
      fetched queued counts < dropped (counts.byStore queued))

instance (queued : Nat) (counts : PushCounts) : Decidable (SequentialCounts queued counts) := by
  unfold SequentialCounts
  infer_instance

/-- Where the stored tail leaves the reader, counted like `fetched`. -/
def remaining (queued : Nat) (counts : PushCounts) : Nat :=
  let after := dropped (counts.byAdvance queued) + 1
  after + (counts.byStore queued - after) / kbdBufferSize * kbdBufferSize

/-- The buffer once `arrived` bytes have come from number `first` on and none was read. -/
def Arrived (bytes : Nat → UInt8) (first arrived : Nat) (k : KeyboardBuffer) : Prop :=
  KeyWindow bytes (first + dropped arrived) (first + arrived) k

theorem dropped_room {arrived : Nat} (room : arrived ≤ 255) : dropped arrived = 0 :=
  Nat.sub_eq_zero_of_le room

theorem Arrived.start {queued : Nat} (room : queued ≤ 255)
    (window : KeyWindow bytes first (first + queued) k) : Arrived bytes first queued k := by
  unfold Arrived
  rw [dropped_room room]
  exact window

theorem Arrived.pushAll {arrived : Nat} (window : Arrived bytes first arrived k)
    {inputs : List UInt8} (arrive : Arrives bytes (first + arrived) inputs) :
    Arrived bytes first (arrived + inputs.length) (k.pushAll inputs) := by
  have pushed := KeyWindow.pushAll window arrive
  have start : oldest kbdBufferSize (first + dropped arrived) (first + arrived + inputs.length) =
      first + dropped (arrived + inputs.length) := by
    unfold oldest dropped kbdBufferSize
    omega
  rw [start, Nat.add_assoc] at pushed
  exact pushed

theorem Arrived.tail {arrived : Nat} (window : Arrived bytes first arrived k) :
    k.bufTail = (first + dropped arrived) % kbdBufferSize :=
  RingBuffer.Window.tail window

theorem Arrived.head {arrived : Nat} (window : Arrived bytes first arrived k) :
    k.bufHead = (first + arrived) % kbdBufferSize :=
  RingBuffer.Window.head window

section Schedule

variable {queued : Nat} {i : Interrupts}

/-- The arrivals split at the accesses. -/
theorem arrives_gaps (arrive : Arrives bytes (first + queued) i.pushes) :
    Arrives bytes (first + queued) i.beforeHead ∧
      Arrives bytes (first + i.counts.byHead queued) i.beforeIndex ∧
      Arrives bytes (first + i.counts.byIndex queued) i.beforeByte ∧
      Arrives bytes (first + i.counts.byByte queued) i.beforeAdvance ∧
      Arrives bytes (first + i.counts.byAdvance queued) i.beforeStore := by
  simp only [Interrupts.counts, PushCounts.byAdvance, PushCounts.byByte, PushCounts.byIndex,
    PushCounts.byHead, ← Nat.add_assoc]
  exact ⟨arrive.left, arrive.right.left, arrive.right.right.left, arrive.right.right.right.left,
    arrive.right.right.right.right⟩

theorem length_pushes (i : Interrupts) (queued : Nat) :
    queued + i.pushes.length = i.counts.byStore queued := by
  simp only [Interrupts.pushes, Interrupts.counts, PushCounts.byStore, PushCounts.byAdvance,
    PushCounts.byByte, PushCounts.byIndex, PushCounts.byHead, List.length_append]
  omega

theorem tested_iff (first arrived : Nat) :
    first % kbdBufferSize = (first + arrived) % kbdBufferSize ↔ arrived % kbdBufferSize = 0 := by
  unfold kbdBufferSize
  omega

theorem turns_from (size first start arrived : Nat) :
    first + start + (first + arrived - (first + start)) / size * size =
      first + (start + (arrived - start) / size * size) := by
  rw [Nat.add_sub_add_left, Nat.add_assoc]

theorem inhabited_of_differ {arrived : Nat} (differ : arrived % kbdBufferSize ≠ 0) : 0 < arrived := by
  apply Nat.pos_of_ne_zero
  intro nothing
  exact differ (by rw [nothing, Nat.zero_mod])

theorem counts_ordered {queued : Nat} (counts : PushCounts) (inhabited : 0 < counts.byHead queued) :
    dropped (counts.byIndex queued) < counts.byByte queued ∧
      dropped (counts.byAdvance queued) < counts.byStore queued := by
  have indexed : dropped (counts.byIndex queued) < counts.byIndex queued := by
    unfold dropped PushCounts.byIndex
    omega
  have advanced : dropped (counts.byAdvance queued) < counts.byAdvance queued := by
    unfold dropped PushCounts.byAdvance PushCounts.byByte PushCounts.byIndex
    omega
  exact ⟨Nat.lt_add_right _ indexed, Nat.lt_add_right _ advanced⟩

theorem interrupted_full_turn (window : Arrived bytes first queued k) (room : queued ≤ 255)
    (arrive : Arrives bytes (first + queued) i.pushes)
    (turn : i.counts.byHead queued % kbdBufferSize = 0) (outC : UInt8) :
    keyboardReadInterrupted k outC i = (false, outC, k.pushAll i.pushes) := by
  have atHead : Arrived bytes first (i.counts.byHead queued) _ :=
    window.pushAll (arrives_gaps arrive).1
  have tested : k.bufTail = (k.pushAll i.beforeHead).bufHead := by
    rw [window.tail, dropped_room room, Nat.add_zero, atHead.head]
    exact (tested_iff first _).mpr turn
  unfold keyboardReadInterrupted
  simp only
  rw [if_pos tested, ← pushAll_append]
  rfl

theorem interrupted_spec (window : Arrived bytes first queued k) (room : queued ≤ 255)
    (arrive : Arrives bytes (first + queued) i.pushes)
    (differ : i.counts.byHead queued % kbdBufferSize ≠ 0) (outC : UInt8) :
    ∃ k', keyboardReadInterrupted k outC i = (true, bytes (first + fetched queued i.counts), k') ∧
      KeyWindow bytes (first + remaining queued i.counts) (first + i.counts.byStore queued) k' := by
  obtain ⟨head, index, byte, advance, store⟩ := arrives_gaps arrive
  -- the buffer at each access, in terms of the bytes that have arrived
  have atHead : Arrived bytes first (i.counts.byHead queued) _ := window.pushAll head
  have atIndex : Arrived bytes first (i.counts.byIndex queued) _ := atHead.pushAll index
  have atByte : Arrived bytes first (i.counts.byByte queued) _ := atIndex.pushAll byte
  have atAdvance : Arrived bytes first (i.counts.byAdvance queued) _ := atByte.pushAll advance
  have atStore : Arrived bytes first (i.counts.byStore queued) _ := atAdvance.pushAll store
  have tested : k.bufTail ≠ (k.pushAll i.beforeHead).bufHead := by
    rw [window.tail, atHead.head, dropped_room room, Nat.add_zero]
    exact fun same => differ ((tested_iff first _).mp same)
  have inhabited := inhabited_of_differ differ
  obtain ⟨indexed, started⟩ := counts_ordered i.counts inhabited
  have fetch := RingBuffer.Window.slot atByte (Nat.add_lt_add_left indexed first)
  have left := KeyWindow.store atStore (Nat.add_lt_add_left started first)
  rw [Nat.add_sub_assoc (Nat.zero_lt_of_lt indexed), turns_from] at fetch
  rw [Nat.add_assoc first, turns_from, ← atAdvance.tail] at left
  refine ⟨_, ?_, left⟩
  unfold keyboardReadInterrupted
  simp only
  rw [if_neg tested, atIndex.tail]
  exact congrArg (fun byte => (true, byte, _)) fetch

theorem sequential_spec (window : Arrived bytes first queued k)
    (arrive : Arrives bytes (first + queued) i.pushes) {before after : List UInt8}
    (split : before ++ after = i.pushes) (inhabited : 0 < queued + before.length) (outC : UInt8) :
    ∃ k', keyboardRead (k.pushAll before) outC =
        (true, bytes (first + dropped (queued + before.length)), k') ∧
      KeyWindow bytes
        (first + max (dropped (queued + before.length) + 1) (dropped (i.counts.byStore queued)))
        (first + i.counts.byStore queued) (k'.pushAll after) := by
  rw [← split] at arrive
  have atRead := window.pushAll arrive.left
  have nonempty : first + dropped (queued + before.length) < first + (queued + before.length) := by
    unfold dropped
    omega
  obtain ⟨k', read, afterRead⟩ := KeyWindow.read atRead nonempty outC
  have later : Arrives bytes (first + (queued + before.length)) after := by
    rw [← Nat.add_assoc]
    exact arrive.right
  have final := afterRead.pushAll later
  have total : queued + before.length + after.length = i.counts.byStore queued := by
    rw [Nat.add_assoc, ← List.length_append, split, length_pushes]
  have start : oldest kbdBufferSize (first + dropped (queued + before.length) + 1)
      (first + (queued + before.length) + after.length) =
        first + max (dropped (queued + before.length) + 1) (dropped (i.counts.byStore queued)) := by
    rw [← total]
    unfold oldest dropped kbdBufferSize
    omega
  rw [start, Nat.add_assoc, total] at final
  exact ⟨k', read, final⟩

theorem remaining_eq_iff {counts : PushCounts} (started : dropped (counts.byAdvance queued) <
    counts.byStore queued) {start : Nat} (ordered : start ≤ counts.byStore queued)
    (room : counts.byStore queued < start + kbdBufferSize) :
    remaining queued counts = start ↔
      start % kbdBufferSize = (dropped (counts.byAdvance queued) + 1) % kbdBufferSize := by
  simp only [remaining, kbdBufferSize] at *
  omega

/-- The place of the read: where the byte fetched was the oldest one. -/
theorem position_of_counts {counts : PushCounts} (room : queued ≤ 255)
    (differ : counts.byHead queued % kbdBufferSize ≠ 0) (sequential : SequentialCounts queued counts) :
    ∃ position, queued + position ≤ counts.byStore queued ∧ 0 < queued + position ∧
      dropped (queued + position) = fetched queued counts ∧
      remaining queued counts =
        max (dropped (queued + position) + 1) (dropped (counts.byStore queued)) := by
  have inhabited := inhabited_of_differ differ
  obtain ⟨_, started⟩ := counts_ordered counts inhabited
  have total : counts.byHead queued ≤ counts.byStore queued := by
    unfold PushCounts.byStore PushCounts.byAdvance PushCounts.byByte PushCounts.byIndex
    omega
  have initial : queued ≤ counts.byHead queued := Nat.le_add_right _ _
  have last : dropped (counts.byStore queued) < counts.byStore queued ∧
      counts.byStore queued ≤ dropped (counts.byStore queued) + 255 := by
    unfold dropped
    omega
  unfold SequentialCounts at sequential
  rw [if_neg differ] at sequential
  rcases sequential with ⟨sameTurn, newest⟩ | ⟨oneMore, early⟩
  · -- nothing dropped while the tail is advanced: the read comes after all pushes
    refine ⟨counts.byStore queued - queued, by omega, by omega, ?_, ?_⟩
    · rw [Nat.add_sub_of_le (by omega), newest]
    · rw [Nat.add_sub_of_le (by omega), Nat.max_eq_left (Nat.le_succ _),
        remaining_eq_iff started last.1 (by unfold kbdBufferSize; omega)]
      exact Nat.ModEq.add_right 1 sameTurn
  · -- one byte dropped there: the read comes just before the byte fetched is dropped
    have place : dropped (queued + (fetched queued counts + 255 - queued)) =
        fetched queued counts := by
      unfold dropped
      omega
    refine ⟨fetched queued counts + 255 - queued, ?_, by omega, place, ?_⟩
    · unfold dropped at early
      omega
    · rw [place, Nat.max_eq_right early,
        remaining_eq_iff started last.1.le (by unfold kbdBufferSize; omega)]
      exact oneMore

/-- A schedule that meets the condition is explained. -/
theorem explained_of_counts (window : Arrived bytes first queued k) (room : queued ≤ 255)
    (arrive : Arrives bytes (first + queued) i.pushes)
    (sequential : SequentialCounts queued i.counts) (outC : UInt8) : Explained k outC i := by
  by_cases turn : i.counts.byHead queued % kbdBufferSize = 0
  · have empty : queued = 0 := by
      unfold SequentialCounts at sequential
      rwa [if_pos turn] at sequential
    subst empty
    have same : k.ring.tail = k.ring.head := window.tail.trans window.head.symm
    refine ⟨[], i.pushes, rfl, ?_⟩
    rw [interrupted_full_turn window room arrive turn]
    have read : keyboardRead (k.pushAll []) outC = (false, outC, k) := read_empty same outC
    rw [read]
    exact ⟨rfl, rfl, rfl⟩
  · obtain ⟨position, within, inhabited, place, left⟩ := position_of_counts room turn sequential
    have split := List.take_append_drop position i.pushes
    have length : (i.pushes.take position).length = position := by
      rw [← length_pushes] at within
      exact List.length_take_of_le (Nat.le_of_add_le_add_left within)
    obtain ⟨k', interrupted, leaves⟩ := interrupted_spec window room arrive turn outC
    obtain ⟨k'', read, after⟩ :=
      sequential_spec window arrive split (by rwa [length]) outC
    rw [length] at read after
    refine ⟨_, _, split, ?_⟩
    rw [interrupted, read, place]
    refine ⟨rfl, rfl, ?_⟩
    rw [leaves.queued, after.queued, left]

theorem counts_of_position {counts : PushCounts} {position : Nat}
    (differ : counts.byHead queued % kbdBufferSize ≠ 0)
    (within : queued + position ≤ counts.byStore queued)
    (place : dropped (queued + position) = fetched queued counts)
    (left : remaining queued counts =
      max (dropped (queued + position) + 1) (dropped (counts.byStore queued))) :
    SequentialCounts queued counts := by
  have turned : remaining queued counts % kbdBufferSize =
      (dropped (counts.byAdvance queued) + 1) % kbdBufferSize := Nat.add_mul_mod_self_right _ _ _
  -- a sequential read takes a byte not newer than the oldest one left
  have early : fetched queued counts ≤ dropped (counts.byStore queued) := by
    rw [← place]
    exact Nat.sub_le_sub_right within 255
  rw [left, place] at turned
  unfold SequentialCounts
  rw [if_neg differ]
  rcases Nat.eq_or_lt_of_le early with newest | older
  · rw [newest, Nat.max_eq_left (Nat.le_succ _)] at turned
    exact Or.inl ⟨Nat.ModEq.add_right_cancel' 1 turned, newest⟩
  · rw [Nat.max_eq_right older] at turned
    exact Or.inr ⟨turned, older⟩

/-- When the byte fetched differs from all others, no other schedule is explained. -/
theorem counts_of_explained (window : Arrived bytes first queued k) (room : queued ≤ 255)
    (arrive : Arrives bytes (first + queued) i.pushes)
    (marked : ∀ j, bytes j = bytes (first + fetched queued i.counts) →
      j = first + fetched queued i.counts)
    {outC : UInt8} (explained : Explained k outC i) : SequentialCounts queued i.counts := by
  obtain ⟨before, after, split, result, byte, left⟩ := explained
  by_cases turn : i.counts.byHead queued % kbdBufferSize = 0
  · unfold SequentialCounts
    rw [if_pos turn]
    by_contra filled
    obtain ⟨k'', read, _⟩ := sequential_spec window arrive split (by omega) outC
    rw [interrupted_full_turn window room arrive turn, read] at result
    exact Bool.false_ne_true result
  · obtain ⟨k', interrupted, leaves⟩ := interrupted_spec window room arrive turn outC
    have inhabited : 0 < queued + before.length := by
      apply Nat.pos_of_ne_zero
      intro none
      obtain ⟨rfl, nothing⟩ : queued = 0 ∧ before.length = 0 := by omega
      have same : k.ring.tail = k.ring.head := window.tail.trans window.head.symm
      rw [interrupted, List.length_eq_zero_iff.mp nothing] at result
      have read : keyboardRead (k.pushAll []) outC = (false, outC, k) := read_empty same outC
      rw [read] at result
      exact Bool.false_ne_true result.symm
    obtain ⟨k'', read, final⟩ := sequential_spec window arrive split inhabited outC
    rw [interrupted, read] at byte left
    -- the marked byte tells where the read comes among the pushes
    have place := Nat.add_left_cancel (marked _ byte.symm)
    have sizes := congrArg List.length left
    simp only [leaves.queued, final.queued, length_stretch, Nat.add_sub_add_left] at sizes
    have within : queued + before.length ≤ i.counts.byStore queued := by
      rw [← length_pushes, ← split, List.length_append]
      omega
    have lower := Nat.le_of_add_le_add_left (RingBuffer.Window.ordered leaves)
    have upper := Nat.le_of_add_le_add_left (RingBuffer.Window.ordered final)
    exact counts_of_position turn within place (by omega)

end Schedule

/-! ## Which schedules are explained -/

def InBounds (k : KeyboardBuffer) : Prop := k.bufHead < kbdBufferSize ∧ k.bufTail < kbdBufferSize

theorem mod_size_lt (n : Nat) : n % kbdBufferSize < kbdBufferSize := Nat.mod_lt n (Nat.zero_lt_succ _)

theorem push_inBounds {k : KeyboardBuffer} (inside : InBounds k) (c : UInt8) :
    InBounds (bufferPush k c) := by
  refine ⟨mod_size_lt _, ?_⟩
  unfold bufferPush
  dsimp only
  split
  next full => exact mod_size_lt _
  next notFull => exact inside.2

theorem pushAll_inBounds {k : KeyboardBuffer} (inside : InBounds k) (inputs : List UInt8) :
    InBounds (k.pushAll inputs) := by
  induction inputs generalizing k with
  | nil => exact inside
  | cons c rest ih => exact ih (push_inBounds inside c)

theorem Reachable.inBounds {k : KeyboardBuffer} (reached : Reachable k) : InBounds k := by
  induction reached with
  | start before => exact ⟨Nat.zero_lt_succ _, Nat.zero_lt_succ _⟩
  | push _ c ih => exact push_inBounds ih c
  | read _ outC i ih =>
    have atHead := pushAll_inBounds ih i.beforeHead
    unfold keyboardReadInterrupted
    dsimp only
    split
    next turn => exact pushAll_inBounds atHead _
    next differ =>
      have atStore := pushAll_inBounds (pushAll_inBounds (pushAll_inBounds (pushAll_inBounds atHead
        i.beforeIndex) i.beforeByte) i.beforeAdvance) i.beforeStore
      -- the stored tail is a remainder, however late the store
      exact ⟨atStore.1, mod_size_lt _⟩

theorem Reachable.pushAll {k : KeyboardBuffer} (reached : Reachable k) (inputs : List UInt8) :
    Reachable (k.pushAll inputs) := by
  induction inputs generalizing k with
  | nil => exact reached
  | cons c rest ih => exact ih (reached.push c)

/-- Any buffer with its indices in bounds, in terms of the bytes queued and those to come. -/
theorem InBounds.arrived {k : KeyboardBuffer} (inside : InBounds k) (inputs : List UInt8) :
    ∃ bytes first, k.queued.length ≤ 255 ∧ Arrived bytes first k.queued.length k ∧
      Arrives bytes (first + k.queued.length) inputs := by
  have window := RingBuffer.window_of_bounds (show k.ring.head < kbdBufferSize from inside.1)
    (show k.ring.tail < kbdBufferSize from inside.2)
  have queued := RingBuffer.Window.contents window
  have length : k.queued.length = (k.ring.head + kbdBufferSize - k.ring.tail) % kbdBufferSize := by
    rw [KeyboardBuffer.queued, queued, length_stretch, Nat.add_sub_cancel_left]
  rw [← length] at window
  obtain ⟨bytes, agree, arrive⟩ := exists_arrives
    (fun j => k.ring.slots (j % kbdBufferSize)) (k.ring.tail + k.queued.length) inputs
  have room : k.queued.length ≤ 255 := Nat.le_of_lt_succ (length ▸ mod_size_lt _)
  exact ⟨bytes, k.ring.tail, room, Arrived.start room (RingBuffer.Window.congr agree window), arrive⟩

/-- The first bytes pushed after start-up, and a schedule for those that follow. -/
def pushedFrom (bytes : Nat → UInt8) (queued : Nat) : KeyboardBuffer :=
  (keyboardInitialize ⟨fun _ => 0, 0, 0⟩).pushAll (stretch bytes 0 queued)

def interruptsFrom (bytes : Nat → UInt8) (queued : Nat) (counts : PushCounts) : Interrupts where
  beforeHead := stretch bytes queued (counts.byHead queued)
  beforeIndex := stretch bytes (counts.byHead queued) (counts.byIndex queued)
  beforeByte := stretch bytes (counts.byIndex queued) (counts.byByte queued)
  beforeAdvance := stretch bytes (counts.byByte queued) (counts.byAdvance queued)
  beforeStore := stretch bytes (counts.byAdvance queued) (counts.byStore queued)

theorem pushedFrom_arrived (bytes : Nat → UInt8) {queued : Nat} (room : queued ≤ 255) :
    Arrived bytes 0 queued (pushedFrom bytes queued) := by
  have arrive := arrives_stretch bytes 0 queued
  rw [Nat.zero_add] at arrive
  have window := KeyWindow.pushAll (KeyWindow.initial bytes ⟨fun _ => 0, 0, 0⟩) arrive
  rw [length_stretch, Nat.sub_zero, Nat.zero_add,
    oldest_self (by unfold kbdBufferSize; omega)] at window
  apply Arrived.start room
  rw [Nat.zero_add]
  exact window

theorem interruptsFrom_counts (bytes : Nat → UInt8) (queued : Nat) (counts : PushCounts) :
    (interruptsFrom bytes queued counts).counts = counts := by
  simp [interruptsFrom, Interrupts.counts, PushCounts.byHead, PushCounts.byIndex,
    PushCounts.byByte, PushCounts.byAdvance, PushCounts.byStore]

theorem interruptsFrom_arrives (bytes : Nat → UInt8) (queued : Nat) (counts : PushCounts) :
    Arrives bytes queued (interruptsFrom bytes queued counts).pushes := by
  have stretch_arrives (next count : Nat) {more : List UInt8}
      (rest : Arrives bytes (next + count) more) :
      Arrives bytes next (stretch bytes next (next + count) ++ more) := by
    apply (arrives_stretch bytes next count).append
    rwa [length_stretch, Nat.add_sub_cancel_left]
  exact stretch_arrives _ _ (stretch_arrives _ _ (stretch_arrives _ _ (stretch_arrives _ _
    (arrives_stretch _ _ _))))

/-- One byte set among zeros. -/
def mark (number : Nat) : Nat → UInt8 := Function.update (fun _ => 0) number 1

theorem mark_unique {number j : Nat} (same : mark number j = mark number number) : j = number := by
  by_contra other
  rw [mark, Function.update_of_ne other, Function.update_self] at same
  exact absurd same (by decide)

/-- A marked byte shows that a schedule outside the condition has no explanation. -/
theorem marked_not_explained (queued : Nat) (room : queued ≤ 255) (counts : PushCounts)
    (outside : ¬ SequentialCounts queued counts) (outC : UInt8) :
    ¬ Explained (pushedFrom (mark (fetched queued counts)) queued) outC
      (interruptsFrom (mark (fetched queued counts)) queued counts) := by
  intro explained
  apply outside
  have arrive := interruptsFrom_arrives (mark (fetched queued counts)) queued counts
  have sequential := counts_of_explained (pushedFrom_arrived _ room) room
    (by rw [Nat.zero_add]; exact arrive) (by
      intro j same
      rw [interruptsFrom_counts, Nat.zero_add] at same ⊢
      exact mark_unique same) explained
  rwa [interruptsFrom_counts] at sequential

/-- For every number of bytes queued and of pushes in each gap, all schedules with
these numbers are explained exactly when the numbers meet the condition. -/
theorem interrupted_read_explained_iff (queued : Fin kbdBufferSize) (counts : PushCounts) :
    (∀ k outC i, Reachable k → k.queued.length = queued → i.counts = counts → Explained k outC i) ↔
      SequentialCounts queued counts := by
  have room : (queued : Nat) ≤ 255 := Nat.le_of_lt_succ queued.isLt
  constructor
  · intro explained
    by_contra outside
    apply marked_not_explained _ room counts outside 0
    apply explained
    · exact (Reachable.start _).pushAll _
    · rw [KeyWindow.queued (pushedFrom_arrived _ room), length_stretch, dropped_room room]
      omega
    · exact interruptsFrom_counts _ _ _
  -- the numbering of any buffer is enough: only the counts matter
  · intro sequential k outC i reached length counted
    obtain ⟨bytes, first, room, window, arrive⟩ := reached.inBounds.arrived i.pushes
    apply explained_of_counts window room arrive
    rw [length, counted]
    exact sequential

/-- 255 bytes queued and one push before the tail is advanced: the read takes the
oldest byte, and the next one is lost with it. -/
theorem push_before_advance_not_explained :
    let full := pushedFrom (mark 0) 255
    Reachable full ∧ ¬ Explained full 0 ⟨[], [], [], [0], []⟩ :=
  ⟨(Reachable.start _).pushAll _,
    marked_not_explained 255 (by decide) ⟨0, 0, 0, 1, 0⟩ (by decide) 0⟩

end SzOS.Kernel.Keyboard
