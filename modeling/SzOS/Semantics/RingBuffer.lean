import Mathlib.Data.List.Basic
import Mathlib.Data.Nat.ModEq
import Mathlib.Tactic.TypeStar

/-! Bounded queues that drop their oldest element, and rings that implement them.

A ring of `size` slots keeps one slot free to tell full from empty, so it holds
at most `size - 1` elements. Its elements are numbered in the order of arrival:
a window says which numbers the ring holds and that every slot holds the newest
element that fell on it, those already dropped included.
-/

set_option autoImplicit false

namespace SzOS.Semantics

variable {A : Type*}

/-! ## The abstract queue -/

structure BoundedQueue (A : Type*) (capacity : Nat) where
  elements : List A
  bounded : elements.length ≤ capacity

namespace BoundedQueue

variable {capacity : Nat}

@[ext] theorem ext {first second : BoundedQueue A capacity}
    (same : first.elements = second.elements) : first = second := by
  cases first
  cases second
  cases same
  rfl

def empty : BoundedQueue A capacity := ⟨[], Nat.zero_le _⟩

/-- A push onto a full queue drops the oldest element. -/
def push (queue : BoundedQueue A (capacity + 1)) (a : A) : BoundedQueue A (capacity + 1) :=
  if full : queue.elements.length = capacity + 1 then
    ⟨queue.elements.tail ++ [a], by simp [full]⟩
  else
    ⟨queue.elements ++ [a], by
      have := queue.bounded
      simp only [List.length_append, List.length_singleton]
      omega⟩

theorem elements_push (queue : BoundedQueue A (capacity + 1)) (a : A) :
    (queue.push a).elements =
      if queue.elements.length = capacity + 1 then queue.elements.tail ++ [a]
      else queue.elements ++ [a] := by
  unfold push
  split <;> rfl

def pop (queue : BoundedQueue A capacity) : Option (A × BoundedQueue A capacity) :=
  match queue with
  | ⟨[], _⟩ => none
  | ⟨a :: rest, bounded⟩ => some (a, ⟨rest, Nat.le_of_succ_le bounded⟩)

theorem pop_eq_none_iff (queue : BoundedQueue A capacity) :
    queue.pop = none ↔ queue.elements = [] := by
  obtain ⟨_ | ⟨a, rest⟩, bounded⟩ := queue <;> simp [pop]

def pushAll (queue : BoundedQueue A (capacity + 1)) (inputs : List A) :
    BoundedQueue A (capacity + 1) :=
  inputs.foldl push queue

end BoundedQueue

/-! ## Numbered elements -/

/-- The elements numbered from `first` up to `next`, oldest first. -/
def stretch (elements : Nat → A) (first next : Nat) : List A :=
  (List.range (next - first)).map fun i => elements (first + i)

variable {elements : Nat → A} {first next size : Nat}

@[simp] theorem length_stretch : (stretch elements first next).length = next - first := by
  simp [stretch]

theorem stretch_cons (inhabited : first < next) :
    stretch elements first next = elements first :: stretch elements (first + 1) next := by
  obtain ⟨count, rfl⟩ : ∃ count, next = first + (count + 1) := ⟨next - first - 1, by omega⟩
  have shorter : first + (count + 1) - (first + 1) = count := by omega
  simp only [stretch, Nat.add_sub_cancel_left, shorter, List.range_succ_eq_map, List.map_cons,
    List.map_map, Nat.add_zero]
  congr 1
  apply List.map_congr_left
  intro i _
  simp only [Function.comp_apply]
  congr 1
  omega

theorem stretch_snoc (ordered : first ≤ next) :
    stretch elements first (next + 1) = stretch elements first next ++ [elements next] := by
  obtain ⟨count, rfl⟩ : ∃ count, next = first + count := ⟨next - first, by omega⟩
  have longer : first + count + 1 - first = count + 1 := by omega
  simp [stretch, longer, List.range_succ]

theorem stretch_congr {other : Nat → A} (agree : ∀ j, j < next → other j = elements j) :
    stretch other first next = stretch elements first next := by
  apply List.map_congr_left
  intro i member
  apply agree
  have := List.mem_range.mp member
  omega

/-- The elements from number `next` on begin with `inputs`. -/
def Arrives (elements : Nat → A) (next : Nat) (inputs : List A) : Prop :=
  ∀ n (bound : n < inputs.length), elements (next + n) = inputs[n]

theorem Arrives.head {a : A} {rest : List A} (arrive : Arrives elements next (a :: rest)) :
    elements next = a :=
  arrive 0 (Nat.zero_lt_succ _)

theorem Arrives.tail {a : A} {rest : List A} (arrive : Arrives elements next (a :: rest)) :
    Arrives elements (next + 1) rest := by
  intro n bound
  rw [Nat.add_right_comm]
  exact arrive (n + 1) (Nat.succ_lt_succ bound)

theorem Arrives.left {inputs more : List A} (arrive : Arrives elements next (inputs ++ more)) :
    Arrives elements next inputs := by
  intro n bound
  rw [arrive n (by rw [List.length_append]; omega), List.getElem_append_left bound]

theorem Arrives.right {inputs more : List A} (arrive : Arrives elements next (inputs ++ more)) :
    Arrives elements (next + inputs.length) more := by
  intro n bound
  rw [Nat.add_assoc, arrive (inputs.length + n) (by rw [List.length_append]; omega),
    List.getElem_append_right (Nat.le_add_right _ _)]
  simp only [Nat.add_sub_cancel_left]

theorem Arrives.append {inputs more : List A} (first : Arrives elements next inputs)
    (second : Arrives elements (next + inputs.length) more) :
    Arrives elements next (inputs ++ more) := by
  intro n bound
  rw [List.length_append] at bound
  by_cases early : n < inputs.length
  · rw [List.getElem_append_left early]
    exact first n early
  · rw [List.getElem_append_right (Nat.le_of_not_lt early), ← second (n - inputs.length) (by omega)]
    congr 1
    omega

theorem arrives_stretch (elements : Nat → A) (next count : Nat) :
    Arrives elements next (stretch elements next (next + count)) := by
  intro n bound
  simp [stretch]

/-- The numbers not yet given out are free to stand for what arrives next. -/
theorem exists_arrives [Inhabited A] (elements : Nat → A) (next : Nat) (inputs : List A) :
    ∃ other, (∀ j, j < next → other j = elements j) ∧ Arrives other next inputs := by
  refine ⟨fun j => if j < next then elements j else inputs.getD (j - next) default, ?_, ?_⟩
  · intro j below
    exact if_pos below
  · intro n bound
    simp [bound]

/-- The oldest number kept when `next` elements have arrived and none was read. -/
def oldest (size first next : Nat) : Nat := max first (next + 1 - size)

/-- The elements numbered from `first` up to `next` are those of the queue. -/
def Numbers {capacity : Nat} (elements : Nat → A) (first next : Nat)
    (queue : BoundedQueue A capacity) : Prop :=
  first ≤ next ∧ queue.elements = stretch elements first next

theorem Numbers.push {capacity : Nat} {queue : BoundedQueue A (capacity + 1)}
    (numbers : Numbers elements first next queue) :
    Numbers elements (oldest (capacity + 2) first (next + 1)) (next + 1)
      (queue.push (elements next)) := by
  obtain ⟨ordered, same⟩ := numbers
  have bound := queue.bounded
  rw [same, length_stretch] at bound
  unfold Numbers
  rw [BoundedQueue.elements_push, same, length_stretch]
  split
  next full =>
    have start : oldest (capacity + 2) first (next + 1) = first + 1 := by
      unfold oldest
      omega
    refine ⟨by omega, ?_⟩
    rw [start, stretch_snoc (by omega), stretch_cons (by omega)]
    rfl
  next notFull =>
    have start : oldest (capacity + 2) first (next + 1) = first := by
      unfold oldest
      omega
    refine ⟨by omega, ?_⟩
    rw [start, stretch_snoc ordered]

theorem oldest_oldest (more : Nat) :
    oldest size (oldest size first (next + 1)) (next + 1 + more) =
      oldest size first (next + 1 + more) := by
  unfold oldest
  omega

theorem oldest_self (room : next < first + size) : oldest size first next = first := by
  unfold oldest
  omega

theorem Numbers.pushAll {capacity : Nat} {queue : BoundedQueue A (capacity + 1)}
    (numbers : Numbers elements first next queue) (inputs : List A)
    (arrive : Arrives elements next inputs) :
    Numbers elements (oldest (capacity + 2) first (next + inputs.length)) (next + inputs.length)
      (queue.pushAll inputs) := by
  induction inputs generalizing first next queue with
  | nil =>
    have room : next < first + (capacity + 2) := by
      have bound := queue.bounded
      rw [numbers.2, length_stretch] at bound
      omega
    simpa [BoundedQueue.pushAll, oldest_self room] using numbers
  | cons a rest ih =>
    have pushed := numbers.push
    rw [arrive.head] at pushed
    have later := ih pushed arrive.tail
    -- what the first push drops the later ones have dropped too
    rw [oldest_oldest] at later
    have total : next + (a :: rest).length = next + 1 + rest.length := by
      rw [List.length_cons]
      omega
    rw [total]
    exact later

theorem Numbers.pop {capacity : Nat} {queue : BoundedQueue A capacity}
    (numbers : Numbers elements first next queue) (inhabited : first < next) :
    ∃ rest, queue.pop = some (elements first, rest) ∧ Numbers elements (first + 1) next rest := by
  obtain ⟨list, bounded⟩ := queue
  obtain ⟨_, same⟩ := numbers
  rw [stretch_cons inhabited] at same
  simp only at same
  subst same
  exact ⟨_, rfl, inhabited, rfl⟩

theorem Numbers.pop_none {capacity : Nat} {queue : BoundedQueue A capacity}
    (numbers : Numbers elements first first queue) : queue.pop = none := by
  rw [BoundedQueue.pop_eq_none_iff, numbers.2]
  simp [stretch]

theorem Numbers.congr {capacity : Nat} {queue : BoundedQueue A capacity} {other : Nat → A}
    (agree : ∀ j, j < next → other j = elements j) (numbers : Numbers elements first next queue) :
    Numbers other first next queue :=
  ⟨numbers.1, numbers.2.trans (stretch_congr agree).symm⟩

/-! ## Rings -/

structure RingBuffer (A : Type*) where
  slots : Nat → A
  head : Nat
  tail : Nat

namespace RingBuffer

def advance (size index : Nat) : Nat := (index + 1) % size

/-- A push that finds the ring full gives up the oldest slot. -/
def push (size : Nat) (ring : RingBuffer A) (a : A) : RingBuffer A where
  slots := Function.update ring.slots ring.head a
  head := advance size ring.head
  tail := if advance size ring.head = ring.tail then advance size ring.tail else ring.tail

def pop (size : Nat) (ring : RingBuffer A) : Option (A × RingBuffer A) :=
  if ring.tail = ring.head then none
  else some (ring.slots ring.tail, { ring with tail := advance size ring.tail })

/-- The elements from the reader's index up to the writer's, oldest first. -/
def contents (size : Nat) (ring : RingBuffer A) : List A :=
  stretch (fun j => ring.slots (j % size)) ring.tail
    (ring.tail + (ring.head + size - ring.tail) % size)

structure Window (size : Nat) (elements : Nat → A) (first next : Nat) (ring : RingBuffer A) : Prop where
  head : ring.head = next % size
  tail : ring.tail = first % size
  ordered : first ≤ next
  room : next < first + size
  held : ∀ j, j < next → next ≤ j + size → ring.slots (j % size) = elements j

variable {ring : RingBuffer A}

theorem Window.positive (window : Window size elements first next ring) : 0 < size := by
  have := window.ordered
  have := window.room
  omega

theorem Window.bounds (window : Window size elements first next ring) :
    ring.head < size ∧ ring.tail < size := by
  rw [window.head, window.tail]
  exact ⟨Nat.mod_lt _ window.positive, Nat.mod_lt _ window.positive⟩

/-- Two numbers of one window that fall on the same slot are equal. -/
theorem eq_of_mod_eq {low high : Nat} (same : low % size = high % size) (ordered : low ≤ high)
    (near : high < low + size) : low = high := by
  have apart : (high - low) % size = 0 := Nat.sub_mod_eq_zero_of_mod_eq same.symm
  rw [Nat.mod_eq_of_lt (by omega)] at apart
  omega

theorem Window.empty_iff (window : Window size elements first next ring) :
    ring.tail = ring.head ↔ first = next := by
  rw [window.head, window.tail]
  exact ⟨fun same => eq_of_mod_eq same window.ordered window.room, fun same => by rw [same]⟩

theorem Window.push (window : Window size elements first next ring) :
    Window size elements (oldest size first (next + 1)) (next + 1)
      (ring.push size (elements next)) := by
  have ordered := window.ordered
  have room := window.room
  have headNext : (next % size + 1) % size = (next + 1) % size := by rw [Nat.mod_add_mod]
  -- the head meets the tail exactly when one slot is left
  have full_iff : (next + 1) % size = first % size ↔ next + 1 = first + size := by
    constructor
    · intro same
      have same' : (next + 1) % size = (first + size) % size := by rw [Nat.add_mod_right, same]
      exact eq_of_mod_eq same' (by omega) (by omega)
    · intro same
      rw [same, Nat.add_mod_right]
  refine ⟨?_, ?_, ?_, ?_, ?_⟩
  · simp only [RingBuffer.push, advance, window.head, headNext]
  · simp only [RingBuffer.push, advance, window.head, window.tail, headNext, full_iff]
    split
    next full =>
      have start : oldest size first (next + 1) = first + 1 := by
        unfold oldest
        omega
      rw [start, Nat.mod_add_mod]
    next notFull =>
      have start : oldest size first (next + 1) = first := by
        unfold oldest
        omega
      rw [start]
  · unfold oldest
    omega
  · unfold oldest
    omega
  · intro j below near
    simp only [RingBuffer.push, window.head]
    -- the slot written held an element one turn older, or none
    by_cases newest : j = next
    · rw [newest, Function.update_self]
    · have distinct : j % size ≠ next % size := by
        intro same
        exact newest (eq_of_mod_eq same (by omega) (by omega))
      rw [Function.update_of_ne distinct]
      exact window.held j (by omega) (by omega)

def pushAll (size : Nat) (ring : RingBuffer A) (inputs : List A) : RingBuffer A :=
  inputs.foldl (RingBuffer.push size) ring

theorem Window.pushAll (window : Window size elements first next ring) (inputs : List A)
    (arrive : Arrives elements next inputs) :
    Window size elements (oldest size first (next + inputs.length)) (next + inputs.length)
      (ring.pushAll size inputs) := by
  induction inputs generalizing first next ring with
  | nil =>
    simpa [RingBuffer.pushAll, oldest_self window.room] using window
  | cons a rest ih =>
    have pushed := window.push
    rw [arrive.head] at pushed
    have later := ih pushed arrive.tail
    rw [oldest_oldest] at later
    have total : next + (a :: rest).length = next + 1 + rest.length := by
      rw [List.length_cons]
      omega
    rw [total]
    exact later

theorem Window.pop (window : Window size elements first next ring) (inhabited : first < next) :
    ∃ rest, ring.pop size = some (elements first, rest) ∧
      Window size elements (first + 1) next rest := by
  have nonempty : ring.tail ≠ ring.head := by
    intro same
    have := window.empty_iff.mp same
    omega
  have room := window.room
  have oldestHeld := window.held first inhabited (by omega)
  rw [← window.tail] at oldestHeld
  refine ⟨{ ring with tail := advance size ring.tail }, ?_, window.head, ?_, inhabited,
    by omega, window.held⟩
  · simp only [RingBuffer.pop, if_neg nonempty, oldestHeld]
  · simp only [advance, window.tail, Nat.mod_add_mod]

theorem Window.congr {other : Nat → A} (agree : ∀ j, j < next → other j = elements j)
    (window : Window size elements first next ring) : Window size other first next ring :=
  { window with held := fun j below near => (window.held j below near).trans (agree j below).symm }

/-- A reader that moves its index leaves the window of the number it falls on. -/
theorem Window.reseat (window : Window size elements first next ring) {start : Nat}
    (ordered : start ≤ next) :
    Window size elements (start + (next - start) / size * size) next
      { ring with tail := start % size } := by
  have split := Nat.div_add_mod (next - start) size
  have small := Nat.mod_lt (next - start) window.positive
  rw [Nat.mul_comm] at split
  refine ⟨window.head, ?_, by omega, by omega, window.held⟩
  rw [Nat.add_mul_mod_self_right]

/-- A slot holds the newest element that fell on it. -/
theorem Window.slot (window : Window size elements first next ring) {j : Nat} (below : j < next) :
    ring.slots (j % size) = elements (j + (next - 1 - j) / size * size) := by
  have split := Nat.div_add_mod (next - 1 - j) size
  have small := Nat.mod_lt (next - 1 - j) window.positive
  rw [Nat.mul_comm] at split
  rw [← window.held _ (by omega) (by omega), Nat.add_mul_mod_self_right]

/-- Any indices below the size number a window. -/
theorem window_of_bounds (head : ring.head < size) (tail : ring.tail < size) :
    Window size (fun j => ring.slots (j % size)) ring.tail
      (ring.tail + (ring.head + size - ring.tail) % size) ring where
  head := by
    rw [Nat.add_mod_mod, Nat.add_sub_of_le (by omega), Nat.add_mod_right, Nat.mod_eq_of_lt head]
  tail := (Nat.mod_eq_of_lt tail).symm
  ordered := by omega
  room := by
    have := Nat.mod_lt (ring.head + size - ring.tail) (Nat.zero_lt_of_lt head)
    omega
  held := fun _ _ _ => rfl

theorem Window.contents (window : Window size elements first next ring) :
    ring.contents size = stretch elements first next := by
  have room := window.room
  have ordered := window.ordered
  obtain ⟨head, tail⟩ := window.bounds
  -- the indices are as far apart round the ring as the numbers are
  have count : (ring.head + size - ring.tail) % size = next - first := by
    have turned : (ring.tail + (ring.head + size - ring.tail)) % size =
        (ring.tail + (next - first)) % size := by
      rw [Nat.add_sub_of_le (by omega), Nat.add_mod_right, Nat.mod_eq_of_lt head, window.head,
        window.tail, Nat.mod_add_mod, Nat.add_sub_of_le ordered]
    have small : (ring.head + size - ring.tail) % size = (next - first) % size :=
      Nat.ModEq.add_left_cancel' ring.tail turned
    rw [small, Nat.mod_eq_of_lt (by omega)]
  unfold RingBuffer.contents stretch
  rw [Nat.add_sub_cancel_left, count]
  apply List.map_congr_left
  intro i member
  have below := List.mem_range.mp member
  simp only [window.tail, Nat.mod_add_mod]
  exact window.held (first + i) (by omega) (by omega)

end RingBuffer

end SzOS.Semantics
