import Mathlib.Logic.Function.Basic

/-! Memory that records the stores made to it.

Cells are read as usual; the record keeps every store in order, the newest
first, so that a bound on the addresses or on the number of stores of an
operation is a statement about the record it adds.
-/

set_option autoImplicit false

namespace SzOS.Semantics

structure Store (V : Type*) where
  cells : Nat → V
  stores : List (Nat × V)

namespace Store

variable {V : Type*}

def write (memory : Store V) (index : Nat) (value : V) : Store V where
  cells := Function.update memory.cells index value
  stores := (index, value) :: memory.stores

/-- Make the stores of a record, the newest first. -/
def writes (memory : Store V) : List (Nat × V) → Store V
  | [] => memory
  | store :: older => (memory.writes older).write store.1 store.2

/-- Store a list in successive cells. -/
def writeFrom (memory : Store V) (start : Nat) : List V → Store V
  | [] => memory
  | value :: rest => (memory.write start value).writeFrom (start + 1) rest

/-- The cells from `start` on hold a list. -/
def Holds (memory : Store V) (start : Nat) (values : List V) : Prop :=
  ∀ k (inside : k < values.length), memory.cells (start + k) = values[k]

/-- Everything stored since `before` went below the limit. -/
def StoresBelow (limit : Nat) (before memory : Store V) : Prop :=
  ∃ record, memory.stores = record ++ before.stores ∧ ∀ store ∈ record, store.1 < limit

variable {memory before : Store V} {start limit index : Nat}

@[simp] theorem write_cells (index : Nat) (value : V) :
    (memory.write index value).cells = Function.update memory.cells index value := rfl

theorem writeFrom_cons (memory : Store V) (start : Nat) (value : V) (rest : List V) :
    memory.writeFrom start (value :: rest) = (memory.write start value).writeFrom (start + 1) rest := rfl

theorem writeFrom_append (first second : List V) :
    memory.writeFrom start (first ++ second) =
      (memory.writeFrom start first).writeFrom (start + first.length) second := by
  induction first generalizing memory start with
  | nil => rfl
  | cons value rest ih =>
    have place : start + (rest.length + 1) = start + 1 + rest.length := by omega
    rw [List.cons_append, writeFrom_cons, ih, writeFrom_cons, List.length_cons, place]

theorem writeFrom_below (values : List V) (below : index < start) :
    (memory.writeFrom start values).cells index = memory.cells index := by
  induction values generalizing memory start with
  | nil => rfl
  | cons value rest ih =>
    rw [writeFrom_cons, ih (by omega), write_cells, Function.update_of_ne (by omega)]

theorem holds_writeFrom (memory : Store V) (start : Nat) (values : List V) :
    (memory.writeFrom start values).Holds start values := by
  induction values generalizing memory start with
  | nil => exact fun k inside => absurd inside (Nat.not_lt_zero k)
  | cons value rest ih =>
    intro k inside
    rw [writeFrom_cons]
    cases k with
    | zero =>
      exact (writeFrom_below rest (Nat.lt_add_one start)).trans (by simp)
    | succ k =>
      have held := ih (memory.write start value) (start + 1) k (Nat.lt_of_succ_lt_succ inside)
      rw [List.getElem_cons_succ, ← held]
      congr 1
      omega

namespace StoresBelow

theorem refl (limit : Nat) (memory : Store V) : StoresBelow limit memory memory :=
  ⟨[], rfl, fun _ member => absurd member List.not_mem_nil⟩

theorem write (stores : StoresBelow limit before memory) (value : V) (below : index < limit) :
    StoresBelow limit before (memory.write index value) := by
  obtain ⟨record, same, small⟩ := stores
  exact ⟨(index, value) :: record, congrArg (List.cons _) same, List.forall_mem_cons.mpr ⟨below, small⟩⟩

theorem writeFrom (stores : StoresBelow limit before memory) {values : List V}
    (below : start + values.length ≤ limit) : StoresBelow limit before (memory.writeFrom start values) := by
  induction values generalizing memory start with
  | nil => exact stores
  | cons value rest ih =>
    rw [List.length_cons] at below
    exact ih (stores.write value (by omega)) (by omega)

end StoresBelow

end Store

end SzOS.Semantics
