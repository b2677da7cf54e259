import Mathlib.Data.List.Perm.Basic
import Mathlib.Logic.Function.Basic

/-! Copying within one memory, cell after cell.

The cells written may be cells that other copies of the same run read. What
decides the result is the order: it must never write a cell that a later copy
still has to read.
-/

set_option autoImplicit false

namespace SzOS.Semantics

variable {ι K V : Type*}

/-- No cell is written twice, and none before a later copy reads it. -/
def ReadFirst (dest source : ι → K) (order : List ι) : Prop :=
  order.Pairwise fun i j => dest i ≠ dest j ∧ dest i ≠ source j

theorem readFirst_range {dest source : Nat → K} {count : Nat}
    (apart : ∀ i j, i < j → j < count → dest i ≠ dest j ∧ dest i ≠ source j) :
    ReadFirst dest source (List.range count) :=
  List.pairwise_lt_range.imp_of_mem fun _ inside less => apart _ _ less (List.mem_range.mp inside)

theorem readFirst_range_reverse {dest source : Nat → K} {count : Nat}
    (apart : ∀ i j, i < j → j < count → dest j ≠ dest i ∧ dest j ≠ source i) :
    ReadFirst dest source (List.range count).reverse :=
  List.pairwise_reverse.mpr <|
    List.pairwise_lt_range.imp_of_mem fun _ inside less => apart _ _ less (List.mem_range.mp inside)

variable [DecidableEq K]

/-- Copy `source i` to `dest i` for the indices of `order`, each read from what is there by then. -/
def copyCells (dest source : ι → K) (order : List ι) (memory : K → V) : K → V :=
  order.foldl (fun memory i => Function.update memory (dest i) (memory (source i))) memory

variable {dest source : ι → K} {order : List ι} {memory : K → V}

theorem copyCells_cons (i : ι) (rest : List ι) :
    copyCells dest source (i :: rest) memory =
      copyCells dest source rest (Function.update memory (dest i) (memory (source i))) := rfl

theorem copyCells_snoc (order : List ι) (i : ι) :
    copyCells dest source (order ++ [i]) memory =
      Function.update (copyCells dest source order memory) (dest i)
        (copyCells dest source order memory (source i)) :=
  List.foldl_append

theorem copyCells_elsewhere {cell : K} (missed : ∀ i ∈ order, dest i ≠ cell) :
    copyCells dest source order memory cell = memory cell := by
  induction order generalizing memory with
  | nil => rfl
  | cons i rest ih =>
    obtain ⟨here, later⟩ := List.forall_mem_cons.mp missed
    rw [copyCells_cons, ih later, Function.update_of_ne here.symm]

theorem copyCells_placed (readFirst : ReadFirst dest source order) {i : ι} (member : i ∈ order) :
    copyCells dest source order memory (dest i) = memory (source i) := by
  induction order generalizing memory with
  | nil => exact absurd member List.not_mem_nil
  | cons j rest ih =>
    obtain ⟨apart, later⟩ := List.pairwise_cons.mp readFirst
    rw [copyCells_cons]
    cases List.mem_cons.mp member with
    | inl same =>
      -- the copies after it write other cells
      subst same
      rw [copyCells_elsewhere fun k inside => (apart k inside).1.symm, Function.update_self]
    | inr inside => rw [ih later inside, Function.update_of_ne (apart i inside).2.symm]

/-- Two orders of the same copies that both read first leave the same memory. -/
theorem copyCells_perm {other : List ι} (readFirst : ReadFirst dest source order)
    (readFirst' : ReadFirst dest source other) (perm : order.Perm other) :
    copyCells dest source order memory = copyCells dest source other memory := by
  funext cell
  by_cases written : ∃ i ∈ order, dest i = cell
  · obtain ⟨i, member, rfl⟩ := written
    rw [copyCells_placed readFirst member, copyCells_placed readFirst' (perm.mem_iff.mp member)]
  · have missed : ∀ i ∈ order, dest i ≠ cell := fun i member same => written ⟨i, member, same⟩
    rw [copyCells_elsewhere missed,
      copyCells_elsewhere fun i member => missed i (perm.mem_iff.mpr member)]

/-- A block of consecutive cells, copied upwards. -/
theorem copyCells_block {dest source : Int} {count : Nat} (memory : Int → V)
    (readFirst : ReadFirst (fun i : Nat => dest + i) (fun i => source + i) (List.range count)) (cell : Int) :
    copyCells (fun i : Nat => dest + i) (fun i => source + i) (List.range count) memory cell =
      if dest ≤ cell ∧ cell < dest + count then memory (source + (cell - dest)) else memory cell := by
  split
  next inside =>
    obtain ⟨i, rfl⟩ : ∃ i : Nat, cell = dest + i := ⟨(cell - dest).toNat, by omega⟩
    rw [show dest + (i : Int) - dest = i by omega]
    exact copyCells_placed readFirst (List.mem_range.mpr (by omega))
  next outside =>
    apply copyCells_elsewhere
    intro i member same
    have inside := List.mem_range.mp member
    omega

end SzOS.Semantics
