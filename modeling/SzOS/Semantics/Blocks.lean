import Mathlib.Data.List.Basic

/-! Blocks of addresses handed out by an allocator that moves a cursor upwards. -/

set_option autoImplicit false

namespace SzOS.Semantics

structure Block where
  start : Nat
  size : Nat

namespace Block

def stop (block : Block) : Nat := block.start + block.size

/-- The block lies wholly inside `[low, high)`. -/
def Inside (low high : Nat) (block : Block) : Prop := low ≤ block.start ∧ block.stop ≤ high

def Apart (first second : Block) : Prop := first.stop ≤ second.start ∨ second.stop ≤ first.start

/-- The blocks issued so far lie between the base and the cursor, pairwise apart. -/
structure Packed (base cursor : Nat) (blocks : List Block) : Prop where
  inside : ∀ block ∈ blocks, block.Inside base cursor
  apart : blocks.Pairwise Apart

variable {base cursor next : Nat} {blocks : List Block} {block : Block}

theorem Packed.nil : Packed base cursor [] :=
  ⟨fun _ member => absurd member List.not_mem_nil, List.Pairwise.nil⟩

theorem Packed.fresh_apart (packed : Packed base cursor blocks) (fresh : cursor ≤ block.start) :
    ∀ other ∈ blocks, block.Apart other := by
  intro other member
  exact Or.inr (Nat.le_trans (packed.inside other member).2 fresh)

/-- A block issued at the cursor, which moves past it. -/
theorem Packed.issue (packed : Packed base cursor blocks) (ordered : base ≤ cursor)
    (fresh : cursor ≤ block.start) (moved : block.stop ≤ next) :
    Packed base next (block :: blocks) where
  inside := by
    have within : block.start ≤ block.stop := Nat.le_add_right _ _
    intro other member
    rcases List.mem_cons.mp member with rfl | member
    · exact ⟨Nat.le_trans ordered fresh, moved⟩
    · have ⟨above, below⟩ := packed.inside other member
      exact ⟨above, by omega⟩
  apart := List.pairwise_cons.mpr ⟨packed.fresh_apart fresh, packed.apart⟩

/-! ## Writing a whole block -/

variable {V : Type*}

def Covers (block : Block) (address : Nat) : Prop := block.start ≤ address ∧ address < block.stop

instance (block : Block) (address : Nat) : Decidable (block.Covers address) :=
  inferInstanceAs (Decidable (_ ∧ _))

/-- Filled blocks that are not apart share an address. -/
theorem exists_common {first second : Block} (filled : 0 < first.size) (filled' : 0 < second.size)
    (meet : ¬ first.Apart second) : ∃ address, first.Covers address ∧ second.Covers address := by
  refine ⟨max first.start second.start, ?_⟩
  simp only [Apart, Covers, stop] at *
  omega

theorem Apart.elsewhere {first second : Block} (apart : first.Apart second) {address : Nat}
    (covered : second.Covers address) : ¬ first.Covers address := by
  simp only [Apart, Covers, stop] at *
  omega

theorem Apart.part {part whole other : Block} (apart : whole.Apart other)
    (low : whole.start ≤ part.start) (high : part.stop ≤ whole.stop) : part.Apart other := by
  simp only [Apart, stop] at *
  omega

/-- A row of pieces that each keep apart from a block keeps apart from it. -/
theorem apart_of_pieces {start size count : Nat} {other : Block} (filled : 0 < size)
    (some : 0 < count) (filled' : 0 < other.size)
    (pieces : ∀ i < count, Apart ⟨start + size * i, size⟩ other) :
    Apart ⟨start, size * count⟩ other := by
  by_contra meet
  obtain ⟨address, ⟨low, high⟩, covered⟩ := exists_common (Nat.mul_pos filled some) filled' meet
  simp only [stop] at low high
  -- the piece that holds the shared address
  have index : (address - start) / size < count := Nat.div_lt_of_lt_mul (by omega)
  have within := Nat.mod_lt (address - start) filled
  have split := Nat.div_add_mod (address - start) size
  refine (pieces _ index).elsewhere covered ?_
  simp only [Covers, stop]
  omega

/-- The cells of the block take the content, counted from its start. -/
def fill (block : Block) (content : Nat → V) (memory : Nat → V) : Nat → V := fun address =>
  if block.Covers address then content (address - block.start) else memory address

theorem fill_inside (block : Block) (content memory : Nat → V) {offset : Nat}
    (inside : offset < block.size) :
    block.fill content memory (block.start + offset) = content offset := by
  rw [fill, if_pos, Nat.add_sub_cancel_left]
  simp only [Covers, stop]
  omega

theorem fill_outside (block : Block) (content memory : Nat → V) {address : Nat}
    (outside : ¬ block.Covers address) : block.fill content memory address = memory address :=
  if_neg outside

/-- Two memories agree on a block. -/
def Agree (block : Block) (left right : Nat → V) : Prop :=
  ∀ address, block.Covers address → left address = right address

end Block

end SzOS.Semantics
