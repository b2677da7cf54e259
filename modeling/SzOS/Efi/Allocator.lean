import SzOS.Efi.Memory
import SzOS.Semantics.Simulation

/-! The allocator over any memory map, also one whose ranges meet or leave the address space.

`next_addr_available` is 0 before the first request, and again after every request of
size 0 that the search answered with 0. Whatever the search finds then, all blocks
issued so far are empty ones at 0, so the order of the blocks survives it.
-/

set_option autoImplicit false

namespace SzOS.Efi.Memory
open Semantics

/-- What a caller passes as a memory map. -/
structure RawMap where
  memory : BitVec 64 → Descriptor
  howManyEntries : Nat
  descriptorSize : BitVec 64

structure RequestSize where
  value : BitVec 32
  nonneg : 0 ≤ value.toInt

def RequestSize.bytes (size : RequestSize) : Nat := size.value.toNat

section Definitions

variable (efiConventionalMemory : BitVec 32) (map : RawMap)

def RawMap.entry (i : Nat) : Descriptor := entryAt map.memory map.descriptorSize i

def RawMap.findRegion (pagesNeeded : BitVec 64) : Option Descriptor :=
  ((List.range map.howManyEntries).map map.entry).find? fun entry =>
    entry.type = efiConventionalMemory && pagesNeeded ≤ entry.numberOfPages

def RawMap.findRegionForMalloc (pagesNeeded : BitVec 64) : BitVec 64 :=
  match map.findRegion efiConventionalMemory pagesNeeded with
  | some entry => entry.physicalStart
  | none => 0

/-- The address returned and the new `next_addr_available`. -/
def RawMap.myMalloc (nextAddrAvailable : BitVec 64) (sizeInBytes : BitVec 32) :
    BitVec 64 × BitVec 64 :=
  let nextAddrAvailable :=
    if nextAddrAvailable = 0 then
      map.findRegionForMalloc efiConventionalMemory (pagesOf sizeInBytes)
    else nextAddrAvailable
  let address := nextAddrAvailable
  (address, nextAddrAvailable + sizeInBytes.signExtend 64)

def MemoryMap.raw (map : MemoryMap) : RawMap :=
  ⟨map.memory, map.howManyEntries, map.descriptorSize⟩

theorem MemoryMap.raw_myMalloc (map : MemoryMap) (next : BitVec 64) (sizeInBytes : BitVec 32) :
    map.raw.myMalloc efiConventionalMemory next sizeInBytes =
      Memory.myMalloc efiConventionalMemory map next sizeInBytes := rfl

/-- A call answers with the block that it returns. -/
def RawMap.issue (next : BitVec 64) (size : RequestSize) : Block × BitVec 64 :=
  let (address, next) := map.myMalloc efiConventionalMemory next size.value
  (⟨address.toNat, size.bytes⟩, next)

/-- The blocks that a sequence of calls returns, from the start of the program. -/
def RawMap.blocks (sizes : List RequestSize) : List Block :=
  (respond (map.issue efiConventionalMemory) 0 sizes).1

/-- `next_addr_available` after these calls. -/
def RawMap.cursor (sizes : List RequestSize) : BitVec 64 :=
  (respond (map.issue efiConventionalMemory) 0 sizes).2

/-- The first conventional entry with enough pages. -/
structure RawMap.FirstFit (size : RequestSize) (i : Nat) : Prop where
  inMap : i < map.howManyEntries
  conventional : (map.entry i).type = efiConventionalMemory
  enough : size.bytes / 4096 + 1 ≤ (map.entry i).numberOfPages.toNat
  first : ∀ j < i, (map.entry j).type = efiConventionalMemory →
    (map.entry j).numberOfPages.toNat < size.bytes / 4096 + 1

end Definitions

/-! ## One call -/

variable {efiConventionalMemory : BitVec 32} {map : RawMap} {size : RequestSize} {next : BitVec 64}

theorem RequestSize.small (size : RequestSize) : 2 * size.value.toNat < 2 ^ 32 := by
  have nonneg := size.nonneg
  have bound := size.value.isLt
  rw [BitVec.toInt_eq_toNat_cond] at nonneg
  split at nonneg <;> omega

theorem RequestSize.toNat_signExtend (size : RequestSize) :
    (size.value.signExtend 64).toNat = size.bytes :=
  toNat_signExtend_of_lt size.small (by decide)

theorem RequestSize.toNat_pagesOf (size : RequestSize) :
    (pagesOf size.value).toNat = size.bytes / 4096 + 1 := by
  have small := size.small
  have pages : (size.value.sdiv 4096 + 1).toNat = size.bytes / 4096 + 1 := by
    rw [BitVec.toNat_add, toNat_sdiv_of_lt size.small (by decide)]
    show (size.bytes / 4096 + 1) % 2 ^ 32 = _
    unfold RequestSize.bytes
    omega
  unfold pagesOf
  rw [toNat_signExtend_of_lt _ (by decide), pages]
  rw [pages]
  unfold RequestSize.bytes
  omega

/-- The cursor moves to the end of the block, and the block starts at the cursor or,
where that is 0, anywhere. -/
theorem issue_spec (fits : (map.issue efiConventionalMemory next size).1.stop < 2 ^ 64) :
    next.toNat ≤ (map.issue efiConventionalMemory next size).1.start ∧
      (map.issue efiConventionalMemory next size).2.toNat =
        (map.issue efiConventionalMemory next size).1.stop := by
  unfold RawMap.issue RawMap.myMalloc at *
  dsimp only [Block.stop] at *
  constructor
  · split
    next fresh =>
      rw [fresh]
      exact Nat.zero_le _
    next => exact Nat.le_refl _
  · rw [BitVec.toNat_add, size.toNat_signExtend]
    exact Nat.mod_eq_of_lt fits

theorem findRegion_spec {d : Descriptor}
    (found : map.findRegion efiConventionalMemory (pagesOf size.value) = some d) :
    ∃ i, d = map.entry i ∧ map.FirstFit efiConventionalMemory size i := by
  unfold RawMap.findRegion at found
  rw [List.find?_map, Option.map_eq_some_iff] at found
  obtain ⟨i, found, rfl⟩ := found
  have suits : ∀ j, ((map.entry j).type = efiConventionalMemory &&
      pagesOf size.value ≤ (map.entry j).numberOfPages) = true ↔
        (map.entry j).type = efiConventionalMemory ∧
          size.bytes / 4096 + 1 ≤ (map.entry j).numberOfPages.toNat := by
    intro j
    simp only [Bool.and_eq_true, decide_eq_true_eq, BitVec.le_def, size.toNat_pagesOf]
  rw [List.find?_range_eq_some] at found
  obtain ⟨fits, member, before⟩ := found
  obtain ⟨conventional, enough⟩ := (suits i).mp fits
  refine ⟨i, rfl, List.mem_range.mp member, conventional, enough, ?_⟩
  intro j earlier isConventional
  have unfit := before j earlier
  by_contra more
  have suitable := (suits j).mpr ⟨isConventional, Nat.le_of_not_lt more⟩
  simp [suitable] at unfit

/-! ## Runs of calls -/

/-- From a cursor on, every block starts at the end of the one before it or later. -/
theorem respond_ordered {sizes : List RequestSize}
    (fits : ∀ block ∈ (respond (map.issue efiConventionalMemory) next sizes).1, block.stop < 2 ^ 64) :
    (∀ block ∈ (respond (map.issue efiConventionalMemory) next sizes).1, next.toNat ≤ block.start) ∧
      (respond (map.issue efiConventionalMemory) next sizes).1.Pairwise
        fun first second => first.stop ≤ second.start := by
  induction sizes generalizing next with
  | nil => exact ⟨fun _ member => absurd member List.not_mem_nil, List.Pairwise.nil⟩
  | cons size rest ih =>
    rw [respond_cons] at fits ⊢
    obtain ⟨here, later⟩ := List.forall_mem_cons.mp fits
    obtain ⟨above, moved⟩ := issue_spec here
    obtain ⟨aboveNext, ordered⟩ := ih later
    rw [moved] at aboveNext
    refine ⟨List.forall_mem_cons.mpr ⟨above, ?_⟩, List.pairwise_cons.mpr ⟨aboveNext, ordered⟩⟩
    intro block member
    have within : (map.issue efiConventionalMemory next size).1.start ≤
        (map.issue efiConventionalMemory next size).1.stop := Nat.le_add_right _ _
    exact Nat.le_trans above (Nat.le_trans within (aboveNext block member))

/-- A call that searches returns the start of the first region that fits, or 0. -/
theorem search_firstFit (searches : next = 0)
    (nonzero : (map.issue efiConventionalMemory next size).1.start ≠ 0) :
    ∃ i, (map.issue efiConventionalMemory next size).1.start = (map.entry i).physicalStart.toNat ∧
      map.FirstFit efiConventionalMemory size i := by
  subst searches
  unfold RawMap.issue RawMap.myMalloc RawMap.findRegionForMalloc at *
  dsimp only at *
  rw [if_pos rfl] at nonzero ⊢
  cases found : map.findRegion efiConventionalMemory (pagesOf size.value) with
  | none =>
    rw [found] at nonzero
    exact absurd rfl nonzero
  | some d =>
    obtain ⟨i, rfl, fit⟩ := findRegion_spec found
    exact ⟨i, rfl, fit⟩

/-- The blocks of every run are apart and their addresses never decrease, and a search
that finds an address other than 0 finds the start of the first region that fits. -/
theorem malloc_blocks_apart (efiConventionalMemory : BitVec 32) (map : RawMap)
    (sizes : List RequestSize)
    (fits : ∀ block ∈ map.blocks efiConventionalMemory sizes, block.stop < 2 ^ 64) :
    (map.blocks efiConventionalMemory sizes).Pairwise Block.Apart ∧
      (map.blocks efiConventionalMemory sizes).Pairwise
        (fun first second => first.start ≤ second.start) ∧
      ∀ earlier size later, sizes = earlier ++ size :: later →
        map.cursor efiConventionalMemory earlier = 0 →
        (map.issue efiConventionalMemory (map.cursor efiConventionalMemory earlier) size).1.start ≠ 0 →
        ∃ i, (map.issue efiConventionalMemory (map.cursor efiConventionalMemory earlier) size).1.start =
            (map.entry i).physicalStart.toNat ∧
          map.FirstFit efiConventionalMemory size i := by
  obtain ⟨_, ordered⟩ := respond_ordered fits
  refine ⟨ordered.imp Or.inl, ordered.imp fun before => ?_, ?_⟩
  · exact Nat.le_trans (Nat.le_add_right _ _) before
  · intro earlier size later _ searches nonzero
    exact search_firstFit searches nonzero

def noBytes : RequestSize := ⟨0, by decide⟩
def somePages : RequestSize := ⟨9000, by decide⟩

/-- Two conventional regions, the first of one page at address 0. -/
def lowPage : RawMap where
  memory := fun offset => if offset = 0 then ⟨7, 0, 1⟩ else ⟨7, 0x100000, 16⟩
  howManyEntries := 2
  descriptorSize := 48

theorem malloc_blocks_apart_lowPage :
    (lowPage.blocks 7 [noBytes, somePages, noBytes, somePages]).Pairwise Block.Apart :=
  (malloc_blocks_apart 7 lowPage [noBytes, somePages, noBytes, somePages] (by decide)).1

end SzOS.Efi.Memory
