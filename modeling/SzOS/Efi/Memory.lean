import Mathlib.Algebra.Ring.Nat
import SzOS.Semantics.Blocks
import SzOS.Semantics.Run
import SzOS.Semantics.Words

/-! The allocator of the EFI kernel (memory.c).

The first request picks the first conventional region with enough pages; later
requests only move `next_addr_available` on, and a failed search moves it too.
The blocks are as promised exactly while one region holds all requests.
-/

set_option autoImplicit false

namespace SzOS.Efi.Memory
open Semantics

/-- The fields of a memory descriptor that the allocator reads. -/
structure Descriptor where
  type : BitVec 32
  physicalStart : BitVec 64
  numberOfPages : BitVec 64

def Descriptor.bytes (d : Descriptor) : Nat := 4096 * d.numberOfPages.toNat

def Descriptor.stop (d : Descriptor) : Nat := d.physicalStart.toNat + d.bytes

/-- The descriptor that begins at entry `i`, `i * descriptor_size` bytes into the map. -/
def entryAt (memoryMap : BitVec 64 → Descriptor) (descriptorSize : BitVec 64) (i : Nat) : Descriptor :=
  memoryMap (BitVec.ofNat 64 i * descriptorSize)

/-- A memory map: what each offset holds, and the descriptors of its entries have
ranges inside the address space that do not meet. -/
structure MemoryMap where
  memory : BitVec 64 → Descriptor
  howManyEntries : Nat
  descriptorSize : BitVec 64
  addressable : ∀ i < howManyEntries, (entryAt memory descriptorSize i).stop ≤ 2 ^ 64
  disjoint : ∀ i < howManyEntries, ∀ j < howManyEntries, i ≠ j →
    (entryAt memory descriptorSize i).stop ≤ (entryAt memory descriptorSize j).physicalStart.toNat ∨
      (entryAt memory descriptorSize j).stop ≤ (entryAt memory descriptorSize i).physicalStart.toNat

def MemoryMap.entries (map : MemoryMap) : List Descriptor :=
  (List.range map.howManyEntries).map (entryAt map.memory map.descriptorSize)

-- `EfiConventionalMemory` is a constant of the firmware's headers
variable (efiConventionalMemory : BitVec 32) (map : MemoryMap)

/-- The loop of `find_region_for_malloc`: the first entry that will do. -/
def findRegion (pagesNeeded : BitVec 64) : Option Descriptor :=
  map.entries.find? fun entry =>
    entry.type = efiConventionalMemory && pagesNeeded ≤ entry.numberOfPages

def findRegionForMalloc (pagesNeeded : BitVec 64) : BitVec 64 :=
  match findRegion efiConventionalMemory map pagesNeeded with
  | some entry => entry.physicalStart
  | none => 0

def pagesOf (sizeInBytes : BitVec 32) : BitVec 64 := (sizeInBytes.sdiv 4096 + 1).signExtend 64

/-- The address returned and the new `next_addr_available`. -/
def myMalloc (nextAddrAvailable : BitVec 64) (sizeInBytes : BitVec 32) : BitVec 64 × BitVec 64 :=
  let nextAddrAvailable :=
    if nextAddrAvailable = 0 then
      findRegionForMalloc efiConventionalMemory map (pagesOf sizeInBytes)
    else nextAddrAvailable
  let address := nextAddrAvailable
  (address, nextAddrAvailable + sizeInBytes.signExtend 64)

/-! ## Calls and what they promise -/

/-- A positive size. -/
structure Size where
  value : BitVec 32
  positive : 0 < value.toInt

def Size.bytes (size : Size) : Nat := size.value.toNat

/-- The allocator with the region it serves from and the bytes it has taken of it. -/
structure Session where
  next : BitVec 64
  region : Option (Descriptor × Nat)

def start : Session := ⟨0, none⟩

def firstFit (size : Size) : Option Descriptor :=
  findRegion efiConventionalMemory map (pagesOf size.value)

def call (session : Session) (size : Size) : Option Session :=
  some
    { next := (myMalloc efiConventionalMemory map session.next size.value).2
      region :=
        if session.next = 0 then (firstFit efiConventionalMemory map size).map fun d => (d, size.bytes)
        else session.region.map fun (d, used) => (d, used + size.bytes) }

/-- The region serves the request; without one, the search finds a region that does. -/
def CanServe (session : Session) (size : Size) : Prop :=
  match session.region with
  | none => (firstFit efiConventionalMemory map size).isSome = true
  | some (d, used) => used + size.bytes ≤ d.bytes

structure Promise (session : Session) (size : Size) : Prop where
  inside : ∀ address next, myMalloc efiConventionalMemory map session.next size.value = (address, next) →
    address ≠ 0 → ∃ d ∈ map.entries, d.type = efiConventionalMemory ∧
      Block.Inside d.physicalStart.toNat d.stop ⟨address.toNat, size.bytes⟩
  refused : ¬ CanServe efiConventionalMemory map session size →
    myMalloc efiConventionalMemory map session.next size.value = (0, session.next)

/-- The region found for the first request holds all of them. -/
def FirstRegionHolds (sizes : List Size) : Prop :=
  match sizes with
  | [] => True
  | first :: _ => ∃ d, firstFit efiConventionalMemory map first = some d ∧
      (sizes.map Size.bytes).sum ≤ d.bytes

/-! ## One call -/

variable {size : Size}

theorem Size.bounds (size : Size) : 0 < size.bytes ∧ size.bytes < 2 ^ 31 := by
  have positive := size.positive
  have bound := size.value.isLt
  rw [BitVec.toInt_eq_toNat_cond] at positive
  unfold Size.bytes
  split at positive <;> omega

theorem Size.small (size : Size) : 2 * size.value.toNat < 2 ^ 32 := by
  have bounds := size.bounds
  unfold Size.bytes at bounds
  omega

theorem Size.toNat_signExtend (size : Size) : (size.value.signExtend 64).toNat = size.bytes :=
  toNat_signExtend_of_lt size.small (by decide)

theorem toNat_pagesOf (size : Size) : (pagesOf size.value).toNat = size.bytes / 4096 + 1 := by
  have bounds := size.bounds
  have pages : (size.value.sdiv 4096 + 1).toNat = size.bytes / 4096 + 1 := by
    rw [BitVec.toNat_add, toNat_sdiv_of_lt size.small (by decide)]
    show (size.bytes / 4096 + 1) % 2 ^ 32 = _
    omega
  unfold pagesOf
  rw [toNat_signExtend_of_lt (by omega) (by decide), pages]

theorem mem_entries {d : Descriptor} (member : d ∈ map.entries) : d.stop ≤ 2 ^ 64 := by
  obtain ⟨i, below, rfl⟩ := List.mem_map.mp member
  exact map.addressable i (List.mem_range.mp below)

variable {efiConventionalMemory map}

/-- The region found has room for the request, of whatever size its last page is. -/
theorem firstFit_spec {d : Descriptor} (found : firstFit efiConventionalMemory map size = some d) :
    d ∈ map.entries ∧ d.type = efiConventionalMemory ∧ size.bytes < d.bytes := by
  have suits := List.find?_some found
  simp only [Bool.and_eq_true, decide_eq_true_eq, BitVec.le_def, toNat_pagesOf] at suits
  refine ⟨List.mem_of_find?_eq_some found, suits.1, ?_⟩
  unfold Descriptor.bytes
  omega

variable (efiConventionalMemory map)

/-- What holds as long as every call could be served. -/
structure Serving (d : Descriptor) (used : Nat) (next : BitVec 64) : Prop where
  member : d ∈ map.entries
  conventional : d.type = efiConventionalMemory
  taken : 0 < used
  within : used ≤ d.bytes
  cursor : next.toNat = (d.physicalStart.toNat + used) % 2 ^ 64

inductive Sound : Session → Prop where
  | fresh : Sound start
  | serving {d : Descriptor} {used : Nat} {next : BitVec 64}
      (serving : Serving efiConventionalMemory map d used next) : Sound ⟨next, some (d, used)⟩

variable {efiConventionalMemory map} {d : Descriptor} {used : Nat} {next : BitVec 64}

theorem myMalloc_cursor (moved : next ≠ 0) (sizeInBytes : BitVec 32) :
    myMalloc efiConventionalMemory map next sizeInBytes =
      (next, next + sizeInBytes.signExtend 64) := by
  unfold myMalloc
  rw [if_neg moved]

theorem myMalloc_fresh_some (found : firstFit efiConventionalMemory map size = some d) :
    myMalloc efiConventionalMemory map 0 size.value =
      (d.physicalStart, d.physicalStart + size.value.signExtend 64) := by
  unfold firstFit at found
  unfold myMalloc findRegionForMalloc
  rw [if_pos rfl, found]

/-- No call that returns 0 leaves the cursor where it was. -/
theorem never_refused (next : BitVec 64) (size : Size) :
    myMalloc efiConventionalMemory map next size.value ≠ (0, next) := by
  intro refused
  by_cases fresh : next = 0
  · obtain ⟨address, cursor⟩ := Prod.mk.inj refused
    rw [address, fresh] at cursor
    have bounds := size.bounds
    have zero : (0 : BitVec 64).toNat = 0 := rfl
    have moved := congrArg BitVec.toNat cursor
    rw [BitVec.toNat_add, size.toNat_signExtend, zero] at moved
    omega
  · rw [myMalloc_cursor fresh] at refused
    exact fresh (Prod.mk.inj refused).1

/-- A request that the region can serve moves the cursor on inside it. -/
theorem Serving.advance (serving : Serving efiConventionalMemory map d used next)
    (room : used + size.bytes ≤ d.bytes) :
    next ≠ 0 ∧ next.toNat = d.physicalStart.toNat + used ∧
      Serving efiConventionalMemory map d (used + size.bytes)
        (next + size.value.signExtend 64) := by
  have positive := size.bounds.1
  have addressable := mem_entries map serving.member
  have cursor := serving.cursor
  have taken := serving.taken
  unfold Descriptor.stop at addressable
  -- what is taken lies in the region, and the region in the address space
  rw [Nat.mod_eq_of_lt (by omega)] at cursor
  refine ⟨?_, cursor, serving.member, serving.conventional, by omega, room, ?_⟩
  · intro wrapped
    have zero : (0 : BitVec 64).toNat = 0 := rfl
    rw [wrapped, zero] at cursor
    omega
  · rw [BitVec.toNat_add, size.toNat_signExtend, cursor, Nat.add_assoc]

theorem serving_first (found : firstFit efiConventionalMemory map size = some d) :
    Serving efiConventionalMemory map d size.bytes
      (d.physicalStart + size.value.signExtend 64) := by
  obtain ⟨member, conventional, room⟩ := firstFit_spec found
  refine ⟨member, conventional, size.bounds.1, Nat.le_of_lt room, ?_⟩
  rw [BitVec.toNat_add, size.toNat_signExtend]

theorem promise_iff {session : Session} (sound : Sound efiConventionalMemory map session)
    (size : Size) :
    Promise efiConventionalMemory map session size ↔
      CanServe efiConventionalMemory map session size := by
  constructor
  · intro promise
    by_contra unserved
    -- a request that cannot be served still moves the cursor
    exact never_refused _ _ (promise.refused unserved)
  · intro served
    refine ⟨?_, fun unserved => absurd served unserved⟩
    intro address next returned _
    cases sound with
    | fresh =>
      obtain ⟨d, found⟩ := Option.isSome_iff_exists.mp served
      obtain ⟨member, conventional, room⟩ := firstFit_spec found
      rw [start, myMalloc_fresh_some found] at returned
      cases returned
      exact ⟨d, member, conventional, Nat.le_refl _, Nat.add_le_add_left (Nat.le_of_lt room) _⟩
    | @serving d used cursor serving =>
      obtain ⟨moved, place, advanced⟩ := serving.advance served
      rw [myMalloc_cursor moved] at returned
      cases returned
      refine ⟨d, serving.member, serving.conventional, ?_, ?_⟩
      · rw [place]
        exact Nat.le_add_right _ _
      · unfold Block.stop Descriptor.stop
        rw [place, Nat.add_assoc]
        exact Nat.add_le_add_left advanced.within _

theorem call_first (found : firstFit efiConventionalMemory map size = some d) :
    call efiConventionalMemory map start size =
      some ⟨d.physicalStart + size.value.signExtend 64, some (d, size.bytes)⟩ := by
  unfold call start
  rw [if_pos rfl, myMalloc_fresh_some found, found]
  rfl

theorem call_serving (moved : next ≠ 0) :
    call efiConventionalMemory map ⟨next, some (d, used)⟩ size =
      some ⟨next + size.value.signExtend 64, some (d, used + size.bytes)⟩ := by
  unfold call
  simp only [if_neg moved, myMalloc_cursor moved, Option.map_some]

theorem call_sound {session after : Session} (sound : Sound efiConventionalMemory map session)
    (served : CanServe efiConventionalMemory map session size)
    (called : call efiConventionalMemory map session size = some after) :
    Sound efiConventionalMemory map after := by
  cases sound with
  | fresh =>
    obtain ⟨d, found⟩ := Option.isSome_iff_exists.mp served
    cases (call_first found).symm.trans called
    exact Sound.serving (serving_first found)
  | serving serving =>
    obtain ⟨moved, _, advanced⟩ := serving.advance served
    cases (call_serving moved).symm.trans called
    exact Sound.serving advanced

/-! ## Runs of calls -/

/-- From a region in use: all later requests are served exactly when it holds them. -/
theorem along_serving (serving : Serving efiConventionalMemory map d used next) (sizes : List Size) :
    Along (call efiConventionalMemory map) (CanServe efiConventionalMemory map)
        ⟨next, some (d, used)⟩ sizes ↔
      used + (sizes.map Size.bytes).sum ≤ d.bytes := by
  induction sizes generalizing next used with
  | nil => exact ⟨fun _ => serving.within, fun _ => trivial⟩
  | cons size rest ih =>
    rw [List.map_cons, List.sum_cons, ← Nat.add_assoc]
    constructor
    · rintro ⟨served, later⟩
      obtain ⟨moved, _, advanced⟩ := serving.advance served
      exact (ih advanced).mp (later _ (call_serving moved))
    · intro room
      have served : used + size.bytes ≤ d.bytes := by omega
      obtain ⟨moved, _, advanced⟩ := serving.advance served
      refine ⟨served, ?_⟩
      intro after called
      cases (call_serving moved).symm.trans called
      exact (ih advanced).mpr room

theorem along_start (sizes : List Size) :
    Along (call efiConventionalMemory map) (CanServe efiConventionalMemory map) start sizes ↔
      FirstRegionHolds efiConventionalMemory map sizes := by
  cases sizes with
  | nil => exact Iff.rfl
  | cons size rest =>
    constructor
    · rintro ⟨served, later⟩
      obtain ⟨d, found⟩ := Option.isSome_iff_exists.mp served
      have room := (along_serving (serving_first found) rest).mp (later _ (call_first found))
      exact ⟨d, found, room⟩
    · rintro ⟨d, found, room⟩
      refine ⟨Option.isSome_iff_exists.mpr ⟨d, found⟩, ?_⟩
      intro after called
      cases (call_first found).symm.trans called
      exact (along_serving (serving_first found) rest).mpr room

variable (efiConventionalMemory map)

/-- All calls of a run keep the promise exactly when the region found for the
first request holds the sizes of all of them. -/
theorem malloc_promise_iff (sizes : List Size) :
    Along (call efiConventionalMemory map) (Promise efiConventionalMemory map) start sizes ↔
      FirstRegionHolds efiConventionalMemory map sizes := by
  rw [← along_start]
  apply Along.congr (Sound efiConventionalMemory map)
  · intro session size sound
    exact promise_iff sound size
  · intro session size after sound served called
    exact call_sound sound served called
  · exact Sound.fresh

/-- One page of conventional memory at 0x1000. -/
def onePage : MemoryMap where
  memory := fun _ => ⟨7, 0x1000, 1⟩
  howManyEntries := 1
  descriptorSize := 48
  addressable := fun _ _ => show 0x1000 + 4096 * 1 ≤ 2 ^ 64 by decide
  disjoint := by omega

def oneHundred : Size := ⟨100, by decide⟩
def wholePage : Size := ⟨4096, by decide⟩

/-- The second request is bumped past the end of the page. -/
theorem second_request_leaves_region :
    ¬ Along (call 7 onePage) (Promise 7 onePage) start [oneHundred, wholePage] := by
  intro promise
  have second := promise.2 ⟨0x1064, some (⟨7, 0x1000, 1⟩, 100)⟩ rfl
  obtain ⟨d, member, _, inside⟩ := second.1.inside 0x1064 0x2064 rfl (by decide)
  obtain ⟨i, _, same⟩ := List.mem_map.mp member
  subst same
  have outside : ¬ 0x1064 + 4096 ≤ 0x1000 + 4096 * 1 := by decide
  exact outside inside.2

end SzOS.Efi.Memory
