import SzOS.Efi.MainLoop
import SzOS.Semantics.Checked

/-! The moving box of the animation loop, in exact integers.

`checkedRound` is one round of the loop on the box with every `int` operation checked.
It never overflows in the runs considered, and the words of `frame` are its integers.
-/

set_option autoImplicit false

namespace SzOS.Efi
open Semantics Hardware

/-! ## The round with checked operations -/

/-- The `int` variables of the animation. -/
structure IntBox where
  x : Int
  y : Int
  dx : Int
  dy : Int
  paused : Int
  indexAtualColor : Int

/-- `seen` is the key code for which the chain of comparisons takes its branch. -/
def checkedKey (seen : Option (BitVec 32)) (a : IntBox) : Option IntBox :=
  if seen = some espace then some { a with paused := if a.paused = 1 then 0 else 1 }
  else if seen = some upKey then (checked 32 (a.y - 10)).map fun y => { a with y }
  else if seen = some leftKey then (checked 32 (a.x - 10)).map fun x => { a with x }
  else if seen = some rightKey then (checked 32 (a.x + 10)).map fun x => { a with x }
  else if seen = some downKey then (checked 32 (a.y + 10)).map fun y => { a with y }
  else some a

def checkedClamp (extent coordinate : Int) : Option Int :=
  let coordinate := if coordinate < 0 then 0 else coordinate
  -- the difference is unsigned
  (checked 32 (coordinate + 60)).map fun far => if far > extent then extent - 60 else coordinate

def checkedHit (extent coordinate : Int) : Option Bool :=
  if coordinate ≤ 0 then some true
  else (checked 32 (coordinate + 60)).map fun far => far ≥ extent

def checkedTurn (speed : Int) : Option Int :=
  (checked 32 (-speed)).bind fun speed => checked 32 (speed + if speed > 0 then 1 else -1)

/-- The speed after the test for an edge, and whether it was hit. -/
def checkedBounce (extent coordinate speed : Int) : Option (Int × Bool) :=
  (checkedHit extent coordinate).bind fun hit =>
    if hit then (checkedTurn speed).map fun speed => (speed, true) else some (speed, false)

def checkedColor (hit : Bool) (index : Int) : Option Int :=
  if hit then (checked 32 (index + 1)).map fun next => if next ≥ 4 then 0 else next
  else some index

def checkedMove (width height : Int) (a : IntBox) : Option IntBox := do
  let x ← checked 32 (a.x + a.dx)
  let y ← checked 32 (a.y + a.dy)
  let (dx, hitX) ← checkedBounce width x a.dx
  let (dy, hitY) ← checkedBounce height y a.dy
  let indexAtualColor ← checkedColor (hitX || hitY) a.indexAtualColor
  some { a with x, y, dx, dy, indexAtualColor }

def checkedEnter (width height : Int) (seen : Option (BitVec 32)) (a : IntBox) : Option IntBox := do
  let a ← checkedKey seen a
  let x ← checkedClamp width a.x
  let y ← checkedClamp height a.y
  some { a with x, y }

def checkedRound (width height : Int) (seen : Option (BitVec 32)) (a : IntBox) : Option IntBox := do
  let a ← checkedEnter width height seen a
  if a.paused = 0 then checkedMove width height a else some a

/-! ## The words are these integers -/

def Animation.ints (a : Animation) : IntBox :=
  ⟨a.x.toInt, a.y.toInt, a.dx.toInt, a.dy.toInt, a.paused.toInt, a.indexAtualColor⟩

/-- The comparisons of `keyChain`, with the code of the branch that they take. -/
def keySeen (pending : Nat → List Interrupt) (access : Nat)
    (cases : List (BitVec 32 × (Animation → Animation))) (shared : Shared) : Option (BitVec 32) :=
  match cases with
  | [] => none
  | (code, _) :: rest =>
    let shared := shared.serveAll (pending access)
    if shared.globals.lastKey = code then some code else keySeen pending (access + 1) rest shared

theorem keyChain_seen (pending : Nat → List Interrupt) (access : Nat)
    (cases : List (BitVec 32 × (Animation → Animation))) (shared : Shared) (a : Animation) :
    (keySeen pending access cases shared = none ∧ (keyChain pending access cases shared a).2 = a) ∨
      ∃ branch ∈ cases, keySeen pending access cases shared = some branch.1 ∧
        (keyChain pending access cases shared a).2 = branch.2 a := by
  induction cases generalizing access shared with
  | nil => exact Or.inl ⟨rfl, rfl⟩
  | cons branch rest ih =>
    obtain ⟨code, act⟩ := branch
    unfold keyChain keySeen
    dsimp only
    split
    next => exact Or.inr ⟨(code, act), List.mem_cons_self, rfl, rfl⟩
    next =>
      refine (ih (access + 1) (shared.serveAll (pending access))).imp id ?_
      rintro ⟨branch, member, seen, acted⟩
      exact ⟨branch, List.mem_cons_of_mem _ member, seen, acted⟩

theorem boxSize_toInt : boxSize.toInt = 60 := rfl

/-- The loop's own pause flag is 0 or 1. -/
theorem toggled_toInt (paused : BitVec 32) :
    (if paused = 1 then 0 else 1 : BitVec 32).toInt = if paused.toInt = 1 then 0 else 1 := by
  have one : (1 : BitVec 32).toInt = 1 := rfl
  have same : paused = 1 ↔ paused.toInt = 1 := by rw [← one, BitVec.toInt_inj]
  by_cases isOne : paused = 1
  · rw [if_pos isOne, if_pos (same.mp isOne)]
    rfl
  · rw [if_neg isOne, if_neg (mt same.mpr isOne)]
    rfl

theorem checkedKey_refines {f : FrameState} {p : Pending} {next : IntBox}
    (ran : checkedKey (keySeen p.key 0 keyCases f.shared) f.animation.ints = some next) :
    (keyChain p.key 0 keyCases f.shared f.animation).2.ints = next := by
  have sum : ∀ {c : BitVec 32} {v : Int}, checked 32 (c.toInt + 10) = some v → (c + 10).toInt = v := by
    intro c v fits
    obtain ⟨range, rfl⟩ := checked_eq_some.mp fits
    exact toInt_add_of_inSigned range
  have difference : ∀ {c : BitVec 32} {v : Int}, checked 32 (c.toInt - 10) = some v →
      (c - 10).toInt = v := by
    intro c v fits
    obtain ⟨range, rfl⟩ := checked_eq_some.mp fits
    exact toInt_sub_of_inSigned range
  cases keyChain_seen p.key 0 keyCases f.shared f.animation with
  | inl unseen =>
    rw [unseen.1] at ran
    rw [unseen.2]
    exact Option.some.inj ran
  | inr seen =>
    obtain ⟨branch, member, code, acted⟩ := seen
    rw [code] at ran
    rw [acted]
    -- one branch of the chain after the other
    simp only [keyCases, List.mem_cons, List.not_mem_nil, or_false] at member
    rcases member with rfl | rfl | rfl | rfl | rfl
    · rw [checkedKey, if_pos rfl] at ran
      cases ran
      simp only [Animation.ints, toggled_toInt]
      rfl
    all_goals
      obtain ⟨v, fits, rfl⟩ := Option.map_eq_some_iff.mp ran
      simp only [Animation.ints]
    · rw [difference fits]
    · rw [difference fits]
    · rw [sum fits]
    · rw [sum fits]

/-- The extents of a screen that the loop computes with as `int` values. -/
def ScreenExtent (extent : BitVec 32) : Prop := 60 ≤ extent.toNat ∧ extent.toNat < 2 ^ 16

theorem ScreenExtent.toInt {extent : BitVec 32} (screen : ScreenExtent extent) :
    60 ≤ extent.toInt ∧ extent.toInt < 2 ^ 16 := by
  obtain ⟨wide, small⟩ := screen
  rw [BitVec.toInt_eq_toNat_of_lt (by omega)]
  omega

theorem checkedClamp_refines {extent coordinate : BitVec 32} (screen : ScreenExtent extent) {v : Int}
    (ran : checkedClamp extent.toInt coordinate.toInt = some v) :
    (clampCoordinate extent coordinate).toInt = v := by
  have bounds := screen.toInt
  have zero : (0 : BitVec 32).toInt = 0 := rfl
  have low : (if coordinate.slt 0 then 0 else coordinate).toInt =
      if coordinate.toInt < 0 then 0 else coordinate.toInt := by
    simp only [BitVec.slt_iff_toInt_lt, zero]
    split <;> rfl
  unfold checkedClamp at ran
  unfold clampCoordinate
  dsimp only at ran ⊢
  rw [← low] at ran
  generalize (if coordinate.slt 0 then 0 else coordinate) = c at ran ⊢
  obtain ⟨far, fits, rfl⟩ := Option.map_eq_some_iff.mp ran
  obtain ⟨range, rfl⟩ := checked_eq_some.mp fits
  have sum : (c + boxSize).toInt = c.toInt + 60 := toInt_add_of_inSigned range
  have edge : (extent - boxSize).toInt = extent.toInt - 60 := by
    apply toInt_sub_of_inSigned
    rw [boxSize_toInt]
    constructor <;> omega
  simp only [BitVec.slt_iff_toInt_lt, sum, gt_iff_lt]
  split
  · exact edge
  · rfl

theorem checkedHit_refines {extent coordinate : BitVec 32} {hit : Bool}
    (ran : checkedHit extent.toInt coordinate.toInt = some hit) : hitsEdge extent coordinate = hit := by
  have zero : (0 : BitVec 32).toInt = 0 := rfl
  unfold checkedHit at ran
  unfold hitsEdge
  by_cases low : coordinate.toInt ≤ 0
  · rw [if_pos low] at ran
    have sle : coordinate.sle 0 = true := by rw [BitVec.sle_iff_toInt_le, zero]; exact low
    rw [sle]
    exact Option.some.inj ran
  · rw [if_neg low] at ran
    have sle : coordinate.sle 0 = false := by
      rw [Bool.eq_false_iff, ne_eq, BitVec.sle_iff_toInt_le, zero]
      exact low
    obtain ⟨far, fits, rfl⟩ := Option.map_eq_some_iff.mp ran
    obtain ⟨range, rfl⟩ := checked_eq_some.mp fits
    have sum : (coordinate + boxSize).toInt = coordinate.toInt + 60 := toInt_add_of_inSigned range
    rw [sle, Bool.false_or, Bool.eq_iff_iff, BitVec.sle_iff_toInt_le, sum]
    simp

theorem checkedTurn_refines {speed : BitVec 32} {v : Int} (ran : checkedTurn speed.toInt = some v) :
    (turned speed).toInt = v := by
  have zero : (0 : BitVec 32).toInt = 0 := rfl
  obtain ⟨back, fits, ran⟩ := Option.bind_eq_some_iff.mp ran
  obtain ⟨range, rfl⟩ := checked_eq_some.mp fits
  have negated := toInt_neg_of_inSigned range
  obtain ⟨range, rfl⟩ := checked_eq_some.mp ran
  have step : (if BitVec.slt 0 (-speed) then (1 : BitVec 32) else -1).toInt =
      if -speed.toInt > 0 then 1 else -1 := by
    simp only [BitVec.slt_iff_toInt_lt, zero, negated, gt_iff_lt]
    split <;> rfl
  unfold turned
  dsimp only
  have exact : InSigned 32 ((-speed).toInt +
      (if BitVec.slt 0 (-speed) then (1 : BitVec 32) else -1).toInt) := by
    rw [negated, step]
    exact range
  rw [toInt_add_of_inSigned exact, negated, step]

theorem checkedBounce_refines {extent coordinate speed : BitVec 32} {v : Int} {hit : Bool}
    (ran : checkedBounce extent.toInt coordinate.toInt speed.toInt = some (v, hit)) :
    hitsEdge extent coordinate = hit ∧
      (if hitsEdge extent coordinate then turned speed else speed).toInt = v := by
  obtain ⟨found, edge, ran⟩ := Option.bind_eq_some_iff.mp ran
  rw [checkedHit_refines edge]
  cases found with
  | true =>
    rw [if_pos rfl] at ran ⊢
    obtain ⟨v, turn, same⟩ := Option.map_eq_some_iff.mp ran
    cases same
    exact ⟨rfl, checkedTurn_refines turn⟩
  | false =>
    cases ran
    exact ⟨rfl, rfl⟩

theorem checkedColor_refines {hit : Bool} {index : Nat} {v : Int}
    (ran : checkedColor hit index = some v) :
    ((if hit then if index + 1 ≥ listColors.length then 0 else index + 1 else index : Nat) : Int) = v := by
  have four : listColors.length = 4 := rfl
  unfold checkedColor at ran
  cases hit with
  | true =>
    rw [if_pos rfl] at ran
    obtain ⟨next, fits, rfl⟩ := Option.map_eq_some_iff.mp ran
    obtain ⟨_, rfl⟩ := checked_eq_some.mp fits
    rw [if_pos rfl, four]
    split <;> split <;> omega
  | false => exact Option.some.inj ran

theorem checkedMove_refines {d : Display} {a : Animation} {next : IntBox}
    (ran : checkedMove d.width.toInt d.height.toInt a.ints = some next) :
    (moveBox d a).ints = next := by
  obtain ⟨x, fitsX, ran⟩ := Option.bind_eq_some_iff.mp ran
  obtain ⟨y, fitsY, ran⟩ := Option.bind_eq_some_iff.mp ran
  obtain ⟨⟨dx, hitX⟩, bounceX, ran⟩ := Option.bind_eq_some_iff.mp ran
  obtain ⟨⟨dy, hitY⟩, bounceY, ran⟩ := Option.bind_eq_some_iff.mp ran
  obtain ⟨index, color, ran⟩ := Option.bind_eq_some_iff.mp ran
  cases ran
  obtain ⟨rangeX, rfl⟩ := checked_eq_some.mp fitsX
  obtain ⟨rangeY, rfl⟩ := checked_eq_some.mp fitsY
  have sumX : (a.x + a.dx).toInt = a.ints.x + a.ints.dx := toInt_add_of_inSigned rangeX
  have sumY : (a.y + a.dy).toInt = a.ints.y + a.ints.dy := toInt_add_of_inSigned rangeY
  rw [← sumX] at bounceX
  rw [← sumY] at bounceY
  obtain ⟨edgeX, rfl⟩ := checkedBounce_refines bounceX
  obtain ⟨edgeY, rfl⟩ := checkedBounce_refines bounceY
  rw [← edgeX, ← edgeY] at color
  simp only [Animation.ints, moveBox, checkedColor_refines color, sumX, sumY]

theorem checkedEnter_refines {d : Display} (wide : ScreenExtent d.width) (tall : ScreenExtent d.height)
    {f : FrameState} {p : Pending} {next : IntBox}
    (ran : checkedEnter d.width.toInt d.height.toInt (keySeen p.key 0 keyCases f.shared)
      f.animation.ints = some next) :
    (enterFrame d f p).2.ints = next := by
  obtain ⟨keyed, key, ran⟩ := Option.bind_eq_some_iff.mp ran
  obtain ⟨x, clampX, ran⟩ := Option.bind_eq_some_iff.mp ran
  obtain ⟨y, clampY, ran⟩ := Option.bind_eq_some_iff.mp ran
  cases ran
  cases checkedKey_refines key
  have right := checkedClamp_refines wide clampX
  have down := checkedClamp_refines tall clampY
  simp only [enterFrame, clampBox, Animation.ints, right, down]

/-! ## The invariant of the box -/

/-- The speeds count the hits, and the colour stays in its table. -/
structure Steady (a : IntBox) (hitsX hitsY : Nat) : Prop where
  dx : a.dx.natAbs = 4 + hitsX
  dy : a.dy.natAbs = 3 + hitsY
  color : 0 ≤ a.indexAtualColor ∧ a.indexAtualColor < 4

theorem Steady.congr {a b : IntBox} {hitsX hitsY : Nat} (steady : Steady a hitsX hitsY)
    (dx : b.dx = a.dx) (dy : b.dy = a.dy) (index : b.indexAtualColor = a.indexAtualColor) :
    Steady b hitsX hitsY where
  dx := by rw [dx, steady.dx]
  dy := by rw [dy, steady.dy]
  color := by
    rw [index]
    exact steady.color

/-- Between two rounds the box may be off the screen, by its speed at most. -/
structure Near (a : IntBox) (hitsX hitsY : Nat) : Prop where
  x : a.x.natAbs ≤ 2 ^ 16 + 4 + hitsX
  y : a.y.natAbs ≤ 2 ^ 16 + 4 + hitsY

structure OnScreen (width height : Int) (a : IntBox) : Prop where
  x : 0 ≤ a.x ∧ a.x ≤ width - 60
  y : 0 ≤ a.y ∧ a.y ≤ height - 60

theorem checkedKey_spec (seen : Option (BitVec 32)) {a : IntBox} (smallX : a.x.natAbs < 2 ^ 31 - 10)
    (smallY : a.y.natAbs < 2 ^ 31 - 10) :
    ∃ next, checkedKey seen a = some next ∧ next.dx = a.dx ∧ next.dy = a.dy ∧
      next.indexAtualColor = a.indexAtualColor ∧ next.x.natAbs ≤ a.x.natAbs + 10 ∧
      next.y.natAbs ≤ a.y.natAbs + 10 := by
  have fits : ∀ {c : Int}, c.natAbs < 2 ^ 31 - 10 →
      checked 32 (c - 10) = some (c - 10) ∧ checked 32 (c + 10) = some (c + 10) := by
    intro c small
    constructor <;> apply checked_of_inSigned <;> constructor <;> omega
  unfold checkedKey
  split
  · exact ⟨_, rfl, rfl, rfl, rfl, by simp, by simp⟩
  split
  · rw [(fits smallY).1]
    exact ⟨_, rfl, rfl, rfl, rfl, by simp, by simp only; omega⟩
  split
  · rw [(fits smallX).1]
    exact ⟨_, rfl, rfl, rfl, rfl, by simp only; omega, by simp⟩
  split
  · rw [(fits smallX).2]
    exact ⟨_, rfl, rfl, rfl, rfl, by simp only; omega, by simp⟩
  split
  · rw [(fits smallY).2]
    exact ⟨_, rfl, rfl, rfl, rfl, by simp, by simp only; omega⟩
  · exact ⟨_, rfl, rfl, rfl, rfl, by simp, by simp⟩

variable {extent coordinate : Int}

theorem checkedClamp_spec (coordinate : Int) (wide : 60 ≤ extent) (small : coordinate < 2 ^ 31 - 60) :
    ∃ v, checkedClamp extent coordinate = some v ∧ 0 ≤ v ∧ v ≤ extent - 60 := by
  unfold checkedClamp
  dsimp only
  generalize low : (if coordinate < 0 then 0 else coordinate) = c
  have bounds : 0 ≤ c ∧ c < 2 ^ 31 - 60 := by
    rw [← low]
    split <;> omega
  have fits : InSigned 32 (c + 60) := by constructor <;> omega
  rw [checked_of_inSigned fits]
  refine ⟨_, rfl, ?_⟩
  dsimp only
  split <;> omega

/-- Inside the screen only the edge ahead can be hit, and a hit turns the box back. -/
theorem checkedBounce_spec (speed : Int) (inside : 0 ≤ coordinate ∧ coordinate ≤ extent - 60)
    (small : extent < 2 ^ 16) (moving : speed ≠ 0) (slow : speed.natAbs < 2 ^ 30 + 4) :
    ∃ next hit, checkedBounce extent (coordinate + speed) speed = some (next, hit) ∧
      next.natAbs = speed.natAbs + hit.toNat ∧
      (coordinate + speed ≤ 0 → speed < 0 ∧ 0 < next) ∧
      (extent ≤ coordinate + speed + 60 → 0 < speed ∧ next < 0) := by
  have turn : ∃ next, checkedTurn speed = some next ∧ next.natAbs = speed.natAbs + 1 ∧
      (speed < 0 → 0 < next) ∧ (0 < speed → next < 0) := by
    have back : InSigned 32 (-speed) := by constructor <;> omega
    have faster : InSigned 32 (-speed + if -speed > 0 then 1 else -1) := by
      constructor <;> split <;> omega
    unfold checkedTurn
    rw [checked_of_inSigned back, Option.bind_some, checked_of_inSigned faster]
    refine ⟨_, rfl, ?_⟩
    split <;> omega
  obtain ⟨next, turned, quicker, toRight, toLeft⟩ := turn
  have fits : InSigned 32 (coordinate + speed + 60) := by constructor <;> omega
  unfold checkedBounce checkedHit
  by_cases left : coordinate + speed ≤ 0
  · rw [if_pos left]
    refine ⟨next, true, ?_, quicker, fun _ => ⟨by omega, toRight (by omega)⟩, fun _ => by omega⟩
    simp [turned]
  · rw [if_neg left, checked_of_inSigned fits]
    by_cases right : extent ≤ coordinate + speed + 60
    · refine ⟨next, true, ?_, quicker, fun _ => by omega, fun _ => ⟨by omega, toLeft (by omega)⟩⟩
      simp [right, turned]
    · refine ⟨speed, false, ?_, rfl, fun _ => by omega, fun _ => by omega⟩
      simp [right]

theorem checkedColor_spec (hit : Bool) {index : Int} (inTable : 0 ≤ index ∧ index < 4) :
    ∃ next, checkedColor hit index = some next ∧ 0 ≤ next ∧ next < 4 := by
  have fits : InSigned 32 (index + 1) := by constructor <;> omega
  unfold checkedColor
  cases hit with
  | true =>
    rw [if_pos rfl, checked_of_inSigned fits]
    refine ⟨_, rfl, ?_⟩
    dsimp only
    split <;> omega
  | false => exact ⟨index, rfl, inTable⟩

variable {width height : Int} {a : IntBox} {hitsX hitsY : Nat}

theorem checkedEnter_spec (wide : 60 ≤ width) (tall : 60 ≤ height) (seen : Option (BitVec 32))
    (near : Near a hitsX hitsY) (fewX : hitsX < 2 ^ 30) (fewY : hitsY < 2 ^ 30) :
    ∃ entered, checkedEnter width height seen a = some entered ∧ OnScreen width height entered ∧
      entered.dx = a.dx ∧ entered.dy = a.dy ∧ entered.indexAtualColor = a.indexAtualColor := by
  have nearX := near.x
  have nearY := near.y
  obtain ⟨keyed, key, dx, dy, index, x, y⟩ := checkedKey_spec seen (a := a) (by omega) (by omega)
  obtain ⟨left, clampX, insideX⟩ := checkedClamp_spec keyed.x wide (by omega)
  obtain ⟨top, clampY, insideY⟩ := checkedClamp_spec keyed.y tall (by omega)
  refine ⟨{ keyed with x := left, y := top }, ?_, ⟨insideX, insideY⟩, dx, dy, index⟩
  simp [checkedEnter, key, clampX, clampY]

theorem checkedMove_spec (narrow : width < 2 ^ 16) (low : height < 2 ^ 16)
    (steady : Steady a hitsX hitsY) (onScreen : OnScreen width height a)
    (fewX : hitsX < 2 ^ 30) (fewY : hitsY < 2 ^ 30) :
    ∃ next hitX hitY, checkedMove width height a = some next ∧
      checkedBounce width (a.x + a.dx) a.dx = some (next.dx, hitX) ∧
      checkedBounce height (a.y + a.dy) a.dy = some (next.dy, hitY) ∧
      Steady next (hitsX + hitX.toNat) (hitsY + hitY.toNat) ∧
      Near next (hitsX + hitX.toNat) (hitsY + hitY.toNat) := by
  obtain ⟨dx, dy, color⟩ := steady
  obtain ⟨insideX, insideY⟩ := onScreen
  obtain ⟨speedX, hitX, bounceX, fasterX, _, _⟩ :=
    checkedBounce_spec a.dx insideX narrow (by omega) (by omega)
  obtain ⟨speedY, hitY, bounceY, fasterY, _, _⟩ :=
    checkedBounce_spec a.dy insideY low (by omega) (by omega)
  obtain ⟨index, colored, inTable⟩ := checkedColor_spec (hitX || hitY) color
  have fitsX : InSigned 32 (a.x + a.dx) := by constructor <;> omega
  have fitsY : InSigned 32 (a.y + a.dy) := by constructor <;> omega
  refine ⟨⟨a.x + a.dx, a.y + a.dy, speedX, speedY, a.paused, index⟩, hitX, hitY, ?_, bounceX, bounceY,
    ⟨?_, ?_, inTable⟩, ?_, ?_⟩
  · simp [checkedMove, checked_of_inSigned fitsX, checked_of_inSigned fitsY, bounceX, bounceY, colored]
  · rw [fasterX, dx, Nat.add_assoc]
  · rw [fasterY, dy, Nat.add_assoc]
  · simp only
    omega
  · simp only
    omega

/-! ## Runs of the loop -/

/-- The loop's state with the hits so far, of the left and right and of the top and bottom edge. -/
structure Tracked where
  state : FrameState
  hitsX : Nat
  hitsY : Nat

def hitOf (extent coordinate speed paused : BitVec 32) : Bool :=
  paused = 0 && hitsEdge extent (coordinate + speed)

def tracked (d : Display) (t : Tracked) (p : Pending) : Option Tracked :=
  (frame d t.state p).map fun state =>
    let a := (enterFrame d t.state p).2
    { state
      hitsX := t.hitsX + (hitOf d.width a.x a.dx a.paused).toNat
      hitsY := t.hitsY + (hitOf d.height a.y a.dy a.paused).toNat }

def trackedStart (d : Display) (pics : PicPair) (memory : Pixels) : Tracked :=
  ⟨mainStart d pics memory, 0, 0⟩

/-- An edge is hit only by a box on its way to it, which then turns round. -/
structure Inwards (extent coordinate speed : BitVec 32) : Prop where
  low : (coordinate + speed).toInt ≤ 0 → speed.toInt < 0 ∧ 0 < (turned speed).toInt
  high : extent.toInt ≤ (coordinate + speed).toInt + 60 → 0 < speed.toInt ∧ (turned speed).toInt < 0

structure RoundRight (d : Display) (t : Tracked) (p : Pending) : Prop where
  exact : ∃ box, checkedRound d.width.toInt d.height.toInt (keySeen p.key 0 keyCases t.state.shared)
      t.state.animation.ints = some box ∧
    ∀ next, frame d t.state p = some next → next.animation.ints = box
  drawn : (enterFrame d t.state p).2.paused = 0 →
    OnScreen d.width.toInt d.height.toInt (enterFrame d t.state p).2.ints
  turns : (enterFrame d t.state p).2.paused = 0 →
    let a := (enterFrame d t.state p).2
    Inwards d.width a.x a.dx ∧ Inwards d.height a.y a.dy
  before : Steady t.state.animation.ints t.hitsX t.hitsY
  after : ∀ next, tracked d t p = some next →
    Steady next.state.animation.ints next.hitsX next.hitsY

theorem frame_animation {d : Display} {f next : FrameState} {p : Pending}
    (ran : frame d f p = some next) :
    next.animation = if (enterFrame d f p).2.paused = 0 then moveBox d (enterFrame d f p).2
      else (enterFrame d f p).2 := by
  unfold frame at ran
  dsimp only at ran
  split at ran
  next running =>
    rw [if_pos running]
    obtain ⟨_, _, same⟩ := Option.bind_eq_some_iff.mp ran
    cases same
    rfl
  next paused =>
    rw [if_neg paused]
    cases ran
    rfl

theorem inwards_of_inside {extent coordinate speed : BitVec 32} (screen : ScreenExtent extent)
    (inside : 0 ≤ coordinate.toInt ∧ coordinate.toInt ≤ extent.toInt - 60) (moving : speed.toInt ≠ 0)
    (slow : speed.toInt.natAbs < 2 ^ 30 + 4) : Inwards extent coordinate speed := by
  have bounds := screen.toInt
  obtain ⟨next, hit, bounce, _, low, high⟩ := checkedBounce_spec _ inside bounds.2 moving slow
  have sum : (coordinate + speed).toInt = coordinate.toInt + speed.toInt := by
    apply toInt_add_of_inSigned
    constructor <;> omega
  rw [← sum] at bounce low high
  obtain ⟨_, chosen⟩ := checkedBounce_refines bounce
  -- a speed that changed its sign is the one after the turn
  split at chosen
  next => exact ⟨fun left => chosen ▸ low left, fun right => chosen ▸ high right⟩
  next => exact ⟨fun left => by have := low left; omega, fun right => by have := high right; omega⟩

/-- What holds between two rounds. -/
structure Sound (t : Tracked) : Prop where
  steady : Steady t.state.animation.ints t.hitsX t.hitsY
  near : Near t.state.animation.ints t.hitsX t.hitsY

theorem trackedStart_sound (d : Display) (pics : PicPair) (memory : Pixels) :
    Sound (trackedStart d pics memory) := by
  constructor <;> constructor <;> simp only [trackedStart, mainStart, Animation.ints] <;> decide

section Rounds

variable {d : Display} (wide : ScreenExtent d.width) (tall : ScreenExtent d.height) {t : Tracked}

include wide tall

/-- A round that draws: the hits counted are those of the exact round. -/
theorem moved_spec {a : Animation} {hitsX hitsY : Nat} (steady : Steady a.ints hitsX hitsY)
    (onScreen : OnScreen d.width.toInt d.height.toInt a.ints) (fewX : hitsX < 2 ^ 30)
    (fewY : hitsY < 2 ^ 30) :
    ∃ box, checkedMove d.width.toInt d.height.toInt a.ints = some box ∧ (moveBox d a).ints = box ∧
      Steady box (hitsX + (hitsEdge d.width (a.x + a.dx)).toNat)
        (hitsY + (hitsEdge d.height (a.y + a.dy)).toNat) ∧
      Near box (hitsX + (hitsEdge d.width (a.x + a.dx)).toNat)
        (hitsY + (hitsEdge d.height (a.y + a.dy)).toNat) ∧
      Inwards d.width a.x a.dx ∧ Inwards d.height a.y a.dy := by
  have boundsX := wide.toInt
  have boundsY := tall.toInt
  have dx : a.dx.toInt.natAbs = 4 + hitsX := steady.dx
  have dy : a.dy.toInt.natAbs = 3 + hitsY := steady.dy
  have insideX : 0 ≤ a.x.toInt ∧ a.x.toInt ≤ d.width.toInt - 60 := onScreen.x
  have insideY : 0 ≤ a.y.toInt ∧ a.y.toInt ≤ d.height.toInt - 60 := onScreen.y
  obtain ⟨box, hitX, hitY, moved, bounceX, bounceY, steadyNext, nearNext⟩ :=
    checkedMove_spec boundsX.2 boundsY.2 steady onScreen fewX fewY
  have sumX : (a.x + a.dx).toInt = a.ints.x + a.ints.dx := by
    apply toInt_add_of_inSigned
    constructor <;> omega
  have sumY : (a.y + a.dy).toInt = a.ints.y + a.ints.dy := by
    apply toInt_add_of_inSigned
    constructor <;> omega
  rw [← sumX] at bounceX
  rw [← sumY] at bounceY
  rw [(checkedBounce_refines bounceX).1, (checkedBounce_refines bounceY).1]
  exact ⟨box, moved, checkedMove_refines moved, steadyNext, nearNext,
    inwards_of_inside wide insideX (by omega) (by omega),
    inwards_of_inside tall insideY (by omega) (by omega)⟩

theorem entered_spec (sound : Sound t) (fewX : t.hitsX < 2 ^ 30) (fewY : t.hitsY < 2 ^ 30)
    (p : Pending) :
    checkedEnter d.width.toInt d.height.toInt (keySeen p.key 0 keyCases t.state.shared)
        t.state.animation.ints = some (enterFrame d t.state p).2.ints ∧
      OnScreen d.width.toInt d.height.toInt (enterFrame d t.state p).2.ints ∧
      Steady (enterFrame d t.state p).2.ints t.hitsX t.hitsY := by
  obtain ⟨entered, enter, onScreen, dx, dy, index⟩ := checkedEnter_spec wide.toInt.1 tall.toInt.1
    (keySeen p.key 0 keyCases t.state.shared) sound.near fewX fewY
  cases checkedEnter_refines wide tall enter
  exact ⟨enter, onScreen, sound.steady.congr dx dy index⟩

/-- The exact round, and what it leaves for the next one. -/
theorem box_spec (sound : Sound t) (fewX : t.hitsX < 2 ^ 30) (fewY : t.hitsY < 2 ^ 30) (p : Pending) :
    ∃ box, checkedRound d.width.toInt d.height.toInt (keySeen p.key 0 keyCases t.state.shared)
        t.state.animation.ints = some box ∧
      (∀ next, frame d t.state p = some next → next.animation.ints = box) ∧
      ∀ next, tracked d t p = some next →
        Steady box next.hitsX next.hitsY ∧ Near box next.hitsX next.hitsY := by
  obtain ⟨enter, onScreen, steady⟩ := entered_spec wide tall sound fewX fewY p
  have zero : (0 : BitVec 32).toInt = 0 := rfl
  unfold checkedRound
  rw [enter, Option.bind_eq_bind, Option.bind_some]
  by_cases running : (enterFrame d t.state p).2.paused = 0
  · obtain ⟨box, moved, same, steadyNext, nearNext, _⟩ := moved_spec wide tall steady onScreen fewX fewY
    have paused : (enterFrame d t.state p).2.ints.paused = 0 := congrArg BitVec.toInt running
    rw [if_pos paused]
    refine ⟨box, moved, ?_, ?_⟩
    · intro next ran
      rw [frame_animation ran, if_pos running, same]
    · intro next ran
      obtain ⟨state, _, rfl⟩ := Option.map_eq_some_iff.mp ran
      simp only [hitOf, running, decide_true, Bool.true_and]
      exact ⟨steadyNext, nearNext⟩
  · have paused : ¬ (enterFrame d t.state p).2.ints.paused = 0 := by
      intro still
      exact running (BitVec.toInt_inj.mp (still.trans zero.symm))
    rw [if_neg paused]
    refine ⟨_, rfl, ?_, ?_⟩
    · intro next ran
      rw [frame_animation ran, if_neg running]
    · intro next ran
      obtain ⟨state, _, rfl⟩ := Option.map_eq_some_iff.mp ran
      have boundsX := wide.toInt
      have boundsY := tall.toInt
      have insideX := onScreen.x
      have insideY := onScreen.y
      simp only [hitOf, running, decide_false, Bool.false_and, Bool.toNat_false, Nat.add_zero]
      exact ⟨steady, by omega, by omega⟩

theorem round_spec (sound : Sound t) (fewX : t.hitsX < 2 ^ 30) (fewY : t.hitsY < 2 ^ 30) (p : Pending) :
    RoundRight d t p ∧ ∀ next, tracked d t p = some next → Sound next := by
  obtain ⟨box, exactly, framed, after⟩ := box_spec wide tall sound fewX fewY p
  obtain ⟨_, onScreen, steady⟩ := entered_spec wide tall sound fewX fewY p
  obtain ⟨_, _, _, _, _, turnsX, turnsY⟩ := moved_spec wide tall steady onScreen fewX fewY
  have next_ints : ∀ next, tracked d t p = some next → next.state.animation.ints = box := by
    intro next ran
    obtain ⟨state, drawn, rfl⟩ := Option.map_eq_some_iff.mp ran
    exact framed state drawn
  refine ⟨⟨⟨box, exactly, framed⟩, fun _ => onScreen, fun _ => ⟨turnsX, turnsY⟩, sound.steady, ?_⟩, ?_⟩
  · intro next ran
    rw [next_ints next ran]
    exact (after next ran).1
  · intro next ran
    constructor <;> rw [next_ints next ran]
    · exact (after next ran).1
    · exact (after next ran).2

end Rounds

theorem tracked_hits {d : Display} {t next : Tracked} {p : Pending} (ran : tracked d t p = some next) :
    next.hitsX ≤ t.hitsX + 1 ∧ next.hitsY ≤ t.hitsY + 1 := by
  obtain ⟨state, _, rfl⟩ := Option.map_eq_some_iff.mp ran
  exact ⟨Nat.add_le_add_left (Bool.toNat_le _) _, Nat.add_le_add_left (Bool.toNat_le _) _⟩

/-- In every run from the start of the loop no `int` operation overflows, the box is drawn
on the screen and turns inwards at its edges, and its speeds count its hits. -/
theorem box_bounces (d : Display) (wide : ScreenExtent d.width) (tall : ScreenExtent d.height)
    (pics : PicPair) (memory : Pixels) (pending : List Pending) (few : pending.length < 2 ^ 30) :
    Along (tracked d) (RoundRight d) (trackedStart d pics memory) pending := by
  suffices rounds : ∀ t, Sound t → t.hitsX + pending.length ≤ 2 ^ 30 →
      t.hitsY + pending.length ≤ 2 ^ 30 → Along (tracked d) (RoundRight d) t pending from
    rounds _ (trackedStart_sound d pics memory) (by simp only [trackedStart]; omega)
      (by simp only [trackedStart]; omega)
  clear few
  induction pending with
  | nil => exact fun _ _ _ _ => trivial
  | cons p rest ih =>
    intro t sound roomX roomY
    rw [List.length_cons] at roomX roomY
    obtain ⟨right, kept⟩ := round_spec wide tall sound (by omega) (by omega) p
    refine ⟨right, ?_⟩
    intro next ran
    have hits := tracked_hits ran
    exact ih next (kept next ran) (by omega) (by omega)

theorem box_bounces_quiet :
    Along (tracked display800x600) (RoundRight display800x600)
      (trackedStart display800x600 remapped fun _ => 0) [quiet, quiet] :=
  box_bounces display800x600 (by unfold ScreenExtent; decide) (by unfold ScreenExtent; decide) remapped
    (fun _ => 0) [quiet, quiet] (by decide)

end SzOS.Efi
