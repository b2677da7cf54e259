import Mathlib.Algebra.Group.Int.Defs
import SzOS.Efi.Graphics
import SzOS.Efi.Interrupts

/-! The animation loop of the EFI kernel's `main` (main.c), with device interrupts
between its accesses to the volatile variables.

A frame draws at fixed places, at the box, which it has just clamped, and at the
cursor, which the mouse handler keeps from going negative and nothing keeps on the
screen.
-/

set_option autoImplicit false

namespace SzOS.Efi
open Semantics Hardware

/-! ## Interrupts -/

/-- What the handlers share with the loop. -/
structure Shared where
  globals : Globals
  pics : PicPair

inductive Interrupt where
  | time
  | keyboard (data : Byte)
  | mouse (data : Byte)

def Interrupt.serve (shared : Shared) : Interrupt → Shared
  | .time =>
    let (globals, pics) := handlerTime shared.globals shared.pics
    { globals, pics }
  | .keyboard data =>
    let (globals, pics) := handlerKeyboard data shared.globals shared.pics
    { globals, pics }
  | .mouse data =>
    let (globals, pics) := handlerMouse data shared.globals shared.pics
    { globals, pics }

def Shared.serveAll (shared : Shared) (pending : List Interrupt) : Shared :=
  pending.foldl Interrupt.serve shared

/-- The interrupts served in one frame, each list just before an access that the
source makes: the comparisons and clearing of `g_last_key`, the loads of the cursor
and of `g_ticks`, and the polls of `delay_real`. -/
structure Pending where
  key : Nat → List Interrupt
  mouseX : List Interrupt
  mouseY : List Interrupt
  ticks : List Interrupt
  delayStart : List Interrupt
  delay : List (List Interrupt)

/-! ## The box -/

structure Animation where
  x : BitVec 32
  y : BitVec 32
  dx : BitVec 32
  dy : BitVec 32
  paused : BitVec 32
  indexAtualColor : Nat

def boxSize : BitVec 32 := 60
def listColors : List (BitVec 32) := [0x00E67E22, 0x003498DB, 0x002ECC71, 0x009B59B6]

def upKey : BitVec 32 := 72
def downKey : BitVec 32 := 80
def leftKey : BitVec 32 := 75
def rightKey : BitVec 32 := 77
def espace : BitVec 32 := 57

/-- The branches of the chain of comparisons, in its order. -/
def keyCases : List (BitVec 32 × (Animation → Animation)) :=
  [(espace, fun a => { a with paused := if a.paused = 1 then 0 else 1 }),
   (upKey, fun a => { a with y := a.y - 10 }),
   (leftKey, fun a => { a with x := a.x - 10 }),
   (rightKey, fun a => { a with x := a.x + 10 }),
   (downKey, fun a => { a with y := a.y + 10 })]

/-- `if (g_last_key == code) { ...; g_last_key = 0; } else ...`: each comparison loads
the variable again. -/
def keyChain (pending : Nat → List Interrupt) (access : Nat)
    (cases : List (BitVec 32 × (Animation → Animation))) (shared : Shared) (a : Animation) :
    Shared × Animation :=
  match cases with
  | [] => (shared, a)
  | (code, act) :: rest =>
    let shared := shared.serveAll (pending access)
    -- a key stored from here to the clearing is lost
    if shared.globals.lastKey = code then
      let shared := shared.serveAll (pending (access + 1))
      ({ shared with globals := { shared.globals with lastKey := 0 } }, act a)
    else keyChain pending (access + 1) rest shared a

def clampCoordinate (extent coordinate : BitVec 32) : BitVec 32 :=
  let coordinate := if coordinate.slt 0 then 0 else coordinate
  if extent.slt (coordinate + boxSize) then extent - boxSize else coordinate

def hitsEdge (extent coordinate : BitVec 32) : Bool :=
  coordinate.sle 0 || extent.sle (coordinate + boxSize)

def turned (speed : BitVec 32) : BitVec 32 :=
  let speed := -speed
  speed + (if BitVec.slt 0 speed then 1 else -1)

/-- What `main` reads from the graphics protocol, the buffer it allocates and the logo. -/
structure Display where
  width : BitVec 32
  height : BitVec 32
  pixelsPerLine : BitVec 32
  framebuffer : Address
  bufferRasc : Address
  gimpImage : GimpImage

def Display.globals (d : Display) : GraphicsGlobals :=
  { framebuffer := d.framebuffer, pixelsPerLine := d.pixelsPerLine, drawTarget := d.bufferRasc }

def Display.sizeBuffer (d : Display) : BitVec 32 := d.height * (d.pixelsPerLine * 4)

def clampBox (d : Display) (a : Animation) : Animation :=
  { a with x := clampCoordinate d.width a.x, y := clampCoordinate d.height a.y }

def moveBox (d : Display) (a : Animation) : Animation :=
  let x := a.x + a.dx
  let y := a.y + a.dy
  let hitX := hitsEdge d.width x
  let hitY := hitsEdge d.height y
  let next := a.indexAtualColor + 1
  { a with
    x, y
    dx := if hitX then turned a.dx else a.dx
    dy := if hitY then turned a.dy else a.dy
    indexAtualColor :=
      if hitX || hitY then if next ≥ listColors.length then 0 else next else a.indexAtualColor }

/-! ## A frame -/

structure FrameState where
  shared : Shared
  animation : Animation
  memory : Pixels

/-- The frame up to the test of `paused`. -/
def enterFrame (d : Display) (f : FrameState) (p : Pending) : Shared × Animation :=
  let (shared, a) := keyChain p.key 0 keyCases f.shared f.animation
  (shared, clampBox d a)

def clearBuffer (d : Display) : List PixelStore :=
  (List.range d.height.toNat).flatMap fun py =>
    (List.range d.width.toNat).map fun px =>
      drawPixel d.framebuffer (BitVec.ofNat 32 px) (BitVec.ofNat 32 py) d.pixelsPerLine 0x00000000

/-- The two arguments are loaded from left to right. -/
def readCursor (shared : Shared) (p : Pending) : BitVec 32 × BitVec 32 × Shared :=
  let shared := shared.serveAll p.mouseX
  let x := shared.globals.mouseX
  let shared := shared.serveAll p.mouseY
  (x, shared.globals.mouseY, shared)

def drawFrame (d : Display) (a : Animation) (shared : Shared) (p : Pending) :
    List PixelStore × Shared :=
  let (mouseX, mouseY, shared) := readCursor shared p
  let shared := shared.serveAll p.ticks
  let color := listColors.getD a.indexAtualColor 0
  (clearBuffer d ++
    (drawGimpImage d.gimpImage d.bufferRasc 40 50 d.pixelsPerLine ++
      (drawBox d.globals d.bufferRasc a.x a.y boxSize d.pixelsPerLine color ++
        (drawBox d.globals d.bufferRasc mouseX mouseY 8 d.pixelsPerLine 0x00FFFFFF ++
          drawNumber d.globals (shared.globals.ticks.setWidth 32) 10 10 0x00FFFFFF))),
    shared)

/-- `none` is a wait that has not ended within these polls. -/
def pollTicks (ticksInitial ticksForWait : BitVec 64) :
    List (List Interrupt) → Shared → Option Shared
  | [], _ => none
  | pending :: rest, shared =>
    let shared := shared.serveAll pending
    if shared.globals.ticks - ticksInitial < ticksForWait then
      pollTicks ticksInitial ticksForWait rest shared
    else some shared

def delayReal (ticksForWait : BitVec 64) (p : Pending) (shared : Shared) : Option Shared :=
  let shared := shared.serveAll p.delayStart
  pollTicks shared.globals.ticks ticksForWait p.delay shared

/-- One round of `while (1)`. -/
def frame (d : Display) (f : FrameState) (p : Pending) : Option FrameState :=
  let (shared, a) := enterFrame d f p
  if a.paused = 0 then do
    let (stores, shared) := drawFrame d a shared p
    -- the wait comes after the copy, so a frame has drawn even if it never ends
    let memory := copyMemory d.framebuffer d.bufferRasc d.sizeBuffer (d.globals.paint stores f.memory)
    let shared ← delayReal 10 p shared
    some { shared, animation := moveBox d a, memory }
  else some { f with shared, animation := a }

/-- The stores of a frame, made before its wait. -/
def frameStores (d : Display) (f : FrameState) (p : Pending) : List PixelStore :=
  let (shared, a) := enterFrame d f p
  if a.paused = 0 then (drawFrame d a shared p).1 else []

/-- The state in which `main` enters the loop. -/
def mainStart (d : Display) (pics : PicPair) (memory : Pixels) : FrameState where
  shared :=
    { globals := mouseInitState (d.width / 2) (d.height / 2)
        { ticks := 0, lastKey := 0, mouseX := 0, mouseY := 0, byteIndex := 0, packet := fun _ => 0 }
      pics }
  animation := { x := 100, y := 100, dx := 4, dy := 3, paused := 0, indexAtualColor := 0 }
  memory

/-! ## Where a frame draws -/

/-- A key moves a coordinate by at most ten, and the clamp adds the size of the box to it. -/
def MovesInInt (coordinate : BitVec 32) : Prop :=
  -(2 ^ 31) + 10 ≤ coordinate.toInt ∧ coordinate.toInt + 70 < 2 ^ 31

instance (coordinate : BitVec 32) : Decidable (MovesInInt coordinate) :=
  inferInstanceAs (Decidable (_ ∧ _))

theorem keyChain_animation (pending : Nat → List Interrupt) (access : Nat)
    (cases : List (BitVec 32 × (Animation → Animation))) (shared : Shared) (a : Animation) :
    (keyChain pending access cases shared a).2 = a ∨
      ∃ branch ∈ cases, (keyChain pending access cases shared a).2 = branch.2 a := by
  induction cases generalizing access shared with
  | nil => exact Or.inl rfl
  | cons branch rest ih =>
    obtain ⟨code, act⟩ := branch
    unfold keyChain
    dsimp only
    split
    next => exact Or.inr ⟨(code, act), List.mem_cons_self, rfl⟩
    next =>
      cases ih (access + 1) (shared.serveAll (pending access)) with
      | inl same => exact Or.inl same
      | inr acted =>
        obtain ⟨branch, member, acted⟩ := acted
        exact Or.inr ⟨branch, List.mem_cons_of_mem _ member, acted⟩

/-- A coordinate to which the box size can be added. -/
def RoomForBox (coordinate : BitVec 32) : Prop := coordinate.toInt + 60 < 2 ^ 31

theorem MovesInInt.room {coordinate moved : BitVec 32} (range : MovesInInt coordinate)
    (step : moved = coordinate ∨ moved = coordinate - 10 ∨ moved = coordinate + 10) :
    RoomForBox moved := by
  obtain ⟨low, high⟩ := range
  unfold RoomForBox
  have ten : (10 : BitVec 32).toInt = 10 := by decide
  rcases step with rfl | rfl | rfl
  · omega
  · rw [BitVec.toInt_sub, ten, Int.bmod_eq_of_le (by omega) (by omega)]
    omega
  · rw [BitVec.toInt_add, ten, Int.bmod_eq_of_le (by omega) (by omega)]
    omega

theorem keyed_room {f : FrameState} (p : Pending) (rangeX : MovesInInt f.animation.x)
    (rangeY : MovesInInt f.animation.y) :
    RoomForBox (keyChain p.key 0 keyCases f.shared f.animation).2.x ∧
      RoomForBox (keyChain p.key 0 keyCases f.shared f.animation).2.y := by
  cases keyChain_animation p.key 0 keyCases f.shared f.animation with
  | inl same =>
    rw [same]
    exact ⟨rangeX.room (Or.inl rfl), rangeY.room (Or.inl rfl)⟩
  | inr acted =>
    obtain ⟨branch, member, acted⟩ := acted
    rw [acted]
    -- one branch of the chain after the other
    simp only [keyCases, List.mem_cons, List.not_mem_nil, or_false] at member
    rcases member with rfl | rfl | rfl | rfl | rfl
    · exact ⟨rangeX.room (Or.inl rfl), rangeY.room (Or.inl rfl)⟩
    · exact ⟨rangeX.room (Or.inl rfl), rangeY.room (Or.inr (Or.inl rfl))⟩
    · exact ⟨rangeX.room (Or.inr (Or.inl rfl)), rangeY.room (Or.inl rfl)⟩
    · exact ⟨rangeX.room (Or.inr (Or.inr rfl)), rangeY.room (Or.inl rfl)⟩
    · exact ⟨rangeX.room (Or.inl rfl), rangeY.room (Or.inr (Or.inr rfl))⟩

theorem boxSize_toNat : boxSize.toNat = 60 := rfl

/-- The coordinate after the first clamp. -/
theorem clampLow_small {coordinate : BitVec 32} (room : RoomForBox coordinate) :
    (if coordinate.slt 0 then 0 else coordinate).toNat + 60 < 2 ^ 31 := by
  unfold RoomForBox at room
  split
  next => decide
  next positive =>
    rw [BitVec.slt_iff_toInt_lt] at positive
    have zero : (0 : BitVec 32).toInt = 0 := by decide
    rw [zero] at positive
    have same := BitVec.toInt_eq_toNat_cond coordinate
    split at same <;> omega

theorem clampCoordinate_fits {extent coordinate : BitVec 32} (tall : 60 ≤ extent.toNat)
    (room : RoomForBox coordinate) :
    (clampCoordinate extent coordinate).toNat + 60 ≤ extent.toNat := by
  have small := clampLow_small room
  unfold clampCoordinate
  dsimp only
  generalize (if coordinate.slt 0 then 0 else coordinate) = c at small
  have sum : (c + boxSize).toInt = c.toNat + 60 := by
    have plain : (c + boxSize).toNat = c.toNat + 60 := by
      rw [BitVec.toNat_add, boxSize_toNat]
      exact Nat.mod_eq_of_lt (by omega)
    rw [BitVec.toInt_eq_toNat_of_lt (by omega), plain]
    rfl
  -- clamped to the far edge, or already left of it
  split
  next =>
    have enough : boxSize ≤ extent := BitVec.le_def.mpr tall
    rw [BitVec.toNat_sub_of_le enough, boxSize_toNat]
    omega
  next fits =>
    rw [BitVec.slt_iff_toInt_lt, sum] at fits
    have same := BitVec.toInt_eq_toNat_cond extent
    split at same <;> omega

/-- The screens that the loop is written for. -/
structure Display.Suits (d : Display) : Prop where
  wide : 100 ≤ d.width.toNat
  tall : 60 ≤ d.height.toNat
  stride : d.width.toNat ≤ d.pixelsPerLine.toNat
  logoWidth : 40 + d.gimpImage.width.toNat ≤ d.width.toNat
  logoHeight : 50 + d.gimpImage.height.toNat ≤ d.height.toNat

def Display.extent (d : Display) : Nat := d.height.toNat * d.pixelsPerLine.toNat

/-- The last pixel of the cursor comes before the end of the buffer. -/
structure CursorFits (d : Display) (x y : BitVec 32) : Prop where
  column : x.toNat + 8 ≤ 2 ^ 31
  pixel : (y.toNat + 7) * d.pixelsPerLine.toNat + (x.toNat + 7) < d.extent

section Frame

variable {d : Display}

theorem Display.Suits.row_inside (suits : d.Suits) {row col : Nat} (inRow : row < d.height.toNat)
    (inColumn : col < d.pixelsPerLine.toNat) : row * d.pixelsPerLine.toNat + col < d.extent := by
  have _ := suits.stride
  have below : (row + 1) * d.pixelsPerLine.toNat ≤ d.extent :=
    Nat.mul_le_mul_right d.pixelsPerLine.toNat inRow
  rw [Nat.add_mul] at below
  omega

theorem clearBuffer_inside (suits : d.Suits) (narrow : d.width.toNat ≤ 2 ^ 31) :
    AllInside d.extent (clearBuffer d) := by
  intro store member
  obtain ⟨py, inRow, member⟩ := List.mem_flatMap.mp member
  obtain ⟨px, inColumn, rfl⟩ := List.mem_map.mp member
  have below := List.mem_range.mp inRow
  have left := List.mem_range.mp inColumn
  have row : (BitVec.ofNat 32 py).toNat = py :=
    Nat.mod_eq_of_lt (Nat.lt_trans below d.height.isLt)
  have column : (BitVec.ofNat 32 px).toNat = px :=
    Nat.mod_eq_of_lt (Nat.lt_trans left d.width.isLt)
  apply drawPixel_inside
  · rw [column]
    omega
  · rw [row, column]
    exact suits.row_inside below (Nat.lt_of_lt_of_le left suits.stride)

theorem logo_inside (suits : d.Suits) :
    AllInside d.extent (drawGimpImage d.gimpImage d.bufferRasc 40 50 d.pixelsPerLine) := by
  have forty : (40 : BitVec 32).toNat = 40 := rfl
  have fifty : (50 : BitVec 32).toNat = 50 := rfl
  have width := suits.logoWidth
  have height := suits.logoHeight
  have stride := suits.stride
  have widthBound := d.width.isLt
  have heightBound := d.height.isLt
  apply drawGimpImage_inside
  · omega
  · omega
  · intro row inRow col inColumn
    exact suits.row_inside (by omega) (by omega)

theorem box_inside (suits : d.Suits) (narrow : d.width.toNat ≤ 2 ^ 31) {a : Animation}
    (roomX : RoomForBox a.x) (roomY : RoomForBox a.y) (color : BitVec 32) :
    AllInside d.extent (drawBox d.globals d.bufferRasc (clampBox d a).x (clampBox d a).y boxSize
      d.pixelsPerLine color) := by
  have fitsX : (clampBox d a).x.toNat + 60 ≤ d.width.toNat :=
    clampCoordinate_fits (Nat.le_trans (by decide) suits.wide) roomX
  have fitsY : (clampBox d a).y.toNat + 60 ≤ d.height.toNat := clampCoordinate_fits suits.tall roomY
  have size : boxSize.toInt.toNat = 60 := by decide
  have stride := suits.stride
  have heightBound := d.height.isLt
  apply drawBox_inside
  · omega
  · omega
  · rw [size]
    exact suits.row_inside (by omega) (by omega)

theorem number_inside (suits : d.Suits) (value color : BitVec 32) :
    AllInside d.extent (drawNumber d.globals value 10 10 color) := by
  have ten : (10 : BitVec 32).toNat = 10 := rfl
  have wide := suits.wide
  have tall := suits.tall
  have stride := suits.stride
  apply drawNumber_inside
  · omega
  · omega
  · have row : 17 * d.pixelsPerLine.toNat + (d.pixelsPerLine.toNat - 1) < d.extent :=
      suits.row_inside (by omega) (by omega)
    show (10 + 7) * d.pixelsPerLine.toNat + (10 + 90) ≤ d.extent
    omega

theorem cursor_inside {x y : BitVec 32} (fits : CursorFits d x y) (color : BitVec 32) :
    AllInside d.extent (drawBox d.globals d.bufferRasc x y 8 d.pixelsPerLine color) := by
  have size : (8 : BitVec 32).toInt.toNat = 8 := by decide
  have rows : y.toNat + 7 < d.height.toNat := by
    have before := Nat.lt_of_le_of_lt (Nat.le_add_right _ _) fits.pixel
    exact Nat.lt_of_mul_lt_mul_right before
  have heightBound := d.height.isLt
  have column := fits.column
  have pixel := fits.pixel
  apply drawBox_inside
  · omega
  · omega
  · rw [size]
    exact pixel

/-- What a frame that draws asks of the screen, of the box before the frame, and of the
cursor when it is read. -/
structure DrawFits (d : Display) (f : FrameState) (cursorX cursorY : BitVec 32) : Prop where
  narrow : d.width.toNat ≤ 2 ^ 31
  boxX : MovesInInt f.animation.x
  boxY : MovesInInt f.animation.y
  cursor : CursorFits d cursorX cursorY

def FrameFits (d : Display) (f : FrameState) (p : Pending) : Prop :=
  (enterFrame d f p).2.paused = 0 →
    let (cursorX, cursorY, _) := readCursor (enterFrame d f p).1 p
    DrawFits d f cursorX cursorY

def FrameInside (d : Display) (f : FrameState) (p : Pending) : Prop :=
  AllInside d.extent (frameStores d f p)

theorem frame_inside (suits : d.Suits) {f : FrameState} {p : Pending} (fits : FrameFits d f p) :
    FrameInside d f p := by
  unfold FrameInside frameStores
  dsimp only
  split
  next unpaused =>
    have draws := fits unpaused
    dsimp only at draws
    obtain ⟨roomX, roomY⟩ := keyed_room p draws.boxX draws.boxY
    have box := box_inside suits draws.narrow roomX roomY
    unfold drawFrame
    apply AllInside.append (clearBuffer_inside suits draws.narrow)
    apply AllInside.append (logo_inside suits)
    apply AllInside.append (box _)
    apply AllInside.append (cursor_inside draws.cursor _)
    exact number_inside suits _ _
  next => exact fun _ member => absurd member List.not_mem_nil

/-- The arithmetic of a frame that draws stays below the wrap-around of its words. -/
structure DrawPlain (d : Display) (f : FrameState) (cursorX cursorY : BitVec 32) : Prop where
  narrow : d.width.toNat ≤ 2 ^ 31
  boxX : MovesInInt f.animation.x
  boxY : MovesInInt f.animation.y
  column : cursorX.toNat + 8 ≤ 2 ^ 31
  product : (cursorY.toNat + 7) * d.pixelsPerLine.toNat < 2 ^ 32

def FramePlain (d : Display) (f : FrameState) (p : Pending) : Prop :=
  (enterFrame d f p).2.paused = 0 →
    let (cursorX, cursorY, _) := readCursor (enterFrame d f p).1 p
    DrawPlain d f cursorX cursorY

/-- Without wrap-around the last pixel of the cursor is what decides. -/
theorem frame_fits (suits : d.Suits) {f : FrameState} {p : Pending} (plain : FramePlain d f p)
    (inside : FrameInside d f p) : FrameFits d f p := by
  intro unpaused
  have plain := plain unpaused
  dsimp only at plain ⊢
  generalize cursor : readCursor (enterFrame d f p).1 p = read at plain ⊢
  have drawn : AllInside d.extent
      (drawBox d.globals d.bufferRasc read.1 read.2.1 8 d.pixelsPerLine 0x00FFFFFF) := by
    intro store member
    apply inside store
    simp only [frameStores, unpaused, if_true, drawFrame, cursor, List.mem_append, member, true_or,
      or_true]
  have size : (8 : BitVec 32).toInt.toNat = 8 := by decide
  have stride := suits.stride
  have wide := suits.wide
  have product : (read.2.1.toNat + 7) * d.pixelsPerLine.toNat < 2 ^ 32 := plain.product
  have rows : read.2.1.toNat + 8 ≤ 2 ^ 32 := by
    -- a product below 2^32 bounds its factor
    have least := Nat.le_mul_of_pos_right (read.2.1.toNat + 7) (show 0 < d.pixelsPerLine.toNat by omega)
    exact Nat.lt_of_le_of_lt least product
  have last := (drawBox_inside_iff d.globals d.bufferRasc 8 0x00FFFFFF (by decide) plain.column
    plain.product rows).mp drawn
  rw [size] at last
  exact ⟨plain.narrow, plain.boxX, plain.boxY, plain.column, last⟩

/-- In every run of the loop, from any state and with any interrupts, the frames that find
room draw inside the back buffer, and without wrap-around no others do. -/
theorem frames_draw_inside (d : Display) (suits : d.Suits) (start : FrameState)
    (pending : List Pending) :
    (Along (frame d) (FrameFits d) start pending → Along (frame d) (FrameInside d) start pending) ∧
      (Along (frame d) (FramePlain d) start pending →
        Along (frame d) (FrameInside d) start pending → Along (frame d) (FrameFits d) start pending) := by
  constructor
  · exact Along.imp fun _ _ fits => frame_inside suits fits
  · intro plain inside
    exact (plain.and inside).imp fun _ _ both => frame_fits suits both.1 both.2

end Frame

/-! ## A cursor that leaves the screen -/

def quiet : Pending where
  key := fun _ => []
  mouseX := []
  mouseY := []
  ticks := []
  delayStart := []
  delay := [List.replicate 10 .time]

/-- Three movements by 128 down. -/
def movedDown : Pending :=
  { quiet with mouseX := (List.replicate 3 [.mouse 0x28, .mouse 0, .mouse 0x80]).flatten }

def display800x600 : Display where
  width := 800
  height := 600
  pixelsPerLine := 800
  framebuffer := 0
  bufferRasc := 0x100000
  gimpImage := { width := 64, height := 64, bytesPerPixel := 3, pixelData := fun _ => 0 }

theorem display800x600_suits : display800x600.Suits := by
  constructor <;> decide

def mainStart800x600 : FrameState := mainStart display800x600 remapped (fun _ => 0)

theorem first_frame_read (p : Pending) (noKey : p.key = fun _ => []) :
    enterFrame display800x600 mainStart800x600 p =
      (mainStart800x600.shared, mainStart800x600.animation) := by
  unfold enterFrame
  rw [noKey]
  rfl

theorem cursor_leaves_buffer :
    ¬ Along (frame display800x600) (FrameInside display800x600) mainStart800x600 [movedDown] := by
  intro inside
  have entered := first_frame_read movedDown rfl
  have read : readCursor mainStart800x600.shared movedDown =
      (400, 684, (readCursor mainStart800x600.shared movedDown).2.2) := rfl
  have plain : FramePlain display800x600 mainStart800x600 movedDown := by
    unfold FramePlain
    rw [entered, read]
    intro _
    constructor <;> decide
  have fits := frame_fits display800x600_suits plain inside.1
  unfold FrameFits at fits
  rw [entered, read] at fits
  exact absurd (fits rfl).cursor.pixel (by decide)

theorem frames_draw_inside_quiet :
    Along (frame display800x600) (FrameFits display800x600) mainStart800x600 [quiet] ∧
      Along (frame display800x600) (FrameInside display800x600) mainStart800x600 [quiet] := by
  have entered := first_frame_read quiet rfl
  have read : readCursor mainStart800x600.shared quiet =
      (400, 300, (readCursor mainStart800x600.shared quiet).2.2) := rfl
  have fits : FrameFits display800x600 mainStart800x600 quiet := by
    unfold FrameFits
    rw [entered, read]
    intro _
    constructor
    case cursor => constructor <;> decide
    all_goals decide
  have frames : Along (frame display800x600) (FrameFits display800x600) mainStart800x600 [quiet] :=
    ⟨fits, fun _ _ => trivial⟩
  exact ⟨frames,
    (frames_draw_inside display800x600 display800x600_suits mainStart800x600 [quiet]).1 frames⟩

end SzOS.Efi
