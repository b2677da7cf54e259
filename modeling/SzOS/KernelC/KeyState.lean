import SzOS.KernelC.Interrupts

/-! The key table of kernel-c's keyboard driver (drivers/keyboard.c) against the keys
that are down.

A key event is one byte, or two for an extended key, whose prefix 0xE0 the handler
takes for the release of a key with code 0x60 and whose second byte is then taken
for a plain one.
-/

set_option autoImplicit false

namespace SzOS.KernelC
open Semantics Hardware

abbrev KeyCode := BitVec 7

/-- The loop of `keyboard_init`. -/
def clearKeys (k : Keyboard) : Keyboard :=
  { k with keyBuffer := fun i => if i < 256 then 0 else k.keyBuffer i }

def keyPressed (keyCode : Byte) (k : Keyboard) : Nat :=
  if k.keyBuffer keyCode.toNat ≠ 0 then 1 else 0

/-! ## Scan code set 1 -/

/-- One press or release; an extended key shares its code with a plain one. -/
structure KeyEvent where
  extended : Bool
  code : KeyCode
  release : Bool

def extendedPrefix : Byte := 0xE0

/-- The code of the key, or the code with bit 7 set. -/
def KeyEvent.byte (e : KeyEvent) : Byte := BitVec.ofBool e.release ++ e.code

def KeyEvent.bytes (e : KeyEvent) : List Byte :=
  if e.extended then [extendedPrefix, e.byte] else [e.byte]

/-- Esc, the digits, the rows of letters, Enter, left Ctrl, left Shift and space. -/
def watched : List KeyCode :=
  [0x01] ++ (List.range' 0x02 10).map (BitVec.ofNat 7) ++ (List.range' 0x10 10).map (BitVec.ofNat 7) ++
    (List.range' 0x1E 9).map (BitVec.ofNat 7) ++ (List.range' 0x2C 7).map (BitVec.ofNat 7) ++
    [0x1C, 0x1D, 0x2A, 0x39]

/-- The driver, and the plain keys that are down. -/
structure Typing where
  keyboard : Keyboard
  down : KeyCode → Bool

def Typing.press (t : Typing) (e : KeyEvent) : Typing where
  keyboard := e.bytes.foldl (fun k scancode => keyboardHandler scancode k) t.keyboard
  down := if e.extended then t.down else Function.update t.down e.code (!e.release)

def Typing.start (before : Keyboard) : Typing where
  keyboard := clearKeys before
  down := fun _ => false

/-- `key_pressed` of every watched code is 1 exactly when its plain key is down. -/
def Typing.Faithful (t : Typing) : Prop :=
  ∀ code ∈ watched, keyPressed (code.setWidth 8) t.keyboard = if t.down code then 1 else 0

/-- An extended key whose second byte is a watched code is pressed only while the plain key
is down, and released only while it is up. -/
def Unseen (t : Typing) (e : KeyEvent) : Prop :=
  e.extended = true → e.code ∈ watched → t.down e.code = !e.release

/-! ## One event -/

theorem byte_release : ∀ e : KeyEvent, e.byte &&& 0x80 ≠ 0 ↔ e.release = true := by
  rintro ⟨_, code, release⟩
  have all : ∀ code : Fin 128, ∀ release : Bool,
      (BitVec.ofBool release ++ (BitVec.ofFin code : BitVec 7) : Byte) &&& 0x80 ≠ 0 ↔ release = true := by
    decide
  exact all code.toFin release

theorem byte_slot : ∀ e : KeyEvent, (e.byte &&& 0x7F).toNat = e.code.toNat := by
  rintro ⟨_, code, release⟩
  have all : ∀ code : Fin 128, ∀ release : Bool,
      ((BitVec.ofBool release ++ (BitVec.ofFin code : BitVec 7) : Byte) &&& 0x7F).toNat = code.val := by
    decide
  exact all code.toFin release

theorem byte_press {e : KeyEvent} (press : e.release = false) : e.byte.toNat = e.code.toNat := by
  rw [KeyEvent.byte, press, BitVec.toNat_append, BitVec.toNat_ofBool]
  simp

/-- The last byte of an event decides its slot, and leaves every other one. -/
theorem handler_byte (e : KeyEvent) (k : Keyboard) :
    (keyboardHandler e.byte k).keyBuffer =
      Function.update k.keyBuffer e.code.toNat (if e.release then 0 else 1) := by
  have released := byte_release e
  unfold keyboardHandler
  simp only
  cases press : e.release with
  | true => rw [if_pos (released.mpr press), byte_slot]; rfl
  | false =>
    rw [if_neg (by rw [released, press]; decide), byte_press press]
    rfl

theorem handler_extended (k : Keyboard) :
    (keyboardHandler extendedPrefix k).keyBuffer = Function.update k.keyBuffer 0x60 0 := rfl

theorem watched_slot {code : KeyCode} (isWatched : code ∈ watched) : code.toNat ≠ 0x60 := by
  have all : ∀ code ∈ watched, code.toNat ≠ 0x60 := by decide
  exact all code isWatched

theorem slot_injective {first second : KeyCode} (other : first ≠ second) :
    first.toNat ≠ second.toNat :=
  fun same => other (BitVec.eq_of_toNat_eq same)

/-- What an event does to the slot of a watched code, extended or not. -/
theorem press_slot (t : Typing) (e : KeyEvent) {code : KeyCode} (isWatched : code ∈ watched) :
    keyPressed (code.setWidth 8) (t.press e).keyboard =
      if e.code = code then (if e.release then 0 else 1)
      else keyPressed (code.setWidth 8) t.keyboard := by
  have slot : (code.setWidth 8).toNat = code.toNat := by
    rw [BitVec.toNat_setWidth]
    exact Nat.mod_eq_of_lt (Nat.lt_trans code.isLt (by decide))
  have prefixed : ∀ k : Keyboard,
      (keyboardHandler extendedPrefix k).keyBuffer code.toNat = k.keyBuffer code.toNat :=
    fun k => by rw [handler_extended, Function.update_of_ne (watched_slot isWatched)]
  have buffer : (t.press e).keyboard.keyBuffer code.toNat =
      if e.code = code then (if e.release then 0 else 1) else t.keyboard.keyBuffer code.toNat := by
    have kept : ∀ k : Keyboard, k.keyBuffer code.toNat = t.keyboard.keyBuffer code.toNat →
        (keyboardHandler e.byte k).keyBuffer code.toNat =
          if e.code = code then (if e.release then 0 else 1) else t.keyboard.keyBuffer code.toNat := by
      intro k same
      rw [handler_byte]
      by_cases here : e.code = code
      · rw [if_pos here, ← here, Function.update_self]
      · rw [if_neg here, Function.update_of_ne (slot_injective (Ne.symm here)), same]
    unfold Typing.press KeyEvent.bytes
    cases e.extended with
    | true => exact kept _ (prefixed t.keyboard)
    | false => exact kept _ rfl
  unfold keyPressed
  rw [slot, buffer]
  split
  · cases e.release <;> rfl
  · rfl

variable {t : Typing} {e : KeyEvent}

/-- An event keeps the table faithful exactly when it is plain or goes unseen. -/
theorem press_faithful_iff (faithful : t.Faithful) : (t.press e).Faithful ↔ Unseen t e := by
  constructor
  · intro after extended isWatched
    have slot := after e.code isWatched
    have down : (t.press e).down = t.down := if_pos extended
    rw [press_slot t e isWatched, if_pos rfl, down] at slot
    cases release : e.release <;> cases pressed : t.down e.code <;> simp [release, pressed] at slot ⊢
  · intro unseen code isWatched
    rw [press_slot t e isWatched]
    cases extended : e.extended with
    | true =>
      have down : (t.press e).down = t.down := if_pos extended
      rw [down]
      split
      next here =>
        rw [← here, unseen extended (here ▸ isWatched)]
        cases e.release <;> rfl
      next => exact faithful code isWatched
    | false =>
      have down : (t.press e).down = Function.update t.down e.code (!e.release) :=
        if_neg (by simp [extended])
      rw [down]
      by_cases here : e.code = code
      · rw [if_pos here, ← here, Function.update_self]
        cases e.release <;> rfl
      · rw [if_neg here, Function.update_of_ne (Ne.symm here)]
        exact faithful code isWatched

theorem start_faithful (before : Keyboard) : (Typing.start before).Faithful := by
  intro code _
  have inside : (code.setWidth 8).toNat < 256 := (code.setWidth 8).isLt
  have clear : (clearKeys before).keyBuffer (code.setWidth 8).toNat = 0 := if_pos inside
  show keyPressed (code.setWidth 8) (clearKeys before) = 0
  rw [keyPressed, clear]
  rfl

/-- After every event the table is faithful exactly as long as extended events go unseen. -/
theorem keys_faithful_iff (before : Keyboard) (events : List KeyEvent) :
    Along (fun t e => some (t.press e)) (fun t e => (t.press e).Faithful) (Typing.start before) events ↔
      Along (fun t e => some (t.press e)) Unseen (Typing.start before) events := by
  refine Along.congr Typing.Faithful (fun t e faithful => press_faithful_iff faithful) ?_
    (start_faithful before)
  intro t e next faithful unseen stepped
  cases stepped
  exact (press_faithful_iff faithful).mpr unseen

/-- Right Ctrl alone is taken for left Ctrl. -/
theorem right_ctrl_unfaithful :
    ¬ Along (fun t e => some (t.press e)) (fun t e => (t.press e).Faithful)
      (Typing.start ⟨fun _ => 0, 0⟩) [⟨true, 0x1D, false⟩] := by
  rintro ⟨faithful, _⟩
  have slot := faithful 0x1D (by decide)
  exact absurd slot (by decide)

end SzOS.KernelC
