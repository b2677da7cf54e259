import Mathlib.Data.Bool.AllAny
import Mathlib.Data.List.Induction
import SzOS.KernelC.KeyState
import SzOS.KernelC.ScreenText

/-! The keyboard test of kernel-c (`test_keyboard` in kernel/kernel.c).

A round of its loop reads six keys, each after whatever interrupts came in since the
last read, and draws a label for five of them on row 3. Interrupts draw nothing, so a
round is a sample of the keys and a picture of the sample. The label of the space bar is
longer than the blanks that erase it.
-/

set_option autoImplicit false

namespace SzOS.KernelC
open Libc Semantics Hardware Screen

def keyEsc : Byte := 0x01
def keyW : Byte := 0x11
def keyA : Byte := 0x1E
def keyS : Byte := 0x1F
def keyD : Byte := 0x20
def keySpace : Byte := 0x39

structure KeyLabel where
  code : Byte
  pressed : CString
  col : Nat

def spaceLabel : KeyLabel := ⟨keySpace, .literal "SPACE pressed", 40⟩

def keyLabels : List KeyLabel :=
  [⟨keyW, .literal "W pressed", 0⟩, ⟨keyA, .literal "A pressed", 10⟩, ⟨keyS, .literal "S pressed", 20⟩,
    ⟨keyD, .literal "D pressed", 30⟩, spaceLabel]

def erased : CString := .literal "         "

def KeyLabel.message (k : KeyLabel) (down : Bool) : CString := if down then k.pressed else erased

def headings : List CString :=
  [.literal "\n=== Keyboard Test ===\n", .literal "Press keys to test (W, A, S, D, SPACE, ESC):\n",
    .literal "Press ESC to exit\n\n"]

def ended : CString := .literal "\nTest ended. Exiting...\n"

section Loop

-- what interrupts do to the world around the loop, and the key table in it
variable {σ E : Type} (arrive : σ → E → Option σ) (table : σ → Keyboard)

structure TestState (σ : Type) where
  world : σ
  vga : Vga

/-- `key_pressed`, after the interrupts that come in before it. -/
def readKey (code : Byte) (arrivals : List E) (world : σ) : Option (Bool × σ) := do
  let world ← run arrive world arrivals
  some (keyPressed code (table world) ≠ 0, world)

def showKey (k : KeyLabel) (down : Bool) (vga : Vga) : Option Vga :=
  kprintAt (k.message down).object k.col 3 vga

/-- The tests of the labelled keys from read `access` of the round on. -/
def testKeys (arrivals : Nat → List E) : Nat → List KeyLabel → TestState σ → Option (TestState σ)
  | _, [], t => some t
  | access, k :: rest, t => do
    let (down, world) ← readKey arrive table k.code (arrivals access) t.world
    let vga ← showKey k down t.vga
    testKeys arrivals (access + 1) rest { world, vga }

/-- One round, and the value of `loop` after it. -/
def testRound (arrivals : Nat → List E) (t : TestState σ) : Option (Bool × TestState σ) := do
  let t ← testKeys arrive table arrivals 0 keyLabels t
  let (down, world) ← readKey arrive table keyEsc (arrivals keyLabels.length) t.world
  if down then
    let vga ← kprint ended t.vga
    some (false, { world, vga })
  else some (true, { t with world })

/-- The loop for as many rounds as there are arrivals for. -/
def testLoop : List (Nat → List E) → TestState σ → Option (Bool × TestState σ)
  | [], t => some (true, t)
  | arrivals :: rest, t => do
    let (loop, t) ← testRound arrive table arrivals t
    if loop then testLoop rest t else some (false, t)

def testKeyboard (rounds : List (Nat → List E)) (t : TestState σ) : Option (Bool × TestState σ) := do
  let vga ← run (fun vga message => kprint message vga) t.vga headings
  testLoop arrive table rounds { t with vga }

end Loop

/-! ## The picture of a sample -/

/-- The keys that a round read, with what it read. -/
abbrev Sample := List (KeyLabel × Bool)

def rowStart : Nat := 3 * 80

def labelAt (k : KeyLabel) (down : Bool) (cell : Nat) : Option UInt8 :=
  textAt (k.message down).bytes (rowStart + k.col) cell

/-- Labels drawn one after the other over what a row holds. -/
def lay : Sample → (Nat → Option UInt8) → Nat → Option UInt8
  | [], content => content
  | (k, down) :: rest, content => lay rest fun cell => (labelAt k down cell).or (content cell)

def spaceDown (sample : Sample) : Bool := sample.any fun item => item.2 && decide (item.1.code = keySpace)

/-- What the label of the space bar leaves where the blanks do not reach. -/
def leftOver (seen : Bool) (cell : Nat) : Option UInt8 :=
  if seen then labelAt spaceLabel true cell else none

/-- Row 3 after a round, given whether any round so far saw the space bar down. -/
def panel (sample : Sample) (seen : Bool) : Nat → Option UInt8 := lay sample (leftOver seen)

def endedText : List UInt8 := (CString.literal "Test ended. Exiting...").bytes

/-- The farewell on row 4, over the last panel. -/
def farewell (sample : Sample) (seen : Bool) (cell : Nat) : Option UInt8 :=
  (textAt endedText (4 * 80) cell).or (panel sample seen cell)

theorem lay_congr {first second : Nat → Option UInt8} (sample : Sample)
    (agree : ∀ cell, (∀ item ∈ sample, labelAt item.1 item.2 cell = none) → first cell = second cell) :
    lay sample first = lay sample second := by
  induction sample generalizing first second with
  | nil => exact funext fun cell => agree cell (by simp)
  | cons item rest ih =>
    obtain ⟨k, down⟩ := item
    apply ih
    intro cell uncovered
    cases covers : labelAt k down cell with
    | some byte => rfl
    | none => rw [agree cell (List.forall_mem_cons.mpr ⟨covers, uncovered⟩)]

/-- Labels that show at a cell what is there already. -/
theorem lay_same {content : Nat → Option UInt8} (sample : Sample) {cell : Nat}
    (same : ∀ item ∈ sample, labelAt item.1 item.2 cell = none ∨
      labelAt item.1 item.2 cell = content cell) : lay sample content cell = content cell := by
  induction sample generalizing content with
  | nil => rfl
  | cons item rest ih =>
    obtain ⟨k, down⟩ := item
    obtain ⟨first, later⟩ := List.forall_mem_cons.mp same
    have here : (labelAt k down cell).or (content cell) = content cell := by
      rcases first with none | same
      · rw [none]
        rfl
      · rw [same, Option.or_self]
    refine (ih ?_).trans here
    intro item member
    rw [here]
    exact later item member

/-- The nine columns that every label and the blanks cover. -/
def InSpan (k : KeyLabel) (cell : Nat) : Prop := rowStart + k.col ≤ cell ∧ cell < rowStart + k.col + 9

theorem message_shape : ∀ k ∈ keyLabels, ∀ down, k.col + (k.message down).bytes.length ≤ 53 ∧
    (∀ byte ∈ (k.message down).bytes, byte ≠ Screen.newline) ∧
    ((k.message down).bytes.length = 9 ∨
      (k.message down).bytes.length = 13 ∧ down = true ∧ k.code = keySpace) := by
  have checked : ∀ k ∈ keyLabels, ∀ down, k.col + (k.message down).bytes.length ≤ 53 ∧
      (k.message down).bytes.all (· ≠ Screen.newline) = true ∧
      ((k.message down).bytes.length = 9 ∨
        (k.message down).bytes.length = 13 ∧ down = true ∧ k.code = keySpace) := by decide
  intro k label down
  obtain ⟨inside, plain, length⟩ := checked k label down
  exact ⟨inside, List.all_iff_forall_prop.mp plain, length⟩

theorem spaceLabel_of_code {k : KeyLabel} (member : k ∈ keyLabels) (space : k.code = keySpace) :
    k = spaceLabel := by
  simp only [keyLabels, List.mem_cons, List.not_mem_nil, or_false] at member
  rcases member with rfl | rfl | rfl | rfl | rfl
  case inr.inr.inr.inr => rfl
  all_goals exact absurd space (by decide)

theorem textAt_eq_none_iff (bytes : List UInt8) (start cell : Nat) :
    textAt bytes start cell = none ↔ cell < start ∨ start + bytes.length ≤ cell := by
  unfold textAt
  split
  · rw [List.getElem?_eq_none_iff]
    omega
  · simp only [true_iff]
    omega

theorem span_covered {k : KeyLabel} (member : k ∈ keyLabels) {down : Bool} {cell : Nat}
    (uncovered : labelAt k down cell = none) : ¬ InSpan k cell := by
  obtain ⟨_, _, long⟩ := message_shape k member down
  rw [labelAt, textAt_eq_none_iff] at uncovered
  unfold InSpan
  omega

/-- Outside the spans the row shows what is left of the space bar's label, or nothing. -/
def Settled (seen : Bool) (content : Nat → Option UInt8) : Prop :=
  ∀ cell, (∀ k ∈ keyLabels, ¬ InSpan k cell) → content cell = leftOver seen cell

variable {sample : Sample} {seen : Bool}

/-- A sample of every label, drawn over a settled row. -/
theorem lay_settled (labels : sample.map Prod.fst = keyLabels) {content : Nat → Option UInt8}
    (settled : Settled seen content) : lay sample content = panel sample (seen || spaceDown sample) := by
  apply lay_congr
  intro cell uncovered
  have outside : ∀ k ∈ keyLabels, ¬ InSpan k cell := by
    intro k member
    rw [← labels] at member
    obtain ⟨item, inSample, rfl⟩ := List.mem_map.mp member
    exact span_covered (labels ▸ member) (uncovered item inSample)
  rw [settled cell outside]
  cases space : spaceDown sample with
  | false => rw [Bool.or_false]
  | true =>
    -- the label drawn now is where the one left over was
    obtain ⟨item, member, down⟩ := List.any_eq_true.mp space
    obtain ⟨down, code⟩ := Bool.and_eq_true_iff.mp down
    have isSpace := spaceLabel_of_code (labels ▸ List.mem_map_of_mem member) (of_decide_eq_true code)
    have none := uncovered item member
    rw [isSpace, down] at none
    unfold leftOver
    simp only [none, ite_self]

theorem panel_settled (labels : sample.map Prod.fst = keyLabels) :
    Settled (seen || spaceDown sample) (panel sample (seen || spaceDown sample)) := by
  intro cell outside
  apply lay_same
  intro item member
  have listed : item.1 ∈ keyLabels := labels ▸ List.mem_map_of_mem member
  obtain ⟨_, _, nine | ⟨_, down, code⟩⟩ := message_shape item.1 listed item.2
  · refine Or.inl ((textAt_eq_none_iff ..).mpr ?_)
    have out := outside item.1 listed
    unfold InSpan at out
    omega
  · refine Or.inr ?_
    have space : spaceDown sample = true :=
      List.any_eq_true.mpr ⟨item, member, by simp [down, code]⟩
    rw [space, Bool.or_true, down, spaceLabel_of_code listed code]
    rfl

/-! ## A round as a sample and its picture -/

theorem showKey_spec {k : KeyLabel} (member : k ∈ keyLabels) (down : Bool) {vga : Vga} {base : Memory}
    {content : Nat → Option UInt8} (shows : vga.vidmem = overlay base content) :
    ∃ p, rowStart < p ∧ p < 4 * 80 ∧ showKey k down vga =
      some (vgaAt p (overlay base fun cell => (labelAt k down cell).or (content cell))) := by
  obtain ⟨short, plain, long⟩ := message_shape k member down
  have nonempty : (k.message down).bytes ≠ [] := by
    intro none
    rw [none] at long
    simp at long
  have column : ((rowStart + k.col) % 80 : Nat) = k.col := by
    unfold rowStart
    omega
  have row : ((rowStart + k.col) / 80 : Nat) = 3 := by
    unfold rowStart
    omega
  have printed := kprintAt_text nonempty plain (p := rowStart + k.col) (by unfold rowStart; omega) shows
  rw [column, row] at printed
  exact ⟨_, by omega, by unfold rowStart; omega, printed⟩

theorem kprint_ended {p : Nat} (inside : 3 * 80 ≤ p ∧ p < 4 * 80) (base : Memory)
    (content : Nat → Option UInt8) :
    kprint ended (vgaAt p (overlay base content)) =
      some (vgaAt (5 * 80) (overlay base fun cell => (textAt endedText (4 * 80) cell).or (content cell))) := by
  have bytes : ended.bytes = Screen.newline :: (endedText ++ [Screen.newline]) := by decide
  have plain : ∀ byte ∈ endedText, byte ≠ Screen.newline := List.all_iff_forall_prop.mp (by decide)
  have length : endedText.length = 22 := by decide
  have line : (p / 80 + 1) * 80 = 4 * 80 := by omega
  rw [kprint_cells ended (by omega), bytes, List.foldl_cons, List.foldl_append,
    put_newline (by omega), line, foldl_put_text plain (by rw [length]; decide), length,
    List.foldl_cons, List.foldl_nil, put_newline (by decide)]

section Rounds

variable {σ E : Type} (arrive : σ → E → Option σ) (table : σ → Keyboard)

/-- What the tests of these keys read. -/
def sampleKeys (arrivals : Nat → List E) : Nat → List KeyLabel → σ → Option (Sample × σ)
  | _, [], world => some ([], world)
  | access, k :: rest, world => do
    let (down, world) ← readKey arrive table k.code (arrivals access) world
    let (sample, world) ← sampleKeys arrivals (access + 1) rest world
    some ((k, down) :: sample, world)

/-- A round's sample of the labelled keys, and whether Esc was down after it. -/
def sampleRound (arrivals : Nat → List E) (world : σ) : Option ((Sample × Bool) × σ) := do
  let (sample, world) ← sampleKeys arrive table arrivals 0 keyLabels world
  let (esc, world) ← readKey arrive table keyEsc (arrivals keyLabels.length) world
  some ((sample, esc), world)

variable {arrive} {table}

theorem sampleKeys_labels {arrivals : Nat → List E} {access : Nat} {labels : List KeyLabel}
    {world : σ} {sampled : Sample × σ}
    (read : sampleKeys arrive table arrivals access labels world = some sampled) :
    sampled.1.map Prod.fst = labels := by
  induction labels generalizing access world sampled with
  | nil =>
    cases read
    rfl
  | cons k rest ih =>
    simp only [sampleKeys, Option.bind_eq_bind, Option.bind_eq_some_iff] at read
    obtain ⟨⟨down, world⟩, _, ⟨sample, world'⟩, later, answer⟩ := read
    cases answer
    exact congrArg (k :: ·) (ih later)

theorem testKeys_spec {arrivals : Nat → List E} {access : Nat} {labels : List KeyLabel}
    (listed : ∀ k ∈ labels, k ∈ keyLabels) {world world' : σ} {vga : Vga} {base : Memory}
    {content : Nat → Option UInt8} (shows : vga.vidmem = overlay base content) {sample : Sample}
    (read : sampleKeys arrive table arrivals access labels world = some (sample, world')) :
    ∃ after, testKeys arrive table arrivals access labels ⟨world, vga⟩ = some ⟨world', after⟩ ∧
      after.vidmem = overlay base (lay sample content) ∧
      (labels ≠ [] → ∃ p, rowStart < p ∧ p < 4 * 80 ∧
        after = vgaAt p (overlay base (lay sample content))) := by
  induction labels generalizing access world vga content sample with
  | nil =>
    cases read
    exact ⟨vga, rfl, shows, fun more => absurd rfl more⟩
  | cons k rest ih =>
    simp only [sampleKeys, Option.bind_eq_bind, Option.bind_eq_some_iff] at read
    obtain ⟨⟨down, next⟩, readKey, ⟨sample', world''⟩, later, answer⟩ := read
    cases answer
    obtain ⟨here, others⟩ := List.forall_mem_cons.mp listed
    obtain ⟨p, right, left, shown⟩ := showKey_spec here down shows
    obtain ⟨after, tested, memory, last⟩ := ih others (show (vgaAt p _).vidmem = _ from rfl) later
    refine ⟨after, ?_, memory, fun _ => ?_⟩
    · simp only [testKeys, readKey, shown, Option.bind_eq_bind, Option.bind_some]
      exact tested
    · cases rest with
      | nil =>
        cases later
        cases tested
        exact ⟨p, right, left, rfl⟩
      | cons other rest => exact last (List.cons_ne_nil other rest)

/-- A round that samples the keys draws their panel, and says farewell when Esc is down. -/
theorem testRound_spec {arrivals : Nat → List E} {world world' : σ} {vga : Vga} {base : Memory}
    {content : Nat → Option UInt8} (shows : vga.vidmem = overlay base content) {seen esc : Bool}
    (settled : Settled seen content) {sample : Sample}
    (read : sampleRound arrive table arrivals world = some ((sample, esc), world')) :
    ∃ p, rowStart < p ∧ p < 4 * 80 ∧ testRound arrive table arrivals ⟨world, vga⟩ =
      some (!esc, ⟨world',
        if esc then vgaAt (5 * 80) (overlay base (farewell sample (seen || spaceDown sample)))
        else vgaAt p (overlay base (panel sample (seen || spaceDown sample)))⟩) := by
  simp only [sampleRound, Option.bind_eq_bind, Option.bind_eq_some_iff] at read
  obtain ⟨⟨keys, next⟩, sampled, ⟨down, last⟩, readEsc, answer⟩ := read
  cases answer
  obtain ⟨after, tested, _, drawn⟩ := testKeys_spec (fun _ member => member) shows sampled
  obtain ⟨p, right, left, rfl⟩ := drawn (by simp [keyLabels])
  rw [lay_settled (sampleKeys_labels sampled) settled] at tested
  refine ⟨p, right, left, ?_⟩
  simp only [testRound, tested, readEsc, Option.bind_eq_bind, Option.bind_some]
  cases down with
  | false => rfl
  | true =>
    have row : rowStart = 3 * 80 := rfl
    have printed := kprint_ended (p := p) (by omega) base (panel keys (seen || spaceDown keys))
    simp only [if_true, printed, Option.bind_some, Bool.not_true]
    rfl

end Rounds

/-! ## Histories

What a read sees depends on everything that came in before it, in the order it came in. -/

section Histories

variable {σ E : Type}

/-- What came in before read `n` of a round, counted from 1. -/
def delivered (arrivals : Nat → List E) (n : Nat) : List E := (List.range n).flatMap arrivals

def readsPerRound : Nat := 6

def historyAfter (history : List E) (arrivals : Nat → List E) : List E :=
  history ++ delivered arrivals readsPerRound

-- what reads of a key answer after a history
variable (down : Byte → List E → Bool)

def sampledAfter (history : List E) (arrivals : Nat → List E) : Sample :=
  keyLabels.mapIdx fun i k => (k, down k.code (history ++ delivered arrivals (i + 1)))

def escAfter (history : List E) (arrivals : Nat → List E) : Bool :=
  down keyEsc (historyAfter history arrivals)

def escRead (history : List E) : List (Nat → List E) → Bool
  | [] => false
  | arrivals :: rest => escAfter down history arrivals || escRead (historyAfter history arrivals) rest

def spaceRead (history : List E) : List (Nat → List E) → Bool
  | [] => false
  | arrivals :: rest =>
    spaceDown (sampledAfter down history arrivals) || spaceRead (historyAfter history arrivals) rest

/-- From its start the world takes every history of such events, and reads answer as told. -/
def Listens (arrive : σ → E → Option σ) (table : σ → Keyboard) (start : σ) (usual : E → Prop) : Prop :=
  ∀ events, (∀ e ∈ events, usual e) → ∃ world, run arrive start events = some world ∧
    ∀ code, decide (keyPressed code (table world) ≠ 0) = down code events

variable {down} {arrive : σ → E → Option σ} {table : σ → Keyboard} {start world : σ} {usual : E → Prop}

theorem delivered_succ (arrivals : Nat → List E) (n : Nat) :
    delivered arrivals (n + 1) = delivered arrivals n ++ arrivals n := by
  unfold delivered
  rw [List.range_succ, List.flatMap_append, List.flatMap_singleton]

theorem Listens.read (listens : Listens down arrive table start usual) {history arrivals : List E}
    (after : run arrive start history = some world) (fits : ∀ e ∈ history ++ arrivals, usual e)
    (code : Byte) :
    ∃ next, run arrive start (history ++ arrivals) = some next ∧
      readKey arrive table code arrivals world = some (down code (history ++ arrivals), next) := by
  obtain ⟨next, ran, answers⟩ := listens (history ++ arrivals) fits
  have here := ran
  rw [run_append, after, Option.bind_some] at here
  refine ⟨next, ran, ?_⟩
  simp only [readKey, here, Option.bind_eq_bind, Option.bind_some, answers]

theorem Listens.sampleKeys (listens : Listens down arrive table start usual) {history : List E}
    {arrivals : Nat → List E} (old : ∀ e ∈ history, usual e) (new : ∀ i, ∀ e ∈ arrivals i, usual e)
    (access : Nat) (labels : List KeyLabel)
    (after : run arrive start (history ++ delivered arrivals access) = some world) :
    ∃ next, run arrive start (history ++ delivered arrivals (access + labels.length)) = some next ∧
      KernelC.sampleKeys arrive table arrivals access labels world =
        some (labels.mapIdx fun i k => (k, down k.code (history ++ delivered arrivals (access + i + 1))),
          next) := by
  induction labels generalizing access world with
  | nil => exact ⟨world, after, rfl⟩
  | cons k rest ih =>
    have fits : ∀ e ∈ history ++ delivered arrivals access ++ arrivals access, usual e := by
      intro e member
      rw [List.append_assoc, ← delivered_succ] at member
      rcases List.mem_append.mp member with member | member
      · exact old e member
      · obtain ⟨i, _, member⟩ := List.mem_flatMap.mp member
        exact new i e member
    obtain ⟨next, ran, here⟩ := listens.read after fits k.code
    rw [List.append_assoc, ← delivered_succ] at ran here
    obtain ⟨last, ran, later⟩ := ih (access + 1) ran
    have index : ∀ i, access + 1 + i + 1 = access + (i + 1) + 1 := by omega
    have length : access + 1 + rest.length = access + (rest.length + 1) := by omega
    rw [length] at ran
    refine ⟨last, ran, ?_⟩
    simp only [KernelC.sampleKeys, here, Option.bind_eq_bind, Option.bind_some, later,
      List.mapIdx_cons, index]

theorem Listens.sampleRound (listens : Listens down arrive table start usual) {history : List E}
    {arrivals : Nat → List E} (old : ∀ e ∈ history, usual e) (new : ∀ i, ∀ e ∈ arrivals i, usual e)
    (after : run arrive start history = some world) :
    ∃ next, run arrive start (historyAfter history arrivals) = some next ∧
      KernelC.sampleRound arrive table arrivals world =
        some ((sampledAfter down history arrivals, escAfter down history arrivals), next) := by
  have none : history ++ delivered arrivals 0 = history := List.append_nil history
  have length : keyLabels.length = 5 := rfl
  obtain ⟨between, ran, keys⟩ := listens.sampleKeys old new 0 keyLabels (none ▸ after)
  have fits : ∀ e ∈ history ++ delivered arrivals 5 ++ arrivals 5, usual e := by
    intro e member
    rw [List.append_assoc, ← delivered_succ] at member
    rcases List.mem_append.mp member with member | member
    · exact old e member
    · obtain ⟨i, _, member⟩ := List.mem_flatMap.mp member
      exact new i e member
  obtain ⟨next, last, esc⟩ := listens.read ran fits keyEsc
  rw [List.append_assoc, length, Nat.zero_add, ← delivered_succ] at last esc
  refine ⟨next, last, ?_⟩
  simp only [Nat.zero_add] at keys
  simp only [KernelC.sampleRound, keys, length, esc, Option.bind_eq_bind, Option.bind_some]
  rfl

/-! ## The loop -/

theorem sampledAfter_labels (down : Byte → List E → Bool) (history : List E) (arrivals : Nat → List E) :
    (sampledAfter down history arrivals).map Prod.fst = keyLabels := rfl

theorem historyAfter_usual {history : List E} {arrivals : Nat → List E} (old : ∀ e ∈ history, usual e)
    (new : ∀ i, ∀ e ∈ arrivals i, usual e) : ∀ e ∈ historyAfter history arrivals, usual e := by
  intro e member
  rcases List.mem_append.mp member with member | member
  · exact old e member
  · obtain ⟨i, _, member⟩ := List.mem_flatMap.mp member
    exact new i e member

variable {vga : Vga} {base : Memory} {content : Nat → Option UInt8}

/-- The next round, from any screen that earlier rounds may have left. -/
theorem Listens.round (listens : Listens down arrive table start usual) {history : List E}
    {arrivals : Nat → List E} (old : ∀ e ∈ history, usual e) (new : ∀ i, ∀ e ∈ arrivals i, usual e)
    (after : run arrive start history = some world) (shows : vga.vidmem = overlay base content)
    (settled : Settled seen content) :
    ∃ next p, run arrive start (historyAfter history arrivals) = some next ∧
      testRound arrive table arrivals ⟨world, vga⟩ = some (!escAfter down history arrivals, ⟨next,
        if escAfter down history arrivals then
          vgaAt (5 * 80) (overlay base (farewell (sampledAfter down history arrivals)
            (seen || spaceDown (sampledAfter down history arrivals))))
        else
          vgaAt p (overlay base (panel (sampledAfter down history arrivals)
            (seen || spaceDown (sampledAfter down history arrivals))))⟩) := by
  obtain ⟨next, ran, sampled⟩ := listens.sampleRound old new after
  obtain ⟨p, _, _, round⟩ := testRound_spec shows settled sampled
  exact ⟨next, p, ran, round⟩

/-- What the loop does in the rounds before it ends, and in the one that ends it. -/
theorem Listens.running (listens : Listens down arrive table start usual) {history : List E}
    {earlier : List (Nat → List E)} {last : Nat → List E} (later : List (Nat → List E))
    (old : ∀ e ∈ history, usual e) (new : ∀ arrivals ∈ earlier ++ [last], ∀ i, ∀ e ∈ arrivals i, usual e)
    (after : run arrive start history = some world) (shows : vga.vidmem = overlay base content)
    (settled : Settled seen content) (running : escRead down history earlier = false) :
    ∃ next p, run arrive start ((earlier ++ [last]).foldl historyAfter history) = some next ∧
      testLoop arrive table (earlier ++ last :: later) ⟨world, vga⟩ =
        if escAfter down (earlier.foldl historyAfter history) last then
          some (false, ⟨next, vgaAt (5 * 80) (overlay base
            (farewell (sampledAfter down (earlier.foldl historyAfter history) last)
              (seen || spaceRead down history (earlier ++ [last]))))⟩)
        else
          testLoop arrive table later ⟨next, vgaAt p (overlay base
            (panel (sampledAfter down (earlier.foldl historyAfter history) last)
              (seen || spaceRead down history (earlier ++ [last]))))⟩ := by
  induction earlier generalizing history world vga content seen with
  | nil =>
    obtain ⟨next, p, ran, round⟩ := listens.round old (new last (by simp)) after shows settled
    refine ⟨next, p, ran, ?_⟩
    simp only [List.nil_append, testLoop, round, Option.bind_eq_bind, Option.bind_some, List.foldl_nil,
      spaceRead, Bool.or_false]
    cases escAfter down history last <;> rfl
  | cons arrivals earlier ih =>
    obtain ⟨notYet, running⟩ := Bool.or_eq_false_iff.mp running
    obtain ⟨here, others⟩ := List.forall_mem_cons.mp new
    obtain ⟨between, p, ran, round⟩ := listens.round old here after shows settled
    obtain ⟨next, p', ran, rest⟩ := ih (historyAfter_usual old here) others ran (show (vgaAt p _).vidmem = _ from rfl)
      (panel_settled (sampledAfter_labels down history arrivals)) running
    refine ⟨next, p', ran, ?_⟩
    simp only [notYet, if_false, Bool.false_eq_true, Bool.not_false] at round
    simp only [List.cons_append, testLoop, round, Option.bind_eq_bind, Option.bind_some, if_true,
      List.foldl_cons, spaceRead, ← Bool.or_assoc]
    exact rest

/-- The loop has ended exactly when a round has read Esc as down. -/
theorem Listens.returns (listens : Listens down arrive table start usual) {history : List E}
    {rounds : List (Nat → List E)} (old : ∀ e ∈ history, usual e)
    (new : ∀ arrivals ∈ rounds, ∀ i, ∀ e ∈ arrivals i, usual e)
    (after : run arrive start history = some world) (shows : vga.vidmem = overlay base content)
    (settled : Settled seen content) :
    ∃ t, testLoop arrive table rounds ⟨world, vga⟩ = some (!escRead down history rounds, t) := by
  induction rounds generalizing history world vga content seen with
  | nil => exact ⟨_, rfl⟩
  | cons arrivals rest ih =>
    obtain ⟨here, others⟩ := List.forall_mem_cons.mp new
    obtain ⟨next, p, ran, round⟩ := listens.round old here after shows settled
    simp only [testLoop, round, escRead, Option.bind_eq_bind, Option.bind_some]
    cases ended : escAfter down history arrivals with
    | true => exact ⟨_, rfl⟩
    | false =>
      exact ih (historyAfter_usual old here) others ran (show (vgaAt p _).vidmem = _ from rfl)
        (panel_settled (sampledAfter_labels down history arrivals))

/-- The screen below the labels: the headings, printed from wherever the cursor was. -/
def headed (p : Nat) (vidmem : Memory) : Memory :=
  ((headings.flatMap CString.bytes).foldl put (p, vidmem)).2

theorem testKeyboard_headed (arrive : σ → E → Option σ) (table : σ → Keyboard)
    (rounds : List (Nat → List E)) (world : σ) {p : Nat} (small : p < 2000) (vidmem : Memory) :
    ∃ p', testKeyboard arrive table rounds ⟨world, vgaAt p vidmem⟩ =
      testLoop arrive table rounds ⟨world, vgaAt p' (headed p vidmem)⟩ := by
  have printed := kprints_cells headings small vidmem
  refine ⟨((headings.flatMap CString.bytes).foldl put (p, vidmem)).1, ?_⟩
  simp only [testKeyboard, printed, Option.bind_eq_bind, Option.bind_some]
  rfl

theorem none_settled (base : Memory) (p : Nat) :
    (vgaAt p base).vidmem = overlay base (fun _ => none) ∧ Settled false fun _ => none :=
  ⟨(overlay_none base).symm, fun _ _ => rfl⟩

end Histories

/-- The four columns right of the blanks, while the space bar is up. -/
theorem panel_leftOver (labels : sample.map Prod.fst = keyLabels) (up : spaceDown sample = false)
    (seen : Bool) {cell : Nat} (right : rowStart + 49 ≤ cell) (left : cell < rowStart + 53) :
    panel sample seen cell = leftOver seen cell := by
  apply lay_same
  intro item member
  have listed : item.1 ∈ keyLabels := labels ▸ List.mem_map_of_mem member
  have columns : ∀ k ∈ keyLabels, k.col ≤ 40 := by decide
  have column := columns item.1 listed
  obtain ⟨_, _, nine | ⟨_, down, code⟩⟩ := message_shape item.1 listed item.2
  · exact Or.inl ((textAt_eq_none_iff ..).mpr (Or.inr (by omega)))
  · have space : spaceDown sample = true := List.any_eq_true.mpr ⟨item, member, by simp [down, code]⟩
    exact absurd (space.symm.trans up) (by decide)

/-! ## Scan codes delivered to the driver -/

def deliver (k : Keyboard) (scancode : Byte) : Option Keyboard := some (keyboardHandler scancode k)

/-- The last byte that names the key is a press. -/
def downAfter (code : Byte) (bytes : List Byte) : Bool :=
  match (bytes.filter fun b => b &&& 0x7F = code).getLast? with
  | some b => b &&& 0x80 = 0
  | none => false

theorem handler_slot : ∀ (scancode : Byte) (k : Keyboard), (keyboardHandler scancode k).keyBuffer =
    Function.update k.keyBuffer (scancode &&& 0x7F).toNat (if scancode &&& 0x80 = 0 then 1 else 0) := by
  intro scancode k
  have own : ∀ b : Byte, b &&& 0x80 = 0 → b &&& 0x7F = b := by decide
  unfold keyboardHandler
  dsimp only
  split
  next => rfl
  next press =>
    rw [not_not] at press
    rw [if_pos press, own scancode press]

/-- The key table after these bytes, from a cleared one. -/
def handled (before : Keyboard) (bytes : List Byte) : Keyboard :=
  bytes.foldl (fun k scancode => keyboardHandler scancode k) (clearKeys before)

theorem handled_snoc (before : Keyboard) (bytes : List Byte) (b : Byte) :
    handled before (bytes ++ [b]) = keyboardHandler b (handled before bytes) := List.foldl_append

theorem handled_slot (before : Keyboard) (bytes : List Byte) (code : Byte) :
    (handled before bytes).keyBuffer code.toNat = if downAfter code bytes then 1 else 0 := by
  induction bytes using List.reverseRecOn with
  | nil => exact if_pos code.isLt
  | append_singleton bytes b ih =>
    rw [handled_snoc, handler_slot]
    unfold downAfter at ih ⊢
    rw [List.filter_append]
    by_cases named : b &&& 0x7F = code
    · have only : [b].filter (fun b => b &&& 0x7F = code) = [b] :=
        List.filter_cons_of_pos (decide_eq_true named)
      rw [named, Function.update_self, only, List.getLast?_concat]
      simp only [decide_eq_true_eq]
    · have none : [b].filter (fun b => b &&& 0x7F = code) = [] :=
        List.filter_cons_of_neg (by simpa using named)
      have other : code.toNat ≠ (b &&& 0x7F).toNat := fun same => named (BitVec.eq_of_toNat_eq same).symm
      rw [Function.update_of_ne other, none, List.append_nil, ih]

theorem keyPressed_handled (before : Keyboard) (bytes : List Byte) (code : Byte) :
    decide (keyPressed code (handled before bytes) ≠ 0) = downAfter code bytes := by
  unfold keyPressed
  rw [handled_slot]
  cases downAfter code bytes <;> rfl

theorem run_deliver (before : Keyboard) (bytes : List Byte) :
    run deliver (clearKeys before) bytes = some (handled before bytes) := by
  induction bytes using List.reverseRecOn with
  | nil => rfl
  | append_singleton bytes b ih =>
    rw [run_append, ih, Option.bind_some, handled_snoc]
    rfl

theorem deliver_listens (before : Keyboard) :
    Listens downAfter deliver id (clearKeys before) fun _ => True := by
  intro bytes _
  exact ⟨handled before bytes, run_deliver before bytes, keyPressed_handled before bytes⟩

/-- Whatever comes in between the reads, the loop ends in the first round that reads Esc as
down; every round up to it leaves the panel of its own sample on row 3, with the end of the
space bar's label if any round read it as down, and nothing else changes. -/
theorem keyboard_test_shows (before : Keyboard) {p : Nat} (small : p < 2000) (vidmem : Memory)
    (rounds : List (Nat → List Byte)) :
    (∃ t, testKeyboard deliver id rounds ⟨clearKeys before, vgaAt p vidmem⟩ =
        some (!escRead downAfter [] rounds, t)) ∧
      (∀ earlier last later, rounds = earlier ++ last :: later → escRead downAfter [] earlier = false →
        ∃ p', testKeyboard deliver id rounds ⟨clearKeys before, vgaAt p vidmem⟩ =
          if escAfter downAfter (earlier.foldl historyAfter []) last then
            some (false, ⟨handled before ((earlier ++ [last]).foldl historyAfter []),
              vgaAt (5 * 80) (overlay (headed p vidmem) (farewell
                (sampledAfter downAfter (earlier.foldl historyAfter []) last)
                (spaceRead downAfter [] (earlier ++ [last]))))⟩)
          else
            testLoop deliver id later ⟨handled before ((earlier ++ [last]).foldl historyAfter []),
              vgaAt p' (overlay (headed p vidmem) (panel
                (sampledAfter downAfter (earlier.foldl historyAfter []) last)
                (spaceRead downAfter [] (earlier ++ [last]))))⟩) ∧
      ∀ history arrivals seen cell, spaceDown (sampledAfter downAfter history arrivals) = false →
        rowStart + 49 ≤ cell → cell < rowStart + 53 →
        panel (sampledAfter downAfter history arrivals) seen cell =
          if seen then labelAt spaceLabel true cell else none := by
  obtain ⟨first, entered⟩ := testKeyboard_headed deliver id rounds (clearKeys before) small vidmem
  obtain ⟨shows, settled⟩ := none_settled (headed p vidmem) first
  have listens := deliver_listens before
  rw [entered]
  refine ⟨?_, ?_, ?_⟩
  · exact listens.returns (by simp) (by simp) rfl shows settled
  · rintro earlier last later rfl running
    obtain ⟨next, p', ran, loop⟩ := listens.running later (by simp) (by simp) rfl shows settled running
    rw [run_deliver] at ran
    cases ran
    rw [Bool.false_or] at loop
    exact ⟨p', loop⟩
  · intro history arrivals seen cell up right left
    exact panel_leftOver (sampledAfter_labels downAfter history arrivals) up seen right left

/-- The space bar goes down and up before two reads of it, then Esc goes down. -/
def spaceThenEsc : List (Nat → List Byte) :=
  [fun access => if access = 4 then [0x39] else [], fun access => if access = 2 then [0xB9] else [],
    fun access => if access = 0 then [0x01] else []]

theorem keyboard_test_shows_space : ∃ t, testKeyboard deliver id spaceThenEsc
    ⟨clearKeys ⟨fun _ => 0, 0⟩, vgaAt 0 fun _ => 0⟩ = some (false, t) := by
  have ends : escRead downAfter [] spaceThenEsc = true := by decide
  have shown := (keyboard_test_shows ⟨fun _ => 0, 0⟩ (show 0 < 2000 by decide) (fun _ => 0) spaceThenEsc).1
  rw [ends] at shown
  exact shown

end SzOS.KernelC
