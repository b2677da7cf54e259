import Mathlib.Logic.Relation
import SzOS.Kernel.TabStops

/-! The terminal between two characters.

A call is cut into the steps of its characters, the blanks of a tab one by one,
so that what holds in between can be stated also of a tab that never returns.
The machine ends where the calls return, and nowhere else.
-/

set_option autoImplicit false

namespace SzOS.Kernel.Tty
open Semantics Libc

/-- A terminal, the stop of a tab whose loop is running, and the bytes still to come. -/
structure Machine where
  terminal : Terminal
  stop : Option Nat
  bytes : List UInt8

namespace Machine

/-- The test of a tab's loop. -/
def short (stop : Nat) (t : Terminal) : Bool :=
  t.terminalColumn < stop && t.terminalColumn < vgaWidth

/-- One character, the start of a tab or the end of its loop. -/
def step (m : Machine) : Option Machine :=
  match m.stop, m.bytes with
  | some stop, _ =>
    if short stop m.terminal then
      (terminalPutchar 1 m.terminal space).map fun terminal => { m with terminal }
    else some { m with stop := none }
  | none, [] => none
  | none, c :: bytes =>
    if c = tab then
      some { m with stop := some ((m.terminal.terminalColumn + 8) &&& 0xFFFFFFF8), bytes }
    else (terminalPutchar 1 m.terminal c).map fun terminal => { m with terminal, bytes }

def Steps : Machine → Machine → Prop := Relation.ReflTransGen fun m next => m.step = some next

def start (before : Terminal) (calls : List Call) : Machine :=
  ⟨terminalInitialize before, none, calls.flatMap Call.bytes⟩

end Machine

/-! ## Agreement with terminal_putchar -/

namespace Machine

/-- What the C code still does: the rest of a loop, then the bytes. -/
def finish (bound : Nat) (m : Machine) : Option Terminal :=
  let looped := match m.stop with
    | none => some m.terminal
    | some stop => whileLoop (short stop) (fun t => terminalPutchar bound t space) bound m.terminal
  looped.bind fun t => run (terminalPutchar bound) t m.bytes

/-- A step leads no other way than the C code, which needs one more level for it. -/
theorem finish_step {bound : Nat} {m next : Machine} {final : Terminal} (stepped : m.step = some next)
    (ended : next.finish bound = some final) : m.finish (bound + 1) = some final := by
  obtain ⟨t, stop, bytes⟩ := m
  have wider : ∀ t c t', terminalPutchar bound t c = some t' → terminalPutchar (bound + 1) t c = some t' :=
    fun _ _ _ => putchar_mono (Nat.le_succ bound)
  unfold step at stepped
  cases stop with
  | some stop =>
    dsimp only at stepped
    split at stepped
    next go =>
      obtain ⟨t', ran, rfl⟩ := Option.map_eq_some_iff.mp stepped
      obtain ⟨left, looped, printed⟩ := Option.bind_eq_some_iff.mp ended
      have looped := whileLoop_mono (fun t t' => wider t space t') (Nat.le_refl bound) looped
      have blank : (fun t => terminalPutchar (bound + 1) t space) t = some t' :=
        putchar_mono (Nat.le_add_left 1 bound) ran
      exact Option.bind_eq_some_iff.mpr
        ⟨left, (whileLoop_step go blank bound).trans looped, run_mono wider printed⟩
    next leave =>
      cases stepped
      have passed : short stop t = false := Bool.eq_false_iff.mpr leave
      exact Option.bind_eq_some_iff.mpr ⟨t, whileLoop_exit passed bound, run_mono wider ended⟩
  | none =>
    cases bytes with
    | nil => cases stepped
    | cons c bytes =>
      dsimp only at stepped
      split at stepped
      next isTab =>
        cases stepped
        subst isTab
        obtain ⟨left, looped, printed⟩ := Option.bind_eq_some_iff.mp ended
        have printedTab : terminalPutchar (bound + 1) t tab = some left := (putchar_tab bound t).trans looped
        change run (terminalPutchar (bound + 1)) t (tab :: bytes) = some final
        rw [run_cons, printedTab]
        exact run_mono wider printed
      next other =>
        obtain ⟨t', ran, rfl⟩ := Option.map_eq_some_iff.mp stepped
        change run (terminalPutchar (bound + 1)) t (c :: bytes) = some final
        rw [run_cons, putchar_mono (Nat.le_add_left 1 bound) ran]
        exact run_mono wider ended

/-- The blanks of a loop that ends, one by one. -/
theorem steps_loop {bound more : Nat} {stop : Nat} {t left : Terminal} (bytes : List UInt8)
    (looped : whileLoop (short stop) (fun t => terminalPutchar bound t space) more t = some left) :
    Steps ⟨t, some stop, bytes⟩ ⟨left, none, bytes⟩ := by
  induction more generalizing t with
  | zero => cases looped
  | succ more ih =>
    cases go : short stop t with
    | false =>
      rw [whileLoop_exit go] at looped
      cases looped
      exact .single (by simp [step, go])
    | true =>
      obtain ⟨t', ran⟩ := putchar_returns 0 t (show space ≠ tab by decide)
      cases bound with
      | zero => simp [whileLoop, go, terminalPutchar] at looped
      | succ bound =>
        have blank : (fun t => terminalPutchar (bound + 1) t space) t = some t' :=
          putchar_mono (Nat.le_add_left 1 bound) ran
        rw [whileLoop_step go blank] at looped
        exact .head (by simp [step, go, ran]) (ih looped)

theorem steps_run {bound : Nat} {t final : Terminal} {bytes : List UInt8}
    (ran : run (terminalPutchar bound) t bytes = some final) :
    Steps ⟨t, none, bytes⟩ ⟨final, none, []⟩ := by
  induction bytes generalizing t with
  | nil =>
    cases ran
    exact .refl
  | cons c bytes ih =>
    rw [run_cons] at ran
    obtain ⟨next, printed, later⟩ := Option.bind_eq_some_iff.mp ran
    cases bound with
    | zero => cases printed
    | succ bound =>
      by_cases isTab : c = tab
      · subst isTab
        rw [putchar_tab] at printed
        exact .head (by simp [step]) ((steps_loop bytes printed).trans (ih later))
      · obtain ⟨t', once⟩ := putchar_returns 0 t isTab
        have same := putchar_mono (Nat.le_add_left 1 bound) once
        cases Option.some.inj (same.symm.trans printed)
        exact .head (by simp [step, isTab, once]) (ih later)

/-- The machine comes to its end exactly where the bytes are printed. -/
theorem steps_end_iff {m : Machine} {final : Terminal} :
    Steps m ⟨final, none, []⟩ ↔ ∃ bound, m.finish bound = some final := by
  constructor
  · intro steps
    induction steps using Relation.ReflTransGen.head_induction_on with
    | refl => exact ⟨0, rfl⟩
    | head stepped _ ih =>
      obtain ⟨bound, ended⟩ := ih
      exact ⟨bound + 1, finish_step stepped ended⟩
  · rintro ⟨bound, ended⟩
    obtain ⟨t, stop, bytes⟩ := m
    obtain ⟨left, looped, ran⟩ := Option.bind_eq_some_iff.mp ended
    cases stop with
    | none =>
      cases looped
      exact steps_run ran
    | some stop => exact (steps_loop bytes looped).trans (steps_run ran)

theorem start_ends_iff (before : Terminal) (calls : List Call) (final : Terminal) :
    Steps (start before calls) ⟨final, none, []⟩ ↔
      ∃ bound, run (call bound) (terminalInitialize before) calls = some final := by
  simp only [steps_end_iff, run_call_eq]
  exact Iff.rfl

end Machine

/-! ## One character -/

/-- None of the stores made since `before` is past the screen. -/
def WritesInside (before t : Terminal) : Prop :=
  Store.StoresBelow 2000 before.terminalBuffer t.terminalBuffer

/-- At most one cell, with the current colour in its attribute byte. -/
structure OneCell (t t' : Terminal) : Prop where
  color : t'.terminalColor = t.terminalColor
  cell : t'.terminalBuffer = t.terminalBuffer ∨
    ∃ (index : Nat) (cell : UInt16), index < 2000 ∧ cell >>> 8 = t.terminalColor.toUInt16 ∧
      t'.terminalBuffer = t.terminalBuffer.write index cell

theorem vgaEntry_attribute (uc color : UInt8) : vgaEntry uc color >>> 8 = color.toUInt16 := by
  have shifted : (vgaEntry uc color >>> 8).toBitVec =
      (uc.toBitVec.setWidth 16 ||| color.toBitVec.setWidth 16 <<< 8) >>> 8 := rfl
  apply UInt16.toBitVec_inj.mp
  rw [shifted, UInt8.toBitVec_toUInt16]
  ext i inside
  have past : uc.toBitVec.getLsbD (8 + i) = false := BitVec.getLsbD_of_ge _ _ (by omega)
  have high : 8 ≤ i → color.toBitVec.getLsbD i = false := BitVec.getLsbD_of_ge _ _
  simp only [BitVec.getElem_ushiftRight, BitVec.getLsbD_or, BitVec.getLsbD_setWidth,
    BitVec.getLsbD_shiftLeft, BitVec.getElem_setWidth, past]
  grind

theorem OneCell.refl (t : Terminal) : OneCell t t := ⟨rfl, Or.inl rfl⟩

theorem WritesInside.putentryat {before t : Terminal} (inside : WritesInside before t) (c color : UInt8)
    {x y : Nat} (column : x < vgaWidth) (row : y < vgaHeight) :
    WritesInside before (terminalPutentryat t c color x y) := by
  apply Store.StoresBelow.write inside
  unfold vgaWidth vgaHeight at *
  omega

theorem WritesInside.oneCell {before t t' : Terminal} (inside : WritesInside before t)
    (one : OneCell t t') : WritesInside before t' := by
  unfold WritesInside at *
  rcases one.cell with same | ⟨index, cell, near, _, written⟩
  · rwa [same]
  · rw [written]
    exact inside.write cell near

theorem initialize_writesInside (before : Terminal) : WritesInside before (terminalInitialize before) := by
  unfold terminalInitialize
  refine List.foldlRecOn _ _ (Store.StoresBelow.refl 2000 before.terminalBuffer) ?_
  intro t line y row
  refine List.foldlRecOn _ _ line ?_
  intro t cells x column
  exact cells.putentryat _ _ (List.mem_range.mp column) (List.mem_range.mp row)

theorem putentryat_oneCell {t : Terminal} (inside : InScreen t) (c : UInt8) :
    OneCell t (terminalPutentryat t c t.terminalColor t.terminalColumn t.terminalRow) := by
  obtain ⟨row, column⟩ := inside
  refine ⟨rfl, Or.inr ⟨t.terminalRow * vgaWidth + t.terminalColumn, vgaEntry c t.terminalColor, ?_,
    vgaEntry_attribute c t.terminalColor, rfl⟩⟩
  unfold vgaHeight vgaWidth at *
  omega

theorem putchar_oneCell {t t' : Terminal} {c : UInt8} (inside : InScreen t) (notTab : c ≠ tab)
    (ran : terminalPutchar 1 t c = some t') : OneCell t t' := by
  by_cases plain : Plain c
  · rw [putchar_plain 0 t plain] at ran
    cases ran
    have one := putentryat_oneCell inside c
    exact ⟨by simp, by simpa using one.cell⟩
  · rcases control_of_not_plain plain notTab with rfl | rfl | rfl
    · rw [putchar_newline] at ran
      cases ran
      exact ⟨by simp, Or.inl (by simp)⟩
    · rw [putchar_carriageReturn] at ran
      cases ran
      exact ⟨rfl, Or.inl rfl⟩
    · rw [putchar_backspace] at ran
      cases ran
      split
      · have left : InScreen { t with terminalColumn := t.terminalColumn - 1 } :=
          ⟨inside.row, Nat.lt_of_le_of_lt (Nat.sub_le _ _) inside.column⟩
        have one := putentryat_oneCell left space
        exact ⟨one.color, one.cell⟩
      · exact .refl t

/-! ## Every state between two characters -/

namespace Machine

theorem step_spec {m next : Machine} (inside : InScreen m.terminal) (stepped : m.step = some next) :
    InScreen next.terminal ∧ OneCell m.terminal next.terminal := by
  obtain ⟨t, stop, bytes⟩ := m
  have char : ∀ {c t'}, c ≠ tab → terminalPutchar 1 t c = some t' → InScreen t' ∧ OneCell t t' :=
    fun notTab ran => ⟨putchar_inScreen inside ran, putchar_oneCell inside notTab ran⟩
  unfold step at stepped
  cases stop with
  | some stop =>
    dsimp only at stepped
    split at stepped
    · obtain ⟨t', ran, rfl⟩ := Option.map_eq_some_iff.mp stepped
      exact char (by decide) ran
    · cases stepped
      exact ⟨inside, .refl t⟩
  | none =>
    cases bytes with
    | nil => cases stepped
    | cons c bytes =>
      dsimp only at stepped
      split at stepped
      next =>
        cases stepped
        exact ⟨inside, .refl t⟩
      next notTab =>
        obtain ⟨t', ran, rfl⟩ := Option.map_eq_some_iff.mp stepped
        exact char notTab ran

theorem steps_spec {before : Terminal} {calls : List Call} {m : Machine}
    (steps : Steps (start before calls) m) : InScreen m.terminal ∧ WritesInside before m.terminal := by
  induction steps with
  | refl => exact ⟨initialize_inScreen before, initialize_writesInside before⟩
  | tail _ stepped ih =>
    obtain ⟨inside, one⟩ := step_spec ih.1 stepped
    exact ⟨inside, ih.2.oneCell one⟩

end Machine

/-- In every state between two characters, also of a tab that never returns, the cursor and
all stores so far are on the screen, and the next character changes one cell at most. -/
theorem characters_stay_inside (before : Terminal) (calls : List Call) :
    (∀ m, Machine.Steps (Machine.start before calls) m → InScreen m.terminal ∧
      WritesInside before m.terminal ∧ ∀ next, m.step = some next → OneCell m.terminal next.terminal) ∧
    ∀ final, Machine.Steps (Machine.start before calls) ⟨final, none, []⟩ ↔
      ∃ bound, run (call bound) (terminalInitialize before) calls = some final := by
  refine ⟨?_, Machine.start_ends_iff before calls⟩
  intro m steps
  obtain ⟨inside, writes⟩ := Machine.steps_spec steps
  exact ⟨inside, writes, fun next stepped => (Machine.step_spec inside stepped).2⟩

theorem characters_stay_inside_start :
    InScreen (Machine.start powerOn [.putchar tab]).terminal :=
  ((characters_stay_inside powerOn [.putchar tab]).1 _ .refl).1

end SzOS.Kernel.Tty
