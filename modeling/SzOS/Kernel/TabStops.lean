import SzOS.Kernel.Tty

/-! When the terminal returns, and where a tab leaves the cursor.

The loop of a tab compares the column with a stop computed before the loop. Left
of the last stop of a row the column climbs to the stop. In the last eight
columns the stop is the width itself, the cursor wraps before it is reached,
and the loop starts over on the next row, forever.
-/

set_option autoImplicit false

namespace SzOS.Kernel.Tty
open Semantics Libc

/-- The next column that is a multiple of eight. -/
def tabStop (column : Nat) : Nat := (column / 8 + 1) * 8

theorem nextStop_eq {column : Nat} (inside : column < vgaWidth) :
    (column + 8) &&& 0xFFFFFFF8 = tabStop column := by
  have table : ∀ column : Fin 80, (column.val + 8) &&& 0xFFFFFFF8 = tabStop column.val := by
    decide
  exact table ⟨column, inside⟩

/-- `count` blanks were printed in the row of the cursor, which followed them. -/
structure Blanked (t : Terminal) (count : Nat) (t' : Terminal) : Prop where
  row : t'.terminalRow = t.terminalRow
  column : t'.terminalColumn = t.terminalColumn + count
  color : t'.terminalColor = t.terminalColor
  buffer : ∃ record : List (Nat × UInt16), record.length = count ∧
    (∀ store ∈ record, store.2 = vgaEntry space t.terminalColor) ∧
    t'.terminalBuffer = t.terminalBuffer.writes record

theorem Blanked.refl (t : Terminal) : Blanked t 0 t :=
  ⟨rfl, rfl, rfl, [], rfl, by simp, rfl⟩

theorem Blanked.next {t t' : Terminal} {count : Nat} (blanked : Blanked t count t')
    (inner : t'.terminalColumn + 1 < vgaWidth) (bound : Nat) :
    ∃ next, terminalPutchar (bound + 1) t' space = some next ∧ Blanked t (count + 1) next := by
  obtain ⟨row, column, color, record, length, blank, buffer⟩ := blanked
  refine ⟨_, putchar_plain bound t' (by decide), ?_⟩
  rw [advanceColumn_inner (by exact inner)]
  refine ⟨row, by simp [column, Nat.add_assoc], color,
    (t'.terminalRow * vgaWidth + t'.terminalColumn, vgaEntry space t.terminalColor) :: record,
    by simp [length], ?_, ?_⟩
  · intro store member
    rcases List.mem_cons.mp member with rfl | member
    · rfl
    · exact blank store member
  · simp [Store.writes, buffer, color]

theorem Blanked.run {t t' : Terminal} {count : Nat} (blanked : Blanked t count t') (bound : Nat)
    (more : Nat) (inner : t'.terminalColumn + more < vgaWidth) :
    ∃ final, Semantics.run (terminalPutchar (bound + 1)) t' (List.replicate more space) =
      some final ∧ Blanked t (count + more) final := by
  induction more generalizing count t' with
  | zero => exact ⟨t', rfl, blanked⟩
  | succ more ih =>
    obtain ⟨next, ran, blanked'⟩ := blanked.next (by omega) bound
    have here := blanked.column
    have there := blanked'.column
    obtain ⟨final, rest, blanked''⟩ := ih blanked' (by omega)
    refine ⟨final, ?_, ?_⟩
    · rw [List.replicate_succ, run_cons, ran]
      exact rest
    · rwa [Nat.add_assoc, Nat.add_comm 1] at blanked''

/-- Left of the last stop a tab prints blanks up to the next stop. -/
theorem tab_reaches {t : Terminal} (left : t.terminalColumn < 72) {bound : Nat}
    (enough : 9 ≤ bound) :
    ∃ t', terminalPutchar (bound + 1) t tab = some t' ∧
      Blanked t (tabStop t.terminalColumn - t.terminalColumn) t' := by
  have inside : t.terminalColumn < vgaWidth := by
    unfold vgaWidth
    omega
  obtain ⟨bound, rfl⟩ : ∃ rest, bound = rest + 1 := ⟨bound - 1, by omega⟩
  have stopBound : tabStop t.terminalColumn ≤ 72 := by
    unfold tabStop
    omega
  have stopNear : tabStop t.terminalColumn ≤ t.terminalColumn + 8 := by
    unfold tabStop
    omega
  rw [putchar_tab, nextStop_eq inside]
  -- the blanks printed so far are the invariant, the way to the stop the measure
  refine whileLoop_total
    (fun t' => ∃ count, Blanked t count t' ∧ t'.terminalColumn ≤ tabStop t.terminalColumn) _
    (fun t' => tabStop t.terminalColumn - t'.terminalColumn) ?_ ?_
    ⟨0, .refl t, by unfold tabStop; omega⟩ (by omega)
  · rintro t' ⟨count, blanked, below⟩ go
    simp only [Bool.and_eq_true, decide_eq_true_eq] at go
    have inner : t'.terminalColumn + 1 < vgaWidth := by
      unfold vgaWidth
      omega
    obtain ⟨next, ran, blanked'⟩ := blanked.next inner bound
    have column := blanked.column
    have column' := blanked'.column
    exact ⟨next, ran, ⟨count + 1, blanked', by omega⟩, by omega⟩
  · rintro t' ⟨count, blanked, below⟩ stopped
    simp only [Bool.and_eq_false_iff, decide_eq_false_iff_not] at stopped
    unfold vgaWidth at stopped
    have column := blanked.column
    have exact : count = tabStop t.terminalColumn - t.terminalColumn := by omega
    exact exact ▸ blanked

theorem putchar_inScreen_of_ne_tab {bound : Nat} {t t' : Terminal} {uc : UInt8} (inside : InScreen t)
    (notTab : uc ≠ tab) (ran : terminalPutchar (bound + 1) t uc = some t') : InScreen t' := by
  by_cases plain : Plain uc
  · rw [putchar_plain bound t plain] at ran
    exact Option.some.inj ran ▸ (inside.putentryat _ _ _ _).advanceColumn
  · rcases control_of_not_plain plain notTab with rfl | rfl | rfl
    · rw [putchar_newline] at ran
      exact Option.some.inj ran ▸ inside.home.advanceRow
    · rw [putchar_carriageReturn] at ran
      exact Option.some.inj ran ▸ inside.home
    · rw [putchar_backspace] at ran
      rw [← Option.some.inj ran]
      split
      · exact ⟨inside.row, Nat.lt_of_le_of_lt (Nat.sub_le _ _) inside.column⟩
      · exact inside

/-- In the last eight columns of a row the loop of a tab never ends. -/
theorem tab_diverges {t : Terminal} (inside : InScreen t) (edge : 72 ≤ t.terminalColumn)
    (bound : Nat) : terminalPutchar bound t tab = none := by
  cases bound with
  | zero => rfl
  | succ bound =>
    have width : tabStop t.terminalColumn = vgaWidth := by
      have := inside.column
      unfold tabStop
      unfold vgaWidth at *
      omega
    rw [putchar_tab, nextStop_eq inside.column, width]
    -- the stop is the width, so the test holds of every column on the screen
    refine whileLoop_diverges InScreen ?_ bound inside
    intro t' inside'
    refine ⟨by simp [inside'.column], fun next ran => ?_⟩
    cases bound with
    | zero => simp [terminalPutchar] at ran
    | succ bound => exact putchar_inScreen_of_ne_tab inside' (by decide) ran

/-- The bytes a state prints and returns from. -/
def StopsBeforeEdge (t : Terminal) (uc : UInt8) : Prop :=
  uc ≠ tab ∨ t.terminalColumn < 72

theorem putchar_returns_iff {t : Terminal} (inside : InScreen t) (uc : UInt8) :
    (∃ bound t', terminalPutchar bound t uc = some t') ↔ StopsBeforeEdge t uc := by
  constructor
  · rintro ⟨bound, t', ran⟩
    by_cases isTab : uc = tab
    · right
      by_contra edge
      rw [isTab, tab_diverges inside (by omega)] at ran
      cases ran
    · exact Or.inl isTab
  · rintro (notTab | left)
    · exact ⟨1, putchar_returns 0 t notTab⟩
    · by_cases isTab : uc = tab
      · subst uc
        obtain ⟨t', ran, _⟩ := tab_reaches left (Nat.le_refl 9)
        exact ⟨10, t', ran⟩
      · exact ⟨1, putchar_returns 0 t isTab⟩

theorem putchar_inScreen {bound : Nat} {t t' : Terminal} {uc : UInt8} (inside : InScreen t)
    (ran : terminalPutchar bound t uc = some t') : InScreen t' := by
  cases bound with
  | zero => simp [terminalPutchar] at ran
  | succ bound =>
    by_cases isTab : uc = tab
    · subst uc
      have left : t.terminalColumn < 72 := by
        by_contra edge
        rw [tab_diverges inside (by omega)] at ran
        cases ran
      obtain ⟨reached, blankRun, blanked⟩ := tab_reaches left (Nat.le_add_left 9 bound)
      -- a larger bound gives the answer of `tab_reaches`, so that is the one given
      have same := putchar_mono (Nat.le_add_right (bound + 1) 9) ran
      have more : bound + 1 + 9 = bound + 9 + 1 := by omega
      rw [more, blankRun] at same
      cases same
      have column := blanked.column
      refine ⟨blanked.row ▸ inside.row, ?_⟩
      unfold tabStop at column
      unfold vgaWidth
      omega
    · exact putchar_inScreen_of_ne_tab inside isTab ran

/-! ## Runs of calls -/

inductive Call where
  | putchar (c : UInt8)
  | write (data : List UInt8)
  | writestring (data : CString)

def call (bound : Nat) (t : Terminal) : Call → Option Terminal
  | .putchar c => terminalPutchar bound t c
  | .write data => terminalWrite bound t data
  | .writestring data => terminalWritestring bound t data

def Call.bytes : Call → List UInt8
  | .putchar c => [c]
  | .write data => data
  | .writestring data => data.bytes

theorem writestring_eq (bound : Nat) (t : Terminal) (data : CString) :
    terminalWritestring bound t data = run (terminalPutchar bound) t data.bytes := by
  rw [terminalWritestring, strlen_object]
  simp [terminalWrite, CString.object]

theorem call_eq (bound : Nat) (t : Terminal) (c : Call) :
    call bound t c = run (terminalPutchar bound) t c.bytes := by
  cases c with
  | putchar c => simp [call, Call.bytes, run_cons]
  | write data => rfl
  | writestring data => exact writestring_eq bound t data

theorem run_call_eq (bound : Nat) (t : Terminal) (calls : List Call) :
    run (call bound) t calls = run (terminalPutchar bound) t (calls.flatMap Call.bytes) := by
  induction calls generalizing t with
  | nil => rfl
  | cons c rest ih =>
    rw [run_cons, call_eq, List.flatMap_cons, run_append]
    congr 1
    funext next
    exact ih next

/-- The states in which a sequence of calls leaves the terminal, over the
memory and globals found at start-up. -/
def Reachable (before t : Terminal) : Prop :=
  ∃ bound calls, run (call bound) (terminalInitialize before) calls = some t

private def AtOrigin (t : Terminal) : Prop := t.terminalRow = 0 ∧ t.terminalColumn = 0

/-- The loops write cells and leave the cursor alone. -/
theorem initialize_cursor (before : Terminal) :
    (terminalInitialize before).terminalRow = 0 ∧
      (terminalInitialize before).terminalColumn = 0 := by
  unfold terminalInitialize
  refine List.foldlRecOn (motive := AtOrigin) _ _ ⟨rfl, rfl⟩ ?_
  intro t home y _
  refine List.foldlRecOn (motive := AtOrigin) _ _ home ?_
  intro t home x _
  exact home

theorem initialize_inScreen (before : Terminal) : InScreen (terminalInitialize before) := by
  obtain ⟨row, column⟩ := initialize_cursor before
  exact ⟨row ▸ Nat.zero_lt_succ _, column ▸ Nat.zero_lt_succ _⟩

theorem Reachable.inScreen {before t : Terminal} (reachable : Reachable before t) : InScreen t := by
  obtain ⟨bound, calls, ran⟩ := reachable
  rw [run_call_eq] at ran
  exact run_invariant InScreen (fun _ _ _ inside stepped => putchar_inScreen inside stepped)
    (initialize_inScreen before) ran

/-- A run of bytes that returns within any bound stops before the edge at every
byte, and then ten levels are bound enough. -/
theorem run_putchar_iff {t : Terminal} (inside : InScreen t) (bytes : List UInt8) :
    (∃ bound t', run (terminalPutchar bound) t bytes = some t') ↔
      Along (terminalPutchar 10) StopsBeforeEdge t bytes := by
  induction bytes generalizing t with
  | nil => exact ⟨fun _ => trivial, fun _ => ⟨0, t, rfl⟩⟩
  | cons c rest ih =>
    constructor
    · rintro ⟨bound, t', ran⟩
      rw [run_cons] at ran
      obtain ⟨next, stepped, ran⟩ := Option.bind_eq_some_iff.mp ran
      refine ⟨(putchar_returns_iff inside c).mp ⟨bound, next, stepped⟩, fun other stepped' => ?_⟩
      -- both bounds answer, hence they agree
      have same := putchar_mono (Nat.le_max_left bound 10) stepped
      rw [putchar_mono (Nat.le_max_right bound 10) stepped'] at same
      cases same
      exact (ih (putchar_inScreen inside stepped')).mp ⟨bound, t', ran⟩
    · rintro ⟨stops, later⟩
      obtain ⟨next, stepped⟩ : ∃ next, terminalPutchar 10 t c = some next := by
        by_cases isTab : c = tab
        · subst c
          have left := stops.resolve_left (by simp)
          obtain ⟨next, stepped, _⟩ := tab_reaches left (Nat.le_refl 9)
          exact ⟨next, stepped⟩
        · exact putchar_returns 9 t isTab
      obtain ⟨bound, t', ran⟩ := (ih (putchar_inScreen inside stepped)).mpr (later next stepped)
      refine ⟨max bound 10, t', ?_⟩
      rw [run_cons, putchar_mono (Nat.le_max_right bound 10) stepped]
      exact run_mono (fun _ _ _ => putchar_mono (Nat.le_max_left bound 10)) ran

/-! ## The contract of one byte -/

/-- What a tab does: at most eight blanks, and the cursor on the next stop or,
where that is the end of the row, at the start of the next row. -/
structure TabContract (t t' : Terminal) : Prop where
  blanks : ∃ record : List (Nat × UInt16), record.length ≤ 8 ∧
    (∀ store ∈ record, store.2 = vgaEntry space t.terminalColor) ∧
    t'.terminalBuffer = t.terminalBuffer.writes record
  cursor :
    if tabStop t.terminalColumn = vgaWidth then
      t'.terminalColumn = 0 ∧ t'.terminalRow = (t.terminalRow + 1) % vgaHeight
    else t'.terminalColumn = tabStop t.terminalColumn ∧ t'.terminalRow = t.terminalRow

def PutcharContract (t : Terminal) (c : UInt8) : Prop :=
  ∃ bound t', terminalPutchar bound t c = some t' ∧ (c = tab → TabContract t t')

theorem Blanked.tabContract {t t' : Terminal} (left : t.terminalColumn < 72)
    (blanked : Blanked t (tabStop t.terminalColumn - t.terminalColumn) t') : TabContract t t' := by
  obtain ⟨row, column, _, record, length, blank, buffer⟩ := blanked
  have near : t.terminalColumn < tabStop t.terminalColumn ∧
      tabStop t.terminalColumn ≤ t.terminalColumn + 8 ∧ tabStop t.terminalColumn ≤ 72 := by
    unfold tabStop
    omega
  refine ⟨⟨record, by omega, blank, buffer⟩, ?_⟩
  have inner : tabStop t.terminalColumn ≠ vgaWidth := by
    unfold vgaWidth
    omega
  rw [if_neg inner]
  exact ⟨by omega, row⟩

theorem putcharContract_iff {t : Terminal} (inside : InScreen t) (c : UInt8) :
    PutcharContract t c ↔ StopsBeforeEdge t c := by
  constructor
  · rintro ⟨bound, t', ran, _⟩
    exact (putchar_returns_iff inside c).mp ⟨bound, t', ran⟩
  · intro stops
    by_cases isTab : c = tab
    · subst c
      have left := stops.resolve_left (by simp)
      obtain ⟨t', ran, blanked⟩ := tab_reaches left (Nat.le_refl 9)
      exact ⟨10, t', ran, fun _ => blanked.tabContract left⟩
    · obtain ⟨t', ran⟩ := putchar_returns 0 t isTab
      exact ⟨1, t', ran, fun same => absurd same isTab⟩

/-- In every state reached the contract holds of exactly the bytes that are not
a tab in the last eight columns, and a run of calls returns exactly when every
byte of it, in the state that prints it, is one of those. -/
theorem terminal_contract_iff (before : Terminal) :
    (∀ t, Reachable before t → ∀ c, PutcharContract t c ↔ StopsBeforeEdge t c) ∧
    ∀ calls, (∃ bound t, run (call bound) (terminalInitialize before) calls = some t) ↔
      Along (terminalPutchar 10) StopsBeforeEdge (terminalInitialize before)
        (calls.flatMap Call.bytes) := by
  refine ⟨fun t reachable c => putcharContract_iff reachable.inScreen c, fun calls => ?_⟩
  simp only [run_call_eq]
  exact run_putchar_iff (initialize_inScreen before) _

def powerOn : Terminal := ⟨0, 0, 0, ⟨fun _ => 0, []⟩⟩

theorem terminal_contract_iff_powerOn : PutcharContract (terminalInitialize powerOn) tab := by
  refine ((terminal_contract_iff powerOn).1 _ ⟨0, [], rfl⟩ tab).mpr (Or.inr ?_)
  rw [(initialize_cursor powerOn).2]
  decide

/-- Seventy-two spaces put the cursor on column 72, and a tab there never returns. -/
theorem tab_after_72_spaces_never_returns :
    ∃ t, run (call 1) (terminalInitialize powerOn) [.write (List.replicate 72 space)] = some t ∧
      t.terminalColumn = 72 ∧ ∀ bound, terminalPutchar bound t tab = none := by
  have home := (initialize_cursor powerOn).2
  obtain ⟨t, ran, blanked⟩ := (Blanked.refl (terminalInitialize powerOn)).run 0 72
    (by rw [home]; decide)
  have column : t.terminalColumn = 72 := by rw [blanked.column, home]
  have reached : run (call 1) (terminalInitialize powerOn) [.write (List.replicate 72 space)] =
      some t := by
    rw [run_call_eq]
    simpa [Call.bytes] using ran
  have inside := Reachable.inScreen ⟨1, _, reached⟩
  exact ⟨t, reached, column, tab_diverges inside (by omega)⟩

end SzOS.Kernel.Tty
