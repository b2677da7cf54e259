import SzOS.Kernel.Writing
import SzOS.Libc.Printf
import SzOS.Semantics.Window

/-! The terminal as a window over an endless roll of paper.

The terminal never scrolls: below the last row comes the first one again, with
its old text still on it. On the roll the same bytes go on to fresh lines, and
the screen is the last line of it and what shows of the lines before.
-/

set_option autoImplicit false

namespace SzOS.Kernel.Tty
open Semantics Libc

/-! ## The roll -/

/-- `strips` holds the entries of each column, by line. -/
structure Roll where
  strips : Nat → Nat → Option UInt16
  line : Nat
  column : Nat
  color : UInt8

namespace Roll

/-- An empty roll, as `terminal_initialize` begins it. -/
def empty : Roll := ⟨fun _ _ => none, 0, 0, vgaEntryColor .lightGrey .black⟩

def put (r : Roll) (c : UInt8) : Roll :=
  let strip := Function.update (r.strips r.column) r.line (some (vgaEntry c r.color))
  { r with strips := Function.update r.strips r.column strip }

def feed (r : Roll) : Roll := { r with line := r.line + 1, column := 0 }

def forward (r : Roll) : Roll :=
  if r.column + 1 = vgaWidth then r.feed else { r with column := r.column + 1 }

def type (r : Roll) (c : UInt8) : Roll := (r.put c).forward

/-- One byte; a tab is the blanks up to the next stop. -/
def byte (r : Roll) (uc : UInt8) : Roll :=
  if uc = newline then r.feed
  else if uc = carriageReturn then { r with column := 0 }
  else if uc = backspace then
    if r.column > 0 then put { r with column := r.column - 1 } space else r
  else if uc = tab then (List.replicate (tabStop r.column - r.column) space).foldl type r
  else r.type uc

/-- What shows in a cell of the window, on a screen that was blank at first. -/
def shown (r : Roll) (row column : Nat) : UInt16 :=
  (Window.newest vgaHeight (r.strips column) row (r.line + 1)).getD
    (vgaEntry space (vgaEntryColor .lightGrey .black))

/-- The terminal is at the end of the roll and its screen is the window. -/
structure Shows (r : Roll) (t : Terminal) : Prop where
  row : t.terminalRow = r.line % vgaHeight
  column : t.terminalColumn = r.column
  inside : r.column < vgaWidth
  color : t.terminalColor = r.color
  ahead : ∀ column line, r.line < line → r.strips column line = none
  cells : ∀ row < vgaHeight, ∀ column < vgaWidth,
    t.terminalBuffer.cells (row * vgaWidth + column) = r.shown row column

/-! ## One byte -/

theorem shown_put (r : Roll) (c : UInt8) (row column : Nat) :
    (r.put c).shown row column =
      if r.line % vgaHeight = row ∧ column = r.column then vgaEntry c r.color else r.shown row column := by
  unfold shown put
  by_cases here : column = r.column
  · subst here
    simp only [Function.update_self, Window.newest_write, and_true]
    split
    next => rfl
    next => rfl
  · simp only [Function.update_of_ne here, here, and_false, if_false]

theorem shown_feed {r : Roll} {column : Nat} (ahead : r.strips column (r.line + 1) = none) (row : Nat) :
    r.feed.shown row column = r.shown row column := by
  unfold shown feed
  rw [Window.newest_unwritten ahead]

namespace Shows

variable {r : Roll} {t : Terminal}

theorem inScreen (shows : r.Shows t) : InScreen t :=
  ⟨shows.row ▸ Nat.mod_lt _ (by decide), shows.column ▸ shows.inside⟩

/-- The cursor may move along its line. -/
theorem move (shows : r.Shows t) {column : Nat} (inside : column < vgaWidth) :
    Shows { r with column := column } { t with terminalColumn := column } :=
  ⟨shows.row, rfl, inside, shows.color, shows.ahead, shows.cells⟩

theorem setcolor (shows : r.Shows t) (color : UInt8) :
    Shows { r with color := color } (terminalSetcolor t color) :=
  ⟨shows.row, shows.column, shows.inside, rfl, shows.ahead, shows.cells⟩

theorem put (shows : r.Shows t) (c : UInt8) :
    (r.put c).Shows (terminalPutentryat t c t.terminalColor t.terminalColumn t.terminalRow) where
  row := shows.row
  column := shows.column
  inside := shows.inside
  color := shows.color
  ahead column line above := by
    have ahead := shows.ahead column line above
    unfold Roll.put
    by_cases here : column = r.column
    · subst here
      simp only [Function.update_self]
      exact (Function.update_of_ne (Nat.ne_of_gt above) _ _).trans ahead
    · simp only
      rwa [Function.update_of_ne here]
  cells row inRow column inColumn := by
    have inside := shows.inside
    rw [shown_put, putentryat_buffer, Store.write_cells, shows.row, shows.column, shows.color]
    by_cases here : r.line % vgaHeight = row ∧ column = r.column
    · rw [if_pos here, here.1, here.2, Function.update_self]
    · have apart : row * vgaWidth + column ≠ r.line % vgaHeight * vgaWidth + r.column := by
        unfold vgaWidth at inside inColumn ⊢
        omega
      rw [if_neg here, Function.update_of_ne apart]
      exact shows.cells row inRow column inColumn

theorem feed (shows : r.Shows t) : r.feed.Shows (advanceRow { t with terminalColumn := 0 }) where
  row := by
    rw [advanceRow_row (by exact shows.inScreen.row)]
    exact shows.row ▸ Nat.mod_add_mod _ _ _
  column := by rw [advanceRow_column]; rfl
  inside := Nat.zero_lt_succ _
  color := by
    rw [advanceRow_color]
    exact shows.color
  ahead column line above := shows.ahead column line (Nat.lt_of_succ_lt above)
  cells row inRow column inColumn := by
    rw [advanceRow_buffer, shown_feed (shows.ahead column _ (Nat.lt_succ_self _))]
    exact shows.cells row inRow column inColumn

theorem forward (shows : r.Shows t) : r.forward.Shows (advanceColumn t) := by
  have column := shows.column
  have inside := shows.inside
  unfold Roll.forward
  split
  next last =>
    rw [advanceColumn_last (column ▸ last)]
    exact shows.feed
  next inner =>
    rw [advanceColumn_inner (by omega), column]
    exact shows.move (by omega)

theorem type (shows : r.Shows t) (c : UInt8) :
    (r.type c).Shows (advanceColumn
      (terminalPutentryat t c t.terminalColor t.terminalColumn t.terminalRow)) :=
  (shows.put c).forward

theorem backspace (shows : r.Shows t) :
    (r.byte backspace).Shows
      (if t.terminalColumn > 0 then
        terminalPutentryat { t with terminalColumn := t.terminalColumn - 1 } space
          t.terminalColor (t.terminalColumn - 1) t.terminalRow
      else t) := by
  have inside := shows.inside
  unfold Roll.byte
  rw [if_neg (by decide), if_neg (by decide), if_pos rfl, shows.column]
  split
  next => exact (shows.move (by omega)).put space
  next => exact shows

end Shows

theorem type_column {r : Roll} (inner : r.column + 1 < vgaWidth) (c : UInt8) :
    (r.type c).column = r.column + 1 := by
  have notLast : (r.put c).column + 1 ≠ vgaWidth := Nat.ne_of_lt inner
  unfold type forward
  rw [if_neg notLast]
  rfl

/-- Left of the last stop the loop of a tab types the blanks of the roll. -/
theorem Shows.tab {r : Roll} {t : Terminal} (shows : r.Shows t) (left : r.column < 72) {bound : Nat}
    (enough : 9 ≤ bound) :
    ∃ t', terminalPutchar (bound + 1) t tab = some t' ∧ (r.byte tab).Shows t' := by
  obtain ⟨bound, rfl⟩ : ∃ rest, bound = rest + 1 := ⟨bound - 1, by omega⟩
  have stopBound : tabStop r.column ≤ 72 := by
    unfold tabStop
    omega
  have stopNear : tabStop r.column ≤ r.column + 8 := by
    unfold tabStop
    omega
  have stopAhead : r.column < tabStop r.column := by
    unfold tabStop
    omega
  rw [putchar_tab, nextStop_eq shows.inScreen.column, shows.column]
  -- the blanks typed so far are the invariant, the way to the stop the measure
  refine whileLoop_total
    (fun t' => ∃ count, ((List.replicate count space).foldl Roll.type r).Shows t' ∧
      t'.terminalColumn = r.column + count ∧ t'.terminalColumn ≤ tabStop r.column) _
    (fun t' => tabStop r.column - t'.terminalColumn) ?_ ?_
    ⟨0, shows, shows.column, by rw [shows.column]; omega⟩ (by rw [shows.column]; omega)
  · rintro t' ⟨count, typed, column, below⟩ go
    simp only [Bool.and_eq_true, decide_eq_true_eq] at go
    have next := typed.type space
    have inner : t'.terminalColumn + 1 < vgaWidth := by
      unfold vgaWidth
      omega
    have further := next.column.trans (type_column (by rw [← typed.column]; exact inner) space)
    rw [← typed.column] at further
    refine ⟨_, putchar_plain bound t' (by decide), ⟨count + 1, ?_, by omega, by omega⟩, by omega⟩
    rw [List.replicate_succ', List.foldl_append]
    exact next
  · rintro t' ⟨count, typed, column, below⟩ stopped
    simp only [Bool.and_eq_false_iff, decide_eq_false_iff_not] at stopped
    unfold vgaWidth at stopped
    have exact : count = tabStop r.column - r.column := by omega
    unfold Roll.byte
    rw [if_neg (by decide), if_neg (by decide), if_neg (by decide), if_pos rfl]
    exact exact ▸ typed

/-- The bytes that the terminal returns from. -/
def Admits (r : Roll) (uc : UInt8) : Prop := uc = tab → r.column < 72

theorem Shows.admits_iff {r : Roll} {t : Terminal} (shows : r.Shows t) (uc : UInt8) :
    (∃ bound t', terminalPutchar bound t uc = some t') ↔ r.Admits uc := by
  rw [putchar_returns_iff shows.inScreen, StopsBeforeEdge, shows.column]
  exact Decidable.imp_iff_not_or.symm

theorem Shows.byte {r : Roll} {t t' : Terminal} (shows : r.Shows t) {bound : Nat} {uc : UInt8}
    (ran : terminalPutchar bound t uc = some t') : (r.byte uc).Shows t' := by
  obtain ⟨bound, rfl⟩ : ∃ rest, bound = rest + 1 := by
    cases bound with
    | zero => simp [terminalPutchar] at ran
    | succ bound => exact ⟨bound, rfl⟩
  by_cases isTab : uc = Tty.tab
  · subst uc
    have left := (shows.admits_iff Tty.tab).mp ⟨_, t', ran⟩ rfl
    obtain ⟨reached, stepped, shows'⟩ := shows.tab left (Nat.le_add_left 9 bound)
    have same := putchar_mono (by omega : bound + 1 ≤ bound + 9 + 1) ran
    cases Option.some.inj (same.symm.trans stepped)
    exact shows'
  by_cases plain : Plain uc
  · rw [putchar_plain bound t plain] at ran
    obtain ⟨notNewline, notReturn, notBackspace, notTab⟩ := plain
    have typed := shows.type uc
    unfold Roll.byte
    rw [if_neg notNewline, if_neg notReturn, if_neg notBackspace, if_neg notTab]
    exact Option.some.inj ran ▸ typed
  · rcases control_of_not_plain plain isTab with rfl | rfl | rfl
    · rw [putchar_newline] at ran
      exact Option.some.inj ran ▸ shows.feed
    · rw [putchar_carriageReturn] at ran
      exact Option.some.inj ran ▸ shows.move (Nat.zero_lt_succ _)
    · rw [putchar_backspace] at ran
      exact Option.some.inj ran ▸ shows.backspace

/-! ## The screen at the start -/

/-- `count` rows blanked, in the colour that `terminal_initialize` sets first. -/
structure Blank (count : Nat) (t : Terminal) : Prop where
  color : t.terminalColor = vgaEntryColor .lightGrey .black
  cells : ∀ cell < count, t.terminalBuffer.cells cell =
    vgaEntry space (vgaEntryColor .lightGrey .black)

theorem Blank.putentryat {count : Nat} {t : Terminal} (blank : Blank count t) {x y : Nat}
    (here : y * vgaWidth + x = count) : Blank (count + 1) (terminalPutentryat t space t.terminalColor x y) where
  color := blank.color
  cells cell below := by
    rw [putentryat_buffer, Store.write_cells, here, blank.color]
    by_cases last : cell = count
    · rw [last, Function.update_self]
    · rw [Function.update_of_ne last]
      exact blank.cells cell (by omega)

theorem Blank.row {t : Terminal} (y : Nat) (blank : Blank (y * vgaWidth) t) (columns : Nat) :
    Blank (y * vgaWidth + columns)
      ((List.range columns).foldl (fun t x => terminalPutentryat t space t.terminalColor x y) t) := by
  induction columns with
  | zero => exact blank
  | succ columns ih =>
    rw [List.range_succ, List.foldl_append]
    exact ih.putentryat rfl

theorem Blank.rows {t : Terminal} (blank : Blank 0 t) (rows : Nat) :
    Blank (rows * vgaWidth) ((List.range rows).foldl (fun t y =>
      (List.range vgaWidth).foldl (fun t x => terminalPutentryat t space t.terminalColor x y) t) t) := by
  induction rows with
  | zero =>
    rw [Nat.zero_mul]
    exact blank
  | succ rows ih =>
    rw [List.range_succ, List.foldl_append, Nat.add_mul, Nat.one_mul, List.foldl_cons, List.foldl_nil]
    exact ih.row rows vgaWidth

theorem initialize_blank (before : Terminal) :
    Blank (vgaHeight * vgaWidth) (terminalInitialize before) := by
  unfold terminalInitialize
  apply Blank.rows
  exact ⟨rfl, fun cell below => absurd below (Nat.not_lt_zero cell)⟩

theorem empty_shows (before : Terminal) : empty.Shows (terminalInitialize before) where
  row := (initialize_cursor before).1
  column := (initialize_cursor before).2
  inside := Nat.zero_lt_succ _
  color := by
    rw [(initialize_blank before).color]
    rfl
  ahead _ _ _ := rfl
  cells row inRow column inColumn := by
    have blank : empty.shown row column = vgaEntry space (vgaEntryColor .lightGrey .black) := by
      unfold shown empty Window.newest
      rw [Option.none_or, ite_self]
      rfl
    rw [blank]
    apply (initialize_blank before).cells
    unfold vgaHeight vgaWidth at *
    omega

end Roll

/-! ## What the kernel writes -/

/-- The calls that kernel code prints with. -/
inductive Output where
  | terminal (c : Call)
  | setcolor (color : UInt8)
  | printf (format : CString) (parameters : List Arg)
  | puts (string : CString)

/-- `putchar` of the C library hands each byte of a `printf` on with `terminal_write`; the
loop of `printf` reads a byte of its format in every round. -/
def output (bound : Nat) (t : Terminal) : Output → Option Terminal
  | .terminal c => call bound t c
  | .setcolor color => some (terminalSetcolor t color)
  | .printf format parameters => do
    let result ← Libc.printf (format.bytes.length + 1) format.object parameters
    run (fun t c => terminalWrite bound t [c]) t result.out
  | .puts string => do
    let result ← Libc.puts 4 string
    run (fun t c => terminalWrite bound t [c]) t result.out

/-- Arguments of the types that the format asks for, and no more text than an `int` counts. -/
def Output.Fits : Output → Prop
  | .printf format parameters => Matching (conversions format.bytes) parameters ∧
      (expand format.bytes parameters).length ≤ intMax
  | .puts string => string.bytes.length < intMax
  | _ => True

/-- The one thing after another that the calls come down to. -/
inductive Signal where
  | byte (uc : UInt8)
  | color (color : UInt8)
  deriving DecidableEq

def Output.signals : Output → List Signal
  | .terminal c => c.bytes.map .byte
  | .setcolor color => [.color color]
  | .printf format parameters => (expand format.bytes parameters).map .byte
  | .puts string => (string.bytes ++ [newline]).map .byte

def send (bound : Nat) (t : Terminal) : Signal → Option Terminal
  | .byte uc => terminalPutchar bound t uc
  | .color color => some (terminalSetcolor t color)

theorem run_send_bytes (bound : Nat) (t : Terminal) (bytes : List UInt8) :
    run (send bound) t (bytes.map .byte) = run (terminalPutchar bound) t bytes := by
  induction bytes generalizing t with
  | nil => rfl
  | cons c rest ih =>
    rw [List.map_cons, run_cons, run_cons]
    congr 1
    funext next
    exact ih next

theorem run_write_one (bound : Nat) (t : Terminal) (bytes : List UInt8) :
    run (fun t c => terminalWrite bound t [c]) t bytes = run (terminalPutchar bound) t bytes := by
  have one : (fun t c => terminalWrite bound t [c]) = terminalPutchar bound := by
    funext t c
    exact Option.bind_fun_some _
  rw [one]

theorem output_eq (bound : Nat) (t : Terminal) {o : Output} (fits : o.Fits) :
    output bound t o = run (send bound) t o.signals := by
  cases o with
  | terminal c => rw [Output.signals, run_send_bytes, output, call_eq]
  | setcolor color => rfl
  | printf format parameters =>
    obtain ⟨matching, short⟩ := fits
    obtain ⟨result, returned, expands⟩ :=
      printf_expands_of format parameters matching (Nat.lt_succ_self _)
    unfold Expands at expands
    rw [if_pos short] at expands
    rw [Output.signals, run_send_bytes, output, returned, ← expands.2.1]
    exact run_write_one bound t result.out
  | puts string =>
    obtain ⟨result, returned, puts⟩ := puts_expands_of string (show 3 < 4 by decide)
    have short : string.bytes.length < intMax := fits
    rw [if_pos short] at puts
    have same : result.out = string.bytes ++ [newline] := puts.2
    rw [Output.signals, run_send_bytes, output, returned, ← same]
    exact run_write_one bound t result.out

theorem run_output_eq (bound : Nat) (t : Terminal) {outputs : List Output} (fits : ∀ o ∈ outputs, o.Fits) :
    run (output bound) t outputs = run (send bound) t (outputs.flatMap Output.signals) := by
  induction outputs generalizing t with
  | nil => rfl
  | cons o rest ih =>
    obtain ⟨here, later⟩ := List.forall_mem_cons.mp fits
    rw [run_cons, output_eq bound t here, List.flatMap_cons, run_append]
    congr 1
    funext next
    exact ih next later

namespace Roll

def signal (r : Roll) : Signal → Roll
  | .byte uc => r.byte uc
  | .color color => { r with color }

def AdmitsSignal (r : Roll) : Signal → Prop
  | .byte uc => r.Admits uc
  | .color _ => True

namespace Shows

variable {r : Roll} {t t' : Terminal}

theorem signal (shows : r.Shows t) {bound : Nat} {s : Signal} (sent : send bound t s = some t') :
    (r.signal s).Shows t' := by
  cases s with
  | byte uc => exact shows.byte sent
  | color color => exact Option.some.inj sent ▸ shows.setcolor color

theorem signals (shows : r.Shows t) {bound : Nat} {signals : List Signal}
    (sent : run (send bound) t signals = some t') : (signals.foldl Roll.signal r).Shows t' := by
  induction signals generalizing r t with
  | nil => exact Option.some.inj sent ▸ shows
  | cons s rest ih =>
    rw [run_cons] at sent
    obtain ⟨next, first, later⟩ := Option.bind_eq_some_iff.mp sent
    exact ih (shows.signal first) later

theorem admitsSignal_iff (shows : r.Shows t) (s : Signal) :
    (∃ bound t', send bound t s = some t') ↔ r.AdmitsSignal s := by
  cases s with
  | byte uc => exact shows.admits_iff uc
  | color color => exact ⟨fun _ => trivial, fun _ => ⟨0, _, rfl⟩⟩

theorem send_mono {bound more : Nat} (enough : bound ≤ more) {s : Signal}
    (sent : send bound t s = some t') : send more t s = some t' := by
  cases s with
  | byte uc => exact putchar_mono enough sent
  | color color => exact sent

/-- Whether the terminal comes back from a run can be seen on the roll alone. -/
theorem returns_iff (shows : r.Shows t) (signals : List Signal) :
    (∃ bound t', run (send bound) t signals = some t') ↔
      Along (fun r s => some (r.signal s)) AdmitsSignal r signals := by
  induction signals generalizing r t with
  | nil => exact ⟨fun _ => trivial, fun _ => ⟨0, t, rfl⟩⟩
  | cons s rest ih =>
    constructor
    · rintro ⟨bound, t', sent⟩
      rw [run_cons] at sent
      obtain ⟨next, first, later⟩ := Option.bind_eq_some_iff.mp sent
      refine ⟨(shows.admitsSignal_iff s).mp ⟨bound, next, first⟩, fun r' stepped => ?_⟩
      cases Option.some.inj stepped
      exact (ih (shows.signal first)).mp ⟨bound, t', later⟩
    · rintro ⟨admits, later⟩
      obtain ⟨bound, next, first⟩ := (shows.admitsSignal_iff s).mpr admits
      obtain ⟨bound', t', rest⟩ := (ih (shows.signal first)).mpr (later _ rfl)
      refine ⟨max bound bound', t', ?_⟩
      rw [run_cons, send_mono (Nat.le_max_left bound bound') first]
      exact run_mono (fun _ _ _ => send_mono (Nat.le_max_right bound bound')) rest

/-- An entry stays in view until a line some multiple of 25 below has one in its column. -/
theorem lasting (shows : r.Shows t) {line column : Nat} {entry : UInt16} (past : line ≤ r.line)
    (inColumn : column < vgaWidth) (written : r.strips column line = some entry)
    (last : ∀ later, line < later → later ≤ r.line → later % vgaHeight = line % vgaHeight →
      r.strips column later = none) :
    t.terminalBuffer.cells (line % vgaHeight * vgaWidth + column) = entry := by
  rw [shows.cells _ (Nat.mod_lt _ (by decide)) column inColumn, shown,
    Window.newest_of_last (Nat.lt_succ_of_le past) written
      fun later above below => last later above (Nat.le_of_lt_succ below)]
  rfl

end Shows

theorem along_of_noTab (r : Roll) {signals : List Signal} (noTab : ∀ s ∈ signals, s ≠ .byte tab) :
    Along (fun r s => some (signal r s)) AdmitsSignal r signals := by
  have returns : ∀ (r : Roll) (s : Signal), True → s ≠ .byte tab →
      ∃ next, some (r.signal s) = some next ∧ True := fun r s _ _ => ⟨_, rfl, trivial⟩
  refine ((Along.inputs _ returns trivial).mpr noTab).imp fun r s other => ?_
  cases s with
  | byte uc => exact fun isTab => absurd (congrArg Signal.byte isTab) other
  | color color => trivial

end Roll

/-- The roll after these calls. -/
def paper (outputs : List Output) : Roll :=
  (outputs.flatMap Output.signals).foldl Roll.signal .empty

/-- Whatever the kernel prints, the screen is the window over the roll of it, and the printing
comes to its end exactly when no tab on the roll is in the last eight columns. -/
theorem terminal_rolls (before : Terminal) {outputs : List Output} (fits : ∀ o ∈ outputs, o.Fits) :
    ((∃ bound t, run (output bound) (terminalInitialize before) outputs = some t) ↔
      Along (fun r s => some (r.signal s)) Roll.AdmitsSignal .empty
        (outputs.flatMap Output.signals)) ∧
    ∀ bound t, run (output bound) (terminalInitialize before) outputs = some t →
      (paper outputs).Shows t ∧
      ∀ line ≤ (paper outputs).line, ∀ column < vgaWidth, ∀ entry,
        (paper outputs).strips column line = some entry →
        (∀ later, line < later → later ≤ (paper outputs).line → later % vgaHeight = line % vgaHeight →
          (paper outputs).strips column later = none) →
        t.terminalBuffer.cells (line % vgaHeight * vgaWidth + column) = entry := by
  simp only [run_output_eq _ _ fits]
  have start := Roll.empty_shows before
  refine ⟨start.returns_iff _, fun bound t sent => ?_⟩
  have shows : (paper outputs).Shows t := start.signals sent
  exact ⟨shows, fun line past column inColumn entry written last =>
    shows.lasting past inColumn written last⟩

/-- Twenty-six lines: the last one begins over the first. -/
def lines26 : List Output :=
  List.replicate 25 (.puts (CString.literal "ab")) ++ [.setcolor 0x0C, .printf (CString.literal "%c") [.int 0x63]]

theorem terminal_rolls_lines26 :
    ∃ bound t, run (output bound) (terminalInitialize powerOn) lines26 = some t ∧
      t.terminalBuffer.cells 0 = 0x0C63 ∧ t.terminalBuffer.cells 1 = 0x0762 := by
  have fits : ∀ o ∈ lines26, o.Fits := by
    intro o member
    rcases List.mem_append.mp member with line | line
    · rw [List.eq_of_mem_replicate line]
      exact (by decide : (CString.literal "ab").bytes.length < intMax)
    · simp only [List.mem_cons, List.not_mem_nil, or_false] at line
      rcases line with rfl | rfl
      · trivial
      · exact ⟨trivial, by decide⟩
  have noTab : ∀ s ∈ lines26.flatMap Output.signals, s ≠ .byte tab := by decide +kernel
  have rolls := terminal_rolls powerOn fits
  obtain ⟨bound, t, ran⟩ := rolls.1.mpr (Roll.along_of_noTab _ noTab)
  have lasting := (rolls.2 bound t ran).2
  have lastLine : (paper lines26).line = 25 := by decide +kernel
  refine ⟨bound, t, ran, ?_, ?_⟩
  · refine lasting 25 (by rw [lastLine]) 0 (by decide) _ (by decide +kernel) ?_
    intro later above below
    omega
  · refine lasting 0 (Nat.zero_le _) 1 (by decide) _ (by decide +kernel) ?_
    intro later above below same
    have top : later = 25 := by
      unfold vgaHeight at same
      omega
    subst top
    decide +kernel

end SzOS.Kernel.Tty
