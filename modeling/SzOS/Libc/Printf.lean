import Mathlib.Algebra.Group.Nat.Defs
import Mathlib.Data.List.TakeWhile
import SzOS.Libc.CString
import SzOS.Semantics.Loop

/-! `printf` and `puts` of the C library (stdio/printf.c, stdio/puts.c).

The scanning loop is compared with an expansion of the format byte by byte. A
pointer into a string is what is left of its object, so a read past the
terminator has no value and no run here makes one.
-/

set_option autoImplicit false

namespace SzOS.Libc
open Semantics

abbrev CInt := BitVec 32

def eof : CInt := -1
def intMax : Nat := 2 ^ 31 - 1

def percent : UInt8 := 37
def letterC : UInt8 := 99
def letterS : UInt8 := 115
def newline : UInt8 := 10

inductive Arg where
  | int (value : CInt)
  | pointer (str : CString)

def lowByte (value : CInt) : UInt8 := UInt8.ofBitVec (value.setWidth 8)

/-! ## The code -/

/-- putchar.c: the result, and the bytes put so far. -/
def putchar (ic : CInt) (out : List UInt8) : CInt × List UInt8 :=
  let c := lowByte ic
  (ic, out ++ [c])

/-- `print`: each byte goes to `putchar` as an `unsigned char`. -/
def print (data : List UInt8) (length : Nat) (out : List UInt8) : Option (Bool × List UInt8) :=
  match length, data with
  | 0, _ => some (true, out)
  | _ + 1, [] => none
  | length + 1, byte :: data =>
    let (result, out) := putchar (byte.toBitVec.setWidth 32) out
    if result = eof then some (false, out) else print data length out

/-- `while (format[amount] && format[amount] != '%') amount++;` from `format + amount` on. -/
def scanLiteral (format : List UInt8) (amount : Nat) : Option Nat :=
  match format with
  | [] => none
  | byte :: format =>
    if byte ≠ 0 ∧ byte ≠ percent then scanLiteral format (amount + 1) else some amount

structure PrintState where
  format : List UInt8
  parameters : List Arg
  written : Nat
  out : List UInt8
  failed : Bool

/-- The test of the room left and the call of `print`, with the format after it. -/
def printRun (st : PrintState) (data : List UInt8) (amount : Nat) (format : List UInt8) :
    Option PrintState :=
  let maxrem := intMax - st.written
  if maxrem < amount then some { st with failed := true }
  else do
    let (ok, out) ← print data amount st.out
    if ok then some { st with format, written := st.written + amount, out }
    else some { st with out, failed := true }

def vaArgInt : List Arg → Option (CInt × List Arg)
  | .int value :: parameters => some (value, parameters)
  | _ => none

def vaArgPointer : List Arg → Option (CString × List Arg)
  | .pointer str :: parameters => some (str, parameters)
  | _ => none

def printLiteral (st : PrintState) (format : List UInt8) : Option PrintState := do
  let amount ← scanLiteral (format.drop 1) 1
  printRun st format amount (format.drop amount)

/-- `format` is just past the `%`, which `st.format` still points to. -/
def printDirective (st : PrintState) (format : List UInt8) : Option PrintState := do
  let byte ← format.head?
  if byte = letterC then
    let (value, parameters) ← vaArgInt st.parameters
    printRun { st with parameters } [lowByte value] 1 (format.drop 1)
  else if byte = letterS then
    let (str, parameters) ← vaArgPointer st.parameters
    let len ← strlen str.object
    printRun { st with parameters } str.object len (format.drop 1)
  else
    -- back to the `%`, and the rest as it is
    let len ← strlen st.format
    printRun st st.format len (st.format.drop len)

def printStep (st : PrintState) : Option PrintState := do
  let first ← st.format.head?
  if first ≠ percent then printLiteral st st.format
  else
    let second ← (st.format.drop 1).head?
    if second = percent then printLiteral st (st.format.drop 1)
    else printDirective st (st.format.drop 1)

/-- An early `return -1` leaves the loop as the terminator does. -/
def printing (st : PrintState) : Bool := !st.failed && st.format.head? ≠ some 0

structure PrintResult where
  value : Int
  out : List UInt8
  parameters : List Arg

/-- The loop of `printf`, with a bound on its rounds. -/
def printf (bound : Nat) (format : List UInt8) (parameters : List Arg) : Option PrintResult :=
  (whileLoop printing printStep bound
    { format, parameters, written := 0, out := [], failed := false }).map fun st =>
      { value := if st.failed then -1 else st.written, out := st.out, parameters := st.parameters }

def puts (bound : Nat) (string : CString) : Option PrintResult :=
  printf bound [percent, letterS, newline, 0] [.pointer string]

/-! ## The reference expansion -/

inductive Conversion where
  | char | string

/-- The directives that take an argument, up to the first that is not known. -/
def conversions : List UInt8 → List Conversion
  | [] | [_] => []
  | byte :: next :: rest =>
    if byte ≠ percent then conversions (next :: rest)
    else if next = percent then conversions rest
    else if next = letterC then .char :: conversions rest
    else if next = letterS then .string :: conversions rest
    else []

/-- The arguments begin with one of the right type for each conversion. -/
def Matching : List Conversion → List Arg → Prop
  | [], _ => True
  | .char :: rest, .int _ :: parameters => Matching rest parameters
  | .string :: rest, .pointer _ :: parameters => Matching rest parameters
  | _ :: _, _ => False

def expand : List UInt8 → List Arg → List UInt8
  | [], _ => []
  | [byte], _ => [byte]
  | byte :: next :: rest, parameters =>
    if byte ≠ percent then byte :: expand (next :: rest) parameters
    else if next = percent then percent :: expand rest parameters
    else if next = letterC then
      match parameters with
      | .int value :: parameters => lowByte value :: expand rest parameters
      | _ => []
    else if next = letterS then
      match parameters with
      | .pointer str :: parameters => str.bytes ++ expand rest parameters
      | _ => []
    else byte :: next :: rest

section Expansion

variable {byte next : UInt8} {rest : List UInt8} {parameters : List Arg}

theorem expand_cons (literal : byte ≠ percent) (rest : List UInt8) (parameters : List Arg) :
    expand (byte :: rest) parameters = byte :: expand rest parameters := by
  cases rest with
  | nil => rfl
  | cons next rest => exact if_pos literal

theorem expand_percent (rest : List UInt8) (parameters : List Arg) :
    expand (percent :: percent :: rest) parameters = percent :: expand rest parameters := rfl

theorem expand_char (rest : List UInt8) (value : CInt) (parameters : List Arg) :
    expand (percent :: letterC :: rest) (.int value :: parameters) =
      lowByte value :: expand rest parameters := rfl

theorem expand_string (rest : List UInt8) (str : CString) (parameters : List Arg) :
    expand (percent :: letterS :: rest) (.pointer str :: parameters) =
      str.bytes ++ expand rest parameters := rfl

theorem conversions_cons (literal : byte ≠ percent) (rest : List UInt8) :
    conversions (byte :: rest) = conversions rest := by
  cases rest with
  | nil => rfl
  | cons next rest => exact if_pos literal

theorem conversions_percent (rest : List UInt8) :
    conversions (percent :: percent :: rest) = conversions rest := rfl

theorem conversions_char (rest : List UInt8) :
    conversions (percent :: letterC :: rest) = .char :: conversions rest := rfl

theorem conversions_string (rest : List UInt8) :
    conversions (percent :: letterS :: rest) = .string :: conversions rest := rfl

variable {run : List UInt8}

theorem expand_run (literal : ∀ byte ∈ run, byte ≠ percent) (rest : List UInt8)
    (parameters : List Arg) : expand (run ++ rest) parameters = run ++ expand rest parameters := by
  induction run with
  | nil => rfl
  | cons byte run ih =>
    obtain ⟨first, later⟩ := List.forall_mem_cons.mp literal
    rw [List.cons_append, expand_cons first, ih later, List.cons_append]

theorem conversions_run (literal : ∀ byte ∈ run, byte ≠ percent) (rest : List UInt8) :
    conversions (run ++ rest) = conversions rest := by
  induction run with
  | nil => rfl
  | cons byte run ih =>
    obtain ⟨first, later⟩ := List.forall_mem_cons.mp literal
    rw [List.cons_append, conversions_cons first, ih later]

/-- A `%` that begins no known directive. -/
def Unknown (rest : List UInt8) : Prop :=
  ∃ tail, rest = percent :: tail ∧
    ∀ next, tail.head? = some next → next ≠ percent ∧ next ≠ letterC ∧ next ≠ letterS

theorem expand_unknown (unknown : Unknown rest) (parameters : List Arg) :
    expand rest parameters = rest := by
  obtain ⟨tail, rfl, other⟩ := unknown
  cases tail with
  | nil => rfl
  | cons next tail =>
    obtain ⟨notPercent, notC, notS⟩ := other next rfl
    simp [expand, notPercent, notC, notS]

theorem conversions_unknown (unknown : Unknown rest) : conversions rest = [] := by
  obtain ⟨tail, rfl, other⟩ := unknown
  cases tail with
  | nil => rfl
  | cons next tail =>
    obtain ⟨notPercent, notC, notS⟩ := other next rfl
    simp [conversions, notPercent, notC, notS]

/-- The terminator is no directive either, so the byte after a lone `%` is not one. -/
theorem unknown_begins (unknown : Unknown rest) : ∃ next more, rest ++ [0] = percent :: next :: more ∧
    next ≠ percent ∧ next ≠ letterC ∧ next ≠ letterS := by
  obtain ⟨tail, rfl, other⟩ := unknown
  cases tail with
  | nil => exact ⟨0, [], rfl, by decide⟩
  | cons next tail => exact ⟨next, tail ++ [0], rfl, other next rfl⟩

end Expansion

/-! ## One round of the loop -/

theorem print_append (data more out : List UInt8) :
    print (data ++ more) data.length out = some (true, out ++ data) := by
  induction data generalizing out with
  | nil => simp [print]
  | cons byte data ih =>
    have notEof : byte.toBitVec.setWidth 32 ≠ eof := by
      have none : ∀ byte : BitVec 8, byte.setWidth 32 ≠ eof := by decide
      exact none byte.toBitVec
    have same : lowByte (byte.toBitVec.setWidth 32) = byte := by
      simp [lowByte]
    simp only [List.cons_append, List.length_cons, print, putchar, if_neg notEof, same, ih,
      List.append_assoc, List.nil_append]

/-- The state after a run of bytes, or after the return for want of room. -/
def advance (st : PrintState) (chunk format : List UInt8) : PrintState :=
  if intMax - st.written < chunk.length then { st with failed := true }
  else { st with format, written := st.written + chunk.length, out := st.out ++ chunk }

theorem printRun_append (st : PrintState) (chunk more format : List UInt8) :
    printRun st (chunk ++ more) chunk.length format = some (advance st chunk format) := by
  unfold printRun advance
  dsimp only
  split
  next => rfl
  next =>
    rw [print_append]
    rfl

/-- The scan stops at the next `%` or at the terminator. -/
theorem scan_terminated {tail : List UInt8} (nonzero : ∀ byte ∈ tail, byte ≠ 0) (amount : Nat) :
    scanLiteral (tail ++ [0]) amount = some (amount + (tail.takeWhile (· ≠ percent)).length) := by
  induction tail generalizing amount with
  | nil => simp [scanLiteral]
  | cons byte tail ih =>
    obtain ⟨first, later⟩ := List.forall_mem_cons.mp nonzero
    rw [List.cons_append, scanLiteral]
    by_cases literal : byte = percent
    · simp [literal]
    · rw [if_pos ⟨first, literal⟩, ih later]
      simp [literal]
      omega

/-- The state at the top of the loop, with `rest` of the format to read. -/
def scanning (rest : List UInt8) (parameters : List Arg) (written : Nat) (out : List UInt8) :
    PrintState :=
  { format := rest ++ [0], parameters, written, out, failed := false }

/-- The piece that one round reads off the rest of the format: its text, the bytes
it stands for, and the arguments it takes. Cutting the format further on does not
change the piece. -/
structure Reads (rest : List UInt8) (parameters : List Arg) (text chunk next : List UInt8)
    (used : Nat) : Prop where
  split : rest = text ++ next
  progress : text ≠ []
  expands : ∀ more, more <+: next →
    expand (text ++ more) parameters = chunk ++ expand more (parameters.drop used)
  converts : ∀ more, more <+: next →
    (conversions (text ++ more)).length = used + (conversions more).length
  single : used ≤ 1
  matching : Matching (conversions next) (parameters.drop used)
  steps : ∀ written out, printStep (scanning rest parameters written out) =
    some (advance { scanning rest parameters written out with parameters := parameters.drop used }
      chunk (next ++ [0]))

def Round (rest : List UInt8) (parameters : List Arg) : Prop :=
  ∃ text chunk next used, Reads rest parameters text chunk next used

section Round

variable {byte : UInt8} {tail rest : List UInt8} {parameters : List Arg}

def literalRun (tail : List UInt8) : List UInt8 := tail.takeWhile (· ≠ percent)
def afterRun (tail : List UInt8) : List UInt8 := tail.dropWhile (· ≠ percent)

theorem literalRun_append (tail : List UInt8) : literalRun tail ++ afterRun tail = tail :=
  List.takeWhile_append_dropWhile

theorem literalRun_literal (tail : List UInt8) : ∀ byte ∈ literalRun tail, byte ≠ percent := by
  intro byte member
  simpa using List.mem_takeWhile_imp member

theorem printLiteral_spec (nonzero : ∀ byte ∈ tail, byte ≠ 0) (st : PrintState) :
    printLiteral st (byte :: (tail ++ [0])) =
      some (advance st (byte :: literalRun tail) (afterRun tail ++ [0])) := by
  have parts : byte :: (tail ++ [0]) = (byte :: literalRun tail) ++ (afterRun tail ++ [0]) := by
    rw [List.cons_append, ← List.append_assoc, literalRun_append]
  have length : 1 + (tail.takeWhile (· ≠ percent)).length = (byte :: literalRun tail).length := by
    rw [List.length_cons, Nat.add_comm]
    rfl
  unfold printLiteral
  rw [List.drop_one, List.tail_cons, scan_terminated nonzero, length, parts]
  simp only [Option.bind_eq_bind, Option.bind_some, List.drop_left]
  exact printRun_append st (byte :: literalRun tail) (afterRun tail ++ [0]) (afterRun tail ++ [0])

theorem round_literal (nonzero : ∀ b ∈ tail, b ≠ 0) (literal : byte ≠ percent)
    (matching : Matching (conversions (byte :: tail)) parameters) :
    Round (byte :: tail) parameters := by
  have run : ∀ b ∈ byte :: literalRun tail, b ≠ percent :=
    List.forall_mem_cons.mpr ⟨literal, literalRun_literal tail⟩
  have split : byte :: tail = (byte :: literalRun tail) ++ afterRun tail := by
    rw [List.cons_append, literalRun_append]
  exists byte :: literalRun tail, byte :: literalRun tail, afterRun tail, 0
  apply Reads.mk split (List.cons_ne_nil _ _)
  case expands =>
    intro more _
    exact expand_run run more parameters
  case converts =>
    intro more _
    rw [conversions_run run, Nat.zero_add]
  case single => exact Nat.zero_le _
  case matching =>
    rw [split, conversions_run run] at matching
    exact matching
  case steps =>
    intro written out
    simp only [printStep, scanning, List.cons_append, List.head?_cons, Option.bind_eq_bind,
      Option.bind_some, ne_eq, literal, not_false_eq_true, if_true, printLiteral_spec nonzero,
      List.drop_zero]

/-- Of `%%` the second `%` opens a literal run. -/
theorem round_percent (nonzero : ∀ b ∈ tail, b ≠ 0)
    (matching : Matching (conversions (percent :: percent :: tail)) parameters) :
    Round (percent :: percent :: tail) parameters := by
  have run := literalRun_literal tail
  have split : percent :: percent :: tail =
      (percent :: percent :: literalRun tail) ++ afterRun tail := by
    rw [List.cons_append, List.cons_append, literalRun_append]
  exists percent :: percent :: literalRun tail, percent :: literalRun tail, afterRun tail, 0
  apply Reads.mk split (List.cons_ne_nil _ _)
  case expands =>
    intro more _
    rw [List.cons_append, List.cons_append, expand_percent, expand_run run]
    rfl
  case converts =>
    intro more _
    rw [List.cons_append, List.cons_append, conversions_percent, conversions_run run, Nat.zero_add]
  case single => exact Nat.zero_le _
  case matching =>
    rw [split, List.cons_append, List.cons_append, conversions_percent, conversions_run run]
      at matching
    exact matching
  case steps =>
    intro written out
    simp only [printStep, scanning, List.cons_append, List.head?_cons, List.drop_one,
      List.tail_cons, Option.bind_eq_bind, Option.bind_some, ne_eq, not_true_eq_false, if_false,
      if_true, printLiteral_spec nonzero, List.drop_zero]

theorem round_char (value : CInt)
    (matching : Matching (conversions (percent :: letterC :: tail)) (.int value :: parameters)) :
    Round (percent :: letterC :: tail) (.int value :: parameters) := by
  exists [percent, letterC], [lowByte value], tail, 1
  apply Reads.mk
  case split => rfl
  case progress => exact List.cons_ne_nil _ _
  case expands =>
    intro more _
    exact expand_char more value parameters
  case converts =>
    intro more _
    rw [List.cons_append, List.cons_append, List.nil_append, conversions_char, List.length_cons,
      Nat.add_comm]
  case single => exact le_rfl
  case matching =>
    rw [conversions_char] at matching
    exact matching
  case steps =>
    intro written out
    -- the argument is taken before the room is tested
    have plain : letterC ≠ percent := by decide
    simp only [printStep, printDirective, scanning, List.cons_append, List.head?_cons,
      List.drop_one, List.tail_cons, Option.bind_eq_bind, Option.bind_some, ne_eq,
      not_true_eq_false, if_false, if_true, plain, vaArgInt]
    exact printRun_append _ [lowByte value] [] (tail ++ [0])

theorem round_string (str : CString)
    (matching : Matching (conversions (percent :: letterS :: tail)) (.pointer str :: parameters)) :
    Round (percent :: letterS :: tail) (.pointer str :: parameters) := by
  exists [percent, letterS], str.bytes, tail, 1
  apply Reads.mk
  case split => rfl
  case progress => exact List.cons_ne_nil _ _
  case expands =>
    intro more _
    exact expand_string more str parameters
  case converts =>
    intro more _
    rw [List.cons_append, List.cons_append, List.nil_append, conversions_string, List.length_cons,
      Nat.add_comm]
  case single => exact le_rfl
  case matching =>
    rw [conversions_string] at matching
    exact matching
  case steps =>
    intro written out
    have plain : letterS ≠ percent := by decide
    have other : letterS ≠ letterC := by decide
    simp only [printStep, printDirective, scanning, List.cons_append, List.head?_cons,
      List.drop_one, List.tail_cons, Option.bind_eq_bind, Option.bind_some, ne_eq,
      not_true_eq_false, if_false, if_true, plain, other, vaArgPointer, strlen_object]
    exact printRun_append _ str.bytes [0] (tail ++ [0])

/-- From an unknown directive on, the rest of the format is one piece. -/
theorem round_unknown (nonzero : ∀ b ∈ rest, b ≠ 0) (unknown : Unknown rest) :
    Round rest parameters := by
  exists rest, rest, [], 0
  apply Reads.mk (List.append_nil rest).symm
  case progress =>
    obtain ⟨tail, rfl, _⟩ := unknown
    exact List.cons_ne_nil _ _
  case expands =>
    intro more none
    rw [List.prefix_nil.mp none, List.append_nil, expand_unknown unknown]
    exact (List.append_nil rest).symm
  case converts =>
    intro more none
    rw [List.prefix_nil.mp none, List.append_nil, conversions_unknown unknown]
    rfl
  case single => exact Nat.zero_le _
  case matching => trivial
  case steps =>
    intro written out
    have length : strlen (rest ++ [0]) = some rest.length := by
      simp [strlen, strlenFrom_terminated rest [] nonzero]
    have last := printRun_append (scanning rest parameters written out) rest [0] [0]
    obtain ⟨next, more, begins, notPercent, notC, notS⟩ := unknown_begins unknown
    have first : (rest ++ [0]).head? = some percent := by rw [begins]; rfl
    have second : ((rest ++ [0]).drop 1).head? = some next := by rw [begins]; rfl
    simp only [printStep, printDirective, scanning, first, second, Option.bind_eq_bind,
      Option.bind_some, ne_eq, not_true_eq_false, if_false, notPercent, notC, notS, length,
      List.drop_left]
    exact last

theorem round_of (nonempty : rest ≠ []) (nonzero : ∀ b ∈ rest, b ≠ 0)
    (matching : Matching (conversions rest) parameters) : Round rest parameters := by
  cases rest with
  | nil => contradiction
  | cons byte tail =>
    have later := (List.forall_mem_cons.mp nonzero).2
    by_cases literal : byte = percent
    case neg => exact round_literal later literal matching
    subst literal
    cases tail with
    | nil => exact round_unknown nonzero ⟨[], rfl, by simp⟩
    | cons next tail =>
      by_cases double : next = percent
      · subst double
        exact round_percent (List.forall_mem_cons.mp later).2 matching
      by_cases char : next = letterC
      · subst char
        rw [conversions_char] at matching
        match parameters, matching with
        | .int value :: parameters, matching =>
          exact round_char value (by rwa [conversions_char])
      by_cases string : next = letterS
      · subst string
        rw [conversions_string] at matching
        match parameters, matching with
        | .pointer str :: parameters, matching =>
          exact round_string str (by rwa [conversions_string])
      · apply round_unknown nonzero
        exists next :: tail, rfl
        intro first same
        cases same
        exact ⟨double, char, string⟩

end Round

/-! ## The loop -/

section Run

variable {rest : List UInt8} {parameters : List Arg} {written : Nat} {out : List UInt8}

/-- Everything is put, and each directive has taken its argument. -/
def Completed (rest : List UInt8) (parameters : List Arg) (written : Nat) (out : List UInt8) :
    PrintState :=
  { format := [0], parameters := parameters.drop (conversions rest).length,
    written := written + (expand rest parameters).length, out := out ++ expand rest parameters,
    failed := false }

/-- The room ends at `piece`: what is before it has been put, and its argument is taken. -/
structure Stopped (rest : List UInt8) (parameters : List Arg) (out : List UInt8)
    (final : PrintState) (done piece : List UInt8) : Prop where
  failed : final.failed = true
  cut : done ++ piece <+: rest
  put : final.out = out ++ expand done parameters
  partial_ : expand done parameters <+: expand rest parameters
  single : (conversions (done ++ piece)).length ≤ (conversions done).length + 1
  taken : final.parameters = parameters.drop (conversions (done ++ piece)).length

/-- What the loop leaves behind, by whether the expansion fits in an `int`. -/
def Ends (rest : List UInt8) (parameters : List Arg) (written : Nat) (out : List UInt8)
    (final : PrintState) : Prop :=
  if written + (expand rest parameters).length ≤ intMax then
    final = Completed rest parameters written out
  else ∃ done piece, Stopped rest parameters out final done piece

theorem printing_scanning (nonempty : rest ≠ []) (nonzero : ∀ b ∈ rest, b ≠ 0) :
    printing (scanning rest parameters written out) = true := by
  cases rest with
  | nil => contradiction
  | cons byte tail =>
    have first := (List.forall_mem_cons.mp nonzero).1
    simp [printing, scanning, first]

theorem printing_nil : printing (scanning [] parameters written out) = false := by
  simp [printing, scanning]

section Piece

variable {text chunk next : List UInt8} {used : Nat}

theorem ends_of_overflow (reads : Reads rest parameters text chunk next used)
    (room : written ≤ intMax) (overflow : intMax - written < chunk.length) :
    Ends rest parameters written out
      { scanning rest parameters written out with
        parameters := parameters.drop used, failed := true } := by
  have whole : expand rest parameters = chunk ++ expand next (parameters.drop used) := by
    rw [reads.split]
    exact reads.expands next List.prefix_rfl
  have taken : (conversions text).length = used := by
    have converts := reads.converts [] List.nil_prefix
    rwa [List.append_nil] at converts
  have long : ¬ written + (expand rest parameters).length ≤ intMax := by
    rw [whole, List.length_append]
    omega
  rw [Ends, if_neg long]
  exists [], text
  apply Stopped.mk rfl
  · rw [reads.split]
    exact List.prefix_append text next
  · exact (List.append_nil out).symm
  · exact List.nil_prefix
  · rw [List.nil_append, taken]
    exact reads.single
  · rw [List.nil_append, taken]

/-- How the run ends after a piece is how it ends. -/
theorem ends_of_piece (reads : Reads rest parameters text chunk next used) {final : PrintState}
    (later : Ends next (parameters.drop used) (written + chunk.length) (out ++ chunk) final) :
    Ends rest parameters written out final := by
  have expands : ∀ more, more <+: next →
      expand (text ++ more) parameters = chunk ++ expand more (parameters.drop used) :=
    reads.expands
  have whole : expand rest parameters = chunk ++ expand next (parameters.drop used) := by
    rw [reads.split]
    exact expands next List.prefix_rfl
  have sum : written + (expand rest parameters).length =
      written + chunk.length + (expand next (parameters.drop used)).length := by
    rw [whole, List.length_append, Nat.add_assoc]
  unfold Ends at later ⊢
  rw [sum]
  split
  next fits =>
    rw [if_pos fits] at later
    have converts : (conversions rest).length = used + (conversions next).length := by
      rw [reads.split]
      exact reads.converts next List.prefix_rfl
    rw [later]
    simp only [Completed, converts, whole, List.drop_drop, List.length_append, List.append_assoc,
      Nat.add_assoc]
  next long =>
    rw [if_neg long] at later
    obtain ⟨done, piece, stopped⟩ := later
    -- the later part stops at its own piece, this one puts its text in front
    have before : done <+: next := (List.prefix_append done piece).trans stopped.cut
    exists text ++ done, piece
    apply Stopped.mk stopped.failed
    · rw [reads.split, List.append_assoc]
      exact (List.prefix_append_right_inj text).mpr stopped.cut
    · rw [stopped.put, expands done before, List.append_assoc]
    · rw [whole, expands done before]
      exact (List.prefix_append_right_inj chunk).mpr stopped.partial_
    · rw [List.append_assoc, reads.converts (done ++ piece) stopped.cut, reads.converts done before,
        Nat.add_assoc]
      exact Nat.add_le_add_left stopped.single used
    · rw [stopped.taken, List.append_assoc, reads.converts (done ++ piece) stopped.cut,
        List.drop_drop]

end Piece

/-- The induction is on what is left of the format: each round reads at least a byte. -/
theorem loop_ends (out : List UInt8) (nonzero : ∀ b ∈ rest, b ≠ 0)
    (matching : Matching (conversions rest) parameters) (room : written ≤ intMax) {bound : Nat}
    (enough : rest.length < bound) :
    ∃ final, whileLoop printing printStep bound (scanning rest parameters written out) = some final ∧
      Ends rest parameters written out final := by
  induction bound generalizing rest parameters written out with
  | zero => omega
  | succ bound ih =>
    by_cases empty : rest = []
    · subst empty
      have fits : written + (expand [] parameters).length ≤ intMax := room
      refine ⟨scanning [] parameters written out, whileLoop_exit printing_nil bound, ?_⟩
      rw [Ends, if_pos fits]
      simp [Completed, scanning, conversions, expand]
    obtain ⟨text, chunk, next, used, reads⟩ := round_of empty nonzero matching
    have go : printing (scanning rest parameters written out) = true :=
      printing_scanning empty nonzero
    rw [whileLoop_step go (reads.steps written out)]
    have split := reads.split
    unfold advance
    split
    next overflow =>
      -- the state after `return -1` fails the test
      have more : 0 < bound := by
        have progress := List.length_pos_iff.mpr reads.progress
        rw [split, List.length_append] at enough
        omega
      obtain ⟨bound, rfl⟩ := Nat.exists_eq_add_one.mpr more
      exact ⟨_, whileLoop_exit rfl bound, ends_of_overflow reads room overflow⟩
    next fits =>
      have shorter : next.length < bound := by
        have progress := List.length_pos_iff.mpr reads.progress
        rw [split, List.length_append] at enough
        omega
      have later : ∀ b ∈ next, b ≠ 0 := by
        intro b member
        exact nonzero b (split ▸ List.mem_append_right text member)
      have left : written + chunk.length ≤ intMax := by
        simp only [scanning] at fits
        omega
      obtain ⟨final, ended, ends⟩ := ih (out ++ chunk) later reads.matching left shorter
      exact ⟨final, ended, ends_of_piece reads ends⟩

end Run

/-! ## The contract -/

/-- What a call gives back for a format and its arguments. -/
def Expands (format : List UInt8) (parameters : List Arg) (result : PrintResult) : Prop :=
  if (expand format parameters).length ≤ intMax then
    result.value = (expand format parameters).length ∧ result.out = expand format parameters ∧
      result.parameters = parameters.drop (conversions format).length
  else
    result.value = -1 ∧ result.out <+: expand format parameters ∧
      ∃ done piece, done ++ piece <+: format ∧ result.out = expand done parameters ∧
        (conversions (done ++ piece)).length ≤ (conversions done).length + 1 ∧
        result.parameters = parameters.drop (conversions (done ++ piece)).length

theorem printf_expands_of (format : CString) (parameters : List Arg)
    (matching : Matching (conversions format.bytes) parameters) {bound : Nat}
    (enough : format.bytes.length < bound) :
    ∃ result, printf bound format.object parameters = some result ∧
      Expands format.bytes parameters result := by
  obtain ⟨final, ended, ends⟩ := loop_ends [] format.nonzero matching (Nat.zero_le intMax) enough
  exists { value := if final.failed then -1 else final.written, out := final.out,
           parameters := final.parameters }
  apply And.intro
  · rw [printf]
    exact congrArg _ ended
  · unfold Ends at ends
    unfold Expands
    rw [Nat.zero_add] at ends
    split
    next fits =>
      rw [if_pos fits] at ends
      subst ends
      simp [Completed]
    next long =>
      rw [if_neg long] at ends
      obtain ⟨done, piece, stopped⟩ := ends
      have put : final.out = expand done parameters := stopped.put
      refine ⟨by simp [stopped.failed], ?_, done, piece, stopped.cut, put, stopped.single, stopped.taken⟩
      exact put ▸ stopped.partial_

theorem puts_expands_of (string : CString) {bound : Nat} (enough : 3 < bound) :
    ∃ result, puts bound string = some result ∧
      (if string.bytes.length < intMax then
        result.value = string.bytes.length + 1 ∧ result.out = string.bytes ++ [newline]
      else result.value = -1 ∧ result.out <+: string.bytes ++ [newline]) := by
  let format : CString := ⟨[percent, letterS, newline], by simp [percent, letterS, newline]⟩
  have expansion : expand format.bytes [.pointer string] = string.bytes ++ [newline] := rfl
  obtain ⟨result, returned, expands⟩ :=
    printf_expands_of format [.pointer string] trivial enough
  exists result, returned
  unfold Expands at expands
  rw [expansion, List.length_append] at expands
  split
  next short =>
    have fits : string.bytes.length + [newline].length ≤ intMax := short
    rw [if_pos fits] at expands
    exact ⟨by simpa using expands.1, expands.2.1⟩
  next long =>
    have overflows : ¬ string.bytes.length + [newline].length ≤ intMax := long
    rw [if_neg overflows] at expands
    exact ⟨expands.1, expands.2.1⟩

/-- `%s%%%c%` with the string `%c` and the character `!`. -/
def mixedFormat : CString :=
  ⟨[percent, letterS, percent, percent, percent, letterC, percent], by simp [percent, letterS, letterC]⟩
def mixedArguments : List Arg := [.pointer ⟨[percent, letterC], by simp [percent, letterC]⟩, .int 33]

end SzOS.Libc
