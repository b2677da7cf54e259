import SzOS.Kernel.DebugDump
import SzOS.Kernel.EndOfInterrupt
import SzOS.Kernel.Resumption
import SzOS.Kernel.Roll

/-! The start of the kernel (kernel.c), with the interrupts that come in on the way.

`kernel_main` prints, sets the interrupts up, lets them in and calls vector 33
itself. From `sti` on every line of the controllers may interrupt it between any
two bytes; it reaches its loop of `hlt` all the same, behind four lines of text.
-/

set_option autoImplicit false

namespace SzOS.Kernel.Boot
open Hardware Hardware.I386
open Interrupts Libc Semantics
open Tty (Terminal Roll Plain vgaEntry vgaWidth vgaHeight)

/-! ## The code -/

/-- What `kernel_main` acts on. `enabled` is the interrupt flag it runs with, and `clock`
counts the places where an interrupt could have come in. -/
structure World where
  terminal : Terminal
  system : System
  enabled : Bool
  clock : Nat

/-- The symbol of isr_stubs.S. -/
def irq1 : Stub := .irq DebugDump.keyboardLine.val

section Code

variable (build : Build) (arrivals : Nat → List Request)

/-- The requests that come in at this place. -/
def pause (w : World) : Option World :=
  if w.enabled then
    (run (request build) w.system (arrivals w.clock)).map fun system =>
      { w with system, clock := w.clock + 1 }
  else some { w with clock := w.clock + 1 }

def putchar (bound : Nat) (w : World) (uc : UInt8) : Option World := do
  let w ← pause build arrivals w
  let terminal ← Tty.terminalPutchar bound w.terminal uc
  some { w with terminal }

def printf (bound : Nat) (format : CString) (parameters : List Arg) (w : World) : Option World := do
  let result ← Libc.printf (format.bytes.length + 1) format.object parameters
  run (putchar build arrivals bound) w result.out

/-- The copy of the function in kernel.c. -/
def printHex32 (bound : Nat) (v : Word) (w : World) : Option World :=
  DebugDump.printHex32 (putchar build arrivals bound) bound v w

/-- `int`: the gate of the vector, whatever the controllers hold. -/
def softwareInterrupt (vector : Byte) (cpu : Cpu) (memory : Hardware.I386.Memory) (s : System) :
    Option (State Devices) := do
  let gate ← s.idt.gate vector
  let stub ← stubAt build gate.offset
  some (exec (environment build) stub.code (interrupt gate { cpu, memory, devices := s.devices }))

/-- Up to the loop of `hlt`. `cpu` and `memory` are those at the instruction after `int $33`,
and the processor returned is the one that goes on there. -/
def kernelMain (bound : Nat) (cpu : Cpu) (memory : Hardware.I386.Memory) (w : World) :
    Option (Cpu × World) := do
  let w := { w with terminal := Tty.terminalInitialize w.terminal }
  let w ← printf build arrivals bound (CString.literal "SzOS\n") [] w
  let w := { w with system := interruptsInitialize build w.system }
  let w ← printf build arrivals bound (CString.literal "irq1=") [] w
  let w ← printHex32 build arrivals bound (build.address irq1) w
  let w ← printf build arrivals bound (CString.literal "\n") [] w
  let w := { w with enabled := true }
  let w ← printf build arrivals bound (CString.literal "Antes do int 33\n") [] w
  let w ← pause build arrivals w
  let returned ← softwareInterrupt build 33 cpu memory w.system
  let w := { w with system := { w.system with devices := returned.devices } }
  let w ← printf build arrivals bound (CString.literal "depois do int 33 - stub OK\n") [] w
  some (returned.cpu, w)

end Code

/-! ## Lines on a roll -/

section Lines

variable {r : Roll} {text : List UInt8}

theorem getElem?_snoc {A : Type} (values : List A) (last : A) (i : Nat) :
    (values ++ [last])[i]? = if i = values.length then some last else values[i]? := by
  by_cases here : i = values.length
  · rw [if_pos here, here, List.getElem?_concat_length]
  · rw [if_neg here, List.getElem?_append]
    split
    next => rfl
    next past =>
      rw [List.getElem?_eq_none (by rw [List.length_singleton]; omega), List.getElem?_eq_none (by omega)]

/-- Text typed behind the cursor, within its line. -/
structure Typed (r r' : Roll) (text : List UInt8) : Prop where
  line : r'.line = r.line
  column : r'.column = r.column + text.length
  color : r'.color = r.color
  strips : ∀ column line, r'.strips column line =
    if line = r.line ∧ r.column ≤ column then
      ((text[column - r.column]?).map (vgaEntry · r.color)).or (r.strips column line)
    else r.strips column line

theorem byte_plain {uc : UInt8} (plain : Plain uc) (r : Roll) : r.byte uc = r.type uc := by
  obtain ⟨notNewline, notReturn, notBackspace, notTab⟩ := plain
  unfold Roll.byte
  rw [if_neg notNewline, if_neg notReturn, if_neg notBackspace, if_neg notTab]

theorem typed (plain : ∀ uc ∈ text, Plain uc) (short : r.column + text.length < vgaWidth) :
    Typed r (text.foldl Roll.byte r) text := by
  induction text using List.reverseRecOn with
  | nil =>
    refine ⟨rfl, rfl, rfl, fun column line => ?_⟩
    rw [List.getElem?_nil, Option.map_none, Option.none_or, ite_self]
    rfl
  | append_singleton text uc ih =>
    rw [List.length_append, List.length_singleton] at short
    have before := ih (fun c member => plain c (List.mem_append_left _ member)) (by omega)
    have here : Plain uc := plain uc (List.mem_append_right _ (List.mem_singleton_self uc))
    rw [List.foldl_append, List.foldl_cons, List.foldl_nil, byte_plain here]
    generalize text.foldl Roll.byte r = r' at before
    have inner : r'.column + 1 ≠ vgaWidth := by
      rw [before.column]
      omega
    have forward : r'.type uc = { r'.put uc with column := r'.column + 1 } := if_neg inner
    rw [forward]
    refine ⟨before.line, ?_, before.color, fun column line => ?_⟩
    · rw [List.length_append, before.column]
      rfl
    · have elsewhere := before.strips column line
      have atEnd := before.column
      show Function.update r'.strips r'.column _ column line = _
      by_cases there : column = r'.column
      · subst there
        rw [Function.update_self, before.line, before.color]
        by_cases onLine : line = r.line
        · have index : r'.column - r.column = text.length := by omega
          rw [onLine, Function.update_self, if_pos ⟨rfl, by omega⟩, index, getElem?_snoc, if_pos rfl]
          rfl
        · rw [Function.update_of_ne onLine, elsewhere, if_neg (fun both => onLine both.1),
            if_neg (fun both => onLine both.1)]
      · rw [Function.update_of_ne there, elsewhere]
        split
        next past =>
          have index : column - r.column ≠ text.length := by omega
          rw [getElem?_snoc, if_neg index]
        next => rfl

/-- What lines below one another, in the colours of the start, leave in a place. -/
def entryAt (lines : List (List UInt8)) (row column : Nat) : Option UInt16 :=
  (lines[row]?.bind (·[column]?)).map (vgaEntry · (Tty.vgaEntryColor .lightGrey .black))

/-- So many lines below one another, and the cursor at the start of the next. -/
structure Page (r : Roll) (lines : List (List UInt8)) : Prop where
  line : r.line = lines.length
  column : r.column = 0
  color : r.color = Tty.vgaEntryColor .lightGrey .black
  strips : ∀ column line, r.strips column line = entryAt lines line column

theorem page_empty : Page Roll.empty [] :=
  ⟨rfl, rfl, rfl, fun _ _ => rfl⟩

theorem Page.next {lines : List (List UInt8)} (page : Page r lines) (plain : ∀ uc ∈ text, Plain uc)
    (short : text.length < vgaWidth) :
    Page ((text ++ [Tty.newline]).foldl Roll.byte r) (lines ++ [text]) := by
  have written := typed (r := r) plain (by rw [page.column]; omega)
  rw [List.foldl_append, List.foldl_cons, List.foldl_nil]
  generalize text.foldl Roll.byte r = r' at written
  have fed : r'.byte Tty.newline = r'.feed := if_pos rfl
  rw [fed]
  refine ⟨?_, rfl, written.color.trans page.color, fun column line => ?_⟩
  · rw [List.length_append, ← page.line, ← written.line]
    rfl
  · show r'.strips column line = _
    rw [written.strips, page.strips, page.column, page.line, page.color, entryAt, entryAt, getElem?_snoc]
    by_cases last : line = lines.length
    · rw [if_pos ⟨last, Nat.zero_le _⟩, if_pos last, List.getElem?_eq_none (Nat.le_of_eq last.symm)]
      exact Option.or_none
    · rw [if_neg (fun both => last both.1), if_neg last]

theorem Page.shown {lines : List (List UInt8)} (page : Page r lines) (few : lines.length < vgaHeight)
    (row column : Nat) : r.shown row column = (entryAt lines row column).getD
      (vgaEntry Tty.space (Tty.vgaEntryColor .lightGrey .black)) := by
  unfold Roll.shown
  rw [Window.newest_first (by rw [page.line]; omega), page.strips]
  split
  next => rfl
  next below =>
    have past : lines[row]? = none := List.getElem?_eq_none (by rw [← page.line]; omega)
    rw [entryAt, past]
    rfl

end Lines

/-! ## Interrupts on the way -/

/-- The controllers as `interrupts_initialize` leaves them, and no line in service. -/
abbrev Quiet (build : Build) (s : System) : Prop := Idle build 0xFD 0xFF s

section Interruptions

variable {build : Build}

theorem initialize_quiet (build : Build) (before : System) : Quiet build (interruptsInitialize build before) where
  pics := initialize_pics build before
  gates := initialize_gate build before

theorem passes_low : ∀ line : Fin 16, (idlePics 0xFD 0xFF).passes line = true → line.val < 8 := by decide

theorem requests_quiet {s : System} (quiet : Quiet build s) (requests : List Request) :
    ∃ later, run (request build) s requests = some later ∧ Quiet build later := by
  induction requests generalizing s with
  | nil => exact ⟨s, rfl, quiet⟩
  | cons r rest ih =>
    obtain ⟨next, served, quiet'⟩ := request_idle quiet (passes_low r.line)
    obtain ⟨later, ran, quiet''⟩ := ih quiet'
    refine ⟨later, ?_, quiet''⟩
    rw [run_cons, served]
    exact ran

/-- A stub, once entered, ends at the interrupted instruction. -/
theorem stub_resumes (gate : Gate) (r : Request) (devices : Devices)
    (dataSegments : ∀ sreg ∈ [Seg.es, .fs, .gs], r.cpu.seg sreg = r.cpu.seg .ds) {depth : Nat}
    (conforms : ∀ s, Conforms build depth s) :
    (exec (environment build) (Stub.irq r.line).code (interrupt gate ⟨r.cpu, r.memory, devices⟩)).cpu = r.cpu := by
  obtain ⟨saved, at'⟩ : ∃ saved, AtIrqHandler build r saved _ := irqEntry_spec gate r devices
  rw [irq_code, stub_exec]
  exact at'.resumed (conforms _) dataSegments

/-- The end of interrupt of the stub finds nothing in service. -/
theorem irq1_quiet {s : System} (quiet : Quiet build s) (entered : State Devices)
    (same : entered.devices = s.devices) : (exec (environment build) irq1.code entered).devices.pics =
      idlePics 0xFD 0xFF := by
  have acknowledged : (exec (environment build) irq1.code entered).devices = outb 0x20 0x20 entered.devices :=
    irq_devices entered ⟨1, by decide⟩
  rw [acknowledged, same, outb, quiet.pics]
  rfl

/-- Vector 33 called by software ends at the next instruction. -/
theorem softwareInterrupt_spec {s : System} (quiet : Quiet build s) {cpu : Cpu}
    (dataSegments : ∀ sreg ∈ [Seg.es, .fs, .gs], cpu.seg sreg = cpu.seg .ds) {depth : Nat}
    (conforms : ∀ s, Conforms build depth s) (memory : Hardware.I386.Memory) :
    ∃ final, softwareInterrupt build 33 cpu memory s = some final ∧ final.cpu = cpu ∧
      Quiet build { s with devices := final.devices } := by
  have gate : s.idt.gate 33 = some (makeGate (build.address irq1) kernelCs interruptGate) :=
    quiet.gates ⟨1, by decide⟩
  have stub : stubAt build (build.address irq1) = some irq1 := stubAt_irq build _
  have entered := interrupt_devices (s := ⟨cpu, memory, s.devices⟩)
    (makeGate (build.address irq1) kernelCs interruptGate)
  have resumes := stub_resumes (makeGate (build.address irq1) kernelCs interruptGate)
    ⟨⟨1, by decide⟩, cpu, memory⟩ s.devices dataSegments conforms
  have called : softwareInterrupt build 33 cpu memory s = some (exec (environment build) irq1.code
      (interrupt (makeGate (build.address irq1) kernelCs interruptGate) ⟨cpu, memory, s.devices⟩)) := by
    unfold softwareInterrupt
    rw [gate, Option.bind_eq_bind, Option.bind_some, makeGate_offset, stub]
    rfl
  generalize interrupt (makeGate (build.address irq1) kernelCs interruptGate) ⟨cpu, memory, s.devices⟩ = state
    at entered resumes called
  exact ⟨_, called, resumes, irq1_quiet quiet state entered, quiet.gates⟩

/-- What the interrupts between two places of `kernel_main` may have done. -/
structure Onward (build : Build) (w w' : World) : Prop where
  enabled : w'.enabled = w.enabled
  off : w.enabled = false → w'.system = w.system
  quiet : Quiet build w.system → Quiet build w'.system

theorem Onward.refl (w : World) : Onward build w w := ⟨rfl, fun _ => rfl, id⟩

theorem Onward.trans {w w' w'' : World} (first : Onward build w w') (second : Onward build w' w'') :
    Onward build w w'' where
  enabled := second.enabled.trans first.enabled
  off off := (second.off (first.enabled.trans off)).trans (first.off off)
  quiet quiet := second.quiet (first.quiet quiet)

/-- Interrupts are let in only by controllers that are set up. -/
def Ready (build : Build) (w : World) : Prop := w.enabled = true → Quiet build w.system

theorem Ready.onward {w w' : World} (ready : Ready build w) (onward : Onward build w w') : Ready build w' :=
  fun enabled => onward.quiet (ready (onward.enabled.symm.trans enabled))

variable (arrivals : Nat → List Request)

theorem pause_spec {w : World} (ready : Ready build w) :
    ∃ w', pause build arrivals w = some w' ∧ Onward build w w' ∧ w'.terminal = w.terminal := by
  unfold pause
  split
  next enabled =>
    obtain ⟨later, ran, quiet⟩ := requests_quiet (ready enabled) (arrivals w.clock)
    rw [ran]
    refine ⟨_, rfl, ⟨rfl, fun off => ?_, fun _ => quiet⟩, rfl⟩
    rw [enabled] at off
    cases off
  next => exact ⟨_, rfl, ⟨rfl, fun _ => rfl, id⟩, rfl⟩

variable {w : World} {r : Roll}

theorem putchar_spec (bound : Nat) (ready : Ready build w) (shows : r.Shows w.terminal) {uc : UInt8}
    (notTab : uc ≠ Tty.tab) :
    ∃ w', putchar build arrivals (bound + 1) w uc = some w' ∧ Onward build w w' ∧
      (r.byte uc).Shows w'.terminal := by
  obtain ⟨w', paused, onward, same⟩ := pause_spec arrivals ready
  obtain ⟨terminal, stepped⟩ := Tty.putchar_returns bound w.terminal notTab
  refine ⟨{ w' with terminal }, ?_, ⟨onward.enabled, onward.off, onward.quiet⟩, shows.byte stepped⟩
  rw [putchar, paused, Option.bind_eq_bind, Option.bind_some, same, stepped]
  rfl

theorem prints (bound : Nat) (ready : Ready build w) (shows : r.Shows w.terminal) {text : List UInt8}
    (noTab : ∀ uc ∈ text, uc ≠ Tty.tab) :
    ∃ w', run (putchar build arrivals (bound + 1)) w text = some w' ∧ Onward build w w' ∧
      (text.foldl Roll.byte r).Shows w'.terminal := by
  induction text generalizing w r with
  | nil => exact ⟨w, rfl, .refl w, shows⟩
  | cons uc rest ih =>
    obtain ⟨here, later⟩ := List.forall_mem_cons.mp noTab
    obtain ⟨next, stepped, first, shows'⟩ := putchar_spec arrivals bound ready shows here
    obtain ⟨w', ran, second, shows''⟩ := ih (ready.onward first) shows' later
    refine ⟨w', ?_, first.trans second, shows''⟩
    rw [run_cons, stepped]
    exact ran

/-- A format without directives prints itself. -/
theorem printf_text (bound : Nat) {format : CString} (literal : ∀ byte ∈ format.bytes, byte ≠ percent)
    (short : format.bytes.length ≤ intMax) (w : World) :
    printf build arrivals bound format [] w = run (putchar build arrivals bound) w format.bytes := by
  have whole : expand format.bytes [] = format.bytes := by
    have expands := expand_run literal [] []
    rwa [List.append_nil, show expand [] [] = [] from rfl, List.append_nil] at expands
  have directives : conversions format.bytes = [] := by
    have converts := conversions_run literal []
    rwa [List.append_nil] at converts
  obtain ⟨result, returned, expands⟩ := printf_expands_of format [] (by rw [directives]; trivial)
    (Nat.lt_succ_self _)
  unfold Expands at expands
  rw [whole, if_pos short] at expands
  rw [printf, returned, Option.bind_eq_bind, Option.bind_some, expands.2.1]

/-- A text of plain bytes, which `printf` takes for itself. -/
structure Literal (text : CString) : Prop where
  plain : ∀ uc ∈ text.bytes, uc ≠ Tty.tab
  literal : ∀ uc ∈ text.bytes, uc ≠ percent
  short : text.bytes.length ≤ intMax

theorem printf_prints (bound : Nat) (ready : Ready build w) (shows : r.Shows w.terminal) {format : CString}
    (text : Literal format) :
    ∃ w', printf build arrivals (bound + 1) format [] w = some w' ∧ Onward build w w' ∧
      (format.bytes.foldl Roll.byte r).Shows w'.terminal := by
  rw [printf_text arrivals (bound + 1) text.literal text.short]
  exact prints arrivals bound ready shows text.plain

end Interruptions

/-! ## The whole of it -/

/-- What stands on the screen when `kernel_main` halts. -/
def bootLines (build : Build) : List (List UInt8) :=
  [(CString.literal "SzOS").bytes,
    DebugDump.dumpLine (CString.literal "irq1=") 8 (build.address irq1).toNat [],
    (CString.literal "Antes do int 33").bytes,
    (CString.literal "depois do int 33 - stub OK").bytes]

/-- Looks at the bytes of the text only. -/
theorem literal_of_all {text : CString} (plain : text.bytes.all (· ≠ Tty.tab) = true)
    (literal : text.bytes.all (· ≠ percent) = true) (short : text.bytes.length ≤ intMax) : Literal text :=
  ⟨List.all_iff_forall_prop.mp plain, List.all_iff_forall_prop.mp literal, short⟩

theorem texts_literal : Literal (CString.literal "SzOS\n") ∧ Literal (CString.literal "irq1=") ∧
    Literal (CString.literal "\n") ∧ Literal (CString.literal "Antes do int 33\n") ∧
    Literal (CString.literal "depois do int 33 - stub OK\n") := by
  refine ⟨?_, ?_, ?_, ?_, ?_⟩ <;> exact literal_of_all (by decide) (by decide) (by decide)

theorem hexText_plain (width n : Nat) : ∀ uc ∈ DebugDump.hexText width n, Plain uc := by
  have mark : ∀ uc ∈ (CString.literal "0x").bytes, Plain uc := List.all_iff_forall_prop.mp (by decide)
  intro uc member
  rcases List.mem_append.mp member with inMark | digit
  · exact mark uc inMark
  · exact hexNumeral_forall Plain (by decide) width n uc digit

theorem bootLines_page (build : Build) : Page
    ((CString.literal "depois do int 33 - stub OK\n").bytes.foldl Roll.byte
      ((CString.literal "Antes do int 33\n").bytes.foldl Roll.byte
        ((CString.literal "\n").bytes.foldl Roll.byte
          ((DebugDump.hexText 8 (build.address irq1).toNat).foldl Roll.byte
            ((CString.literal "irq1=").bytes.foldl Roll.byte
              ((CString.literal "SzOS\n").bytes.foldl Roll.byte Roll.empty))))))
    (bootLines build) := by
  have first : (CString.literal "SzOS\n").bytes = (CString.literal "SzOS").bytes ++ [Tty.newline] := by decide
  have second : (CString.literal "\n").bytes = [Tty.newline] := by decide
  have third : (CString.literal "Antes do int 33\n").bytes =
      (CString.literal "Antes do int 33").bytes ++ [Tty.newline] := by decide
  have fourth : (CString.literal "depois do int 33 - stub OK\n").bytes =
      (CString.literal "depois do int 33 - stub OK").bytes ++ [Tty.newline] := by decide
  have stem : ∀ uc ∈ (CString.literal "irq1=").bytes, Plain uc := List.all_iff_forall_prop.mp (by decide)
  have plain : ∀ uc ∈ DebugDump.dumpLine (CString.literal "irq1=") 8 (build.address irq1).toNat [], Plain uc := by
    intro uc member
    rw [DebugDump.dumpLine, List.append_nil] at member
    rcases List.mem_append.mp member with inStem | inText
    · exact stem uc inStem
    · exact hexText_plain 8 _ uc inText
  have length : (DebugDump.dumpLine (CString.literal "irq1=") 8 (build.address irq1).toNat []).length = 15 := by
    rw [DebugDump.dumpLine, DebugDump.hexText, List.append_nil, List.length_append, List.length_append,
      hexNumeral_length]
    decide
  have line : ∀ r : Roll, (CString.literal "\n").bytes.foldl Roll.byte
      ((DebugDump.hexText 8 (build.address irq1).toNat).foldl Roll.byte
        ((CString.literal "irq1=").bytes.foldl Roll.byte r)) =
      (DebugDump.dumpLine (CString.literal "irq1=") 8 (build.address irq1).toNat [] ++ [Tty.newline]).foldl
        Roll.byte r := by
    intro r
    rw [second, DebugDump.dumpLine, List.append_nil, List.foldl_append, List.foldl_append]
  rw [line, first, third, fourth]
  have one : Page _ [(CString.literal "SzOS").bytes] :=
    page_empty.next (List.all_iff_forall_prop.mp (by decide)) (by decide)
  have two := one.next plain (by rw [length]; decide)
  have calling : ∀ uc ∈ (CString.literal "Antes do int 33").bytes, Plain uc :=
    List.all_iff_forall_prop.mp (by decide)
  have three := two.next calling (by decide)
  exact three.next (List.all_iff_forall_prop.mp (by decide)) (by decide)

/-- The processor in the kernel's own segments. -/
def bootCpu : Cpu :=
  ⟨fun _ => 0x9000, fun sreg => if sreg = .cs then 0x08 else 0x10, 0x100000, 0x202⟩

end SzOS.Kernel.Boot
