import SzOS.KernelC.KeyTest

/-! The keyboard of kernel-c on its interrupt controllers.

`keyboard_isr` reads the scan code and hands it to the driver, but sends no end of
interrupt, and every other line's end of interrupt goes to the line just served. Line 1
stays in service from its first interrupt on, so the driver hears one scan code.
-/

set_option autoImplicit false

namespace SzOS.KernelC
open Libc Semantics Hardware Hardware.I386 Screen

/-! ## What a service does to the key table and to the master -/

variable {build : Build}

/-- `keyboard_isr` gives `keyboard_handler` the byte it reads from port 0x60. -/
theorem keyboardIsr_keyboard (s : State Devices) :
    (exec (environment build) keyboardIsr s).devices.keyboard =
      keyboardHandler s.devices.scancode s.devices.keyboard := by
  have split : keyboardIsr = irqEntry 33 ++ ([.movImm16 .edx 0x60, .inAlDx, .movzxEaxAl, .push .eax] ++
      .call .keyboardHandler :: .addEsp 4 :: restoreAndReturn) := rfl
  have before : (exec (environment build) (irqEntry 33) s).devices = s.devices :=
    exec_local (fun d => d) (by simp [irqEntry, saveState, kernelSegments]) s
  rw [split, exec_append]
  generalize exec (environment build) (irqEntry 33) s = saved at before ⊢
  rw [exec_append, exec_cons, exec_local (fun d => d) (by simp [restoreAndReturn]), ← before]
  -- what is read from the port
  have byte : ∀ word : Word, (withLow8 word saved.devices.scancode).setWidth 8 = saved.devices.scancode :=
    fun word => BitVec.setWidth_append_eq_right
  have widened : ∀ b : Byte, (b.setWidth 32).setWidth 8 = b := by decide
  generalize entered : exec (environment build)
    ([.movImm16 .edx 0x60, .inAlDx, .movzxEaxAl, .push .eax] : List (Instr CFunction)) saved = called
  have top : called.top = saved.devices.scancode.setWidth 32 := by
    subst entered
    simp only [exec_cons, exec_nil, step_push, push_top]
    simp [step, Cpu.setReg, environment, portByteIn, byte]
  have devices : called.devices = saved.devices := by
    subst entered
    simp only [exec_cons, exec_nil, step_push]
    simp [step, Cpu.setReg, environment, portByteIn, State.push]
  have argument := push_second called ((environment build).returnAddress .keyboardHandler)
  rw [top] at argument
  show keyboardHandler ((load32 _ _).setWidth 8) called.devices.keyboard = _
  rw [argument, widened, devices]

variable {s : System}

/-- The kernel runs on its own data segment. -/
def FromKernel (r : Request) : Prop := r.cpu.seg .ds = 0x10

instance (r : Request) : Decidable (FromKernel r) := inferInstanceAs (Decidable (_ = _))

theorem served_key {r : Request} (keyboard : r.line.val = 1) :
    (served build s r).keyboard = keyboardHandler r.scancode s.devices.keyboard := by
  have stub : (servingStub r.line).code = keyboardIsr := by
    rw [servingStub, if_pos keyboard]
    rfl
  unfold served
  rw [stub, keyboardIsr_keyboard]
  rfl

/-- The number that `irq_handler` takes for a vector is not the keyboard's. -/
theorem irqNumber_ne (r : Request) (kernel : FromKernel r) : irqNumber r ≠ 33 := by
  intro same
  have low := congrArg (BitVec.setWidth 16) same
  rw [irqNumber, withLow16_setWidth, kernel] at low
  exact absurd low (by decide)

theorem served_other {r : Request} (notKeyboard : r.line.val ≠ 1) (kernel : FromKernel r) :
    (served build s r).keyboard = s.devices.keyboard := by
  have stub : (servingStub r.line).code = irq r.line := by
    rw [servingStub, if_neg notKeyboard]
    rfl
  have number := irqNumber_ne r kernel
  unfold served
  rw [stub, irq_devices]
  unfold entered
  rw [interrupt_reg _ _ (by decide), interrupt_seg _ _ (by decide)]
  show (irqHandler (irqNumber r) _).keyboard = _
  unfold irqHandler
  simp only [if_neg number]
  split <;> rfl

/-- The end of interrupt goes to the line that the service is for. -/
theorem served_master {r : Request} (notKeyboard : r.line.val ≠ 1)
    (accepted : s.devices.pics.accepts r.line = true) :
    (served build s r).pics.master = s.devices.pics.master := by
  have master := Chip.eoi_deliver (Bool.and_eq_true_iff.mp accepted).1
  rw [served_irq notKeyboard]
  split <;> exact master

/-! ## The invariant of a run -/

/-- The scan codes of the requests on line 1, serviced or not. -/
def keyBytes (requests : List Request) : List Byte :=
  (requests.filter fun r => r.line.val = 1).map Request.scancode

/-- After requests with these scan codes: the driver has seen the first, and since then line 1
is in service. -/
structure Heard (build : Build) (start : Keyboard) (bytes : List Byte) (s : System) : Prop where
  setUp : SetUp build s
  table : s.devices.keyboard = handled start (bytes.take 1)
  waiting : bytes = [] → s.devices.pics.master.isr = 0
  taken : bytes ≠ [] → s.devices.pics.master.inService 1 = true

variable {start : Keyboard} {bytes : List Byte}

theorem Heard.first (heard : Heard build start [] s) {r : Request} (keyboard : r.line.val = 1) :
    s.interrupted r.line = true := by
  obtain ⟨master, slave, pics⟩ := heard.setUp.pics
  have idle := heard.waiting rfl
  have line : r.line = 1 := Fin.ext keyboard
  rw [pics] at idle
  have clear : master = 0 := idle
  have open1 : ∀ slave : Byte, ((remapped.withIsr 0 slave).passes 1 &&
      (remapped.withIsr 0 slave).accepts 1) = true := by decide
  rw [System.interrupted, pics, clear, line]
  exact open1 slave

theorem Heard.blocked (heard : Heard build start bytes s) (more : bytes ≠ []) {r : Request}
    (keyboard : r.line.val = 1) : s.interrupted r.line = false := by
  have line : r.line = 1 := Fin.ext keyboard
  have inService := heard.taken more
  cases interrupted : s.interrupted r.line with
  | false => rfl
  | true =>
    have accepted := (Bool.and_eq_true_iff.mp (Bool.and_eq_true_iff.mp interrupted).2).1
    rw [line] at accepted
    have released := Chip.accepts_not_inService accepted
    exact absurd (inService.symm.trans released) (by decide)

/-- A request held back changes nothing, and one not on line 1 leaves the invariant. -/
theorem Heard.other (heard : Heard build start bytes s) {r : Request} (notKeyboard : r.line.val ≠ 1)
    (kernel : FromKernel r) : ∃ next, request build s r = some next ∧ Heard build start bytes next := by
  cases interrupted : s.interrupted r.line with
  | false => exact ⟨s, if_neg (by simp [interrupted]), heard⟩
  | true =>
    have accepted := (Bool.and_eq_true_iff.mp interrupted).2
    have serviced := heard.setUp.request interrupted
    have master : (served build s r).pics.master = s.devices.pics.master := served_master notKeyboard accepted
    refine ⟨_, serviced, request_setUp heard.setUp serviced, ?_, ?_, ?_⟩
    · exact (served_other notKeyboard kernel).trans heard.table
    · intro none
      rw [master]
      exact heard.waiting none
    · intro more
      rw [master]
      exact heard.taken more

theorem Heard.key (heard : Heard build start bytes s) {r : Request} (keyboard : r.line.val = 1) :
    ∃ next, request build s r = some next ∧ Heard build start (bytes ++ [r.scancode]) next := by
  by_cases none : bytes = []
  · subst none
    have serviced := heard.setUp.request (heard.first keyboard)
    refine ⟨_, serviced, request_setUp heard.setUp serviced, ?_, fun none => ?_, fun _ => ?_⟩
    · have table : (served build s r).keyboard = _ := served_key keyboard
      rw [heard.table] at table
      exact table
    · exact absurd none (by simp)
    · show (served build s r).pics.master.inService 1 = true
      have line : PicPair.masterLine r.line = 1 := by
        rw [show r.line = 1 from Fin.ext keyboard]
        rfl
      rw [served_keyboard keyboard, ← line]
      exact Chip.deliver_inService _ _
  · have heldBack := heard.blocked none keyboard
    have first : (bytes ++ [r.scancode]).take 1 = bytes.take 1 :=
      List.take_append_of_le_length (List.length_pos_of_ne_nil none)
    refine ⟨s, if_neg (by simp [heldBack]), heard.setUp, ?_, fun empty => ?_, fun _ => heard.taken none⟩
    · rw [first]
      exact heard.table
    · exact absurd empty (by simp)

theorem heard_run {requests : List Request} (kernel : ∀ r ∈ requests, FromKernel r)
    (heard : Heard build start bytes s) :
    ∃ final, run (request build) s requests = some final ∧
      Heard build start (bytes ++ keyBytes requests) final := by
  induction requests generalizing s bytes with
  | nil => exact ⟨s, rfl, (List.append_nil bytes).symm ▸ heard⟩
  | cons r rest ih =>
    obtain ⟨here, others⟩ := List.forall_mem_cons.mp kernel
    have step : ∃ next, request build s r = some next ∧ Heard build start (bytes ++ keyBytes [r]) next := by
      by_cases keyboard : r.line.val = 1
      · have own : keyBytes [r] = [r.scancode] := by simp [keyBytes, keyboard]
        exact own ▸ heard.key keyboard
      · have none : keyBytes [r] = [] := by simp [keyBytes, keyboard]
        rw [none, List.append_nil]
        exact heard.other keyboard here
    obtain ⟨next, serviced, heard⟩ := step
    obtain ⟨final, ran, heard⟩ := ih others heard
    refine ⟨final, ?_, ?_⟩
    · rw [run_cons, serviced]
      exact ran
    · rw [List.append_assoc, keyBytes, keyBytes, ← List.map_append, ← List.filter_append] at heard
      exact heard

theorem setup_heard (build : Build) (before : System) :
    Heard build (setup build before).devices.keyboard [] (setup build before) where
  setUp := setup_setUp build before
  table := by
    have cleared : clearKeys (setup build before).devices.keyboard =
        (setup build before).devices.keyboard := by
      unfold clearKeys
      congr 1
      funext i
      exact ite_self _
    exact cleared.symm
  waiting := fun _ => rfl
  taken := fun more => absurd rfl more

/-! ## The keyboard test on the hardware -/

def System.keys (s : System) : Keyboard := s.devices.keyboard

def firstKey (requests : List Request) : Option Byte := (keyBytes requests).head?

/-- What reads of a key answer: whether it was the first to go down. -/
def firstIs (code : Byte) (requests : List Request) : Bool := firstKey requests = some code

def onlyFirst (code : Byte) (requests : List Request) : Bool := downAfter code ((keyBytes requests).take 1)

theorem onlyFirst_eq {code : Byte} (press : code &&& 0x80 = 0) (requests : List Request) :
    onlyFirst code requests = firstIs code requests := by
  unfold onlyFirst firstIs firstKey
  cases keyBytes requests with
  | nil => rfl
  | cons b rest =>
    have own : ∀ b : Byte, b &&& 0x80 = 0 → b &&& 0x7F = b := by decide
    simp only [List.take_succ_cons, List.take_zero, List.head?_cons, Option.some.injEq]
    by_cases same : b = code
    · subst same
      have named : [b].filter (fun other => other &&& 0x7F = b) = [b] :=
        List.filter_cons_of_pos (decide_eq_true (own b press))
      simp only [downAfter, named, List.getLast?_singleton, press]
    · rw [decide_eq_false same]
      unfold downAfter
      by_cases named : b &&& 0x7F = code
      -- a release of the key
      · have release : b &&& 0x80 ≠ 0 := fun press => same ((own b press).symm.trans named)
        have only : [b].filter (fun other => other &&& 0x7F = code) = [b] :=
          List.filter_cons_of_pos (decide_eq_true named)
        simp only [only, List.getLast?_singleton, decide_eq_false release]
      · have none : [b].filter (fun other => other &&& 0x7F = code) = [] :=
          List.filter_cons_of_neg (by simpa using named)
        simp only [none, List.getLast?_nil]

theorem setup_listens (build : Build) (before : System) :
    Listens onlyFirst (request build) System.keys (setup build before) FromKernel := by
  intro requests kernel
  obtain ⟨final, ran, heard⟩ := heard_run kernel (setup_heard build before)
  refine ⟨final, ran, fun code => ?_⟩
  rw [System.keys, heard.table]
  exact keyPressed_handled _ _ code

theorem sampled_first (history : List Request) (arrivals : Nat → List Request) :
    sampledAfter onlyFirst history arrivals = sampledAfter firstIs history arrivals := by
  have presses : ∀ k ∈ keyLabels, k.code &&& 0x80 = 0 := by decide
  unfold sampledAfter
  apply List.ext_getElem
  · rw [List.length_mapIdx, List.length_mapIdx]
  · intro i first second
    rw [List.getElem_mapIdx, List.getElem_mapIdx, onlyFirst_eq (presses _ (List.getElem_mem _))]

theorem escAfter_first (history : List Request) (arrivals : Nat → List Request) :
    escAfter onlyFirst history arrivals = escAfter firstIs history arrivals :=
  onlyFirst_eq (by decide) _

theorem spaceRead_first (history : List Request) (rounds : List (Nat → List Request)) :
    spaceRead onlyFirst history rounds = spaceRead firstIs history rounds := by
  induction rounds generalizing history with
  | nil => rfl
  | cons arrivals rest ih => rw [spaceRead, spaceRead, sampled_first, ih]

/-- The first key stays the first. -/
theorem firstIs_after {code : Byte} {history : List Request} (first : firstIs code history = true)
    (rounds : List (Nat → List Request)) : firstIs code (rounds.foldl historyAfter history) = true := by
  induction rounds generalizing history with
  | nil => exact first
  | cons arrivals rest ih =>
    refine ih ?_
    unfold firstIs firstKey keyBytes at first ⊢
    rw [historyAfter, List.filter_append, List.map_append, List.head?_append, of_decide_eq_true first]
    simp

theorem escRead_first {history : List Request} (notYet : firstIs keyEsc history = false)
    (rounds : List (Nat → List Request)) :
    escRead onlyFirst history rounds = firstIs keyEsc (rounds.foldl historyAfter history) := by
  induction rounds generalizing history with
  | nil => exact notYet.symm
  | cons arrivals rest ih =>
    rw [escRead, escAfter_first, List.foldl_cons]
    cases esc : escAfter firstIs history arrivals with
    | true => exact (firstIs_after esc rest).symm
    | false => exact (Bool.false_or _).trans (ih esc)

/-- With the hardware's interrupts between the reads, the keyboard test ends exactly when the
first scan code of all is the one of Esc going down; until then row 3 shows the first key,
and no other key is ever seen. -/
theorem keyboard_test_first_key (build : Build) (before : System) {p : Nat} (small : p < 2000)
    (vidmem : Screen.Memory) (rounds : List (Nat → List Request))
    (kernel : ∀ arrivals ∈ rounds, ∀ i, ∀ r ∈ arrivals i, FromKernel r) :
    (∃ t, testKeyboard (request build) System.keys rounds
        ⟨setup build before, vgaAt p vidmem⟩ =
          some (!firstIs keyEsc (rounds.foldl historyAfter []), t)) ∧
      ∀ earlier last later, rounds = earlier ++ last :: later →
        firstIs keyEsc ((earlier ++ [last]).foldl historyAfter []) = false →
        ∃ world p', testKeyboard (request build) System.keys rounds
            ⟨setup build before, vgaAt p vidmem⟩ =
          testLoop (request build) System.keys later
            ⟨world, vgaAt p' (overlay (headed p vidmem)
              (panel (sampledAfter firstIs (earlier.foldl historyAfter []) last)
                (spaceRead firstIs [] (earlier ++ [last]))))⟩ := by
  obtain ⟨first, entered⟩ := testKeyboard_headed (request build) System.keys rounds
    (setup build before) small vidmem
  obtain ⟨shows, settled⟩ := none_settled (headed p vidmem) first
  have listens := setup_listens build before
  have none : firstIs keyEsc [] = false := rfl
  rw [entered]
  constructor
  · rw [← escRead_first none]
    exact listens.returns (by simp) kernel rfl shows settled
  · rintro earlier last later rfl running
    have new : ∀ arrivals ∈ earlier ++ [last], ∀ i, ∀ r ∈ arrivals i, FromKernel r := by
      intro arrivals member
      apply kernel arrivals
      rw [List.append_cons]
      exact List.mem_append_left later member
    -- the round before the last has not ended the loop either
    have quiet : escRead onlyFirst [] earlier = false := by
      rw [escRead_first none]
      refine Bool.eq_false_iff.mpr fun early => ?_
      have later := firstIs_after early [last]
      rw [← List.foldl_append, running] at later
      exact absurd later (by decide)
    obtain ⟨world, p', _, loop⟩ := listens.running later (by simp) new rfl shows settled quiet
    have goesOn : escAfter onlyFirst (earlier.foldl historyAfter []) last = false := by
      rw [List.foldl_append] at running
      exact (escAfter_first _ _).trans running
    rw [goesOn, Bool.false_or, sampled_first, spaceRead_first] at loop
    exact ⟨world, p', loop⟩

theorem keyboard_lt : 1 < 16 := Nat.one_lt_succ_succ 14

/-- The key A goes down, then Esc, before the second and the third read of one round. -/
def keyThenEsc : List (Nat → List Request) :=
  [fun access => if access = 1 then [plainRequest ⟨1, keyboard_lt⟩] else
    if access = 2 then [{ plainRequest ⟨1, keyboard_lt⟩ with scancode := 0x01 }] else []]

/-- Esc as the second key is not seen. -/
theorem keyboard_test_misses_esc : ∃ t, testKeyboard (request someBuild) System.keys keyThenEsc
    ⟨setup someBuild beforeSetup, vgaAt 0 fun _ => 0⟩ = some (true, t) := by
  have kernel : ∀ arrivals ∈ keyThenEsc, ∀ i, ∀ r ∈ arrivals i, FromKernel r := by
    intro arrivals member i r arrived
    rw [List.mem_singleton.mp member] at arrived
    dsimp only at arrived
    split at arrived
    · exact List.mem_singleton.mp arrived ▸ rfl
    · split at arrived
      · exact List.mem_singleton.mp arrived ▸ rfl
      · exact absurd arrived List.not_mem_nil
  have other : firstIs keyEsc (keyThenEsc.foldl historyAfter []) = false := by decide
  have shown := (keyboard_test_first_key someBuild beforeSetup (show 0 < 2000 by decide) (fun _ => 0)
    keyThenEsc kernel).1
  rw [other] at shown
  exact shown

end SzOS.KernelC
