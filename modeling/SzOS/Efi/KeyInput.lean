import SzOS.Efi.MainLoop
import SzOS.Semantics.Run

/-! Key input of the EFI kernel: `g_last_key` between the keyboard handler and `main`.

The handler stores every byte of the keyboard in one variable, which each comparison
of the chain in `main` loads again and which a taken branch clears. A key acts exactly
when nothing is stored after it before its own comparison, and it does not arrive
between a taken comparison and the clearing.
-/

set_option autoImplicit false

namespace SzOS.Efi
open Semantics Hardware

/-- Where the loop stands among its accesses to `g_last_key`: before the load of a
comparison, or before the store of a taken branch. -/
inductive Point where
  | compare (i : Nat)
  | clear
  deriving DecidableEq

structure KeyState where
  shared : Shared
  animation : Animation
  point : Point

def keyCodes : List (BitVec 32) := keyCases.map Prod.fst

/-- What a frame does with the box after the chain. -/
def endIteration (d : Display) (a : Animation) : Animation :=
  let a := clampBox d a
  if a.paused = 0 then moveBox d a else a

def KeyState.endFrame (d : Display) (s : KeyState) : KeyState :=
  { s with animation := endIteration d s.animation, point := .compare 0 }

def KeyState.clearKey (s : KeyState) : KeyState :=
  { s with shared := { s.shared with globals := { s.shared.globals with lastKey := 0 } } }

/-- One comparison of the chain, with those after it. -/
def compareKey (d : Display) (s : KeyState) (i : Nat) :
    List (BitVec 32 × (Animation → Animation)) → Option (BitVec 32) × KeyState
  | [] => (none, s.endFrame d)
  | (code, act) :: rest =>
    if s.shared.globals.lastKey = code then
      (some code, { s with animation := act s.animation, point := .clear })
    else if rest.isEmpty then (none, s.endFrame d)
    else (none, { s with point := .compare (i + 1) })

/-- The next access of the loop, with the key whose branch it takes. -/
def access (d : Display) (s : KeyState) : Option (BitVec 32) × KeyState :=
  match s.point with
  | .compare i => compareKey d s i (keyCases.drop i)
  | .clear => (none, s.clearKey.endFrame d)

/-! ## Interleavings -/

inductive KeyEvent where
  | interrupt (i : Interrupt)
  | access

/-- The make code of a handled key. -/
def Interrupt.makeCode : Interrupt → Option (BitVec 32)
  | .keyboard data => if data.setWidth 32 ∈ keyCodes then some (data.setWidth 32) else none
  | _ => none

/-- The loop, the make codes delivered to it, those that took effect, and those that had
been delivered when the iteration under way, or else the last one, began. -/
structure KeyLedger where
  state : KeyState
  delivered : List (BitVec 32)
  acted : List (BitVec 32)
  due : List (BitVec 32)

def keyStep (d : Display) (l : KeyLedger) : KeyEvent → KeyLedger
  | .interrupt i =>
    { l with
      state := { l.state with shared := i.serve l.state.shared }
      delivered := i.makeCode.toList ++ l.delivered }
  | .access =>
    let (taken, state) := access d l.state
    { l with
      state
      acted := taken.toList ++ l.acted
      due := if l.state.point = .compare 0 then l.delivered else l.due }

def keyRun (d : Display) (l : KeyLedger) (events : List KeyEvent) : KeyLedger :=
  events.foldl (keyStep d) l

def keyStart (f : FrameState) : KeyLedger where
  state := { shared := f.shared, animation := f.animation, point := .compare 0 }
  delivered := []
  acted := []
  due := []

/-- No key acts more often than it was delivered, and after an iteration every key
delivered before it began has acted. -/
structure EachOnce (l : KeyLedger) : Prop where
  notTwice : ∀ code ∈ keyCodes, l.acted.count code ≤ l.delivered.count code
  notLost : l.state.point = .compare 0 → ∀ code ∈ keyCodes, l.due.count code ≤ l.acted.count code

/-- A byte of the keyboard finds no key that waits for its comparison, and a handled key
does not arrive before the clearing of another one. -/
def Undisturbed (l : KeyLedger) : KeyEvent → Prop
  | .interrupt (.keyboard data) =>
    match l.state.point with
    | .compare _ => l.state.shared.globals.lastKey ∉ keyCodes
    | .clear => data.setWidth 32 ∉ keyCodes
  | _ => True

/-! ## What is owed to a key -/

namespace KeyState

/-- A key in the variable that has not been taken. -/
def waiting (s : KeyState) (code : BitVec 32) : Nat :=
  if s.point ≠ .clear ∧ s.shared.globals.lastKey = code then 1 else 0

/-- A key in the variable whose comparison is still to come in this iteration. -/
def reachable (s : KeyState) (code : BitVec 32) : Nat :=
  match s.point with
  | .compare i =>
    if s.shared.globals.lastKey = code ∧ code ∈ keyCodes.drop i then 1 else 0
  | .clear => 0

def ahead (s : KeyState) (code : BitVec 32) : Nat :=
  if s.point = .compare 0 then 0 else s.reachable code

end KeyState

theorem mouseByte_lastKey (data : Byte) (g : Globals) : (mouseByte data g).lastKey = g.lastKey := by
  unfold mouseByte
  simp only
  split <;> rfl

theorem serve_lastKey (i : Interrupt) (shared : Shared) :
    (i.serve shared).globals.lastKey =
      match i with
      | .keyboard data => data.setWidth 32
      | _ => shared.globals.lastKey := by
  cases i with
  | time => rfl
  | keyboard data => rfl
  | mouse data => exact mouseByte_lastKey data shared.globals

theorem count_one (taken code : BitVec 32) :
    (some taken).toList.count code = if taken = code then 1 else 0 := by
  simp [List.count_cons]

/-- What an access can do. -/
inductive Accessed (d : Display) (s : KeyState) : Option (BitVec 32) × KeyState → Prop where
  | taken (i : Nat) (act : Animation → Animation) : s.point = .compare i →
      s.shared.globals.lastKey ∈ keyCodes.drop i →
      Accessed d s (some s.shared.globals.lastKey,
        { s with animation := act s.animation, point := .clear })
  | missed (i : Nat) : s.point = .compare i → i + 1 < keyCodes.length →
      (s.shared.globals.lastKey ∈ keyCodes.drop i →
        s.shared.globals.lastKey ∈ keyCodes.drop (i + 1)) →
      Accessed d s (none, { s with point := .compare (i + 1) })
  | ended (i : Nat) : s.point = .compare i → s.shared.globals.lastKey ∉ keyCodes.drop i →
      Accessed d s (none, s.endFrame d)
  | cleared : s.point = .clear → Accessed d s (none, s.clearKey.endFrame d)

theorem access_cases (d : Display) (s : KeyState) : Accessed d s (access d s) := by
  cases here : s.point with
  | clear =>
    rw [access, here]
    exact .cleared here
  | compare i =>
    rw [access, here]
    have codes : keyCodes.drop i = (keyCases.drop i).map Prod.fst := List.map_drop.symm
    have later : keyCodes.drop (i + 1) = (keyCodes.drop i).tail := List.tail_drop.symm
    simp only
    generalize keyCases.drop i = cases at codes
    match cases with
    | [] => exact .ended i here (by simp [codes])
    | (code, act) :: rest =>
      rw [List.map_cons] at codes
      rw [codes, List.tail_cons] at later
      rw [compareKey]
      split
      next same => exact same ▸ .taken i act here (by rw [codes, same]; exact List.mem_cons_self)
      next other =>
        split
        next last =>
          refine .ended i here ?_
          rw [codes, List.isEmpty_iff.mp last]
          simpa using other
        next more =>
          have length := congrArg List.length codes
          simp only [List.length_drop, List.length_cons, List.length_map] at length
          have nonempty : 0 < rest.length := List.length_pos_iff.mpr (by simpa using more)
          refine .missed i here (by omega) ?_
          rw [codes, later]
          exact fun member => (List.mem_cons.mp member).resolve_left other

variable {d : Display} {s : KeyState} {result : Option (BitVec 32) × KeyState} {code : BitVec 32}

/-- An access takes what was waiting, or leaves it waiting. -/
theorem Accessed.waiting (accessed : Accessed d s result) (handled : code ∈ keyCodes) :
    result.1.toList.count code + result.2.waiting code = s.waiting code := by
  have nonzero : ¬ (0#32 = code) := by
    rintro rfl
    exact absurd handled (by decide)
  cases accessed with
  | taken i act here => simp [KeyState.waiting, here, List.count_cons]
  | missed i here => simp [KeyState.waiting, here]
  | ended i here => simp [KeyState.waiting, KeyState.endFrame, here]
  | cleared here => simp [KeyState.waiting, KeyState.endFrame, KeyState.clearKey, here, nonzero]

theorem Accessed.reachable (accessed : Accessed d s result) :
    s.reachable code ≤ result.1.toList.count code + result.2.ahead code := by
  by_cases inside : ∃ i, s.point = .compare i ∧ s.shared.globals.lastKey = code ∧
      code ∈ keyCodes.drop i
  · obtain ⟨i, here, rfl, member⟩ := inside
    have one : s.reachable s.shared.globals.lastKey = 1 := by simp [KeyState.reachable, here, member]
    rw [one]
    cases accessed with
    | taken => simp
    | missed j here' _ later =>
      cases Point.compare.inj (here.symm.trans here')
      simp [KeyState.ahead, KeyState.reachable, later member]
    | ended j here' gone =>
      cases Point.compare.inj (here.symm.trans here')
      exact absurd member gone
    | cleared clear => simp [here] at clear
  · have none : s.reachable code = 0 := by
      unfold KeyState.reachable
      split
      next i here => exact if_neg fun same => inside ⟨i, here, same⟩
      next => rfl
    rw [none]
    exact Nat.zero_le _

/-! ## The ledger -/

variable {l : KeyLedger}

/-- Deliveries outnumber what has acted or still waits by at least `lost`. -/
def Behind (lost : Nat) (code : BitVec 32) (l : KeyLedger) : Prop :=
  l.acted.count code + l.state.waiting code + lost ≤ l.delivered.count code

theorem makeCode_count (data : Byte) (handled : code ∈ keyCodes) :
    (Interrupt.makeCode (.keyboard data)).toList.count code =
      if data.setWidth 32 = code then 1 else 0 := by
  rw [Interrupt.makeCode]
  by_cases same : data.setWidth 32 = code
  · rw [same, if_pos handled, if_pos rfl]
    simp
  · rw [if_neg same]
    split
    next => rw [count_one, if_neg same]
    next => rfl

theorem waiting_keyboard (data : Byte) :
    (keyStep d l (.interrupt (.keyboard data))).state.waiting code =
      if l.state.point ≠ .clear ∧ data.setWidth 32 = code then 1 else 0 := rfl

theorem waiting_congr {s t : KeyState} (point : t.point = s.point)
    (lastKey : t.shared.globals.lastKey = s.shared.globals.lastKey) :
    t.waiting code = s.waiting code ∧ t.ahead code = s.ahead code := by
  unfold KeyState.waiting KeyState.ahead KeyState.reachable
  rw [point, lastKey]
  exact ⟨rfl, rfl⟩

theorem Behind.step {lost : Nat} (behind : Behind lost code l) (handled : code ∈ keyCodes)
    (e : KeyEvent) : Behind lost code (keyStep d l e) := by
  unfold Behind at *
  match e with
  | .access =>
    have taken := (access_cases d l.state).waiting handled
    simp only [keyStep, List.count_append]
    omega
  | .interrupt (.keyboard data) =>
    have counted := makeCode_count data handled
    rw [waiting_keyboard]
    simp only [keyStep, List.count_append, counted]
    split <;> split <;> first | omega | simp_all
  | .interrupt .time => exact behind
  | .interrupt (.mouse data) =>
    have same : (keyStep d l (.interrupt (.mouse data))).state.waiting code = l.state.waiting code :=
      (waiting_congr (s := l.state) (t := (keyStep d l (.interrupt (.mouse data))).state) rfl
        (serve_lastKey (.mouse data) _)).1
    rw [same]
    exact behind

theorem Behind.run {lost : Nat} (behind : Behind lost code l) (handled : code ∈ keyCodes)
    (events : List KeyEvent) : Behind lost code (keyRun d l events) := by
  induction events generalizing l with
  | nil => exact behind
  | cons e events ih => exact ih (behind.step handled e)

/-- A disturbed key is owed for good. -/
theorem Behind.disturbed (behind : ∀ code ∈ keyCodes, Behind 0 code l) {e : KeyEvent}
    (disturbs : ¬ Undisturbed l e) : ∃ code ∈ keyCodes, Behind 1 code (keyStep d l e) := by
  match e with
  | .access => exact absurd trivial disturbs
  | .interrupt .time => exact absurd trivial disturbs
  | .interrupt (.mouse data) => exact absurd trivial disturbs
  | .interrupt (.keyboard data) =>
    cases here : l.state.point with
    | compare i =>
      simp only [Undisturbed, here, Classical.not_not] at disturbs
      have one : l.state.waiting l.state.shared.globals.lastKey = 1 := by
        simp [KeyState.waiting, here]
      refine ⟨_, disturbs, ?_⟩
      have owed := behind _ disturbs
      unfold Behind at *
      rw [waiting_keyboard]
      simp only [keyStep, List.count_append, makeCode_count data disturbs]
      split <;> split <;> first | omega | simp_all
    | clear =>
      simp only [Undisturbed, here, Classical.not_not] at disturbs
      refine ⟨_, disturbs, ?_⟩
      have owed := behind _ disturbs
      unfold Behind at *
      rw [waiting_keyboard]
      simp only [keyStep, List.count_append, makeCode_count data disturbs, here]
      simp
      omega

/-! ## Keys that are left alone -/

/-- What holds as long as no key was disturbed. -/
structure Settled (l : KeyLedger) : Prop where
  behind : ∀ code ∈ keyCodes, Behind 0 code l
  covered : ∀ code ∈ keyCodes, l.delivered.count code ≤ l.acted.count code + l.state.waiting code
  due : ∀ code ∈ keyCodes, l.due.count code ≤ l.acted.count code + l.state.ahead code

theorem Settled.eachOnce (settled : Settled l) : EachOnce l where
  notTwice := by
    intro code handled
    have owed := settled.behind code handled
    unfold Behind at owed
    omega
  notLost := by
    intro finished code handled
    have due := settled.due code handled
    rw [KeyState.ahead, if_pos finished] at due
    exact due

theorem ahead_absent (absent : l.state.shared.globals.lastKey ≠ code) :
    l.state.ahead code = 0 := by
  unfold KeyState.ahead KeyState.reachable
  split
  · rfl
  · split
    next => exact if_neg fun same => absent same.1
    next => rfl

theorem Settled.access (settled : Settled l) : Settled (keyStep d l .access) where
  behind := fun code handled => (settled.behind code handled).step handled .access
  covered := by
    intro code handled
    have taken := (access_cases d l.state).waiting handled
    have covered := settled.covered code handled
    simp only [keyStep, List.count_append]
    omega
  due := by
    intro code handled
    have kept : l.state.reachable code ≤ _ := (access_cases d l.state).reachable
    have covered := settled.covered code handled
    have due := settled.due code handled
    simp only [keyStep, List.count_append]
    split
    -- an iteration begins: what was delivered waits for its comparison in it
    next begins =>
      have all : l.state.waiting code = l.state.reachable code := by
        simp [KeyState.waiting, KeyState.reachable, begins, handled]
      omega
    next inside =>
      rw [KeyState.ahead, if_neg inside] at due
      omega

theorem Settled.keyboard (settled : Settled l) {data : Byte}
    (undisturbed : Undisturbed l (.interrupt (.keyboard data))) :
    Settled (keyStep d l (.interrupt (.keyboard data))) := by
  have free : ∀ code ∈ keyCodes, l.state.ahead code = 0 ∧
      l.delivered.count code + (if data.setWidth 32 = code then 1 else 0) ≤
        l.acted.count code + (keyStep d l (.interrupt (.keyboard data))).state.waiting code := by
    intro code handled
    have covered := settled.covered code handled
    rw [waiting_keyboard]
    cases here : l.state.point with
    | compare i =>
      simp only [Undisturbed, here] at undisturbed
      have absent : l.state.shared.globals.lastKey ≠ code := fun same => undisturbed (same ▸ handled)
      have none : l.state.waiting code = 0 := by simp [KeyState.waiting, absent]
      refine ⟨ahead_absent absent, ?_⟩
      rw [none] at covered
      split <;> simp_all
    | clear =>
      simp only [Undisturbed, here] at undisturbed
      have other : data.setWidth 32 ≠ code := fun same => undisturbed (same ▸ handled)
      have none : l.state.waiting code = 0 := by simp [KeyState.waiting, here]
      refine ⟨by simp [KeyState.ahead, KeyState.reachable, here], ?_⟩
      rw [none] at covered
      simp [other]
      exact covered
  refine ⟨fun code handled => (settled.behind code handled).step handled _, ?_, ?_⟩
  · intro code handled
    have counted := makeCode_count data handled
    have covered := (free code handled).2
    simp only [keyStep, List.count_append, counted] at covered ⊢
    omega
  · intro code handled
    have due := settled.due code handled
    rw [(free code handled).1] at due
    exact Nat.le_trans due (Nat.le_add_right _ _)

theorem Settled.step (settled : Settled l) {e : KeyEvent} (undisturbed : Undisturbed l e) :
    Settled (keyStep d l e) := by
  match e with
  | .access => exact settled.access
  | .interrupt (.keyboard data) => exact settled.keyboard undisturbed
  | .interrupt .time => exact ⟨settled.behind, settled.covered, settled.due⟩
  | .interrupt (.mouse data) =>
    have same : ∀ code, (keyStep d l (.interrupt (.mouse data))).state.waiting code = l.state.waiting code ∧
        (keyStep d l (.interrupt (.mouse data))).state.ahead code = l.state.ahead code :=
      fun code => waiting_congr rfl (serve_lastKey (.mouse data) _)
    refine ⟨fun code handled => (settled.behind code handled).step handled _, ?_, ?_⟩
    · intro code handled
      rw [(same code).1]
      exact settled.covered code handled
    · intro code handled
      rw [(same code).2]
      exact settled.due code handled

/-! ## Every run -/

theorem keyRun_append (l : KeyLedger) (first rest : List KeyEvent) :
    keyRun d l (first ++ rest) = keyRun d (keyRun d l first) rest := List.foldl_append

theorem keyStart_settled (f : FrameState) (free : f.shared.globals.lastKey ∉ keyCodes) :
    Settled (keyStart f) := by
  have none : ∀ code ∈ keyCodes, (keyStart f).state.waiting code = 0 := by
    intro code handled
    have absent : f.shared.globals.lastKey ≠ code := fun same => free (same ▸ handled)
    simp [KeyState.waiting, keyStart, absent]
  refine ⟨?_, ?_, ?_⟩
  · intro code handled
    rw [Behind, none code handled]
    exact Nat.le_refl _
  · intro code handled
    exact Nat.zero_le _
  · intro code handled
    exact Nat.zero_le _

theorem Settled.run (settled : Settled l) {events : List KeyEvent}
    (undisturbed : Along (fun l e => some (keyStep d l e)) Undisturbed l events) :
    Settled (keyRun d l events) := by
  induction events generalizing l with
  | nil => exact settled
  | cons e events ih => exact ih (settled.step undisturbed.1) (undisturbed.2 _ rfl)

theorem disturbed_run (behind : ∀ code ∈ keyCodes, Behind 0 code l) {events : List KeyEvent}
    (disturbed : ¬ Along (fun l e => some (keyStep d l e)) Undisturbed l events) :
    ∃ code ∈ keyCodes, Behind 1 code (keyRun d l events) := by
  induction events generalizing l with
  | nil => exact absurd trivial disturbed
  | cons e events ih =>
    by_cases here : Undisturbed l e
    · refine ih (fun code handled => (behind code handled).step handled e) ?_
      intro later
      exact disturbed ⟨here, fun next stepped => Option.some.inj stepped ▸ later⟩
    · obtain ⟨code, handled, owed⟩ := Behind.disturbed (d := d) behind here
      exact ⟨code, handled, owed.run handled events⟩

theorem undisturbed_accesses (l : KeyLedger) (rounds : Nat) :
    Along (fun l e => some (keyStep d l e)) Undisturbed l (List.replicate rounds .access) := by
  induction rounds generalizing l with
  | zero => trivial
  | succ rounds ih => exact ⟨trivial, fun next _ => ih next⟩

theorem accesses_delivered (l : KeyLedger) (rounds : Nat) :
    (keyRun d l (List.replicate rounds .access)).delivered = l.delivered := by
  induction rounds generalizing l with
  | zero => rfl
  | succ rounds ih => exact ih (keyStep d l .access)

/-- After some accesses an iteration is over, with these codes due in it. -/
def EndsWith (d : Display) (l : KeyLedger) (due : List (BitVec 32)) : Prop :=
  ∃ rounds, (keyRun d l (List.replicate rounds .access)).state.point = .compare 0 ∧
    (keyRun d l (List.replicate rounds .access)).due = due

theorem EndsWith.access {due : List (BitVec 32)} (ends : EndsWith d (keyStep d l .access) due) :
    EndsWith d l due := by
  obtain ⟨rounds, finished, same⟩ := ends
  exact ⟨rounds + 1, finished, same⟩

theorem EndsWith.next (inside : l.state.point ≠ .compare 0)
    (ends : EndsWith d (keyStep d l .access) (keyStep d l .access).due) : EndsWith d l l.due := by
  have kept : (keyStep d l .access).due = l.due := if_neg inside
  exact kept ▸ ends.access

theorem clear_ends (clear : l.state.point = .clear) : EndsWith d l l.due := by
  have inside : l.state.point ≠ .compare 0 := by simp [clear]
  refine EndsWith.next inside ⟨0, ?_, rfl⟩
  show (access d l.state).2.point = .compare 0
  rw [access, clear]
  rfl

/-- One access ends the iteration, clears the key, or leaves the next comparison. -/
theorem ends_of_access (inside : l.state.point ≠ .compare 0)
    (further : ∀ i, l.state.point = .compare i → i < keyCodes.length →
      (keyStep d l .access).state.point = .compare (i + 1) →
        EndsWith d (keyStep d l .access) (keyStep d l .access).due) : EndsWith d l l.due := by
  refine EndsWith.next inside ?_
  have point : (keyStep d l .access).state.point = (access d l.state).2.point := rfl
  have accessed := access_cases d l.state
  generalize access d l.state = result at point accessed
  cases accessed with
  | taken => exact clear_ends point
  | missed i here more => exact further i here (by omega) point
  | ended => exact ⟨0, point, rfl⟩
  | cleared => exact ⟨0, point, rfl⟩

/-- An iteration under way ends, and what was due when it began stays due. -/
theorem iteration_ends (left : Nat) {l : KeyLedger} (inside : l.state.point ≠ .compare 0)
    (bound : ∀ i, l.state.point = .compare i → keyCodes.length ≤ i + left) :
    EndsWith d l l.due := by
  -- the comparisons that are left are what the induction counts
  induction left generalizing l with
  | zero =>
    apply ends_of_access inside
    intro i here more _
    have none := bound i here
    omega
  | succ left ih =>
    apply ends_of_access inside
    intro i here _ point
    refine ih (by simp [point]) ?_
    intro j next
    have before := bound i here
    have same := Point.compare.inj (next.symm.trans point)
    omega

theorem full_iteration (begins : l.state.point = .compare 0) : EndsWith d l l.delivered := by
  have due : (keyStep d l .access).due = l.delivered := if_pos begins
  by_cases ended : (keyStep d l .access).state.point = .compare 0
  · exact EndsWith.access ⟨0, ended, due⟩
  · have rest : EndsWith d (keyStep d l .access) (keyStep d l .access).due :=
      iteration_ends keyCodes.length ended fun i _ => Nat.le_add_left _ _
    exact due ▸ rest.access

/-- Some interleaving leads from one state of the loop to another. -/
def Leads (d : Display) (s t : KeyState) : Prop :=
  ∀ l : KeyLedger, l.state = s → ∃ events, (keyRun d l events).state = t

theorem Leads.refl (s : KeyState) : Leads d s s := fun _ same => ⟨[], same⟩

theorem Leads.trans {s t u : KeyState} (first : Leads d s t) (rest : Leads d t u) : Leads d s u := by
  intro l same
  obtain ⟨events, reached⟩ := first l same
  obtain ⟨later, ended⟩ := rest (keyRun d l events) reached
  exact ⟨events ++ later, by rw [keyRun_append, ended]⟩

theorem Leads.access (s : KeyState) : Leads d s (access d s).2 :=
  fun _ same => ⟨[.access], same ▸ rfl⟩

theorem Leads.interrupts (s : KeyState) (pending : List Interrupt) :
    Leads d s { s with shared := s.shared.serveAll pending } := by
  induction pending generalizing s with
  | nil => exact Leads.refl s
  | cons i pending ih =>
    have served : Leads d s { s with shared := i.serve s.shared } :=
      fun l same => ⟨[.interrupt i], same ▸ rfl⟩
    exact served.trans (ih _)

/-- The chain as a frame runs it is a run of single accesses. -/
theorem keyChain_leads (d : Display) (pending : Nat → List Interrupt)
    (cases : List (BitVec 32 × (Animation → Animation))) (i : Nat) (shared : Shared) (a : Animation)
    (chain : keyCases.drop i = cases) (more : cases ≠ []) :
    Leads d { shared, animation := a, point := .compare i }
      { shared := (keyChain pending i cases shared a).1
        animation := endIteration d (keyChain pending i cases shared a).2
        point := .compare 0 } := by
  induction cases generalizing i shared with
  | nil => exact absurd rfl more
  | cons branch rest ih =>
    obtain ⟨code, act⟩ := branch
    refine (Leads.interrupts _ (pending i)).trans ?_
    refine (Leads.access _).trans ?_
    simp only [Efi.access, chain, compareKey, keyChain]
    split
    next taken => exact (Leads.interrupts _ (pending (i + 1))).trans (Leads.access _)
    next missed =>
      split
      next last =>
        rw [List.isEmpty_iff.mp last]
        exact Leads.refl _
      next later =>
        have tail : keyCases.drop (i + 1) = rest := by
          rw [← List.tail_drop, chain, List.tail_cons]
        exact ih (i + 1) _ tail (by simpa using later)

theorem serveAll_append (shared : Shared) (first rest : List Interrupt) :
    (shared.serveAll first).serveAll rest = shared.serveAll (first ++ rest) := List.foldl_append.symm

theorem pollTicks_serves {initial wait : BitVec 64} {polls : List (List Interrupt)}
    {shared after : Shared} (waited : pollTicks initial wait polls shared = some after) :
    ∃ pending, after = shared.serveAll pending := by
  induction polls generalizing shared with
  | nil => simp [pollTicks] at waited
  | cons pending polls ih =>
    simp only [pollTicks] at waited
    split at waited
    next =>
      obtain ⟨later, served⟩ := ih waited
      exact ⟨pending ++ later, by rw [served, serveAll_append]⟩
    next => exact ⟨pending, (Option.some.inj waited).symm⟩

/-- Every frame is a run of accesses and interrupts. -/
theorem frame_leads (d : Display) {f next : FrameState} {p : Pending} (ran : frame d f p = some next) :
    Leads d { shared := f.shared, animation := f.animation, point := .compare 0 }
      { shared := next.shared, animation := next.animation, point := .compare 0 } := by
  refine (keyChain_leads d p.key keyCases 0 f.shared f.animation rfl (by simp [keyCases])).trans ?_
  generalize entered : keyChain p.key 0 keyCases f.shared f.animation = chain
  have frames : enterFrame d f p = (chain.1, clampBox d chain.2) := by rw [enterFrame, entered]
  unfold frame at ran
  rw [frames] at ran
  by_cases running : (clampBox d chain.2).paused = 0
  · simp only [running, if_true, Option.bind_eq_bind, Option.bind_eq_some_iff, Option.some.injEq] at ran
    obtain ⟨after, waited, rfl⟩ := ran
    obtain ⟨pending, served⟩ := pollTicks_serves waited
    simp only [drawFrame, readCursor, serveAll_append] at served
    rw [served, endIteration, if_pos running]
    exact Leads.interrupts _ _
  · simp only [running, if_false, Option.some.injEq] at ran
    rw [← ran, endIteration, if_neg running]
    exact Leads.refl _

end SzOS.Efi
