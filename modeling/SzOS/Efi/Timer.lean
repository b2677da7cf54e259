import SzOS.Efi.KeyInput
import SzOS.Hardware.Pit8254
import SzOS.Semantics.Words

/-! The timer of the EFI kernel and the waits it measures (pic_timer.c).

`program_pit` gives the timer a period in input clocks; `delay_real` counts its
interrupts. A wait of n ticks is never shorter than n - 1 periods, and a poll n
periods after its start ends it.
-/

set_option autoImplicit false

namespace SzOS.Efi
open Semantics Hardware

def pitFrequencyHz : BitVec 32 := 1193182
def pitModeRateGen : Byte := 0x36

/-- `none` is the divide error. -/
def programPit (freqDesired : BitVec 32) (pit : PitChannel) : Option PitChannel :=
  if freqDesired = 0 then none
  else
    let div := pitFrequencyHz / freqDesired
    let pit := pit.outb PitChannel.commandPort pitModeRateGen
    let pit := pit.outb PitChannel.dataPort ((div &&& 0xFF).setWidth 8)
    some (pit.outb PitChannel.dataPort (((div >>> 8) &&& 0xFF).setWidth 8))

/-! ## The period -/

theorem two_bytes (div : BitVec 32) :
    ((div >>> 8) &&& 0xFF).setWidth 8 ++ (div &&& 0xFF).setWidth 8 = div.setWidth 16 := by
  rw [setWidth_and_mask _ rfl, setWidth_and_mask _ rfl, setWidth_append div 8 8]

theorem programPit_spec {freq : BitVec 32} (positive : freq ≠ 0) (pit : PitChannel) :
    programPit freq pit =
      some { access := .lowThenHigh, mode := 3, bcd := false, low := none
             count := (pitFrequencyHz / freq).setWidth 16 } := by
  unfold programPit
  rw [if_neg positive]
  dsimp only
  rw [PitChannel.outb_count pit (by decide) (by decide), two_bytes]
  rfl

/-- The count holds the divisor exactly for the frequencies from 19 Hz to the input clock's. -/
theorem programPit_period_iff {freq : BitVec 32} (positive : freq ≠ 0) {pit programmed : PitChannel}
    (done : programPit freq pit = some programmed) :
    programmed.period = 1193182 / freq.toNat ↔ 19 ≤ freq.toNat ∧ freq.toNat ≤ 1193182 := by
  rw [programPit_spec positive] at done
  have programmed := Option.some.inj done
  subst programmed
  have nonzero : 0 < freq.toNat := by
    refine Nat.pos_of_ne_zero fun zero => positive ?_
    exact BitVec.eq_of_toNat_eq zero
  have hz : pitFrequencyHz.toNat = 1193182 := rfl
  have count : ((pitFrequencyHz / freq).setWidth 16).toNat = 1193182 / freq.toNat % 65536 := by
    rw [BitVec.toNat_setWidth, BitVec.toNat_udiv, hz]
  have zero : (pitFrequencyHz / freq).setWidth 16 = 0 ↔ 1193182 / freq.toNat % 65536 = 0 := by
    rw [← count]
    exact ⟨fun same => by rw [same]; rfl, fun same => BitVec.eq_of_toNat_eq same⟩
  have least : 1193182 / freq.toNat ≤ 65536 ↔ 19 ≤ freq.toNat := by
    rw [← Nat.lt_succ_iff, Nat.div_lt_iff_lt_mul nonzero]
    omega
  have most : 0 < 1193182 / freq.toNat ↔ freq.toNat ≤ 1193182 := Nat.div_pos_iff.trans (by omega)
  rw [PitChannel.period_binary rfl]
  dsimp only
  rw [count, ← least, ← most]
  split
  next clear =>
    rw [zero] at clear
    omega
  next kept =>
    rw [zero] at kept
    omega

/-! ## The interrupts of a wait -/

def timerCount (pending : List Interrupt) : Nat :=
  pending.countP fun i => match i with
    | .time => true
    | _ => false

theorem serve_ticks (shared : Shared) (i : Interrupt) :
    (i.serve shared).globals.ticks = shared.globals.ticks + BitVec.ofNat 64 (timerCount [i]) := by
  cases i with
  | time => rfl
  | keyboard data => exact (BitVec.add_zero _).symm
  | mouse data =>
    have kept : (mouseByte data shared.globals).ticks = shared.globals.ticks := by
      unfold mouseByte
      dsimp only
      split <;> rfl
    exact kept.trans (BitVec.add_zero _).symm

theorem serveAll_ticks (shared : Shared) (pending : List Interrupt) :
    (shared.serveAll pending).globals.ticks =
      shared.globals.ticks + BitVec.ofNat 64 (timerCount pending) := by
  induction pending generalizing shared with
  | nil => exact (BitVec.add_zero _).symm
  | cons i rest ih =>
    have count : timerCount ([i] ++ rest) = timerCount [i] + timerCount rest := List.countP_append
    refine (ih (i.serve shared)).trans ?_
    rw [serve_ticks, BitVec.add_assoc, ← BitVec.ofNat_add, ← count]
    rfl

/-! ## The length of a wait -/

/-- Timer interrupts up to a time in input clocks. -/
def ticksBy (period phase time : Nat) : Nat := (time + phase) / period

/-- A poll, with what came in since the one before and the time it is made at. -/
abbrev Poll := List Interrupt × Nat

/-- The timer interrupts between polls are those of its period; other interrupts are free. -/
def Clocked (period phase : Nat) : Nat → List Poll → Prop
  | _, [] => True
  | before, (pending, time) :: rest =>
    before ≤ time ∧ timerCount pending = ticksBy period phase time - ticksBy period phase before ∧
      Clocked period phase time rest

variable {period phase start n : Nat}

theorem ticksBy_mono (period phase : Nat) {first second : Nat} (order : first ≤ second) :
    ticksBy period phase first ≤ ticksBy period phase second :=
  Nat.div_le_div_right (Nat.add_le_add_right order phase)

/-- Never early: n ticks take more than n - 1 periods. -/
theorem ticks_enough (positive : 0 < period) {time : Nat}
    (counted : n ≤ ticksBy period phase time - ticksBy period phase start) (order : start ≤ time) :
    n * period < time - start + period := by
  have mono := ticksBy_mono period phase order
  unfold ticksBy at counted mono
  have whole := Nat.div_mul_le_self (time + phase) period
  have below := Nat.lt_div_mul_add (a := start + phase) positive
  have ticks := Nat.mul_le_mul_right period (show n + (start + phase) / period ≤ (time + phase) / period by omega)
  rw [Nat.add_mul] at ticks
  omega

/-- And none is skipped: n periods bring n ticks. -/
theorem ticks_missing (positive : 0 < period) {time : Nat}
    (short : ticksBy period phase time - ticksBy period phase start < n) : time - start < n * period := by
  unfold ticksBy at short
  have some := Nat.mul_pos (Nat.zero_lt_of_lt short) positive
  have whole := Nat.div_mul_le_self (start + phase) period
  have below := Nat.lt_div_mul_add (a := time + phase) positive
  have ticks := Nat.mul_le_mul_right period
    (show (time + phase) / period + 1 ≤ n + (start + phase) / period by omega)
  rw [Nat.add_mul, Nat.add_mul, Nat.one_mul] at ticks
  omega

/-- The polls of a wait, which ends at the first one that has seen enough ticks. -/
theorem pollTicks_clocked {ticksInitial : BitVec 64} (ticksForWait : BitVec 64) {polls : List Poll} {shared : Shared}
    {before : Nat} (order : start ≤ before) (clocked : Clocked period phase before polls)
    (counted : shared.globals.ticks - ticksInitial =
      BitVec.ofNat 64 (ticksBy period phase before - ticksBy period phase start))
    (small : ∀ poll ∈ polls, ticksBy period phase poll.2 - ticksBy period phase start < 2 ^ 64) :
    (pollTicks ticksInitial ticksForWait (polls.map Prod.fst) shared = none ∧
      ∀ poll ∈ polls, ticksBy period phase poll.2 - ticksBy period phase start < ticksForWait.toNat) ∨
    ∃ earlier pending time rest, polls = earlier ++ (pending, time) :: rest ∧ start ≤ time ∧
      pollTicks ticksInitial ticksForWait (polls.map Prod.fst) shared =
        some (shared.serveAll (earlier.flatMap Prod.fst ++ pending)) ∧
      (∀ poll ∈ earlier, ticksBy period phase poll.2 - ticksBy period phase start < ticksForWait.toNat) ∧
      ticksForWait.toNat ≤ ticksBy period phase time - ticksBy period phase start := by
  induction polls generalizing shared before with
  | nil => exact Or.inl ⟨rfl, by simp⟩
  | cons poll rest ih =>
    obtain ⟨pending, time⟩ := poll
    obtain ⟨later, ticks, clocked⟩ := clocked
    obtain ⟨here, others⟩ := List.forall_mem_cons.mp small
    have since : (shared.serveAll pending).globals.ticks - ticksInitial =
        BitVec.ofNat 64 (ticksBy period phase time - ticksBy period phase start) := by
      have first := ticksBy_mono period phase order
      have second := ticksBy_mono period phase later
      have sum : ticksBy period phase time - ticksBy period phase start =
          ticksBy period phase before - ticksBy period phase start + timerCount pending := by omega
      rw [serveAll_ticks, sum, BitVec.ofNat_add, ← counted, BitVec.sub_eq_add_neg, BitVec.sub_eq_add_neg,
        BitVec.add_assoc, BitVec.add_comm (BitVec.ofNat 64 _), ← BitVec.add_assoc]
    have compare : (shared.serveAll pending).globals.ticks - ticksInitial < ticksForWait ↔
        ticksBy period phase time - ticksBy period phase start < ticksForWait.toNat := by
      rw [since, BitVec.lt_def, BitVec.toNat_ofNat, Nat.mod_eq_of_lt here]
    rw [List.map_cons, pollTicks]
    by_cases short : ticksBy period phase time - ticksBy period phase start < ticksForWait.toNat
    · rw [if_pos (compare.mpr short)]
      rcases ih (Nat.le_trans order later) clocked since others with ⟨none, all⟩ | ended
      · exact Or.inl ⟨none, List.forall_mem_cons.mpr ⟨short, all⟩⟩
      · obtain ⟨earlier, last, stop, after, rfl, bound, returned, all, enough⟩ := ended
        refine Or.inr ⟨(pending, time) :: earlier, last, stop, after, rfl, bound, ?_,
          List.forall_mem_cons.mpr ⟨short, all⟩, enough⟩
        rw [returned, serveAll_append, List.flatMap_cons, List.append_assoc]
    · rw [if_neg fun less => short (compare.mp less)]
      exact Or.inr ⟨[], pending, time, rest, rfl, Nat.le_trans order later, rfl, by simp,
        Nat.le_of_not_lt short⟩

/-- A wait on a timer programmed to a frequency that fits: whatever else interrupts it and
wherever the tick counter stands, it ends only after more than n - 1 periods, every earlier
poll came before the end of n periods, and if it has not ended no poll was later than that. -/
theorem delay_real_clocks {freq : BitVec 32} (fits : 19 ≤ freq.toNat ∧ freq.toNat ≤ 1193182)
    (pit : PitChannel) (phase start : Nat) (ticksForWait : BitVec 64) (shared : Shared) (p : Pending)
    (polls : List Poll) (made : p.delay = polls.map Prod.fst) :
    ∃ programmed, programPit freq pit = some programmed ∧ programmed.mode = 3 ∧
      programmed.period = 1193182 / freq.toNat ∧
      (Clocked programmed.period phase start polls →
        (∀ poll ∈ polls, poll.2 - start < 2 ^ 64) →
        (delayReal ticksForWait p shared = none →
          ∀ poll ∈ polls, poll.2 - start < ticksForWait.toNat * programmed.period) ∧
        ∀ final, delayReal ticksForWait p shared = some final →
          ∃ earlier pending time rest, polls = earlier ++ (pending, time) :: rest ∧
            final = (shared.serveAll p.delayStart).serveAll (earlier.flatMap Prod.fst ++ pending) ∧
            ticksForWait.toNat * programmed.period < time - start + programmed.period ∧
            ∀ poll ∈ earlier, poll.2 - start < ticksForWait.toNat * programmed.period) := by
  have nonzero : freq ≠ 0 := by
    rintro rfl
    exact absurd fits.1 (by decide)
  have done := programPit_spec nonzero pit
  have period := (programPit_period_iff nonzero done).mpr fits
  refine ⟨_, done, rfl, period, ?_⟩
  have positive : 0 < PitChannel.period
      { access := .lowThenHigh, mode := 3, bcd := false, low := none
        count := (pitFrequencyHz / freq).setWidth 16 } := by
    rw [period]
    exact Nat.div_pos fits.2 (by omega)
  generalize PitChannel.period _ = period at positive
  intro clocked small
  -- a period is at least one clock, so there are no more ticks than clocks
  have few : ∀ poll ∈ polls, ticksBy period phase poll.2 - ticksBy period phase start < 2 ^ 64 := by
    intro poll member
    have clocks := small poll member
    by_contra many
    have enough : 2 ^ 64 ≤ ticksBy period phase poll.2 - ticksBy period phase start := Nat.le_of_not_lt many
    have order : start ≤ poll.2 := by
      by_contra late
      have mono := ticksBy_mono period phase (Nat.le_of_not_le late)
      omega
    have long := ticks_enough positive enough order
    omega
  have counted : (shared.serveAll p.delayStart).globals.ticks - (shared.serveAll p.delayStart).globals.ticks =
      BitVec.ofNat 64 (ticksBy period phase start - ticksBy period phase start) := by
    rw [BitVec.sub_self, Nat.sub_self]
  have outcome := pollTicks_clocked ticksForWait (Nat.le_refl start) clocked counted few
  have call : delayReal ticksForWait p shared =
      pollTicks (shared.serveAll p.delayStart).globals.ticks ticksForWait (polls.map Prod.fst)
        (shared.serveAll p.delayStart) := by rw [← made]; rfl
  rw [← call] at outcome
  rcases outcome with ⟨none, all⟩ | ⟨earlier, pending, time, rest, split, after, returned, all, enough⟩
  · refine ⟨fun _ poll member => ticks_missing positive (all poll member), ?_⟩
    intro final ended
    rw [none] at ended
    cases ended
  · refine ⟨fun none => absurd (none.symm.trans returned) (by simp), ?_⟩
    intro final ended
    cases ended.symm.trans returned
    exact ⟨earlier, pending, time, rest, split, rfl, ticks_enough positive enough after,
      fun poll member => ticks_missing positive (all poll member)⟩

def idlePit : PitChannel := ⟨.lowByte, 2, true, none, 0⟩

/-- Two polls, one before and one after the first tick of a timer at 100 Hz. -/
def twoPolls : List Poll := [([], 5000), ([.time, .keyboard 0x1E], 12000)]

def oneTick : Pending := { quiet with delay := twoPolls.map Prod.fst }

theorem delay_real_clocks_one : ∃ programmed, programPit 100 idlePit = some programmed ∧
    programmed.period = 11931 ∧
    ∃ final, delayReal 1 oneTick mainStart800x600.shared = some final ∧
      ∃ earlier pending time rest, twoPolls = earlier ++ (pending, time) :: rest ∧
        programmed.period < time - 0 + programmed.period ∧
          ∀ poll ∈ earlier, poll.2 - 0 < programmed.period := by
  obtain ⟨programmed, done, _, period, wait⟩ := delay_real_clocks (show 19 ≤ (100 : BitVec 32).toNat ∧ (100 : BitVec 32).toNat ≤ 1193182 by decide) idlePit 0 0 1
    mainStart800x600.shared oneTick twoPolls rfl
  have length : programmed.period = 11931 := period
  rw [length] at wait
  have clocked : Clocked 11931 0 0 twoPolls := ⟨by decide, by decide, by decide, by decide, trivial⟩
  have ended := (wait clocked (by decide)).2 _ rfl
  obtain ⟨earlier, pending, time, rest, split, _, enough, short⟩ := ended
  have one : (1 : BitVec 64).toNat * 11931 = 11931 := rfl
  rw [one] at enough short
  exact ⟨programmed, done, length, _, rfl, earlier, pending, time, rest, split, length ▸ enough,
    length ▸ short⟩

end SzOS.Efi
