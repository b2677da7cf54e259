import Mathlib.Tactic.TypeStar

/-! While loops computed with a bound on the number of tests.

`none` is a run that has not ended within the bound, or whose body has not. A
bound that suffices gives the same answer as every larger one, so a loop
terminates exactly when some bound answers.
-/

set_option autoImplicit false

namespace SzOS.Semantics

variable {S : Type*}

def whileLoop (test : S → Bool) (body : S → Option S) : Nat → S → Option S
  | 0, _ => none
  | bound + 1, state =>
    if test state then (body state).bind (whileLoop test body bound) else some state

variable {test : S → Bool} {body : S → Option S}

theorem whileLoop_exit {state : S} (stop : test state = false) (bound : Nat) :
    whileLoop test body (bound + 1) state = some state :=
  if_neg (Bool.eq_false_iff.mp stop)

theorem whileLoop_step {state next : S} (go : test state = true) (ran : body state = some next)
    (bound : Nat) :
    whileLoop test body (bound + 1) state = whileLoop test body bound next := by
  refine (if_pos go).trans ?_
  rw [ran, Option.bind_some]

/-- A body without an outcome is the end of the loop, whatever the bound. -/
theorem whileLoop_stuck {state : S} (go : test state = true) (stuck : body state = none) (bound : Nat) :
    whileLoop test body bound state = none := by
  cases bound with
  | zero => rfl
  | succ bound =>
    refine (if_pos go).trans ?_
    rw [stuck, Option.bind_none]

/-- A larger bound, also inside the body, does not change an answer. -/
theorem whileLoop_mono {wider : S → Option S}
    (extend : ∀ state next, body state = some next → wider state = some next)
    {bound more : Nat} {state final : S} (enough : bound ≤ more)
    (ended : whileLoop test body bound state = some final) :
    whileLoop test wider more state = some final := by
  induction bound generalizing more state with
  | zero => cases ended
  | succ bound ih =>
    obtain ⟨more, rfl⟩ : ∃ rest, more = rest + 1 := ⟨more - 1, by omega⟩
    cases go : test state with
    | false =>
      rw [whileLoop_exit go] at ended ⊢
      exact ended
    | true =>
      cases ran : body state with
      | none =>
        rw [whileLoop_stuck go ran] at ended
        cases ended
      | some next =>
        rw [whileLoop_step go ran] at ended
        rw [whileLoop_step go (extend state next ran)]
        exact ih (by omega) ended

theorem whileLoop_unique {bound bound' : Nat} {state final final' : S}
    (ended : whileLoop test body bound state = some final)
    (ended' : whileLoop test body bound' state = some final') : final = final' := by
  have more := whileLoop_mono (fun _ _ ran => ran) (Nat.le_max_left bound bound') ended
  have more' := whileLoop_mono (fun _ _ ran => ran) (Nat.le_max_right bound bound') ended'
  exact Option.some.inj (more.symm.trans more')

/-- The rule for total correctness: an invariant, and a measure that the body lowers. -/
theorem whileLoop_total (inv post : S → Prop) (measure : S → Nat)
    (step : ∀ state, inv state → test state = true →
      ∃ next, body state = some next ∧ inv next ∧ measure next < measure state)
    (leave : ∀ final, inv final → test final = false → post final)
    {bound : Nat} {state : S} (start : inv state) (enough : measure state < bound) :
    ∃ final, whileLoop test body bound state = some final ∧ post final := by
  induction bound generalizing state with
  | zero => omega
  | succ bound ih =>
    cases go : test state with
    | false => exact ⟨state, whileLoop_exit go bound, leave state start go⟩
    | true =>
      obtain ⟨next, ran, kept, lower⟩ := step state start go
      rw [whileLoop_step go ran]
      exact ih kept (by omega)

/-- A set of states in which the test holds and that the body never leaves. -/
theorem whileLoop_diverges (inv : S → Prop)
    (stays : ∀ state, inv state → test state = true ∧ ∀ next, body state = some next → inv next)
    (bound : Nat) {state : S} (start : inv state) :
    whileLoop test body bound state = none := by
  induction bound generalizing state with
  | zero => rfl
  | succ bound ih =>
    obtain ⟨go, kept⟩ := stays state start
    cases ran : body state with
    | none => exact whileLoop_stuck go ran _
    | some next =>
      rw [whileLoop_step go ran]
      exact ih (kept next ran)

/-- The states in which the test is made, the last one included. -/
inductive Visits (test : S → Bool) (body : S → Option S) : S → S → Prop where
  | here {state : S} : Visits test body state state
  | next {start state after : S} : Visits test body start state → test state = true →
      body state = some after → Visits test body start after

theorem Visits.invariant {inv : S → Prop}
    (keep : ∀ state next, inv state → test state = true → body state = some next → inv next)
    {first state : S} (start : inv first) (visits : Visits test body first state) : inv state := by
  induction visits with
  | here => exact start
  | next _ go ran ih => exact keep _ _ ih go ran

/-- From every visited state the rest of the loop ends where the whole loop ends. -/
theorem Visits.ends {bound : Nat} {first state final : S} (visits : Visits test body first state)
    (ended : whileLoop test body bound first = some final) :
    ∃ rest, whileLoop test body rest state = some final := by
  induction visits with
  | here => exact ⟨bound, ended⟩
  | next _ go ran ih =>
    obtain ⟨rest, ended⟩ := ih
    cases rest with
    | zero => cases ended
    | succ rest => exact ⟨rest, (whileLoop_step go ran rest).symm.trans ended⟩

/-- A loop that ends runs its body in every visited state in which the test holds. -/
theorem Visits.runs {bound : Nat} {first state final : S} (visits : Visits test body first state)
    (ended : whileLoop test body bound first = some final) (go : test state = true) :
    ∃ next, body state = some next := by
  obtain ⟨rest, ended⟩ := visits.ends ended
  cases ran : body state with
  | none =>
    rw [whileLoop_stuck go ran] at ended
    cases ended
  | some next => exact ⟨next, rfl⟩

/-- As `whileLoop_total`, where the step may use that the state is visited. -/
theorem whileLoop_total_visited (inv : S → Prop) (measure : S → Nat) {first : S}
    (step : ∀ state, Visits test body first state → inv state → test state = true →
      ∃ next, body state = some next ∧ inv next ∧ measure next < measure state)
    {bound : Nat} (start : inv first) (enough : measure first < bound) :
    ∃ final, whileLoop test body bound first = some final ∧ inv final ∧ test final = false := by
  refine whileLoop_total (fun state => Visits test body first state ∧ inv state)
    (fun final => inv final ∧ test final = false) measure ?_ ?_ ⟨.here, start⟩ enough
  · rintro state ⟨visits, holds⟩ go
    obtain ⟨next, ran, kept, lower⟩ := step state visits holds go
    exact ⟨next, ran, ⟨visits.next go ran, kept⟩, lower⟩
  · rintro final ⟨_, holds⟩ stopped
    exact ⟨holds, stopped⟩

end SzOS.Semantics
