import Mathlib.Tactic.TypeStar

/-! Runs of a deterministic system over a list of inputs.

A step that answers `none` does not return: the run ends there and nothing
follows. `Along` states a property of every step of a run, at the state in
which the step is made.
-/

set_option autoImplicit false

namespace SzOS.Semantics

variable {S A : Type*} (step : S → A → Option S)

def run : S → List A → Option S
  | state, [] => some state
  | state, input :: rest => (step state input).bind fun next => run next rest

def Along (property : S → A → Prop) : S → List A → Prop
  | _, [] => True
  | state, input :: rest =>
    property state input ∧ ∀ next, step state input = some next → Along property next rest

@[simp] theorem run_nil (state : S) : run step state [] = some state := rfl

theorem run_cons (state : S) (input : A) (rest : List A) :
    run step state (input :: rest) = (step state input).bind fun next => run step next rest := rfl

theorem run_append (state : S) (first rest : List A) :
    run step state (first ++ rest) = (run step state first).bind fun next => run step next rest := by
  induction first generalizing state with
  | nil => rfl
  | cons input first ih =>
    rw [List.cons_append, run_cons, run_cons, Option.bind_assoc]
    congr 1
    funext next
    exact ih next

variable {step}

/-- A step that answers at least as often gives every run that returned. -/
theorem run_mono {wider : S → A → Option S}
    (extend : ∀ state input next, step state input = some next → wider state input = some next)
    {state final : S} {inputs : List A} (ran : run step state inputs = some final) :
    run wider state inputs = some final := by
  induction inputs generalizing state with
  | nil => exact ran
  | cons input rest ih =>
    rw [run_cons] at ran ⊢
    obtain ⟨next, stepped, ran⟩ := Option.bind_eq_some_iff.mp ran
    rw [extend state input next stepped]
    exact ih ran

/-- What every step preserves, every run preserves. -/
theorem run_invariant (inv : S → Prop)
    (keep : ∀ state input next, inv state → step state input = some next → inv next)
    {state final : S} {inputs : List A} (start : inv state)
    (ran : run step state inputs = some final) : inv final := by
  induction inputs generalizing state with
  | nil => exact Option.some.inj ran ▸ start
  | cons input rest ih =>
    rw [run_cons] at ran
    obtain ⟨next, stepped, ran⟩ := Option.bind_eq_some_iff.mp ran
    exact ih (keep state input next start stepped) ran

theorem Along.imp {left right : S → A → Prop}
    (weaken : ∀ state input, left state input → right state input) {state : S} {inputs : List A}
    (meets : Along step left state inputs) : Along step right state inputs := by
  induction inputs generalizing state with
  | nil => trivial
  | cons input rest ih =>
    exact ⟨weaken state input meets.1, fun next stepped => ih (meets.2 next stepped)⟩

theorem Along.and {left right : S → A → Prop} {state : S} {inputs : List A}
    (first : Along step left state inputs) (second : Along step right state inputs) :
    Along step (fun state input => left state input ∧ right state input) state inputs := by
  induction inputs generalizing state with
  | nil => trivial
  | cons input rest ih =>
    exact ⟨⟨first.1, second.1⟩,
      fun next stepped => ih (first.2 next stepped) (second.2 next stepped)⟩

/-- A property of the steps that meet a condition, given what those steps preserve. -/
theorem Along.congr (inv : S → Prop) {left right : S → A → Prop}
    (agree : ∀ state input, inv state → (left state input ↔ right state input))
    (keep : ∀ state input next, inv state → right state input →
      step state input = some next → inv next)
    {state : S} {inputs : List A} (start : inv state) :
    Along step left state inputs ↔ Along step right state inputs := by
  induction inputs generalizing state with
  | nil => exact Iff.rfl
  | cons input rest ih =>
    have here := agree state input start
    constructor
    · rintro ⟨holds, later⟩
      have holds := here.mp holds
      exact ⟨holds, fun next stepped =>
        (ih (keep state input next start holds stepped)).mp (later next stepped)⟩
    · rintro ⟨holds, later⟩
      exact ⟨here.mpr holds, fun next stepped =>
        (ih (keep state input next start holds stepped)).mpr (later next stepped)⟩

/-- A condition under which every step has a property and keeps an invariant. -/
theorem Along.of_invariant (inv : S → Prop) {condition property : S → A → Prop}
    (holds : ∀ state input, inv state → condition state input → property state input)
    (keep : ∀ state input next, inv state → condition state input →
      step state input = some next → inv next)
    {state : S} {inputs : List A} (start : inv state)
    (meets : Along step condition state inputs) : Along step property state inputs := by
  induction inputs generalizing state with
  | nil => trivial
  | cons input rest ih =>
    refine ⟨holds state input start meets.1, ?_⟩
    intro next stepped
    exact ih (keep state input next start meets.1 stepped) (meets.2 next stepped)

/-- A condition on the inputs alone, under which every step returns. -/
theorem Along.inputs (inv : S → Prop) {condition : A → Prop}
    (returns : ∀ state input, inv state → condition input →
      ∃ next, step state input = some next ∧ inv next)
    {state : S} {inputs : List A} (start : inv state) :
    Along step (fun _ input => condition input) state inputs ↔
      ∀ input ∈ inputs, condition input := by
  induction inputs generalizing state with
  | nil => exact ⟨fun _ _ member => absurd member List.not_mem_nil, fun _ => trivial⟩
  | cons input rest ih =>
    rw [List.forall_mem_cons]
    constructor
    · rintro ⟨holds, later⟩
      obtain ⟨next, stepped, kept⟩ := returns state input start holds
      exact ⟨holds, (ih kept).mp (later next stepped)⟩
    · rintro ⟨holds, rest⟩
      obtain ⟨next, stepped, kept⟩ := returns state input start holds
      refine ⟨holds, ?_⟩
      intro other same
      cases Option.some.inj (stepped.symm.trans same)
      exact (ih kept).mpr rest

/-- The invariant of the steps that meet a condition holds after a run of them. -/
theorem Along.run_invariant (inv : S → Prop) {condition : S → A → Prop}
    (keep : ∀ state input next, inv state → condition state input →
      step state input = some next → inv next)
    {state final : S} {inputs : List A} (start : inv state)
    (meets : Along step condition state inputs) (ran : run step state inputs = some final) :
    inv final := by
  induction inputs generalizing state with
  | nil => exact Option.some.inj ran ▸ start
  | cons input rest ih =>
    rw [run_cons] at ran
    obtain ⟨next, stepped, ran⟩ := Option.bind_eq_some_iff.mp ran
    exact ih (keep state input next start meets.1 stepped) (meets.2 next stepped) ran

end SzOS.Semantics
