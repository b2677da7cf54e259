import Mathlib.Tactic.TypeStar

/-! Deterministic systems with outputs, and forward simulation between two of them. -/

set_option autoImplicit false

namespace SzOS.Semantics

variable {S T A O : Type*}

/-- The outputs of a run, in order, and the state it ends in. -/
def respond (step : S → A → O × S) : S → List A → List O × S
  | state, [] => ([], state)
  | state, input :: rest =>
    let (output, next) := step state input
    let (outputs, final) := respond step next rest
    (output :: outputs, final)

theorem respond_cons (step : S → A → O × S) (state : S) (input : A) (rest : List A) :
    respond step state (input :: rest) =
      ((step state input).1 :: (respond step (step state input).2 rest).1,
        (respond step (step state input).2 rest).2) := rfl

/-- One step of the lower system is one step of the upper, with the same output. -/
def Simulates (related : S → T → Prop) (lower : S → A → O × S) (upper : T → A → O × T) : Prop :=
  ∀ state shadow input, related state shadow →
    (lower state input).1 = (upper shadow input).1 ∧
      related (lower state input).2 (upper shadow input).2

theorem Simulates.respond {related : S → T → Prop} {lower : S → A → O × S}
    {upper : T → A → O × T} (simulates : Simulates related lower upper)
    {state : S} {shadow : T} (start : related state shadow) (inputs : List A) :
    (Semantics.respond lower state inputs).1 = (Semantics.respond upper shadow inputs).1 ∧
      related (Semantics.respond lower state inputs).2
        (Semantics.respond upper shadow inputs).2 := by
  induction inputs generalizing state shadow with
  | nil => exact ⟨rfl, start⟩
  | cons input rest ih =>
    obtain ⟨output, next⟩ := simulates state shadow input start
    obtain ⟨outputs, final⟩ := ih next
    simp only [Semantics.respond]
    exact ⟨by rw [output, outputs], final⟩

end SzOS.Semantics
