import Mathlib.Data.List.Basic

/-!
# Loops that are driven by events

Each round of a loop takes the next event, and goes on from a new state or leaves the loop with a
result. `runUntil` is the loop over a list of events; it has no result if the events do not suffice.

An invariant of the state and of the events that are ahead, kept by the rounds that go on, gives
what every result satisfies and what is left when the events do not suffice (`runUntil_spec`).
-/

namespace EventLoop

variable {σ ε ρ : Type*} (step : σ → ε → σ ⊕ ρ)

/-- The result of the loop, if it is left within the events. -/
def runUntil : σ → List ε → Option ρ
  | _, [] => none
  | s, e :: es =>
    match step s e with
    | .inl s' => runUntil s' es
    | .inr r => some r

variable {step}

/-- The loop rule. -/
theorem runUntil_spec {I : σ → List ε → Prop} {Q : ρ → Prop}
    (hnext : ∀ s e es s', I s (e :: es) → step s e = .inl s' → I s' es)
    (hexit : ∀ s e es r, I s (e :: es) → step s e = .inr r → Q r) {s : σ} {es : List ε}
    (h : I s es) :
    (∀ r, runUntil step s es = some r → Q r) ∧
      (runUntil step s es = none → ∃ s', I s' []) := by
  induction es generalizing s with
  | nil => exact ⟨fun r hr => (nomatch hr), fun _ => ⟨s, h⟩⟩
  | cons e es ih =>
    rw [runUntil]
    cases hstep : step s e with
    | inl s' => exact ih (hnext s e es s' h hstep)
    | inr r =>
      refine ⟨fun r' hr' => ?_, fun hnone => (nomatch hnone)⟩
      rw [← Option.some.inj hr']
      exact hexit s e es r h hstep

end EventLoop
