import GekkoFS.Lib.Transition

/-!
# Two servers that give the same answers

A server answers each call and goes to a next state. `answers` are its answers to a list of calls,
and `final` is its state after them. If a relation between the states of two servers is kept by
every call that meets a condition, and related servers answer such a call in the same way, then they
give the same answers to every list of calls that meet it (`answers_eq`) and end in related states
(`final_rel`).
-/

namespace Simulation

variable {σ τ γ ρ : Type*} (serve : σ → γ → ρ × σ) (serve' : τ → γ → ρ × τ) (ok : σ → γ → Prop)

/-- The answers to a list of calls. -/
def answers : σ → List γ → List ρ
  | _, [] => []
  | s, c :: cs => (serve s c).1 :: answers (serve s c).2 cs

/-- The state after a list of calls. -/
def final (s : σ) (cs : List γ) : σ := cs.foldl (fun s c => (serve s c).2) s

/-- Each call meets the condition in the state before it. -/
abbrev CallsOk : σ → List γ → Prop := Transition.AllOk (fun s c => some (serve s c).2) ok

/-- A relation that calls keep, and that makes the two servers answer in the same way. -/
structure Simulates (R : σ → τ → Prop) : Prop where
  answer : ∀ s t c, R s t → ok s c → (serve s c).1 = (serve' t c).1
  next : ∀ s t c, R s t → ok s c → R (serve s c).2 (serve' t c).2

variable {serve serve' ok} {R : σ → τ → Prop} {s : σ} {t : τ} {cs : List γ}

/-- Both sides give the same answers. -/
theorem answers_eq (h : Simulates serve serve' ok R) (hR : R s t) (hok : CallsOk serve ok s cs) :
    answers serve s cs = answers serve' t cs := by
  induction cs generalizing s t with
  | nil => rfl
  | cons c cs ih =>
    rw [answers, answers, h.answer s t c hR hok.1, ih (h.next s t c hR hok.1) (hok.2 _ rfl)]

/-- Both sides end in related states. -/
theorem final_rel (h : Simulates serve serve' ok R) (hR : R s t) (hok : CallsOk serve ok s cs) :
    R (final serve s cs) (final serve' t cs) := by
  induction cs generalizing s t with
  | nil => exact hR
  | cons c cs ih => exact ih (h.next s t c hR hok.1) (hok.2 _ rfl)

end Simulation
