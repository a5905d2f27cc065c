import Mathlib.Logic.Basic

/-!
# Loops that sweep over a list until a test is met

`sweepUntil` repeats a sweep over a list and looks after each sweep whether to stop, as a `do` loop
around a `for` loop does. What every step of a sweep keeps holds when the loop stops
(`sweepUntil_invariant`). The loop stops if no step increases a measure and, in every sweep after
which it goes on, some item is left with work that decreases the measure when its turn comes
(`exists_sweepUntil`).
-/

namespace Sweep

variable {σ α : Type*} (step : σ → α → σ) (items : List α) (stop : σ → Prop) [DecidablePred stop]

/-- Sweep until the test is met, at most as many times as given. -/
def sweepUntil : Nat → σ → Option σ
  | 0, _ => none
  | rounds + 1, s =>
    let s := items.foldl step s
    if stop s then some s else sweepUntil rounds s

variable {step items stop} {I : σ → Prop}

/-- What every step keeps holds when the loop stops, and so does the test. -/
theorem sweepUntil_invariant (hstep : ∀ s a, I s → I (step s a)) {rounds : Nat} {s s' : σ}
    (hs : I s) (h : sweepUntil step items stop rounds s = some s') : I s' ∧ stop s' := by
  induction rounds generalizing s with
  | zero => exact nomatch h
  | succ rounds ih =>
    have hswept : I (items.foldl step s) :=
      List.foldlRecOn items step hs fun s hs a _ => hstep s a hs
    rw [sweepUntil] at h
    split at h
    · next hstop =>
      cases h
      exact ⟨hswept, hstop⟩
    · exact ih hswept h

section
variable {m : σ → Nat} {Left : σ → α → Prop}
  (hstep : ∀ s a, I s → I (step s a)) (hle : ∀ s a, I s → m (step s a) ≤ m s)

include hstep hle

/-- A sweep does not raise the measure. -/
theorem foldl_le (items : List α) {s : σ} (hs : I s) : m (items.foldl step s) ≤ m s := by
  induction items generalizing s with
  | nil => exact Nat.le_refl _
  | cons a items ih => exact Nat.le_trans (ih (hstep s a hs)) (hle s a hs)

variable (hlt : ∀ s a, I s → Left s a → m (step s a) < m s)
  (hleft : ∀ s a b, Left (step s a) b → Left s b)

include hlt hleft

/-- An item that is left after a sweep was left at its turn, so the sweep decreases the measure. -/
theorem foldl_lt {items : List α} {a : α} (ha : a ∈ items) {s : σ} (hs : I s)
    (hend : Left (items.foldl step s) a) : m (items.foldl step s) < m s := by
  induction items generalizing s with
  | nil => exact nomatch ha
  | cons b items ih =>
    have hkept := hstep s b hs
    rcases List.mem_cons.1 ha with rfl | hmem
    · have hback : ∀ (items : List α) (s : σ), Left (items.foldl step s) a → Left s a := by
        intro items
        induction items with
        | nil => exact fun _ h => h
        | cons b items ih => exact fun s h => hleft s b a (ih _ h)
      have hturn := hleft s a a (hback items _ hend)
      exact Nat.lt_of_le_of_lt (foldl_le hstep hle items hkept) (hlt s a hs hturn)
    · exact Nat.lt_of_lt_of_le (ih hmem hkept hend) (hle s b hs)

/-- The loop stops if some item is left after every sweep after which it goes on. -/
theorem exists_sweepUntil (hgo : ∀ s, I s → ¬ stop s → ∃ a ∈ items, Left s a) {s : σ} (hs : I s) :
    ∃ rounds s', sweepUntil step items stop rounds s = some s' := by
  obtain ⟨bound, hbound⟩ : ∃ bound, m s < bound := ⟨m s + 1, Nat.lt_succ_self _⟩
  induction bound generalizing s with
  | zero => exact absurd hbound (Nat.not_lt_zero _)
  | succ bound ih =>
    have hswept : I (items.foldl step s) :=
      List.foldlRecOn items step hs fun s hs a _ => hstep s a hs
    by_cases hstop : stop (items.foldl step s)
    · exact ⟨1, items.foldl step s, if_pos hstop⟩
    · obtain ⟨a, ha, hend⟩ := hgo _ hswept hstop
      have hdec := foldl_lt hstep hle hlt hleft ha hs hend
      obtain ⟨rounds, s', h⟩ := ih hswept (Nat.lt_of_lt_of_le hdec (Nat.le_of_lt_succ hbound))
      exact ⟨rounds + 1, s', (if_neg hstop).trans h⟩

end

end Sweep
