import Mathlib.Data.Option.Basic

/-!
# Runs of a state machine

A machine is a step function that is undefined where an event cannot happen. `run` takes it through
a list of events, and `AllOk` says that every step of such a run meets a condition on the state
before it and on its event. A property that every step meeting the condition keeps holds at the end
of every run meeting it (`run_invariant`), and if no such step is stuck where the property holds,
then no such run is stuck (`run_total`); the property may count the steps that are left
(`run_countdown`). A relation between two machines that may refer to the
events so far is carried along the runs of both over the same events (`run_rel`).
-/

namespace Transition

variable {σ ε : Type*} (step : σ → ε → Option σ) (ok : σ → ε → Prop)

/-- The state after a list of events, if each could happen in its turn. -/
def run : σ → List ε → Option σ
  | s, [] => some s
  | s, e :: es => (step s e).bind fun s' => run s' es

/-- Each step of the run over a list of events meets the condition. -/
def AllOk : σ → List ε → Prop
  | _, [] => True
  | s, e :: es => ok s e ∧ ∀ s', step s e = some s' → AllOk s' es

@[simp] theorem run_nil (s : σ) : run step s [] = some s := rfl

@[simp] theorem run_cons (s : σ) (e : ε) (es : List ε) :
    run step s (e :: es) = (step s e).bind fun s' => run step s' es := rfl

/-- Whether a run meets a condition that can be decided can be decided along the run. -/
instance AllOk.decidable [∀ s e, Decidable (ok s e)] :
    ∀ (s : σ) (es : List ε), Decidable (AllOk step ok s es)
  | _, [] => isTrue trivial
  | s, e :: es =>
    match hs : step s e with
    | none => decidable_of_iff (ok s e) (by simp [AllOk, hs])
    | some s' =>
      have := AllOk.decidable s' es
      decidable_of_iff (ok s e ∧ AllOk step ok s' es) (by simp [AllOk, hs])

variable {step ok} {es : List ε} {s : σ} {I : σ → Prop}

/-- Events that meet the condition in every state meet it in every run. -/
theorem allOk_of_forall (h : ∀ e ∈ es, ∀ s, ok s e) :
    AllOk step ok s es := by
  induction es generalizing s with
  | nil => exact trivial
  | cons e es ih =>
    exact ⟨h e List.mem_cons_self s,
      fun _ _ => ih fun e' he' => h e' (List.mem_cons_of_mem e he')⟩

/-- An invariant of the steps that meet the condition is an invariant of the runs that do. -/
theorem run_invariant (hstep : ∀ s e s', I s → ok s e → step s e = some s' → I s') {s' : σ}
    (hi : I s) (hok : AllOk step ok s es) (hrun : run step s es = some s') : I s' := by
  induction es generalizing s with
  | nil => cases hrun; exact hi
  | cons e es ih =>
    obtain ⟨t, ht, hrun⟩ := Option.bind_eq_some_iff.1 hrun
    exact ih (hstep s e t hi hok.1 ht) (hok.2 t ht) hrun

/-- Conditions that are the same wherever an invariant of theirs holds are met by the same runs. -/
theorem allOk_congr {ok' : σ → ε → Prop} (hiff : ∀ s e, I s → (ok s e ↔ ok' s e))
    (hstep : ∀ s e s', I s → ok s e → step s e = some s' → I s') (hi : I s) :
    AllOk step ok s es ↔ AllOk step ok' s es := by
  induction es generalizing s with
  | nil => exact Iff.rfl
  | cons e es ih =>
    rw [AllOk, AllOk, hiff s e hi]
    refine and_congr_right fun hok => forall_congr' fun s' => forall_congr' fun hs' => ?_
    exact ih (hstep s e s' hi ((hiff s e hi).2 hok) hs')

/-- If every step that meets the condition can happen and takes an invariant to the next one of a
countdown, then every run that meets it and is as long as the countdown can happen. -/
theorem run_countdown {I : Nat → σ → Prop}
    (hstep : ∀ k s e, I (k + 1) s → ok s e → ∃ s', step s e = some s' ∧ I k s')
    (hi : I es.length s) (hok : AllOk step ok s es) :
    ∃ s', run step s es = some s' ∧ I 0 s' := by
  induction es generalizing s with
  | nil => exact ⟨s, rfl, hi⟩
  | cons e es ih =>
    obtain ⟨t, ht, hti⟩ := hstep es.length s e hi hok.1
    rw [run_cons, ht]
    exact ih hti (hok.2 t ht)

/-- If every step that meets the condition can happen and keeps an invariant, then every run that
meets it can happen. -/
theorem run_total (hstep : ∀ s e, I s → ok s e → ∃ s', step s e = some s' ∧ I s')
    (hi : I s) (hok : AllOk step ok s es) :
    ∃ s', run step s es = some s' ∧ I s' :=
  run_countdown (I := fun _ => I) (fun _ => hstep) hi hok

/-- Two machines that start related, and whose steps over the same event keep the relation or are
both stuck, end related or are both stuck. The relation may depend on the events so far. -/
theorem run_rel {τ : Type*} {step' : τ → ε → Option τ} {R : List ε → σ → τ → Prop}
    (hstep : ∀ past s t e, R past s t → ok s e →
      Option.Rel (R (past ++ [e])) (step s e) (step' t e)) {t : τ} (hR : R [] s t) (hok
    : AllOk step ok s es) :
    Option.Rel (R es) (run step s es) (run step' t es) := by
  suffices h : ∀ (es past : List ε) (s : σ) (t : τ), R past s t → AllOk step ok s es →
      Option.Rel (R (past ++ es)) (run step s es) (run step' t es) from h es [] s t hR hok
  intro es
  induction es with
  | nil =>
    intro past s t hR _
    rw [List.append_nil]
    exact .some hR
  | cons e es ih =>
    intro past s t hR hok
    rw [run_cons, run_cons, ← List.singleton_append, ← List.append_assoc]
    have hnext := hstep past s t e hR hok.1
    have hrest := hok.2
    generalize step s e = r at hnext hrest ⊢
    generalize step' t e = r' at hnext ⊢
    cases hnext with
    | none => exact .none
    | some hR' => exact ih _ _ _ hR' (hrest _ rfl)

end Transition
