import Mathlib.Data.List.Infix

/-!
# How far two lists agree

`commonLength as bs` is the length of the longest common initial part of two lists. It is at most
the length of either list, and equal to it exactly if that list is an initial part of the other
(`commonLength_eq_left_iff`, `commonLength_eq_right_iff`). `commonLength_take` and
`commonLength_concat` say how it changes when one list is cut or extended at its end.
-/

namespace CommonPrefix

open List

variable {α : Type*} [DecidableEq α]

/-- The length of the longest common initial part of two lists. -/
def commonLength : List α → List α → Nat
  | a :: as, b :: bs => if a = b then commonLength as bs + 1 else 0
  | _, _ => 0

/-- An empty list agrees in no element. -/
@[simp] theorem commonLength_nil_left (bs : List α) : commonLength [] bs = 0 := by
  cases bs <;> rfl

/-- No list agrees with an empty one in an element. -/
@[simp] theorem commonLength_nil_right (as : List α) : commonLength as [] = 0 := by
  cases as <;> rfl

/-- The order of the lists does not matter. -/
theorem commonLength_comm (as bs : List α) : commonLength as bs = commonLength bs as := by
  induction as generalizing bs with
  | nil => rw [commonLength_nil_left, commonLength_nil_right]
  | cons a as ih =>
    cases bs with
    | nil => rfl
    | cons b bs =>
      rw [commonLength, commonLength, ih]
      by_cases h : a = b
      · rw [if_pos h, if_pos h.symm]
      · rw [if_neg h, if_neg (Ne.symm h)]

/-- No more elements agree than the first list has. -/
theorem commonLength_le_left (as bs : List α) : commonLength as bs ≤ as.length := by
  induction as generalizing bs with
  | nil => rw [commonLength_nil_left]; exact Nat.le_refl 0
  | cons a as ih =>
    cases bs with
    | nil => exact Nat.zero_le _
    | cons b bs =>
      rw [commonLength]
      split
      · exact Nat.succ_le_succ (ih bs)
      · exact Nat.zero_le _

/-- Nor do more than the second one has. -/
theorem commonLength_le_right (as bs : List α) : commonLength as bs ≤ bs.length := by
  rw [commonLength_comm]
  exact commonLength_le_left bs as

/-- All of the first list agrees if it starts the second one. -/
theorem commonLength_eq_left_iff {as bs : List α} :
    commonLength as bs = as.length ↔ as <+: bs := by
  induction as generalizing bs with
  | nil =>
    rw [commonLength_nil_left]
    exact iff_of_true rfl List.nil_prefix
  | cons a as ih =>
    cases bs with
    | nil =>
      rw [commonLength_nil_right, length_cons, prefix_nil]
      exact iff_of_false (Nat.succ_ne_zero _).symm (cons_ne_nil a as)
    | cons b bs =>
      rw [commonLength, cons_prefix_cons, length_cons]
      by_cases h : a = b
      · rw [if_pos h, Nat.succ_inj, ih]
        exact (and_iff_right h).symm
      · rw [if_neg h]
        exact iff_of_false (Nat.succ_ne_zero _).symm fun hand => h hand.1

/-- All of the second list agrees if it starts the first one. -/
theorem commonLength_eq_right_iff {as bs : List α} :
    commonLength as bs = bs.length ↔ bs <+: as := by
  rw [commonLength_comm]
  exact commonLength_eq_left_iff

/-- A list of which the other is no initial part agrees with it up to before its end. -/
theorem commonLength_lt_right {as bs : List α} (h : ¬ bs <+: as) :
    commonLength as bs < bs.length :=
  Nat.lt_of_le_of_ne (commonLength_le_right as bs) fun heq => h (commonLength_eq_right_iff.1 heq)

/-- Cutting a list. -/
theorem commonLength_take (as bs : List α) (k : Nat) :
    commonLength (as.take k) bs = min k (commonLength as bs) := by
  induction as generalizing bs k with
  | nil => rw [take_nil, commonLength_nil_left, Nat.min_zero]
  | cons a as ih =>
    cases k with
    | zero => rw [take_zero, commonLength_nil_left, Nat.zero_min]
    | succ k =>
      cases bs with
      | nil => rw [commonLength_nil_right, commonLength_nil_right, Nat.min_zero]
      | cons b bs =>
        rw [take_succ_cons, commonLength, commonLength, ih]
        split
        · rw [Nat.succ_min_succ]
        · rw [Nat.min_zero]

/-- Extending a list: it agrees further if it agreed to its end and the other list goes on the
same. -/
theorem commonLength_concat (as bs : List α) (a : α) :
    commonLength (as ++ [a]) bs =
      if commonLength as bs = as.length ∧ bs[as.length]? = some a then as.length + 1
      else commonLength as bs := by
  induction as generalizing bs with
  | nil =>
    cases bs with
    | nil => rfl
    | cons b bs => simp [commonLength, eq_comm]
  | cons c as ih =>
    cases bs with
    | nil => simp
    | cons b bs =>
      rw [cons_append, commonLength, commonLength, ih]
      by_cases h : c = b
      · simp only [if_pos h, length_cons, Nat.succ_inj, getElem?_cons_succ]
        split <;> rfl
      · simp [h]

end CommonPrefix
