import Mathlib.Data.List.Nodup

/-!
# Linked elements

`next a` is what an element of a linked structure says about the next one: nothing if the element is
not there, `some none` if it is the last one, and `some (some b)` if `b` follows. `Linked next l`
says that the elements of `l` follow each other to a last one. The elements from one on are
determined by it (`Linked.unique`), so lists of linked elements that share one end in the same
element (`Linked.getLast_eq`).
-/

variable {α : Type*} {next next' : α → Option (Option α)} {a b : α} {l l' : List α}

/-- The elements of a list follow each other to a last one. -/
inductive Linked (next : α → Option (Option α)) : List α → Prop
  | last {a : α} (h : next a = some none) : Linked next [a]
  | cons {a b : α} {l : List α} (h : next a = some (some b)) (hl : Linked next (b :: l)) :
    Linked next (a :: b :: l)

namespace Linked

open List

/-- Linked elements are there. -/
theorem ne_none (h : Linked next l) (ha : a ∈ l) : next a ≠ none := by
  induction h with
  | last hnext =>
    rw [mem_singleton.1 ha, hnext]
    exact Option.some_ne_none _
  | cons hnext _ ih =>
    rcases mem_cons.1 ha with rfl | ha
    · rw [hnext]
      exact Option.some_ne_none _
    · exact ih ha

/-- Nothing follows the last element. -/
theorem next_getLast (h : Linked next l) (ha : l.getLast? = some a) : next a = some none := by
  induction h with
  | last hnext =>
    cases ha
    exact hnext
  | cons _ _ ih => exact ih (getLast?_cons_cons.symm.trans ha)

/-- Elements that stay as they are stay linked. -/
theorem congr (h : Linked next l) (heq : ∀ a ∈ l, next' a = next a) : Linked next' l := by
  induction h with
  | last hnext => exact .last ((heq _ mem_cons_self).trans hnext)
  | cons hnext _ ih =>
    exact .cons ((heq _ mem_cons_self).trans hnext)
      (ih fun a ha => heq a (mem_cons_of_mem _ ha))

/-- What follows an element is determined by it. -/
theorem unique (h : Linked next (a :: l)) (h' : Linked next (a :: l')) : l = l' := by
  induction l generalizing a l' with
  | nil =>
    cases h with
    | last hnext =>
      cases h' with
      | last => rfl
      | cons hnext' => rw [hnext] at hnext'; cases hnext'
  | cons b l ih =>
    cases h with
    | cons hnext hl =>
      cases h' with
      | last hnext' => rw [hnext] at hnext'; cases hnext'
      | cons hnext' hl' =>
        rw [hnext] at hnext'
        cases hnext'
        rw [ih hl hl']

/-- From each of its elements on a list is linked, to the same last one. -/
theorem from_mem (h : Linked next l) (ha : a ∈ l) :
    ∃ rest, Linked next (a :: rest) ∧ (a :: rest).getLast? = l.getLast? ∧
      rest.length < l.length := by
  induction h with
  | last hnext =>
    cases mem_singleton.1 ha
    exact ⟨[], .last hnext, rfl, Nat.zero_lt_one⟩
  | @cons b c l hnext hl ih =>
    rcases mem_cons.1 ha with rfl | ha
    · exact ⟨_, .cons hnext hl, rfl, Nat.lt_succ_self _⟩
    · obtain ⟨rest, hrest, hlast, hlength⟩ := ih ha
      exact ⟨rest, hrest, hlast.trans getLast?_cons_cons.symm, Nat.lt_succ_of_lt hlength⟩

/-- No element follows itself. -/
theorem not_mem (h : Linked next (a :: l)) : a ∉ l := by
  intro ha
  cases h with
  | last => exact absurd ha not_mem_nil
  | cons hnext hl =>
    obtain ⟨rest, hrest, -, hlength⟩ := hl.from_mem ha
    rw [(Linked.cons hnext hl).unique hrest] at hlength
    exact Nat.lt_irrefl _ hlength

/-- Linked elements are different. -/
theorem nodup (h : Linked next l) : l.Nodup := by
  induction h with
  | last => exact nodup_singleton _
  | cons hnext hl ih => exact nodup_cons.2 ⟨(Linked.cons hnext hl).not_mem, ih⟩

/-- Lists that share an element end in the same one. -/
theorem getLast_eq (h : Linked next l) (h' : Linked next l') (ha : a ∈ l) (ha' : a ∈ l') :
    l.getLast? = l'.getLast? := by
  obtain ⟨rest, hrest, hlast, -⟩ := h.from_mem ha
  obtain ⟨rest', hrest', hlast', -⟩ := h'.from_mem ha'
  rw [← hlast, ← hlast', hrest.unique hrest']

end Linked
