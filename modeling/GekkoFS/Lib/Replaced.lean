import Mathlib.Data.List.Basic

/-!
# Two lists that differ in one element

A machine whose state is a list of parts takes a step by replacing one part. `Replaced a b l l'`
says that `l'` is `l` with an element `a` replaced by `b`. It is what `List.set` does
(`Replaced.set`), and it passes through `map` and `flatMap` (`Replaced.map`, `Replaced.flatMap`), so
a part may itself be a list of parts. What holds of all elements, or of all pairs of them, is
carried over (`Replaced.forall_mem`, `Replaced.pairwise`).
-/

variable {α β : Type*}

/-- `l'` is `l` with one element `a` replaced by `b`. -/
def Replaced (a b : α) (l l' : List α) : Prop := ∃ p q, l = p ++ a :: q ∧ l' = p ++ b :: q

namespace Replaced

open List

variable {a b : α} {l l' : List α}

/-- Setting an element replaces it. -/
theorem set {i : Nat} (h : l[i]? = some a) (b : α) : Replaced a b l (l.set i b) := by
  obtain ⟨hi, rfl⟩ := List.getElem?_eq_some_iff.1 h
  refine ⟨l.take i, l.drop (i + 1), ?_, set_eq_take_append_cons_drop.trans (if_pos hi)⟩
  rw [← drop_eq_getElem_cons hi, take_append_drop]

/-- A map replaces the image of the element. -/
theorem map (h : Replaced a b l l') (f : α → β) : Replaced (f a) (f b) (l.map f) (l'.map f) := by
  obtain ⟨p, q, rfl, rfl⟩ := h
  exact ⟨p.map f, q.map f, by rw [map_append, map_cons],
    by rw [map_append, map_cons]⟩

/-- A part that is a list has one element replaced. -/
theorem flatMap {x y : β} {f : α → List β} (h : Replaced a b l l')
    (hf : Replaced x y (f a) (f b)) : Replaced x y (l.flatMap f) (l'.flatMap f) := by
  obtain ⟨p, q, rfl, rfl⟩ := h
  obtain ⟨u, v, hu, hv⟩ := hf
  refine ⟨p.flatMap f ++ u, v ++ q.flatMap f, ?_, ?_⟩
  · rw [flatMap_append, flatMap_cons, hu]
    simp only [append_assoc, cons_append]
  · rw [flatMap_append, flatMap_cons, hv]
    simp only [append_assoc, cons_append]

/-- A map that gives both elements one image is not changed. -/
theorem map_eq (h : Replaced a b l l') {f : α → β} (hf : f b = f a) : l'.map f = l.map f := by
  obtain ⟨p, q, rfl, rfl⟩ := h
  rw [map_append, map_cons, map_append, map_cons, hf]

/-- Nor is a map to lists. -/
theorem flatMap_eq (h : Replaced a b l l') {f : α → List β} (hf : f b = f a) :
    l'.flatMap f = l.flatMap f := by
  obtain ⟨p, q, rfl, rfl⟩ := h
  rw [flatMap_append, flatMap_cons, flatMap_append, flatMap_cons, hf]

/-- The old element was there. -/
theorem mem_left (h : Replaced a b l l') : a ∈ l := by
  obtain ⟨p, q, rfl, -⟩ := h
  exact mem_append_right p mem_cons_self

/-- The new element is there. -/
theorem mem_right (h : Replaced a b l l') : b ∈ l' := by
  obtain ⟨p, q, -, rfl⟩ := h
  exact mem_append_right p mem_cons_self

/-- The new element meets the new condition, and the others keep theirs. -/
theorem forall_mem {P P' : α → Prop} (h : Replaced a b l l') (hP : ∀ x ∈ l, P x) (hb : P' b)
    (hkeep : ∀ x ∈ l, P x → P' x) : ∀ x ∈ l', P' x := by
  obtain ⟨p, q, rfl, rfl⟩ := h
  intro x hx
  rcases mem_append.1 hx with hx | hx
  · have hmem := mem_append_left (a :: q) hx
    exact hkeep x hmem (hP x hmem)
  rcases mem_cons.1 hx with rfl | hx
  · exact hb
  · have hmem := mem_append_right p (mem_cons_of_mem a hx)
    exact hkeep x hmem (hP x hmem)

/-- The replaced element was apart from all others, and what it is replaced by has to be so too for
the others to keep their condition. -/
theorem forall_mem_of_pairwise {R : α → α → Prop} {P P' : α → Prop} (h : Replaced a b l l')
    (hR : l.Pairwise R) (hsymm : ∀ x y, R x y → R y x) (hP : ∀ x ∈ l, P x) (hb : P' b)
    (hkeep : ∀ x, R a x → P x → P' x) : ∀ x ∈ l', P' x := by
  obtain ⟨p, q, rfl, rfl⟩ := h
  rw [pairwise_append, pairwise_cons] at hR
  obtain ⟨-, ⟨hright, -⟩, hleft⟩ := hR
  intro x hx
  rcases mem_append.1 hx with hx | hx
  · exact hkeep x (hsymm x a (hleft x hx a mem_cons_self)) (hP x (mem_append_left _ hx))
  rcases mem_cons.1 hx with rfl | hx
  · exact hb
  · exact hkeep x (hright x hx) (hP x (mem_append_right p (mem_cons_of_mem a hx)))

end Replaced
