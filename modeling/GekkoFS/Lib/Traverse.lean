import Mathlib.Data.List.Forall2

/-!
# Functions that may fail, over a list

`List.mapM` in `Option` applies a function to each element of a list and fails if it fails once. Its
results are those of the elements in their order (`mapM_eq_some_iff`).
-/

namespace Traverse

open List

variable {α β : Type*} {f : α → Option β} {l : List α} {l' : List β}

/-- A traversal returns the results of the elements. -/
theorem mapM_eq_some_iff :
    l.mapM f = some l' ↔ List.Forall₂ (fun a b => f a = some b) l l' := by
  induction l generalizing l' with
  | nil =>
    rw [mapM_nil, forall₂_nil_left_iff]
    exact ⟨fun h => (Option.some.inj h).symm, fun h => congrArg some h.symm⟩
  | cons a l ih =>
    rw [mapM_cons, forall₂_cons_left_iff]
    simp only [Option.bind_eq_bind, Option.bind_eq_some_iff]
    constructor
    · rintro ⟨b, hb, bs, hbs, heq⟩
      exact ⟨b, bs, hb, ih.1 hbs, (Option.some.inj heq).symm⟩
    · rintro ⟨b, bs, hb, hbs, rfl⟩
      exact ⟨b, hb, bs, ih.2 hbs, rfl⟩

/-- The function returns on every element of a traversal. -/
theorem map_eq_of_mapM (h : l.mapM f = some l') : l.map f = l'.map some := by
  rw [← forall₂_eq_eq_eq, forall₂_map_left_iff, forall₂_map_right_iff]
  exact mapM_eq_some_iff.1 h

/-- Functions that agree on a list traverse it alike. -/
theorem mapM_congr {g : α → Option β} (h : ∀ a ∈ l, f a = g a) : l.mapM f = l.mapM g := by
  induction l with
  | nil => rfl
  | cons a l ih =>
    rw [mapM_cons, mapM_cons, h a mem_cons_self,
      ih fun b hb => h b (mem_cons_of_mem a hb)]

/-- Every result is that of an element. -/
theorem exists_of_mapM {b : β} (h : l.mapM f = some l') (hb : b ∈ l') : ∃ a ∈ l, f a = some b := by
  rw [mapM_eq_some_iff] at h
  induction h with
  | nil => exact absurd hb not_mem_nil
  | cons hab _ ih =>
    rcases mem_cons.1 hb with rfl | hb
    · exact ⟨_, mem_cons_self, hab⟩
    · obtain ⟨a, ha, hfa⟩ := ih hb
      exact ⟨a, mem_cons_of_mem _ ha, hfa⟩

/-- Results that are kept with their elements. -/
theorem map_fst_of_mapM {pairs : List (α × β)}
    (h : (l.mapM fun a => (f a).map fun b => (a, b)) = some pairs) : pairs.map Prod.fst = l := by
  rw [mapM_eq_some_iff] at h
  induction h with
  | nil => rfl
  | cons hab _ ih =>
    obtain ⟨b, -, rfl⟩ := Option.map_eq_some_iff.1 hab
    rw [map_cons, ih]

end Traverse
