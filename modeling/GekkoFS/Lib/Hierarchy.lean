import Mathlib.Logic.Function.Basic

/-!
# Entries below a root

Places have a parent, and some of them hold an entry. The entries are closed if the root holds a
container and every other entry is in a container. A new entry in a container keeps them closed
(`Closed.insert`), and so does the removal of an entry that nothing is in (`Closed.erase`).
-/

namespace Hierarchy

variable {π α : Type*}

/-- The root is a container, and the parent of every other entry is one. -/
structure Closed (parent : π → π) (root : π) (container : α → Prop) (entries : π → Option α) :
    Prop where
  atRoot : ∃ a, entries root = some a ∧ container a
  above : ∀ p a, p ≠ root → entries p = some a →
    ∃ b, entries (parent p) = some b ∧ container b

variable {parent : π → π} {root : π} {container : α → Prop} {entries : π → Option α} {p : π}

/-- Nothing is in an entry that is not a container. -/
theorem Closed.childless (h : Closed parent root container entries) {a : α}
    (hp : entries p = some a) (ha : ¬ container a) {q : π} (hq : q ≠ root) (hqp : parent q = p) :
    entries q = none := by
  cases hentry : entries q with
  | none => rfl
  | some b =>
    obtain ⟨c, hc, hcontainer⟩ := h.above q b hq hentry
    rw [hqp, hp] at hc
    cases hc
    exact absurd hcontainer ha

variable [DecidableEq π]

/-- An entry is added below a container. -/
theorem Closed.insert (h : Closed parent root container entries) (hp : entries p = none) {b : α}
    (hparent : entries (parent p) = some b) (hb : container b) (a : α) :
    Closed parent root container (Function.update entries p (some a)) := by
  -- an entry that is there stays as it is
  have hold : ∀ {q c}, entries q = some c → Function.update entries p (some a) q = some c := by
    intro q c hq
    rw [Function.update_of_ne, hq]
    rintro rfl
    rw [hp] at hq
    cases hq
  constructor
  · obtain ⟨c, hc, hcontainer⟩ := h.atRoot
    exact ⟨c, hold hc, hcontainer⟩
  · intro q c hq hentry
    by_cases hqp : q = p
    · rw [hqp]
      exact ⟨b, hold hparent, hb⟩
    · rw [Function.update_of_ne hqp] at hentry
      obtain ⟨e, he, hcontainer⟩ := h.above q c hq hentry
      exact ⟨e, hold he, hcontainer⟩

/-- An entry without children is removed. -/
theorem Closed.erase (h : Closed parent root container entries) (hroot : p ≠ root)
    (hchild : ∀ q, q ≠ root → parent q = p → entries q = none) :
    Closed parent root container (Function.update entries p none) := by
  constructor
  · rw [Function.update_of_ne hroot.symm]
    exact h.atRoot
  · intro q a hq hentry
    by_cases hqp : q = p
    · rw [hqp, Function.update_self] at hentry
      cases hentry
    · rw [Function.update_of_ne hqp] at hentry
      rw [Function.update_of_ne]
      · exact h.above q a hq hentry
      · intro hparent
        rw [hchild q hq hparent] at hentry
        cases hentry

end Hierarchy
