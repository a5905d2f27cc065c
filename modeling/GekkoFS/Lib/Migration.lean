import Mathlib.Data.Set.Insert
import Mathlib.Logic.Function.Basic

/-!
# Moving items between nodes

Nodes hold items with their contents, and every item is to be moved to its destination. An item is
moved by copying it to the destination and dropping it elsewhere. `Step` is what a node may do at
any time: copy the original content of an item to its destination, or drop an item that has arrived
from a node that is not its destination. Nodes may do so in any order.

No step loses an item or its content (`Conserved.step`). `Ahead` says which items a node still has
to move; a step of another node never adds to them (`Ahead.step`), and an item that has arrived
stays (`Arrived.step`), so when no node has anything ahead every item is at its destination
(`Conserved.atDest`).
-/

namespace Migration

open Function

variable {ν ι α : Type*}

/-- What each node holds. -/
abbrev Holding (ν ι α : Type*) := ν → ι → Option α

section
variable [DecidableEq ν] [DecidableEq ι]

/-- A node gets an item, in place of what it had for it. -/
def put (held : Holding ν ι α) (node : ν) (i : ι) (v : α) : Holding ν ι α :=
  update held node (update (held node) i (some v))

/-- A node loses an item. -/
def drop (held : Holding ν ι α) (node : ν) (i : ι) : Holding ν ι α :=
  update held node (update (held node) i none)

variable (held : Holding ν ι α) {node node' : ν} {i i' : ι}

@[simp] theorem put_self (node : ν) (i : ι) (v : α) : put held node i v node i = some v := by
  rw [put, update_self, update_self]

@[simp] theorem drop_self (node : ν) (i : ι) : drop held node i node i = none := by
  rw [drop, update_self, update_self]

/-- A copy changes no other place. -/
theorem put_of_ne (h : ¬ (node' = node ∧ i' = i)) (v : α) :
    put held node i v node' i' = held node' i' := by
  rw [put]
  by_cases hnode : node' = node
  · subst hnode
    rw [update_self, update_of_ne fun hi => h ⟨rfl, hi⟩]
  · rw [update_of_ne hnode]

/-- A removal changes no other place. -/
theorem drop_of_ne (h : ¬ (node' = node ∧ i' = i)) :
    drop held node i node' i' = held node' i' := by
  rw [drop]
  by_cases hnode : node' = node
  · subst hnode
    rw [update_self, update_of_ne fun hi => h ⟨rfl, hi⟩]
  · rw [update_of_ne hnode]

/-- A holding that differs from another in one item that a node got. -/
theorem eq_put {held held' : Holding ν ι α} {v : α} (hself : held' node i = some v)
    (hother : ∀ node' i', ¬ (node' = node ∧ i' = i) → held' node' i' = held node' i') :
    held' = put held node i v := by
  funext node' i'
  by_cases h : node' = node ∧ i' = i
  · obtain ⟨rfl, rfl⟩ := h
    rw [hself, put_self]
  · rw [hother node' i' h, put_of_ne held h]

/-- A holding that differs from another in one item that a node lost. -/
theorem eq_drop {held held' : Holding ν ι α} (hself : held' node i = none)
    (hother : ∀ node' i', ¬ (node' = node ∧ i' = i) → held' node' i' = held node' i') :
    held' = drop held node i := by
  funext node' i'
  by_cases h : node' = node ∧ i' = i
  · obtain ⟨rfl, rfl⟩ := h
    rw [hself, drop_self]
  · rw [hother node' i' h, drop_of_ne held h]

end

/-! ## Steps -/

/-- An item is at its destination. -/
def Arrived (dest : ι → ν) (held : Holding ν ι α) (i : ι) : Prop := held (dest i) i ≠ none

/-- What a node may do at any time. -/
inductive Step [DecidableEq ν] [DecidableEq ι] (dest : ι → ν) (init : ι → Option α) :
    Holding ν ι α → Holding ν ι α → Prop
  | stay (held : Holding ν ι α) : Step dest init held held
  | copy (held : Holding ν ι α) {i : ι} {v : α} (h : init i = some v) :
      Step dest init held (put held (dest i) i v)
  | drop (held : Holding ν ι α) {i : ι} {node : ν} (hne : dest i ≠ node)
      (harrived : Arrived dest held i) : Step dest init held (drop held node i)

/-- The nodes hold the original contents only, and each of them somewhere. -/
structure Conserved (init : ι → Option α) (held : Holding ν ι α) : Prop where
  original : ∀ node i v, held node i = some v → init i = some v
  somewhere : ∀ i v, init i = some v → ∃ node, held node i = some v

/-- Every item that a node holds and is not the destination of is in `todo`. -/
def Ahead (dest : ι → ν) (held : Holding ν ι α) (node : ν) (todo : Set ι) : Prop :=
  ∀ i, held node i ≠ none → dest i ≠ node → i ∈ todo

section
variable {dest : ι → ν} {init : ι → Option α} {held held' : Holding ν ι α} {node : ν} {todo : Set ι}
  {i : ι}

/-- More may be left to do. -/
theorem Ahead.mono {todo' : Set ι} (h : Ahead dest held node todo)
    (hsub : todo ⊆ todo') : Ahead dest held node todo' := fun i hi hne => hsub (h i hi hne)

/-- An item whose destination is the node itself need not be moved. -/
theorem Ahead.skip (h : Ahead dest held node (insert i todo))
    (hi : dest i = node) : Ahead dest held node todo := fun j hj hne =>
  (h j hj hne).resolve_left fun heq => hne (by rw [heq]; exact hi)

/-- An item that has arrived has its original content. -/
theorem Conserved.of_arrived (h : Conserved init held) (harrived : Arrived dest held i) :
    ∃ v, init i = some v ∧ held (dest i) i = some v := by
  obtain ⟨v, hv⟩ := Option.ne_none_iff_exists'.1 harrived
  exact ⟨v, h.original _ _ _ hv, hv⟩

/-- When no node has anything ahead, every item is at its destination. -/
theorem Conserved.atDest (h : Conserved init held) (hdone : ∀ node, Ahead dest held node ∅)
    {v : α} (hi : init i = some v) : held (dest i) i = some v := by
  obtain ⟨node, hnode⟩ := h.somewhere i v hi
  by_cases hne : dest i = node
  · rw [hne, hnode]
  · exact (hdone node i (by rw [hnode]; exact Option.some_ne_none v) hne).elim

variable [DecidableEq ν] [DecidableEq ι]

/-- No step loses an item. -/
theorem Conserved.step (h : Conserved init held) (hstep : Step dest init held held') :
    Conserved init held' := by
  cases hstep with
  | stay => exact h
  | @copy i v hv =>
    constructor
    · intro node' i' w hw
      by_cases heq : node' = dest i ∧ i' = i
      · obtain ⟨rfl, rfl⟩ := heq
        rw [put_self] at hw
        rw [hv, hw]
      · rw [put_of_ne held heq] at hw
        exact h.original _ _ _ hw
    · intro i' w hw
      by_cases hi : i' = i
      · subst hi
        exact ⟨dest i', by rw [put_self, ← hw, hv]⟩
      · obtain ⟨node, hnode⟩ := h.somewhere i' w hw
        exact ⟨node, by rw [put_of_ne held fun heq => hi heq.2]; exact hnode⟩
  | @drop i node hne harrived =>
    constructor
    · intro node' i' w hw
      by_cases heq : node' = node ∧ i' = i
      · obtain ⟨rfl, rfl⟩ := heq
        rw [drop_self] at hw
        cases hw
      · rw [drop_of_ne held heq] at hw
        exact h.original _ _ _ hw
    · intro i' w hw
      by_cases hi : i' = i
      · -- the copy at the destination is the one that stays
        subst hi
        obtain ⟨v, hv, hheld⟩ := h.of_arrived harrived
        refine ⟨dest i', ?_⟩
        rw [drop_of_ne held fun heq => hne heq.1, hheld, ← hw, hv]
      · obtain ⟨node', hnode⟩ := h.somewhere i' w hw
        exact ⟨node', by rw [drop_of_ne held fun heq => hi heq.2]; exact hnode⟩

/-- An item that has arrived stays. -/
theorem Arrived.step (h : Arrived dest held i) (hstep : Step dest init held held') :
    Arrived dest held' i := by
  rw [Arrived] at h ⊢
  cases hstep with
  | stay => exact h
  | @copy j v hv =>
    by_cases heq : dest i = dest j ∧ i = j
    · obtain ⟨-, rfl⟩ := heq
      rw [put_self]
      exact Option.some_ne_none v
    · rw [put_of_ne held heq]
      exact h
  | @drop j node hne harrived =>
    rw [drop_of_ne held fun heq => hne (by rw [← heq.2]; exact heq.1)]
    exact h

/-- No step adds to what a node has to move. -/
theorem Ahead.step (h : Ahead dest held node todo)
    (hstep : Step dest init held held') : Ahead dest held' node todo := by
  intro i hi hne
  cases hstep with
  | stay => exact h i hi hne
  | @copy j v hv =>
    refine h i ?_ hne
    rwa [put_of_ne held fun heq => hne (by rw [heq.2]; exact heq.1.symm)] at hi
  | @drop j node' hne' harrived =>
    by_cases heq : node = node' ∧ i = j
    · obtain ⟨rfl, rfl⟩ := heq
      exact absurd (drop_self held node i) hi
    · rw [drop_of_ne held heq] at hi
      exact h i hi hne

/-- What a node drops it no longer has to move. -/
theorem Ahead.drop {node : ν} {todo : Set ι} {i : ι} (h : Ahead dest held node (insert i todo)) :
    Ahead dest (drop held node i) node todo := by
  intro j hj hne
  by_cases heq : j = i
  · subst heq
    exact absurd (drop_self held node j) hj
  · rw [drop_of_ne held fun hc => heq hc.2] at hj
    exact (h j hj hne).resolve_left heq

end

end Migration
