import Mathlib.Data.List.TakeWhile
import Mathlib.Order.Lattice

/-!
# Ordered maps

A map that keeps its entries in the order of their keys, as a list of pairs with increasing keys.
`assign` sets the value of a key, and `upTo k` and `above k` are the entries on both sides of the
upper bound of `k`: those whose key is at most `k`, and the others. The first part of a list that is
cut at a key is known (`upTo_append`), and an assignment between two parts leaves both alone
(`assign_between`, `assign_last`).
-/

namespace SortedMap

open List

variable {κ ν : Type*} [LinearOrder κ]

/-- The keys increase. -/
def Sorted (m : List (κ × ν)) : Prop := m.Pairwise fun e f => e.1 < f.1

/-- Set the value of a key. -/
def assign : List (κ × ν) → κ → ν → List (κ × ν)
  | [], k, v => [(k, v)]
  | e :: m, k, v =>
    if e.1 < k then e :: assign m k v else if e.1 = k then (k, v) :: m else (k, v) :: e :: m

/-- The entries before the upper bound of a key. -/
def upTo (k : κ) (m : List (κ × ν)) : List (κ × ν) := m.takeWhile fun e => e.1 ≤ k

/-- The entries from the upper bound of a key on. -/
def above (k : κ) (m : List (κ × ν)) : List (κ × ν) := m.dropWhile fun e => e.1 ≤ k

variable {m l r : List (κ × ν)} {k : κ} {v w : ν}

/-- A map is what is up to a key and what is above it. -/
theorem upTo_append_above (k : κ) (m : List (κ × ν)) : upTo k m ++ above k m = m :=
  takeWhile_append_dropWhile

/-- The keys up to a key. -/
theorem le_of_mem_upTo {e : κ × ν} (h : e ∈ upTo k m) : e.1 ≤ k := by
  rw [upTo] at h
  have hle := mem_takeWhile_imp h
  exact of_decide_eq_true hle

/-- The entries from the upper bound on have greater keys. -/
theorem Sorted.lt_of_mem_above (h : Sorted m) {e : κ × ν} (he : e ∈ above k m) : k < e.1 := by
  induction m with
  | nil => exact absurd he not_mem_nil
  | cons d m ih =>
    obtain ⟨hd, hm⟩ := pairwise_cons.1 h
    rw [above, dropWhile_cons] at he
    split at he
    · exact ih hm he
    · next hle =>
      have hlt : k < d.1 := not_le.1 fun hdk => hle (decide_eq_true hdk)
      rcases mem_cons.1 he with rfl | he
      · exact hlt
      · exact hlt.trans (hd e he)

/-- The entries before the upper bound of a key at which a list is cut. -/
theorem upTo_append (hl : ∀ e ∈ l, e.1 ≤ k) (hr : ∀ e ∈ r, k < e.1) : upTo k (l ++ r) = l := by
  rw [upTo, takeWhile_append_of_pos fun e he => decide_eq_true (hl e he)]
  cases r with
  | nil => rw [takeWhile_nil, append_nil]
  | cons e r =>
    rw [takeWhile_cons_of_neg, append_nil]
    exact fun h => absurd (of_decide_eq_true h) (not_le.2 (hr e mem_cons_self))

/-- A key without entries of smaller or the same key. -/
theorem upTo_eq_nil (h : ∀ e ∈ m, k < e.1) : upTo k m = [] :=
  upTo_append (l := []) (fun _ he => absurd he not_mem_nil) h

/-! ## Assignments -/

/-- What is in a map after an assignment. -/
theorem mem_assign {e : κ × ν} (h : e ∈ assign m k v) : e = (k, v) ∨ e ∈ m := by
  induction m with
  | nil => exact .inl (mem_singleton.1 h)
  | cons d m ih =>
    rw [assign] at h
    split at h
    · rcases mem_cons.1 h with rfl | h
      · exact .inr mem_cons_self
      · exact (ih h).imp_right (mem_cons_of_mem d)
    · split at h
      · exact (mem_cons.1 h).imp_right (mem_cons_of_mem d)
      · exact mem_cons.1 h

/-- An assignment keeps the order. -/
theorem Sorted.assign (h : Sorted m) (k : κ) (v : ν) : Sorted (assign m k v) := by
  induction m with
  | nil => exact pairwise_singleton _ _
  | cons d m ih =>
    obtain ⟨hd, hm⟩ := pairwise_cons.1 h
    rw [SortedMap.assign]
    split
    · next hlt =>
      refine pairwise_cons.2 ⟨fun e he => ?_, ih hm⟩
      rcases mem_assign he with rfl | he
      · exact hlt
      · exact hd e he
    · next hlt =>
      split
      · next heq => exact pairwise_cons.2 ⟨heq ▸ hd, hm⟩
      · next hne =>
        have hk : k < d.1 := lt_of_le_of_ne (not_lt.1 hlt) (Ne.symm hne)
        refine pairwise_cons.2 ⟨fun e he => ?_, h⟩
        rcases mem_cons.1 he with rfl | he
        · exact hk
        · exact hk.trans (hd e he)

/-- Taking entries out keeps the order. -/
theorem Sorted.sublist (h : Sorted m) {m' : List (κ × ν)} (hsub : m'.Sublist m) : Sorted m' :=
  List.Pairwise.sublist hsub h

/-- A new key goes between the smaller and the greater ones. -/
theorem assign_between (hl : ∀ e ∈ l, e.1 < k) (hr : ∀ e ∈ r, k < e.1) :
    assign (l ++ r) k v = l ++ (k, v) :: r := by
  induction l with
  | nil =>
    cases r with
    | nil => rfl
    | cons e r =>
      have he : k < e.1 := hr e mem_cons_self
      rw [nil_append, assign, if_neg he.asymm, if_neg he.ne', nil_append]
  | cons e l ih =>
    rw [cons_append, assign, if_pos (hl e mem_cons_self),
      ih fun e' he' => hl e' (mem_cons_of_mem e he'), cons_append]

/-- A key that has a value gets the new one. -/
theorem assign_last (hl : ∀ e ∈ l, e.1 < k) :
    assign (l ++ (k, w) :: r) k v = l ++ (k, v) :: r := by
  induction l with
  | nil => rw [nil_append, assign, if_neg (lt_irrefl k), if_pos rfl, nil_append]
  | cons e l ih =>
    rw [cons_append, assign, if_pos (hl e mem_cons_self),
      ih fun e' he' => hl e' (mem_cons_of_mem e he'), cons_append]

end SortedMap
