import Mathlib.Data.List.Basic

/-!
# Buffers and byte files

A buffer and a byte file are lists. `slice` reads a range of one, `splice` overwrites a range that
starts inside it, and `extend` pads it with a filler up to an offset, so `overwrite` is the write
at an offset that a byte file supports: what lies past the old end up to the offset is filled.
Each operation is described by what it leaves at every index (`slice_getElem?`,
`splice_getElem?`, `overwrite_getElem?`), which is all that later proofs use.
-/

namespace Bytes

open List

variable {α : Type*} {l xs : List α} {off i : Nat} {ps : List (Nat × List α)}

/-- The `n` elements from index `off` on, or as many as there are. -/
def slice (l : List α) (off n : Nat) : List α :=
  (l.drop off).take n

/-- Overwrite `l` from index `off` on with `xs`. -/
def splice (l : List α) (off : Nat) (xs : List α) : List α :=
  l.take off ++ xs ++ l.drop (off + xs.length)

/-- Pad `l` with `d` until it has length at least `n`. -/
def extend (d : α) (l : List α) (n : Nat) : List α :=
  l ++ List.replicate (n - l.length) d

/-- The write of `xs` at `off` into a file that is filled with `d` up to `off` first. A write of
nothing leaves the file as it is. -/
def overwrite (d : α) (l : List α) (off : Nat) : List α → List α
  | [] => l
  | x :: xs => splice (extend d l off) off (x :: xs)

/-! ## Lengths -/

@[simp] theorem slice_length (l : List α) (off n : Nat) :
    (slice l off n).length = min n (l.length - off) := by
  simp [slice]

/-- A slice that lies inside the list has the length asked for. -/
theorem slice_length_of_le {n : Nat} (h : off + n ≤ l.length) :
    (slice l off n).length = n := by
  rw [slice_length]; omega

/-- Overwriting inside a list keeps its length. -/
theorem splice_length (h : off + xs.length ≤ l.length) :
    (splice l off xs).length = l.length := by
  simp only [splice, length_append, length_take, length_drop]; omega

@[simp] theorem extend_length (d : α) (l : List α) (n : Nat) :
    (extend d l n).length = max l.length n := by
  simp only [extend, length_append, length_replicate]; omega

/-- Two slices, one behind the other, are one. -/
theorem slice_append (l : List α) (off n m : Nat) :
    slice l off n ++ slice l (off + n) m = slice l off (n + m) := by
  rw [slice, slice, slice, take_add, drop_drop]

/-- A slice is as well the slice of its own length. -/
theorem slice_length_self (l : List α) (off n : Nat) :
    slice l off (slice l off n).length = slice l off n := by
  rw [slice, slice, length_take, take_eq_take_min, Nat.min_assoc, Nat.min_self,
    ← take_eq_take_min]

/-! ## What stands at an index -/

/-- The elements of a slice are those of the list, shifted. -/
theorem slice_getElem? (l : List α) (off n i : Nat) :
    (slice l off n)[i]? = if i < n then l[off + i]? else none := by
  simp only [slice, getElem?_take, getElem?_drop]

/-- Overwriting at an offset inside the list changes the overwritten range and nothing else. -/
theorem splice_getElem? (h : off ≤ l.length) (xs : List α) (i : Nat) :
    (splice l off xs)[i]? =
      if i < off then l[i]? else if i < off + xs.length then xs[i - off]? else l[i]? := by
  have hl : (l.take off).length = off := by simp; omega
  rw [splice, append_assoc]
  split
  · next hi =>
    rw [getElem?_append_left (by omega), getElem?_take, if_pos hi]
  · next hi =>
    rw [getElem?_append_right (by omega), hl]
    split
    · next hx => rw [getElem?_append_left (by omega)]
    · next hx =>
      rw [getElem?_append_right (by omega), getElem?_drop]
      congr 1; omega

/-- A padded list keeps its elements, and holds the filler up to the length asked for. -/
theorem extend_getElem? (d : α) (l : List α) (n i : Nat) :
    (extend d l n)[i]? = if i < l.length then l[i]? else if i < n then some d else none := by
  rw [extend]
  split
  · next hi => rw [getElem?_append_left hi]
  · next hi =>
    rw [getElem?_append_right (by omega), getElem?_replicate]
    split <;> split <;> first | rfl | omega

@[simp] theorem overwrite_nil (d : α) (l : List α) (off : Nat) : overwrite d l off [] = l := rfl

/-- A write behind the end extends first. -/
theorem overwrite_of_ne_nil (d : α) (l : List α) (off : Nat) (h : xs ≠ []) :
    overwrite d l off xs = splice (extend d l off) off xs := by
  cases xs with
  | nil => exact absurd rfl h
  | cons x xs => rfl

/-- A write leaves the written bytes in its range, and fills what is missing before it. -/
theorem overwrite_getElem? (d : α) (l : List α) (off i : Nat) (hxs : xs ≠ []) :
    (overwrite d l off xs)[i]? =
      if i < off then some (l[i]?.getD d) else if i < off + xs.length then xs[i - off]?
      else l[i]? := by
  rw [overwrite_of_ne_nil d l off hxs, splice_getElem? (by rw [extend_length]; omega),
    extend_getElem?]
  split
  · next hi =>
    split
    · next hl => rw [getElem?_eq_getElem hl, Option.getD_some]
    · next hl => rw [getElem?_eq_none (Nat.le_of_not_lt hl), Option.getD_none]
  · next hi =>
    split
    · rfl
    · split
      · rfl
      · next hl => rw [getElem?_eq_none (Nat.le_of_not_lt hl)]

/-- A byte in the range of a write is the new one. -/
theorem overwrite_getElem?_mem (d : α) (l : List α)
    (h₁ : off ≤ i) (h₂ : i < off + xs.length) :
    (overwrite d l off xs)[i]? = xs[i - off]? := by
  have hxs : xs ≠ [] := length_pos_iff.1 (by omega)
  rw [overwrite_getElem? d l off i hxs, if_neg (by omega), if_pos h₂]

/-- Two writes, one behind the other, are one. -/
theorem overwrite_append (d : α) (l : List α) (off : Nat) (xs ys : List α) :
    overwrite d (overwrite d l off xs) (off + xs.length) ys = overwrite d l off (xs ++ ys) := by
  by_cases hxs : xs = []
  · rw [hxs, overwrite_nil, length_nil, Nat.add_zero, nil_append]
  by_cases hys : ys = []
  · rw [hys, overwrite_nil, append_nil]
  have hboth : xs ++ ys ≠ [] := append_ne_nil_of_left_ne_nil hxs ys
  apply ext_getElem?
  intro i
  rw [overwrite_getElem? d _ _ i hys, overwrite_getElem? d l off i hxs,
    overwrite_getElem? d l off i hboth, length_append]
  by_cases hlow : i < off
  · rw [if_pos (by omega), if_pos hlow, if_pos hlow, Option.getD_some]
  rw [if_neg hlow, if_neg hlow]
  by_cases hmid : i < off + xs.length
  · rw [if_pos hmid, if_pos hmid, if_pos (by omega), getElem?_append_left (by omega),
      getElem?_eq_getElem (by omega), Option.getD_some]
  · rw [if_neg hmid, if_neg hmid, getElem?_append_right (by omega), Nat.sub_add_eq,
      Nat.add_assoc]

/-- A write over a whole file. -/
theorem overwrite_zero_of_length_le (d : α) (h : l.length ≤ xs.length) :
    overwrite d l 0 xs = xs := by
  by_cases hxs : xs = []
  · rw [hxs, length_nil, Nat.le_zero] at h
    rw [hxs, overwrite_nil]
    exact eq_nil_of_length_eq_zero h
  · rw [overwrite_of_ne_nil d l 0 hxs, splice, extend, Nat.zero_sub, replicate_zero,
      append_nil, take_zero, nil_append, Nat.zero_add, drop_eq_nil_of_le h,
      append_nil]

/-- Overwriting with nothing changes nothing. -/
@[simp] theorem splice_nil (l : List α) (off : Nat) : splice l off [] = l := by
  simp [splice]

/-! ## Many pieces -/

/-- Overwrite `l` with pieces, each given with its offset. -/
def spliceAll (l : List α) (ps : List (Nat × List α)) : List α :=
  ps.foldl (fun l p => splice l p.1 p.2) l

/-- The ranges of two pieces do not meet. -/
def Apart (p q : Nat × List α) : Prop := p.1 + p.2.length ≤ q.1 ∨ q.1 + q.2.length ≤ p.1

@[simp] theorem spliceAll_nil (l : List α) : spliceAll l [] = l := rfl

@[simp] theorem spliceAll_cons (l : List α) (p : Nat × List α) (ps : List (Nat × List α)) :
    spliceAll l (p :: ps) = spliceAll (splice l p.1 p.2) ps := rfl

/-- Pieces are written one list after the other. -/
theorem spliceAll_append (l : List α) (ps qs : List (Nat × List α)) :
    spliceAll l (ps ++ qs) = spliceAll (spliceAll l ps) qs := foldl_append

/-- Pieces inside a list keep its length. -/
theorem spliceAll_length
    (h : ∀ p ∈ ps, p.1 + p.2.length ≤ l.length) : (spliceAll l ps).length = l.length := by
  induction ps generalizing l with
  | nil => rfl
  | cons p ps ih =>
    have hp := splice_length (h p (by simp))
    rw [spliceAll_cons, ih fun q hq => by rw [hp]; exact h q (by simp [hq]), hp]

/-- An index that no piece covers keeps its element. -/
theorem spliceAll_getElem?_of_forall_not_mem (h : ∀ p ∈ ps, p.1 + p.2.length ≤ l.length)
    (hi : ∀ p ∈ ps, i < p.1 ∨ p.1 + p.2.length ≤ i) : (spliceAll l ps)[i]? = l[i]? := by
  induction ps generalizing l with
  | nil => rfl
  | cons p ps ih =>
    have hp := h p (by simp)
    have hi' := hi p (by simp)
    rw [spliceAll_cons, ih (fun q hq => by rw [splice_length hp]; exact h q (by simp [hq]))
      (fun q hq => hi q (by simp [hq])), splice_getElem? (by omega)]
    split
    · rfl
    · rw [if_neg (by omega)]

/-- Pieces that do not meet are all in place afterwards. -/
theorem spliceAll_getElem?_of_mem {p : Nat × List α}
    (h : ∀ p ∈ ps, p.1 + p.2.length ≤ l.length) (hd : ps.Pairwise Apart) (hp : p ∈ ps)
    (h₁ : p.1 ≤ i) (h₂ : i < p.1 + p.2.length) : (spliceAll l ps)[i]? = p.2[i - p.1]? := by
  induction ps generalizing l with
  | nil => cases hp
  | cons q ps ih =>
    have hq := h q (by simp)
    have hl : ∀ r ∈ ps, r.1 + r.2.length ≤ (splice l q.1 q.2).length := fun r hr => by
      rw [splice_length hq]; exact h r (by simp [hr])
    rw [pairwise_cons] at hd
    rw [spliceAll_cons]
    rcases mem_cons.1 hp with rfl | hp
    · rw [spliceAll_getElem?_of_forall_not_mem hl fun r hr => ?_, splice_getElem? (by omega),
        if_neg (by omega), if_pos h₂]
      have := hd.1 r hr
      rw [Apart] at this; omega
    · exact ih hl hd.2 hp

/-- A piece can be read back. -/
theorem slice_spliceAll {p : Nat × List α}
    (h : ∀ p ∈ ps, p.1 + p.2.length ≤ l.length) (hd : ps.Pairwise Apart) (hp : p ∈ ps) :
    slice (spliceAll l ps) p.1 p.2.length = p.2 := by
  apply ext_getElem?
  intro i
  rw [slice_getElem?]
  split
  · next hi =>
    rw [spliceAll_getElem?_of_mem h hd hp (by omega) (by omega), Nat.add_sub_cancel_left]
  · next hi => rw [getElem?_eq_none (by omega)]

end Bytes
