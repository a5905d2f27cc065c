import Mathlib.Algebra.BigOperators.Group.List.Basic
import Mathlib.Tactic.Linarith

/-!
# Cutting a byte range into blocks

A range of `S` bytes starts `o` bytes into a block of size `c` and is cut at the block boundaries.
Piece `j` is the part of the range in the `j`-th block it meets; `lo c o j` and `hi c o S j` are
the bounds of the piece inside the range, `fileOff o j` is where it starts in its block, and
`count c o S` is the number of pieces. The facts that a reader of the range and a writer of it
share are stated here once: every byte of the range lies in exactly one piece (`mem_piece`), and the
length of any selection of pieces is a number of whole blocks less the two ends (`sum_len`).
-/

namespace Blocks

open List

variable {c o S j : Nat}

/-- Where piece `j` starts inside the range. -/
def lo (c o j : Nat) : Nat := j * c - o

/-- Where piece `j` ends inside the range. -/
def hi (c o S j : Nat) : Nat := min S ((j + 1) * c - o)

/-- The length of piece `j`. -/
def len (c o S j : Nat) : Nat := hi c o S j - lo c o j

/-- Where piece `j` starts inside its block. -/
def fileOff (o j : Nat) : Nat := if j = 0 then o else 0

/-- The number of pieces of a nonempty range. -/
def count (c o S : Nat) : Nat := (o + S - 1) / c + 1

/-- The bytes of the last block that lie behind the range. -/
def underrun (c o S : Nat) : Nat := count c o S * c - (o + S)

@[simp] theorem lo_zero (c o : Nat) : lo c o 0 = 0 := by simp [lo]

/-- The last block ends at the end of the range or behind it. -/
theorem end_le_count_mul (hc : 0 < c) : o + S ≤ count c o S * c := by
  have h := Nat.lt_div_mul_add (a := o + S - 1) hc
  rw [count, Nat.add_mul, Nat.one_mul]; omega

/-- The last block starts before the end of the range. -/
theorem count_mul_lt (hS : 0 < S) : count c o S * c < o + S + c := by
  have h := Nat.div_mul_le_self (o + S - 1) c
  rw [count, Nat.add_mul, Nat.one_mul]; omega

/-- What lies behind the range in its last block, from the end of the range. -/
theorem underrun_eq (hc : 0 < c) (hS : 0 < S) :
    underrun c o S = if (o + S) % c = 0 then 0 else c - (o + S) % c := by
  have hle := end_le_count_mul (o := o) (S := S) hc
  have hlt := count_mul_lt (c := c) (o := o) hS
  have hd := Nat.div_add_mod' (o + S) c
  have hm := Nat.mod_lt (o + S) hc
  -- the number of blocks is the quotient, rounded up
  have hq : (o + S) / c ≤ count c o S := by
    by_contra hn
    have := Nat.mul_le_mul_right c (Nat.succ_le_of_lt (Nat.lt_of_not_le hn))
    rw [Nat.succ_mul] at this
    omega
  have hq' : count c o S ≤ (o + S) / c + 1 := by
    by_contra hn
    have := Nat.mul_le_mul_right c (Nat.succ_le_of_lt (Nat.lt_of_not_le hn))
    rw [Nat.succ_mul, Nat.add_mul, Nat.one_mul] at this
    omega
  rw [underrun]
  rcases Nat.eq_or_lt_of_le hq with he | he
  · rw [← he] at hle ⊢
    split <;> omega
  · rw [show count c o S = (o + S) / c + 1 by omega, Nat.add_mul, Nat.one_mul] at hlt ⊢
    split <;> omega

/-- A piece that is not the last ends at a block boundary inside the range. -/
theorem succ_mul_lt (hS : 0 < S) (hj : j + 1 < count c o S) :
    (j + 1) * c < o + S := by
  have h₁ := Nat.mul_le_mul_right c (show j + 1 + 1 ≤ count c o S from hj)
  have h₂ := count_mul_lt (c := c) (o := o) hS
  rw [Nat.add_mul (j + 1) 1, Nat.one_mul] at h₁
  omega

/-- Every block that the range reaches starts before its end. -/
theorem mul_lt_of_lt_count (hS : 0 < S) (hj : j < count c o S) :
    j * c < o + S := by
  cases j with
  | zero => omega
  | succ j => exact succ_mul_lt hS hj

/-- A piece of the range is not empty. -/
theorem lo_lt_hi (hc : 0 < c) (hS : 0 < S) (ho : o < c) (hj : j < count c o S) :
    lo c o j < hi c o S j := by
  have h := mul_lt_of_lt_count hS hj
  have hm : (j + 1) * c = j * c + c := by rw [Nat.add_mul, Nat.one_mul]
  rw [lo, hi, hm]; omega

/-- A piece ends inside the range. -/
theorem hi_le (c o S j : Nat) : hi c o S j ≤ S := Nat.min_le_left _ _

/-- A piece lies inside its block. -/
theorem fileOff_add_len_le (ho : o < c) (j : Nat) : fileOff o j + len c o S j ≤ c := by
  have hm : (j + 1) * c = j * c + c := by rw [Nat.add_mul, Nat.one_mul]
  rw [fileOff, len, hi, lo, hm]
  cases j with
  | zero => simp; omega
  | succ j =>
    have : c ≤ (j + 1) * c := Nat.le_mul_of_pos_left c (Nat.succ_pos j)
    simp only [Nat.succ_ne_zero, if_false]; omega

/-- Byte `i` of the range lies in the piece of the block that its position falls into, as far into
the piece as its position is into the block. -/
theorem mem_piece (hc : 0 < c) (ho : o < c) {i : Nat} (hi' : i < S) :
    (o + i) / c < count c o S ∧ lo c o ((o + i) / c) ≤ i ∧ i < hi c o S ((o + i) / c) ∧
      (o + i) % c = fileOff o ((o + i) / c) + (i - lo c o ((o + i) / c)) := by
  have hd := Nat.div_add_mod' (o + i) c
  have hm := Nat.mod_lt (o + i) hc
  have hlt : (o + i) / c < count c o S :=
    Nat.lt_succ_of_le (Nat.div_le_div_right (by omega))
  refine ⟨hlt, ?_, ?_, ?_⟩
  · rw [lo]; omega
  · rw [hi, Nat.add_mul, Nat.one_mul]; omega
  · rw [fileOff, lo]
    split
    · next h0 => rw [h0] at hd ⊢; omega
    · next h0 =>
      have : c ≤ (o + i) / c * c := Nat.le_mul_of_pos_left c (Nat.pos_of_ne_zero h0)
      omega

/-- A byte of a piece lies in no other piece's block. -/
theorem div_eq_of_mem (ho : o < c) {i : Nat} (h₁ : lo c o j ≤ i)
    (h₂ : i < hi c o S j) : (o + i) / c = j := by
  rw [hi, Nat.add_mul, Nat.one_mul] at h₂
  rw [lo] at h₁
  refine Nat.div_eq_of_lt_le ?_ ?_
  · omega
  · rw [Nat.add_mul, Nat.one_mul]; omega

/-- A byte of a block that lies in the block's piece lies in the range. -/
theorem mem_range_of_fileOff_le {r : Nat} (ho : o < c) (h₁ : fileOff o j ≤ r)
    (h₂ : r < fileOff o j + len c o S j) : o ≤ j * c + r ∧ j * c + r < o + S := by
  have hle := hi_le c o S j
  rw [len] at h₂
  rw [fileOff] at h₁ h₂
  split at h₁
  · next hj =>
    subst hj
    rw [if_pos rfl, lo_zero] at h₂
    omega
  · next hj =>
    have : c ≤ j * c := Nat.le_mul_of_pos_left c (Nat.pos_of_ne_zero hj)
    rw [if_neg hj, lo] at h₂
    omega

/-- Pieces do not overlap. -/
theorem hi_le_lo_of_lt {i : Nat} (h : i < j) : hi c o S i ≤ lo c o j := by
  have := Nat.mul_le_mul_right c (Nat.succ_le_of_lt h)
  rw [hi, lo]
  exact (Nat.min_le_right _ _).trans (Nat.sub_le_sub_right this _)

/-- A piece fills its block up to the two ends of the range. -/
theorem len_add_ends (hc : 0 < c) (hS : 0 < S) (ho : o < c) (hj : j < count c o S) :
    len c o S j + (if j = 0 then o else 0) +
      (if j + 1 = count c o S then underrun c o S else 0) = c := by
  have hm : (j + 1) * c = j * c + c := by rw [Nat.add_mul, Nat.one_mul]
  have hle := end_le_count_mul (o := o) (S := S) hc
  have hlt := mul_lt_of_lt_count hS hj
  have h0 : j = 0 ∨ c ≤ j * c := by
    rcases Nat.eq_zero_or_pos j with h | h
    · exact .inl h
    · exact .inr (Nat.le_mul_of_pos_left c h)
  rw [len, hi, lo, underrun, hm]
  by_cases hl : j + 1 = count c o S
  · rw [if_pos hl, ← hl, hm]
    rw [← hl, hm] at hle
    rcases h0 with h | h
    · subst h; simp at hle ⊢; omega
    · rw [if_neg (by rintro rfl; omega)]; omega
  · have hn := succ_mul_lt (o := o) (S := S) hS (c := c) (j := j) (by omega)
    rw [hm] at hn
    rw [if_neg hl]
    rcases h0 with h | h
    · subst h; simp at hn ⊢; omega
    · rw [if_neg (by rintro rfl; omega)]; omega

/-- A sum that counts one value once is that value or nothing. -/
theorem sum_ite_eq_of_nodup {β : Type*} [DecidableEq β] (x : β) (v : Nat) {ids : List β}
    (h : ids.Nodup) :
    (ids.map fun j => if j = x then v else 0).sum = if x ∈ ids then v else 0 := by
  induction ids with
  | nil => rfl
  | cons j ids ih =>
    rw [nodup_cons] at h
    rw [map_cons, sum_cons, ih h.2]
    by_cases hj : j = x
    · subst hj; simp [h.1]
    · simp [hj, Ne.symm hj]

/-- A sum over a list can be taken group by group. -/
theorem sum_filter_partition {β : Type*} [DecidableEq β] {groups : List β} (h : groups.Nodup)
    (f : Nat → Nat) (g : Nat → β) {ids : List Nat} (hids : ∀ j ∈ ids, g j ∈ groups) :
    (groups.map fun b => ((ids.filter fun j => g j = b).map f).sum).sum = (ids.map f).sum := by
  induction ids with
  | nil => simp
  | cons j ids ih =>
    have hj : ∀ b, (((j :: ids).filter fun i => g i = b).map f).sum =
        (if b = g j then f j else 0) + ((ids.filter fun i => g i = b).map f).sum := by
      intro b
      by_cases hb : g j = b
      · simp [hb]
      · simp [hb, Ne.symm hb]
    simp only [hj, sum_map_add, sum_ite_eq_of_nodup _ _ h, if_pos (hids j (by simp))]
    rw [ih fun k hk => hids k (by simp [hk]), map_cons, sum_cons]

/-- The length of a selection of pieces: whole blocks, less what lies before the range in the
first block and behind it in the last one, when those are selected. -/
theorem sum_len (hc : 0 < c) (hS : 0 < S) (ho : o < c) {ids : List Nat} (hnd : ids.Nodup)
    (hids : ∀ j ∈ ids, j < count c o S) :
    (ids.map (len c o S)).sum + (if 0 ∈ ids then o else 0) +
      (if count c o S - 1 ∈ ids then underrun c o S else 0) = ids.length * c := by
  rw [← sum_ite_eq_of_nodup 0 o hnd, ← sum_ite_eq_of_nodup _ (underrun c o S) hnd]
  clear hnd
  induction ids with
  | nil => simp
  | cons j ids ih =>
    have hj := len_add_ends hc hS ho (hids j (by simp))
    have ih := ih fun k hk => hids k (by simp [hk])
    have he : (j + 1 = count c o S) = (j = count c o S - 1) := by
      have : 0 < count c o S := Nat.succ_pos _
      exact propext ⟨fun h => by omega, fun h => by omega⟩
    simp only [he] at hj
    simp only [map_cons, sum_cons, length_cons, Nat.add_mul, Nat.one_mul]
    omega

/-- The pieces together have the length of the range. -/
theorem sum_len_range (hc : 0 < c) (hS : 0 < S) (ho : o < c) :
    ((List.range (count c o S)).map (len c o S)).sum = S := by
  have h := sum_len hc hS ho (nodup_range (n := count c o S)) fun j hj => mem_range.1 hj
  have hp : 0 < count c o S := Nat.succ_pos _
  have hle := end_le_count_mul (o := o) (S := S) hc
  rw [if_pos (mem_range.2 hp), if_pos (mem_range.2 (by omega)), underrun,
    length_range] at h
  omega

/-- The bytes of the range that fall into the block of a piece are those of the piece. -/
theorem filter_div_perm (hc : 0 < c) (ho : o < c) (j : Nat) :
    ((List.range S).filter fun i => (o + i) / c = j).Perm
      (List.range' (lo c o j) (len c o S j)) := by
  refine (perm_ext_iff_of_nodup (nodup_range.filter _) nodup_range').2 fun i => ?_
  rw [mem_filter, mem_range, decide_eq_true_eq, mem_range'_1, len]
  constructor
  · rintro ⟨hi', rfl⟩
    obtain ⟨-, hlo, hhi, -⟩ := mem_piece hc ho hi'
    omega
  · rintro ⟨hlo, hhi⟩
    have := hi_le c o S j
    exact ⟨by omega, div_eq_of_mem (S := S) ho hlo (by omega)⟩

/-- The number of bytes in a block. -/
theorem length_filter_div (hc : 0 < c) (ho : o < c) (j : Nat) :
    ((List.range S).filter fun i => (o + i) / c = j).length = len c o S j := by
  rw [(filter_div_perm hc ho j).length_eq, length_range']

/-- The length of a selection of pieces is the number of bytes that fall into their blocks. -/
theorem sum_len_filter (hc : 0 < c) (ho : o < c) (own : Nat → Bool) :
    (((List.range (count c o S)).filter own).map (len c o S)).sum =
      (List.range S).countP fun i => own ((o + i) / c) := by
  have hnd : ((List.range (count c o S)).filter own).Nodup := nodup_range.filter _
  have hmem : ∀ i ∈ (List.range S).filter fun i => own ((o + i) / c),
      (o + i) / c ∈ (List.range (count c o S)).filter own := fun i hi' => by
    rw [mem_filter, mem_range] at hi' ⊢
    exact ⟨(mem_piece hc ho hi'.1).1, hi'.2⟩
  have hsum := sum_filter_partition hnd (fun _ => 1) (fun i => (o + i) / c) hmem
  simp only [map_const', sum_replicate_nat, Nat.mul_one] at hsum
  rw [countP_eq_length_filter, ← hsum]
  refine congrArg List.sum (map_congr_left fun j hj => ?_)
  rw [← length_filter_div hc ho, filter_filter]
  refine congrArg List.length (filter_congr fun i _ => ?_)
  -- the selection has picked the block of a byte that falls into it
  by_cases he : (o + i) / c = j
  · simp [he, (mem_filter.1 hj).2]
  · simp [he]

/-- The numbers below a bound are counted. -/
theorem countP_lt_range {m n : Nat} (h : m ≤ n) :
    (List.range n).countP (fun k => decide (k < m)) = m := by
  obtain ⟨rest, rfl⟩ := Nat.exists_eq_add_of_le h
  have hlow : (List.range m).countP (fun k => decide (k < m)) = m := by
    rw [countP_eq_length.2 fun k hk => decide_eq_true (mem_range.1 hk),
      length_range]
  have hhigh : ((List.range rest).map (m + ·)).countP (fun k => decide (k < m)) = 0 := by
    refine countP_eq_zero.2 fun k hk => ?_
    obtain ⟨i, -, rfl⟩ := mem_map.1 hk
    simp
  rw [range_add, countP_append, hlow, hhigh, Nat.add_zero]

/-- When a predicate holds of the first `found j` bytes of each piece, these are the bytes of the
range that it holds of. -/
theorem sum_found (hc : 0 < c) (ho : o < c) {p : Nat → Bool} {found : Nat → Nat}
    (hle : ∀ j < count c o S, found j ≤ len c o S j)
    (hp : ∀ j < count c o S, ∀ k < len c o S j, p (lo c o j + k) = decide (k < found j)) :
    ((List.range (count c o S)).map found).sum = (List.range S).countP p := by
  have hmem : ∀ i ∈ (List.range S).filter p, (o + i) / c ∈ List.range (count c o S) :=
    fun i hi' => mem_range.2 (mem_piece hc ho (mem_range.1 (mem_filter.1 hi').1)).1
  have hsum := sum_filter_partition nodup_range (fun _ => 1) (fun i => (o + i) / c) hmem
  simp only [map_const', sum_replicate_nat, Nat.mul_one] at hsum
  rw [countP_eq_length_filter, ← hsum]
  refine congrArg List.sum (map_congr_left fun j hj => ?_)
  have hj := mem_range.1 hj
  rw [filter_comm, ← countP_eq_length_filter, (filter_div_perm hc ho j).countP_eq,
    range'_eq_map_range, countP_map]
  rw [countP_congr fun k hk => by
    rw [Function.comp_apply, hp j hj k (mem_range.1 hk)], countP_lt_range (hle j hj)]

end Blocks
