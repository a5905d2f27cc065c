import Mathlib.Algebra.Ring.Nat
import GekkoFS.Lib.Bytes

/-!
# Tables stored by columns

A table is written into a buffer column by column: there is a pointer for every column, and for
each row a loop writes one cell at every pointer and moves the pointers on. `writeRows` is that
loop. If the columns have room and do not meet, the buffer has every column in one piece afterwards
(`holds_writeRows`). `leBytes` are the bytes of a number in little endian order.
-/

namespace Bytes

open List

variable {α : Type*} {l xs : List α} {off : Nat}

/-! ## What a buffer has at an offset -/

/-- The buffer has `xs` from index `off` on. -/
def Holds (l : List α) (off : Nat) (xs : List α) : Prop := xs <+: l.drop off

/-- A region holds two parts one after the other. -/
theorem holds_append {ys : List α} :
    Holds l off (xs ++ ys) ↔ Holds l off xs ∧ Holds l (off + xs.length) ys := by
  constructor
  · rintro ⟨t, ht⟩
    refine ⟨⟨ys ++ t, by rw [← ht, append_assoc]⟩, t, ?_⟩
    rw [← drop_drop, ← ht, append_assoc, drop_left]
  · rintro ⟨⟨s, hs⟩, ⟨t, ht⟩⟩
    refine ⟨t, ?_⟩
    rw [← drop_drop, ← hs, drop_left] at ht
    rw [← hs, append_assoc, ht]

/-- What a part of a buffer has, the buffer has. -/
theorem Holds.trans {m : List α} {off' : Nat} (h : Holds l off m)
    (h' : Holds m off' xs) : Holds l (off + off') xs := by
  obtain ⟨t, ht⟩ := h
  by_cases hle : off' ≤ m.length
  · refine List.IsPrefix.trans h' ?_
    rw [← drop_drop, ← ht, drop_append_of_le_length hle]
    exact prefix_append _ _
  · have hnil : xs = [] := by
      rw [Holds, drop_eq_nil_of_le (by omega)] at h'
      exact prefix_nil.1 h'
    rw [hnil]
    exact List.nil_prefix

/-- A region holds what is cut out there. -/
theorem holds_iff_slice :
    Holds l off xs ↔ slice l off xs.length = xs := by
  rw [slice, Holds, prefix_iff_eq_take]
  exact eq_comm

/-- What is cut out where a region is held. -/
theorem Holds.slice_eq {n : Nat} (h : Holds l off xs) (hn : xs.length = n) :
    slice l off n = xs := by
  rw [← hn]
  exact holds_iff_slice.1 h

/-! ## Writing rows -/

section
variable {κ ε : Type*} (cell : ε → κ → List α) (step : ε → κ → Nat) (cols : List κ)

/-- Write the rows one after another: every cell at the pointer of its column, which then moves on
by `step`. -/
def writeRows : List ε → (κ → Nat) → List α → List α
  | [], _, buf => buf
  | e :: es, ptr, buf =>
    writeRows es (fun k => ptr k + step e k) (spliceAll buf (cols.map fun k => (ptr k, cell e k)))

/-- The cells with the offsets they are written at. -/
def rowPieces : List ε → (κ → Nat) → List (Nat × List α)
  | [], _ => []
  | e :: es, ptr =>
    (cols.map fun k => (ptr k, cell e k)) ++ rowPieces es fun k => ptr k + step e k

/-- A column in one piece. -/
def column (es : List ε) (k : κ) : List α := es.flatMap fun e => cell e k

variable {cell step cols} {es : List ε} {ptr : κ → Nat}

/-- Writing rows writes their pieces in turn. -/
theorem writeRows_eq (es : List ε) (ptr : κ → Nat) (buf : List α) :
    writeRows cell step cols es ptr buf = spliceAll buf (rowPieces cell step cols es ptr) := by
  induction es generalizing ptr buf with
  | nil => rfl
  | cons e es ih => rw [writeRows, ih, rowPieces, spliceAll_append]

/-- The pointers move on by what is written. -/
def Steps (cell : ε → κ → List α) (step : ε → κ → Nat) (cols : List κ) (es : List ε) : Prop :=
  ∀ e ∈ es, ∀ k ∈ cols, step e k = (cell e k).length

/-- A column does not meet another one. -/
def ColumnsApart (cell : ε → κ → List α) (cols : List κ) (es : List ε) (ptr : κ → Nat) : Prop :=
  ∀ k ∈ cols, ∀ k' ∈ cols, k ≠ k' → Apart (ptr k, column cell es k) (ptr k', column cell es k')

/-- The column of a row and the rows behind it. -/
theorem column_cons (e : ε) (es : List ε) (k : κ) :
    column cell (e :: es) k = cell e k ++ column cell es k := flatMap_cons

/-- A cell lies in its column. -/
theorem mem_rowPieces (hstep : Steps cell step cols es)
    {p : Nat × List α} (hp : p ∈ rowPieces cell step cols es ptr) :
    ∃ k ∈ cols, ptr k ≤ p.1 ∧ p.1 + p.2.length ≤ ptr k + (column cell es k).length := by
  induction es generalizing ptr with
  | nil => cases hp
  | cons e es ih =>
    rw [rowPieces, mem_append] at hp
    rcases hp with hp | hp
    · obtain ⟨k, hk, rfl⟩ := mem_map.1 hp
      refine ⟨k, hk, Nat.le_refl _, ?_⟩
      rw [column_cons, length_append]
      dsimp only
      omega
    · obtain ⟨k, hk, hlo, hhi⟩ := ih (fun e' he' => hstep e' (mem_cons_of_mem _ he')) hp
      have hstep := hstep e mem_cons_self k hk
      refine ⟨k, hk, by omega, ?_⟩
      rw [column_cons, length_append]
      omega

/-- Cells of columns that do not meet do not meet. -/
theorem pairwise_rowPieces (hstep : Steps cell step cols es) (hcols : cols.Nodup)
    (hapart : ColumnsApart cell cols es ptr) :
    (rowPieces cell step cols es ptr).Pairwise Apart := by
  induction es generalizing ptr with
  | nil => exact .nil
  | cons e es ih =>
    have hstep' : Steps cell step cols es := fun e' he' => hstep e' (mem_cons_of_mem _ he')
    have hlength : ∀ k ∈ cols, (column cell (e :: es) k).length =
        step e k + (column cell es k).length := fun k hk => by
      rw [column_cons, length_append, hstep e mem_cons_self k hk]
    rw [rowPieces, pairwise_append]
    refine ⟨pairwise_map.2 (hcols.imp_of_mem fun hk hk' hne => ?_),
      ih hstep' fun k hk k' hk' hne => ?_, ?_⟩
    · have h := hapart _ hk _ hk' hne
      simp only [Apart, hlength _ hk, hlength _ hk', hstep e mem_cons_self _ hk,
        hstep e mem_cons_self _ hk'] at h ⊢
      omega
    · have h := hapart _ hk _ hk' hne
      simp only [Apart, hlength _ hk, hlength _ hk'] at h ⊢
      omega
    · intro p hp q hq
      obtain ⟨k, hk, rfl⟩ := mem_map.1 hp
      obtain ⟨k', hk', hlo, hhi⟩ := mem_rowPieces hstep' hq
      have hcell := hstep e mem_cons_self k hk
      rw [Apart]
      by_cases hne : k = k'
      · -- a later cell of the same column
        rw [hne] at hcell ⊢
        dsimp only
        omega
      · have h := hapart _ hk _ hk' hne
        simp only [Apart, hlength _ hk, hlength _ hk'] at h ⊢
        omega

/-- A buffer that has the cells has the columns. -/
theorem holds_column (hstep : Steps cell step cols es) {l : List α}
    (h : ∀ p ∈ rowPieces cell step cols es ptr, Holds l p.1 p.2) {k : κ} (hk : k ∈ cols) :
    Holds l (ptr k) (column cell es k) := by
  induction es generalizing ptr with
  | nil => exact List.nil_prefix
  | cons e es ih =>
    rw [column_cons, holds_append, ← hstep e mem_cons_self k hk]
    refine ⟨h (ptr k, cell e k) (mem_append_left _ (mem_map.2 ⟨k, hk, rfl⟩)), ?_⟩
    exact ih (fun e' he' => hstep e' (mem_cons_of_mem _ he'))
      fun p hp => h p (mem_append_right _ hp)

/-- If the columns fit into the buffer and do not meet, it has all of them afterwards. -/
theorem holds_writeRows (hstep : Steps cell step cols es) (hcols : cols.Nodup)
    (hapart : ColumnsApart cell cols es ptr) {buf : List α}
    (hfits : ∀ k ∈ cols, ptr k + (column cell es k).length ≤ buf.length) :
    (writeRows cell step cols es ptr buf).length = buf.length ∧
      ∀ k ∈ cols, Holds (writeRows cell step cols es ptr buf) (ptr k) (column cell es k) := by
  have hin : ∀ p ∈ rowPieces cell step cols es ptr, p.1 + p.2.length ≤ buf.length := by
    intro p hp
    obtain ⟨k, hk, -, hhi⟩ := mem_rowPieces hstep hp
    exact Nat.le_trans hhi (hfits k hk)
  rw [writeRows_eq]
  refine ⟨spliceAll_length hin, fun k hk => holds_column hstep (fun p hp => ?_) hk⟩
  exact holds_iff_slice.2 (slice_spliceAll hin (pairwise_rowPieces hstep hcols hapart) hp)

end

/-! ## Numbers -/

/-- The lower `w` bytes of a number, the lowest first. -/
def leBytes : Nat → Nat → List UInt8
  | 0, _ => []
  | w + 1, n => UInt8.ofNat n :: leBytes w (n / 256)

/-- The number that bytes stand for. -/
def ofLeBytes : List UInt8 → Nat
  | [] => 0
  | b :: bs => b.toNat + 256 * ofLeBytes bs

@[simp] theorem leBytes_length (w n : Nat) : (leBytes w n).length = w := by
  induction w generalizing n with
  | zero => rfl
  | succ w ih => rw [leBytes, length_cons, ih]

/-- A number is read back modulo the width. -/
theorem ofLeBytes_leBytes (w n : Nat) : ofLeBytes (leBytes w n) = n % 256 ^ w := by
  induction w generalizing n with
  | zero => rw [Nat.pow_zero, Nat.mod_one]; rfl
  | succ w ih =>
    have hpow : 256 ^ (w + 1) = 256 * 256 ^ w := Nat.pow_succ'
    rw [leBytes, ofLeBytes, ih, hpow, Nat.mod_mul]
    exact congrArg (· + _) UInt8.toNat_ofNat'

end Bytes
