import GekkoFS.Common.Arithmetic
import GekkoFS.Lib.SortedMap
import Mathlib.Data.List.Induction

/-!
# The interval set of the guided distributor

`IntervalSet` is meant to be a set of chunk ids, stored as intervals: an ordered map from the start
of each interval to its end. `Add` looks at the interval before the new one and at the one behind
it, and joins those that touch it.

The joined interval ends where the next interval ends, or where the new one does, but never where
the interval before it ends, and the sums with one wrap at the largest chunk id; so chunk ids can be
lost, and intervals can overlap. A lookup steps back from the upper bound of the chunk id, which is
a step before the first interval if all intervals start above the chunk id. `AddOk` says when an
addition is one of a set; the set behaves as a set along a sequence of additions exactly if all of
them are (`intervalSetOk_iff`).
-/

namespace GekkoFS

open List SortedMap

/-- `_intervals`, from the start of each interval to its end, in the order that a `std::map` keeps.
Source: `IntervalSet` (`distributor.hpp:180`). -/
structure IntervalSet where
  intervals : List (Nat × Nat)
  sorted : SortedMap.Sorted intervals

namespace IntervalSet

/-- The set after its construction. -/
def empty : IntervalSet := ⟨[], List.Pairwise.nil⟩

/-- The end of the interval to add, and the intervals behind it: if it reaches the first of them, it
takes that one's end and place. Source: `Add` (`distributor.cpp:176`). -/
def absorbNext (bigger : Nat) : List (Nat × Nat) → Nat × List (Nat × Nat)
  | [] => (bigger, [])
  | next :: rest =>
    if next.1 ≤ u32 (bigger + 1) then (next.2, rest) else (bigger, next :: rest)

/-- The map after an addition. The intervals up to the upper bound of `smaller` end with the
previous one, the others start with the next one. Source: `Add` (`distributor.cpp:172`). -/
def addTo (intervals : List (Nat × Nat)) (smaller bigger : Nat) : List (Nat × Nat) :=
  let before := upTo smaller intervals
  match before.getLast? with
  | none => assign intervals smaller bigger
  | some prev =>
    let (bigger, after) := absorbNext bigger (above smaller intervals)
    if smaller ≤ u32 (prev.2 + 1) then
      assign (before.dropLast ++ after) prev.1 bigger
    else assign (before ++ after) smaller bigger

theorem absorbNext_sublist (bigger : Nat) (after : List (Nat × Nat)) :
    (absorbNext bigger after).2.Sublist after := by
  cases after with
  | nil => exact List.Sublist.refl []
  | cons next rest =>
    rw [absorbNext]
    split
    · exact sublist_cons_self next rest
    · exact List.Sublist.refl _

/-- An addition keeps the order. -/
theorem sorted_addTo {intervals : List (Nat × Nat)} (h : SortedMap.Sorted intervals)
    (smaller bigger : Nat) : SortedMap.Sorted (addTo intervals smaller bigger) := by
  have hparts : (upTo smaller intervals ++ above smaller intervals).Sublist
      intervals := by
    rewrite [upTo_append_above]
    exact List.Sublist.refl _
  have hnext := absorbNext_sublist bigger (above smaller intervals)
  rw [addTo]
  dsimp only
  split
  · exact h.assign smaller bigger
  · split
    · exact (h.sublist (((dropLast_sublist _).append hnext).trans hparts)).assign _ _
    · exact (h.sublist (((List.Sublist.refl _).append hnext).trans hparts)).assign _ _

/-- Add an interval to the set. Source: `Add` (`distributor.cpp:172`). -/
def add (s : IntervalSet) (smaller bigger : Nat) : IntervalSet :=
  ⟨addTo s.intervals smaller bigger, sorted_addTo s.sorted smaller bigger⟩

theorem intervals_add (s : IntervalSet) (smaller bigger : Nat) :
    (s.add smaller bigger).intervals = addTo s.intervals smaller bigger := rfl

/-- Whether a chunk id is in the set. The interval before the upper bound of the chunk id may not
exist; stepping back from the first interval is undefined. Source: `IsInsideInterval`
(`distributor.cpp:189`). -/
def isInsideInterval (s : IntervalSet) (v : Nat) : Option Bool :=
  (upTo v s.intervals).getLast?.map fun suspect => suspect.1 ≤ v && v ≤ suspect.2

end IntervalSet

/-! ## Additions between two intervals -/

/-- An interval of chunk ids. -/
structure Interval where
  lo : Nat
  hi : Nat
  le : lo ≤ hi
  lt : hi < 2 ^ 32

/-- A chunk id is in an interval. -/
def Interval.Contains (i : Interval) (v : Nat) : Prop := i.lo ≤ v ∧ v ≤ i.hi

namespace IntervalSet

/-- A chunk id is in one of some stored intervals. -/
def Covers (m : List (Nat × Nat)) (v : Nat) : Prop := ∃ e ∈ m, e.1 ≤ v ∧ v ≤ e.2

@[simp] theorem covers_nil (v : Nat) : ¬ Covers [] v := by simp [Covers]

@[simp] theorem covers_cons (e : Nat × Nat) (m : List (Nat × Nat)) (v : Nat) :
    Covers (e :: m) v ↔ (e.1 ≤ v ∧ v ≤ e.2) ∨ Covers m v := by simp [Covers]

@[simp] theorem covers_append (l m : List (Nat × Nat)) (v : Nat) :
    Covers (l ++ m) v ↔ Covers l v ∨ Covers m v := by simp [Covers, or_and_right, exists_or]

/-- Stored intervals are well formed, and there is a gap between any two of them. -/
structure Spaced (m : List (Nat × Nat)) : Prop where
  wellFormed : ∀ e ∈ m, e.1 ≤ e.2 ∧ e.2 < 2 ^ 32
  gap : m.Pairwise fun e f => e.2 + 1 < f.1

/-- Intervals with one in the middle are spaced if both sides are and the middle one leaves a gap
to both. -/
theorem spaced_middle {l r : List (Nat × Nat)} {e : Nat × Nat} :
    Spaced (l ++ e :: r) ↔ Spaced l ∧ Spaced r ∧ (e.1 ≤ e.2 ∧ e.2 < 2 ^ 32) ∧
      (∀ d ∈ l, d.2 + 1 < e.1) ∧ ∀ f ∈ r, e.2 + 1 < f.1 := by
  constructor
  · rintro ⟨hwf, hgap⟩
    rw [pairwise_append, pairwise_cons] at hgap
    obtain ⟨hl, ⟨her, hr⟩, hcross⟩ := hgap
    exact ⟨⟨fun d hd => hwf d (mem_append_left _ hd), hl⟩,
      ⟨fun f hf => hwf f (mem_append_right _ (mem_cons_of_mem e hf)), hr⟩,
      hwf e (mem_append_right _ mem_cons_self),
      fun d hd => hcross d hd e mem_cons_self, her⟩
  · rintro ⟨hl, hr, he, hle, her⟩
    refine ⟨fun d hd => ?_, ?_⟩
    · rcases mem_append.1 hd with hd | hd
      · exact hl.wellFormed d hd
      · rcases mem_cons.1 hd with rfl | hd
        · exact he
        · exact hr.wellFormed d hd
    · rw [pairwise_append, pairwise_cons]
      refine ⟨hl.gap, ⟨her, hr.gap⟩, fun d hd f hf => ?_⟩
      have hd := hle d hd
      rcases mem_cons.1 hf with rfl | hf
      · exact hd
      · have hf := her f hf
        omega

/-- Where an addition takes place: the stored intervals, cut behind the last one that starts not
above the new one. -/
structure CutAt (m init : List (Nat × Nat)) (prev : Nat × Nat) (after : List (Nat × Nat))
    (lo : Nat) : Prop where
  eq : m = init ++ prev :: after
  init : ∀ e ∈ init, e.1 < prev.1
  prev : prev.1 ≤ lo
  after : ∀ e ∈ after, lo < e.1

/-- A set with an interval that starts not above `lo` can be cut there. -/
theorem exists_cutAt {m : List (Nat × Nat)} (hm : SortedMap.Sorted m) {lo : Nat}
    (h : ∃ e ∈ m, e.1 ≤ lo) : ∃ init prev after, CutAt m init prev after lo := by
  have hparts := upTo_append_above lo m
  have hafter : ∀ e ∈ above lo m, lo < e.1 := fun e he => hm.lt_of_mem_above he
  have hne : upTo lo m ≠ [] := by
    intro hnil
    obtain ⟨e, he, hle⟩ := h
    rw [hnil, nil_append] at hparts
    rw [hparts] at hafter
    exact absurd (hafter e he) (by omega)
  obtain ⟨init, prev, heq⟩ : ∃ init prev, upTo lo m = init ++ [prev] :=
    ⟨_, _, (dropLast_concat_getLast hne).symm⟩
  have hmeq : m = init ++ prev :: above lo m := by
    rw [← singleton_append, ← append_assoc, ← heq, hparts]
  refine ⟨init, prev, above lo m, hmeq, ?_, ?_, hafter⟩
  · rw [hmeq, SortedMap.Sorted, pairwise_append] at hm
    exact fun e he => hm.2.2 e he prev mem_cons_self
  · exact le_of_mem_upTo (heq ▸ mem_append_right init mem_cons_self)

section
variable {m init after : List (Nat × Nat)} {prev : Nat × Nat} {lo : Nat}

theorem CutAt.upTo (h : CutAt m init prev after lo) : upTo lo m = init ++ [prev] := by
  rw [h.eq, ← singleton_append, ← append_assoc]
  refine upTo_append (fun e he => ?_) h.after
  have hprev := h.prev
  rcases mem_append.1 he with he | he
  · have := h.init e he
    omega
  · rw [mem_singleton.1 he]
    exact hprev

theorem CutAt.above (h : CutAt m init prev after lo) : above lo m = after := by
  have hparts := upTo_append_above lo m
  rw [h.upTo, append_assoc, singleton_append] at hparts
  have heq := hparts.trans h.eq
  exact (List.cons.inj (append_cancel_left heq)).2

/-- The interval looked at by a lookup is the one before the cut. -/
theorem CutAt.isInsideInterval {s : IntervalSet} {v : Nat}
    (h : CutAt s.intervals init prev after v) :
    s.isInsideInterval v = some (decide (v ≤ prev.2)) := by
  rw [IntervalSet.isInsideInterval, h.upTo, getLast?_concat, Option.map_some,
    decide_eq_true h.prev, Bool.true_and]

/-- What an addition does to the two intervals at the cut. -/
theorem CutAt.addTo (h : CutAt m init prev after lo) (hi : Nat) :
    addTo m lo hi =
      if lo ≤ u32 (prev.2 + 1) ∨ prev.1 = lo then
        init ++ (prev.1, (absorbNext hi after).1) :: (absorbNext hi after).2
      else init ++ prev :: (lo, (absorbNext hi after).1) :: (absorbNext hi after).2 := by
  have hprev := h.prev
  have hafter : ∀ e ∈ (absorbNext hi after).2, lo < e.1 := fun e he =>
    h.after e ((absorbNext_sublist hi after).subset he)
  rw [IntervalSet.addTo, h.upTo, h.above, getLast?_concat]
  dsimp only
  by_cases hmerge : lo ≤ u32 (prev.2 + 1)
  · rw [if_pos hmerge, if_pos (.inl hmerge), dropLast_concat,
      assign_between h.init fun e he => hprev.trans_lt (hafter e he)]
  · rw [if_neg hmerge]
    by_cases hsame : prev.1 = lo
    · rw [if_pos (.inr hsame), ← hsame, append_assoc, singleton_append]
      exact assign_last h.init
    · rw [if_neg (not_or.2 ⟨hmerge, hsame⟩), assign_between _ hafter,
        append_assoc, singleton_append]
      intro e he
      rcases mem_append.1 he with he | he
      · exact (h.init e he).trans_le hprev
      · rw [mem_singleton.1 he]
        omega

end

/-! ## Additions of a set -/

/-- An addition is one of a set. The first interval has to start at 0, so that every lookup has an
interval to step back to. If the new interval reaches the next one, it may not go beyond its end,
nor up to the largest chunk id. If it touches the previous one, it has to go up to its end, unless
it reaches the next one; and a previous interval that goes up to the largest chunk id has to start
where the new one does. -/
structure AddOk (m : List (Nat × Nat)) (i : Interval) : Prop where
  first : m = [] → i.lo = 0
  next : ∀ next, (above i.lo m).head? = some next → next.1 ≤ i.hi + 1 →
    i.hi ≤ next.2 ∧ i.hi < 2 ^ 32 - 1
  prev : ∀ prev, (upTo i.lo m).getLast? = some prev → i.lo ≤ prev.2 + 1 →
    prev.2 ≤ i.hi ∨ ∃ next, (above i.lo m).head? = some next ∧ next.1 ≤ i.hi + 1
  top : ∀ prev, (upTo i.lo m).getLast? = some prev → prev.2 = 2 ^ 32 - 1 →
    prev.1 = i.lo

/-- The sum with one wraps at the largest chunk id only. -/
theorem u32_succ {n : Nat} (h : n < 2 ^ 32) :
    n < 2 ^ 32 - 1 ∧ u32 (n + 1) = n + 1 ∨ n = 2 ^ 32 - 1 ∧ u32 (n + 1) = 0 := by
  rw [u32]
  omega

section
variable {lo hi : Nat} {after : List (Nat × Nat)} {rest : List (Nat × Nat)}

/-- An interval that does not reach the next one leaves the intervals behind it alone. -/
theorem absorbNext_apart (h : ∀ next, after.head? = some next → hi + 1 < next.1) :
    absorbNext hi after = (hi, after) := by
  cases after with
  | nil => rfl
  | cons next rest =>
    have hnext := h next rfl
    have hword : u32 (hi + 1) ≤ hi + 1 := Nat.mod_le _ _
    rw [absorbNext, if_neg (by omega)]

/-- An interval that reaches the next one takes its place, unless it goes up to the largest chunk
id. -/
theorem absorbNext_reach {next : Nat × Nat} (hhi : hi < 2 ^ 32 - 1)
    (h : next.1 ≤ hi + 1) : absorbNext hi (next :: rest) = (next.2, rest) := by
  have hsum := u32_succ (show hi < 2 ^ 32 by omega)
  rw [absorbNext, if_pos (by omega)]

/-- What a set needs of the interval to add and of those behind it, once it has joined the next
one. -/
theorem absorbNext_spec (hspaced : Spaced after) (hafter : ∀ e ∈ after, lo < e.1)
    (hword : hi < 2 ^ 32) (hnext : ∀ next, after.head? = some next → next.1 ≤ hi + 1 →
      hi ≤ next.2 ∧ hi < 2 ^ 32 - 1) {b : Nat}
    (h : absorbNext hi after = (b, rest)) :
    Spaced rest ∧ hi ≤ b ∧ b < 2 ^ 32 ∧ (∀ f ∈ rest, b + 1 < f.1) ∧
      (∀ v, (lo ≤ v ∧ v ≤ b) ∨ Covers rest v ↔ (lo ≤ v ∧ v ≤ hi) ∨ Covers after v) ∧
      ∀ next, after.head? = some next → next.1 ≤ hi + 1 → b = next.2 := by
  by_cases hreach : ∃ next, after.head? = some next ∧ next.1 ≤ hi + 1
  · obtain ⟨next, hhead, hle⟩ := hreach
    obtain ⟨rest', rfl⟩ := head?_eq_some_iff.1 hhead
    obtain ⟨hhi, htop⟩ := hnext next hhead hle
    rw [absorbNext_reach htop hle] at h
    cases h
    obtain ⟨-, hrest, hwf, -, hgap⟩ := (spaced_middle (l := [])).1 hspaced
    have hlo := hafter next mem_cons_self
    refine ⟨hrest, hhi, hwf.2, hgap, fun v => ?_, fun d hd _ => ?_⟩
    · rw [covers_cons, ← or_assoc]
      exact or_congr_left (by omega)
    · cases hd
      rfl
  · have hapart : ∀ next, after.head? = some next → hi + 1 < next.1 := fun next hhead =>
      not_le.1 fun hle => hreach ⟨next, hhead, hle⟩
    rw [absorbNext_apart hapart] at h
    cases h
    refine ⟨hspaced, le_refl _, hword, ?_, fun v => Iff.rfl, fun d hd hle => ?_⟩
    · cases after with
      | nil => exact fun f hf => absurd hf not_mem_nil
      | cons next rest =>
        obtain ⟨-, -, hwf, -, hgap⟩ := (spaced_middle (l := [])).1 hspaced
        have hhi := hapart next rfl
        intro f hf
        rcases mem_cons.1 hf with rfl | hf
        · exact hhi
        · have := hgap f hf
          omega
    · exact absurd ⟨d, hd, hle⟩ hreach

end

section
variable {m init after : List (Nat × Nat)} {prev : Nat × Nat} {i : Interval}

section
variable (h : CutAt m init prev after i.lo) {next : Nat × Nat}
include h

/-- An addition of a set keeps the intervals apart and adds the chunk ids of the new one. -/
theorem CutAt.addTo_spec (hspaced : Spaced m)
    (hok : AddOk m i) :
    Spaced (IntervalSet.addTo m i.lo i.hi) ∧
      ∀ v, Covers (IntervalSet.addTo m i.lo i.hi) v ↔ Covers m v ∨ i.Contains v := by
  have hlast : (SortedMap.upTo i.lo m).getLast? = some prev := by
    rw [h.upTo, getLast?_concat]
  have htouch := hok.prev prev hlast
  have htop := hok.top prev hlast
  have hnext := hok.next
  rw [h.above] at htouch hnext
  rw [h.eq] at hspaced
  obtain ⟨hinit, hafter, hwf, hlow, hgap⟩ := spaced_middle.1 hspaced
  obtain ⟨b, rest, hb⟩ : ∃ b rest, absorbNext i.hi after = (b, rest) := ⟨_, _, rfl⟩
  obtain ⟨hrest, hle, hword, hhigh, hcovers, hreach⟩ :=
    absorbNext_spec hafter h.after i.lt hnext hb
  have hprev := h.prev
  have hilo := i.le
  have hsum := u32_succ hwf.2
  rw [h.addTo, hb]
  dsimp only
  split
  · next hmerge =>
    -- the previous interval is joined, and the result goes at least up to its end
    have htouches : i.lo ≤ prev.2 + 1 := by omega
    have hend : prev.2 ≤ b := by
      rcases htouch htouches with hend | ⟨next, hhead, hnextle⟩
      · omega
      · have hmem : next ∈ after := mem_of_mem_head? hhead
        have := hgap next hmem
        have := (hafter.wellFormed next hmem).1
        rw [hreach next hhead hnextle]
        omega
    refine ⟨spaced_middle.2 ⟨hinit, hrest, ⟨by omega, hword⟩, hlow, hhigh⟩, fun v => ?_⟩
    have hv := hcovers v
    rw [h.eq, covers_append, covers_cons, covers_append, covers_cons, Interval.Contains]
    constructor
    · rintro (hc | hc | hc)
      · exact .inl (.inl hc)
      · by_cases hlt : v ≤ prev.2
        · exact .inl (.inr (.inl ⟨hc.1, hlt⟩))
        · exact (hv.1 (.inl ⟨by omega, hc.2⟩)).elim .inr fun hc => .inl (.inr (.inr hc))
      · exact (hv.1 (.inr hc)).elim .inr fun hc => .inl (.inr (.inr hc))
    · rintro ((hc | hc | hc) | hc)
      · exact .inl hc
      · exact .inr (.inl ⟨hc.1, by omega⟩)
      · exact .inr ((hv.2 (.inr hc)).imp (fun hc => ⟨by omega, hc.2⟩) id)
      · exact .inr ((hv.2 (.inl hc)).imp (fun hc => ⟨by omega, hc.2⟩) id)
  · next hmerge =>
    -- the previous interval ends before the new one starts
    have hapart : prev.2 + 1 < i.lo := by
      have hnottop : prev.2 ≠ 2 ^ 32 - 1 := fun heq => hmerge (.inr (htop heq))
      omega
    have hspaced' : Spaced ((i.lo, b) :: rest) :=
      (spaced_middle (l := [])).2 ⟨⟨fun _ he => absurd he not_mem_nil, List.Pairwise.nil⟩,
        hrest, ⟨by omega, hword⟩, fun _ he => absurd he not_mem_nil, hhigh⟩
    refine ⟨spaced_middle.2 ⟨hinit, hspaced', hwf, hlow, fun f hf => ?_⟩, fun v => ?_⟩
    · rcases mem_cons.1 hf with rfl | hf
      · exact hapart
      · have := hhigh f hf
        omega
    · rw [h.eq, covers_append, covers_cons, covers_cons, covers_append, covers_cons, hcovers v,
        Interval.Contains]
      simp only [or_comm, or_left_comm]

/-- No chunk id from the start of the previous interval on is in an interval before it. -/
theorem CutAt.not_covers_init (hspaced : Spaced m) {v : Nat}
    (hv : prev.1 ≤ v) : ¬ Covers init v := by
  obtain ⟨-, -, -, hlow, -⟩ := spaced_middle.1 (h.eq ▸ hspaced)
  rintro ⟨e, he, -, hev⟩
  have := hlow e he
  omega

/-- If the intervals do not overlap after an addition that has an interval behind it, then it does
not go up to the largest chunk id: the sum with one would wrap, and the next interval stay behind
it. -/
theorem CutAt.lt_top_of_next (hspaced : Spaced m)
    (hdisjoint : (IntervalSet.addTo m i.lo i.hi).Pairwise fun e f => e.2 < f.1)
    (hhead : after.head? = some next) : i.hi < 2 ^ 32 - 1 := by
  obtain ⟨-, hafter, -, -, -⟩ := spaced_middle.1 (h.eq ▸ hspaced)
  obtain ⟨rest, rfl⟩ := head?_eq_some_iff.1 hhead
  obtain ⟨-, -, hnext, -, -⟩ := (spaced_middle (l := [])).1 hafter
  have hlo := h.after next mem_cons_self
  have hwrap := u32_succ i.lt
  by_contra htop
  have hstays : absorbNext i.hi (next :: rest) = (i.hi, next :: rest) := by
    rw [absorbNext, if_neg (by omega)]
  rw [h.addTo, hstays] at hdisjoint
  split at hdisjoint
  · obtain ⟨-, hd, -⟩ := pairwise_append.1 hdisjoint
    have := (pairwise_cons.1 hd).1 next mem_cons_self
    omega
  · obtain ⟨-, hd, -⟩ := pairwise_append.1 hdisjoint
    have := (pairwise_cons.1 (pairwise_cons.1 hd).2).1 next mem_cons_self
    omega

/-- If all chunk ids are there after an addition, then one that reaches the next interval does not
go beyond its end: the chunk id behind that end would be lost. -/
theorem CutAt.le_of_reach (hspaced : Spaced m)
    (hcovers : ∀ v, v < 2 ^ 32 → Covers m v ∨ i.Contains v →
      Covers (IntervalSet.addTo m i.lo i.hi) v) (hhead : after.head? = some next) (hreach
    : next.1 ≤ i.hi + 1)
    (htop : i.hi < 2 ^ 32 - 1) : i.hi ≤ next.2 := by
  obtain ⟨-, hafter, hwf, -, hgap⟩ := spaced_middle.1 (h.eq ▸ hspaced)
  obtain ⟨rest, rfl⟩ := head?_eq_some_iff.1 hhead
  obtain ⟨-, -, hnext, -, hbehind⟩ := (spaced_middle (l := [])).1 hafter
  have hlo := h.after next mem_cons_self
  have hnextGap := hgap next mem_cons_self
  have hprev := h.prev
  by_contra hbeyond
  have hrest : ¬ Covers rest (next.2 + 1) := by
    rintro ⟨f, hf, hfv, -⟩
    have := hbehind f hf
    omega
  have hbefore := h.not_covers_init hspaced (v := next.2 + 1) (by omega)
  have hlost := hcovers (next.2 + 1) (by omega) (.inr ⟨by omega, by omega⟩)
  rw [h.addTo, absorbNext_reach htop hreach] at hlost
  split at hlost
  · rw [covers_append, covers_cons] at hlost
    rcases hlost with hlost | hlost | hlost
    · exact hbefore hlost
    · exact absurd hlost.2 (by omega)
    · exact hrest hlost
  · rw [covers_append, covers_cons, covers_cons] at hlost
    rcases hlost with hlost | hlost | hlost | hlost
    · exact hbefore hlost
    · exact absurd hlost.2 (by omega)
    · exact absurd hlost.2 (by omega)
    · exact hrest hlost

/-- An addition that touches the previous interval and does not reach the next one goes up to the
end of the previous one, which would be lost or overlapped otherwise. -/
theorem CutAt.le_of_touch (hspaced : Spaced m)
    (hdisjoint : (IntervalSet.addTo m i.lo i.hi).Pairwise fun e f => e.2 < f.1)
    (hcovers : ∀ v, v < 2 ^ 32 → Covers m v ∨ i.Contains v →
      Covers (IntervalSet.addTo m i.lo i.hi) v)
    (htouch : i.lo ≤ prev.2 + 1)
    (hapart : ∀ next, after.head? = some next → i.hi + 1 < next.1) : prev.2 ≤ i.hi := by
  obtain ⟨-, -, hwf, -, hgap⟩ := spaced_middle.1 (h.eq ▸ hspaced)
  have hilo := i.le
  by_contra hend
  rw [h.addTo, absorbNext_apart hapart] at hdisjoint hcovers
  have hlost := hcovers prev.2 hwf.2 (.inl (by
    rw [h.eq, covers_append, covers_cons]
    exact .inr (.inl ⟨hwf.1, le_refl _⟩)))
  have hbehind : ¬ Covers after prev.2 := by
    rintro ⟨f, hf, hfv, -⟩
    have := hgap f hf
    omega
  split at hlost
  · rw [covers_append, covers_cons] at hlost
    rcases hlost with hlost | hlost | hlost
    · exact h.not_covers_init hspaced hwf.1 hlost
    · exact absurd hlost.2 (by omega)
    · exact hbehind hlost
  · next hmerge =>
    rw [if_neg hmerge] at hdisjoint
    obtain ⟨-, hd, -⟩ := pairwise_append.1 hdisjoint
    have := (pairwise_cons.1 hd).1 (i.lo, i.hi) mem_cons_self
    omega

/-- A previous interval up to the largest chunk id starts where the new one does: it would not be
joined otherwise, since the sum with one wraps. -/
theorem CutAt.eq_of_top (hspaced : Spaced m)
    (hdisjoint : (IntervalSet.addTo m i.lo i.hi).Pairwise fun e f => e.2 < f.1)
    (htop : prev.2 = 2 ^ 32 - 1) : prev.1 = i.lo := by
  obtain ⟨-, -, hwf, -, hgap⟩ := spaced_middle.1 (h.eq ▸ hspaced)
  have hsum := u32_succ hwf.2
  have hilo := i.le
  have hihi := i.lt
  have hprev := h.prev
  by_contra hne
  have hapart : ∀ next, after.head? = some next → i.hi + 1 < next.1 := by
    intro next hhead
    have := hgap next (mem_of_mem_head? hhead)
    omega
  rw [h.addTo, if_neg (by omega), absorbNext_apart hapart] at hdisjoint
  obtain ⟨-, hd, -⟩ := pairwise_append.1 hdisjoint
  have := (pairwise_cons.1 hd).1 (i.lo, i.hi) mem_cons_self
  omega

/-- An addition after which the intervals do not overlap, and all chunk ids are still there, is one
of a set. -/
theorem CutAt.addOk (hspaced : Spaced m)
    (hdisjoint : (IntervalSet.addTo m i.lo i.hi).Pairwise fun e f => e.2 < f.1)
    (hcovers : ∀ v, v < 2 ^ 32 → Covers m v ∨ i.Contains v →
      Covers (IntervalSet.addTo m i.lo i.hi) v) : AddOk m i := by
  refine ⟨fun hnil => ?_, ?_, ?_, ?_⟩
  · rw [h.eq] at hnil
    exact absurd hnil (append_ne_nil_of_right_ne_nil _ (cons_ne_nil _ _))
  · rw [h.above]
    intro next hhead hreach
    have htop := h.lt_top_of_next hspaced hdisjoint hhead
    exact ⟨h.le_of_reach hspaced hcovers hhead hreach htop, htop⟩
  · rw [h.upTo, h.above, getLast?_concat]
    rintro _ ⟨⟩ htouch
    by_cases hreach : ∃ next, after.head? = some next ∧ next.1 ≤ i.hi + 1
    · exact .inr hreach
    · refine .inl (h.le_of_touch hspaced hdisjoint hcovers htouch fun next hhead => ?_)
      exact not_le.1 fun hle => hreach ⟨next, hhead, hle⟩
  · rw [h.upTo, getLast?_concat]
    rintro _ ⟨⟩ htop
    exact h.eq_of_top hspaced hdisjoint htop

end

end

/-! ## Sequences of additions -/

/-- The set after some additions to the empty one. -/
def addAll (adds : List Interval) : IntervalSet :=
  adds.foldl (fun s i => s.add i.lo i.hi) empty

theorem intervals_addAll_concat (adds : List Interval) (i : Interval) :
    (addAll (adds ++ [i])).intervals = addTo (addAll adds).intervals i.lo i.hi := by
  rw [addAll, foldl_append, ← intervals_add]
  rfl

end IntervalSet

/-- After some additions a set is a set: every lookup is defined and finds exactly the chunk ids
that have been added, and the stored intervals are well formed and disjoint. -/
structure IntervalSetOk (adds : List Interval) (s : IntervalSet) : Prop where
  inside : ∀ v, v < 2 ^ 32 → ∃ found, s.isInsideInterval v = some found ∧
    (found = true ↔ ∃ i ∈ adds, i.Contains v)
  wellFormed : ∀ e ∈ s.intervals, e.1 ≤ e.2
  disjoint : s.intervals.Pairwise fun e f => e.2 < f.1

namespace IntervalSet

/-- What additions of a set keep: the stored intervals are spaced, cover what has been added, and
one of them starts at 0. -/
structure Good (adds : List Interval) : Prop where
  spaced : Spaced (addAll adds).intervals
  covers : ∀ v, Covers (addAll adds).intervals v ↔ ∃ i ∈ adds, i.Contains v
  zero : adds ≠ [] → ∃ e ∈ (addAll adds).intervals, e.1 = 0

theorem good_nil : Good [] where
  spaced := ⟨fun _ he => absurd he not_mem_nil, List.Pairwise.nil⟩
  covers := fun v => by simp [addAll, empty]
  zero := fun h => absurd rfl h

section
variable {adds : List Interval} {i : Interval} {s : IntervalSet} {v : Nat}

/-- The first addition stores its interval. -/
theorem intervals_addAll_singleton (i : Interval) :
    (addAll ([] ++ [i])).intervals = [(i.lo, i.hi)] := rfl

/-- A set that covers a chunk id has an interval from 0 on, so every addition and every lookup finds
a previous interval. -/
theorem Good.exists_cutAt (h : Good adds) (hne : adds ≠ []) (v : Nat) :
    ∃ init prev after, CutAt (addAll adds).intervals init prev after v := by
  obtain ⟨e, he, hzero⟩ := h.zero hne
  exact IntervalSet.exists_cutAt (addAll adds).sorted ⟨e, he, by omega⟩

/-- An addition keeps the set good. -/
theorem Good.concat (h : Good adds) (hok : AddOk (addAll adds).intervals i) :
    Good (adds ++ [i]) := by
  by_cases hne : adds = []
  · subst hne
    have hzero : i.lo = 0 := hok.first rfl
    have hi := i.le
    refine ⟨?_, fun v => ?_, fun _ => ?_⟩
    · rw [intervals_addAll_singleton]
      exact ⟨fun e he => by rw [mem_singleton.1 he]; exact ⟨i.le, i.lt⟩,
        pairwise_singleton _ _⟩
    · rw [intervals_addAll_singleton]
      simp [Interval.Contains]
    · rw [intervals_addAll_singleton]
      exact ⟨_, mem_singleton_self _, hzero⟩
  · obtain ⟨init, prev, after, hcut⟩ := h.exists_cutAt hne i.lo
    obtain ⟨hspaced, hcovers⟩ := hcut.addTo_spec h.spaced hok
    have hstep := intervals_addAll_concat adds i
    refine ⟨hstep ▸ hspaced, fun v => ?_, fun _ => ?_⟩
    · rw [hstep, hcovers, h.covers]
      simp [or_comm]
    · -- 0 is still covered, and no interval starts below it
      obtain ⟨e, he, hzero⟩ := h.zero hne
      have hcover : Covers (addTo (addAll adds).intervals i.lo i.hi) 0 :=
        (hcovers 0).2 (.inl ⟨e, he, by omega, by omega⟩)
      obtain ⟨f, hf, hstart, -⟩ := hcover
      exact ⟨f, hstep ▸ hf, by omega⟩

/-- A lookup in spaced intervals finds what they cover. -/
theorem CutAt.found_iff {init after : List (Nat × Nat)} {prev : Nat × Nat}
    (h : CutAt s.intervals init prev after v) (hspaced : Spaced s.intervals) :
    v ≤ prev.2 ↔ Covers s.intervals v := by
  have hparts := spaced_middle.1 (h.eq ▸ hspaced)
  obtain ⟨-, -, -, hlow, -⟩ := hparts
  have hprev := h.prev
  rw [h.eq, covers_append, covers_cons]
  constructor
  · exact fun hle => .inr (.inl ⟨hprev, hle⟩)
  · rintro (⟨e, he, -, hev⟩ | hc | ⟨f, hf, hfv, -⟩)
    · have := hlow e he
      omega
    · exact hc.2
    · have := h.after f hf
      omega

/-- A good set is exact. -/
theorem Good.intervalSetOk (h : Good adds) (hne : adds ≠ []) :
    IntervalSetOk adds (addAll adds) := by
  refine ⟨fun v _ => ?_, fun e he => (h.spaced.wellFormed e he).1,
    h.spaced.gap.imp fun hgap => by omega⟩
  obtain ⟨init, prev, after, hcut⟩ := h.exists_cutAt hne v
  refine ⟨_, hcut.isInsideInterval, ?_⟩
  rw [decide_eq_true_iff, hcut.found_iff h.spaced, h.covers]

/-- What a lookup finds is covered. -/
theorem covers_of_isInsideInterval
    (h : s.isInsideInterval v = some true) : Covers s.intervals v := by
  obtain ⟨suspect, hlast, hfound⟩ := Option.map_eq_some_iff.1 h
  rw [Bool.and_eq_true, decide_eq_true_iff, decide_eq_true_iff] at hfound
  have hmem : suspect ∈ upTo v s.intervals := mem_of_mem_getLast? hlast
  refine ⟨suspect, ?_, hfound⟩
  rw [← upTo_append_above v s.intervals]
  exact mem_append_left _ hmem

/-- An addition after which the set is one is an addition of a set. -/
theorem Good.addOk (h : Good adds)
    (hok : IntervalSetOk (adds ++ [i]) (addAll (adds ++ [i]))) :
    AddOk (addAll adds).intervals i := by
  by_cases hne : adds = []
  · subst hne
    obtain ⟨found, hfound, -⟩ := hok.inside 0 (by decide)
    -- the lookup of 0 has to find the interval, which starts at 0 then
    have hzero : i.lo = 0 := by
      by_contra hpos
      have hnil : upTo 0 (addAll ([] ++ [i])).intervals = [] := by
        rw [intervals_addAll_singleton]
        refine upTo_eq_nil fun e he => ?_
        rw [mem_singleton.1 he]
        omega
      rw [isInsideInterval, hnil] at hfound
      exact nomatch hfound
    refine ⟨fun _ => hzero, ?_, ?_, ?_⟩ <;> exact fun _ hnone => nomatch hnone
  · obtain ⟨init, prev, after, hcut⟩ := h.exists_cutAt hne i.lo
    have hstep := intervals_addAll_concat adds i
    refine hcut.addOk h.spaced (hstep ▸ hok.disjoint) fun v hv hc => ?_
    obtain ⟨found, hfound, hiff⟩ := hok.inside v hv
    have htrue : found = true := by
      rw [hiff]
      rcases hc with hc | hc
      · obtain ⟨j, hj, hjv⟩ := (h.covers v).1 hc
        exact ⟨j, mem_append_left _ hj, hjv⟩
      · exact ⟨i, mem_append_right _ mem_cons_self, hc⟩
    rw [htrue] at hfound
    exact hstep ▸ covers_of_isInsideInterval hfound

end

end IntervalSet

/-- If every addition that follows a good sequence is one of a set, then all are good. -/
theorem IntervalSet.good_of_steps {adds : List Interval}
    (h : ∀ done i, done ++ [i] <+: adds → Good done → AddOk (addAll done).intervals i) :
    ∀ done, done <+: adds → Good done := by
  intro done
  induction done using List.reverseRecOn with
  | nil => exact fun _ => good_nil
  | append_singleton done i ih =>
    intro hinit
    have hdone := ih ((prefix_append done [i]).trans hinit)
    exact hdone.concat (h done i hinit hdone)

/-- When the set is a set after every one of a sequence of additions: when each of them is an
addition of a set. -/
theorem intervalSetOk_iff (adds : List Interval) :
    (∀ done, done <+: adds → done ≠ [] → IntervalSetOk done (IntervalSet.addAll done)) ↔
      ∀ done i, done ++ [i] <+: adds → IntervalSet.AddOk (IntervalSet.addAll done).intervals i := by
  constructor
  · intro h
    have hstep : ∀ done i, done ++ [i] <+: adds → IntervalSet.Good done →
        IntervalSet.AddOk (IntervalSet.addAll done).intervals i :=
      fun done i hinit hdone => hdone.addOk (h _ hinit (by simp))
    intro done i hinit
    exact hstep done i hinit
      (IntervalSet.good_of_steps hstep done ((prefix_append done [i]).trans hinit))
  · intro h done hinit hne
    have hgood := IntervalSet.good_of_steps (fun done i hinit _ => h done i hinit) done hinit
    exact hgood.intervalSetOk hne

/-- Chunk ids are lost: adding 2 to 3 to the interval 0 to 10 leaves the interval 0 to 3. And a set
that has only the interval 5 to 6 has no answer for 4. -/
theorem intervalSet_loses :
    ¬ IntervalSetOk [⟨0, 10, by decide, by decide⟩, ⟨2, 3, by decide, by decide⟩]
        (IntervalSet.addAll [⟨0, 10, by decide, by decide⟩, ⟨2, 3, by decide, by decide⟩]) ∧
      ¬ IntervalSetOk [⟨5, 6, by decide, by decide⟩]
        (IntervalSet.addAll [⟨5, 6, by decide, by decide⟩]) := by
  constructor
  · intro h
    obtain ⟨found, hfound, hiff⟩ := h.inside 7 (by decide)
    cases hfound
    exact absurd (hiff.2 ⟨_, mem_cons_self, by decide, by decide⟩) (by decide)
  · intro h
    obtain ⟨found, hfound, -⟩ := h.inside 4 (by decide)
    exact nomatch hfound

end GekkoFS
