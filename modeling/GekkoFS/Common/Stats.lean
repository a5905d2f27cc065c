import Mathlib.Algebra.Order.BigOperators.Group.List
import Mathlib.Algebra.Order.Group.Nat
import Mathlib.Algebra.Ring.Nat
import Mathlib.Data.List.Induction
import Mathlib.Logic.Function.Basic

/-!
# Statistics windows

A daemon counts its operations and their sizes. `Stats` keeps a deque of time stamps for each kind
of operation, and one of time stamps and sizes for reads and writes; `get_four_means` adds up what
lies in the last one, five and ten minutes.

An insertion drops the front of its deque if that is older than ten seconds or if the deque is full,
so no sample is dropped that is younger and among the last `max_stats` (`retained_pushAll`). But it
drops one sample only, so after a pause old samples stay in front of new ones, and the loop over the
samples, oldest first, ends at the first one that is older than ten minutes: then it counts nothing.
The windows are right if the front is not that old, or everything is (`statsOk`); for the number of
operations this is also necessary (`iopsWindows_iff`).

Times are in nanoseconds. The sums are doubles, in which whole numbers are exact up to `2 ^ 53`. The
totals since the start, which `get_mean` uses, and the output for Prometheus are left out.
-/

namespace GekkoFS

open Function List

/-! ## Sums of whole numbers in doubles -/

/-- The double next to a whole number, of two the one with the even significand. -/
def toDouble (n : Nat) : Nat :=
  if n < 2 ^ 53 then n
  else
    let shift := Nat.log2 n - 52
    let significand := n / 2 ^ shift
    let rest := n % 2 ^ shift
    if 2 ^ (shift - 1) < rest ∨ rest = 2 ^ (shift - 1) ∧ significand % 2 = 1 then
      (significand + 1) * 2 ^ shift
    else significand * 2 ^ shift

/-- `+=` on a double with an integer. -/
def addDouble (sum value : Nat) : Nat := toDouble (sum + toDouble value)

theorem toDouble_of_le {n : Nat} (h : n ≤ 2 ^ 53) : toDouble n = n := by
  rcases Nat.lt_or_eq_of_le h with h | rfl
  · rw [toDouble, if_pos h]
  · decide

/-- Sums up to `2 ^ 53` are exact. -/
theorem addDouble_of_le {sum value : Nat} (h : sum + value ≤ 2 ^ 53) :
    addDouble sum value = sum + value := by
  rw [addDouble, toDouble_of_le (n := value) (by omega), toDouble_of_le h]

/-! ## A deque of samples -/

/-- Ten seconds, in nanoseconds. -/
def tenSeconds : Nat := 10 * 1000000000

/-- One minute, in nanoseconds. -/
def minute : Nat := 60 * 1000000000

/-- `gkfs::config::stats::max_stats` (`config.hpp:172`). -/
def maxStats : Nat := 1000000

/-- A deque that is never empty: the constructor stores one sample, and samples are only dropped
before one is stored. -/
structure Samples (α : Type) where
  front : α
  rest : List α

/-- The three sums of `get_four_means`: those of the last one, five and ten minutes. -/
structure Windows where
  one : Nat
  five : Nat
  ten : Nat
  deriving DecidableEq

namespace Samples

variable {α : Type}

/-- The samples, oldest first. -/
def toList (d : Samples α) : List α := d.front :: d.rest

/-- `push_back`. -/
def pushBack : List α → α → Samples α
  | [], e => ⟨e, []⟩
  | front :: rest, e => ⟨front, rest ++ [e]⟩

/-- Store a sample. At most one old sample is dropped. The clock is read again for the new sample.
Source: `add_value_iops` (`stats.cpp:178`) and `add_value_size` (`stats.cpp:195`). -/
def push (time : α → Nat) (d : Samples α) (now : Nat) (e : α) : Samples α :=
  pushBack (if tenSeconds < now - time d.front then d.rest
    else if maxStats ≤ d.toList.length then d.rest else d.toList) e

/-- The age of a sample in whole minutes. -/
def age (time : α → Nat) (now : Nat) (e : α) : Nat := (now - time e) / minute

/-- The loop over the samples. Source: `get_four_means` (`stats.cpp:246`, `stats.cpp:277`). -/
def accumulate (time weight : α → Nat) (now : Nat) : List α → Windows → Windows
  | [], results => results
  | e :: samples, results =>
    let duration := age time now e
    if duration > 10 then results
    else
      let results := { results with ten := addDouble results.ten (weight e) }
      if duration > 5 then accumulate time weight now samples results
      else
        let results := { results with five := addDouble results.five (weight e) }
        if duration > 1 then accumulate time weight now samples results
        else
          accumulate time weight now samples
            { results with one := addDouble results.one (weight e) }

/-- The sum over the samples that are at most some minutes old. -/
def windowSum (time weight : α → Nat) (now minutes : Nat) (samples : List α) : Nat :=
  ((samples.filter fun e => age time now e ≤ minutes).map weight).sum

/-- What the loop should add up. -/
def exactWindows (time weight : α → Nat) (now : Nat) (samples : List α) : Windows :=
  ⟨windowSum time weight now 1 samples, windowSum time weight now 5 samples,
    windowSum time weight now 10 samples⟩

/-- The front is not older than ten minutes, or all samples are. -/
def Fresh (time : α → Nat) (now : Nat) (d : Samples α) : Prop :=
  age time now d.front ≤ 10 ∨ ∀ e ∈ d.toList, 10 < age time now e

/-- The deque has the last samples of a history, and has dropped no sample that is at most ten
seconds old and among the last `maxStats` ones. -/
def Retained (time : α → Nat) (now : Nat) (history : List α) (d : Samples α) : Prop :=
  ∃ dropped, history = dropped ++ d.toList ∧ ∀ i e, dropped[i]? = some e →
    ¬ (now - time e ≤ tenSeconds ∧ history.length ≤ i + maxStats)

end Samples

/-! ## The statistics -/

/-- Source: `IopsOp` (`stats.hpp:92`). -/
inductive IopsOp
  | iopsCreate
  | iopsWrite
  | iopsRead
  | iopsStats
  | iopsDirent
  | iopsRemove
  deriving DecidableEq

/-- Source: `SizeOp` (`stats.hpp:101`). -/
inductive SizeOp
  | writeSize
  | readSize
  deriving DecidableEq

/-- The deques. Source: `Stats` (`stats.hpp:90`). -/
structure Stats where
  timeIops : IopsOp → Samples Nat
  timeSize : SizeOp → Samples (Nat × UInt64)

/-- A call with the clock readings that it makes. -/
inductive StatsCall
  | iops (op : IopsOp) (now stored : Nat)
  | size (op : SizeOp) (value : UInt64) (now stored nowIops storedIops : Nat)

/-- The operation that is counted with a size. Source: `add_value_size` (`stats.cpp:207`). -/
def SizeOp.iopsOp : SizeOp → IopsOp
  | .readSize => .iopsRead
  | .writeSize => .iopsWrite

namespace Stats

/-- Source: `add_value_iops` (`stats.cpp:173`). -/
def addValueIops (s : Stats) (op : IopsOp) (now stored : Nat) : Stats :=
  { s with timeIops := update s.timeIops op ((s.timeIops op).push id now stored) }

/-- Source: `add_value_size` (`stats.cpp:191`). -/
def addValueSize (s : Stats) (op : SizeOp) (value : UInt64)
    (now stored nowIops storedIops : Nat) : Stats :=
  let samples := (s.timeSize op).push Prod.fst now (stored, value)
  let s := { s with timeSize := update s.timeSize op samples }
  s.addValueIops op.iopsOp nowIops storedIops

/-- The statistics after a call. -/
def call (s : Stats) : StatsCall → Stats
  | .iops op now stored => s.addValueIops op now stored
  | .size op value now stored nowIops storedIops =>
    s.addValueSize op value now stored nowIops storedIops

/-- The sums of `get_four_means`, before they are divided. Source: `get_four_means`
(`stats.cpp:271`). -/
def iopsWindows (s : Stats) (op : IopsOp) (now : Nat) : Windows :=
  Samples.accumulate id (fun _ => 1) now (s.timeIops op).toList ⟨0, 0, 0⟩

/-- The sums of `get_four_means`, before they are divided. Source: `get_four_means`
(`stats.cpp:241`). -/
def sizeWindows (s : Stats) (op : SizeOp) (now : Nat) : Windows :=
  Samples.accumulate Prod.fst (fun e => e.2.toNat) now (s.timeSize op).toList ⟨0, 0, 0⟩

end Stats

/-- The clock readings of a call. -/
def StatsCall.clock : StatsCall → List Nat
  | .iops _ now stored => [now, stored]
  | .size _ _ now stored nowIops storedIops => [now, stored, nowIops, storedIops]

namespace Samples

variable {α : Type} {time weight : α → Nat} {now : Nat} {d : Samples α} {history samples : List α}
  {pushes : List (Nat × α)} {minutes : Nat}

/-! ## What a deque keeps -/

theorem toList_pushBack (l : List α) (e : α) : (pushBack l e).toList = l ++ [e] := by
  cases l <;> rfl

/-- What an insertion does: the front stays, or it is dropped because it is old or because the deque
is full. -/
theorem toList_push (time : α → Nat) (d : Samples α) (now : Nat) (e : α) :
    (d.push time now e).toList = d.toList ++ [e] ∧ d.toList.length < maxStats ∨
      (d.push time now e).toList = d.rest ++ [e] ∧
        (tenSeconds < now - time d.front ∨ maxStats ≤ d.toList.length) := by
  rw [push, toList_pushBack]
  split
  · next hold => exact .inr ⟨rfl, .inl hold⟩
  · split
    · next hfull => exact .inr ⟨rfl, .inr hfull⟩
    · next hfull => exact .inl ⟨rfl, not_le.1 hfull⟩

/-- The deque does not grow beyond `maxStats`. -/
theorem length_push (h : d.toList.length ≤ maxStats) (now : Nat) (e : α) :
    (d.push time now e).toList.length ≤ maxStats := by
  have hlen : d.toList.length = d.rest.length + 1 := rfl
  rcases toList_push time d now e with ⟨heq, hlt⟩ | ⟨heq, -⟩
  · rw [heq, length_append, length_singleton]
    exact hlt
  · rw [heq, length_append, length_singleton, ← hlen]
    exact h

/-- What has been dropped by some time has been dropped later. -/
theorem Retained.mono {now' : Nat}
    (h : Retained time now history d) (hle : now ≤ now') : Retained time now' history d := by
  obtain ⟨dropped, hhistory, hdropped⟩ := h
  exact ⟨dropped, hhistory, fun i e he hboth => hdropped i e he ⟨by omega, hboth.2⟩⟩

/-- An insertion drops no sample that has to be kept. -/
theorem Retained.push (h : Retained time now history d) (e : α) :
    Retained time now (history ++ [e]) (d.push time now e) := by
  obtain ⟨dropped, rfl, hdropped⟩ := h
  rcases toList_push time d now e with ⟨heq, -⟩ | ⟨heq, hwhy⟩
  · refine ⟨dropped, by rw [heq, append_assoc], fun i e' he' hboth => ?_⟩
    refine hdropped i e' he' ⟨hboth.1, ?_⟩
    have hlen := hboth.2
    rw [length_append] at hlen
    omega
  · refine ⟨dropped ++ [d.front], by rw [heq, toList]; simp, fun i e' he' hboth => ?_⟩
    have hlen := hboth.2
    rw [length_append, length_append, length_singleton] at hlen
    rcases Nat.lt_or_ge i dropped.length with hi | hi
    · rw [getElem?_append_left hi] at he'
      refine hdropped i e' he' ⟨hboth.1, ?_⟩
      rw [length_append]
      omega
    · -- the sample that is dropped now is the front
      rw [getElem?_append_right hi] at he'
      obtain ⟨hzero, hfront⟩ := List.getElem?_eq_some_iff.1 he'
      rw [length_singleton] at hzero
      have hindex : i = dropped.length := by omega
      subst hindex
      simp only [Nat.sub_self, getElem_cons_zero] at hfront
      subst hfront
      omega

/-- The deque after some insertions, each with the time at which it looks at the front. -/
def pushAll (time : α → Nat) (start : α) (pushes : List (Nat × α)) : Samples α :=
  pushes.foldl (fun d p => d.push time p.1 p.2) ⟨start, []⟩

/-- The times of some insertions. -/
def clockOf (time : α → Nat) (pushes : List (Nat × α)) : List Nat :=
  pushes.flatMap fun p => [p.1, time p.2]

theorem pushAll_concat (start : α) (pushes : List (Nat × α)) (p : Nat × α) :
    pushAll time start (pushes ++ [p]) = (pushAll time start pushes).push time p.1 p.2 := by
  rw [pushAll, foldl_append]
  rfl

theorem clockOf_concat (pushes : List (Nat × α)) (p : Nat × α) :
    clockOf time (pushes ++ [p]) = clockOf time pushes ++ [p.1, time p.2] := by
  simp [clockOf]

theorem length_pushAll (time : α → Nat) (start : α) (pushes : List (Nat × α)) :
    (pushAll time start pushes).toList.length ≤ maxStats := by
  induction pushes using List.reverseRecOn with
  | nil => exact (by decide : 1 ≤ maxStats)
  | append_singleton pushes p ih =>
    rw [pushAll_concat]
    exact length_push ih p.1 p.2

/-- Insertions at nondecreasing times drop no sample that has to be kept. -/
theorem retained_pushAll (start : α)
    (h : (clockOf time pushes ++ [now]).Pairwise (· ≤ ·)) :
    Retained time now (start :: pushes.map Prod.snd) (pushAll time start pushes) := by
  induction pushes using List.reverseRecOn generalizing now with
  | nil =>
    exact ⟨[], rfl, fun i e he => nomatch he⟩
  | append_singleton pushes p ih =>
    rw [clockOf_concat, append_assoc, pairwise_append] at h
    obtain ⟨hbefore, hafter, hcross⟩ := h
    have hnow : p.1 ≤ now := (pairwise_cons.1 hafter).1 now (by simp)
    have hpushes : (clockOf time pushes ++ [p.1]).Pairwise (· ≤ ·) := by
      refine pairwise_append.2 ⟨hbefore, pairwise_singleton _ _, fun a ha b hb => ?_⟩
      rw [mem_singleton.1 hb]
      exact hcross a ha p.1 mem_cons_self
    rw [pushAll_concat, map_append, map_singleton, ← cons_append]
    exact ((ih hpushes).push p.2).mono hnow

/-- The times of the samples do not decrease. -/
theorem pairwise_pushAll (time : α → Nat) (start : α)
    (h : (time start :: clockOf time pushes ++ [now]).Pairwise (· ≤ ·)) :
    (pushAll time start pushes).toList.Pairwise fun e f => time e ≤ time f := by
  obtain ⟨hstart, hclock⟩ := pairwise_cons.1 h
  have hsublist : ∀ pushes : List (Nat × α),
      ((pushes.map Prod.snd).map time).Sublist (clockOf time pushes) := by
    intro pushes
    induction pushes with
    | nil => exact List.Sublist.refl _
    | cons p pushes ih =>
      rw [map_cons, map_cons, clockOf, flatMap_cons, ← clockOf]
      exact List.Sublist.cons _ (List.Sublist.cons_cons _ ih)
  have hhistory : (start :: pushes.map Prod.snd).Pairwise fun e f => time e ≤ time f := by
    refine pairwise_map.1 (h.sublist ?_)
    rw [map_cons, cons_append]
    exact List.Sublist.cons_cons _ ((hsublist pushes).trans (sublist_append_left _ _))
  obtain ⟨dropped, heq, -⟩ := retained_pushAll start hclock
  rw [heq] at hhistory
  exact (pairwise_append.1 hhistory).2.1

/-! ## What the loop adds up -/

/-- The sum over a window, sample by sample. -/
theorem windowSum_cons (minutes : Nat) (e : α) (samples : List α) :
    windowSum time weight now minutes (e :: samples) =
      (if age time now e ≤ minutes then weight e else 0) +
        windowSum time weight now minutes samples := by
  rw [windowSum, filter_cons]
  split
  · next h =>
    rw [map_cons, sum_cons, if_pos (of_decide_eq_true h)]
    rfl
  · next h =>
    rw [if_neg fun hle => h (decide_eq_true hle), Nat.zero_add]
    rfl

/-- A longer window has a greater sum. -/
theorem windowSum_mono (time weight : α → Nat) (now : Nat) {minutes' : Nat}
    (h : minutes ≤ minutes') (samples : List α) :
    windowSum time weight now minutes samples ≤ windowSum time weight now minutes' samples := by
  induction samples with
  | nil => exact Nat.le_refl _
  | cons e samples ih =>
    rw [windowSum_cons, windowSum_cons]
    split <;> split <;> omega

theorem windowSum_eq_zero (h : ∀ e ∈ samples, minutes < age time now e) :
    windowSum time weight now minutes samples = 0 := by
  rw [windowSum, filter_eq_nil_iff.2 fun e he hle => ?_]
  · rfl
  · exact absurd (of_decide_eq_true hle) (not_le.2 (h e he))

/-- If no sample is too old, the loop adds up the three windows, as long as the sums are exact in
doubles. -/
theorem accumulate_fresh (hfresh : ∀ e ∈ samples, age time now e ≤ 10)
    {results : Windows} (hone : results.one + windowSum time weight now 1 samples ≤ 2 ^ 53)
    (hfive : results.five + windowSum time weight now 5 samples ≤ 2 ^ 53)
    (hten : results.ten + windowSum time weight now 10 samples ≤ 2 ^ 53) :
    accumulate time weight now samples results =
      ⟨results.one + windowSum time weight now 1 samples,
        results.five + windowSum time weight now 5 samples,
        results.ten + windowSum time weight now 10 samples⟩ := by
  induction samples generalizing results with
  | nil => rfl
  | cons e samples ih =>
    have hage := hfresh e mem_cons_self
    have hrest : ∀ e ∈ samples, age time now e ≤ 10 := fun e' he' =>
      hfresh e' (mem_cons_of_mem e he')
    rw [windowSum_cons] at hone hfive hten
    rw [windowSum_cons, windowSum_cons, windowSum_cons, if_pos hage]
    rw [if_pos hage] at hten
    rw [accumulate]
    dsimp only
    rw [if_neg (not_lt.2 hage), addDouble_of_le (by omega)]
    by_cases h5 : age time now e > 5
    · rw [if_neg (by omega)] at hone hfive
      rw [if_pos h5, if_neg (by omega), if_neg (by omega), ih hrest (by dsimp only; omega)
        (by dsimp only; omega) (by dsimp only; omega)]
      simp only [Nat.zero_add, Nat.add_assoc]
    · rw [if_pos (by omega)] at hfive
      rw [if_neg h5, if_pos (show age time now e ≤ 5 by omega), addDouble_of_le (by omega)]
      by_cases h1 : age time now e > 1
      · rw [if_neg (by omega)] at hone
        rw [if_pos h1, if_neg (by omega), ih hrest (by dsimp only; omega) (by dsimp only; omega)
          (by dsimp only; omega)]
        simp only [Nat.zero_add, Nat.add_assoc]
      · rw [if_pos (by omega)] at hone
        rw [if_neg h1, if_pos (show age time now e ≤ 1 by omega), addDouble_of_le (by omega),
          ih hrest (by dsimp only; omega) (by dsimp only; omega) (by dsimp only; omega)]
        simp only [Nat.add_assoc]

/-- An old front ends the loop. -/
theorem accumulate_old (h : 10 < age time now d.front) (results : Windows) :
    accumulate time weight now d.toList results = results := by
  rw [toList, accumulate]
  dsimp only
  rw [if_pos h]

section
variable {d : Samples α} (htimes : d.toList.Pairwise fun e f => time e ≤ time f)

include htimes

/-- No sample is older than the front. -/
theorem age_le_front {e : α} (he : e ∈ d.toList) : age time now e ≤ age time now d.front := by
  rcases mem_cons.1 he with rfl | he
  · exact Nat.le_refl _
  · have htime := (pairwise_cons.1 htimes).1 e he
    exact Nat.div_le_div_right (by omega)

/-- The loop is right if the deque is fresh and its sum is exact in doubles. -/
theorem accumulate_exact (hfresh : Fresh time now d)
    (hsum : windowSum time weight now 10 d.toList ≤ 2 ^ 53) :
    accumulate time weight now d.toList ⟨0, 0, 0⟩ = exactWindows time weight now d.toList := by
  have hfive := windowSum_mono time weight now (show 5 ≤ 10 by decide) d.toList
  have hone := windowSum_mono time weight now (show 1 ≤ 10 by decide) d.toList
  rw [exactWindows]
  rcases hfresh with hfront | hold
  · have hall : ∀ e ∈ d.toList, age time now e ≤ 10 := fun e he =>
      (age_le_front htimes he).trans hfront
    rw [accumulate_fresh hall (by dsimp only; omega) (by dsimp only; omega) (by dsimp only; omega)]
    simp only [Nat.zero_add]
  · rw [accumulate_old (hold d.front mem_cons_self),
      windowSum_eq_zero fun e he => by have := hold e he; omega,
      windowSum_eq_zero fun e he => by have := hold e he; omega, windowSum_eq_zero hold]

omit htimes in
/-- A loop that counts every sample is right only if the deque is fresh. -/
theorem fresh_of_accumulate (hweight : ∀ e, 0 < weight e)
    (h : accumulate time weight now d.toList ⟨0, 0, 0⟩ = exactWindows time weight now d.toList) :
    Fresh time now d := by
  by_cases hfront : age time now d.front ≤ 10
  · exact .inl hfront
  · refine .inr fun e he => ?_
    by_contra hage
    rw [accumulate_old (not_le.1 hfront)] at h
    have hten : 0 = windowSum time weight now 10 d.toList := congrArg Windows.ten h
    have hmem : weight e ∈ (d.toList.filter fun e => age time now e ≤ 10).map weight :=
      mem_map_of_mem (mem_filter.2 ⟨he, decide_eq_true (not_lt.1 hage)⟩)
    have hle := le_sum_of_mem hmem
    have hpos := hweight e
    rw [windowSum] at hten
    omega

end

end Samples

/-! ## Runs -/

/-- The constructor, some calls and a query, with clock readings that do not decrease. -/
structure StatsRun where
  iopsStart : IopsOp → Nat
  sizeStart : SizeOp → Nat
  calls : List StatsCall
  query : Nat
  iopsClock : ∀ op, (iopsStart op :: calls.flatMap StatsCall.clock ++ [query]).Pairwise (· ≤ ·)
  sizeClock : ∀ op, (sizeStart op :: calls.flatMap StatsCall.clock ++ [query]).Pairwise (· ≤ ·)

/-- The insertions of a call into the deque of an operation. -/
def StatsCall.iopsPushes (op : IopsOp) : StatsCall → List (Nat × Nat)
  | .iops op' now stored => if op' = op then [(now, stored)] else []
  | .size op' _ _ _ nowIops storedIops =>
    if op'.iopsOp = op then [(nowIops, storedIops)] else []

/-- The insertions of a call into the deque of sizes of an operation. -/
def StatsCall.sizePushes (op : SizeOp) : StatsCall → List (Nat × (Nat × UInt64))
  | .iops _ _ _ => []
  | .size op' value now stored _ _ => if op' = op then [(now, (stored, value))] else []

namespace Stats

/-- A call inserts into the deque of an operation what it has for it. -/
theorem timeIops_call (s : Stats) (c : StatsCall) (op : IopsOp) :
    (s.call c).timeIops op =
      (c.iopsPushes op).foldl (fun d p => d.push id p.1 p.2) (s.timeIops op) := by
  cases c with
  | iops op' now stored =>
    rw [call, addValueIops, StatsCall.iopsPushes]
    split
    · next heq =>
      subst heq
      exact update_self _ _ _
    · next hne => exact update_of_ne (Ne.symm hne) _ _
  | size op' value now stored nowIops storedIops =>
    rw [call, addValueSize, addValueIops, StatsCall.iopsPushes]
    split
    · next heq =>
      subst heq
      exact update_self _ _ _
    · next hne => exact update_of_ne (Ne.symm hne) _ _

/-- What a call pushes to a list of sizes. -/
theorem timeSize_call (s : Stats) (c : StatsCall) (op : SizeOp) :
    (s.call c).timeSize op =
      (c.sizePushes op).foldl (fun d p => d.push Prod.fst p.1 p.2) (s.timeSize op) := by
  cases c with
  | iops op' now stored => rfl
  | size op' value now stored nowIops storedIops =>
    rw [call, addValueSize, addValueIops, StatsCall.sizePushes]
    split
    · next heq =>
      subst heq
      exact update_self _ _ _
    · next hne => exact update_of_ne (Ne.symm hne) _ _

/-- What each call inserts into a deque, all calls insert into it one after another. -/
theorem deque_calls {α : Type} (deque : Stats → Samples α) {time : α → Nat}
    {pushes : StatsCall → List (Nat × α)}
    (hcall : ∀ s c, deque (s.call c) =
      (pushes c).foldl (fun d p => d.push time p.1 p.2) (deque s))
    (s : Stats) (calls : List StatsCall) :
    deque (calls.foldl call s) =
      (calls.flatMap pushes).foldl (fun d p => d.push time p.1 p.2) (deque s) := by
  induction calls generalizing s with
  | nil => rfl
  | cons c calls ih => rw [foldl_cons, ih, hcall, flatMap_cons, foldl_append]

end Stats

/-- If the readings for the insertions of each call are among those of the call, then so are those
of all calls. -/
theorem StatsCall.clockOf_flatMap {α : Type} {time : α → Nat} {pushes : StatsCall → List (Nat × α)}
    (hcall : ∀ c : StatsCall, (Samples.clockOf time (pushes c)).Sublist c.clock)
    (calls : List StatsCall) :
    (Samples.clockOf time (calls.flatMap pushes)).Sublist (calls.flatMap StatsCall.clock) := by
  induction calls with
  | nil => exact List.Sublist.refl _
  | cons c calls ih =>
    rw [flatMap_cons, flatMap_cons, Samples.clockOf, flatMap_append,
      ← Samples.clockOf, ← Samples.clockOf]
    exact List.Sublist.append (hcall c) ih

theorem StatsCall.clockOf_iopsPushes (op : IopsOp) (c : StatsCall) :
    (Samples.clockOf id (c.iopsPushes op)).Sublist c.clock := by
  cases c with
  | iops op' now stored =>
    rw [iopsPushes]
    split
    · exact List.Sublist.refl _
    · exact nil_sublist _
  | size op' value now stored nowIops storedIops =>
    rw [iopsPushes]
    split
    · exact List.Sublist.cons _ (List.Sublist.cons _ (List.Sublist.refl _))
    · exact nil_sublist _

theorem StatsCall.clockOf_sizePushes (op : SizeOp) (c : StatsCall) :
    (Samples.clockOf Prod.fst (c.sizePushes op)).Sublist c.clock := by
  cases c with
  | iops op' now stored => exact nil_sublist _
  | size op' value now stored nowIops storedIops =>
    rw [sizePushes]
    split
    · exact List.Sublist.cons_cons _ (List.Sublist.cons_cons _ (nil_sublist _))
    · exact nil_sublist _

namespace StatsRun

variable (run : StatsRun)

/-- The statistics at the query. Source: the constructor `Stats` (`stats.cpp:83`). -/
def stats : Stats :=
  run.calls.foldl Stats.call
    ⟨fun op => ⟨run.iopsStart op, []⟩, fun op => ⟨(run.sizeStart op, 0), []⟩⟩

/-- All samples of an operation, that of the constructor first. -/
def iopsHistory (op : IopsOp) : List Nat :=
  run.iopsStart op :: (run.calls.flatMap (·.iopsPushes op)).map Prod.snd

/-- All samples with sizes of an operation, that of the constructor first. -/
def sizeHistory (op : SizeOp) : List (Nat × UInt64) :=
  (run.sizeStart op, 0) :: (run.calls.flatMap (·.sizePushes op)).map Prod.snd

/-- The query counts and sums up what it should, and every sample is there that has to be. -/
structure Ok : Prop where
  iops : ∀ op, run.stats.iopsWindows op run.query =
    Samples.exactWindows id (fun _ => 1) run.query (run.stats.timeIops op).toList
  size : ∀ op, run.stats.sizeWindows op run.query =
    Samples.exactWindows Prod.fst (fun e => e.2.toNat) run.query (run.stats.timeSize op).toList
  keptIops : ∀ op, Samples.Retained id run.query (run.iopsHistory op) (run.stats.timeIops op)
  keptSize : ∀ op,
    Samples.Retained Prod.fst run.query (run.sizeHistory op) (run.stats.timeSize op)

/-- The deques are fresh at the query, and the sizes of the last ten minutes have a sum that is
exact in doubles. -/
structure QueryOk : Prop where
  iops : ∀ op, Samples.Fresh id run.query (run.stats.timeIops op)
  size : ∀ op, Samples.Fresh Prod.fst run.query (run.stats.timeSize op)
  exact : ∀ op, Samples.windowSum Prod.fst (fun e => e.2.toNat) run.query 10
    (run.stats.timeSize op).toList ≤ 2 ^ 53

theorem timeIops_stats (op : IopsOp) :
    run.stats.timeIops op =
      Samples.pushAll id (run.iopsStart op) (run.calls.flatMap (·.iopsPushes op)) :=
  Stats.deque_calls (fun s => s.timeIops op) (fun s c => s.timeIops_call c op) _ _

theorem timeSize_stats (op : SizeOp) :
    run.stats.timeSize op =
      Samples.pushAll Prod.fst (run.sizeStart op, 0) (run.calls.flatMap (·.sizePushes op)) :=
  Stats.deque_calls (fun s => s.timeSize op) (fun s c => s.timeSize_call c op) _ _

/-- The readings for the insertions into one deque do not decrease. -/
theorem iopsPushes_clock (op : IopsOp) :
    (run.iopsStart op :: Samples.clockOf id (run.calls.flatMap (·.iopsPushes op)) ++
      [run.query]).Pairwise (· ≤ ·) := by
  have hclock := StatsCall.clockOf_flatMap (StatsCall.clockOf_iopsPushes op) run.calls
  exact (run.iopsClock op).sublist ((hclock.append (List.Sublist.refl _)).cons_cons _)

theorem sizePushes_clock (op : SizeOp) :
    (run.sizeStart op :: Samples.clockOf Prod.fst (run.calls.flatMap (·.sizePushes op)) ++
      [run.query]).Pairwise (· ≤ ·) := by
  have hclock := StatsCall.clockOf_flatMap (StatsCall.clockOf_sizePushes op) run.calls
  exact (run.sizeClock op).sublist ((hclock.append (List.Sublist.refl _)).cons_cons _)

/-- The counts of a query are right exactly if the deque is fresh. -/
theorem iopsWindows_iff (op : IopsOp) :
    run.stats.iopsWindows op run.query =
        Samples.exactWindows id (fun _ => 1) run.query (run.stats.timeIops op).toList ↔
      Samples.Fresh id run.query (run.stats.timeIops op) := by
  constructor
  · exact Samples.fresh_of_accumulate fun _ => Nat.one_pos
  · intro hfresh
    have htimes := Samples.pairwise_pushAll id _ (run.iopsPushes_clock op)
    rw [← timeIops_stats] at htimes
    refine Samples.accumulate_exact htimes hfresh ?_
    -- no more samples than the deque can have, each counts one
    have hlen := Samples.length_pushAll id (run.iopsStart op)
      (run.calls.flatMap (·.iopsPushes op))
    rw [← timeIops_stats] at hlen
    have hcount : ∀ samples : List Nat, Samples.windowSum id (fun _ => 1) run.query 10 samples =
        (samples.filter fun e => Samples.age id run.query e ≤ 10).length := fun samples => by
      rw [Samples.windowSum, map_const', sum_replicate_nat, Nat.mul_one]
    rw [hcount]
    exact (length_filter_le _ _).trans (hlen.trans (by decide))

/-- Every sample that has to be kept is kept. -/
theorem kept :
    (∀ op, Samples.Retained id run.query (run.iopsHistory op) (run.stats.timeIops op)) ∧
      ∀ op, Samples.Retained Prod.fst run.query (run.sizeHistory op) (run.stats.timeSize op) := by
  constructor
  · intro op
    rw [timeIops_stats]
    exact Samples.retained_pushAll _ (pairwise_cons.1 (run.iopsPushes_clock op)).2
  · intro op
    rw [timeSize_stats]
    exact Samples.retained_pushAll _ (pairwise_cons.1 (run.sizePushes_clock op)).2

end StatsRun

/-- A query that finds the deques fresh counts and sums up what it should. -/
theorem statsOk (run : StatsRun) (hok : run.QueryOk) : run.Ok := by
  refine ⟨fun op => (run.iopsWindows_iff op).2 (hok.iops op), fun op => ?_, run.kept.1,
    run.kept.2⟩
  have htimes := Samples.pairwise_pushAll Prod.fst (run.sizeStart op, 0) (run.sizePushes_clock op)
  rw [← run.timeSize_stats] at htimes
  exact Samples.accumulate_exact htimes (hok.size op) (hok.exact op)

/-- Statistics that start at 0, with a write of five bytes after one second and a create after two,
looked at after the given number of seconds. -/
def earlyCalls (query : Nat) (h : 2 ≤ query) : StatsRun where
  iopsStart := fun _ => 0
  sizeStart := fun _ => 0
  calls := [.size .writeSize 5 1000000000 1000000000 1000000000 1000000000,
    .iops .iopsCreate 2000000000 2000000000]
  query := query * 1000000000
  iopsClock := fun _ => by simp [StatsCall.clock]; omega
  sizeClock := fun _ => by simp [StatsCall.clock]; omega

/-- After three seconds all samples count. -/
theorem statsOk_early :
    (earlyCalls 3 (by decide)).Ok ∧
      (earlyCalls 3 (by decide)).stats.sizeWindows .writeSize 3000000000 = ⟨5, 5, 5⟩ := by
  refine ⟨statsOk _ ⟨fun op => ?_, fun op => ?_, fun op => ?_⟩, by decide⟩
  · cases op <;> exact .inl (by decide)
  · cases op <;> exact .inl (by decide)
  · cases op <;> decide

/-- Two creates one second after the start and eleven minutes later. -/
def lateCalls : StatsRun where
  iopsStart := fun _ => 0
  sizeStart := fun _ => 0
  calls := [.iops .iopsCreate 1000000000 1000000000, .iops .iopsCreate 661000000000 661000000000]
  query := 662000000000
  iopsClock := fun _ => by decide
  sizeClock := fun _ => by decide

/-- The first create is in front of the second and older than ten minutes at the query, so the query
counts nothing, though the second create is one second old. -/
theorem lateCalls_uncounted :
    ¬ lateCalls.Ok ∧ lateCalls.stats.iopsWindows .iopsCreate 662000000000 = ⟨0, 0, 0⟩ ∧
      Samples.exactWindows id (fun _ => 1) 662000000000
        (lateCalls.stats.timeIops .iopsCreate).toList = ⟨1, 1, 1⟩ := by
  have hzero : lateCalls.stats.iopsWindows .iopsCreate 662000000000 = ⟨0, 0, 0⟩ := by decide
  have hone : Samples.exactWindows id (fun _ => 1) 662000000000
      (lateCalls.stats.timeIops .iopsCreate).toList = ⟨1, 1, 1⟩ := by decide
  refine ⟨fun h => ?_, hzero, hone⟩
  have heq := h.iops .iopsCreate
  rw [show lateCalls.query = 662000000000 from rfl, hzero, hone] at heq
  exact absurd heq (by decide)

end GekkoFS
