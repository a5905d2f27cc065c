import Mathlib.Data.Finset.Insert
import GekkoFS.Common.Distributor
import GekkoFS.Daemon.DataHandler

/-!
# Planning a data request

`forward_write` and `forward_read` cut a file range into chunks, ask the distributor for the daemon
of every chunk, and send each daemon one request that names its chunks. The tables the two loops
fill are a `DataPlan`. The two loops differ in how a bit is set and in how the daemons of the first
and the last chunk are remembered; `DataPlan.add` takes these as parameters.

The loops enter a list of chunks with their daemons, and the tables record that list
(`DataPlan.Records`). When no chunk is entered twice for a daemon, the request to a daemon selects
exactly the pieces of the range that were entered for it (`DataPlan.RecordsRange.selects`).
-/

namespace GekkoFS

open Function
open List hiding count

open Blocks (lo hi len fileOff count)

/-! ## The tables -/

/-- The first chunk of a range. -/
def chnkStart (offset : Nat) : Nat := blockIndex offset chunksize

/-- The last chunk of a range. -/
def chnkEnd (offset size : Nat) : Nat := blockIndex (sub64 (u64 (offset + size)) 1) chunksize

/-- The tables of a data request. Source: `target_chnks`, `targets`, `write_ops_vect` or
`read_bitset_vect`, `chnk_start_target` and `chnk_end_target` (`client/rpc/forward_data.cpp:87`,
`client/rpc/forward_data.cpp:323`). -/
structure DataPlan (n : Nat) where
  /-- The chunks of each daemon; there is an entry if the list is not empty. -/
  targetChnks : Fin n → List Nat
  /-- The daemons that have a chunk, in the order they were found. -/
  targets : List (Fin n)
  /-- The bitmap of each daemon that has one. -/
  bitsets : Fin n → Option (List UInt8)
  /-- The daemons of the first chunk. -/
  chnkStartTarget : Finset (Fin n)
  /-- The daemons of the last chunk. -/
  chnkEndTarget : Finset (Fin n)

namespace DataPlan

variable {n : Nat}

/-- The tables before the loop. -/
def empty : DataPlan n := ⟨fun _ => [], [], fun _ => none, ∅, ∅⟩

/-- Enter a chunk for a daemon, in a request for the chunks `first` to `last`. Source: the loop
bodies of `forward_write` (`client/rpc/forward_data.cpp:105`) and `forward_read`
(`client/rpc/forward_data.cpp:330`). -/
def add (setBit : List UInt8 → Nat → List UInt8)
    (mark : Finset (Fin n) → Fin n → Finset (Fin n)) (first last : Nat) (plan : DataPlan n)
    (chnkId : Nat) (target : Fin n) : DataPlan n :=
  let chnkTotal := sub64 last first + 1
  let bitset := (plan.bitsets target).getD (List.replicate ((chnkTotal + 7) / 8) 0)
  { bitsets := update plan.bitsets target (some (setBit bitset (chnkId - first)))
    targets :=
      if plan.targetChnks target = [] then plan.targets ++ [target] else plan.targets
    targetChnks := update plan.targetChnks target (plan.targetChnks target ++ [chnkId])
    chnkStartTarget :=
      if chnkId = first then mark plan.chnkStartTarget target else plan.chnkStartTarget
    chnkEndTarget :=
      if chnkId = last then mark plan.chnkEndTarget target else plan.chnkEndTarget }

/-- The bytes of the range that go to a daemon. The daemon of the first chunk does not get what
lies before the range, the daemon of the last chunk not what lies behind it.
Source: `client/rpc/forward_data.cpp:158`, `client/rpc/forward_data.cpp:395`. -/
def totalChunkSize (plan : DataPlan n) (offset size : Nat) (target : Fin n) : Nat :=
  let total := u64 ((plan.targetChnks target).length * chunksize)
  let total :=
    if target ∈ plan.chnkStartTarget then sub64 total (blockOverrun offset chunksize) else total
  if target ∈ plan.chnkEndTarget ∧ isAligned (u64 (offset + size)) chunksize = false then
    sub64 total (blockUnderrun (u64 (offset + size)) chunksize)
  else total

/-- The request for a daemon. Source: `client/rpc/forward_data.cpp:180`,
`client/rpc/forward_data.cpp:416`. -/
def request (plan : DataPlan n) (path : List Char) (offset size : Nat) (target : Fin n) :
    DataIn where
  path := path
  offset := blockOverrun offset chunksize
  hostId := target
  hostSize := n
  wbitset := compressBitset ((plan.bitsets target).getD [])
  chunkN := (plan.targetChnks target).length
  chunkStart := chnkStart offset
  chunkEnd := chnkEnd offset size
  totalChunkSize := plan.totalChunkSize offset size target

section
variable (plan : DataPlan n) (path : List Char) (offset size : Nat) (target : Fin n)

@[simp] theorem request_path : (plan.request path offset size target).path = path := rfl

@[simp] theorem request_offset :
    (plan.request path offset size target).offset = offset % chunksize :=
  blockOverrun_chunksize offset

@[simp] theorem request_chunkStart :
    (plan.request path offset size target).chunkStart = chnkStart offset := rfl

@[simp] theorem request_totalChunkSize :
    (plan.request path offset size target).totalChunkSize =
      plan.totalChunkSize offset size target := rfl

end

end DataPlan

section
variable {n : Nat}

/-- The chunk ids of a range. -/
def chunkIds (offset size : Nat) : List Nat :=
  List.range' (chnkStart offset) (chnkEnd offset size + 1 - chnkStart offset)

/-- The chunks of a range. -/
theorem mem_chunkIds_iff {offset size chnkId : Nat} :
    chnkId ∈ chunkIds offset size ↔ chnkStart offset ≤ chnkId ∧ chnkId ≤ chnkEnd offset size := by
  rw [chunkIds, mem_range'_1]
  omega

/-- The tables of a write: every chunk is entered for its daemon, or with replication for the
daemons of its copies from 1 on. Source: `forward_write` (`client/rpc/forward_data.cpp:103`). -/
def planWrite (d : Distributor n) (path : List Char) (offset writeSize numCopies : Nat) :
    DataPlan n :=
  (chunkIds offset writeSize).foldl (fun plan chnkId =>
    (writeCopies numCopies).foldl (fun plan copy =>
      plan.add setBitset (fun s t => insert t s) (chnkStart offset) (chnkEnd offset writeSize)
        chnkId (d.locateData path chnkId copy)) plan) .empty

/-- The tables of a read from the daemons selected for its chunks. The variables for the daemons of
the first and the last chunk hold one daemon, which the assignment replaces.
Source: `forward_read` (`client/rpc/forward_data.cpp:330`). -/
def planRead (offset readSize : Nat) (selected : List (Nat × Fin n)) : DataPlan n :=
  selected.foldl (fun plan p =>
    plan.add orBit (fun _ t => {t}) (chnkStart offset) (chnkEnd offset readSize) p.1 p.2) .empty

end

/-! ## What the tables record -/

namespace DataPlan

variable {n : Nat} {setBit : List UInt8 → Nat → List UInt8}
  {mark : Finset (Fin n) → Fin n → Finset (Fin n)} {first last : Nat}

/-- The tables record the chunks `pairs`, each with its daemon, of a request for the chunks `first`
to `last`. -/
structure Records (plan : DataPlan n) (first last : Nat) (pairs : List (Nat × Fin n)) : Prop where
  /-- The chunks of a daemon are those entered for it. -/
  targetChnks_eq : ∀ t, plan.targetChnks t = (pairs.filter fun p => p.2 = t).map Prod.fst
  /-- A daemon is listed once. -/
  nodup : plan.targets.Nodup
  /-- The daemons listed are those that have a chunk. -/
  mem_targets : ∀ t, t ∈ plan.targets ↔ ∃ p ∈ pairs, p.2 = t
  /-- The bitmap of a daemon has a bit for every chunk of the request. -/
  bitset_length : ∀ t v, plan.bitsets t = some v → v.length = (last - first + 1 + 7) / 8
  /-- The bits set are those of the daemon's chunks. -/
  hasBit_iff : ∀ t j, hasBit ((plan.bitsets t).getD []) j = true ↔ (first + j, t) ∈ pairs
  /-- The daemons of the first chunk. -/
  mem_start : ∀ t, t ∈ plan.chnkStartTarget ↔ (first, t) ∈ pairs
  /-- The daemons of the last chunk. -/
  mem_end : ∀ t, t ∈ plan.chnkEndTarget ↔ (last, t) ∈ pairs

/-- The tables before the loop record nothing. -/
theorem records_empty : (empty : DataPlan n).Records first last [] where
  targetChnks_eq _ := rfl
  nodup := nodup_nil
  mem_targets t := by simp [empty]
  bitset_length t v h := by cases h
  hasBit_iff t j := by simp [empty, hasBit]
  mem_start t := by simp [empty]
  mem_end t := by simp [empty]

section
variable {plan : DataPlan n} {pairs : List (Nat × Fin n)} {chnkId : Nat} {t : Fin n}

/-- The daemons without chunks are those not listed. -/
theorem Records.targetChnks_eq_nil (h : plan.Records first last pairs) :
    plan.targetChnks t = [] ↔ t ∉ plan.targets := by
  rw [h.targetChnks_eq, map_eq_nil_iff, filter_eq_nil_iff, h.mem_targets]
  simp only [decide_eq_true_eq, not_exists, not_and]

/-- The bitmap that a chunk is entered into: the one the daemon has, or a new one. -/
theorem Records.bitset_getD (h : plan.Records first last pairs) (hle : first ≤ last)
    (hlast : last < 2 ^ 64) (t : Fin n) :
    let v := (plan.bitsets t).getD (List.replicate ((sub64 last first + 1 + 7) / 8) 0)
    v.length = (last - first + 1 + 7) / 8 ∧ ∀ j, hasBit v j = true ↔ (first + j, t) ∈ pairs := by
  have hbit := h.hasBit_iff t
  rw [sub64_of_le hle hlast]
  cases hv : plan.bitsets t with
  | none =>
    rw [hv] at hbit
    refine ⟨by simp, fun j => ?_⟩
    rw [← hbit j, Option.getD_none, Option.getD_none, hasBit_replicate_zero]
    simp [hasBit]
  | some v =>
    rw [hv] at hbit
    exact ⟨h.bitset_length t v hv, hbit⟩

/-- Entering a chunk records it. -/
theorem Records.add (h : plan.Records first last pairs)
    (hset : ∀ v i, i ≤ last - first → setBit v i = orBit v i) (hlow : first ≤ chnkId)
    (hhigh : chnkId ≤ last) (hlast : last < 2 ^ 64)
    (hstart : chnkId = first → mark plan.chnkStartTarget t = insert t plan.chnkStartTarget)
    (hend : chnkId = last → mark plan.chnkEndTarget t = insert t plan.chnkEndTarget) :
    (plan.add setBit mark first last chnkId t).Records first last (pairs ++ [(chnkId, t)]) := by
  obtain ⟨hlen, hbits⟩ := h.bitset_getD (hlow.trans hhigh) hlast t
  have hset' := hset ((plan.bitsets t).getD (List.replicate ((sub64 last first + 1 + 7) / 8) 0))
    (chnkId - first) (by omega)
  refine ⟨fun u => ?_, ?_, fun u => ?_, fun u v huv => ?_, fun u j => ?_, fun u => ?_, fun u => ?_⟩
  · simp only [DataPlan.add, filter_append, map_append, ← h.targetChnks_eq]
    by_cases hu : u = t
    · subst hu; simp
    · simp [update_of_ne hu, Ne.symm hu]
  · simp only [DataPlan.add]
    split
    · next ht =>
      rw [← concat_eq_append]
      exact h.nodup.concat (h.targetChnks_eq_nil.1 ht)
    · exact h.nodup
  · have hmem : u ∈ (plan.add setBit mark first last chnkId t).targets ↔
        u ∈ plan.targets ∨ t = u := by
      simp only [DataPlan.add]
      split
      · simp [eq_comm]
      · next ht =>
        rw [h.targetChnks_eq_nil, not_not] at ht
        exact ⟨.inl, fun hu => hu.elim id fun htu => htu ▸ ht⟩
    rw [hmem, h.mem_targets]
    simp [or_and_right, exists_or]
  · simp only [DataPlan.add] at huv
    by_cases hu : u = t
    · subst hu
      rw [update_self, Option.some.injEq] at huv
      rw [← huv, hset', orBit_length, hlen]
    · rw [update_of_ne hu] at huv
      exact h.bitset_length u v huv
  · simp only [DataPlan.add]
    by_cases hu : u = t
    · subst hu
      rw [update_self, Option.getD_some, hset', hasBit_orBit (by rw [hlen]; omega),
        Bool.or_eq_true, hbits, decide_eq_true_eq, mem_append, mem_singleton,
        Prod.mk.injEq, or_comm]
      refine or_congr Iff.rfl ⟨fun hj => ⟨by omega, rfl⟩, fun hj => by omega⟩
    · rw [update_of_ne hu, h.hasBit_iff]
      simp [hu]
  · simp only [DataPlan.add]
    split
    · next he =>
      rw [hstart he, Finset.mem_insert, h.mem_start, he]
      simp [or_comm]
    · next he =>
      rw [h.mem_start]
      simp [Ne.symm he]
  · simp only [DataPlan.add]
    split
    · next he =>
      rw [hend he, Finset.mem_insert, h.mem_end, he]
      simp [or_comm]
    · next he =>
      rw [h.mem_end]
      simp [Ne.symm he]

/-- Entering chunks one after another records them all. A loop that remembers one daemon only for
the first and the last chunk must enter every chunk once. -/
theorem Records.foldl_add (hset : ∀ v i, i ≤ last - first → setBit v i = orBit v i)
    (hmark : ∀ t, mark ∅ t = {t}) (hlast : last < 2 ^ 64) :
    ∀ {rest done : List (Nat × Fin n)} {plan : DataPlan n}, plan.Records first last done →
      (∀ p ∈ rest, first ≤ p.1 ∧ p.1 ≤ last) →
      (((done ++ rest).map Prod.fst).Nodup ∨ ∀ s t, mark s t = insert t s) →
      (rest.foldl (fun plan p => plan.add setBit mark first last p.1 p.2) plan).Records first last
        (done ++ rest)
  | [], done, plan, h, _, _ => by rwa [append_nil]
  | p :: rest, done, plan, h, hrest, hnd => by
    -- the set that a daemon is marked in is empty if the chunk has not been entered before
    have hempty : ∀ {s : Finset (Fin n)}, (∀ t, t ∈ s ↔ (p.1, t) ∈ done) →
        mark s p.2 = insert p.2 s := by
      intro s hs
      rcases hnd with hnd | hins
      · have : s = ∅ := by
          refine Finset.eq_empty_of_forall_notMem fun t ht => ?_
          rw [map_append, nodup_append] at hnd
          exact hnd.2.2 p.1 (mem_map.2 ⟨_, (hs t).1 ht, rfl⟩) p.1 (by simp) rfl
        rw [this, hmark]; rfl
      · exact hins _ _
    obtain ⟨hlow, hhigh⟩ := hrest p (by simp)
    have hadd := h.add hset hlow hhigh hlast
      (fun he => hempty (s := plan.chnkStartTarget) (by rw [he]; exact h.mem_start))
      (fun he => hempty (s := plan.chnkEndTarget) (by rw [he]; exact h.mem_end))
    have hrest' : ∀ q ∈ rest, first ≤ q.1 ∧ q.1 ≤ last := fun q hq => hrest q (by simp [hq])
    have := Records.foldl_add hset hmark hlast hadd hrest' (by rwa [append_assoc])
    rwa [append_assoc] at this

end

end DataPlan

/-! ## The requests of a plan -/

section
variable {offset size : Nat}

/-- The first chunk of a range, by division. -/
theorem chnkStart_eq (ho : offset < 2 ^ 63) : chnkStart offset = offset / chunksize :=
  blockIndex_chunksize (by omega)

/-- The chunks of a range are those of its pieces. -/
theorem chnkEnd_succ (ho : offset < 2 ^ 63) (hs : 0 < size) (hs' : size < 2 ^ 62) :
    chnkEnd offset size + 1 = chnkStart offset + count chunksize (offset % chunksize) size := by
  have hd := Nat.div_add_mod offset chunksize
  rw [chnkEnd, u64_of_lt (by omega), sub64_of_le (by omega) (by omega),
    blockIndex_chunksize (by omega), chnkStart_eq ho, count, ← Nat.add_assoc,
    show offset + size - 1 = chunksize * (offset / chunksize) + (offset % chunksize + size - 1) by
      omega, Nat.mul_add_div chunksize_pos]

/-- The last chunk of a range is a word. -/
theorem chnkEnd_lt (offset size : Nat) : chnkEnd offset size < 2 ^ 64 := by
  have hlt : sub64 (u64 (offset + size)) 1 < 2 ^ 64 := Nat.mod_lt _ (by decide)
  rw [chnkEnd, blockIndex_chunksize hlt]
  exact (Nat.div_le_self _ _).trans_lt hlt

/-- A small range has few enough chunks for a position of 16 bits. -/
theorem count_lt (o : Nat) (ho : o < chunksize) (hs : 0 < size) (hs' : size < 2 ^ 34) :
    count chunksize o size < 2 ^ 16 := by
  have h := Blocks.count_mul_lt (c := chunksize) (o := o) hs
  have hc : chunksize = 524288 := rfl
  rw [hc] at h ho ⊢
  omega

/-- The chunk ids of a range, piece by piece. -/
theorem chunkIds_eq (ho : offset < 2 ^ 63) (hs : 0 < size) (hs' : size < 2 ^ 62) :
    chunkIds offset size =
      (List.range (count chunksize (offset % chunksize) size)).map (chnkStart offset + ·) := by
  rw [chunkIds, chnkEnd_succ ho hs hs', Nat.add_sub_cancel_left, range'_eq_map_range]

/-- A predicate on the pieces of a range that does not tell pieces apart whose numbers agree in
16 bits. -/
def PerWindow (offset size : Nat) (p : Nat → Prop) : Prop :=
  ∀ j < count chunksize (offset % chunksize) size, (p (j % 2 ^ 16) ↔ p j)

/-- In a small range the numbers of the pieces have 16 bits. -/
theorem perWindow_of_lt (hs : 0 < size) (hs' : size < 2 ^ 34) (p : Nat → Prop) :
    PerWindow offset size p := by
  intro j hj
  have hcount := count_lt (offset % chunksize) (Nat.mod_lt offset chunksize_pos) hs hs'
  rw [Nat.mod_eq_of_lt (by omega)]

variable {n : Nat} {plan : DataPlan n} {pairs : List (Nat × Fin n)} {t : Fin n}

/-- The pieces of a range whose chunks are entered for a daemon. -/
def enteredPieces (offset size : Nat) (pairs : List (Nat × Fin n)) (t : Fin n) : List Nat :=
  pieces (offset % chunksize) size fun j => (chnkStart offset + j, t) ∈ pairs

/-- A plan that records chunks of the range, each at most once for a daemon. -/
structure DataPlan.RecordsRange (plan : DataPlan n) (offset size : Nat)
    (pairs : List (Nat × Fin n)) : Prop
    extends plan.Records (chnkStart offset) (chnkEnd offset size) pairs where
  /-- No chunk is entered twice for a daemon. -/
  pairs_nodup : pairs.Nodup
  /-- The chunks entered are those of the range. -/
  mem_chunkIds : ∀ p ∈ pairs, p.1 ∈ chunkIds offset size

section
variable (h : plan.RecordsRange offset size pairs)
include h

/-- An entry is one of a piece. -/
theorem DataPlan.RecordsRange.mem_iff
    (ho : offset < 2 ^ 63) (hs : 0 < size) (hs' : size < 2 ^ 62) (j : Nat) :
    (chnkStart offset + j, t) ∈ pairs ↔ j ∈ enteredPieces offset size pairs t := by
  rw [enteredPieces, pieces, mem_filter, decide_eq_true_eq]
  refine ⟨fun hp => ⟨?_, hp⟩, And.right⟩
  have hid := h.mem_chunkIds _ hp
  rw [chunkIds_eq ho hs hs', mem_map] at hid
  obtain ⟨i, hi, hij⟩ := hid
  rwa [← Nat.add_left_cancel hij]

/-- The number of chunks of a daemon is that of its pieces. -/
theorem DataPlan.RecordsRange.length_eq
    (ho : offset < 2 ^ 63) (hs : 0 < size) (hs' : size < 2 ^ 62) (t : Fin n) :
    (plan.targetChnks t).length = (enteredPieces offset size pairs t).length := by
  have hpieces : (enteredPieces offset size pairs t).Nodup := nodup_range.filter _
  have hperm : (plan.targetChnks t).Perm
      ((enteredPieces offset size pairs t).map (chnkStart offset + ·)) := by
    rw [h.targetChnks_eq]
    refine (perm_ext_iff_of_nodup ?_ (hpieces.map fun _ _ => Nat.add_left_cancel)).2
      fun id => ?_
    · refine List.Nodup.map_on (fun p hp q hq he => ?_) (h.pairs_nodup.filter _)
      rw [mem_filter, decide_eq_true_eq] at hp hq
      exact Prod.ext he (hp.2.trans hq.2.symm)
    · simp only [mem_map, mem_filter, decide_eq_true_eq]
      constructor
      · rintro ⟨⟨id, u⟩, ⟨hp, rfl⟩, rfl⟩
        have hid := h.mem_chunkIds _ hp
        rw [chunkIds_eq ho hs hs', mem_map] at hid
        obtain ⟨j, -, hj⟩ := hid
        dsimp only at hj
        exact ⟨j, (h.mem_iff ho hs hs' j).1 (hj ▸ hp), hj⟩
      · rintro ⟨j, hj, rfl⟩
        exact ⟨_, ⟨(h.mem_iff ho hs hs' j).2 hj, rfl⟩, rfl⟩
  rw [hperm.length_eq, length_map]

/-- The bytes that go to a daemon are those of its pieces. -/
theorem DataPlan.RecordsRange.totalChunkSize_eq
    (ho : offset < 2 ^ 63) (hs : 0 < size) (hs' : size < 2 ^ 62) (t : Fin n) :
    plan.totalChunkSize offset size t = ((enteredPieces offset size pairs t).map
      (len chunksize (offset % chunksize) size)).sum := by
  have hlt := Nat.mod_lt offset chunksize_pos
  have hids : ∀ j ∈ enteredPieces offset size pairs t,
      j < count chunksize (offset % chunksize) size := fun j hj =>
    mem_range.1 (mem_filter.1 hj).1
  have hnodup : (enteredPieces offset size pairs t).Nodup := nodup_range.filter _
  have hsum := Blocks.sum_len chunksize_pos hs hlt hnodup hids
  have hcount := Blocks.count_mul_lt (c := chunksize) (o := offset % chunksize) hs
  have hlast := chnkEnd_succ ho hs hs'
  have hfirst : t ∈ plan.chnkStartTarget ↔ 0 ∈ enteredPieces offset size pairs t := by
    rw [h.mem_start, ← h.mem_iff ho hs hs', Nat.add_zero]
  have hend : t ∈ plan.chnkEndTarget ↔
      count chunksize (offset % chunksize) size - 1 ∈ enteredPieces offset size pairs t := by
    have : 0 < count chunksize (offset % chunksize) size := Nat.succ_pos _
    rw [h.mem_end, ← h.mem_iff ho hs hs',
      show chnkEnd offset size = chnkStart offset + (count chunksize (offset % chunksize) size - 1)
        by omega]
  have hlength : (enteredPieces offset size pairs t).length ≤
      count chunksize (offset % chunksize) size :=
    (length_filter_le _ _).trans length_range.le
  have hmul := Nat.mul_le_mul_right chunksize hlength
  have hc : chunksize = 524288 := rfl
  simp only [DataPlan.totalChunkSize, sub64, h.length_eq ho hs hs', hfirst, hend,
    blockOverrun_chunksize, u64_of_lt (show offset + size < 2 ^ 64 by omega),
    isAligned_chunksize, blockUnderrun_chunksize (show offset + size + chunksize < 2 ^ 64 by omega)]
  rw [Blocks.underrun_eq chunksize_pos hs, Nat.mod_add_mod] at hsum
  have hmod := Nat.mod_lt (offset + size) chunksize_pos
  have htotal : (enteredPieces offset size pairs t).length * chunksize < 2 ^ 64 := by
    refine (hmul.trans_lt hcount).trans ?_
    rw [hc]; omega
  rw [u64_of_lt htotal]
  generalize (enteredPieces offset size pairs t).length * chunksize = total at *
  generalize count chunksize (offset % chunksize) size - 1 = k at *
  by_cases h₁ : 0 ∈ enteredPieces offset size pairs t <;>
    by_cases h₂ : k ∈ enteredPieces offset size pairs t <;>
    by_cases h₃ : (offset + size) % chunksize = 0 <;>
    simp only [h₁, h₂, h₃, if_true, if_false, decide_true, decide_false, true_and, false_and,
      Bool.true_eq_false] at hsum ⊢ <;> omega

/-- The daemons of a plan are those that have a piece of the range. -/
theorem DataPlan.RecordsRange.mem_targets_iff
    (ho : offset < 2 ^ 63) (hs : 0 < size) (hs' : size < 2 ^ 62) :
    t ∈ plan.targets ↔ enteredPieces offset size pairs t ≠ [] := by
  rw [h.mem_targets]
  constructor
  · rintro ⟨⟨id, u⟩, hp, rfl⟩
    have hid := h.mem_chunkIds _ hp
    rw [chunkIds_eq ho hs hs', mem_map] at hid
    obtain ⟨j, -, rfl⟩ := hid
    exact ne_nil_of_mem ((h.mem_iff ho hs hs' j).1 hp)
  · intro hne
    obtain ⟨j, hj⟩ := exists_mem_of_ne_nil _ hne
    exact ⟨_, (h.mem_iff ho hs hs' j).2 hj, rfl⟩

/-- The bitmap of a daemon of a plan. -/
theorem DataPlan.RecordsRange.exists_bitset
    (ho : offset < 2 ^ 63) (hs : 0 < size) (hs' : size < 2 ^ 62) (ht : t ∈ plan.targets) :
    ∃ v, plan.bitsets t = some v ∧
      v.length = (count chunksize (offset % chunksize) size + 7) / 8 ∧
      ∀ j, hasBit v j = true ↔ j ∈ enteredPieces offset size pairs t := by
  have hbit := h.hasBit_iff t
  have hlast := chnkEnd_succ ho hs hs'
  obtain ⟨i, hi⟩ := exists_mem_of_ne_nil _ ((h.mem_targets_iff ho hs hs').1 ht)
  cases hv : plan.bitsets t with
  | some v =>
    refine ⟨v, rfl, ?_, fun j => ?_⟩
    · have hpos : 0 < count chunksize (offset % chunksize) size := Nat.succ_pos _
      rw [h.bitset_length t v hv]
      congr 2
      omega
    · rw [hv, Option.getD_some] at hbit
      rw [hbit, h.mem_iff ho hs hs']
  | none =>
    -- a listed daemon has a bitmap, since one of its bits is set
    have := (hbit i).2 ((h.mem_iff ho hs hs' i).2 hi)
    rw [hv] at this
    simp [hasBit] at this

/-- The request to a daemon selects the pieces whose chunks are entered for it, if 16 bits tell them
from the others. -/
theorem DataPlan.RecordsRange.selects
    (ho : offset < 2 ^ 63) (hs : 0 < size) (hs' : size < 2 ^ 62) (path : List Char)
    (ht : t ∈ plan.targets)
    (hw : PerWindow offset size fun j => (chnkStart offset + j, t) ∈ pairs) :
    (plan.request path offset size t).Selects size
      fun j => (chnkStart offset + j, t) ∈ pairs := by
  have hlt := Nat.mod_lt offset chunksize_pos
  have hoff := plan.request_offset path offset size t
  obtain ⟨v, hv, hlen, hbit⟩ := h.exists_bitset ho hs hs' ht
  constructor
  · rwa [hoff]
  · exact hs
  · omega
  · rw [hoff]; exact chnkEnd_succ ho hs hs'
  · rw [hoff]; exact h.length_eq ho hs hs' t
  · rw [hoff]; exact h.totalChunkSize_eq ho hs hs' t
  · rw [hoff]
    intro j hj
    change getBitset (decompressBitset (compressBitset ((plan.bitsets t).getD []))) j = _
    have hmod := Nat.mod_le j (2 ^ 16)
    rw [hv, Option.getD_some, getBitset_decompressBitset_mod (by omega), Bool.eq_iff_iff, hbit,
      ← h.mem_iff ho hs hs', decide_eq_true_eq]
    exact hw j hj

theorem DataPlan.RecordsRange.selects_small
    (ho : offset < 2 ^ 63) (hs : 0 < size) (hs' : size < 2 ^ 34) (path : List Char)
    (ht : t ∈ plan.targets) :
    (plan.request path offset size t).Selects size
      fun j => (chnkStart offset + j, t) ∈ pairs :=
  h.selects ho hs (hs'.trans (by decide)) path ht (perWindow_of_lt hs hs' _)

end

/-- A loop that enters chunks of the range records them. One that remembers one daemon only for the
first and the last chunk must enter every chunk once. -/
theorem DataPlan.foldl_records (setBit : List UInt8 → Nat → List UInt8)
    (mark : Finset (Fin n) → Fin n → Finset (Fin n))
    (hset : ∀ v i, i ≤ chnkEnd offset size - chnkStart offset → setBit v i = orBit v i)
    (hmark : ∀ t, mark ∅ t = {t}) (hmem : ∀ p ∈ pairs, p.1 ∈ chunkIds offset size)
    (hnd : (pairs.map Prod.fst).Nodup ∨ ∀ s t, mark s t = insert t s) :
    (pairs.foldl (fun plan p =>
      plan.add setBit mark (chnkStart offset) (chnkEnd offset size) p.1 p.2)
        (.empty : DataPlan n)).Records (chnkStart offset) (chnkEnd offset size) pairs := by
  have hrange : ∀ p ∈ pairs, chnkStart offset ≤ p.1 ∧ p.1 ≤ chnkEnd offset size :=
    fun p hp => mem_chunkIds_iff.1 (hmem p hp)
  have := DataPlan.Records.foldl_add hset hmark (chnkEnd_lt offset size) DataPlan.records_empty
    hrange (by rwa [nil_append])
  rwa [nil_append] at this

/-- In a small range `set_bitset` sets the bit that is meant. -/
theorem setBitset_of_lt (ho : offset < 2 ^ 63) (hs : 0 < size) (hs' : size < 2 ^ 34)
    (v : List UInt8) {i : Nat} (hi : i ≤ chnkEnd offset size - chnkStart offset) :
    setBitset v i = orBit v i := by
  have hcount := count_lt (offset % chunksize) (Nat.mod_lt offset chunksize_pos) hs hs'
  have hlast := chnkEnd_succ ho hs (hs'.trans (by decide))
  rw [setBitset, Nat.mod_eq_of_lt (by omega)]

/-- The chunks that a write enters, each with the daemon of one of its copies. -/
def writePairs (d : Distributor n) (path : List Char) (offset size numCopies : Nat) :
    List (Nat × Fin n) :=
  (chunkIds offset size).flatMap fun chnkId =>
    (writeCopies numCopies).map fun copy => (chnkId, d.locateData path chnkId copy)

/-- A chunk of the range is entered for the daemons of its copies. -/
theorem mem_writePairs (d : Distributor n) (path : List Char) {numCopies chnkId : Nat} :
    (chnkId, t) ∈ writePairs d path offset size numCopies ↔ chnkId ∈ chunkIds offset size ∧
      ∃ copy ∈ writeCopies numCopies, d.locateData path chnkId copy = t := by
  simp only [writePairs, mem_flatMap, mem_map, Prod.mk.injEq]
  constructor
  · rintro ⟨id, hid, copy, hcopy, rfl, ht⟩
    exact ⟨hid, copy, hcopy, ht⟩
  · rintro ⟨hid, copy, hcopy, ht⟩
    exact ⟨chnkId, hid, copy, hcopy, rfl, ht⟩

/-- The two loops of a write enter its chunks with their daemons. -/
theorem planWrite_eq_foldl (d : Distributor n) (path : List Char) (offset size numCopies : Nat) :
    planWrite d path offset size numCopies =
      (writePairs d path offset size numCopies).foldl (fun plan p =>
        plan.add setBitset (fun s t => insert t s) (chnkStart offset) (chnkEnd offset size) p.1 p.2)
        .empty := by
  rw [writePairs, foldl_flatMap]
  simp only [foldl_map]
  rfl

/-- A write whose copies are on different daemons enters no chunk twice for a daemon. -/
theorem planWrite_recordsRange (d : Distributor n) (path : List Char) {numCopies : Nat}
    (hapart : ∀ chnkId ∈ chunkIds offset size,
      ((List.range (numCopies + 1)).map (d.locateData path chnkId)).Nodup)
    (ho : offset < 2 ^ 63) (hs : 0 < size) (hs' : size < 2 ^ 34) :
    (planWrite d path offset size numCopies).RecordsRange offset size
      (writePairs d path offset size numCopies) := by
  have hmem : ∀ p ∈ writePairs d path offset size numCopies, p.1 ∈ chunkIds offset size := by
    rintro ⟨id, t⟩ hp
    exact ((mem_writePairs d path).1 hp).1
  refine ⟨?_, ?_, hmem⟩
  · rw [planWrite_eq_foldl]
    exact DataPlan.foldl_records setBitset (fun s t => insert t s)
      (fun v i hi => setBitset_of_lt ho hs hs' v hi) (fun _ => rfl) hmem (.inr fun _ _ => rfl)
  · have hids : (chunkIds offset size).Nodup := nodup_range'
    rw [writePairs, nodup_flatMap]
    refine ⟨fun id hid => ?_, hids.imp fun hne => ?_⟩
    · have := (hapart id hid).map (f := Prod.mk id) fun _ _ he => (Prod.mk.inj he).2
      rw [map_map] at this
      exact this.sublist (((writeCopies_sublist numCopies).trans
        (copyRange_sublist numCopies)).map _)
    · rintro ⟨id, t⟩ h₁ h₂
      obtain ⟨_, _, he₁⟩ := mem_map.1 h₁
      obtain ⟨_, _, he₂⟩ := mem_map.1 h₂
      exact hne ((Prod.mk.inj he₁).1.trans (Prod.mk.inj he₂).1.symm)

/-! ## One daemon for every chunk -/

/-- A plan that records every chunk of the range for the daemon that `owner` names. -/
abbrev DataPlan.RecordsOwner {n : Nat} (plan : DataPlan n) (offset size : Nat)
    (owner : Nat → Fin n) : Prop :=
  plan.Records (chnkStart offset) (chnkEnd offset size)
    ((chunkIds offset size).map fun chnkId => (chnkId, owner chnkId))

variable {owner : Nat → Fin n}

/-- The pieces of a range whose chunks belong to a daemon. -/
def ownedPieces (offset size : Nat) (owner : Nat → Fin n) (t : Fin n) : List Nat :=
  pieces (offset % chunksize) size fun j => owner (chnkStart offset + j) = t

/-- A chunk of the range is recorded for its daemon only. -/
theorem mem_recorded (owner : Nat → Fin n) (t : Fin n) {j : Nat} (ho : offset < 2 ^ 63)
    (hs : 0 < size) (hs' : size < 2 ^ 62) (hj : j < count chunksize (offset % chunksize) size) :
    (chnkStart offset + j, t) ∈ (chunkIds offset size).map (fun chnkId => (chnkId, owner chnkId)) ↔
      owner (chnkStart offset + j) = t := by
  have hid : chnkStart offset + j ∈ chunkIds offset size := by
    rw [chunkIds_eq ho hs hs']
    exact mem_map.2 ⟨j, mem_range.2 hj, rfl⟩
  rw [mem_map]
  constructor
  · rintro ⟨id, -, he⟩
    rw [Prod.mk.injEq] at he
    rw [← he.1, he.2]
  · rintro rfl
    exact ⟨_, hid, rfl⟩

/-- The pieces entered for a daemon are those whose chunks belong to it. -/
theorem enteredPieces_owner (owner : Nat → Fin n) (t : Fin n) (ho : offset < 2 ^ 63)
    (hs : 0 < size) (hs' : size < 2 ^ 62) :
    enteredPieces offset size ((chunkIds offset size).map fun chnkId => (chnkId, owner chnkId)) t =
      ownedPieces offset size owner t :=
  filter_congr fun _ hj =>
    decide_eq_decide.2 (mem_recorded owner t ho hs hs' (mem_range.1 hj))

section
variable (h : plan.RecordsOwner offset size owner)
include h

/-- Every chunk is entered once. -/
theorem DataPlan.RecordsOwner.recordsRange :
    plan.RecordsRange offset size
      ((chunkIds offset size).map fun chnkId => (chnkId, owner chnkId)) where
  toRecords := h
  pairs_nodup := List.Nodup.map (fun _ _ he => (Prod.mk.injEq .. ▸ he).1) nodup_range'
  mem_chunkIds p hp := by
    obtain ⟨id, hid, rfl⟩ := mem_map.1 hp
    exact hid

/-- The bytes that go to a daemon are those of its pieces. -/
theorem DataPlan.RecordsOwner.totalChunkSize_eq
    (ho : offset < 2 ^ 63) (hs : 0 < size) (hs' : size < 2 ^ 62) (t : Fin n) :
    plan.totalChunkSize offset size t = ((ownedPieces offset size owner t).map
      (len chunksize (offset % chunksize) size)).sum := by
  rw [h.recordsRange.totalChunkSize_eq ho hs hs', enteredPieces_owner owner t ho hs hs']

/-- A daemon of a plan owns a piece of the range. -/
theorem DataPlan.RecordsOwner.ownedPieces_ne_nil
    (ho : offset < 2 ^ 63) (hs : 0 < size) (hs' : size < 2 ^ 62) (ht : t ∈ plan.targets) :
    ownedPieces offset size owner t ≠ [] := by
  rw [← enteredPieces_owner owner t ho hs hs']
  exact (h.recordsRange.mem_targets_iff ho hs hs').1 ht

/-- The request to a daemon selects the pieces whose chunks belong to it, if 16 bits tell them from
the others. -/
theorem DataPlan.RecordsOwner.selects
    (ho : offset < 2 ^ 63) (hs : 0 < size) (hs' : size < 2 ^ 62) (path : List Char)
    (ht : t ∈ plan.targets)
    (hw : PerWindow offset size fun j => owner (chnkStart offset + j) = t) :
    (plan.request path offset size t).Selects size
      fun j => owner (chnkStart offset + j) = t := by
  have hmem : ∀ j < count chunksize (offset % chunksize) size, _ ↔ _ := fun j hj =>
    mem_recorded owner t ho hs hs' hj
  have hw' : PerWindow offset size fun j => (chnkStart offset + j, t) ∈
      (chunkIds offset size).map fun chnkId => (chnkId, owner chnkId) := fun j hj => by
    have hmod := Nat.mod_le j (2 ^ 16)
    exact (hmem (j % 2 ^ 16) (by omega)).trans ((hw j hj).trans (hmem j hj).symm)
  refine (h.recordsRange.selects ho hs hs' path ht hw').congr fun j hj => ?_
  rw [DataPlan.request_offset] at hj
  exact decide_eq_decide.2 (hmem j hj)

theorem DataPlan.RecordsOwner.selects_small
    (ho : offset < 2 ^ 63) (hs : 0 < size) (hs' : size < 2 ^ 34) (path : List Char)
    (ht : t ∈ plan.targets) :
    (plan.request path offset size t).Selects size
      fun j => owner (chnkStart offset + j) = t :=
  h.selects ho hs (hs'.trans (by decide)) path ht (perWindow_of_lt hs hs' _)

end

/-- A loop that enters every chunk of the range for one daemon records it. -/
theorem DataPlan.foldl_recordsOwner (setBit : List UInt8 → Nat → List UInt8)
    (mark : Finset (Fin n) → Fin n → Finset (Fin n))
    (hset : ∀ v i, i ≤ chnkEnd offset size - chnkStart offset → setBit v i = orBit v i)
    (hmark : ∀ t, mark ∅ t = {t}) (owner : Nat → Fin n) :
    (((chunkIds offset size).map fun chnkId => (chnkId, owner chnkId)).foldl (fun plan p =>
      plan.add setBit mark (chnkStart offset) (chnkEnd offset size) p.1 p.2)
        (.empty : DataPlan n)).RecordsOwner offset size owner := by
  refine DataPlan.foldl_records setBit mark hset hmark (fun p hp => ?_) (.inl ?_)
  · obtain ⟨chnkId, hid, rfl⟩ := mem_map.1 hp
    exact hid
  · rw [map_map]
    exact List.Nodup.map (fun _ _ h => h) nodup_range'

/-- A write without replication enters every chunk for its daemon. -/
theorem planWrite_recordsOwner (d : Distributor n) (path : List Char) (ho : offset < 2 ^ 63)
    (hs : 0 < size) (hs' : size < 2 ^ 34) :
    (planWrite d path offset size 0).RecordsOwner offset size (d.locateData path · 0) := by
  have := DataPlan.foldl_recordsOwner (n := n) setBitset (fun s t => insert t s)
    (fun v i hi => setBitset_of_lt ho hs hs' v hi) (fun _ => rfl) (d.locateData path · 0)
  rwa [foldl_map] at this

/-- A read from the daemons of the chunks enters every chunk for its daemon. -/
theorem planRead_recordsOwner (owner : Nat → Fin n) (offset size : Nat) :
    (planRead offset size ((chunkIds offset size).map fun chnkId =>
      (chnkId, owner chnkId))).RecordsOwner offset size owner :=
  DataPlan.foldl_recordsOwner _ _ (fun _ _ _ => rfl) (fun _ => rfl) owner

/-- The daemons of a plan are those that own a chunk of the range. -/
theorem DataPlan.RecordsOwner.owner_mem (h : plan.RecordsOwner offset size owner)
    (ho : offset < 2 ^ 63) (hs : 0 < size) (hs' : size < 2 ^ 62) {j : Nat}
    (hj : j < count chunksize (offset % chunksize) size) :
    owner (chnkStart offset + j) ∈ plan.targets := by
  refine (h.mem_targets _).2 ⟨(chnkStart offset + j, owner (chnkStart offset + j)), ?_, rfl⟩
  exact (mem_recorded owner _ ho hs hs' hj).2 rfl

/-- The bytes that go to all the daemons are those of the range. -/
theorem DataPlan.RecordsOwner.sum_totalChunkSize (h : plan.RecordsOwner offset size owner)
    (ho : offset < 2 ^ 63) (hs : 0 < size) (hs' : size < 2 ^ 62) :
    (plan.targets.map (plan.totalChunkSize offset size)).sum = size := by
  have hsum := Blocks.sum_filter_partition h.nodup (len chunksize (offset % chunksize) size)
    (fun j => owner (chnkStart offset + j))
    (fun j hj => h.owner_mem ho hs hs' (mem_range.1 hj))
  rw [Blocks.sum_len_range chunksize_pos hs (Nat.mod_lt offset chunksize_pos)] at hsum
  refine Eq.trans ?_ hsum
  exact congrArg List.sum (map_congr_left fun t _ => h.totalChunkSize_eq ho hs hs' t)

end

end GekkoFS
