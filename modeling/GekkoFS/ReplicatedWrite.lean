import GekkoFS.Striping

/-!
# Writing to replicas

With replication `forward_write` enters every chunk for the daemons of its copies from 1 on, so that
one daemon can have several chunks in different copy roles, and several daemons have the first or
the last chunk. `WriteReplicated` says what the requests and the chunk files should be: every byte
is written once on each daemon of a copy and on no other, and what a request announces is what its
daemon gets. `forwardWrite_replicated` proves it for every placement that keeps the copies of a
chunk apart, as the default one does for fewer copies than daemons.
-/

namespace GekkoFS

open List hiding count

open Blocks (lo hi len fileOff count)

/-! ## What a replicated write does -/

/-- A task writes a position of the file. -/
def ChunkTask.Covers (task : ChunkTask) (pos : Nat) : Prop :=
  task.chnkId = pos / chunksize ∧ task.offset ≤ pos % chunksize ∧
    pos % chunksize < task.offset + task.size

instance (task : ChunkTask) (pos : Nat) : Decidable (task.Covers pos) :=
  inferInstanceAs (Decidable (_ ∧ _ ∧ _))

/-- The number of bits that are set in a byte vector. -/
def setBits (data : List UInt8) : Nat := (List.range (8 * data.length)).countP (hasBit data)

/-- The byte that a daemon stores for a position of a file. -/
def storedByte (st : ChunkStorage) (path : List Char) (pos : Nat) : Option UInt8 :=
  (st.file? path (pos / chunksize)).bind fun bytes => bytes[pos % chunksize]?

section
variable {n : Nat}

/-- The daemon has one of the copies from 1 on of a chunk. -/
def IsReplica (d : Distributor n) (path : List Char) (numCopies chnkId : Nat) (t : Fin n) : Prop :=
  ∃ copy ∈ List.range' 1 numCopies, d.locateData path chnkId copy = t

instance (d : Distributor n) (path : List Char) (numCopies chnkId : Nat) (t : Fin n) :
    Decidable (IsReplica d path numCopies chnkId t) :=
  inferInstanceAs (Decidable (∃ copy ∈ List.range' 1 numCopies, _))

instance (plan : DataPlan n) (t : Fin n) : Decidable (t ∈ plan.targets) :=
  decidable_of_iff (plan.targets.elem t = true) elem_iff

/-- The chunk writes that a daemon performs for a write. -/
def chunkWrites (d : Distributor n) (path : List Char) (offset size numCopies : Nat) (t : Fin n) :
    List ChunkTask :=
  let plan := planWrite d path offset size numCopies
  if t ∈ plan.targets then (assignChunks (plan.request path offset size t) size).1 else []

/-- A write reaches the replicas. -/
structure WriteReplicated (d : Distributor n) (cl : Cluster n) (path : List Char)
    (buf : List UInt8) (offset numCopies : Nat) : Prop where
  /-- The write succeeds. -/
  served : (forwardWrite d (fun _ => .delivered) cl path buf offset numCopies).1 = (0, buf.length)
  /-- The copies of a chunk are on as many daemons. -/
  apart : ∀ chnkId ∈ chunkIds offset buf.length,
    ((List.range' 1 numCopies).map (d.locateData path chnkId)).Nodup
  /-- Every byte is written once on the daemons of its copies, and not elsewhere. -/
  once : ∀ i < buf.length, ∀ t,
    (chunkWrites d path offset buf.length numCopies t).countP
        (fun task => task.Covers (offset + i)) =
      if IsReplica d path numCopies ((offset + i) / chunksize) t then 1 else 0
  /-- Every byte is stored by the daemons of its copies, at its position. -/
  stored : ∀ i < buf.length, ∀ t, IsReplica d path numCopies ((offset + i) / chunksize) t →
    storedByte ((forwardWrite d (fun _ => .delivered) cl path buf offset numCopies).2 t) path
      (offset + i) = buf[i]?
  /-- The chunk files of the other daemons, and of the chunks outside the range, are unchanged. -/
  unchanged : ∀ chnkId t,
    ¬ (chnkId ∈ chunkIds offset buf.length ∧ IsReplica d path numCopies chnkId t) →
      ((forwardWrite d (fun _ => .delivered) cl path buf offset numCopies).2 t).file? path chnkId =
        (cl t).file? path chnkId
  /-- A request announces as many chunks as its bitmap has bits set. -/
  chunkN_eq : ∀ t ∈ (planWrite d path offset buf.length numCopies).targets,
    ((planWrite d path offset buf.length numCopies).request path offset buf.length t).chunkN =
      setBits (((planWrite d path offset buf.length numCopies).bitsets t).getD [])
  /-- A request announces as many bytes as the range has in the daemon's chunks. -/
  totalChunkSize_eq : ∀ t ∈ (planWrite d path offset buf.length numCopies).targets,
    ((planWrite d path offset buf.length numCopies).request path offset buf.length
        t).totalChunkSize =
      (List.range buf.length).countP fun i =>
        IsReplica d path numCopies ((offset + i) / chunksize) t

/-! ## Counting writes, bits and bytes -/

/-- The task of the piece of a byte writes its position, and no other task does. -/
theorem countP_pieceTasks {offset size i : Nat} (ho : offset < 2 ^ 63) (hi : i < size) :
    ∀ (js : List Nat) (ptr : Nat),
      (pieceTasks (chnkStart offset) (offset % chunksize) size ptr js).countP
          (fun task => task.Covers (offset + i)) =
        js.count ((offset % chunksize + i) / chunksize)
  | [], _ => rfl
  | j :: js, ptr => by
    obtain ⟨hdiv, hmod⟩ := div_mod_add ho i
    obtain ⟨-, hlo, hhi, hoff⟩ :=
      Blocks.mem_piece chunksize_pos (Nat.mod_lt offset chunksize_pos) hi
    rw [pieceTasks, countP_cons, count_cons, countP_pieceTasks ho hi]
    congr 1
    refine if_congr ?_ rfl rfl
    rw [decide_eq_true_eq, beq_iff_eq, ChunkTask.Covers, hdiv, hmod, hoff]
    constructor
    · rintro ⟨hid, -, -⟩
      exact Nat.add_left_cancel hid
    · rintro rfl
      refine ⟨rfl, Nat.le_add_right _ _, ?_⟩
      dsimp only [len]
      omega

section
variable {d : Distributor n} {path : List Char} {offset size numCopies : Nat} {plan : DataPlan n}
  {pairs : List (Nat × Fin n)} {t : Fin n}

/-- A daemon writes a byte once if the chunk of the byte is entered for it. -/
theorem countP_chunkWrites (hp : planWrite d path offset size numCopies = plan)
    (h : plan.RecordsRange offset size pairs) (ho : offset < 2 ^ 63) (hs' : size < 2 ^ 34) {i : Nat}
    (hi : i < size) :
    (chunkWrites d path offset size numCopies t).countP (fun task => task.Covers (offset + i)) =
      if ((offset + i) / chunksize, t) ∈ pairs then 1 else 0 := by
  have hs : 0 < size := by omega
  have hnd : (enteredPieces offset size pairs t).Nodup := nodup_range.filter _
  have htasks : chunkWrites d path offset size numCopies t =
      pieceTasks (chnkStart offset) (offset % chunksize) size 0
        (enteredPieces offset size pairs t) := by
    rw [chunkWrites, hp]
    split
    · next ht =>
      rw [(assignChunks_eq (h.selects_small ho hs hs' path ht)).1, DataPlan.request_offset,
        DataPlan.request_chunkStart, enteredPieces]
    · next ht =>
      rw [h.mem_targets_iff ho hs (hs'.trans (by decide)), not_not] at ht
      rw [ht, pieceTasks]
  rw [htasks, countP_pieceTasks ho hi, (div_mod_add ho i).1]
  simp only [h.mem_iff ho hs (hs'.trans (by decide)), hnd.count]

/-- The bits that are set in the bitmap of a daemon are as many as its chunks. -/
theorem setBits_eq (h : plan.RecordsRange offset size pairs) (ho : offset < 2 ^ 63) (hs : 0 < size)
    (hs' : size < 2 ^ 34) (ht : t ∈ plan.targets) :
    setBits ((plan.bitsets t).getD []) = (plan.targetChnks t).length := by
  obtain ⟨v, hv, hlen, hbit⟩ := h.exists_bitset ho hs (hs'.trans (by decide)) ht
  rw [hv, Option.getD_some, h.length_eq ho hs (hs'.trans (by decide)), setBits,
    countP_eq_length_filter]
  refine ((perm_ext_iff_of_nodup (nodup_range.filter _)
    (nodup_range.filter _)).2 fun j => ?_).length_eq
  rw [mem_filter, hbit, mem_range, hlen, ← pieces, ← enteredPieces]
  refine and_iff_right_of_imp fun hj => ?_
  have := mem_range.1 (mem_filter.1 hj).1
  omega

/-- The bytes announced to a daemon are those of the range in the chunks entered for it. -/
theorem totalChunkSize_countP (h : plan.RecordsRange offset size pairs) (ho : offset < 2 ^ 63)
    (hs : 0 < size) (hs' : size < 2 ^ 34) (t : Fin n) :
    plan.totalChunkSize offset size t =
      (List.range size).countP fun i => ((offset + i) / chunksize, t) ∈ pairs := by
  rw [h.totalChunkSize_eq ho hs (hs'.trans (by decide)), enteredPieces, pieces,
    Blocks.sum_len_filter chunksize_pos (Nat.mod_lt offset chunksize_pos)]
  simp only [(div_mod_add ho _).1]

/-! ## The theorem -/

variable {buf : List UInt8}

/-- The chunk of a byte is one of the range's. -/
theorem mem_chunkIds (ho : offset < 2 ^ 63) {size i : Nat} (hs' : size < 2 ^ 34) (hi : i < size) :
    (offset + i) / chunksize ∈ chunkIds offset size := by
  rw [chunkIds_eq ho (by omega) (hs'.trans (by decide)), mem_map, (div_mod_add ho i).1]
  exact ⟨_,
    mem_range.2 (Blocks.mem_piece chunksize_pos (Nat.mod_lt offset chunksize_pos) hi).1,
    rfl⟩

/-- A write reaches the replicas, if the copies of its chunks are on different daemons and fewer
than 128. -/
theorem writeReplicated_of_apart (cl : Cluster n) (hcopies : 0 < numCopies)
    (hfits : numCopies < 128)
    (hapart : ∀ chnkId ∈ chunkIds offset buf.length,
      ((List.range (numCopies + 1)).map (d.locateData path chnkId)).Nodup)
    (ho : offset < 2 ^ 63) (hs : 0 < buf.length) (hs' : buf.length < 2 ^ 34) :
    WriteReplicated d cl path buf offset numCopies := by
  have h := planWrite_recordsRange d path hapart ho hs hs'
  have hwrite := writeCopies_of_lt hcopies hfits
  have hmem : ∀ {i : Nat}, i < buf.length → ∀ t, ((offset + i) / chunksize, t) ∈
      writePairs d path offset buf.length numCopies ↔
        IsReplica d path numCopies ((offset + i) / chunksize) t := fun hi t => by
    rw [mem_writePairs, hwrite, and_iff_right (mem_chunkIds ho hs' hi), IsReplica]
  refine ⟨?_, fun chnkId hid => ?_, fun i hi t => ?_, fun i hi t ht => ?_, fun chnkId t hid => ?_,
    fun t ht => ?_, fun t ht => ?_⟩
  · rw [forwardWrite_recorded cl rfl h ho hs hs', int8_of_lt hfits, if_neg (by omega)]
  · rw [← hwrite]
    exact (hapart chnkId hid).sublist (((writeCopies_sublist numCopies).trans
      (copyRange_sublist numCopies)).map _)
  · rw [countP_chunkWrites rfl h ho hs' hi]
    exact if_congr (hmem hi t) rfl rfl
  · have hentered := (hmem hi t).2 ht
    rw [(div_mod_add ho i).1, h.mem_iff ho hs (hs'.trans (by decide))] at hentered
    rw [storedByte, (div_mod_add ho i).1, file?_forwardWrite_entered cl rfl h ho hs hs' hentered,
      Option.bind_some, overwrite_piece_getElem? _ ho hi]
  · refine file?_forwardWrite_not_entered cl rfl h ho hs hs' fun hp => hid ?_
    rwa [mem_writePairs, hwrite] at hp
  · exact (setBits_eq h ho hs hs' ht).symm
  · rw [DataPlan.request_totalChunkSize, totalChunkSize_countP h ho hs hs']
    refine countP_congr fun i hi => ?_
    rw [decide_eq_true_eq, decide_eq_true_eq]
    exact hmem (mem_range.1 hi) t

/-- From 128 copies on, the last copy of a byte is not written. -/
theorem WriteReplicated.copies_lt {cl : Cluster n}
    (h : WriteReplicated d cl path buf offset numCopies) (hcopies : 0 < numCopies)
    (hapart : ∀ chnkId ∈ chunkIds offset buf.length,
      ((List.range (numCopies + 1)).map (d.locateData path chnkId)).Nodup)
    (ho : offset < 2 ^ 63) (hs : 0 < buf.length) (hs' : buf.length < 2 ^ 34) :
    numCopies < 128 := by
  have hplan := planWrite_recordsRange d path hapart ho hs hs'
  have hlast : numCopies ∈ List.range' 1 numCopies := mem_range'_1.2 (by omega)
  have hone := h.once 0 hs (d.locateData path ((offset + 0) / chunksize) numCopies)
  rw [if_pos (show IsReplica d path numCopies _ _ from ⟨numCopies, hlast, rfl⟩),
    countP_chunkWrites rfl hplan ho hs' hs] at hone
  split at hone
  · next hpair =>
    obtain ⟨hid, copy, hcopy, heq⟩ := (mem_writePairs d path).1 hpair
    have hvisited := (writeCopies_sublist numCopies).subset hcopy
    have hinj := inj_on_of_nodup_map (hapart _ hid)
      ((copyRange_sublist numCopies).subset hvisited) self_mem_range_succ heq
    exact hinj ▸ lt_of_mem_copyRange hvisited
  · exact absurd hone Nat.zero_ne_one

end

/-- A replicated write stores every byte on every replica exactly if there are fewer than 128
copies: `num_copies` is an `int8_t`. -/
theorem forwardWrite_replicated (strHash : List Char → Nat) (hn : 0 < n) (cl : Cluster n)
    (path : List Char) (buf : List UInt8) (offset numCopies : Nat) (hcopies : 0 < numCopies)
    (hlt : numCopies < n)
    (hwrap : ∀ chnkId ∈ chunkIds offset buf.length,
      strHash (path ++ Nat.toDigits 10 (u32 chnkId)) + numCopies < 2 ^ 64)
    (ho : offset < 2 ^ 63) (hs : 1 ≤ buf.length) (hs' : buf.length < 2 ^ 31) :
    WriteReplicated (simpleHashDistributor strHash n hn) cl path buf offset numCopies ↔
      numCopies < 128 := by
  have hapart := fun chnkId hid => simpleHashDistributor_apart hn hlt (hwrap chnkId hid)
  have hs' : buf.length < 2 ^ 34 := hs'.trans (by decide)
  constructor
  · exact fun h => h.copies_lt hcopies hapart ho hs hs'
  · exact fun hfits => writeReplicated_of_apart cl hcopies hfits hapart ho hs hs'

/-- Two copies of a file with two bytes on three daemons. -/
theorem forwardWrite_replicated_three :
    WriteReplicated (simpleHashDistributor List.length 3 (by decide)) (fun _ => ∅) ['/', 'f']
      [1, 2] 524287 2 :=
  (forwardWrite_replicated List.length (by decide) (fun _ => ∅) ['/', 'f'] [1, 2] 524287 2
    (by decide) (by decide) (by decide) (by decide) (by decide) (by decide)).2 (by decide)

/-- A write of one byte with 150 copies on 200 daemons, a number that is negative as an `int8_t`:
it returns its size, and no daemon stores anything. -/
theorem forwardWrite_stores_nothing :
    forwardWrite (simpleHashDistributor List.length 200 (by decide)) (fun _ => .delivered)
        (fun _ => ∅) "/f".toList [1] 0 150 = ((0, 1), fun _ => ∅) ∧
      ¬ WriteReplicated (simpleHashDistributor List.length 200 (by decide)) (fun _ => ∅)
        "/f".toList [1] 0 150 := by
  have hplan : planWrite (simpleHashDistributor List.length 200 (by decide)) "/f".toList 0
      [(1 : UInt8)].length 150 = .empty := foldl_fixed _
  constructor
  · rw [forwardWrite, hplan]
    rfl
  · intro h
    have hwrap : ∀ chnkId ∈ chunkIds 0 [(1 : UInt8)].length,
        ("/f".toList ++ Nat.toDigits 10 (u32 chnkId)).length + 150 < 2 ^ 64 := by decide
    have hlt := h.copies_lt (by decide) (fun chnkId hid =>
      simpleHashDistributor_apart (by decide) (by decide) (hwrap chnkId hid)) (by decide)
      (by decide) (by decide)
    exact absurd hlt (by decide)

end

end GekkoFS
