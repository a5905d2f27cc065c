import GekkoFS.CacheTransparency
import GekkoFS.Client.Bitmaps
import GekkoFS.Client.ReadWrite
import GekkoFS.Lib.Traverse
import GekkoFS.ProxyRoute

/-!
# The chunks that reads and writes touch

A read or write of a range should plan the chunks that meet the range, and nothing if the range is
empty. The last chunk is that of the byte before the end of the range, with the end and the byte
before it computed in 64 bits. So a range that ends behind `2 ^ 64` loses chunks, and an empty range
has one chunk too many unless it starts at a border of chunks, or all of them if it starts at 0
(`chunkIds_iff`). An empty write reports the end of its range as a size of the file before that.
`touchesRange_iff` says when a call touches what it should, over both routes of the data.
-/

namespace GekkoFS

open Function List

/-! ## Routes -/

/-- Source: `fwd_io` (`config.hpp:140`). -/
def fwdIo : Bool := true

/-- Source: `fwd_io_count_threshold` (`config.hpp:145`). -/
def fwdIoCountThreshold : Nat := 0

/-- The data of a call goes through the proxy. Source: `gkfs_do_write` (`gkfs_functions.cpp:979`)
and `gkfs_do_read` (`gkfs_functions.cpp:1169`). -/
def throughProxy (useProxy : Bool) (count : Nat) : Bool :=
  fwdIo && useProxy && decide (fwdIoCountThreshold < count)

/-! ## Planned chunks -/

/-- A range of bytes meets a chunk. -/
def MeetsChunk (offset count chnkId : Nat) : Prop :=
  ∃ pos, offset ≤ pos ∧ pos < offset + count ∧ pos / chunksize = chnkId

/-- The tables send a chunk to some daemon. -/
def DataPlan.Plans {n : Nat} (plan : DataPlan n) (chnkId : Nat) : Prop :=
  ∃ t ∈ plan.targets, chnkId ∈ plan.targetChnks t

@[inherit_doc DataPlan.Plans]
def Proxy.Plan.Plans (plan : Proxy.Plan) (chnkId : Nat) : Prop :=
  ∃ t ∈ plan.targets, chnkId ∈ plan.targetChnks t

section
variable {n : Nat} {plan : DataPlan n} {ids : List Nat} {chnkId : Nat}

/-- The chunks entered into the tables. -/
structure DataPlan.Enters (plan : DataPlan n) (ids : List Nat) : Prop where
  listed : ∀ t, plan.targetChnks t ≠ [] → t ∈ plan.targets
  mem_iff : ∀ chnkId, (∃ t, chnkId ∈ plan.targetChnks t) ↔ chnkId ∈ ids

namespace DataPlan

theorem enters_empty : (empty : DataPlan n).Enters [] where
  listed _ h := absurd rfl h
  mem_iff _ := ⟨fun ⟨_, h⟩ => h, fun h => absurd h not_mem_nil⟩

/-- A chunk is entered. -/
theorem Enters.add (h : plan.Enters ids) (setBit : List UInt8 → Nat → List UInt8)
    (mark : Finset (Fin n) → Fin n → Finset (Fin n)) (first last chnkId : Nat) (target : Fin n) :
    (plan.add setBit mark first last chnkId target).Enters (ids ++ [chnkId]) where
  listed t ht := by
    rw [DataPlan.add] at ht ⊢
    dsimp only at ht ⊢
    by_cases heq : t = target
    · rw [heq]
      split
      · exact mem_append_right _ mem_cons_self
      · next hne => exact h.listed target hne
    · rw [update_of_ne heq] at ht
      split
      · exact mem_append_left _ (h.listed t ht)
      · exact h.listed t ht
  mem_iff id := by
    rw [DataPlan.add, mem_append, mem_singleton, ← h.mem_iff id]
    dsimp only
    constructor
    · rintro ⟨t, ht⟩
      by_cases heq : t = target
      · rw [heq, update_self, mem_append, mem_singleton] at ht
        exact ht.imp_left fun hid => ⟨target, hid⟩
      · rw [update_of_ne heq] at ht
        exact .inl ⟨t, ht⟩
    · rintro (⟨t, ht⟩ | rfl)
      · refine ⟨t, ?_⟩
        by_cases heq : t = target
        · rw [heq] at ht ⊢
          rw [update_self]
          exact mem_append_left _ ht
        · rwa [update_of_ne heq]
      · exact ⟨target, by rw [update_self]; simp⟩

/-- A loop enters the chunks that it goes through. -/
theorem Enters.foldl (setBit : List UInt8 → Nat → List UInt8)
    (mark : Finset (Fin n) → Fin n → Finset (Fin n)) (first last : Nat)
    (pairs : List (Nat × Fin n)) (h : plan.Enters ids) :
    (pairs.foldl (fun plan p => plan.add setBit mark first last p.1 p.2) plan).Enters
      (ids ++ pairs.map Prod.fst) := by
  induction pairs generalizing plan ids with
  | nil => rwa [map_nil, append_nil]
  | cons p pairs ih =>
    have hrest := ih (h.add setBit mark first last p.1 p.2)
    rwa [append_assoc, singleton_append] at hrest

theorem Enters.plans_iff (h : plan.Enters ids) {chnkId : Nat} :
    plan.Plans chnkId ↔ chnkId ∈ ids := by
  rw [← h.mem_iff chnkId]
  exact ⟨fun ⟨t, _, ht⟩ => ⟨t, ht⟩, fun ⟨t, ht⟩ => ⟨t, h.listed t (ne_nil_of_mem ht), ht⟩⟩

end DataPlan

/-- A write plans the chunks of its range, however many copies it is for. -/
theorem planWrite_plans (d : Distributor n) (path : List Char) (offset size : Nat)
    {numCopies : Nat} (h : numCopies < 128) :
    (planWrite d path offset size numCopies).Plans chnkId ↔ chnkId ∈ chunkIds offset size := by
  have henters := DataPlan.enters_empty.foldl setBitset (fun s (t : Fin n) => insert t s)
    (chnkStart offset) (chnkEnd offset size) (writePairs d path offset size numCopies)
  rw [← planWrite_eq_foldl, nil_append] at henters
  have hcopy : ∃ copy, copy ∈ writeCopies numCopies := by
    rcases Nat.eq_zero_or_pos numCopies with rfl | hpos
    · exact ⟨0, mem_cons_self⟩
    · rw [writeCopies_of_lt hpos h]
      exact ⟨1, mem_range'_1.2 (by omega)⟩
  rw [henters.plans_iff, writePairs]
  simp only [mem_map, mem_flatMap, Prod.exists, exists_and_right, exists_eq_right]
  constructor
  · rintro ⟨t, id, hid, copy, -, heq⟩
    rw [Prod.mk.injEq] at heq
    exact heq.1 ▸ hid
  · intro hid
    obtain ⟨copy, hcopy⟩ := hcopy
    exact ⟨_, chnkId, hid, copy, hcopy, rfl⟩

/-- A read plans the chunks that daemons are selected for. -/
theorem planRead_plans (offset size : Nat) (selected : List (Nat × Fin n)) :
    (planRead offset size selected).Plans chnkId ↔ chnkId ∈ selected.map Prod.fst := by
  have henters := DataPlan.enters_empty.foldl orBit (fun _ (t : Fin n) => {t})
    (chnkStart offset) (chnkEnd offset size) selected
  rw [nil_append] at henters
  exact henters.plans_iff

/-! ## The chunks of a range -/

variable {offset count : Nat}

/-- A range that is planned as it is: one that ends by `2 ^ 64`, or an empty one at a border of
chunks other than the start of the file. -/
def RangeOk (offset count : Nat) : Prop :=
  if count = 0 then 0 < offset ∧ offset % chunksize = 0 else offset + count ≤ 2 ^ 64

instance (offset count : Nat) : Decidable (RangeOk offset count) :=
  inferInstanceAs (Decidable (if count = 0 then _ else _))

/-- The last chunk of a range that is not empty. -/
theorem chnkEnd_of_pos (hcount : 0 < count) (hend : offset + count ≤ 2 ^ 64) :
    chnkEnd offset count = (offset + count - 1) / chunksize := by
  have hlast : sub64 (u64 (offset + count)) 1 = offset + count - 1 := by
    rcases Nat.lt_or_eq_of_le hend with hlt | heq
    · rw [u64_of_lt hlt, sub64_of_le (by omega) hlt]
    · rw [heq]
      decide
  rw [chnkEnd, hlast, blockIndex_chunksize (by omega)]

/-- The last chunk of an empty range is that of the byte before it. -/
theorem chnkEnd_zero (hpos : 0 < offset) (ho : offset < 2 ^ 63) :
    chnkEnd offset 0 = (offset - 1) / chunksize := by
  rw [chnkEnd, Nat.add_zero, u64_of_lt (by omega), sub64_of_le hpos (by omega),
    blockIndex_chunksize (by omega)]

theorem not_meetsChunk_zero (chnkId : Nat) : ¬ MeetsChunk offset 0 chnkId := by
  rintro ⟨pos, hlow, hhigh, -⟩
  omega

/-- Chunks between that of the first and that of the last byte meet the range. -/
theorem meetsChunk_iff (hcount : 0 < count) :
    MeetsChunk offset count chnkId ↔
      offset / chunksize ≤ chnkId ∧ chnkId ≤ (offset + count - 1) / chunksize := by
  constructor
  · rintro ⟨pos, hlow, hhigh, rfl⟩
    exact ⟨Nat.div_le_div_right hlow, Nat.div_le_div_right (by omega)⟩
  · rintro ⟨hlow, hhigh⟩
    rw [Nat.le_div_iff_mul_le chunksize_pos] at hhigh
    have hnext : offset < (chnkId + 1) * chunksize :=
      (Nat.div_lt_iff_lt_mul chunksize_pos).1 (Nat.lt_succ_of_le hlow)
    rw [Nat.succ_mul] at hnext
    have hsize := chunksize_pos
    refine ⟨max offset (chnkId * chunksize), le_max_left _ _, by omega, ?_⟩
    rw [Nat.div_eq_iff chunksize_pos]
    omega

/-- An empty range has no chunks if it is planned as it is. -/
theorem chunkIds_of_rangeOk (h : RangeOk offset 0) (ho : offset < 2 ^ 63) :
    chunkIds offset 0 = [] := by
  obtain ⟨hpos, hborder⟩ := h
  have hlt : (offset - 1) / chunksize < offset / chunksize := by
    rw [Nat.div_lt_iff_lt_mul chunksize_pos, Nat.div_mul_cancel (Nat.dvd_of_mod_eq_zero hborder)]
    omega
  rw [chunkIds, chnkEnd_zero hpos ho, chnkStart_eq ho, Nat.sub_eq_zero_of_le hlt]
  rfl

/-- The chunks of a range are those that meet it if and only if it is planned as it is. -/
theorem chunkIds_iff (ho : offset < 2 ^ 63) :
    (∀ chnkId, chnkId ∈ chunkIds offset count ↔ MeetsChunk offset count chnkId) ↔
      RangeOk offset count := by
  rcases Nat.eq_zero_or_pos count with rfl | hcount
  · constructor
    · intro h
      have hnone : ∀ chnkId, ¬ (chnkStart offset ≤ chnkId ∧ chnkId ≤ chnkEnd offset 0) :=
        fun chnkId hmem => not_meetsChunk_zero chnkId ((h chnkId).1 (mem_chunkIds_iff.2 hmem))
      have hlt := Nat.lt_of_not_le fun hle => hnone (chnkStart offset) ⟨le_rfl, hle⟩
      rcases Nat.eq_zero_or_pos offset with rfl | hpos
      · exact absurd hlt (by decide)
      rw [chnkEnd_zero hpos ho, chnkStart_eq ho, Nat.div_lt_iff_lt_mul chunksize_pos] at hlt
      have hdiv := Nat.div_add_mod' offset chunksize
      exact ⟨hpos, by omega⟩
    · intro h chnkId
      rw [chunkIds_of_rangeOk h ho]
      exact iff_of_false not_mem_nil (not_meetsChunk_zero chnkId)
  · rw [RangeOk, if_neg hcount.ne']
    constructor
    · intro h
      by_contra hend
      -- the chunk behind the last one that 64 bits can name
      have hmeets : MeetsChunk offset count (2 ^ 64 / chunksize) :=
        ⟨2 ^ 64, by omega, by omega, rfl⟩
      have hword : sub64 (u64 (offset + count)) 1 < chunksize * (2 ^ 64 / chunksize) :=
        Nat.mod_lt _ (by decide)
      have hmem := (h _).2 hmeets
      rw [mem_chunkIds_iff, chnkEnd, blockIndex_chunksize hword] at hmem
      exact absurd hmem.2 (Nat.not_le.2 (Nat.div_lt_of_lt_mul hword))
    · intro hend chnkId
      rw [mem_chunkIds_iff, chnkEnd_of_pos hcount hend, chnkStart_eq ho, meetsChunk_iff hcount]

end

/-! ## Calls -/

/-- A read or write of an open file. -/
inductive DataCall
  | read (offset : Int64) (buf : List UInt8)
  | write (offset : Int64) (buf : List UInt8) (isAppend : Bool) (mergeId : UInt16) (now : Int64)

namespace DataCall

def offset : DataCall → Int64
  | read offset _ => offset
  | write offset .. => offset

end DataCall

/-- No bitmap has more than one entry. -/
def DataPlan.SmallBitmaps {n : Nat} (plan : DataPlan n) : Prop :=
  ∀ t bitset, plan.bitsets t = some bitset → bitset.length ≤ 1

section
variable {n : UInt32} (cfg : MetadataConfig) (strHash : List Char → Nat) (d : Distributor n.toNat)
  (useProxy : Bool) (path : List Char)

/-- The proxy plans the chunks that meet a range. -/
def ProxyPlansRange (n : UInt32) (path : List Char) (offset count : Nat) : Prop :=
  ∃ plan, Proxy.planData strHash (Proxy.distributor n.toNat) path offset count = some plan ∧
    ∀ chnkId, plan.Plans chnkId ↔ MeetsChunk offset count chnkId

/-- A write plans the chunks that meet its range, on its route and for its replicas, and none of the
bitmaps of an empty write is longer than an entry. -/
structure WritePlansRange (offset count : Nat) : Prop where
  proxy : throughProxy useProxy count = true → ProxyPlansRange strHash n path offset count
  direct : throughProxy useProxy count = false →
    ∀ chnkId, (planWrite d path offset count 0).Plans chnkId ↔ MeetsChunk offset count chnkId
  replicas : ∀ numCopies, 0 < numCopies → numCopies < 128 → ∀ chnkId,
    (planWrite d path offset count numCopies).Plans chnkId ↔ MeetsChunk offset count chnkId
  bitmaps : count = 0 → ∀ numCopies, (planWrite d path offset count numCopies).SmallBitmaps

/-- A read plans the chunks that meet its range, whatever copies are selected, and none of the
bitmaps of an empty read is longer than an entry. -/
structure ReadPlansRange (offset count : Nat) : Prop where
  proxy : throughProxy useProxy count = true → ProxyPlansRange strHash n path offset count
  direct : throughProxy useProxy count = false → ∀ numCopies failed draws selected,
    ((chunkIds offset count).mapM fun chnkId =>
      (readTarget d path numCopies failed draws chnkId).map (chnkId, ·)) = some selected →
    ∀ chnkId, (planRead offset count selected).Plans chnkId ↔ MeetsChunk offset count chnkId
  bitmaps : count = 0 → ∀ numCopies failed draws selected,
    ((chunkIds offset count).mapM fun chnkId =>
      (readTarget d path numCopies failed draws chnkId).map (chnkId, ·)) = some selected →
    (planRead offset count selected).SmallBitmaps

/-- A call plans the chunks that meet its range, from the offset at which a write goes on after its
size update; an empty one returns 0, and leaves the stored size. A read does not change anything. -/
def TouchesRange (zeroBufferBeforeRead : Bool) (fs : FileSystem n.toNat) : DataCall → Prop
  | .read offset buf =>
    ReadPlansRange strHash d useProxy path (offset.toInt % 2 ^ 64).toNat buf.length ∧
      (buf = [] → fs.gkfsDoRead zeroBufferBeforeRead d path buf offset = (.ok 0, []))
  | .write offset buf isAppend mergeId now =>
    (∃ woff, (fs.updateSize cfg d path (UInt64.ofNat buf.length) offset isAppend mergeId now).1 =
        .ok woff ∧ WritePlansRange strHash d useProxy path (woff % 2 ^ 64).toNat buf.length) ∧
      (buf = [] →
        (fs.gkfsDoWrite cfg d path buf offset isAppend mergeId now).1 = .ok 0 ∧
        sizeAt cfg d (fs.gkfsDoWrite cfg d path buf offset isAppend mergeId now).2.daemons
          path = sizeAt cfg d fs.daemons path)

end

/-- The size that an empty write at an offset sends to the metadata daemon: the end of its range, or
the largest size of the cache if this is an update too many. -/
def FileSystem.sentSize {n : Nat} (fs : FileSystem n) (path : List Char) (offset : Int64)
    (isAppend : Bool) : Nat :=
  if isAppend then 0
  else
    match fs.cache with
    | none => offset.toUInt64.toNat
    | some cache =>
      if cache.flushThreshold < (cache.entry path).1 + 1 then
        max (cache.entry path).2.toNat offset.toUInt64.toNat
      else 0

/-- The range of a call is planned as it is, and an empty write sends no size above the stored
one. -/
def DataCall.TouchOk {n : Nat} (fs : FileSystem n) (path : List Char) (size : Nat) :
    DataCall → Prop
  | read offset buf => RangeOk offset.toInt.toNat buf.length
  | write offset buf isAppend _ _ =>
    RangeOk (if isAppend then size else offset.toInt.toNat) buf.length ∧
      (buf = [] → fs.sentSize path offset isAppend ≤ size)

/-! ## When a call touches its range -/

section
variable {n : UInt32} {strHash : List Char → Nat} {d : Distributor n.toNat} {useProxy : Bool}
  {path : List Char} {offset count : Nat}

/-- The proxy plans the chunks of the range, as a client does. -/
theorem proxyPlansRange_iff (hn : 0 < n.toNat) (ho : offset < 2 ^ 63) :
    ProxyPlansRange strHash n path offset count ↔ RangeOk offset count := by
  obtain ⟨plan, hplan, hmatches⟩ := @planWrite_matches strHash n hn path offset count
  have hplans : ∀ chnkId, plan.Plans chnkId ↔ chnkId ∈ chunkIds offset count := by
    intro chnkId
    rw [← planWrite_plans (simpleHashDistributor strHash n.toNat hn) path offset count
      (show 0 < 128 by decide),
      Proxy.Plan.Plans, DataPlan.Plans, hmatches.targets]
    simp only [mem_map, exists_exists_and_eq_and, hmatches.targetChnks]
  rw [ProxyPlansRange, hplan, ← chunkIds_iff ho]
  simp only [Option.some.injEq, exists_eq_left', hplans]

theorem smallBitmaps_empty : (DataPlan.empty : DataPlan n.toNat).SmallBitmaps :=
  fun _ _ h => nomatch h

/-- When a write plans its range. -/
theorem writePlansRange_iff (hn : 0 < n.toNat) (ho : offset < 2 ^ 63) :
    WritePlansRange strHash d useProxy path offset count ↔ RangeOk offset count := by
  have hdirect : ∀ numCopies < 128, (∀ chnkId,
      (planWrite d path offset count numCopies).Plans chnkId ↔ MeetsChunk offset count chnkId) ↔
      RangeOk offset count := fun numCopies hlt => by
    simp only [planWrite_plans d path offset count hlt, chunkIds_iff ho]
  constructor
  · intro h
    exact (hdirect 1 (by decide)).1 (h.replicas 1 Nat.one_pos (by decide))
  · intro h
    refine ⟨fun _ => (proxyPlansRange_iff hn ho).2 h, fun _ => (hdirect 0 (by decide)).2 h,
      fun numCopies _ hlt => (hdirect numCopies hlt).2 h, ?_⟩
    rintro rfl numCopies
    rw [planWrite, chunkIds_of_rangeOk h ho]
    exact smallBitmaps_empty

/-- When a read plans its range. -/
theorem readPlansRange_iff (hn : 0 < n.toNat) (ho : offset < 2 ^ 63) :
    ReadPlansRange strHash d useProxy path offset count ↔ RangeOk offset count := by
  constructor
  · intro h
    cases hroute : throughProxy useProxy count with
    | true => exact (proxyPlansRange_iff hn ho).1 (h.proxy hroute)
    | false =>
      have hplans := h.direct hroute 0 ∅ (fun _ => []) _ (mapM_readTarget_zero d path ∅ _ _)
      simp only [planRead_plans, map_map, comp_def, map_id'] at hplans
      exact (chunkIds_iff ho).1 hplans
  · intro h
    refine ⟨fun _ => (proxyPlansRange_iff hn ho).2 h, fun _ numCopies failed draws selected hsel =>
      ?_, ?_⟩
    · intro chnkId
      rw [planRead_plans, Traverse.map_fst_of_mapM hsel, (chunkIds_iff ho).2 h]
    · rintro rfl numCopies failed draws selected hsel
      have hnil := Traverse.map_fst_of_mapM hsel
      rw [chunkIds_of_rangeOk h ho, map_eq_nil_iff] at hnil
      rw [hnil]
      exact smallBitmaps_empty

end

/-! ## Empty transfers -/

section
variable {n : Nat} {cfg : MetadataConfig} {d : Distributor n} {fs : FileSystem n}
  {path : List Char} {md : Metadata} {offset : Int64}

/-- An empty write of a range without chunks. -/
theorem writeData_nil {offset : Int} (cl : DaemonCluster n)
    (h : chunkIds (offset % 2 ^ 64).toNat 0 = []) :
    writeData d cl path [] offset = ((0, 0), withStorages cl (storages cl)) := by
  have hplan : planWrite d path (offset % 2 ^ 64).toNat ([] : List UInt8).length 0 = .empty := by
    rw [planWrite, length_nil, h]
    rfl
  rw [writeData, forwardWrite, hplan]
  rfl

/-- An empty read of a range without chunks. -/
theorem readData_nil {offset : Int} (cl : DaemonCluster n)
    (h : chunkIds (offset % 2 ^ 64).toNat 0 = []) :
    readData d cl path [] offset = ⟨(0, 0), [], ∅⟩ := by
  rw [readData, length_nil, h]
  rfl

/-- An empty read of a range without chunks returns 0. -/
theorem gkfsDoRead_nil (ho : 0 ≤ offset.toInt)
    (h : RangeOk offset.toInt.toNat 0) (zeroBufferBeforeRead : Bool) :
    fs.gkfsDoRead zeroBufferBeforeRead d path [] offset = (.ok 0, []) := by
  have hlt := offset.toInt_lt
  have hword : (offset.toInt % 2 ^ 64).toNat = offset.toInt.toNat := by omega
  have hbuf : (if zeroBufferBeforeRead then List.replicate ([] : List UInt8).length (0 : UInt8)
      else []) = [] := by
    cases zeroBufferBeforeRead <;> rfl
  rw [FileSystem.gkfsDoRead, hbuf,
    readData_nil fs.daemons (by rw [hword]; exact chunkIds_of_rangeOk h (by omega))]
  rfl

theorem Resized.sizeAt {cl cl' : DaemonCluster n} {size : Nat}
    (h : Resized cfg d path md size cl cl') : sizeAt cfg d cl' path = some size := by
  obtain ⟨-, c, md', hcell, hholds, -, rfl⟩ := h
  refine sizeAt_holds ?_
  rwa [hcell, update_self]

/-- The offset at which a write goes on: that of the call, or for an append the size of the file. -/
theorem updateSize_fst (h : (cellAt d fs.daemons path).Holds cfg md) (count : UInt64)
    (offset : Int64) (isAppend : Bool) (mergeId : UInt16) (now : Int64) :
    (fs.updateSize cfg d path count offset isAppend mergeId now).1 =
      .ok (if isAppend then (md.size : Int) else offset.toInt) := by
  cases isAppend with
  | true =>
    rw [updateSize_append, (updateFileSize_append h count offset.toUInt64 mergeId now).1]
    show gkfsDoWriteOffset true offset.toInt (0, (md.size : Int)) = _
    rw [gkfsDoWriteOffset, if_neg (not_not.2 rfl), if_pos rfl, if_neg (by omega)]
    rfl
  | false =>
    obtain ⟨cache, cl⟩ := fs
    cases cache with
    | none =>
      rw [updateSize_none]
      rfl
    | some cache =>
      rw [updateSize_some]
      rfl

/-- An empty write sends a size, which is stored if it is larger. -/
theorem sizeAt_updateSize (h : (cellAt d fs.daemons path).Holds cfg md)
    (hcache : ∀ cache, fs.cache = some cache → (cache.entry path).2.toNat < 2 ^ 63)
    (ho : 0 ≤ offset.toInt) (isAppend : Bool) (mergeId : UInt16) (now : Int64) :
    sizeAt cfg d (fs.updateSize cfg d path 0 offset isAppend mergeId now).2.daemons path =
      some (max (fs.sentSize path offset isAppend) md.size) := by
  have hoffset : offset.toUInt64.toNat < 2 ^ 63 := by
    rw [toNat_toUInt64_of_nonneg ho]
    have := offset.toInt_lt
    omega
  cases isAppend with
  | true =>
    have hop : (MergeOperand.increaseSize 0 mergeId.toNat true).Valid :=
      ⟨by decide, mergeId.toNat_lt⟩
    -- adding 0 to the size leaves the entry as it is
    have hholds : ((cellAt d fs.daemons path).merge (appendOperand 0 mergeId.toNat)).Holds cfg md :=
      h.merge hop h.storable.size
    have happend := congrFun (updateFileSize_append h 0 offset.toUInt64 mergeId now).2.2 path
    rw [update_self] at happend
    rw [updateSize_append, FileSystem.sentSize, if_pos rfl, Nat.zero_max]
    exact sizeAt_holds (happend.symm ▸ hholds)
  | false =>
    obtain ⟨cache, cl⟩ := fs
    cases cache with
    | none =>
      rw [updateSize_none]
      have hsum : (offset.toUInt64 + 0).toNat = offset.toUInt64.toNat := by rw [UInt64.add_zero]
      have hupdate := (updateFileSize_resized h (hsum ▸ hoffset) mergeId now).2.sizeAt
      rw [hsum] at hupdate
      exact hupdate
    | some cache =>
      have hrecorded := congrFun (cache.entry_record path (offset.toUInt64 + 0)) path
      rw [update_self] at hrecorded
      rw [updateSize_some, FileSystem.sentSize, if_neg Bool.false_ne_true]
      dsimp only
      split
      · next hflush =>
        have hsize : ((cache.record path (offset.toUInt64 + 0)).2.entry path).2.toNat =
            max (cache.entry path).2.toNat offset.toUInt64.toNat := by
          rw [hrecorded, WriteSizeCache.record, UInt64.add_zero]
          exact toNat_ite_lt _ _
        have hcnt : ((cache.record path (offset.toUInt64 + 0)).2.entry path).1 ≠ 0 := by
          rw [hrecorded]
          intro hzero
          have hzero' : (cache.entry path).1 + 1 = 0 := hzero
          rw [hzero'] at hflush
          exact absurd hflush (Nat.not_lt_zero _)
        have hflushed := WriteSizeCache.flush_resized h hcnt
          (hsize ▸ Nat.max_lt.2 ⟨hcache cache rfl, hoffset⟩) false now
        rw [hsize] at hflushed
        exact hflushed.sizeAt
      · rw [Nat.zero_max]
        exact sizeAt_holds h

end

section
variable {n : UInt32} {cfg : MetadataConfig} {strHash : List Char → Nat} {d : Distributor n.toNat}
  {useProxy zeroBufferBeforeRead : Bool} {fs : FileSystem n.toNat} {path : List Char}
  {offset : Int64} {md : Metadata}

/-- When a read touches its range. -/
theorem touchesRange_read_iff (hn : 0 < n.toNat) (ho : 0 ≤ offset.toInt)
    (buf : List UInt8) :
    TouchesRange cfg strHash d useProxy path zeroBufferBeforeRead fs (.read offset buf) ↔
      RangeOk offset.toInt.toNat buf.length := by
  have hlt := offset.toInt_lt
  have hword : (offset.toInt % 2 ^ 64).toNat = offset.toInt.toNat := by omega
  have hsmall : offset.toInt.toNat < 2 ^ 63 := by omega
  rw [TouchesRange, hword, readPlansRange_iff hn hsmall, and_iff_left_iff_imp]
  rintro hrange rfl
  exact gkfsDoRead_nil ho hrange zeroBufferBeforeRead

/-- When a write touches its range. -/
theorem touchesRange_write_iff (hn : 0 < n.toNat)
    (h : (cellAt d fs.daemons path).Holds cfg md)
    (hcache : ∀ cache, fs.cache = some cache → (cache.entry path).2.toNat < 2 ^ 63)
    (ho : 0 ≤ offset.toInt) (buf : List UInt8) (isAppend : Bool)
    (mergeId : UInt16) (now : Int64) :
    TouchesRange cfg strHash d useProxy path zeroBufferBeforeRead fs
        (.write offset buf isAppend mergeId now) ↔
      RangeOk (if isAppend then md.size else offset.toInt.toNat) buf.length ∧
        (buf = [] → fs.sentSize path offset isAppend ≤ md.size) := by
  have hlt := offset.toInt_lt
  have hsize := h.storable.size
  obtain ⟨start, hstart⟩ :
      ∃ start, (if isAppend then md.size else offset.toInt.toNat) = start := ⟨_, rfl⟩
  have hsmall : start < 2 ^ 63 := by
    rw [← hstart]
    split <;> omega
  have hwoff : (if isAppend then (md.size : Int) else offset.toInt) = (start : Int) := by
    rw [← hstart]
    split <;> omega
  have hword : ((start : Int) % 2 ^ 64).toNat = start := by omega
  have hupdate := updateSize_fst h (UInt64.ofNat buf.length) offset isAppend mergeId now
  rw [hwoff] at hupdate
  simp only [TouchesRange, hupdate, hstart, Except.ok.injEq, exists_eq_left', hword,
    writePlansRange_iff hn hsmall]
  refine and_congr_right fun hrange => imp_congr_right fun hbuf => ?_
  subst hbuf
  have hstored := sizeAt_updateSize h hcache ho isAppend mergeId now
  have hdata := fun cl => @writeData_nil n.toNat d path start cl
    (by rw [hword]; exact chunkIds_of_rangeOk hrange hsmall)
  have hzero : UInt64.ofNat ([] : List UInt8).length = 0 := rfl
  rw [hzero] at hupdate
  rw [FileSystem.gkfsDoWrite, hzero]
  generalize fs.updateSize cfg d path 0 offset isAppend mergeId now = r at hupdate hstored
  obtain ⟨ret, fs'⟩ := r
  dsimp only at hupdate hstored
  subst hupdate
  dsimp only
  rw [hdata, sizeAt_holds h]
  have hkept : sizeAt cfg d (withStorages fs'.daemons (storages fs'.daemons)) path =
      sizeAt cfg d fs'.daemons path := rfl
  dsimp only
  rw [hkept, hstored, Option.some.injEq, if_neg (not_not.2 rfl)]
  exact ⟨fun hsent => by omega, fun hsent => ⟨rfl, by omega⟩⟩

/-- A call touches its range if and only if the range is planned as it is and, for an empty write,
no size above the stored one is sent. The file exists, and the client's cache has sizes that files
can have. -/
theorem touchesRange_iff (hn : 0 < n.toNat)
    (h : (cellAt d fs.daemons path).Holds cfg md)
    (hcache : ∀ cache, fs.cache = some cache → (cache.entry path).2.toNat < 2 ^ 63)
    (call : DataCall) (ho : 0 ≤ call.offset.toInt) :
    TouchesRange cfg strHash d useProxy path zeroBufferBeforeRead fs call ↔
      call.TouchOk fs path md.size := by
  cases call with
  | read offset buf => exact touchesRange_read_iff hn ho buf
  | write offset buf isAppend mergeId now =>
    exact touchesRange_write_iff hn h hcache ho buf isAppend mergeId now

end

/-! ### Runs on fixed inputs -/

/-- A regular file of a size. -/
def sizedFile (size : Nat) : Metadata := { Metadata.ofMode .default 0 0o100644 with size := size }

/-- One daemon, which has the entry of a file `/f` of a size, and a client without a cache. -/
def oneSizedFile (size : Nat) : FileSystem (1 : UInt32).toNat :=
  ⟨none, fun _ => ⟨(∅ : DB).insert "/f".toList ⟨some ((sizedFile size).serialize .default), []⟩,
    fun _ => none, ∅⟩⟩

/-- The only placement on one daemon. -/
def oneDaemon : Distributor (1 : UInt32).toNat := simpleHashDistributor List.length 1 (by decide)

/-- An empty write at the end of a file of two chunks, by a client that uses the proxy. -/
theorem touchesRange_iff_border :
    TouchesRange .default List.length oneDaemon true "/f".toList false (oneSizedFile 1048576)
      (.write 1048576 [] false 0 0) := by
  have hmode : (Metadata.ofMode .default 0 0o100644).Storable :=
    Metadata.storable_ofMode .default (by decide) (by decide)
  have hfile : (cellAt oneDaemon (oneSizedFile 1048576).daemons "/f".toList).Holds .default
      (sizedFile 1048576) :=
    Cell.holds_put { hmode with size := by decide }
  exact (touchesRange_iff (by decide) hfile (fun _ h => nomatch h) (.write 1048576 [] false 0 0)
    (by decide)).2 ⟨by decide, fun _ => by decide⟩

/-- An empty write at offset 100 plans a chunk and sets the size of the file to 100, and an empty
read at the start of the file plans `2 ^ 45` chunks. -/
theorem empty_write_extends :
    let fs := oneSizedFile 0
    (planWrite oneDaemon "/f".toList 100 0 0).Plans 0 ∧
      sizeAt .default oneDaemon (fs.gkfsDoWrite .default oneDaemon "/f".toList [] 100 false 0
        0).2.daemons "/f".toList = some 100 ∧
      (chunkIds 0 0).length = 2 ^ 45 ∧
      ¬ TouchesRange .default List.length oneDaemon false "/f".toList false fs
        (.write 100 [] false 0 0) ∧
      ¬ TouchesRange .default List.length oneDaemon false "/f".toList false fs (.read 0 []) := by
  have hsize : sizeAt .default oneDaemon ((oneSizedFile 0).gkfsDoWrite .default oneDaemon
      "/f".toList [] 100 false 0 0).2.daemons "/f".toList = some 100 := by decide +kernel
  refine ⟨(planWrite_plans _ _ _ _ (by decide)).2 (mem_chunkIds_iff.2 (by decide)), hsize, ?_,
    fun h => ?_, fun h => ?_⟩
  · rw [chunkIds, length_range']
    decide
  · have hkept := (h.2 rfl).2
    rw [hsize] at hkept
    exact absurd hkept (by decide +kernel)
  · have hplans := h.1.direct rfl 0 ∅ (fun _ => []) _ (mapM_readTarget_zero _ _ _ _ _) 0
    rw [planRead_plans, map_map] at hplans
    refine not_meetsChunk_zero 0 (hplans.1 ?_)
    rw [comp_def, map_id', mem_chunkIds_iff]
    decide

end GekkoFS
