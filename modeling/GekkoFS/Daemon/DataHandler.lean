import Mathlib.Algebra.Order.BigOperators.Group.List
import GekkoFS.Common.Bitset
import GekkoFS.Daemon.ChunkOperation
import GekkoFS.Lib.Blocks

/-!
# The data handlers of a daemon

`rpc_srv_write` and `rpc_srv_read` walk over the chunks of the request's range, pick those whose
bit is set, and derive for each of them how many bytes it has, where they stand in the client's
buffer and where in the daemon's. `assignLoop` is that walk, which the two handlers share.

The client describes a range of `S` bytes and a selection of its pieces (`DataIn.Selects`). For
such a request the walk finds exactly the selected pieces (`assignChunks_eq`), so a write leaves
each selected piece in its chunk file and reports the number of selected bytes (`rpcSrvWrite_spec`),
and a read puts what the chunk files hold of each selected piece in its place of the client's
buffer (`rpcSrvRead_spec`).
-/

namespace GekkoFS

open Bytes
open List hiding count

open Blocks (lo hi len fileOff count)

/-! ## Assigning chunks to tasks -/

/-- The variables of the assignment loop. -/
structure AssignState where
  /-- How many chunks have been assigned. -/
  chnkIdCurr : Nat
  /-- How many bytes are left to assign. -/
  chnkSizeLeftHost : Nat
  /-- The travelling pointer into the transfer buffer. -/
  chnkPtr : Nat
  /-- The size of the next transfer. -/
  transferSize : Nat

/-- One chunk of the daemon: its task, and the variables after it. The first chunk of the range is
special if the range does not start at a chunk boundary.
Source: `rpc_srv_write` (`srv_data.cpp:257`), `rpc_srv_read` (`srv_data.cpp:532`). -/
def assignChunk (inp : DataIn) (bulkSize chnkIdFile : Nat) (s : AssignState) :
    ChunkTask × AssignState :=
  if chnkIdFile = inp.chunkStart ∧ 0 < inp.offset then
    let offsetTransferSize :=
      if u64 (inp.offset + bulkSize) ≤ chunksize then bulkSize else sub64 chunksize inp.offset
    (⟨chnkIdFile, offsetTransferSize, s.chnkPtr, 0, 0, inp.offset⟩,
      { chnkIdCurr := s.chnkIdCurr + 1
        chnkSizeLeftHost := sub64 s.chnkSizeLeftHost offsetTransferSize
        chnkPtr := s.chnkPtr + offsetTransferSize
        transferSize := s.transferSize })
  else
    let localOffset := sub64 inp.totalChunkSize s.chnkSizeLeftHost
    let originOffset :=
      if 0 < inp.offset then
        u64 (sub64 chunksize inp.offset + (chnkIdFile - inp.chunkStart - 1) * chunksize)
      else u64 ((chnkIdFile - inp.chunkStart) * chunksize)
    -- the last chunk of this daemon takes what is left
    let transferSize :=
      if s.chnkIdCurr = inp.chunkN - 1 then s.chnkSizeLeftHost else s.transferSize
    (⟨chnkIdFile, transferSize, s.chnkPtr, localOffset, originOffset,
        if chnkIdFile = inp.chunkStart then inp.offset else 0⟩,
      { chnkIdCurr := s.chnkIdCurr + 1
        chnkSizeLeftHost := sub64 s.chnkSizeLeftHost transferSize
        chnkPtr := s.chnkPtr + transferSize
        transferSize := transferSize })

/-- The walk over the chunk ids of the range: chunks whose bit is not set are skipped, and the walk
ends when all announced chunks have been found. -/
def assignLoop (inp : DataIn) (bulkSize : Nat) (bitset : List UInt8) :
    List Nat → AssignState → List ChunkTask × AssignState
  | [], s => ([], s)
  | chnkIdFile :: ids, s =>
    if s.chnkIdCurr < inp.chunkN then
      if getBitset bitset (chnkIdFile - inp.chunkStart) then
        let a := assignChunk inp bulkSize chnkIdFile s
        let r := assignLoop inp bulkSize bitset ids a.2
        (a.1 :: r.1, r.2)
      else assignLoop inp bulkSize bitset ids s
    else ([], s)

/-- The tasks of a request, and the loop's variables at its end.
Source: `rpc_srv_write` (`srv_data.cpp:233`), `rpc_srv_read` (`srv_data.cpp:519`). -/
def assignChunks (inp : DataIn) (bulkSize : Nat) : List ChunkTask × AssignState :=
  assignLoop inp bulkSize (decompressBitset inp.wbitset)
    (List.range' inp.chunkStart (inp.chunkEnd + 1 - inp.chunkStart))
    { chnkIdCurr := 0
      chnkSizeLeftHost := inp.totalChunkSize
      chnkPtr := 0
      transferSize := if bulkSize ≤ chunksize then bulkSize else chunksize }

/-! ## The handlers -/

/-- The bulk transfers of a write, from the client's buffer into the daemon's. -/
def pullTasks (bulk : List UInt8) : List ChunkTask → List UInt8 → Option (List UInt8)
  | [], bulkBuf => some bulkBuf
  | t :: ts, bulkBuf =>
    match bulkTransfer bulk t.originOffset bulkBuf t.localOffset t.size with
    | none => none
    | some bulkBuf => pullTasks bulk ts bulkBuf

/-- The write handler, with the client's buffer `bulk`. A failed transfer ends it, which cancels the
tasklets that have not run; here none of them has. Source: `rpc_srv_write` (`srv_data.cpp:95`). -/
def rpcSrvWrite (st : ChunkStorage) (inp : DataIn) (bulk : List UInt8) : ChunkStorage × DataOut :=
  let tasks := (assignChunks inp bulk.length).1
  match pullTasks bulk tasks (List.replicate inp.totalChunkSize 0) with
  | none => (st, ⟨EBUSY, 0⟩)
  | some bulkBuf =>
    let w := writeTasks inp.path bulkBuf tasks st
    let r := waitForTasks (w.2.map some ++ List.replicate (inp.chunkN - tasks.length) none)
    (w.1, ⟨r.1, r.2⟩)

/-- The read handler, with the client's buffer `buf`: the reply and the client's buffer after it.
A request of which no chunk was found is not answered. Source: `rpc_srv_read`
(`srv_data.cpp:395`). -/
def rpcSrvRead (st : ChunkStorage) (inp : DataIn) (buf : List UInt8) :
    Option DataOut × List UInt8 :=
  let a := assignChunks inp buf.length
  if a.2.chnkSizeLeftHost = inp.totalChunkSize then (none, buf)
  else
    let r := readTasks st inp.path a.1 (List.replicate inp.totalChunkSize 0)
    let w := waitForTasksAndPushBack r.1
      (r.2.map some ++ List.replicate (inp.chunkN - a.1.length) none) buf
    (some ⟨w.1, w.2.1⟩, w.2.2)

/-! ## What a request selects -/

/-- The pieces of a range that a selection picks. -/
def pieces (o S : Nat) (own : Nat → Bool) : List Nat :=
  (List.range (count chunksize o S)).filter own

/-- A request describes a range of `S` bytes, which starts `inp.offset` bytes into its first chunk,
and selects of its pieces those of `own`. -/
structure DataIn.Selects (inp : DataIn) (S : Nat) (own : Nat → Bool) : Prop where
  /-- The range starts inside its first chunk. -/
  offset_lt : inp.offset < chunksize
  /-- The range is not empty. -/
  size_pos : 0 < S
  /-- The range is addressed by words. -/
  size_lt : S < 2 ^ 63
  /-- The chunk ids are those of the pieces. -/
  chunkEnd_eq : inp.chunkEnd + 1 = inp.chunkStart + count chunksize inp.offset S
  /-- The number of chunks is that of the selected pieces. -/
  chunkN_eq : inp.chunkN = (pieces inp.offset S own).length
  /-- The number of bytes is that of the selected pieces. -/
  total_eq : inp.totalChunkSize = ((pieces inp.offset S own).map (len chunksize inp.offset S)).sum
  /-- The bitmap is that of the selected pieces. -/
  bits : ∀ j < count chunksize inp.offset S,
    getBitset (decompressBitset inp.wbitset) j = own j

/-- The tasks of a list of pieces, laid out one after another in the transfer buffer. -/
def pieceTasks (start o S : Nat) : Nat → List Nat → List ChunkTask
  | _, [] => []
  | ptr, j :: js =>
    ⟨start + j, len chunksize o S j, ptr, ptr, lo chunksize o j, fileOff o j⟩ ::
      pieceTasks start o S (ptr + len chunksize o S j) js

section
variable {inp : DataIn} {S : Nat} {own : Nat → Bool} {o k : Nat} {js : List Nat} {s : AssignState}

/-- A piece that is not the last one of the range, and not the special first one, fills a chunk. -/
theorem len_eq_chunksize (ho : o < chunksize) (hS : 0 < S)
    (hk : k + 1 < count chunksize o S) (h : ¬ (k = 0 ∧ 0 < o)) :
    len chunksize o S k = chunksize ∧ chunksize ≤ S := by
  have h₁ := Blocks.len_add_ends chunksize_pos hS ho (j := k) (by omega)
  rw [if_neg (show ¬ k + 1 = count chunksize o S by omega)] at h₁
  have h₂ : (if k = 0 then o else 0) = 0 := by
    split <;> omega
  have h₃ : len chunksize o S k ≤ S := (Nat.sub_le _ _).trans (Blocks.hi_le _ _ _ _)
  omega

/-- Where a piece other than the special first one stands in the client's buffer. -/
theorem lo_eq (ho : o < chunksize) (h : ¬ (k = 0 ∧ 0 < o)) :
    lo chunksize o k =
      if 0 < o then chunksize - o + (k - 1) * chunksize else k * chunksize := by
  rw [lo]
  split
  · next ho' =>
    obtain ⟨k, rfl⟩ := Nat.exists_eq_succ_of_ne_zero (show k ≠ 0 from fun hk => h ⟨hk, ho'⟩)
    rw [Nat.succ_sub_one, Nat.succ_mul]; omega
  · omega

/-- What a request selects is a matter of the pieces of the range. -/
theorem DataIn.Selects.congr {own' : Nat → Bool} (h : inp.Selects S own)
    (he : ∀ j < count chunksize inp.offset S, own j = own' j) : inp.Selects S own' := by
  have hpieces : pieces inp.offset S own' = pieces inp.offset S own :=
    filter_congr fun j hj => (he j (mem_range.1 hj)).symm
  exact { h with
    chunkN_eq := by rw [hpieces]; exact h.chunkN_eq
    total_eq := by rw [hpieces]; exact h.total_eq
    bits := fun j hj => (h.bits j hj).trans (he j hj) }

/-- The selected bytes are among those of the range. -/
theorem DataIn.Selects.total_le (h : inp.Selects S own) : inp.totalChunkSize ≤ S := by
  have hsub := (filter_sublist (p := own) (l := List.range (count chunksize inp.offset S))).map
    (len chunksize inp.offset S)
  calc inp.totalChunkSize = _ := h.total_eq
    _ ≤ _ := hsub.sum_le_sum fun _ _ => Nat.zero_le _
    _ = S := Blocks.sum_len_range chunksize_pos h.size_pos h.offset_lt

/-- What the loop's variables say before the pieces `js` are assigned. -/
structure AssignState.Before (s : AssignState) (inp : DataIn) (S : Nat) (js : List Nat) : Prop where
  /-- As many chunks are missing as there are pieces left. -/
  curr : s.chnkIdCurr + js.length = inp.chunkN
  /-- The bytes left are those of the pieces left. -/
  left : s.chnkSizeLeftHost = (js.map (len chunksize inp.offset S)).sum
  /-- The pointer stands behind the bytes that have been assigned. -/
  ptr : s.chnkPtr + s.chnkSizeLeftHost = inp.totalChunkSize
  /-- The transfer size is the default one while a piece is left. -/
  transfer : js ≠ [] → s.transferSize = if S ≤ chunksize then S else chunksize

/-- The first branch of the step transfers the first piece. -/
theorem offsetTransferSize_eq (h : inp.Selects S own) :
    (if u64 (inp.offset + S) ≤ chunksize then S else sub64 chunksize inp.offset) =
      len chunksize inp.offset S 0 := by
  have h₁ := h.offset_lt
  have h₂ := h.size_lt
  have hc : chunksize = 524288 := rfl
  rw [u64_of_lt (by omega), sub64_of_le h₁.le (by omega), len, hi, Blocks.lo_zero]
  split <;> omega

/-- The other branch of the step transfers the piece `k`. -/
theorem transferSize_eq (h : inp.Selects S own)
    (hk : k < count chunksize inp.offset S)
    (hjs : ∀ j ∈ js, k < j ∧ j < count chunksize inp.offset S)
    (hs : s.Before inp S (k :: js)) (hf : ¬ (k = 0 ∧ 0 < inp.offset)) :
    (if s.chnkIdCurr = inp.chunkN - 1 then s.chnkSizeLeftHost else s.transferSize) =
      len chunksize inp.offset S k := by
  have hc := hs.curr
  rw [length_cons] at hc
  cases js with
  | nil =>
    rw [length_nil] at hc
    rw [if_pos (by omega), hs.left, map_singleton, sum_singleton]
  | cons j js =>
    rw [length_cons] at hc
    have hj := hjs j (by simp)
    obtain ⟨hlen, hle⟩ := len_eq_chunksize h.offset_lt h.size_pos (by omega) hf
    rw [if_neg (by omega), hs.transfer (by simp), hlen]
    split <;> omega

/-- The step of the walk at a selected piece `k`: its task, and the variables after it. -/
theorem assignChunk_eq (h : inp.Selects S own)
    (hk : k < count chunksize inp.offset S)
    (hjs : ∀ j ∈ js, k < j ∧ j < count chunksize inp.offset S)
    (hs : s.Before inp S (k :: js)) (hzero : k = 0 → s.chnkPtr = 0) :
    (assignChunk inp S (inp.chunkStart + k) s).1 =
        ⟨inp.chunkStart + k, len chunksize inp.offset S k, s.chnkPtr, s.chnkPtr,
          lo chunksize inp.offset k, fileOff inp.offset k⟩ ∧
      (assignChunk inp S (inp.chunkStart + k) s).2.Before inp S js ∧
      (assignChunk inp S (inp.chunkStart + k) s).2.chnkPtr =
        s.chnkPtr + len chunksize inp.offset S k := by
  have htot := h.total_le
  have hS := h.size_lt
  have hptr := hs.ptr
  have hcurr := hs.curr
  have hleft := hs.left
  rw [map_cons, sum_cons] at hleft
  rw [length_cons] at hcurr
  have hsub : sub64 s.chnkSizeLeftHost (len chunksize inp.offset S k) =
      (js.map (len chunksize inp.offset S)).sum := by
    rw [sub64_of_le (by omega) (by omega)]; omega
  by_cases hf : k = 0 ∧ 0 < inp.offset
  · obtain ⟨rfl, ho⟩ := hf
    rw [assignChunk, if_pos ⟨Nat.add_zero _, ho⟩]
    simp only [offsetTransferSize_eq h, hsub, hzero rfl, Blocks.lo_zero, fileOff, if_true,
      true_and]
    refine ⟨⟨?_, rfl, ?_, fun _ => hs.transfer (by simp)⟩, trivial⟩
    · simp only; omega
    · simp only; omega
  · rw [assignChunk, if_neg (fun hc => hf ⟨by omega, hc.2⟩)]
    have ho := h.offset_lt
    have hc : chunksize = 524288 := rfl
    have hlo := lo_eq ho hf
    have hlt := Blocks.lo_lt_hi chunksize_pos h.size_pos ho hk
    have hle := Blocks.hi_le chunksize inp.offset S k
    have hlocal : sub64 inp.totalChunkSize s.chnkSizeLeftHost = s.chnkPtr := by
      rw [sub64_of_le (by omega) (by omega)]; omega
    have horigin : (if 0 < inp.offset then
        u64 (sub64 chunksize inp.offset + (inp.chunkStart + k - inp.chunkStart - 1) * chunksize)
        else u64 ((inp.chunkStart + k - inp.chunkStart) * chunksize)) =
        lo chunksize inp.offset k := by
      rw [Nat.add_sub_cancel_left, sub64_of_le ho.le (by omega), hlo]
      split
      · rw [u64_of_lt]
        rw [if_pos (by assumption)] at hlo
        omega
      · rw [u64_of_lt]
        rw [if_neg (by assumption)] at hlo
        omega
    have hoff : (if inp.chunkStart + k = inp.chunkStart then inp.offset else 0) =
        fileOff inp.offset k := by
      rw [fileOff]
      exact if_congr (by omega) rfl rfl
    simp only [transferSize_eq h hk hjs hs hf, hlocal, horigin, hoff, hsub, true_and]
    refine ⟨⟨?_, rfl, ?_, fun hne => ?_⟩, trivial⟩
    · simp only; omega
    · simp only; omega
    · have hlen := length_pos_iff.2 hne
      have ht := transferSize_eq h hk hjs hs hf
      rw [if_neg (by omega), hs.transfer (by simp)] at ht
      exact ht.symm

/-- The walk from piece `k` on assigns the selected pieces from there on, and then nothing is
left. -/
theorem assignLoop_eq (h : inp.Selects S own) : ∀ (m k : Nat) (s : AssignState),
    k + m = count chunksize inp.offset S → s.Before inp S ((List.range' k m).filter own) →
    (k = 0 → s.chnkPtr = 0) →
    (assignLoop inp S (decompressBitset inp.wbitset) (List.range' (inp.chunkStart + k) m) s).1 =
        pieceTasks inp.chunkStart inp.offset S s.chnkPtr ((List.range' k m).filter own) ∧
      (assignLoop inp S (decompressBitset inp.wbitset)
        (List.range' (inp.chunkStart + k) m) s).2.chnkSizeLeftHost = 0
  | 0, k, s, _, hs, _ => ⟨rfl, hs.left⟩
  | m + 1, k, s, hm, hs, hzero => by
    have hbit : getBitset (decompressBitset inp.wbitset) (inp.chunkStart + k - inp.chunkStart) =
        own k := by
      rw [Nat.add_sub_cancel_left, h.bits k (by omega)]
    simp only [range'_succ, assignLoop, hbit, Nat.add_assoc]
    cases hown : own k with
    | true =>
      rw [range'_succ, filter_cons_of_pos hown] at hs
      have hcurr := hs.curr
      rw [length_cons] at hcurr
      obtain ⟨h₁, h₂, h₃⟩ := assignChunk_eq h (by omega) (fun j hj => by
        have := (mem_filter.1 hj).1
        rw [mem_range'_1] at this; omega) hs hzero
      obtain ⟨ih₁, ih₂⟩ := assignLoop_eq h m (k + 1) _ (by omega) h₂ (by omega)
      rw [if_pos (by omega), if_pos rfl, filter_cons_of_pos hown, pieceTasks]
      exact ⟨by rw [ih₁, h₁, h₃], ih₂⟩
    | false =>
      rw [range'_succ, filter_cons_of_neg (by simp [hown])] at hs
      rw [filter_cons_of_neg (by simp [hown])]
      by_cases hlt : s.chnkIdCurr < inp.chunkN
      · rw [if_pos hlt, if_neg (by simp)]
        exact assignLoop_eq h m (k + 1) s (by omega) hs (by omega)
      · -- all announced chunks have been found, so no piece is left
        have hnil : (List.range' (k + 1) m).filter own = [] := by
          have := hs.curr
          exact eq_nil_of_length_eq_zero (by omega)
        rw [if_neg hlt, hnil]
        exact ⟨rfl, by rw [hs.left, hnil]; rfl⟩

/-- The handlers find the selected pieces, and assign all announced bytes. -/
theorem assignChunks_eq (h : inp.Selects S own) :
    (assignChunks inp S).1 =
        pieceTasks inp.chunkStart inp.offset S 0 (pieces inp.offset S own) ∧
      (assignChunks inp S).2.chnkSizeLeftHost = 0 := by
  rw [pieces, range_eq_range', assignChunks, h.chunkEnd_eq, Nat.add_sub_cancel_left]
  refine assignLoop_eq h _ 0 _ (Nat.zero_add _) ?_ fun _ => rfl
  rw [← range_eq_range']
  exact ⟨by simp [h.chunkN_eq, pieces], h.total_eq, by simp, fun _ => rfl⟩

/-! ## The layout of the tasks -/

section
variable {start o : Nat}

/-- A task is that of a piece. -/
theorem mem_pieceTasks : ∀ {js : List Nat} {ptr : Nat} {t : ChunkTask},
    t ∈ pieceTasks start o S ptr js → ∃ j ∈ js, t.chnkId = start + j ∧
      t.size = len chunksize o S j ∧ t.localOffset = t.bulkBufPtr ∧
      t.originOffset = lo chunksize o j ∧ t.offset = fileOff o j ∧ ptr ≤ t.bulkBufPtr ∧
      t.bulkBufPtr + t.size ≤ ptr + (js.map (len chunksize o S)).sum
  | j :: js, ptr, t, h => by
    rw [pieceTasks, mem_cons] at h
    rw [map_cons, sum_cons]
    rcases h with rfl | h
    · exact ⟨j, by simp, rfl, rfl, rfl, rfl, rfl, Nat.le_refl _, by simp only; omega⟩
    · obtain ⟨j', hj', h₁, h₂, h₃, h₄, h₅, h₆, h₇⟩ := mem_pieceTasks h
      exact ⟨j', by simp [hj'], h₁, h₂, h₃, h₄, h₅, by omega, by omega⟩

/-- Every piece has a task. -/
theorem exists_pieceTask (start o S : Nat) : ∀ {js : List Nat} {j : Nat} (ptr : Nat), j ∈ js →
    ∃ t ∈ pieceTasks start o S ptr js, t.chnkId = start + j ∧ t.size = len chunksize o S j ∧
      t.originOffset = lo chunksize o j ∧ t.offset = fileOff o j
  | i :: js, j, ptr, h => by
    rw [pieceTasks]
    rcases mem_cons.1 h with rfl | h
    · exact ⟨_, mem_cons_self, rfl, rfl, rfl, rfl⟩
    · obtain ⟨t, ht, h'⟩ := exists_pieceTask start o S (ptr + len chunksize o S i) h
      exact ⟨t, mem_cons_of_mem _ ht, h'⟩

/-- There is one task a piece. -/
@[simp] theorem pieceTasks_length : ∀ (js : List Nat) (ptr : Nat),
    (pieceTasks start o S ptr js).length = js.length
  | [], _ => rfl
  | _ :: js, _ => by rw [pieceTasks, length_cons, pieceTasks_length js, length_cons]

/-- The tasks are for the chunks of the pieces. -/
theorem pieceTasks_chnkId : ∀ (js : List Nat) (ptr : Nat),
    (pieceTasks start o S ptr js).map ChunkTask.chnkId = js.map (start + ·)
  | [], _ => rfl
  | _ :: js, _ => by rw [pieceTasks, map_cons, pieceTasks_chnkId js, map_cons]

/-- The tasks have the sizes of the pieces. -/
theorem pieceTasks_size : ∀ (js : List Nat) (ptr : Nat),
    (pieceTasks start o S ptr js).map ChunkTask.size = js.map (len chunksize o S)
  | [], _ => rfl
  | _ :: js, _ => by rw [pieceTasks, map_cons, pieceTasks_size js, map_cons]

/-- The tasks take different ranges of the transfer buffer. -/
theorem pieceTasks_pairwise : ∀ (js : List Nat) (ptr : Nat),
    (pieceTasks start o S ptr js).Pairwise fun t u => t.bulkBufPtr + t.size ≤ u.bulkBufPtr
  | [], _ => List.Pairwise.nil
  | j :: js, ptr => by
    rw [pieceTasks, pairwise_cons]
    refine ⟨fun u hu => ?_, pieceTasks_pairwise js _⟩
    obtain ⟨_, _, _, _, _, _, _, h, _⟩ := mem_pieceTasks hu
    exact h

end

end

/-! ## What the handlers do -/

/-- Tasks that take different ranges of a transfer buffer of `total` bytes, and stay inside a client
buffer of `S` bytes. -/
structure LaidOut (ts : List ChunkTask) (S total : Nat) : Prop where
  /-- The bulk transfer addresses the bytes that the tasklet reads or writes. -/
  localOffset_eq : ∀ t ∈ ts, t.localOffset = t.bulkBufPtr
  /-- A task stays inside the client's buffer. -/
  originOffset_le : ∀ t ∈ ts, t.originOffset + t.size ≤ S
  /-- A task stays inside the transfer buffer. -/
  bulkBufPtr_le : ∀ t ∈ ts, t.bulkBufPtr + t.size ≤ total
  /-- The ranges do not meet. -/
  pairwise : ts.Pairwise fun t u => t.bulkBufPtr + t.size ≤ u.bulkBufPtr

variable {ts : List ChunkTask} {bulkBuf : List UInt8}

/-- Bytes put into the transfer buffer, at most as many as a task has, are found there. -/
theorem LaidOut.slice_eq {S : Nat}
    (h : LaidOut ts S bulkBuf.length) {f : ChunkTask → List UInt8}
    (hf : ∀ t ∈ ts, (f t).length ≤ t.size) {t : ChunkTask} (ht : t ∈ ts) :
    slice (spliceAll bulkBuf (ts.map fun t => (t.bulkBufPtr, f t))) t.bulkBufPtr
      (f t).length = f t := by
  refine slice_spliceAll (p := (t.bulkBufPtr, f t)) ?_ ?_ (mem_map_of_mem ht)
  · intro p hp
    obtain ⟨u, hu, rfl⟩ := mem_map.1 hp
    have h₁ := h.bulkBufPtr_le u hu
    have h₂ := hf u hu
    simp only; omega
  · rw [pairwise_map]
    refine h.pairwise.imp_of_mem fun {u v} hu _ huv => .inl ?_
    have := hf u hu
    simp only; omega

/-- Transfers that stay inside both buffers copy every piece into place. -/
theorem pullTasks_eq (bulk : List UInt8) : ∀ {ts : List ChunkTask} {bulkBuf : List UInt8},
    (∀ t ∈ ts, t.originOffset + t.size ≤ bulk.length ∧ t.localOffset + t.size ≤ bulkBuf.length) →
    pullTasks bulk ts bulkBuf = some (spliceAll bulkBuf
      (ts.map fun t => (t.localOffset, slice bulk t.originOffset t.size)))
  | [], _, _ => rfl
  | t :: ts, bulkBuf, h => by
    obtain ⟨h₁, h₂⟩ := h t (by simp)
    have hs := slice_length_of_le h₁
    have hl : (splice bulkBuf t.localOffset
        (slice bulk t.originOffset t.size)).length = bulkBuf.length :=
      splice_length (by omega)
    rw [pullTasks, bulkTransfer, if_pos ⟨h₁, h₂⟩]
    exact pullTasks_eq bulk fun u hu => by rw [hl]; exact h u (by simp [hu])

/-- The transfers of tasks that are laid out succeed, and put the client's bytes of every task into
its range of the transfer buffer. -/
theorem LaidOut.pullTasks {bulk : List UInt8}
    (h : LaidOut ts bulk.length bulkBuf.length) :
    ∃ bulkBuf', GekkoFS.pullTasks bulk ts bulkBuf = some bulkBuf' ∧
      ∀ t ∈ ts, slice bulkBuf' t.bulkBufPtr t.size =
        slice bulk t.originOffset t.size := by
  have hlen : ∀ t ∈ ts, (slice bulk t.originOffset t.size).length = t.size := fun t ht =>
    slice_length_of_le (h.originOffset_le t ht)
  refine ⟨_, pullTasks_eq bulk fun t ht => ⟨h.originOffset_le t ht, ?_⟩, fun t ht => ?_⟩
  · rw [h.localOffset_eq t ht]; exact h.bulkBufPtr_le t ht
  · have hmap : (ts.map fun t => (t.localOffset, slice bulk t.originOffset t.size)) =
        ts.map fun t => (t.bulkBufPtr, slice bulk t.originOffset t.size) :=
      map_congr_left fun u hu => by rw [h.localOffset_eq u hu]
    have := h.slice_eq (fun t ht => (hlen t ht).le) ht
    rwa [hlen t ht, ← hmap] at this

section
variable {inp : DataIn} {own : Nat → Bool} {S : Nat}

/-- The tasks of a request are laid out. -/
theorem DataIn.Selects.laidOut (h : inp.Selects S own) :
    LaidOut (assignChunks inp S).1 S inp.totalChunkSize := by
  rw [(assignChunks_eq h).1]
  have hmem : ∀ t ∈ pieceTasks inp.chunkStart inp.offset S 0 (pieces inp.offset S own),
      t.localOffset = t.bulkBufPtr ∧ t.originOffset + t.size ≤ S ∧
        t.bulkBufPtr + t.size ≤ inp.totalChunkSize := by
    intro t ht
    obtain ⟨j, hj, -, hsize, hlocal, horigin, -, -, hle⟩ := mem_pieceTasks ht
    have hlt := Blocks.lo_lt_hi chunksize_pos h.size_pos h.offset_lt
      (mem_range.1 (mem_filter.1 hj).1)
    have hhi := Blocks.hi_le chunksize inp.offset S j
    rw [← h.total_eq, Nat.zero_add] at hle
    refine ⟨hlocal, ?_, hle⟩
    rw [horigin, hsize, len]
    omega
  exact ⟨fun t ht => (hmem t ht).1, fun t ht => (hmem t ht).2.1, fun t ht => (hmem t ht).2.2,
    pieceTasks_pairwise _ _⟩

/-- The tasks of a request are for different chunks. -/
theorem DataIn.Selects.nodup_chnkId (h : inp.Selects S own) :
    ((assignChunks inp S).1.map ChunkTask.chnkId).Nodup := by
  rw [(assignChunks_eq h).1, pieceTasks_chnkId]
  exact (nodup_range.filter _).map fun _ _ => Nat.add_left_cancel

/-- A request has as many tasks as it announces chunks. -/
theorem DataIn.Selects.tasks_length (h : inp.Selects S own) :
    (assignChunks inp S).1.length = inp.chunkN := by
  rw [(assignChunks_eq h).1, pieceTasks_length, h.chunkN_eq]

/-- A write leaves every selected piece in its chunk file, changes no other chunk file, and reports
the number of selected bytes. -/
theorem rpcSrvWrite_spec {bulk : List UInt8} (h : inp.Selects bulk.length own)
    (st : ChunkStorage) :
    (rpcSrvWrite st inp bulk).2 = ⟨0, inp.totalChunkSize⟩ ∧
    (∀ j ∈ pieces inp.offset bulk.length own,
      (rpcSrvWrite st inp bulk).1.file? inp.path (inp.chunkStart + j) =
        some (overwrite 0 ((st.file? inp.path (inp.chunkStart + j)).getD [])
          (fileOff inp.offset j) (slice bulk (lo chunksize inp.offset j)
            (len chunksize inp.offset bulk.length j)))) ∧
    ∀ id, (∀ j ∈ pieces inp.offset bulk.length own, id ≠ inp.chunkStart + j) →
      (rpcSrvWrite st inp bulk).1.file? inp.path id = st.file? inp.path id := by
  have hts := (assignChunks_eq h).1
  have hlaid := h.laidOut
  rw [← length_replicate (n := inp.totalChunkSize) (a := (0 : UInt8))] at hlaid
  obtain ⟨bulkBuf, hpull, hslice⟩ := hlaid.pullTasks
  obtain ⟨hfile, hother⟩ := file?_writeTasks inp.path bulkBuf st h.nodup_chnkId
  simp only [rpcSrvWrite, hpull]
  refine ⟨?_, fun j hj => ?_, fun id hid => ?_⟩
  · -- every task reports its size, and no eventual is missing
    have hres : (writeTasks inp.path bulkBuf (assignChunks inp bulk.length).1 st).2.map some =
        ((assignChunks inp bulk.length).1.map ChunkTask.size).map fun n => some (.ok n) := by
      rw [writeTasks_results, map_map, map_map]
      refine map_congr_left fun t ht => ?_
      simp only [Function.comp_apply, hslice t ht,
        slice_length_of_le (hlaid.originOffset_le t ht)]
    rw [hres, h.tasks_length, Nat.sub_self, replicate_zero, append_nil, waitForTasks_ok,
      hts, pieceTasks_size, ← h.total_eq]
  · obtain ⟨t, ht, hid, hsize, horigin, hoff⟩ :=
      exists_pieceTask inp.chunkStart inp.offset bulk.length 0 hj
    rw [← hts] at ht
    rw [← hid, hfile t ht, hslice t ht, hsize, horigin, hoff]
  · refine hother id ?_
    rw [hts, pieceTasks_chnkId, mem_map]
    rintro ⟨j, hj, rfl⟩
    exact hid j hj rfl

/-- The bytes of a piece that the chunk files of a storage hold. -/
def pieceBytes (st : ChunkStorage) (path : List Char) (start o S j : Nat) : List UInt8 :=
  slice ((st.file? path (start + j)).getD []) (fileOff o j) (len chunksize o S j)

/-- The bytes that the tasks find are those of the pieces. -/
theorem pieceTasks_taskBytes (st : ChunkStorage) (path : List Char) (start o S : Nat) :
    ∀ (js : List Nat) (ptr : Nat),
      ((pieceTasks start o S ptr js).map fun t => (t.originOffset, taskBytes st path t)) =
        js.map fun j => (lo chunksize o j, pieceBytes st path start o S j)
  | [], _ => rfl
  | j :: js, ptr => by
    rw [pieceTasks, map_cons, pieceTasks_taskBytes st path start o S js, map_cons]
    rfl

/-- A read puts the bytes that the chunk files hold of every selected piece into the piece's place
of the client's buffer, and reports their number. -/
theorem rpcSrvRead_spec {buf : List UInt8} (h : inp.Selects buf.length own)
    (hne : pieces inp.offset buf.length own ≠ []) (st : ChunkStorage) :
    rpcSrvRead st inp buf =
      (some ⟨0, ((pieces inp.offset buf.length own).map fun j =>
          (pieceBytes st inp.path inp.chunkStart inp.offset buf.length j).length).sum⟩,
        spliceAll buf ((pieces inp.offset buf.length own).map fun j =>
          (lo chunksize inp.offset j,
            pieceBytes st inp.path inp.chunkStart inp.offset buf.length j))) := by
  obtain ⟨hts, hleft⟩ := assignChunks_eq h
  have hlaid := h.laidOut
  -- some byte is announced, so the request is answered
  have htotal : 0 < inp.totalChunkSize := by
    obtain ⟨j, hj⟩ := exists_mem_of_ne_nil _ hne
    have hlt := Blocks.lo_lt_hi chunksize_pos h.size_pos h.offset_lt
      (mem_range.1 (mem_filter.1 hj).1)
    have hle := single_le_sum (fun _ _ => Nat.zero_le _) _
      (mem_map_of_mem (f := len chunksize inp.offset buf.length) hj)
    rw [← h.total_eq, len] at hle
    omega
  rw [← length_replicate (n := inp.totalChunkSize) (a := (0 : UInt8))] at hlaid
  have hpush := pushBackLoop_eq st inp.path
    (spliceAll (List.replicate inp.totalChunkSize 0)
      ((assignChunks inp buf.length).1.map fun t => (t.bulkBufPtr, taskBytes st inp.path t)))
    (assignChunks inp buf.length).1 0 buf fun t ht => by
      refine ⟨?_, hlaid.originOffset_le t ht, ?_⟩
      · rw [spliceAll_length, hlaid.localOffset_eq t ht]
        · exact hlaid.bulkBufPtr_le t ht
        · intro p hp
          obtain ⟨u, hu, rfl⟩ := mem_map.1 hp
          exact (Nat.add_le_add_left (taskBytes_length_le st inp.path u) _).trans
            (hlaid.bulkBufPtr_le u hu)
      · rw [hlaid.localOffset_eq t ht]
        exact hlaid.slice_eq (fun u _ => taskBytes_length_le st inp.path u) ht
  have hbytes := pieceTasks_taskBytes st inp.path inp.chunkStart inp.offset buf.length
    (pieces inp.offset buf.length own) 0
  have hsum : ((assignChunks inp buf.length).1.map fun t => (taskBytes st inp.path t).length) =
      (pieces inp.offset buf.length own).map fun j =>
        (pieceBytes st inp.path inp.chunkStart inp.offset buf.length j).length := by
    have := congrArg (List.map fun p : Nat × List UInt8 => p.2.length) hbytes
    rwa [map_map, map_map, ← hts] at this
  simp only [rpcSrvRead, readTasks_eq, waitForTasksAndPushBack, h.tasks_length, Nat.sub_self,
    replicate_zero, append_nil, hpush]
  rw [if_neg (by omega), hsum, hts, hbytes]
  simp

end

end GekkoFS
