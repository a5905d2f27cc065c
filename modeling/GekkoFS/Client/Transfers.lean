import GekkoFS.Client.DataPlan

/-!
# Transfers stay inside the announced buffers

A daemon takes the addresses and the lengths of its bulk transfers and of its accesses to chunk
files from the request alone. All of them are differences of words that were computed by the client
or by the daemon's own loop. For the requests that a client plans, none of these differences wraps,
the transfers stay inside the client's buffer and the announced part of the daemon's, and every
access stays inside its chunk (`transfersInside`).
-/

namespace GekkoFS

open List hiding count

open Blocks (lo hi len fileOff count)

/-! ## Transfers -/

/-- A bulk transfer between the client's buffer and the transfer buffer of the daemon. -/
structure Transfer where
  originOffset : Nat
  localOffset : Nat
  length : Nat
  deriving DecidableEq, Repr

/-- A transfer inside a client's buffer of `bulkSize` bytes and a transfer buffer of `total`
bytes. -/
def Transfer.Inside (x : Transfer) (bulkSize total : Nat) : Prop :=
  x.originOffset + x.length ≤ bulkSize ∧ x.localOffset + x.length ≤ total

/-- The pulls of a write. Source: `rpc_srv_write` (`srv_data.cpp:271`, `srv_data.cpp:318`). -/
def pulls (inp : DataIn) (bulkSize : Nat) : List Transfer :=
  (assignChunks inp bulkSize).1.map fun t => ⟨t.originOffset, t.localOffset, t.size⟩

/-- The push for a chunk that was read. Source: `wait_for_tasks_and_push_back`
(`ops/data.cpp:512`). -/
def push : ChunkTask × Except Nat Nat → Option Transfer
  | (t, .ok n) => if n = 0 then none else some ⟨t.originOffset, t.localOffset, n⟩
  | (_, .error _) => none

/-- The pushes of a read. -/
def pushes (st : ChunkStorage) (inp : DataIn) (bulkSize : Nat) : List Transfer :=
  (readTasks st inp.path (assignChunks inp bulkSize).1
    (List.replicate inp.totalChunkSize 0)).2.filterMap push

/-- A turn of the assignment loop that finds a chunk: its variables before and after, and the
task. -/
structure AssignStep where
  before : AssignState
  task : ChunkTask
  after : AssignState

/-- The turns of the assignment loop that find a chunk. -/
def assignSteps (inp : DataIn) (bulkSize : Nat) (bitset : List UInt8) :
    List Nat → AssignState → List AssignStep
  | [], _ => []
  | chnkIdFile :: ids, s =>
    if s.chnkIdCurr < inp.chunkN then
      if getBitset bitset (chnkIdFile - inp.chunkStart) then
        let a := assignChunk inp bulkSize chnkIdFile s
        ⟨s, a.1, a.2⟩ :: assignSteps inp bulkSize bitset ids a.2
      else assignSteps inp bulkSize bitset ids s
    else []

/-- The turns of the loop of a request. -/
def requestSteps (inp : DataIn) (bulkSize : Nat) : List AssignStep :=
  assignSteps inp bulkSize (decompressBitset inp.wbitset)
    (List.range' inp.chunkStart (inp.chunkEnd + 1 - inp.chunkStart))
    { chnkIdCurr := 0
      chnkSizeLeftHost := inp.totalChunkSize
      chnkPtr := 0
      transferSize := if bulkSize ≤ chunksize then bulkSize else chunksize }

/-- Every task of a request is assigned in a turn. -/
theorem assignSteps_task (inp : DataIn) (bulkSize : Nat) (bitset : List UInt8) (ids : List Nat)
    (s : AssignState) :
    (assignSteps inp bulkSize bitset ids s).map AssignStep.task =
      (assignLoop inp bulkSize bitset ids s).1 := by
  induction ids generalizing s with
  | nil => rfl
  | cons id ids ih =>
    rw [assignSteps, assignLoop]
    split
    · split
      · exact congrArg (_ :: ·) (ih _)
      · exact ih s
    · rfl

theorem requestSteps_task (inp : DataIn) (bulkSize : Nat) :
    (requestSteps inp bulkSize).map AssignStep.task = (assignChunks inp bulkSize).1 :=
  assignSteps_task ..

/-! ## What a request may do -/

/-- The handlers stay inside the buffers that the request announces. -/
structure DataIn.TransfersInside (inp : DataIn) (bulkSize : Nat) : Prop where
  /-- The pulls of a write. -/
  pulls : ∀ x ∈ pulls inp bulkSize, x.Inside bulkSize inp.totalChunkSize
  /-- The pushes of a read, whatever the chunk files hold. -/
  pushes : ∀ st, ∀ x ∈ pushes st inp bulkSize, x.Inside bulkSize inp.totalChunkSize
  /-- The parts of the transfer buffer do not overlap. -/
  apart : (assignChunks inp bulkSize).1.Pairwise fun t u =>
    t.localOffset + t.size ≤ u.localOffset ∨ u.localOffset + u.size ≤ t.localOffset
  /-- Every access stays inside its chunk. -/
  inChunk : ∀ t ∈ (assignChunks inp bulkSize).1, t.offset + t.size ≤ chunksize
  /-- The bytes left are at least those of the next task, and are reduced by them. -/
  left : ∀ step ∈ requestSteps inp bulkSize, step.task.size ≤ step.before.chnkSizeLeftHost ∧
    step.after.chnkSizeLeftHost = step.before.chnkSizeLeftHost - step.task.size
  /-- Nothing is left after the loop. -/
  done : (assignChunks inp bulkSize).2.chnkSizeLeftHost = 0

section
variable {inp : DataIn} {S : Nat} {own : Nat → Bool}

/-- Each turn of the loop takes the bytes of its piece from those left. -/
theorem assignSteps_left (h : inp.Selects S own) (m k : Nat) (s : AssignState)
    (hm : k + m = count chunksize inp.offset S)
    (hs : s.Before inp S ((List.range' k m).filter own)) (hzero : k = 0 → s.chnkPtr = 0) :
    ∀ step ∈ assignSteps inp S (decompressBitset inp.wbitset)
        (List.range' (inp.chunkStart + k) m) s,
      step.task.size ≤ step.before.chnkSizeLeftHost ∧
        step.after.chnkSizeLeftHost = step.before.chnkSizeLeftHost - step.task.size := by
  induction m generalizing k s with
  | zero => exact fun step hstep => absurd hstep not_mem_nil
  | succ m ih =>
    have hbit : getBitset (decompressBitset inp.wbitset) (inp.chunkStart + k - inp.chunkStart) =
        own k := by
      rw [Nat.add_sub_cancel_left, h.bits k (by omega)]
    rw [range'_succ] at hs
    rw [range'_succ, assignSteps, hbit, Nat.add_assoc]
    split
    · cases hown : own k with
      | true =>
        rw [filter_cons_of_pos hown] at hs
        obtain ⟨htask, hafter, hptr⟩ := assignChunk_eq h (by omega) (fun j hj => by
          have := (mem_filter.1 hj).1
          rw [mem_range'_1] at this
          omega) hs hzero
        intro step hstep
        rw [if_pos rfl] at hstep
        rcases mem_cons.1 hstep with rfl | hstep
        · have hleft := hs.left
          rw [map_cons, sum_cons, ← hafter.left] at hleft
          dsimp only
          rw [htask]
          dsimp only
          omega
        · exact ih (k + 1) _ (by omega) hafter (by omega) step hstep
      | false =>
        rw [filter_cons_of_neg (by simp [hown])] at hs
        exact ih (k + 1) s (by omega) hs (by omega)
    · exact fun step hstep => absurd hstep not_mem_nil

/-- A request that selects pieces of a range keeps the handlers inside the buffers. -/
theorem DataIn.Selects.inside (h : inp.Selects S own) : inp.TransfersInside S := by
  have hlaid := h.laidOut
  have hlocal : ∀ t ∈ (assignChunks inp S).1, t.localOffset + t.size ≤ inp.totalChunkSize :=
    fun t ht => by
      rw [hlaid.localOffset_eq t ht]
      exact hlaid.bulkBufPtr_le t ht
  refine ⟨fun x hx => ?_, fun st x hx => ?_, ?_, fun t ht => ?_, ?_, (assignChunks_eq h).2⟩
  · obtain ⟨t, ht, rfl⟩ := mem_map.1 hx
    exact ⟨hlaid.originOffset_le t ht, hlocal t ht⟩
  · rw [pushes, readTasks_eq, List.mem_filterMap] at hx
    obtain ⟨p, hp, hpush⟩ := hx
    obtain ⟨t, ht, rfl⟩ := mem_map.1 hp
    have horigin := hlaid.originOffset_le t ht
    have hle := taskBytes_length_le st inp.path t
    have hlocal := hlocal t ht
    rw [taskResult] at hpush
    split at hpush
    · rw [push] at hpush
      split at hpush
      · cases hpush
      · cases hpush
        exact ⟨by dsimp only; omega, by dsimp only; omega⟩
    · cases hpush
  · refine hlaid.pairwise.imp_of_mem fun {t u} ht hu htu => .inl ?_
    rw [hlaid.localOffset_eq t ht, hlaid.localOffset_eq u hu]
    exact htu
  · rw [(assignChunks_eq h).1] at ht
    obtain ⟨j, -, -, hsize, -, -, hoff, -, -⟩ := mem_pieceTasks ht
    rw [hsize, hoff]
    exact Blocks.fileOff_add_len_le h.offset_lt j
  · rw [requestSteps, h.chunkEnd_eq, Nat.add_sub_cancel_left]
    refine assignSteps_left h _ 0 _ (Nat.zero_add _) ?_ fun _ => rfl
    rw [← range_eq_range']
    exact ⟨by simp [h.chunkN_eq, pieces], h.total_eq, by simp, fun _ => rfl⟩

/-! ## The requests of a client -/

variable {n : Nat}

/-- Every request of a write or a read keeps the daemon inside the announced buffers, if the copies
of a chunk are on different hosts. A read may take any copy of each chunk. -/
theorem transfersInside (d : Distributor n) (owner : Nat → Fin n) (path : List Char)
    (offset size numCopies : Nat) (ho : offset < 2 ^ 63) (hs : 1 ≤ size) (hs' : size < 2 ^ 31)
    (hapart : ∀ chnkId ∈ chunkIds offset size,
      ((List.range (numCopies + 1)).map (d.locateData path chnkId)).Nodup) :
    (∀ t ∈ (planWrite d path offset size numCopies).targets,
      ((planWrite d path offset size numCopies).request path offset size t).TransfersInside size) ∧
    ∀ t ∈ (planRead offset size ((chunkIds offset size).map fun chnkId =>
        (chnkId, owner chnkId))).targets,
      ((planRead offset size ((chunkIds offset size).map fun chnkId =>
        (chnkId, owner chnkId))).request path offset size t).TransfersInside size := by
  have hs' : size < 2 ^ 34 := hs'.trans (by decide)
  refine ⟨fun t ht => ?_, fun t ht => ?_⟩
  · exact ((planWrite_recordsRange d path hapart ho hs hs').selects_small ho hs hs' path
      ht).inside
  · exact ((planRead_recordsOwner owner offset size).selects_small ho hs hs' path
      ht).inside

end

/-- A range over two chunks with two copies on three hosts. -/
theorem transfersInside_border :
    let d := simpleHashDistributor List.length 3 (by decide)
    (∀ t ∈ (planWrite d "/f".toList (chunksize - 1) 3 2).targets,
      ((planWrite d "/f".toList (chunksize - 1) 3 2).request "/f".toList (chunksize - 1) 3
        t).TransfersInside 3) ∧
    ∀ t ∈ (planRead (chunksize - 1) 3 ((chunkIds (chunksize - 1) 3).map fun chnkId =>
        (chnkId, d.locateData "/f".toList chnkId 1))).targets,
      ((planRead (chunksize - 1) 3 ((chunkIds (chunksize - 1) 3).map fun chnkId =>
        (chnkId, d.locateData "/f".toList chnkId 1))).request "/f".toList (chunksize - 1) 3
        t).TransfersInside 3 :=
  transfersInside (simpleHashDistributor List.length 3 (by decide)) _ "/f".toList (chunksize - 1) 3
    2 (by decide) (by decide) (by decide) (by decide +kernel)

end GekkoFS
