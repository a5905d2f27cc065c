import GekkoFS.Lib.Replaced
import GekkoFS.WriteMachine

/-!
# The invariant of concurrent writes

The tasklets of a call are those of the pieces of its range (`tasklets_post`), each of which writes
its part of the call (`PartOf`). A tasklet writes inside its own range of its chunk file, and ranges
of different tasklets do not meet if the calls write to different parts of the file
(`WritesInv.pairwise`). So what a tasklet has written stays in place, and every byte of the chunk
files is an old one, a filled one or the byte of a tasklet. `WritesInv` says this of a state, and
every event keeps it (`WritesInv.step`).
-/

namespace GekkoFS

open Bytes Function
open List hiding count

open Blocks (lo hi len fileOff count)
open ChunkStorage (getChunksDir)

/-! ## The tasklets of a call -/

section
variable {n : Nat} {d : Distributor n} {call : WriteCall} {j : Nat}

/-- The position in the file of a byte of a chunk. -/
def chunkPos (chnkId off : Nat) : Nat := chnkId * chunksize + off

/-- A tasklet writes its part of a call to the daemon of its chunk. -/
structure PartOf (d : Distributor n) (call : WriteCall) (p : Fin n × WriteTasklet) : Prop where
  path : p.2.path = call.path
  host : d.locateData call.path p.2.chnkId 0 = p.1
  inChunk : p.2.offset + p.2.buf.length ≤ chunksize
  bytes : ∀ i < p.2.buf.length, call.Covers (chunkPos p.2.chnkId (p.2.offset + i)) ∧
    p.2.buf[i]? = call.buf[chunkPos p.2.chnkId (p.2.offset + i) - call.offset]?

/-- What a task says of its piece does not depend on where the piece stands in the transfer
buffer. -/
theorem pieceTasks_map (start o S : Nat) (f : Nat → Nat → Nat → Nat → α) :
    ∀ (js : List Nat) (ptr : Nat),
      ((pieceTasks start o S ptr js).map fun t => f t.chnkId t.size t.originOffset t.offset) =
        js.map fun j => f (start + j) (len chunksize o S j) (lo chunksize o j) (fileOff o j)
  | [], _ => rfl
  | j :: js, ptr => by
    rw [pieceTasks, map_cons, pieceTasks_map start o S f js, map_cons]

/-- The handler of a request that selects pieces starts a tasklet for each of them. -/
theorem writeTasklets_eq {inp : DataIn} {bulk : List UInt8} {own : Nat → Bool}
    (h : inp.Selects bulk.length own) :
    writeTasklets inp bulk = some ((pieces inp.offset bulk.length own).map fun j =>
      ⟨inp.path, inp.chunkStart + j, slice bulk (lo chunksize inp.offset j)
        (len chunksize inp.offset bulk.length j), fileOff inp.offset j, .new⟩) := by
  have hlaid := h.laidOut
  rw [← length_replicate (n := inp.totalChunkSize) (a := (0 : UInt8))] at hlaid
  obtain ⟨bulkBuf, hpull, hslice⟩ := hlaid.pullTasks
  simp only [writeTasklets, hpull, Option.map_some, Option.some.injEq]
  have hmap : ((assignChunks inp bulk.length).1.map fun t => (⟨inp.path, t.chnkId,
      slice bulkBuf t.bulkBufPtr t.size, t.offset, .new⟩ : WriteTasklet)) =
      (assignChunks inp bulk.length).1.map fun t => ⟨inp.path, t.chnkId,
        slice bulk t.originOffset t.size, t.offset, .new⟩ :=
    map_congr_left fun t ht => by rw [hslice t ht]
  rw [hmap, (assignChunks_eq h).1]
  exact pieceTasks_map _ _ _ (fun chnkId size originOffset offset => (⟨inp.path, chnkId,
    slice bulk originOffset size, offset, .new⟩ : WriteTasklet)) _ 0

/-- The tasklet of a piece of a call. -/
def WriteCall.pieceTasklet (call : WriteCall) (j : Nat) : WriteTasklet :=
  ⟨call.path, chnkStart call.offset + j, slice call.buf
      (lo chunksize (call.offset % chunksize) j)
      (len chunksize (call.offset % chunksize) call.buf.length j),
    fileOff (call.offset % chunksize) j, .new⟩

theorem WriteCall.length_pieceTasklet (h : call.Fits)
    (hj : j < count chunksize (call.offset % chunksize) call.buf.length) :
    (call.pieceTasklet j).buf.length =
      len chunksize (call.offset % chunksize) call.buf.length j := by
  have hlt := Blocks.lo_lt_hi chunksize_pos h.size_pos (Nat.mod_lt _ chunksize_pos) hj
  have hle := Blocks.hi_le chunksize (call.offset % chunksize) call.buf.length j
  exact slice_length_of_le (by rw [len]; omega)

/-- The tasklets of a call are those of its pieces, each on the daemon of its chunk. -/
theorem tasklets_post (d : Distributor n) (h : call.Fits) :
    (call.post d).tasklets =
      (planWrite d call.path call.offset call.buf.length 0).targets.flatMap fun t =>
        (ownedPieces call.offset call.buf.length (d.locateData call.path · 0) t).map fun j =>
          (t, call.pieceTasklet j) := by
  have hplan := planWrite_recordsOwner d call.path h.offset_lt h.size_pos h.size_lt
  rw [PostedWrite.tasklets, WriteCall.post]
  generalize planWrite d call.path call.offset call.buf.length 0 = plan at hplan ⊢
  dsimp only
  rw [flatMap_map]
  refine flatMap_congr fun t ht => ?_
  have hsel := hplan.selects_small h.offset_lt h.size_pos h.size_lt call.path ht
  simp only [WriteRequest.tasklets, writeTasklets_eq hsel, Option.getD_some, map_map,
    DataPlan.request_offset, DataPlan.request_path, DataPlan.request_chunkStart]
  rfl

/-- A tasklet of a call writes a part of it. -/
theorem partOf_pieceTasklet (h : call.Fits) {t : Fin n}
    (hj : j ∈ ownedPieces call.offset call.buf.length (d.locateData call.path · 0) t) :
    PartOf d call (t, call.pieceTasklet j) := by
  have ho := Nat.mod_lt call.offset chunksize_pos
  have hlen := WriteCall.length_pieceTasklet h (mem_range.1 (mem_filter.1 hj).1)
  refine ⟨rfl, locateData_of_mem_ownedPieces hj, ?_, fun i hi => ?_⟩
  · rw [hlen]
    exact Blocks.fileOff_add_len_le ho j
  dsimp only at hi ⊢
  rw [hlen] at hi
  obtain ⟨hge, hlt'⟩ := Blocks.mem_range_of_fileOff_le (S := call.buf.length) ho
    (Nat.le_add_right (fileOff (call.offset % chunksize) j) i) (by omega)
  have hpos : chunkPos (chnkStart call.offset + j)
      (fileOff (call.offset % chunksize) j + i) = call.offset / chunksize * chunksize +
        (j * chunksize + (fileOff (call.offset % chunksize) j + i)) := by
    rw [chunkPos, chnkStart_eq h.offset_lt, Nat.add_mul, Nat.add_assoc]
  have hdiv := Nat.div_add_mod' call.offset chunksize
  -- byte `i` of the piece is byte `lo + i` of the buffer
  have hlo : j * chunksize + (fileOff (call.offset % chunksize) j + i) =
      call.offset % chunksize + (lo chunksize (call.offset % chunksize) j + i) := by
    rw [lo, fileOff]
    split
    · next h0 => rw [h0]; omega
    · next h0 =>
      have : chunksize ≤ j * chunksize := Nat.le_mul_of_pos_left _ (Nat.pos_of_ne_zero h0)
      omega
  show call.Covers (chunkPos (chnkStart call.offset + j) _) ∧
    (slice call.buf _ _)[i]? = call.buf[chunkPos (chnkStart call.offset + j) _ - _]?
  rw [WriteCall.Covers, show (call.pieceTasklet j).offset = fileOff (call.offset % chunksize) j
    from rfl, hpos, slice_getElem?, if_pos hi]
  refine ⟨by omega, ?_⟩
  congr 1
  omega

theorem partOf_of_mem_post (h : call.Fits) {p : Fin n × WriteTasklet}
    (hp : p ∈ (call.post d).tasklets) : PartOf d call p := by
  rw [tasklets_post d h, mem_flatMap] at hp
  obtain ⟨t, -, hp⟩ := hp
  obtain ⟨j, hj, rfl⟩ := mem_map.1 hp
  exact partOf_pieceTasklet h hj

/-- The tasklets of a call are for different chunks. -/
theorem nodup_tasklets_post (d : Distributor n) (h : call.Fits) :
    ((call.post d).tasklets.map fun p => p.2.chnkId).Nodup := by
  have hplan := planWrite_recordsOwner d call.path h.offset_lt h.size_pos h.size_lt
  have hnodup : ((planWrite d call.path call.offset call.buf.length 0).targets.flatMap
      (ownedPieces call.offset call.buf.length (d.locateData call.path · 0))).Nodup :=
    nodup_flatMap_ownedPieces hplan.nodup call.buf.length
  rw [tasklets_post d h, map_flatMap]
  have hmap := hnodup.map (f := (chnkStart call.offset + ·)) fun _ _ => Nat.add_left_cancel
  rw [map_flatMap] at hmap
  convert hmap using 3
  rw [map_map]
  rfl

/-- Every byte of a call is written by a tasklet. -/
theorem exists_tasklet_post (d : Distributor n) (h : call.Fits) {i : Nat}
    (hi : i < call.buf.length) :
    ∃ p ∈ (call.post d).tasklets, p.2.chnkId = (call.offset + i) / chunksize ∧
      p.2.offset ≤ (call.offset + i) % chunksize ∧
      (call.offset + i) % chunksize < p.2.offset + p.2.buf.length := by
  have hplan := planWrite_recordsOwner d call.path h.offset_lt h.size_pos h.size_lt
  have hs' : call.buf.length < 2 ^ 62 := h.size_lt.trans (by decide)
  obtain ⟨hlt, hlo, hhi, hoff⟩ :=
    Blocks.mem_piece chunksize_pos (Nat.mod_lt call.offset chunksize_pos) hi
  obtain ⟨hdiv, hmod⟩ := div_mod_add h.offset_lt i
  rw [hdiv, hmod, hoff]
  generalize (call.offset % chunksize + i) / chunksize = j at *
  have hmem : j ∈ ownedPieces call.offset call.buf.length (d.locateData call.path · 0)
      (d.locateData call.path (chnkStart call.offset + j) 0) :=
    mem_filter.2 ⟨mem_range.2 hlt, by simp⟩
  refine ⟨(d.locateData call.path (chnkStart call.offset + j) 0, call.pieceTasklet j), ?_, rfl,
    Nat.le_add_right _ _, ?_⟩
  · rw [tasklets_post d h, mem_flatMap]
    exact ⟨_, hplan.owner_mem h.offset_lt h.size_pos hs' hlt, mem_map_of_mem hmem⟩
  · show _ < fileOff (call.offset % chunksize) j + (call.pieceTasklet j).buf.length
    rw [WriteCall.length_pieceTasklet h hlt, len]
    omega

end

/-! ## What a step changes -/

/-- The request on its way. -/
def WriteRequest.fresh {n : Nat} (req : WriteRequest n) : WriteRequest n :=
  { req with phase := .onWay }

/-- A write as it was posted, apart from the progress of its requests and tasklets. -/
structure PostedWrite.Started {n : Nat} (d : Distributor n) (w : PostedWrite n) : Prop where
  requests : w.requests.map WriteRequest.fresh = (w.call.post d).requests
  tasklets : ∀ req ∈ w.requests,
    req.tasklets.map WriteTasklet.fresh = (writeTasklets req.inp req.bulk).getD []

section
variable {n : Nat} {d : Distributor n} {cl : Cluster n} {s s' : WritesState n} {w : PostedWrite n}
  {req req' : WriteRequest n}

theorem WriteTasklet.fresh_of_mem_writeTasklets {inp : DataIn} {bulk : List UInt8}
    {tasklets : List WriteTasklet} (h : writeTasklets inp bulk = some tasklets) :
    tasklets.map WriteTasklet.fresh = tasklets := by
  obtain ⟨bulkBuf, -, rfl⟩ := Option.map_eq_some_iff.1 h
  rw [map_map]
  rfl

theorem PostedWrite.started_post (d : Distributor n) (call : WriteCall) :
    (call.post d).Started d := by
  refine ⟨?_, fun req hreq => ?_⟩
  · rw [WriteCall.post, map_map]
    rfl
  · obtain ⟨target, -, rfl⟩ := mem_map.1 hreq
    simp only [WriteRequest.tasklets]
    cases h : writeTasklets ((planWrite d call.path call.offset call.buf.length 0).request
        call.path call.offset call.buf.length target) call.buf with
    | none => rfl
    | some tasklets => exact WriteTasklet.fresh_of_mem_writeTasklets h

/-- The tasklets of a write are those that it was posted with. -/
theorem PostedWrite.Started.tasklets_eq (h : w.Started d) :
    (w.tasklets.map fun p => (p.1, p.2.fresh)) = (w.call.post d).tasklets := by
  have hreq : ∀ req ∈ w.requests, ((req.tasklets.map (req.host, ·)).map fun p : Fin n × _ =>
      (p.1, p.2.fresh)) = req.fresh.tasklets.map (req.fresh.host, ·) := fun req hreq => by
    have hmap := congrArg (List.map (Prod.mk req.host)) (h.tasklets req hreq)
    rw [map_map] at hmap ⊢
    exact hmap
  rw [PostedWrite.tasklets, map_flatMap, flatMap_congr hreq, PostedWrite.tasklets,
    ← h.requests, flatMap_map]

/-- A request that has arrived has the tasklets it was to have. -/
theorem WriteRequest.tasklets_handle (h : req.phase = .onWay) :
    req.handle.tasklets = req.tasklets := by
  rw [WriteRequest.handle, WriteRequest.tasklets, WriteRequest.tasklets, h]
  cases writeTasklets req.inp req.bulk <;> rfl

theorem WriteRequest.fresh_handle (req : WriteRequest n) : req.handle.fresh = req.fresh := by
  rw [WriteRequest.handle]
  cases writeTasklets req.inp req.bulk <;> rfl

/-- A request at two times has the same arguments. -/
theorem WriteRequest.fields_of_fresh (h : req'.fresh = req.fresh) :
    req'.host = req.host ∧ req'.inp = req.inp ∧ req'.bulk = req.bulk := by
  rw [WriteRequest.fresh, WriteRequest.fresh, WriteRequest.mk.injEq] at h
  exact ⟨h.1, h.2.1, h.2.2.1⟩

/-- A write of which one request is replaced by one that differs in its progress. -/
theorem PostedWrite.Started.replace {w' : PostedWrite n}
    (h : w.Started d) (hcall : w'.call = w.call)
    (hreq : Replaced req req' w.requests w'.requests) (hfresh : req'.fresh = req.fresh)
    (htask : req'.tasklets.map WriteTasklet.fresh = req.tasklets.map WriteTasklet.fresh) :
    w'.Started d where
  requests := by rw [hcall, ← h.requests, hreq.map_eq hfresh]
  tasklets := by
    refine hreq.forall_mem h.tasklets ?_ fun _ _ hx => hx
    obtain ⟨-, hinp, hbulk⟩ := WriteRequest.fields_of_fresh hfresh
    rw [htask, hinp, hbulk]
    exact h.tasklets req hreq.mem_left

/-- What an event changes: a write is posted; or one request of one write, whose tasklets stay; or
one tasklet, which makes a system call. -/
theorem WritesState.step_cases {e : WriteEvent} (h : s.step d e = some s') :
    (∃ call, e = .post call ∧ s'.storages = s.storages ∧ s'.writes = s.writes ++ [call.post d]) ∨
    (∃ w w' req req', s'.storages = s.storages ∧ w'.call = w.call ∧
      Replaced w w' s.writes s'.writes ∧ Replaced req req' w.requests w'.requests ∧
      req'.fresh = req.fresh ∧ req'.tasklets = req.tasklets) ∨
    ∃ w w' req req' t t' st event, (∃ i j k, e = .tasklet i j k event) ∧ w'.call = w.call ∧
      Replaced w w' s.writes s'.writes ∧ Replaced req req' w.requests w'.requests ∧
      req'.fresh = req.fresh ∧ Replaced t t' req.tasklets req'.tasklets ∧
      t.step (s.storages req.host) event = some (st, t') ∧
      s'.storages = update s.storages req.host st := by
  cases e with
  | post call =>
    cases h
    exact .inl ⟨call, rfl, rfl, rfl⟩
  | arrive i j =>
    obtain ⟨w, hw, h⟩ := Option.bind_eq_some_iff.1 h
    obtain ⟨req, hreq, h⟩ := Option.bind_eq_some_iff.1 h
    cases hphase : req.phase with
    | onWay =>
      rw [hphase] at h
      cases h
      exact .inr (.inl ⟨w, { w with requests := w.requests.set j req.handle }, req, req.handle, rfl,
        rfl, Replaced.set hw _, Replaced.set hreq _, req.fresh_handle,
        WriteRequest.tasklets_handle hphase⟩)
    | refused | handled => rw [hphase] at h; cases h
  | tasklet i j k event =>
    obtain ⟨w, hw, h⟩ := Option.bind_eq_some_iff.1 h
    obtain ⟨req, hreq, h⟩ := Option.bind_eq_some_iff.1 h
    cases hphase : req.phase with
    | handled tasklets =>
      rw [hphase] at h
      obtain ⟨t, ht, h⟩ := Option.bind_eq_some_iff.1 h
      obtain ⟨⟨st, t'⟩, hstep, h⟩ := Option.map_eq_some_iff.1 h
      cases h
      let req' : WriteRequest n := { req with phase := .handled (tasklets.set k t') }
      refine .inr (.inr ⟨w, { w with requests := w.requests.set j req' }, req, req', t, t', st,
        event, ⟨i, j, k, rfl⟩, rfl, Replaced.set hw _, Replaced.set hreq _, rfl, ?_, hstep, rfl⟩)
      rw [WriteRequest.tasklets, hphase]
      exact Replaced.set ht t'
    | onWay | refused => rw [hphase] at h; cases h

end

/-! ## Bytes that are written, kept or filled -/

variable {a b : Option UInt8}

theorem KeptOrFilled.trans {c : Option UInt8} (h : KeptOrFilled a b) (h' : KeptOrFilled b c) :
    KeptOrFilled a c := by
  rcases h with rfl | ⟨rfl, rfl⟩
  · exact h'
  · rcases h' with rfl | ⟨hnone, -⟩
    · exact .inr ⟨rfl, rfl⟩
    · cases hnone

/-- A byte that is there is kept. -/
theorem KeptOrFilled.eq_getElem? (h : KeptOrFilled a b) {l : List UInt8}
    {i : Nat} (ha : a = l[i]?) (hi : i < l.length) : b = l[i]? := by
  rcases h with rfl | ⟨rfl, -⟩
  · exact ha
  · exact absurd ha.symm (List.getElem?_eq_none_iff.not.2 (Nat.not_le.2 hi))

/-- A byte outside a write is kept, or filled if it is before the write. -/
theorem keptOrFilled_overwrite (bytes : List UInt8) {offset off : Nat} {part : List UInt8}
    (h : ¬ (offset ≤ off ∧ off < offset + part.length)) :
    KeptOrFilled bytes[off]? (overwrite 0 bytes offset part)[off]? := by
  by_cases hpart : part = []
  · rw [hpart, overwrite_nil]
    exact .inl rfl
  rw [overwrite_getElem? 0 bytes offset off hpart]
  split
  · cases hbyte : bytes[off]? with
    | none => exact .inr ⟨rfl, rfl⟩
    | some b => exact .inl rfl
  · next hge =>
    rw [if_neg fun hlt => h ⟨Nat.le_of_not_lt hge, hlt⟩]
    exact .inl rfl

section
variable {n : Nat} {d : Distributor n} {cl : Cluster n} {s s' : WritesState n}

/-- A byte of a chunk file of a daemon. -/
def chunkByte (cl : Cluster n) (host : Fin n) (path : List Char) (id off : Nat) : Option UInt8 :=
  ((cl host).content path id)[off]?

theorem fileByte_eq_chunkByte (d : Distributor n) (cl : Cluster n) (path : List Char) (pos : Nat) :
    fileByte d cl path pos = chunkByte cl (d.locateData path (pos / chunksize) 0) path
      (pos / chunksize) (pos % chunksize) := by
  rw [fileByte, chunkByte, ChunkStorage.content]
  cases (cl (d.locateData path (pos / chunksize) 0)).file? path (pos / chunksize) <;> rfl

/-- A tasklet writes to a byte of a chunk file of a daemon. -/
structure TaskletCovers (p : Fin n × WriteTasklet) (host : Fin n) (path : List Char)
    (id off : Nat) : Prop where
  host : host = p.1
  dir : getChunksDir path = getChunksDir p.2.path
  chnkId : id = p.2.chnkId
  range : p.2.offset ≤ off ∧ off < p.2.offset + p.2.buf.length

/-- What a tasklet has written is in the chunk file. -/
def InPlace (cl : Cluster n) (p : Fin n × WriteTasklet) : Prop :=
  ∀ i < p.2.phase.wrote, chunkByte cl p.1 p.2.path p.2.chnkId (p.2.offset + i) = p.2.buf[i]?

/-- Every byte of the chunk files is the old one, filled, or the byte of a tasklet. -/
def Explained (cl : Cluster n) (s : WritesState n) : Prop :=
  ∀ host path id off, KeptOrFilled (chunkByte cl host path id off)
      (chunkByte s.storages host path id off) ∨
    ∃ p ∈ s.tasklets, TaskletCovers p host path id off ∧
      chunkByte s.storages host path id off = p.2.buf[off - p.2.offset]?

/-- What a system call of a tasklet does to the chunk files: a part of what is left is written
behind what has been written, and all else is kept. -/
structure PartWritten (cl cl' : Cluster n) (p : Fin n × WriteTasklet) (p' : Fin n × WriteTasklet) :
    Prop where
  fresh : (p'.1, p'.2.fresh) = (p.1, p.2.fresh)
  le : p.2.phase.wrote ≤ p'.2.phase.wrote
  valid : p'.2.phase.Valid p'.2.buf.length
  written : ∀ host path id off, TaskletCovers p host path id off →
    p.2.offset + p.2.phase.wrote ≤ off → off < p.2.offset + p'.2.phase.wrote →
      chunkByte cl' host path id off = p.2.buf[off - p.2.offset]?
  kept : ∀ host path id off, ¬ (TaskletCovers p host path id off ∧
      p.2.offset + p.2.phase.wrote ≤ off ∧ off < p.2.offset + p'.2.phase.wrote) →
    KeptOrFilled (chunkByte cl host path id off) (chunkByte cl' host path id off)

/-- What a step of a tasklet writes. -/
theorem WriteTasklet.partWritten {t t' : WriteTasklet} {host : Fin n} {st : ChunkStorage}
    {e : TaskletEvent} (h : t.step (cl host) e = some (st, t'))
    (hvalid : t.phase.Valid t.buf.length) (he : e.Possible) :
    PartWritten cl (update cl host st) (host, t) (host, t') := by
  obtain ⟨part, hpart, hfresh, hwrote, hvalid', hcontent⟩ := WriteTasklet.step_spec h hvalid he
  have hbuf : t'.fresh.buf = t.fresh.buf := congrArg WriteTasklet.buf hfresh
  rw [WriteTasklet.fresh, WriteTasklet.fresh] at hbuf
  have hlen : t.phase.wrote + part.length ≤ t.buf.length := by
    have := hpart.length_le
    have := hvalid.wrote_le
    rw [length_drop] at *
    omega
  have hbyte : ∀ host' path id off, chunkByte (update cl host st) host' path id off =
      if host' = host ∧ getChunksDir path = getChunksDir t.path ∧ id = t.chnkId then
        (overwrite 0 ((cl host').content path id) (t.offset + t.phase.wrote) part)[off]?
      else chunkByte cl host' path id off := by
    intro host' path id off
    rw [chunkByte]
    by_cases hhost : host' = host
    · subst hhost
      rw [update_self, hcontent]
      simp only [true_and]
      split <;> rfl
    · rw [update_of_ne hhost, if_neg fun hc => hhost hc.1, chunkByte]
  refine ⟨by rw [hfresh], by dsimp only; omega, by rwa [hbuf],
    fun host' path id off hcov hge hlt => ?_, fun host' path id off hout => ?_⟩
  · dsimp only at hge hlt
    rw [hwrote] at hlt
    rw [hbyte, if_pos ⟨hcov.host, hcov.dir, hcov.chnkId⟩,
      overwrite_getElem?_mem 0 _ hge (by omega)]
    obtain ⟨rest, hrest⟩ := hpart
    rw [← @List.getElem?_append_left _ part rest _ (by omega), hrest, getElem?_drop]
    congr 1
    dsimp only
    omega
  · rw [hbyte]
    split
    · next hsame =>
      refine keptOrFilled_overwrite _ fun hin => hout ⟨⟨hsame.1, hsame.2.1, hsame.2.2, ?_⟩, ?_⟩
      · dsimp only
        omega
      · dsimp only
        rw [hwrote]
        omega
    · exact .inl rfl

/-! ## The invariant -/

variable {call : WriteCall} {p p' q : Fin n × WriteTasklet} {host : Fin n} {path : List Char}
  {id off : Nat} {w : PostedWrite n} {cl cl' : Cluster n}

/-- What holds in every reachable state of concurrent writes. -/
structure WritesInv (d : Distributor n) (cl : Cluster n) (s : WritesState n) : Prop where
  started : ∀ w ∈ s.writes, w.Started d
  fits : ∀ w ∈ s.writes, w.call.Fits
  apart : s.writes.Pairwise fun w w' => w.call.Apart w'.call
  valid : ∀ p ∈ s.tasklets, p.2.phase.Valid p.2.buf.length
  inPlace : ∀ p ∈ s.tasklets, InPlace s.storages p
  explained : Explained cl s

theorem WritesState.mem_tasklets : p ∈ s.tasklets ↔ ∃ w ∈ s.writes, p ∈ w.tasklets :=
  mem_flatMap

/-- A tasklet of a write that was started writes a part of its call. -/
theorem PostedWrite.Started.partOf (h : w.Started d) (hfits : w.call.Fits)
    (hp : p ∈ w.tasklets) : PartOf d w.call p := by
  have hmem : (p.1, p.2.fresh) ∈ (w.call.post d).tasklets := by
    rw [← h.tasklets_eq]
    exact mem_map_of_mem hp
  exact { partOf_of_mem_post hfits hmem with }

/-- A byte that a tasklet writes is in the range of its call. -/
theorem PartOf.covers (h : PartOf d call p) (hcov : TaskletCovers p host path id off) :
    call.Covers (chunkPos id off) := by
  obtain ⟨i, rfl⟩ := Nat.exists_eq_add_of_le hcov.range.1
  rw [hcov.chnkId]
  exact (h.bytes i (by have := hcov.range.2; omega)).1

/-- A byte that a tasklet writes is the byte of its call. -/
theorem PartOf.byte_eq (h : PartOf d call p) (hcov : TaskletCovers p host path id off) :
    p.2.buf[off - p.2.offset]? = call.buf[chunkPos id off - call.offset]? := by
  obtain ⟨i, rfl⟩ := Nat.exists_eq_add_of_le hcov.range.1
  rw [hcov.chnkId, Nat.add_sub_cancel_left]
  exact (h.bytes i (by have := hcov.range.2; omega)).2

/-- Two tasklets that do not write to a common byte. -/
def TaskletsApart (p q : Fin n × WriteTasklet) : Prop :=
  ∀ host path id off, TaskletCovers p host path id off → ¬ TaskletCovers q host path id off

/-- No two tasklets write to a common byte. -/
theorem WritesInv.pairwise (h : WritesInv d cl s) : s.tasklets.Pairwise TaskletsApart := by
  rw [WritesState.tasklets, pairwise_flatMap]
  refine ⟨fun w hw => ?_, h.apart.imp_of_mem fun {w w'} hw hw' hapart p hp q hq => ?_⟩
  · -- tasklets of one call write to different chunks
    have hnodup := nodup_tasklets_post d (h.fits w hw)
    rw [← (h.started w hw).tasklets_eq, map_map] at hnodup
    refine (pairwise_map.1 hnodup).imp fun {p q} hne host path id off hp hq => ?_
    exact hne (hp.chnkId.symm.trans hq.chnkId)
  · intro host path id off hcov hcov'
    have hpart := (h.started w hw).partOf (h.fits w hw) hp
    have hpart' := (h.started w' hw').partOf (h.fits w' hw') hq
    have hdir := hcov.dir.symm.trans hcov'.dir
    rw [hpart.path, hpart'.path] at hdir
    have hrange := (hapart hdir).2
    have hpos := hpart.covers hcov
    have hpos' := hpart'.covers hcov'
    rw [WriteCall.Covers] at hpos hpos'
    omega

/-- A tasklet at two times has the same arguments. -/
theorem fields_of_fresh (h : (p'.1, p'.2.fresh) = (p.1, p.2.fresh)) :
    p'.1 = p.1 ∧ p'.2.path = p.2.path ∧ p'.2.chnkId = p.2.chnkId ∧ p'.2.buf = p.2.buf ∧
      p'.2.offset = p.2.offset := by
  obtain ⟨hhost, htask⟩ := Prod.mk.inj h
  rw [WriteTasklet.fresh, WriteTasklet.fresh, WriteTasklet.mk.injEq] at htask
  exact ⟨hhost, htask.1, htask.2.1, htask.2.2.1, htask.2.2.2.1⟩

/-- What a tasklet covers does not depend on its progress. -/
theorem TaskletCovers.congr (h : TaskletCovers p host path id off)
    (hfresh : (p'.1, p'.2.fresh) = (p.1, p.2.fresh)) : TaskletCovers p' host path id off := by
  obtain ⟨hhost, hpath, hid, hbuf, hoff⟩ := fields_of_fresh hfresh
  exact ⟨hhost ▸ h.host, hpath ▸ h.dir, hid ▸ h.chnkId, by rw [hbuf, hoff]; exact h.range⟩

/-- What another tasklet has written stays in place. -/
theorem InPlace.keep (h : InPlace cl q) (hw : PartWritten cl cl' p p')
    (hapart : TaskletsApart p q) (hq : q.2.phase.Valid q.2.buf.length) : InPlace cl' q := by
  intro i hi
  have hlt := hi.trans_le hq.wrote_le
  have hcov : TaskletCovers q q.1 q.2.path q.2.chnkId (q.2.offset + i) :=
    ⟨rfl, rfl, rfl, by omega⟩
  have hkept := hw.kept q.1 q.2.path q.2.chnkId (q.2.offset + i)
    fun hc => hapart _ _ _ _ hc.1 hcov
  exact hkept.eq_getElem? (h i hi) hlt

/-- What a tasklet has written, the last part included, is in place. -/
theorem InPlace.advance (h : InPlace cl p) (hw : PartWritten cl cl' p p') :
    InPlace cl' p' := by
  obtain ⟨hhost, hpath, hid, hbuf, hoff⟩ := fields_of_fresh hw.fresh
  intro i hi
  have hlt := hi.trans_le hw.valid.wrote_le
  rw [hbuf] at hlt
  rw [hbuf, hoff, hpath, hid, hhost]
  have hcov : TaskletCovers p p.1 p.2.path p.2.chnkId (p.2.offset + i) :=
    ⟨rfl, rfl, rfl, by omega⟩
  by_cases hnew : p.2.phase.wrote ≤ i
  · rw [hw.written _ _ _ _ hcov (by omega) (by omega), Nat.add_sub_cancel_left]
  · have hkept := hw.kept p.1 p.2.path p.2.chnkId (p.2.offset + i) fun hc => by omega
    exact hkept.eq_getElem? (h i (by omega)) hlt

/-- A part that a tasklet writes is explained by the tasklet, and all else as before. -/
theorem Explained.advance (h : Explained cl s)
    (hw : PartWritten s.storages s'.storages p p')
    (hr : Replaced p p' s.tasklets s'.tasklets) : Explained cl s' := by
  obtain ⟨-, -, -, hbuf, hoff⟩ := fields_of_fresh hw.fresh
  intro host path id off
  by_cases hnew : TaskletCovers p host path id off ∧ p.2.offset + p.2.phase.wrote ≤ off ∧
      off < p.2.offset + p'.2.phase.wrote
  · refine .inr ⟨p', hr.mem_right, hnew.1.congr hw.fresh, ?_⟩
    rw [hbuf, hoff]
    exact hw.written host path id off hnew.1 hnew.2.1 hnew.2.2
  have hkept := hw.kept host path id off hnew
  rcases h host path id off with hold | ⟨q, hq, hcov, hbyte⟩
  · exact .inl (hold.trans hkept)
  · -- the tasklet that explains the byte may be the one that has moved on
    have hbyte := hkept.eq_getElem? hbyte (by have := hcov.range; omega)
    right
    obtain ⟨u, v, hu, hv⟩ := hr
    rw [hu] at hq
    rw [hv]
    rcases mem_append.1 hq with hq | hq
    · exact ⟨q, mem_append_left _ hq, hcov, hbyte⟩
    rcases mem_cons.1 hq with rfl | hq
    · refine ⟨p', mem_append_right _ mem_cons_self, hcov.congr hw.fresh, ?_⟩
      rw [hbuf, hoff]
      exact hbyte
    · exact ⟨q, mem_append_right _ (mem_cons_of_mem _ hq), hcov, hbyte⟩

/-- A write that is posted has written nothing. -/
theorem WritesInv.post (h : WritesInv d cl s) (hcall : call.Fits)
    (hapart : ∀ w ∈ s.writes, w.call.Apart call) (hst : s'.storages = s.storages)
    (hwrites : s'.writes = s.writes ++ [call.post d]) : WritesInv d cl s' := by
  have htask : s'.tasklets = s.tasklets ++ (call.post d).tasklets := by
    rw [WritesState.tasklets, hwrites, flatMap_append, flatMap_singleton]
    rfl
  have hnew : ∀ p ∈ (call.post d).tasklets, p.2.phase = .new := by
    intro p hp
    rw [tasklets_post d hcall, mem_flatMap] at hp
    obtain ⟨t, -, hp⟩ := hp
    obtain ⟨j, -, rfl⟩ := mem_map.1 hp
    rfl
  refine ⟨?_, ?_, ?_, ?_, ?_, ?_⟩
  · rw [hwrites, forall_mem_append]
    exact ⟨h.started, by simpa using PostedWrite.started_post d call⟩
  · rw [hwrites, forall_mem_append]
    exact ⟨h.fits, by simpa using hcall⟩
  · rw [hwrites, pairwise_append]
    exact ⟨h.apart, pairwise_singleton _ _, by simpa using hapart⟩
  · rw [htask, forall_mem_append]
    exact ⟨h.valid, fun p hp => by rw [hnew p hp]; trivial⟩
  · rw [htask, forall_mem_append, hst]
    exact ⟨h.inPlace, fun p hp i hi => by rw [hnew p hp] at hi; cases hi⟩
  · intro host path id off
    rw [hst, htask]
    rcases h.explained host path id off with hold | ⟨p, hp, hbyte⟩
    · exact .inl hold
    · exact .inr ⟨p, mem_append_left _ hp, hbyte⟩

/-- A write of which only the progress has changed. -/
theorem WritesInv.replace_write {w' : PostedWrite n} (h : WritesInv d cl s)
    (hw : Replaced w w' s.writes s'.writes) (hcall : w'.call = w.call) (hw' : w'.Started d) :
    (∀ w ∈ s'.writes, w.Started d) ∧ (∀ w ∈ s'.writes, w.call.Fits) ∧
      s'.writes.Pairwise fun w w' => w.call.Apart w'.call := by
  refine ⟨hw.forall_mem h.started hw' fun _ _ hx => hx,
    hw.forall_mem h.fits (hcall ▸ h.fits w hw.mem_left) fun _ _ hx => hx, ?_⟩
  rw [← pairwise_map (f := PostedWrite.call), hw.map_eq hcall, pairwise_map]
  exact h.apart

/-- A step keeps the invariant. -/
theorem WritesInv.step {e : WriteEvent} (h : WritesInv d cl s) (hok : e.Ok s)
    (hstep : s.step d e = some s') : WritesInv d cl s' := by
  rcases WritesState.step_cases hstep with ⟨call, rfl, hst, hwrites⟩ |
    ⟨w, w', req, req', hst, hcall, hw, hreq, hfresh, htask⟩ |
    ⟨w, w', req, req', t, t', st, event, ⟨i, j, k, rfl⟩, hcall, hw, hreq, hfresh, ht, hstep', hst⟩
  · exact h.post hok.1 hok.2 hst hwrites
  · have hhost := (WriteRequest.fields_of_fresh hfresh).1
    have htasklets : s'.tasklets = s.tasklets :=
      hw.flatMap_eq (hreq.flatMap_eq (by rw [htask, hhost]))
    obtain ⟨hstarted, hfits, hapart⟩ := h.replace_write hw hcall
      ((h.started w hw.mem_left).replace hcall hreq hfresh (by rw [htask]))
    refine ⟨hstarted, hfits, hapart, ?_, ?_, fun host path id off => ?_⟩
    · rw [htasklets]
      exact h.valid
    · rw [htasklets, hst]
      exact h.inPlace
    · rw [hst, htasklets]
      exact h.explained host path id off
  · have hhost := (WriteRequest.fields_of_fresh hfresh).1
    have hr : Replaced (req.host, t) (req.host, t') s.tasklets s'.tasklets := by
      refine hw.flatMap (hreq.flatMap ?_)
      rw [hhost]
      exact ht.map (req.host, ·)
    have hpart : PartWritten s.storages s'.storages (req.host, t) (req.host, t') := by
      rw [hst]
      exact WriteTasklet.partWritten hstep' (h.valid _ hr.mem_left) hok
    obtain ⟨hstarted, hfits, hapart⟩ := h.replace_write hw hcall
      ((h.started w hw.mem_left).replace hcall hreq hfresh
        (ht.map_eq (Prod.mk.inj hpart.fresh).2))
    have hboth : ∀ q ∈ s.tasklets, InPlace s.storages q ∧ q.2.phase.Valid q.2.buf.length :=
      fun q hq => ⟨h.inPlace q hq, h.valid q hq⟩
    refine ⟨hstarted, hfits, hapart, hr.forall_mem h.valid hpart.valid fun _ _ hx => hx, ?_,
      h.explained.advance hpart hr⟩
    exact hr.forall_mem_of_pairwise h.pairwise
      (fun _ _ hpq host path id off hq hp => hpq host path id off hp hq) hboth
      ((h.inPlace _ hr.mem_left).advance hpart) fun q hapart hq => hq.1.keep hpart hapart hq.2

/-- The invariant holds at the start. -/
theorem WritesInv.start (d : Distributor n) (cl : Cluster n) : WritesInv d cl (.start cl) :=
  ⟨by simp [WritesState.start], by simp [WritesState.start], List.Pairwise.nil,
    by simp [WritesState.start, WritesState.tasklets],
    by simp [WritesState.start, WritesState.tasklets],
    fun _ _ _ _ => .inl (.inl rfl)⟩

end

end GekkoFS
