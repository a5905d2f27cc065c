import GekkoFS.Lib.Traverse
import GekkoFS.WriteInvariant

/-!
# Concurrent writes

A write that has returned without an error has a reply to each of its requests, and each reply is
made of the results of all tasklets. So its tasklets have written all their bytes. With the
invariant of the machine, in every reachable state of a run whose calls write to different parts of
the file, whatever else is under way or has failed, a call that has returned without an error has
returned its size and all of its bytes are in the file, a byte that no call writes is kept, and a
byte that is being written is the old or the new one (`writesOk_of_run`).
-/

namespace GekkoFS

open Function Transition
open List hiding count

open Blocks (count)
open ChunkStorage (getChunksDir)

/-! ## Calls that have returned -/

/-- A write call returns no error only if no reply has one. -/
theorem collectWrites_eq_zero : ∀ {outs : List DataOut} {err outSize : Nat},
    (collectWrites (outs.map some) err outSize).1 = 0 → err = 0 ∧ ∀ out ∈ outs, out.err = 0
  | [], err, outSize, h => ⟨h, by simp⟩
  | out :: outs, err, outSize, h => by
    rw [map_cons, collectWrites] at h
    split at h
    · next hne => exact absurd (collectWrites_eq_zero h).1 hne
    · next heq =>
      obtain ⟨herr, houts⟩ := collectWrites_eq_zero h
      exact ⟨herr, forall_mem_cons.2 ⟨not_not.1 heq, houts⟩⟩

/-- A request is answered without an error only if every tasklet has a result, and no result is an
error with a code. -/
theorem waitForTasksLoop_eq_zero {es : List (Option (Except Nat Nat))} {ioErr total : Nat}
    (h : (waitForTasksLoop es ioErr total).1 = 0) :
    ioErr = 0 ∧ ∀ e ∈ es, e.isSome ∧ ∀ errno, e = some (.error errno) → errno = 0 := by
  induction es generalizing ioErr total with
  | nil => exact ⟨h, by simp⟩
  | cons e es ih =>
    cases e with
    | none =>
      have hio : EIO = 0 := (ih h).1
      cases hio
    | some taskSize =>
      rw [waitForTasksLoop.eq_def] at h
      dsimp only at h
      split at h
      · next hne => exact absurd (ih h).1 hne
      next heq =>
      refine ⟨not_not.1 heq, ?_⟩
      cases taskSize with
      | error errno =>
        refine forall_mem_cons.2 ⟨⟨rfl, fun _ he => ?_⟩, (ih h).2⟩
        cases he
        exact (ih h).1
      | ok size => exact forall_mem_cons.2 ⟨⟨rfl, fun _ he => (by cases he)⟩, (ih h).2⟩

section
variable {n : Nat} {d : Distributor n} {cl : Cluster n} {s s' : WritesState n}

/-- The bytes of the tasklets of a request. -/
def WriteRequest.size (req : WriteRequest n) : Nat :=
  (req.tasklets.map fun t => t.buf.length).sum

/-- A tasklet without an error has written all its bytes. -/
theorem TaskletPhase.Valid.eventual_eq {size : Nat} {phase : TaskletPhase} (h : phase.Valid size)
    (hsome : phase.eventual.isSome)
    (hok : ∀ errno, phase.eventual = some (.error errno) → errno = 0) :
    phase.wrote = size ∧ phase.eventual = some (.ok size) := by
  cases phase with
  | new | hasDir | writing => cases hsome
  | finished wrote result =>
    cases result with
    | ok total => exact ⟨h.1, by rw [TaskletPhase.eventual, h.2]⟩
    | error errno => exact absurd (hok errno rfl) h.2

/-- A request that is answered without an error has all its bytes written, and reports them. -/
theorem WriteRequest.reply_ok {req : WriteRequest n} {out : DataOut} (h : req.reply = some out)
    (herr : out.err = 0) (hvalid : ∀ t ∈ req.tasklets, t.phase.Valid t.buf.length) :
    (∀ t ∈ req.tasklets, t.phase.wrote = t.buf.length) ∧ out = ⟨0, req.size⟩ := by
  rw [WriteRequest.reply] at h
  rw [WriteRequest.size]
  cases hphase : req.phase with
  | onWay => rw [hphase] at h; cases h
  | refused =>
    rw [hphase] at h
    cases h
    cases herr
  | handled tasklets =>
    have htask : req.tasklets = tasklets := by rw [WriteRequest.tasklets, hphase]
    rw [htask] at hvalid ⊢
    rw [hphase] at h
    dsimp only at h
    split at h
    · next hsome =>
      rw [Option.some.injEq] at h
      rw [← h] at herr ⊢
      obtain ⟨-, hes⟩ := waitForTasksLoop_eq_zero herr
      have hall : ∀ t ∈ tasklets, t.phase.wrote = t.buf.length ∧
          t.phase.eventual = some (.ok t.buf.length) := fun t ht =>
        (hvalid t ht).eventual_eq (hsome t ht)
          (hes _ (mem_append_left _ (mem_map_of_mem ht))).2
      -- no eventual is missing
      have hmissing : List.replicate (req.inp.chunkN - tasklets.length)
          (none : Option (Except Nat Nat)) = [] := by
        by_contra hne
        obtain ⟨e, he⟩ := exists_mem_of_ne_nil _ hne
        have hnone := (hes e (mem_append_right _ he)).1
        rw [eq_of_mem_replicate he] at hnone
        cases hnone
      have hmap : (tasklets.map fun t => t.phase.eventual) =
          (tasklets.map fun t => t.buf.length).map fun k => some (.ok k) := by
        rw [map_map]
        exact map_congr_left fun t ht => (hall t ht).2
      refine ⟨fun t ht => (hall t ht).1, ?_⟩
      rw [hmissing, append_nil, hmap, waitForTasks_ok]
    · cases h

/-- A write that has returned without an error has all its bytes written. -/
theorem PostedWrite.result_ok {w : PostedWrite n} {size : Nat} (h : w.result = some (0, size))
    (hvalid : ∀ p ∈ w.tasklets, p.2.phase.Valid p.2.buf.length) :
    (∀ p ∈ w.tasklets, p.2.phase.wrote = p.2.buf.length) ∧
      size = (w.tasklets.map fun p => p.2.buf.length).sum := by
  have hvalid' : ∀ req ∈ w.requests, ∀ t ∈ req.tasklets, t.phase.Valid t.buf.length :=
    fun req hreq t ht => hvalid (req.host, t)
      (mem_flatMap.2 ⟨req, hreq, mem_map_of_mem ht⟩)
  obtain ⟨outs, houts, hres⟩ := Option.map_eq_some_iff.1 h
  have hmap := Traverse.map_eq_of_mapM houts
  rw [writeResult] at hres
  split at hres
  · next hne => exact absurd (Prod.mk.inj hres).1 hne
  next hzero =>
  obtain ⟨-, herr⟩ := collectWrites_eq_zero (not_not.1 hzero)
  have hreply : ∀ req ∈ w.requests, (∀ t ∈ req.tasklets, t.phase.wrote = t.buf.length) ∧
      req.reply = some ⟨0, req.size⟩ := by
    intro req hreq
    have hmem : req.reply ∈ outs.map some := hmap ▸ mem_map_of_mem hreq
    obtain ⟨out, hout, he⟩ := mem_map.1 hmem
    obtain ⟨hwrote, heq⟩ := WriteRequest.reply_ok he.symm (herr out hout) (hvalid' req hreq)
    exact ⟨hwrote, by rw [← he, heq]⟩
  refine ⟨fun p hp => ?_, ?_⟩
  · obtain ⟨req, hreq, hp⟩ := mem_flatMap.1 hp
    obtain ⟨t, ht, rfl⟩ := mem_map.1 hp
    exact (hreply req hreq).1 t ht
  · have hsizes : outs.map some = (w.requests.map WriteRequest.size).map fun k =>
        some (⟨0, k⟩ : DataOut) := by
      rw [← hmap, map_map]
      exact map_congr_left fun req hreq => (hreply req hreq).2
    rw [hsizes, collectWrites_ok, Nat.zero_add, if_pos rfl] at hres
    rw [← (Prod.mk.inj hres).2, PostedWrite.tasklets, map_flatMap, flatMap_def,
      sum_flatten, map_map]
    refine congrArg List.sum (map_congr_left fun req _ => ?_)
    rw [WriteRequest.size, comp_apply, map_map]
    rfl

variable {call : WriteCall}

/-- The tasklets of a call have all its bytes. -/
theorem sum_tasklets_post (d : Distributor n) (h : call.Fits) :
    ((call.post d).tasklets.map fun p => p.2.buf.length).sum = call.buf.length := by
  have hplan := planWrite_recordsOwner d call.path h.offset_lt h.size_pos h.size_lt
  have hperm := flatMap_ownedPieces_perm hplan h.offset_lt h.size_pos (h.size_lt.trans (by decide))
  have ho := Nat.mod_lt call.offset chunksize_pos
  have hsum := (hperm.map fun j => (call.pieceTasklet j).buf.length).sum_eq
  rw [map_congr_left fun j hj => WriteCall.length_pieceTasklet h (mem_range.1 hj),
    Blocks.sum_len_range chunksize_pos h.size_pos ho] at hsum
  refine Eq.trans ?_ hsum
  rw [tasklets_post d h, map_flatMap, map_flatMap]
  simp only [map_map, comp_def]

/-- Two different writes to the same chunk files. -/
theorem WritesInv.apart_of_ne (h : WritesInv d cl s) {w w' : PostedWrite n} (hw : w ∈ s.writes)
    (hw' : w' ∈ s.writes) (hne : w ≠ w') : w.call.Apart w'.call := by
  have hsymm : Std.Symm fun w w' : PostedWrite n => w.call.Apart w'.call :=
    ⟨fun _ _ hapart hdir => ⟨(hapart hdir.symm).1.symm, (hapart hdir.symm).2.symm⟩⟩
  exact h.apart.forall hw hw' hne

theorem chunkPos_div_mod (pos : Nat) : chunkPos (pos / chunksize) (pos % chunksize) = pos := by
  rw [chunkPos, Nat.div_add_mod']

/-- A byte of a file is the old one, filled, or that of a call. -/
theorem WritesInv.explained_call (h : WritesInv d cl s) {path : List Char}
    (hname : ∀ w ∈ s.writes, getChunksDir w.call.path = getChunksDir path → w.call.path = path)
    (pos : Nat) : KeptOrFilled (fileByte d cl path pos) (fileByte d s.storages path pos) ∨
      ∃ w ∈ s.writes, w.call.path = path ∧ w.call.Covers pos ∧
        fileByte d s.storages path pos = w.call.buf[pos - w.call.offset]? := by
  rw [fileByte_eq_chunkByte, fileByte_eq_chunkByte]
  rcases h.explained (d.locateData path (pos / chunksize) 0) path (pos / chunksize)
      (pos % chunksize) with hold | ⟨p, hp, hcov, heq⟩
  · exact .inl hold
  · obtain ⟨w, hw, hp⟩ := WritesState.mem_tasklets.1 hp
    have hpart := (h.started w hw).partOf (h.fits w hw) hp
    have hdir := hcov.dir.symm
    rw [hpart.path] at hdir
    have hpos := hpart.covers hcov
    have heq' := hpart.byte_eq hcov
    rw [chunkPos_div_mod] at hpos heq'
    exact .inr ⟨w, hw, hname w hw hdir, hpos, heq.trans heq'⟩

/-- A call that has returned without an error has its bytes in the file. -/
theorem WritesInv.returned (h : WritesInv d cl s) {w : PostedWrite n} (hw : w ∈ s.writes)
    {size : Nat} (hres : w.result = some (0, size)) :
    size = w.call.buf.length ∧ ∀ i < w.call.buf.length,
      fileByte d s.storages w.call.path (w.call.offset + i) = w.call.buf[i]? := by
  have hvalid : ∀ p ∈ w.tasklets, p.2.phase.Valid p.2.buf.length := fun p hp =>
    h.valid p (WritesState.mem_tasklets.2 ⟨w, hw, hp⟩)
  obtain ⟨hwrote, rfl⟩ := PostedWrite.result_ok hres hvalid
  have hsum := sum_tasklets_post d (h.fits w hw)
  rw [← (h.started w hw).tasklets_eq, map_map] at hsum
  refine ⟨hsum, fun i hi => ?_⟩
  -- the tasklet that writes byte `i` has written all its bytes
  obtain ⟨q, hq, hid, hge, hlt⟩ := exists_tasklet_post d (h.fits w hw) hi
  rw [← (h.started w hw).tasklets_eq, mem_map] at hq
  obtain ⟨p, hp, rfl⟩ := hq
  have hpart := (h.started w hw).partOf (h.fits w hw) hp
  dsimp only [WriteTasklet.fresh] at hid hge hlt
  obtain ⟨k, hk⟩ := Nat.exists_eq_add_of_le hge
  have hklt : k < p.2.buf.length := by omega
  have hin := h.inPlace p (WritesState.mem_tasklets.2 ⟨w, hw, hp⟩) k
    (by rw [hwrote p hp]; exact hklt)
  have hhost := hpart.host
  have hbytes := (hpart.bytes k hklt).2
  rw [hid, ← hk, hpart.path] at hin
  rw [hid] at hhost
  rw [hid, ← hk, chunkPos_div_mod, Nat.add_sub_cancel_left] at hbytes
  rw [fileByte_eq_chunkByte, hhost, hin, hbytes]

/-- The bytes of a file in a reachable state. -/
theorem WritesInv.writesOk (h : WritesInv d cl s) {path : List Char}
    (hname : ∀ w ∈ s.writes, getChunksDir w.call.path = getChunksDir path → w.call.path = path) :
    WritesOk d cl s path := by
  refine ⟨fun w hw hpath size hres => ?_, fun w hw hpath i hi => ?_, fun pos hpos => ?_⟩
  · rw [← hpath]
    exact h.returned hw hres
  · rcases h.explained_call hname (w.call.offset + i) with hold | ⟨w', hw', hpath', hcov, heq⟩
    · exact .inr hold
    · by_cases hsame : w = w'
      · left
        rw [heq, ← hsame, Nat.add_sub_cancel_left]
      · -- two calls on the file do not write to a common position
        have hrange := (h.apart_of_ne hw hw' hsame (by rw [hpath, hpath'])).2
        rw [WriteCall.Covers] at hcov
        omega
  · rcases h.explained_call hname pos with hold | ⟨w, hw, hpath, hcov, -⟩
    · exact hold
    · exact absurd hcov (hpos w hw hpath)

/-- In every state that concurrent writes to different parts of the files reach, a call that has
returned without an error has its bytes in the file, and no byte is lost. -/
theorem writesOk_of_run (d : Distributor n) (cl : Cluster n) (events : List WriteEvent)
    (hok : Transition.AllOk (WritesState.step d) WriteEvent.Ok (.start cl) events)
    (hrun : run (WritesState.step d) (.start cl) events = some s) (path : List Char)
    (hname : ∀ w ∈ s.writes, getChunksDir w.call.path = getChunksDir path → w.call.path = path) :
    WritesOk d cl s path :=
  (run_invariant (I := WritesInv d cl) (fun _ _ _ h hok hstep => h.step hok hstep)
    (.start d cl) hok hrun).writesOk hname

end

/-- Two daemons, of which each has every other chunk of a file. -/
def byLastDigit : Distributor 2 :=
  simpleHashDistributor (fun s => (s.getLastD '0').toNat) 2 Nat.two_pos

/-- One process writes across the boundary between two chunks, another one behind it. The request of
the second arrives first; the first has a byte in the second chunk, is interrupted, and goes on
after the second has written. -/
def meetingWrites : List WriteEvent :=
  [.post ⟨"/f".toList, [1, 2, 3, 4], 524286⟩, .post ⟨"/f".toList, [5, 6], 524290⟩, .arrive 1 0,
    .arrive 0 1, .tasklet 0 1 0 (.mkdir none), .tasklet 1 0 0 (.mkdir none),
    .tasklet 0 1 0 (.openFile none), .tasklet 0 1 0 (.pwrite (.bytes 1 Nat.one_pos)), .arrive 0 0,
    .tasklet 1 0 0 (.openFile none), .tasklet 0 1 0 (.pwrite (.failed EINTR)),
    .tasklet 1 0 0 (.pwrite (.bytes 2 Nat.two_pos)), .tasklet 0 0 0 (.mkdir none),
    .tasklet 0 1 0 (.pwrite (.bytes 2 Nat.two_pos)), .tasklet 0 0 0 (.openFile none),
    .tasklet 0 0 0 (.pwrite (.bytes 2 Nat.two_pos))]

/-- Both writes return their sizes. -/
theorem writesOk_of_run_meetingWrites :
    ∃ s, run (WritesState.step byLastDigit) (.start fun _ => ∅) meetingWrites = some s ∧
      s.writes.map PostedWrite.result = [some (0, 4), some (0, 2)] ∧
      WritesOk byLastDigit (fun _ => ∅) s "/f".toList := by
  have hrun : (run (WritesState.step byLastDigit) (.start fun _ => ∅)
      meetingWrites).map (fun s => (s.writes.map PostedWrite.result,
        s.writes.map fun w => w.call.path)) =
      some ([some (0, 4), some (0, 2)], ["/f".toList, "/f".toList]) := by decide +kernel
  obtain ⟨s, hs, heq⟩ := Option.map_eq_some_iff.1 hrun
  obtain ⟨hres, hpaths⟩ := Prod.mk.inj heq
  refine ⟨s, hs, hres, writesOk_of_run byLastDigit _ meetingWrites (by decide +kernel) hs _ ?_⟩
  intro w hw _
  have hmem : w.call.path ∈ ["/f".toList, "/f".toList] := hpaths ▸ mem_map_of_mem hw
  simpa using hmem

end GekkoFS
