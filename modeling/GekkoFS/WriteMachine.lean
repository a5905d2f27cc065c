import GekkoFS.Daemon.ChunkTransfer
import GekkoFS.Lib.Transition
import GekkoFS.Striping

/-!
# The machine of concurrent writes

Writes of several processes meet in the daemons: their requests arrive in any order, every request
starts a tasklet for each of its chunks, the tasklets of all requests take turns, and each of them
makes its system calls one at a time, where a `pwrite` may write a part only. No lock is held
anywhere. `WritesState.step` is this machine; its events are the posting of a call, the arrival of a
request, and the system calls of the tasklets with the system's answers. `WritesOk` says what should
hold of the bytes of a file in a state of the machine, and `WriteTasklet.step_spec` what one system
call of a tasklet does to the chunk files.
-/

namespace GekkoFS

open Bytes Function List

open ChunkStorage (getChunksDir)

/-! ## Tasklets -/

namespace ChunkStorage

/-- Give a chunk file a content. -/
def setFile (st : ChunkStorage) (filePath : List Char) (chunkId : Nat) (bytes : List UInt8) :
    ChunkStorage :=
  st.insert (getChunksDir filePath)
    (((st.lookup (getChunksDir filePath)).getD ∅).insert chunkId bytes)

/-- Open a chunk file for writing, which is created if it is missing. -/
def openFile (st : ChunkStorage) (filePath : List Char) (chunkId : Nat) : ChunkStorage :=
  st.setFile filePath chunkId ((st.file? filePath chunkId).getD [])

end ChunkStorage

/-- How far a write tasklet is: nothing done, the directory there, so many bytes written to the open
file, or its result in the eventual. -/
inductive TaskletPhase
  | new
  | hasDir
  | writing (wrote : Nat)
  | finished (wrote : Nat) (result : Except Nat Nat)

/-- The bytes that have been written. -/
def TaskletPhase.wrote : TaskletPhase → Nat
  | new => 0
  | hasDir => 0
  | writing wrote => wrote
  | finished wrote _ => wrote

/-- What is in the eventual of a tasklet. -/
def TaskletPhase.eventual : TaskletPhase → Option (Except Nat Nat)
  | new => none
  | hasDir => none
  | writing _ => none
  | finished _ result => some result

/-- A write tasklet: its arguments, and how far it is. Source: `chunk_write_args`
(`ops/data.hpp:238`). -/
structure WriteTasklet where
  path : List Char
  chnkId : Nat
  buf : List UInt8
  offset : Nat
  phase : TaskletPhase

/-- A system call of a tasklet: the code of an error if it fails, and for a `pwrite` the answer. -/
inductive TaskletEvent
  | mkdir (failure : Option Nat)
  | openFile (failure : Option Nat)
  | pwrite (answer : TransferAnswer)

/-- The code of a call that fails is not 0. -/
def TaskletEvent.Possible : TaskletEvent → Prop
  | mkdir failure => failure ≠ some 0
  | openFile failure => failure ≠ some 0
  | pwrite (.bytes _ _) => True
  | pwrite (.failed errno) => errno ≠ 0

instance : ∀ e : TaskletEvent, Decidable e.Possible
  | .mkdir _ | .openFile _ | .pwrite (.failed _) => inferInstanceAs (Decidable (_ ≠ _))
  | .pwrite (.bytes _ _) => isTrue trivial

namespace WriteTasklet

/-- A tasklet that has not started. -/
def fresh (t : WriteTasklet) : WriteTasklet := { t with phase := .new }

/-- After a round of the loop of `write_chunk`. -/
def afterRound (t : WriteTasklet) (wrote : Nat) :
    (List UInt8 × Nat) ⊕ (List UInt8 × Except Nat Nat) → List UInt8 × WriteTasklet
  | .inl (file, wrote) => (file, { t with phase := .writing wrote })
  | .inr (file, .ok total) => (file, { t with phase := .finished total (.ok total) })
  | .inr (file, .error errno) => (file, { t with phase := .finished wrote (.error errno) })

/-- The next system call of a tasklet. Source: `write_file_abt` (`ops/data.cpp:184`), `write_chunk`
(`chunk_storage.cpp:149`). -/
def step (t : WriteTasklet) (st : ChunkStorage) :
    TaskletEvent → Option (ChunkStorage × WriteTasklet)
  | .mkdir failure =>
    match t.phase, failure with
    | .new, none => some (st.initChunkSpace t.path, { t with phase := .hasDir })
    | .new, some errno => some (st, { t with phase := .finished 0 (.error errno) })
    | _, _ => none
  | .openFile failure =>
    match t.phase, failure with
    | .hasDir, none => some (st.openFile t.path t.chnkId, { t with phase := .writing 0 })
    | .hasDir, some errno => some (st, { t with phase := .finished 0 (.error errno) })
    | _, _ => none
  | .pwrite answer =>
    match t.phase with
    | .writing wrote =>
      let r := t.afterRound wrote
        (writeStep t.buf t.offset ((st.file? t.path t.chnkId).getD [], wrote) answer)
      some (st.setFile t.path t.chnkId r.1, r.2)
    | _ => none

end WriteTasklet

/-! ## Requests and calls -/

/-- The tasklets that the handler of a write request starts, unless a transfer fails. The client's
buffer does not change while the call is under way. Source: `rpc_srv_write` (`srv_data.cpp:233`). -/
def writeTasklets (inp : DataIn) (bulk : List UInt8) : Option (List WriteTasklet) :=
  let tasks := (assignChunks inp bulk.length).1
  (pullTasks bulk tasks (List.replicate inp.totalChunkSize 0)).map fun bulkBuf =>
    tasks.map fun t =>
      ⟨inp.path, t.chnkId, slice bulkBuf t.bulkBufPtr t.size, t.offset, .new⟩

/-- Where a request is: on its way, answered since a transfer failed, or being handled. -/
inductive RequestPhase
  | onWay
  | refused
  | handled (tasklets : List WriteTasklet)

/-- A write request to a daemon. -/
structure WriteRequest (n : Nat) where
  host : Fin n
  inp : DataIn
  bulk : List UInt8
  phase : RequestPhase

namespace WriteRequest

variable {n : Nat}

/-- The handler starts its tasklets. -/
def handle (req : WriteRequest n) : WriteRequest n :=
  match writeTasklets req.inp req.bulk with
  | none => { req with phase := .refused }
  | some tasklets => { req with phase := .handled tasklets }

/-- The reply to a request, once all tasklets have their results. Source: `rpc_srv_write`
(`srv_data.cpp:352`). -/
def reply (req : WriteRequest n) : Option DataOut :=
  match req.phase with
  | .onWay => none
  | .refused => some ⟨EBUSY, 0⟩
  | .handled tasklets =>
    if ∀ t ∈ tasklets, t.phase.eventual.isSome then
      let r := waitForTasks (tasklets.map (·.phase.eventual) ++
        List.replicate (req.inp.chunkN - tasklets.length) none)
      some ⟨r.1, r.2⟩
    else none

/-- The tasklets of a request, those to come included. -/
def tasklets (req : WriteRequest n) : List WriteTasklet :=
  match req.phase with
  | .onWay => (writeTasklets req.inp req.bulk).getD []
  | .refused => []
  | .handled tasklets => tasklets

end WriteRequest

/-- A write of a process. -/
structure WriteCall where
  path : List Char
  buf : List UInt8
  offset : Nat

/-- A write that has been posted, with its requests. -/
structure PostedWrite (n : Nat) where
  call : WriteCall
  requests : List (WriteRequest n)

section
variable {n : Nat}

/-- A write without replication, as it is posted. Source: `forward_write`
(`client/rpc/forward_data.cpp:63`). -/
def WriteCall.post (d : Distributor n) (call : WriteCall) : PostedWrite n :=
  let plan := planWrite d call.path call.offset call.buf.length 0
  ⟨call, plan.targets.map fun target =>
    ⟨target, plan.request call.path call.offset call.buf.length target, call.buf, .onWay⟩⟩

@[simp] theorem WriteCall.post_call (d : Distributor n) (call : WriteCall) :
    (call.post d).call = call := rfl

/-- The error code and the size that the call returns, once all replies are there. -/
def PostedWrite.result (w : PostedWrite n) : Option (Nat × Nat) :=
  (w.requests.mapM WriteRequest.reply).map fun outs =>
    writeResult 0 w.call.buf.length (some (outs.map some))

/-- The tasklets of a write with their daemons, those to come included. -/
def PostedWrite.tasklets (w : PostedWrite n) : List (Fin n × WriteTasklet) :=
  w.requests.flatMap fun req => req.tasklets.map (req.host, ·)

/-- The chunk storages of the daemons, and the writes that have been posted. -/
structure WritesState (n : Nat) where
  storages : Cluster n
  writes : List (PostedWrite n)

/-- What happens: a process posts a write, a request arrives, or a tasklet makes a system call. -/
inductive WriteEvent
  | post (call : WriteCall)
  | arrive (write request : Nat)
  | tasklet (write request tasklet : Nat) (event : TaskletEvent)

namespace WritesState

/-- No write has been posted. -/
def start (cl : Cluster n) : WritesState n := ⟨cl, []⟩

/-- Replace a request of a write. -/
def setRequest (s : WritesState n) (i : Nat) (w : PostedWrite n) (j : Nat) (req : WriteRequest n) :
    WritesState n :=
  { s with writes := s.writes.set i { w with requests := w.requests.set j req } }

/-- An event, if it can happen. -/
def step (d : Distributor n) (s : WritesState n) : WriteEvent → Option (WritesState n)
  | .post call => some { s with writes := s.writes ++ [call.post d] }
  | .arrive i j =>
    s.writes[i]?.bind fun w => w.requests[j]?.bind fun req =>
      match req.phase with
      | .onWay => some (s.setRequest i w j req.handle)
      | _ => none
  | .tasklet i j k event =>
    s.writes[i]?.bind fun w => w.requests[j]?.bind fun req =>
      match req.phase with
      | .handled tasklets =>
        tasklets[k]?.bind fun t => (t.step (s.storages req.host) event).map fun r =>
          { s.setRequest i w j { req with phase := .handled (tasklets.set k r.2) } with
            storages := update s.storages req.host r.1 }
      | _ => none

/-- The tasklets of all writes. -/
def tasklets (s : WritesState n) : List (Fin n × WriteTasklet) :=
  s.writes.flatMap PostedWrite.tasklets

end WritesState

/-! ## What concurrent writes should do -/

/-- A position is in the range of a call. -/
def WriteCall.Covers (call : WriteCall) (pos : Nat) : Prop :=
  call.offset ≤ pos ∧ pos < call.offset + call.buf.length

/-- A byte that is kept, where a missing one may have been filled with zero. -/
def KeptOrFilled (old new : Option UInt8) : Prop := new = old ∨ (old = none ∧ new = some 0)

/-- The bytes of a file after writes have been posted, where `cl` are the storages before. -/
structure WritesOk (d : Distributor n) (cl : Cluster n) (s : WritesState n) (path : List Char) :
    Prop where
  /-- A call that has returned without an error has returned its size, and its bytes are in the
  file. -/
  returned : ∀ w ∈ s.writes, w.call.path = path → ∀ size, w.result = some (0, size) →
    size = w.call.buf.length ∧ ∀ i < w.call.buf.length,
      fileByte d s.storages path (w.call.offset + i) = w.call.buf[i]?
  /-- A byte of a call is the old or the new one. -/
  underWay : ∀ w ∈ s.writes, w.call.path = path → ∀ i < w.call.buf.length,
    fileByte d s.storages path (w.call.offset + i) = w.call.buf[i]? ∨
      KeptOrFilled (fileByte d cl path (w.call.offset + i))
        (fileByte d s.storages path (w.call.offset + i))
  /-- A byte that no call writes is kept. -/
  kept : ∀ pos, (∀ w ∈ s.writes, w.call.path = path → ¬ w.call.Covers pos) →
    KeptOrFilled (fileByte d cl path pos) (fileByte d s.storages path pos)

/-- A call of at least one and less than `2 ^ 34` bytes, at an offset of a file. -/
structure WriteCall.Fits (call : WriteCall) : Prop where
  offset_lt : call.offset < 2 ^ 63
  size_pos : 0 < call.buf.length
  size_lt : call.buf.length < 2 ^ 34

instance (call : WriteCall) : Decidable call.Fits :=
  decidable_of_iff (call.offset < 2 ^ 63 ∧ 0 < call.buf.length ∧ call.buf.length < 2 ^ 34)
    ⟨fun h => ⟨h.1, h.2.1, h.2.2⟩, fun h => ⟨h.offset_lt, h.size_pos, h.size_lt⟩⟩

/-- Two calls on the same chunk files write to different parts of the same file. -/
def WriteCall.Apart (c c' : WriteCall) : Prop :=
  getChunksDir c.path = getChunksDir c'.path →
    c.path = c'.path ∧
      (c.offset + c.buf.length ≤ c'.offset ∨ c'.offset + c'.buf.length ≤ c.offset)

instance (c c' : WriteCall) : Decidable (c.Apart c') := inferInstanceAs (Decidable (_ → _))

/-- The condition on an event: a call writes to other parts than those posted before, and no failed
system call has the code 0. -/
def WriteEvent.Ok (s : WritesState n) : WriteEvent → Prop
  | post call => call.Fits ∧ ∀ w ∈ s.writes, w.call.Apart call
  | arrive _ _ => True
  | tasklet _ _ _ event => event.Possible

instance (s : WritesState n) : ∀ e : WriteEvent, Decidable (e.Ok s)
  | .post _ => inferInstanceAs (Decidable (_ ∧ ∀ w ∈ s.writes, _))
  | .arrive _ _ => isTrue trivial
  | .tasklet _ _ _ event => inferInstanceAs (Decidable event.Possible)

end

/-! ## The bytes of the chunk files -/

namespace ChunkStorage

/-- The bytes of a chunk file, none if it does not exist. -/
def content (st : ChunkStorage) (filePath : List Char) (chunkId : Nat) : List UInt8 :=
  (st.file? filePath chunkId).getD []

theorem file?_setFile (st : ChunkStorage) (filePath path : List Char) (chunkId id : Nat)
    (bytes : List UInt8) :
    (st.setFile filePath chunkId bytes).file? path id =
      if getChunksDir path = getChunksDir filePath ∧ id = chunkId then some bytes
      else st.file? path id := by
  rw [file?, setFile]
  by_cases hdir : getChunksDir path = getChunksDir filePath
  · rw [hdir, AList.lookup_insert, Option.bind_some]
    by_cases hid : id = chunkId
    · rw [if_pos ⟨rfl, hid⟩, hid, AList.lookup_insert]
    · rw [if_neg fun h => hid h.2, AList.lookup_insert_ne hid, file?, hdir]
      cases st.lookup (getChunksDir filePath) with
      | none => exact AList.lookup_empty id
      | some dir => rfl
  · rw [if_neg fun h => hdir h.1, AList.lookup_insert_ne hdir, file?]

theorem content_setFile (st : ChunkStorage) (filePath path : List Char) (chunkId id : Nat)
    (bytes : List UInt8) :
    (st.setFile filePath chunkId bytes).content path id =
      if getChunksDir path = getChunksDir filePath ∧ id = chunkId then bytes
      else st.content path id := by
  rw [content, file?_setFile]
  split <;> rfl

@[simp] theorem content_initChunkSpace (st : ChunkStorage) (filePath path : List Char) (id : Nat) :
    (st.initChunkSpace filePath).content path id = st.content path id := by
  rw [content, file?_initChunkSpace, content]

/-- The files of one directory are found under every path that has its name. -/
theorem content_congr (st : ChunkStorage) {path path' : List Char}
    (h : getChunksDir path = getChunksDir path') (id : Nat) :
    st.content path id = st.content path' id := by
  rw [content, file?, h, content, file?]

@[simp] theorem content_openFile (st : ChunkStorage) (filePath path : List Char)
    (chunkId id : Nat) :
    (st.openFile filePath chunkId).content path id = st.content path id := by
  rw [openFile, content_setFile]
  split
  · next h => rw [h.2, content_congr st h.1, content]
  · rfl

end ChunkStorage

/-! ## One system call -/

/-- A phase of a tasklet that writes `size` bytes: no more bytes have been written, all of them if
it has ended without an error. -/
def TaskletPhase.Valid (size : Nat) : TaskletPhase → Prop
  | new => True
  | hasDir => True
  | writing wrote => wrote ≤ size
  | finished wrote (.ok total) => wrote = size ∧ total = size
  | finished wrote (.error errno) => wrote ≤ size ∧ errno ≠ 0

theorem TaskletPhase.Valid.wrote_le {size : Nat} {phase : TaskletPhase} (h : phase.Valid size) :
    phase.wrote ≤ size := by
  cases phase with
  | new | hasDir => exact Nat.zero_le _
  | writing wrote => exact h
  | finished wrote result =>
    cases result with
    | ok total => exact h.1.le
    | error errno => exact h.1

/-- A round of the loop writes a part of what is left behind what has been written. -/
theorem writeStep_part {buf : List UInt8} (file : List UInt8) (offset : Nat) {wrote : Nat}
    (hle : wrote ≤ buf.length) {answer : TransferAnswer}
    (hposs : (TaskletEvent.pwrite answer).Possible) {t : WriteTasklet}
    {r : List UInt8 × WriteTasklet}
    (hr : t.afterRound wrote (writeStep buf offset (file, wrote) answer) = r) :
    ∃ part, part <+: buf.drop wrote ∧ r.1 = overwrite 0 file (offset + wrote) part ∧
      r.2.fresh = t.fresh ∧ r.2.phase.wrote = wrote + part.length ∧
      r.2.phase.Valid buf.length := by
  subst hr
  cases answer with
  | bytes limit hpos =>
    refine ⟨(buf.drop wrote).take limit, List.take_prefix _ _, ?_⟩
    have hlen : min limit (buf.drop wrote).length = ((buf.drop wrote).take limit).length :=
      length_take.symm
    have hsum : wrote + ((buf.drop wrote).take limit).length ≤ buf.length := by
      rw [length_take, length_drop]
      omega
    rw [writeStep, TransferAnswer.pwrite]
    dsimp only
    rw [loopCondition, hlen]
    split
    · exact ⟨rfl, rfl, rfl, hsum⟩
    · next hall => exact ⟨rfl, rfl, rfl, not_not.1 hall, not_not.1 hall⟩
  | failed errno =>
    refine ⟨[], List.nil_prefix, ?_⟩
    rw [writeStep, TransferAnswer.pwrite]
    dsimp only
    rw [loopFailed]
    split
    · rw [loopCondition]
      split
      · exact ⟨rfl, rfl, rfl, hle⟩
      · next hall => exact ⟨rfl, rfl, rfl, not_not.1 hall, not_not.1 hall⟩
    · exact ⟨rfl, rfl, rfl, hle, hposs⟩

/-- A system call of a tasklet writes a part of what is left behind what has been written, and
changes nothing else. -/
theorem WriteTasklet.step_spec {t t' : WriteTasklet} {st st' : ChunkStorage} {e : TaskletEvent}
    (h : t.step st e = some (st', t')) (hvalid : t.phase.Valid t.buf.length) (he : e.Possible) :
    ∃ part, part <+: t.buf.drop t.phase.wrote ∧ t'.fresh = t.fresh ∧
      t'.phase.wrote = t.phase.wrote + part.length ∧ t'.phase.Valid t.buf.length ∧
      ∀ path id, st'.content path id =
        if getChunksDir path = getChunksDir t.path ∧ id = t.chnkId then
          overwrite 0 (st.content path id) (t.offset + t.phase.wrote) part
        else st.content path id := by
  obtain ⟨tpath, chnkId, buf, offset, phase⟩ := t
  cases e with
  | mkdir failure =>
    cases phase with
    | new =>
      cases failure with
      | none =>
        cases h
        exact ⟨[], List.nil_prefix, rfl, rfl, trivial, fun path id => by simp⟩
      | some errno =>
        cases h
        exact ⟨[], List.nil_prefix, rfl, rfl, ⟨Nat.zero_le _, fun h0 => he (by rw [h0])⟩,
          fun path id => by simp⟩
    | hasDir | writing | finished => cases h
  | openFile failure =>
    cases phase with
    | hasDir =>
      cases failure with
      | none =>
        cases h
        exact ⟨[], List.nil_prefix, rfl, rfl, Nat.zero_le _, fun path id => by simp⟩
      | some errno =>
        cases h
        exact ⟨[], List.nil_prefix, rfl, rfl, ⟨Nat.zero_le _, fun h0 => he (by rw [h0])⟩,
          fun path id => by simp⟩
    | new | writing | finished => cases h
  | pwrite answer =>
    cases phase with
    | writing wrote =>
      obtain ⟨part, hpart, hfile, hfresh, hwrote, hphase⟩ :=
        writeStep_part (st.content tpath chnkId) offset hvalid he rfl
      obtain ⟨rfl, rfl⟩ := Prod.mk.inj (Option.some.inj h)
      refine ⟨part, hpart, hfresh, hwrote, hphase, fun path id => ?_⟩
      rw [ChunkStorage.content_setFile]
      split
      · next hsame =>
        rw [ChunkStorage.content_congr st hsame.1, hsame.2]
        exact hfile
      · rfl
    | new | hasDir | finished => cases h

end GekkoFS
