import GekkoFS.Daemon.ChunkStorage

/-!
# The chunk operations of a daemon

A data request is a list of chunk tasks, each of which reads or writes one chunk file. The handler
starts a tasklet a task, each with an eventual that receives the tasklet's result, and then waits
for the eventuals in order. There is one eventual for every chunk the request announces; waiting on
one whose tasklet was never started fails.

The tasklets of a request act on different chunk files and on different ranges of the transfer
buffer, so they are run one after another here.
-/

namespace GekkoFS

open Bytes List

/-- One chunk of a data request, as the handler assigns it: the arguments of its tasklet and of
its bulk transfer. Source: `chunk_write_args`, `chunk_read_args` and `bulk_args`
(`ops/data.hpp:238`, `ops/data.hpp:286`). -/
structure ChunkTask where
  /-- The chunk. -/
  chnkId : Nat
  /-- The number of bytes of the chunk that are read or written. -/
  size : Nat
  /-- Where the bytes stand in the transfer buffer of the daemon. -/
  bulkBufPtr : Nat
  /-- Where a bulk transfer finds them in the transfer buffer. -/
  localOffset : Nat
  /-- Where they stand in the buffer of the client. -/
  originOffset : Nat
  /-- Where they stand in the chunk. -/
  offset : Nat
  deriving DecidableEq, Repr

/-! ## Writing -/

/-- The write tasklets, with their results. Source: `write_file_abt` (`ops/data.cpp:184`). -/
def writeTasks (path : List Char) (bulkBuf : List UInt8) :
    List ChunkTask → ChunkStorage → ChunkStorage × List (Except Nat Nat)
  | [], st => (st, [])
  | t :: ts, st =>
    let w := st.writeChunk path t.chnkId (slice bulkBuf t.bulkBufPtr t.size) t.offset
    let r := writeTasks path bulkBuf ts w.1
    (r.1, w.2 :: r.2)

/-- The loop of `wait_for_tasks`: the error and the number of bytes after it. An eventual that
cannot be waited on is `none`. -/
def waitForTasksLoop : List (Option (Except Nat Nat)) → Nat → Nat → Nat × Nat
  | [], ioErr, totalWritten => (ioErr, totalWritten)
  | none :: es, _, totalWritten => waitForTasksLoop es EIO totalWritten
  | some taskSize :: es, ioErr, totalWritten =>
    if ioErr ≠ 0 then waitForTasksLoop es ioErr totalWritten
    else
      match taskSize with
      | .error e => waitForTasksLoop es e totalWritten
      | .ok n => waitForTasksLoop es ioErr (totalWritten + n)

/-- The error and the number of bytes of a write request. Source:
`ChunkWriteOperation::wait_for_tasks` (`ops/data.cpp:258`). -/
def waitForTasks (es : List (Option (Except Nat Nat))) : Nat × Nat :=
  let r := waitForTasksLoop es 0 0
  (r.1, if r.1 ≠ 0 then 0 else r.2)

/-! ## Reading -/

/-- The read tasklets: the transfer buffer after them, and their results. Source: `read_file_abt`
(`ops/data.cpp:318`). -/
def readTasks (st : ChunkStorage) (path : List Char) :
    List ChunkTask → List UInt8 → List UInt8 × List (ChunkTask × Except Nat Nat)
  | [], bulkBuf => (bulkBuf, [])
  | t :: ts, bulkBuf =>
    match st.readChunk path t.chnkId t.size t.offset with
    | .error e =>
      let r := readTasks st path ts bulkBuf
      (r.1, (t, .error e) :: r.2)
    | .ok bytes =>
      let r := readTasks st path ts (splice bulkBuf t.bulkBufPtr bytes)
      (r.1, (t, .ok bytes.length) :: r.2)

/-- The waiting loop of `wait_for_tasks_and_push_back`: the error, the number of bytes and the
client's buffer after it. A chunk file that does not exist, and one that ends before the range, are
holes of the file and are skipped. -/
def pushBackLoop (bulkBuf : List UInt8) :
    List (Option (ChunkTask × Except Nat Nat)) → Nat → Nat → List UInt8 → Nat × Nat × List UInt8
  | [], ioErr, totalRead, buf => (ioErr, totalRead, buf)
  | none :: es, _, totalRead, buf => pushBackLoop bulkBuf es EIO totalRead buf
  | some (t, taskSize) :: es, ioErr, totalRead, buf =>
    if ioErr ≠ 0 then pushBackLoop bulkBuf es ioErr totalRead buf
    else
      match taskSize with
      | .error e => pushBackLoop bulkBuf es (if e = ENOENT then ioErr else e) totalRead buf
      | .ok n =>
        if n = 0 then pushBackLoop bulkBuf es ioErr totalRead buf
        else
          match bulkTransfer bulkBuf t.localOffset buf t.originOffset n with
          | none => pushBackLoop bulkBuf es EBUSY totalRead buf
          | some buf => pushBackLoop bulkBuf es ioErr (totalRead + n) buf

/-- The error and the number of bytes of a read request, and the client's buffer after it, with
`spin_lock_read` off as it is by default. Source:
`ChunkReadOperation::wait_for_tasks_and_push_back` (`ops/data.cpp:395`). -/
def waitForTasksAndPushBack (bulkBuf : List UInt8) (es : List (Option (ChunkTask × Except Nat Nat)))
    (buf : List UInt8) : Nat × Nat × List UInt8 :=
  let r := pushBackLoop bulkBuf es 0 0 buf
  (r.1, if r.1 ≠ 0 then 0 else r.2.1, r.2.2)

/-! ## Tasks that succeed -/

/-- A file after all its write tasks: every chunk that has a task holds the bytes of the task. -/
theorem file?_writeTasks (path : List Char) (bulkBuf : List UInt8) :
    ∀ {ts : List ChunkTask} (st : ChunkStorage), (ts.map ChunkTask.chnkId).Nodup →
      (∀ t ∈ ts, (writeTasks path bulkBuf ts st).1.file? path t.chnkId =
        some (overwrite 0 ((st.file? path t.chnkId).getD []) t.offset
          (slice bulkBuf t.bulkBufPtr t.size))) ∧
      ∀ id ∉ ts.map ChunkTask.chnkId,
        (writeTasks path bulkBuf ts st).1.file? path id = st.file? path id
  | [], st, _ => ⟨by simp, fun id _ => rfl⟩
  | t :: ts, st, h => by
    rw [map_cons, nodup_cons] at h
    obtain ⟨h₁, h₂⟩ := file?_writeTasks path bulkBuf
      (st.writeChunk path t.chnkId (slice bulkBuf t.bulkBufPtr t.size) t.offset).1 h.2
    refine ⟨fun u hu => ?_, fun id hid => ?_⟩
    · rcases mem_cons.1 hu with rfl | hu
      · rw [writeTasks, h₂ _ h.1, ChunkStorage.file?_writeChunk_self]
      · have hne : u.chnkId ≠ t.chnkId := fun e => h.1 (e ▸ mem_map_of_mem hu)
        rw [writeTasks, h₁ u hu, ChunkStorage.file?_writeChunk_ne _ _ _ _ hne]
    · rw [map_cons, mem_cons, not_or] at hid
      rw [writeTasks, h₂ id hid.2, ChunkStorage.file?_writeChunk_ne _ _ _ _ hid.1]

/-- Every write task reports the length of its part of the buffer. -/
theorem writeTasks_results (path : List Char) (bulkBuf : List UInt8) :
    ∀ (ts : List ChunkTask) (st : ChunkStorage), (writeTasks path bulkBuf ts st).2 =
      ts.map fun t => .ok (slice bulkBuf t.bulkBufPtr t.size).length
  | [], _ => rfl
  | t :: ts, st => by
    rw [writeTasks, map_cons]
    exact congrArg _ (writeTasks_results path bulkBuf ts _)

/-- Waiting for tasks that all succeed adds their sizes up. -/
theorem waitForTasksLoop_ok : ∀ (sizes : List Nat) (total : Nat),
    waitForTasksLoop (sizes.map fun n => some (.ok n)) 0 total = (0, total + sizes.sum)
  | [], total => rfl
  | n :: sizes, total => by
    rw [map_cons, waitForTasksLoop, if_neg (by simp), waitForTasksLoop_ok, sum_cons,
      Nat.add_assoc]

/-- A write request whose tasks all succeed reports the sum of their sizes. -/
theorem waitForTasks_ok (sizes : List Nat) :
    waitForTasks (sizes.map fun n => some (.ok n)) = (0, sizes.sum) := by
  simp [waitForTasks, waitForTasksLoop_ok]

/-- The bytes that a read task finds, which are none if the chunk file does not exist. -/
def taskBytes (st : ChunkStorage) (path : List Char) (t : ChunkTask) : List UInt8 :=
  slice ((st.file? path t.chnkId).getD []) t.offset t.size

/-- The result of a read task. -/
def taskResult (st : ChunkStorage) (path : List Char) (t : ChunkTask) : Except Nat Nat :=
  if (st.file? path t.chnkId).isSome then .ok (taskBytes st path t).length else .error ENOENT

/-- A read task finds at most the bytes it asks for. -/
theorem taskBytes_length_le (st : ChunkStorage) (path : List Char) (t : ChunkTask) :
    (taskBytes st path t).length ≤ t.size := by
  rw [taskBytes, slice_length]; omega

/-- The read tasks put the bytes they find into the transfer buffer. -/
theorem readTasks_eq (st : ChunkStorage) (path : List Char) :
    ∀ (ts : List ChunkTask) (bulkBuf : List UInt8), readTasks st path ts bulkBuf =
      (spliceAll bulkBuf (ts.map fun t => (t.bulkBufPtr, taskBytes st path t)),
        ts.map fun t => (t, taskResult st path t))
  | [], _ => rfl
  | t :: ts, bulkBuf => by
    rw [readTasks, ChunkStorage.readChunk, map_cons, map_cons, spliceAll_cons]
    cases h : st.file? path t.chnkId with
    | none => simp [readTasks_eq st path ts, taskResult, taskBytes, h, slice]
    | some bytes => simp [readTasks_eq st path ts, taskResult, taskBytes, h]

/-- Waiting for read tasks pushes the bytes of each of them to its place in the client's buffer, if
they are in place in the transfer buffer. -/
theorem pushBackLoop_eq (st : ChunkStorage) (path : List Char) (bulkBuf : List UInt8) :
    ∀ (ts : List ChunkTask) (total : Nat) (buf : List UInt8),
      (∀ t ∈ ts, t.localOffset + t.size ≤ bulkBuf.length ∧ t.originOffset + t.size ≤ buf.length ∧
        slice bulkBuf t.localOffset (taskBytes st path t).length = taskBytes st path t) →
      pushBackLoop bulkBuf ((ts.map fun t => (t, taskResult st path t)).map some) 0 total buf =
        (0, total + (ts.map fun t => (taskBytes st path t).length).sum,
          spliceAll buf (ts.map fun t => (t.originOffset, taskBytes st path t)))
  | [], total, buf, _ => rfl
  | t :: ts, total, buf, h => by
    obtain ⟨h₁, h₂, h₃⟩ := h t (by simp)
    have hle := taskBytes_length_le st path t
    have hl : (splice buf t.originOffset (taskBytes st path t)).length = buf.length :=
      splice_length (by omega)
    have ih := fun total => pushBackLoop_eq st path bulkBuf ts total
      (splice buf t.originOffset (taskBytes st path t)) fun u hu => by
        rw [hl]; exact h u (by simp [hu])
    simp only [map_cons, sum_cons, spliceAll_cons, pushBackLoop]
    rw [if_neg (by simp), ← Nat.add_assoc, ← ih]
    cases hf : st.file? path t.chnkId with
    | none =>
      have hb : taskBytes st path t = [] := by simp [taskBytes, hf, slice]
      simp [taskResult, hf, hb]
    | some bytes =>
      have hr : taskResult st path t = .ok (taskBytes st path t).length := by simp [taskResult, hf]
      rw [hr]
      by_cases h0 : (taskBytes st path t).length = 0
      · simp [eq_nil_of_length_eq_zero h0]
      · simp only [if_neg h0]
        rw [bulkTransfer, if_pos ⟨by omega, by omega⟩, h₃]

end GekkoFS
