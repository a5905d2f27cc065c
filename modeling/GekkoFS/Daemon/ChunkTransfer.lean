import GekkoFS.Daemon.ChunkStorage
import GekkoFS.Lib.EventLoop

/-!
# Chunk files in several system calls

`write_chunk` and `read_chunk` call `pwrite` and `pread` until all bytes have been moved: a call may
move fewer bytes than it was asked to, and one that was interrupted is repeated. Here the answers of
the system calls are given as a list, and the functions follow their loops through it
(`writeChunkCalls`, `readChunkCalls`); elsewhere they take one step (`writeChunk`, `readChunk`).

A `continue` in these loops goes to their condition, so an interrupted call of a request for no
bytes ends the loop. The bytes that have been moved are always the first ones of the request
(`Writing`, `Reading`), so if the loops end without an error they have done what the one step does
(`writeLoop_spec`, `readLoop_spec`). The content of a chunk file after a write is given by
`WroteWithGap`: a write behind the end of the file also fills what was missing before it.
-/

namespace GekkoFS

open Bytes List

/-! ## System calls -/

/-- The answer of the system to a `pwrite` or `pread`: it moves a number of bytes, up to a limit of
its own, or fails. -/
inductive TransferAnswer
  | bytes (limit : Nat) (pos : 0 < limit)
  | failed (errno : Nat)

/-- The answers of the system to the calls of one request. -/
structure ChunkCalls where
  /-- The error of `mkdir`, if it fails for another reason than that the directory exists. -/
  mkdirError : Option Nat
  /-- The error of `open`, if it fails. -/
  openError : Option Nat
  transfers : List TransferAnswer

/-- The codes after which a call is repeated. Source: `write_chunk` (`chunk_storage.cpp:182`). -/
def Interrupted (errno : Nat) : Prop := errno = EINTR ∨ errno = EAGAIN ∨ errno = EWOULDBLOCK

instance (errno : Nat) : Decidable (Interrupted errno) :=
  inferInstanceAs (Decidable (_ ∨ _ ∨ _))

namespace TransferAnswer

/-- The call moves bytes, unless there are none. -/
def isBytes : TransferAnswer → Bool
  | bytes _ _ => true
  | failed _ => false

/-- The code of a call that fails and is not repeated. -/
def hardError? : TransferAnswer → Option Nat
  | bytes _ _ => none
  | failed errno => if Interrupted errno then none else some errno

/-- `pwrite`: the number of bytes written, and the file after it. -/
def pwrite (file buf : List UInt8) (offset : Nat) : TransferAnswer → Except Nat (Nat × List UInt8)
  | bytes limit _ => .ok (min limit buf.length, overwrite 0 file offset (buf.take limit))
  | failed errno => .error errno

/-- `pread`: the bytes read. -/
def pread (file : List UInt8) (size offset : Nat) : TransferAnswer → Except Nat (List UInt8)
  | bytes limit _ => .ok (slice file offset (min limit size))
  | failed errno => .error errno

end TransferAnswer

/-! ## The loops -/

/-- The condition of the loops: go on unless `size` bytes have been moved. The state is the file or
the buffer that is written to, and the number of bytes. -/
def loopCondition (size : Nat) (s : List UInt8 × Nat) :
    (List UInt8 × Nat) ⊕ (List UInt8 × Except Nat Nat) :=
  if s.2 ≠ size then .inl s else .inr (s.1, .ok s.2)

/-- A call that failed: the loop goes to its condition if the call was interrupted, and throws
otherwise. -/
def loopFailed (size : Nat) (s : List UInt8 × Nat) (errno : Nat) :
    (List UInt8 × Nat) ⊕ (List UInt8 × Except Nat Nat) :=
  if Interrupted errno then loopCondition size s else .inr (s.1, .error errno)

/-- One round of the loop of `write_chunk`. Source: `chunk_storage.cpp:175`. -/
def writeStep (buf : List UInt8) (offset : Nat) (s : List UInt8 × Nat) (answer : TransferAnswer) :
    (List UInt8 × Nat) ⊕ (List UInt8 × Except Nat Nat) :=
  match answer.pwrite s.1 (buf.drop s.2) (offset + s.2) with
  | .ok (wrote, file) => loopCondition buf.length (file, s.2 + wrote)
  | .error errno => loopFailed buf.length s errno

/-- One round of the loop of `read_chunk`. Source: `chunk_storage.cpp:224`. -/
def readStep (file : List UInt8) (size offset : Nat) (s : List UInt8 × Nat)
    (answer : TransferAnswer) : (List UInt8 × Nat) ⊕ (List UInt8 × Except Nat Nat) :=
  match answer.pread file (size - s.2) (offset + s.2) with
  | .ok read =>
    if read = [] then .inr (s.1, .ok s.2)
    else loopCondition size (splice s.1 s.2 read, s.2 + read.length)
  | .error errno => loopFailed size s errno

namespace ChunkStorage

variable (calls : ChunkCalls) (st : ChunkStorage) (filePath : List Char) (chunkId : Nat)

/-- Write a buffer into a chunk file: the storage after it, and the number of bytes or the code of
the exception. `none` if the answers do not suffice. Source: `write_chunk`
(`chunk_storage.cpp:149`). -/
def writeChunkCalls (buf : List UInt8) (offset : Nat) :
    Option (ChunkStorage × Except Nat Nat) :=
  match if getChunksDir filePath ∈ st then none else calls.mkdirError with
  | some errno => some (st, .error errno)
  | none =>
    let st := initChunkSpace st filePath
    match calls.openError with
    | some errno => some (st, .error errno)
    | none =>
      let dir := (st.lookup (getChunksDir filePath)).getD ∅
      let old := (dir.lookup chunkId).getD []
      (EventLoop.runUntil (writeStep buf offset) (old, 0) calls.transfers).map fun r =>
        (st.insert (getChunksDir filePath) (dir.insert chunkId r.1), r.2)

/-- Read a chunk file into a buffer: the buffer after it, and the number of bytes or the code of the
exception. `none` if the answers do not suffice. Source: `read_chunk` (`chunk_storage.cpp:204`). -/
def readChunkCalls (buf : List UInt8) (offset : Nat) : Option (List UInt8 × Except Nat Nat) :=
  match calls.openError with
  | some errno => some (buf, .error errno)
  | none =>
    match st.file? filePath chunkId with
    | none => some (buf, .error ENOENT)
    | some file =>
      EventLoop.runUntil (readStep file buf.length offset) (buf, 0) calls.transfers

end ChunkStorage

/-! ## What a request should do -/

/-- The codes of the transfers that fail and are not repeated. -/
def hardErrors (transfers : List TransferAnswer) : List Nat :=
  transfers.filterMap TransferAnswer.hardError?

/-- Transfers that may not suffice for a number of bytes: none of them fails for good, and there is
not one for each byte. -/
structure Unfinished (size : Nat) (transfers : List TransferAnswer) : Prop where
  errors : hardErrors transfers = []
  few : transfers.countP TransferAnswer.isBytes < max 1 size

/-- A file differs from before in a range only, where it holds the buffer. -/
def WroteExactly (before after buf : List UInt8) (offset : Nat) : Prop :=
  ∀ i, after[i]? =
    if offset ≤ i ∧ i < offset + buf.length then buf[i - offset]? else before[i]?

/-- A file differs from before in a range, where it holds the buffer, and between its former end and
the range, where it holds zeros. -/
def WroteWithGap (before after buf : List UInt8) (offset : Nat) : Prop :=
  ∀ i, after[i]? =
    if offset ≤ i ∧ i < offset + buf.length then buf[i - offset]?
    else if buf ≠ [] ∧ before.length ≤ i ∧ i < offset then some 0
    else before[i]?

section
variable (calls : ChunkCalls) (st : ChunkStorage) (filePath : List Char) (chunkId : Nat)

/-- The codes of the calls of a write that fail and are not repeated, in their order. -/
def writeErrors : List Nat :=
  (if ChunkStorage.getChunksDir filePath ∈ st then none else calls.mkdirError).toList ++
    calls.openError.toList ++ hardErrors calls.transfers

/-- The codes of the calls of a read that fail and are not repeated, in their order. -/
def readErrors : List Nat :=
  calls.openError.toList ++ (if st.file? filePath chunkId = none then [ENOENT] else []) ++
    hardErrors calls.transfers

/-- What a write should do, where `Wrote` is what it should do to the file. -/
structure WriteOk (Wrote : List UInt8 → List UInt8 → List UInt8 → Nat → Prop) (buf : List UInt8)
    (offset : Nat) : Prop where
  /-- If it returns, it returns the number of bytes, the buffer is in the file, and no other chunk
  file has changed. -/
  returned : ∀ st' n, st.writeChunkCalls calls filePath chunkId buf offset = some (st', .ok n) →
    n = buf.length ∧
      (∃ after, st'.file? filePath chunkId = some after ∧
        Wrote ((st.file? filePath chunkId).getD []) after buf offset) ∧
      ∀ path' id', (ChunkStorage.getChunksDir path', id') ≠
          (ChunkStorage.getChunksDir filePath, chunkId) →
        st'.file? path' id' = st.file? path' id'
  /-- An exception has the code of the call that failed. -/
  raised : ∀ st' errno,
    st.writeChunkCalls calls filePath chunkId buf offset = some (st', .error errno) →
      (writeErrors calls st filePath).head? = some errno
  /-- It does not go on for ever. -/
  ends : st.writeChunkCalls calls filePath chunkId buf offset = none →
    Unfinished buf.length calls.transfers

/-- What a read should do. -/
structure ReadOk (buf : List UInt8) (offset : Nat) : Prop where
  /-- If it returns, it returns how many bytes of the file there are in the range, and these are in
  the buffer. -/
  returned : ∀ buf' n, st.readChunkCalls calls filePath chunkId buf offset = some (buf', .ok n) →
    ∃ file, st.file? filePath chunkId = some file ∧ n = min buf.length (file.length - offset) ∧
      buf'.take n = slice file offset n ∧ buf'.drop n = buf.drop n
  raised : ∀ buf' errno,
    st.readChunkCalls calls filePath chunkId buf offset = some (buf', .error errno) →
      (readErrors calls st filePath chunkId).head? = some errno
  ends : st.readChunkCalls calls filePath chunkId buf offset = none →
    Unfinished buf.length calls.transfers

end

/-! ## The loops move the first bytes -/

/-- The answers that are ahead, when some bytes have been moved: no call before them has failed for
good, each that moved bytes has moved one at least, and the loop has gone on because bytes are
missing. -/
structure TransfersAhead (size : Nat) (transfers : List TransferAnswer) (moved : Nat)
    (ahead : List TransferAnswer) : Prop where
  le : moved ≤ size
  errors : hardErrors transfers = hardErrors ahead
  count : transfers.countP TransferAnswer.isBytes ≤
    moved + ahead.countP TransferAnswer.isBytes
  missing : moved < size ∨ ahead = transfers

namespace TransfersAhead

variable {size moved n limit errno : Nat} {transfers ahead : List TransferAnswer}
  {pos : 0 < limit}

theorem start (size : Nat) (transfers : List TransferAnswer) :
    TransfersAhead size transfers 0 transfers :=
  ⟨Nat.zero_le size, rfl, Nat.le_of_eq (Nat.zero_add _).symm, .inr rfl⟩

/-- Bytes were moved. -/
theorem bytes (h : TransfersAhead size transfers moved (.bytes limit pos :: ahead)) (hn : 0 < n)
    (hlt : moved + n < size) : TransfersAhead size transfers (moved + n) ahead := by
  have hcount := h.count
  rw [countP_cons_of_pos rfl] at hcount
  exact ⟨Nat.le_of_lt hlt, h.errors, by omega, .inl hlt⟩

/-- A call was interrupted. -/
theorem interrupted (h : TransfersAhead size transfers moved (.failed errno :: ahead))
    (herrno : Interrupted errno) (hne : moved ≠ size) :
    TransfersAhead size transfers moved ahead := by
  have hnone : (TransferAnswer.failed errno).hardError? = none := if_pos herrno
  have hcount := h.count
  rw [countP_cons_of_neg Bool.false_ne_true] at hcount
  exact ⟨h.le, h.errors.trans (filterMap_cons_none hnone), hcount,
    .inl (Nat.lt_of_le_of_ne h.le hne)⟩

/-- A call failed. -/
theorem failed (h : TransfersAhead size transfers moved (.failed errno :: ahead))
    (herrno : ¬ Interrupted errno) : (hardErrors transfers).head? = some errno := by
  have hsome : (TransferAnswer.failed errno).hardError? = some errno := if_neg herrno
  rw [h.errors, hardErrors, filterMap_cons_some hsome, head?_cons]

/-- The answers are used up. -/
theorem unfinished (h : TransfersAhead size transfers moved []) : Unfinished size transfers := by
  refine ⟨h.errors, ?_⟩
  have hcount := h.count
  rw [countP_nil] at hcount
  rcases h.missing with hlt | hnil
  · omega
  · rw [← hnil, countP_nil]
    omega

end TransfersAhead

variable {size : Nat} {s : List UInt8 × Nat}

theorem loopCondition_eq_inl {s' : List UInt8 × Nat} :
    loopCondition size s = .inl s' ↔ s.2 ≠ size ∧ s = s' := by
  rw [loopCondition]
  split
  · next h => rw [Sum.inl.injEq, and_iff_right h]
  · next h => exact iff_of_false (nomatch ·) fun hand => h hand.1

theorem loopCondition_eq_inr
    {r : List UInt8 × Except Nat Nat} :
    loopCondition size s = .inr r ↔ s.2 = size ∧ (s.1, .ok s.2) = r := by
  rw [loopCondition]
  split
  · next h => exact iff_of_false (nomatch ·) fun hand => h hand.1
  · next h => rw [Sum.inr.injEq, and_iff_right (not_not.1 h)]

section
variable {size errno : Nat} {s s' : List UInt8 × Nat} {r : List UInt8 × Except Nat Nat}

theorem loopFailed_inl (h : loopFailed size s errno = .inl s') :
    Interrupted errno ∧ s.2 ≠ size ∧ s = s' := by
  rw [loopFailed] at h
  split at h
  · next herrno => exact ⟨herrno, loopCondition_eq_inl.1 h⟩
  · cases h

theorem loopFailed_inr (h : loopFailed size s errno = .inr r) :
    s.2 = size ∧ (s.1, .ok s.2) = r ∨ ¬ Interrupted errno ∧ (s.1, .error errno) = r := by
  rw [loopFailed] at h
  split at h
  · exact .inl (loopCondition_eq_inr.1 h)
  · next herrno => exact .inr ⟨herrno, Sum.inr.inj h⟩

/-- A loop whose states have answers ahead: what its results satisfy, and when it has none. -/
theorem transferLoop_spec {step : List UInt8 × Nat → TransferAnswer →
      (List UInt8 × Nat) ⊕ (List UInt8 × Except Nat Nat)}
    {transfers : List TransferAnswer} {I : List UInt8 × Nat → List TransferAnswer → Prop}
    {Q : List UInt8 × Except Nat Nat → Prop}
    (hahead : ∀ s ahead, I s ahead → TransfersAhead size transfers s.2 ahead)
    (hnext : ∀ s answer ahead s', I s (answer :: ahead) → step s answer = .inl s' → I s' ahead)
    (hexit : ∀ s answer ahead r, I s (answer :: ahead) → step s answer = .inr r → Q r)
    (hstart : I s transfers) :
    (∀ r, EventLoop.runUntil step s transfers = some r → Q r) ∧
      (EventLoop.runUntil step s transfers = none → Unfinished size transfers) := by
  have hspec := EventLoop.runUntil_spec hnext hexit hstart
  refine ⟨hspec.1, fun hnone => ?_⟩
  obtain ⟨s', hs'⟩ := hspec.2 hnone
  exact (hahead s' [] hs').unfinished

variable (before buf : List UInt8) (offset : Nat) (transfers : List TransferAnswer)

/-- The state of a write: the first bytes of the buffer are in the file. -/
structure Writing (s : List UInt8 × Nat) (ahead : List TransferAnswer) : Prop where
  ahead : TransfersAhead buf.length transfers s.2 ahead
  file : s.1 = overwrite 0 before offset (buf.take s.2)

/-- How a write ends: with all bytes in the file, or with the first error that is not repeated and
some bytes in the file. -/
def WriteEnds (r : List UInt8 × Except Nat Nat) : Prop :=
  match r.2 with
  | .ok n => n = buf.length ∧ r.1 = overwrite 0 before offset buf
  | .error errno => (hardErrors transfers).head? = some errno ∧
      ∃ k ≤ buf.length, r.1 = overwrite 0 before offset (buf.take k)

variable {before buf offset transfers} {s s' : List UInt8 × Nat} {ahead : List TransferAnswer}
  {answer : TransferAnswer}

/-- What `pwrite` leaves of a write: some more of the first bytes are in the file. -/
theorem Writing.file_pwrite
    (h : Writing before buf offset transfers s (answer :: ahead)) (limit : Nat) :
    overwrite 0 s.1 (offset + s.2) ((buf.drop s.2).take limit) =
      overwrite 0 before offset (buf.take (s.2 + min limit (buf.length - s.2))) := by
  have hlength : (buf.take s.2).length = s.2 := by
    rw [length_take]
    exact Nat.min_eq_left h.ahead.le
  have hpart : (buf.drop s.2).take limit = (buf.drop s.2).take (min limit (buf.length - s.2)) := by
    rw [← length_drop, ← take_eq_take_min]
  have hover := overwrite_append 0 before offset (buf.take s.2)
    ((buf.drop s.2).take (min limit (buf.length - s.2)))
  rw [hlength, ← take_add] at hover
  rw [h.file, hpart, hover]

/-- A round that goes on. -/
theorem Writing.next (h : Writing before buf offset transfers s (answer :: ahead))
    (hstep : writeStep buf offset s answer = .inl s') :
    Writing before buf offset transfers s' ahead := by
  cases answer with
  | bytes limit pos =>
    obtain ⟨hne, rfl⟩ := loopCondition_eq_inl.1 hstep
    have hle := h.ahead.le
    dsimp only at hne
    rw [length_drop] at hne ⊢
    exact ⟨h.ahead.bytes (by omega) (by omega), h.file_pwrite limit⟩
  | failed errno =>
    obtain ⟨herrno, hne, rfl⟩ := loopFailed_inl hstep
    exact ⟨h.ahead.interrupted herrno hne, h.file⟩

/-- A round that leaves the loop. -/
theorem Writing.exit {r : List UInt8 × Except Nat Nat}
    (h : Writing before buf offset transfers s (answer :: ahead))
    (hstep : writeStep buf offset s answer = .inr r) :
    WriteEnds before buf offset transfers r := by
  cases answer with
  | bytes limit pos =>
    obtain ⟨heq, rfl⟩ := loopCondition_eq_inr.1 hstep
    dsimp only at heq
    refine ⟨heq, ?_⟩
    have hfile := h.file_pwrite limit
    rw [← length_drop, heq, take_length] at hfile
    exact hfile
  | failed errno =>
    rcases loopFailed_inr hstep with ⟨heq, rfl⟩ | ⟨herrno, rfl⟩
    · refine ⟨heq, ?_⟩
      rw [← take_length (l := buf), ← heq]
      exact h.file
    · exact ⟨h.ahead.failed herrno, s.2, h.ahead.le, h.file⟩

/-- What the loop of `write_chunk` does. -/
theorem writeLoop_spec (before buf : List UInt8) (offset : Nat) (transfers : List TransferAnswer) :
    (∀ r, EventLoop.runUntil (writeStep buf offset) (before, 0) transfers = some r →
        WriteEnds before buf offset transfers r) ∧
      (EventLoop.runUntil (writeStep buf offset) (before, 0) transfers = none →
        Unfinished buf.length transfers) :=
  transferLoop_spec (I := Writing before buf offset transfers) (fun _ _ h => h.ahead)
    (fun _ _ _ _ h hstep => h.next hstep) (fun _ _ _ _ h hstep => h.exit hstep)
    ⟨TransfersAhead.start buf.length transfers, by rw [take_zero, overwrite_nil]⟩

end

section
variable (file buf : List UInt8) (offset : Nat) (transfers : List TransferAnswer)

/-- The state of a read: the first bytes of the range are in the file, and at the start of the
buffer. -/
structure Reading (s : List UInt8 × Nat) (ahead : List TransferAnswer) : Prop where
  ahead : TransfersAhead buf.length transfers s.2 ahead
  inside : s.2 ≤ file.length - offset
  buffer : s.1 = slice file offset s.2 ++ buf.drop s.2

/-- How a read ends: with the bytes that the file has in the range, or with the first error that is
not repeated. -/
def ReadEnds (r : List UInt8 × Except Nat Nat) : Prop :=
  match r.2 with
  | .ok n => n = min buf.length (file.length - offset) ∧
      r.1 = slice file offset n ++ buf.drop n
  | .error errno => (hardErrors transfers).head? = some errno

variable {file buf offset transfers} {s s' : List UInt8 × Nat} {ahead : List TransferAnswer}
  {answer : TransferAnswer}

/-- The number of bytes that `pread` gives behind some of the range. -/
theorem length_pread (file : List UInt8) (offset moved n : Nat) :
    (slice file (offset + moved) n).length = min n (file.length - offset - moved) := by
  rw [slice_length, Nat.sub_sub]

/-- What `pread` leaves of a read: some more of the first bytes are in the buffer. -/
theorem Reading.buffer_pread (h : Reading file buf offset transfers s (answer :: ahead)) (n : Nat) :
    splice s.1 s.2 (slice file (offset + s.2) n) =
      slice file offset (s.2 + (slice file (offset + s.2) n).length) ++
        buf.drop (s.2 + (slice file (offset + s.2) n).length) := by
  have hlength : (slice file offset s.2).length = s.2 := by
    rw [slice_length]
    exact Nat.min_eq_left h.inside
  rw [← slice_append, slice_length_self, splice, h.buffer,
    take_left' hlength, drop_append, hlength, Nat.add_sub_cancel_left, drop_drop,
    drop_eq_nil_of_le (by omega), nil_append]

/-- A round that goes on. -/
theorem Reading.next (h : Reading file buf offset transfers s (answer :: ahead))
    (hstep : readStep file buf.length offset s answer = .inl s') :
    Reading file buf offset transfers s' ahead := by
  cases answer with
  | bytes limit pos =>
    rw [readStep, TransferAnswer.pread] at hstep
    dsimp only at hstep
    split at hstep
    · exact nomatch hstep
    · next hread =>
      obtain ⟨hne, rfl⟩ := loopCondition_eq_inl.1 hstep
      have hle := h.ahead.le
      have hlength := length_pread file offset s.2 (min limit (buf.length - s.2))
      have hpos := length_pos_iff.2 hread
      dsimp only at hne
      refine ⟨h.ahead.bytes hpos (by omega), ?_, h.buffer_pread _⟩
      dsimp only
      omega
  | failed errno =>
    obtain ⟨herrno, hne, rfl⟩ := loopFailed_inl hstep
    exact ⟨h.ahead.interrupted herrno hne, h.inside, h.buffer⟩

/-- A round that leaves the loop: at the end of the file, with all bytes, or with an error. -/
theorem Reading.exit {r : List UInt8 × Except Nat Nat}
    (h : Reading file buf offset transfers s (answer :: ahead))
    (hstep : readStep file buf.length offset s answer = .inr r) :
    ReadEnds file buf offset transfers r := by
  have hle := h.ahead.le
  have hinside := h.inside
  cases answer with
  | bytes limit pos =>
    have hlength := length_pread file offset s.2 (min limit (buf.length - s.2))
    rw [readStep, TransferAnswer.pread] at hstep
    dsimp only at hstep
    split at hstep
    · next hread =>
      cases hstep
      rw [hread, length_nil] at hlength
      refine ⟨?_, h.buffer⟩
      omega
    · next hread =>
      obtain ⟨heq, rfl⟩ := loopCondition_eq_inr.1 hstep
      dsimp only at heq
      refine ⟨?_, h.buffer_pread _⟩
      dsimp only
      omega
  | failed errno =>
    rcases loopFailed_inr hstep with ⟨heq, rfl⟩ | ⟨herrno, rfl⟩
    · refine ⟨?_, h.buffer⟩
      omega
    · exact h.ahead.failed herrno

/-- What the loop of `read_chunk` does. -/
theorem readLoop_spec (file buf : List UInt8) (offset : Nat) (transfers : List TransferAnswer) :
    (∀ r, EventLoop.runUntil (readStep file buf.length offset) (buf, 0) transfers = some r →
        ReadEnds file buf offset transfers r) ∧
      (EventLoop.runUntil (readStep file buf.length offset) (buf, 0) transfers = none →
        Unfinished buf.length transfers) :=
  transferLoop_spec (I := Reading file buf offset transfers) (fun _ _ h => h.ahead)
    (fun _ _ _ _ h hstep => h.next hstep) (fun _ _ _ _ h hstep => h.exit hstep)
    ⟨TransfersAhead.start buf.length transfers, Nat.zero_le _, rfl⟩

end

/-! ## The functions -/

namespace ChunkStorage

variable {calls : ChunkCalls} {st : ChunkStorage} {filePath : List Char} {chunkId : Nat}
  {buf : List UInt8} {offset : Nat} {st' : ChunkStorage} {n errno : Nat} {buf' : List UInt8}

/-- A write that returns has done what the one step does. -/
theorem writeChunkCalls_ok
    (h : st.writeChunkCalls calls filePath chunkId buf offset = some (st', .ok n)) :
    st.writeChunk filePath chunkId buf offset = (st', .ok n) := by
  rw [writeChunkCalls] at h
  split at h
  · exact nomatch h
  · dsimp only at h
    split at h
    · exact nomatch h
    · obtain ⟨r, hr, heq⟩ := Option.map_eq_some_iff.1 h
      obtain ⟨file, result⟩ := r
      cases heq
      obtain ⟨rfl, rfl⟩ := (writeLoop_spec _ buf offset calls.transfers).1 _ hr
      rfl

/-- An exception of a write has the code of the first call that failed for good. -/
theorem writeChunkCalls_error
    (h : st.writeChunkCalls calls filePath chunkId buf offset = some (st', .error errno)) :
    (writeErrors calls st filePath).head? = some errno := by
  rw [writeChunkCalls] at h
  rw [writeErrors]
  split at h
  · next hmkdir =>
    cases h
    rw [hmkdir]
    rfl
  · next hmkdir =>
    rw [hmkdir]
    dsimp only at h
    split at h
    · next hopen =>
      cases h
      rw [hopen]
      rfl
    · next hopen =>
      rw [hopen]
      obtain ⟨r, hr, heq⟩ := Option.map_eq_some_iff.1 h
      obtain ⟨file, result⟩ := r
      cases heq
      exact ((writeLoop_spec _ buf offset calls.transfers).1 _ hr).1

theorem unfinished_of_writeChunkCalls
    (h : st.writeChunkCalls calls filePath chunkId buf offset = none) :
    Unfinished buf.length calls.transfers := by
  rw [writeChunkCalls] at h
  split at h
  · exact nomatch h
  · dsimp only at h
    split at h
    · exact nomatch h
    · exact (writeLoop_spec _ buf offset calls.transfers).2 (Option.map_eq_none_iff.1 h)

/-- A read that returns has done what the one step does. -/
theorem readChunkCalls_ok
    (h : st.readChunkCalls calls filePath chunkId buf offset = some (buf', .ok n)) :
    ∃ bytes, st.readChunk filePath chunkId buf.length offset = .ok bytes ∧ n = bytes.length ∧
      buf' = bytes ++ buf.drop n := by
  rw [readChunkCalls] at h
  split at h
  · exact nomatch h
  · split at h
    · exact nomatch h
    · next file hfile =>
      obtain ⟨hn, hbuf⟩ := (readLoop_spec file buf offset calls.transfers).1 _ h
      have hlength : (slice file offset buf.length).length = n := by
        rw [slice_length, hn]
      refine ⟨_, by rw [readChunk, hfile], hlength.symm, ?_⟩
      rw [← slice_length_self, hlength]
      exact hbuf

theorem readChunkCalls_error
    (h : st.readChunkCalls calls filePath chunkId buf offset = some (buf', .error errno)) :
    (readErrors calls st filePath chunkId).head? = some errno := by
  rw [readChunkCalls] at h
  rw [readErrors]
  split at h
  · next hopen =>
    cases h
    rw [hopen]
    rfl
  · next hopen =>
    rw [hopen]
    split at h
    · next hfile =>
      cases h
      rw [if_pos hfile]
      rfl
    · next file hfile =>
      have hsome : st.file? filePath chunkId ≠ none := by rw [hfile]; exact Option.some_ne_none file
      rw [if_neg hsome]
      exact (readLoop_spec file buf offset calls.transfers).1 _ h

theorem unfinished_of_readChunkCalls
    (h : st.readChunkCalls calls filePath chunkId buf offset = none) :
    Unfinished buf.length calls.transfers := by
  rw [readChunkCalls] at h
  split at h
  · exact nomatch h
  · split at h
    · exact nomatch h
    · exact (readLoop_spec _ buf offset calls.transfers).2 h

/-- A write changes no file but its own. -/
theorem file?_writeChunk_other {path' : List Char} {id' : Nat}
    (h : (getChunksDir path', id') ≠ (getChunksDir filePath, chunkId)) :
    (st.writeChunk filePath chunkId buf offset).1.file? path' id' = st.file? path' id' := by
  by_cases hdir : getChunksDir path' = getChunksDir filePath
  · have hid : id' ≠ chunkId := fun hid => h (Prod.ext hdir hid)
    rw [file?, file?, hdir]
    exact file?_writeChunk_ne st filePath buf offset hid
  · exact chunkFile?_writeChunk_ne_dir st chunkId id' buf offset hdir

end ChunkStorage

/-- What the bytes of a file are after a write. -/
theorem wroteWithGap_overwrite (before buf : List UInt8) (offset : Nat) :
    WroteWithGap before (overwrite 0 before offset buf) buf offset := by
  intro i
  by_cases hbuf : buf = []
  · rw [hbuf, overwrite_nil, length_nil, if_neg (by omega),
      if_neg fun hand => hand.1 rfl]
  · rw [overwrite_getElem? 0 before offset i hbuf]
    by_cases hlow : i < offset
    · rw [if_pos hlow, if_neg (by omega)]
      by_cases hgap : before.length ≤ i
      · rw [if_pos ⟨hbuf, hgap, hlow⟩, getElem?_eq_none hgap, Option.getD_none]
      · rw [if_neg fun hand => hgap hand.2.1, getElem?_eq_getElem (Nat.lt_of_not_le hgap),
          Option.getD_some]
    · rw [if_neg hlow, if_neg (fun hand : buf ≠ [] ∧ before.length ≤ i ∧ i < offset =>
        hlow hand.2.2)]
      by_cases hin : i < offset + buf.length
      · rw [if_pos hin, if_pos ⟨Nat.le_of_not_lt hlow, hin⟩]
      · rw [if_neg hin, if_neg fun hand => hin hand.2]

/-- For every request and all answers of the system: a write that returns has written the buffer,
with zeros between the former end of the file and its range; a read that returns has read the bytes
of the file in its range; an exception has the code of the call that failed. -/
theorem chunkLoops_ok (calls : ChunkCalls) (st : ChunkStorage) (filePath : List Char)
    (chunkId : Nat) (buf : List UInt8) (offset : Nat) :
    WriteOk calls st filePath chunkId WroteWithGap buf offset ∧
      ReadOk calls st filePath chunkId buf offset where
  left := {
    returned := by
      intro st' n h
      have hone := ChunkStorage.writeChunkCalls_ok h
      have hst : (st.writeChunk filePath chunkId buf offset).1 = st' := congrArg Prod.fst hone
      have hn : Except.ok buf.length = Except.ok n := congrArg Prod.snd hone
      refine ⟨(Except.ok.inj hn).symm, ⟨_, ?_, wroteWithGap_overwrite _ buf offset⟩, ?_⟩
      · rw [← hst]
        exact st.file?_writeChunk_self filePath chunkId buf offset
      · intro path' id' hother
        rw [← hst]
        exact ChunkStorage.file?_writeChunk_other hother
    raised := fun _ _ => ChunkStorage.writeChunkCalls_error
    ends := ChunkStorage.unfinished_of_writeChunkCalls }
  right := {
    returned := by
      intro buf' n h
      obtain ⟨bytes, hone, hn, hbuf⟩ := ChunkStorage.readChunkCalls_ok h
      rw [ChunkStorage.readChunk] at hone
      split at hone
      · exact nomatch hone
      · next file hfile =>
        cases hone
        have hslice : slice file offset n = slice file offset buf.length := by
          rw [hn, slice_length_self]
        refine ⟨file, hfile, hn.trans (slice_length _ _ _), ?_, ?_⟩
        · rw [hslice, hbuf, take_left' hn.symm]
        · rw [hbuf, drop_left' hn.symm]
    raised := fun _ _ => ChunkStorage.readChunkCalls_error
    ends := ChunkStorage.unfinished_of_readChunkCalls }

/-- A storage with one chunk file of one byte. -/
def oneByteStorage : ChunkStorage := (ChunkStorage.writeChunk ∅ "/a".toList 0 [1] 0).1

/-- One byte is written two bytes behind the end of a file, in one call: the two bytes between are
in the file afterwards. -/
theorem writeChunk_fills_gap :
    ¬ WriteOk ⟨none, none, [.bytes 1 Nat.one_pos]⟩ oneByteStorage "/a".toList 0 WroteExactly
      [9] 3 := by
  intro h
  have hcall : oneByteStorage.writeChunkCalls ⟨none, none, [.bytes 1 Nat.one_pos]⟩ "/a".toList 0
      [9] 3 = some (oneByteStorage.writeChunk "/a".toList 0 [9] 3) := rfl
  have hbefore : (oneByteStorage.file? "/a".toList 0).getD [] = [1] := by
    rw [oneByteStorage, ChunkStorage.file?_writeChunk_self]
    rfl
  obtain ⟨-, ⟨after, hafter, hwrote⟩, -⟩ := h.returned _ 1 hcall
  have hself := (oneByteStorage.file?_writeChunk_self "/a".toList 0 [9] 3).symm.trans hafter
  rw [hbefore] at hwrote hself
  have hbyte := hwrote 1
  rw [← Option.some.inj hself] at hbyte
  exact absurd hbyte (by decide)

end GekkoFS
