import GekkoFS.Common.Arithmetic
import GekkoFS.Daemon.ChunkStorage

/-!
# Truncating the chunks of a file on one daemon

`truncate_abt` cuts the chunk that the new size falls into and then removes the chunk files behind
it. The chunks of a file are spread over the daemons, so a contacted daemon may hold any of them.
What it should do for its share is `TruncatesShare`. The code does it exactly if the daemon has a
chunk directory for the path and holds the chunk that is cut, if one is (`truncateAbt_iff`): a
missing directory and a missing chunk file are reported as errors, and the second one keeps the
chunk files that should go.

`ChunkStorage.read_chunk` has the same situation and its caller treats a missing chunk file as a
hole of the file.
-/

namespace GekkoFS

/-! ## The operation -/

/-- The last step of `truncate_abt`. An exception of the directory iterator becomes `EIO`. -/
def truncateTrim (st : ChunkStorage) (path : List Char) (chunkIdStart : Nat) :
    ChunkStorage × Nat :=
  match st.trimChunkSpace path chunkIdStart with
  | none => (st, EIO)
  | some st' => (st', 0)

/-- Truncate the chunks of a file to a size: the storage afterwards, and the error reported.
Source: `ChunkTruncateOperation::truncate_abt` (`ops/data.cpp:61`). -/
def truncateAbt (st : ChunkStorage) (path : List Char) (size : Nat) : ChunkStorage × Nat :=
  let chunkIdStart := blockIndex size chunksize
  let leftPad := blockOverrun size chunksize
  if leftPad ≠ 0 then
    match st.truncateChunkFile path chunkIdStart leftPad with
    | .error err => (st, err)
    | .ok st' => truncateTrim st' path (chunkIdStart + 1)
  else truncateTrim st path chunkIdStart

/-- The truncate handler: its reply is the error of the operation. Source: `rpc_srv_truncate`
(`srv_data.cpp:1223`). -/
def rpcSrvTruncate (st : ChunkStorage) (path : List Char) (length : Nat) : ChunkStorage × Nat :=
  truncateAbt st path length

/-! ## What the storage operations leave -/

namespace ChunkStorage

variable {st st' : ChunkStorage} {filePath : List Char} {chunkId chunkStart length : Nat}

/-- Erasing files one after another leaves the others. -/
theorem lookup_foldl_erase (id : Nat) : ∀ (ids : List Nat) (dir : ChunkDir),
    (ids.foldl (fun d chunkId => d.erase chunkId) dir).lookup id =
      if id ∈ ids then none else dir.lookup id
  | [], dir => rfl
  | k :: ids, dir => by
    rw [List.foldl_cons, lookup_foldl_erase id ids]
    by_cases hk : id = k
    · subst hk
      simp
    · rw [AList.lookup_erase_ne hk]
      simp [hk]

/-- Trimming needs the directory, and leaves the chunk files before the given one. -/
theorem trimChunkSpace_eq_some (h : st.trimChunkSpace filePath chunkStart = some st') (id : Nat) :
    st'.file? filePath id = if chunkStart ≤ id then none else st.file? filePath id := by
  obtain ⟨dir, hdir, rfl⟩ := Option.map_eq_some_iff.1 h
  rw [file?, AList.lookup_insert, Option.bind_some, lookup_foldl_erase, file?, hdir,
    Option.bind_some]
  by_cases hid : chunkStart ≤ id
  · rw [if_pos hid]
    split
    · rfl
    · next hmem =>
      rw [List.mem_filter, not_and] at hmem
      exact AList.lookup_eq_none.2 fun hd => hmem hd (by simpa using hid)
  · rw [if_neg hid, if_neg fun hmem => hid (by simpa using (List.mem_filter.1 hmem).2)]

/-- Trimming fails exactly if there is no directory. -/
theorem trimChunkSpace_eq_none :
    st.trimChunkSpace filePath chunkStart = none ↔ getChunksDir filePath ∉ st := by
  rw [trimChunkSpace, Option.map_eq_none_iff, AList.lookup_eq_none]

/-- Cutting a chunk file changes this file only, and keeps the directory. -/
theorem truncateChunkFile_eq_ok (h : st.truncateChunkFile filePath chunkId length = .ok st') :
    getChunksDir filePath ∈ st' ∧ ∀ id, st'.file? filePath id =
      if id = chunkId then
        (st.file? filePath id).map (cutChunk length)
      else st.file? filePath id := by
  rw [truncateChunkFile] at h
  split at h
  · cases h
  · next dir hdir =>
    split at h
    · cases h
    · next bytes hbytes =>
      cases h
      refine ⟨(AList.mem_insert _).2 (.inl rfl), fun id => ?_⟩
      rw [file?, AList.lookup_insert, Option.bind_some, file?, hdir, Option.bind_some]
      split
      · next hid => rw [hid, AList.lookup_insert, hbytes, Option.map_some]
      · next hid => rw [AList.lookup_insert_ne hid]

/-- Cutting a chunk file succeeds exactly if the file exists. -/
theorem truncateChunkFile_isOk :
    (∃ st', st.truncateChunkFile filePath chunkId length = .ok st') ↔
      (st.file? filePath chunkId).isSome := by
  rw [truncateChunkFile, file?]
  cases st.lookup (getChunksDir filePath) with
  | none => simp
  | some dir =>
    cases hb : dir.lookup chunkId with
    | none => simp [hb]
    | some bytes => simp [hb]

end ChunkStorage

/-! ## The share of a daemon -/

/-- From the chunk files of `st` on, those of `st'` are the ones a file of `size` bytes has: the
chunks before the cut are unchanged, the chunk that is cut has its new length if it is there, and
there is no chunk behind the cut. -/
structure TruncatesShare (st st' : ChunkStorage) (path : List Char) (size : Nat) : Prop where
  /-- The chunks before the cut. -/
  below : ∀ id < size / chunksize, st'.file? path id = st.file? path id
  /-- The chunk that is cut. -/
  cut : size % chunksize ≠ 0 → st'.file? path (size / chunksize) =
    (st.file? path (size / chunksize)).map (ChunkStorage.cutChunk (size % chunksize))
  /-- The length of the chunk that is cut. -/
  cut_length : ∀ bytes, size % chunksize ≠ 0 → st'.file? path (size / chunksize) = some bytes →
    bytes.length = size % chunksize
  /-- At a chunk boundary no chunk is cut. -/
  aligned : size % chunksize = 0 → st'.file? path (size / chunksize) = none
  /-- The chunks behind the cut. -/
  above : ∀ id, size / chunksize < id → st'.file? path id = none

/-- What the daemon must hold for a truncate to succeed: the directory of the path, and the chunk
that is cut, if one is. -/
def HoldsCut (st : ChunkStorage) (path : List Char) (size : Nat) : Prop :=
  ChunkStorage.getChunksDir path ∈ st ∧
    (size % chunksize = 0 ∨ (st.file? path (size / chunksize)).isSome)

section
variable {st : ChunkStorage} {path : List Char} {size : Nat}

/-- The operation at a size that is a chunk boundary. -/
theorem truncateAbt_aligned (hs : size < 2 ^ 64) (h : size % chunksize = 0) :
    truncateAbt st path size = truncateTrim st path (size / chunksize) := by
  rw [truncateAbt, blockOverrun_chunksize, if_neg (not_not.2 h), blockIndex_chunksize hs]

/-- The operation at a size inside a chunk that the daemon does not hold. -/
theorem truncateAbt_missing (hs : size < 2 ^ 64) (h : size % chunksize ≠ 0)
    (hmiss : st.file? path (size / chunksize) = none) : (truncateAbt st path size).2 = ENOENT := by
  rw [truncateAbt, blockOverrun_chunksize, if_pos h, blockIndex_chunksize hs,
    ChunkStorage.truncateChunkFile]
  rw [ChunkStorage.file?] at hmiss
  cases hdir : st.lookup (ChunkStorage.getChunksDir path) with
  | none => rfl
  | some dir =>
    rw [hdir, Option.bind_some] at hmiss
    simp only [hmiss]

/-- The operation at a size inside a chunk that the daemon holds. -/
theorem truncateAbt_cut (hs : size < 2 ^ 64) (h : size % chunksize ≠ 0)
    (hfile : (st.file? path (size / chunksize)).isSome) :
    ∃ st', st.truncateChunkFile path (size / chunksize) (size % chunksize) = .ok st' ∧
      truncateAbt st path size = truncateTrim st' path (size / chunksize + 1) := by
  obtain ⟨st', hst'⟩ := ChunkStorage.truncateChunkFile_isOk.2 hfile
  refine ⟨st', hst', ?_⟩
  rw [truncateAbt, blockOverrun_chunksize, if_pos h, blockIndex_chunksize hs, hst']

/-- Trimming succeeds if there is a directory. -/
theorem truncateTrim_of_mem (h : ChunkStorage.getChunksDir path ∈ st) (chunkStart : Nat) :
    (truncateTrim st path chunkStart).2 = 0 ∧
      ∀ id, (truncateTrim st path chunkStart).1.file? path id =
        if chunkStart ≤ id then none else st.file? path id := by
  rw [truncateTrim]
  cases ht : st.trimChunkSpace path chunkStart with
  | none => exact absurd h (ChunkStorage.trimChunkSpace_eq_none.1 ht)
  | some st' => exact ⟨rfl, ChunkStorage.trimChunkSpace_eq_some ht⟩

/-- **Truncating a daemon's share.** The operation reports success and leaves the share of the
shorter file exactly if the daemon has a directory for the path and holds the chunk that is cut, if
one is. -/
theorem truncateAbt_iff (st : ChunkStorage) (path : List Char) (size : Nat) (hs : size < 2 ^ 64) :
    ((truncateAbt st path size).2 = 0 ∧
        TruncatesShare st (truncateAbt st path size).1 path size) ↔ HoldsCut st path size := by
  constructor
  · rintro ⟨herr, -⟩
    by_cases ha : size % chunksize = 0
    · refine ⟨?_, .inl ha⟩
      rw [truncateAbt_aligned hs ha, truncateTrim] at herr
      by_contra hdir
      rw [ChunkStorage.trimChunkSpace_eq_none.2 hdir] at herr
      cases herr
    · cases hfile : st.file? path (size / chunksize) with
      | none =>
        rw [truncateAbt_missing hs ha hfile] at herr
        cases herr
      | some bytes =>
        refine ⟨?_, .inr (by rw [hfile]; rfl)⟩
        rw [ChunkStorage.file?] at hfile
        obtain ⟨dir, hdir, -⟩ := Option.bind_eq_some_iff.1 hfile
        exact AList.lookup_isSome.1 (by rw [hdir]; rfl)
  · rintro ⟨hdir, hcut⟩
    by_cases ha : size % chunksize = 0
    · obtain ⟨herr, hfile⟩ := truncateTrim_of_mem hdir (size / chunksize)
      rw [← truncateAbt_aligned hs ha] at herr hfile
      exact ⟨herr, fun id hid => by rw [hfile, if_neg (Nat.not_le.2 hid)], fun h => absurd ha h,
        fun _ h => absurd ha h, fun _ => by rw [hfile, if_pos (Nat.le_refl _)],
        fun id hid => by rw [hfile, if_pos hid.le]⟩
    · obtain ⟨st', hst', heq⟩ := truncateAbt_cut hs ha (hcut.resolve_left ha)
      obtain ⟨hdir', hfile'⟩ := ChunkStorage.truncateChunkFile_eq_ok hst'
      obtain ⟨herr, hfile⟩ := truncateTrim_of_mem hdir' (size / chunksize + 1)
      rw [← heq] at herr hfile
      have hcutfile : (truncateAbt st path size).1.file? path (size / chunksize) =
          (st.file? path (size / chunksize)).map (ChunkStorage.cutChunk (size % chunksize)) := by
        rw [hfile, if_neg (Nat.not_succ_le_self _), hfile', if_pos rfl]
      refine ⟨herr, fun id hid => ?_, fun _ => hcutfile, fun bytes _ hbytes => ?_,
        fun h => absurd h ha, fun id hid => ?_⟩
      · rw [hfile, if_neg (Nat.not_le.2 (Nat.lt_succ_of_lt hid)), hfile', if_neg hid.ne]
      · rw [hcutfile] at hbytes
        obtain ⟨old, -, rfl⟩ := Option.map_eq_some_iff.1 hbytes
        exact ChunkStorage.cutChunk_length _ old
      · rw [hfile, if_pos (Nat.succ_le_of_lt hid)]

end

/-- A daemon that holds chunk 1 of a file, and cuts it to three bytes. -/
theorem truncateAbt_iff_holds :
    let st : ChunkStorage := AList.insert "f".toList (AList.insert 1 [1, 2, 3, 4] ∅) ∅
    (truncateAbt st "/f".toList (524288 + 3)).2 = 0 ∧
      TruncatesShare st (truncateAbt st "/f".toList (524288 + 3)).1 "/f".toList (524288 + 3) :=
  (truncateAbt_iff _ _ (524288 + 3) (by decide)).2 ⟨by decide, .inr (by decide)⟩

/-- A daemon that holds chunk 5 of a file but not chunk 0: cutting the file to one byte is an
error, and chunk 5 stays. -/
theorem truncateAbt_missing_cut :
    let st : ChunkStorage := AList.insert "f".toList (AList.insert 5 [7] ∅) ∅
    ¬ ((truncateAbt st "/f".toList 1).2 = 0 ∧
        TruncatesShare st (truncateAbt st "/f".toList 1).1 "/f".toList 1) ∧
      (truncateAbt st "/f".toList 1).2 = ENOENT ∧
      (truncateAbt st "/f".toList 1).1.file? "/f".toList 5 = some [7] := by
  refine ⟨fun h => absurd h.1 (by decide), by decide, by decide⟩

end GekkoFS
