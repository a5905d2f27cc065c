import Mathlib.Algebra.Ring.Nat
import Mathlib.Data.List.AList
import GekkoFS.Common.Rpc
import GekkoFS.Lib.Bytes
import GekkoFS.Lib.Decimal

/-!
# The chunk storage of a daemon

A daemon keeps each file it holds chunks of as a directory, named after the path with its slashes
replaced, and each chunk as one file of that directory, named after the chunk id. A chunk file is
the byte array that `pread`, `pwrite` and `truncate` act on.

`ChunkStorage.file?` is the only view later proofs take of a storage, and each operation is
described by what it does to it.
-/

namespace GekkoFS

open Bytes

/-- The chunk files of one path: chunk id to content. -/
abbrev ChunkDir := AList fun _ : Nat => List UInt8

/-- The chunk directories of one daemon: directory name to chunk files.
Source: `ChunkStorage` (`chunk_storage.hpp:65`). -/
abbrev ChunkStorage := AList fun _ : List Char => ChunkDir

namespace ChunkStorage

/-- The name of a path's chunk directory. Source: `get_chunks_dir` (`chunk_storage.cpp:76`). -/
def getChunksDir (filePath : List Char) : List Char :=
  (filePath.drop 1).map fun c => if c = '/' then ':' else c

/-- The name of a chunk file. Source: `get_chunk_path` (`chunk_storage.cpp:84`). -/
def getChunkPath (filePath : List Char) (chunkId : Nat) : List Char :=
  getChunksDir filePath ++ '/' :: Decimal.ofNat chunkId

/-- The content of a chunk file, if the directory and the file exist. -/
def file? (st : ChunkStorage) (filePath : List Char) (chunkId : Nat) : Option (List UInt8) :=
  (st.lookup (getChunksDir filePath)).bind fun dir => dir.lookup chunkId

/-- Make sure that the chunk directory of a path exists. Source: `init_chunk_space`
(`chunk_storage.cpp:90`). -/
def initChunkSpace (st : ChunkStorage) (filePath : List Char) : ChunkStorage :=
  if getChunksDir filePath ∈ st then st else st.insert (getChunksDir filePath) ∅

/-- Write a buffer into a chunk file, which is created if it is missing; the number of bytes
written. Source: `write_chunk` (`chunk_storage.cpp:149`). -/
def writeChunk (st : ChunkStorage) (filePath : List Char) (chunkId : Nat) (buf : List UInt8)
    (offset : Nat) : ChunkStorage × Except Nat Nat :=
  let st := initChunkSpace st filePath
  let dir := (st.lookup (getChunksDir filePath)).getD ∅
  let old := (dir.lookup chunkId).getD []
  (st.insert (getChunksDir filePath) (dir.insert chunkId (overwrite 0 old offset buf)),
    .ok buf.length)

/-- Read at most `size` bytes of a chunk file; the bytes read. A file that does not exist cannot be
opened. Source: `read_chunk` (`chunk_storage.cpp:204`). -/
def readChunk (st : ChunkStorage) (filePath : List Char) (chunkId size offset : Nat) :
    Except Nat (List UInt8) :=
  match st.file? filePath chunkId with
  | none => .error ENOENT
  | some bytes => .ok (slice bytes offset size)

/-- Remove the chunk files of a path from `chunkStart` on. The directory iterator throws a
`filesystem_error`, which is not a `ChunkStorageException`, if there is no directory.
Source: `trim_chunk_space` (`chunk_storage.cpp:276`). -/
def trimChunkSpace (st : ChunkStorage) (filePath : List Char) (chunkStart : Nat) :
    Option ChunkStorage :=
  (st.lookup (getChunksDir filePath)).map fun dir =>
    st.insert (getChunksDir filePath)
      ((dir.keys.filter (chunkStart ≤ ·)).foldl (fun d chunkId => d.erase chunkId) dir)

/-- The bytes of a file after `truncate`: cut to `length` bytes, or extended with zeros up to
them. -/
def cutChunk (length : Nat) (bytes : List UInt8) : List UInt8 :=
  (extend 0 bytes length).take length

/-- Cut a chunk file to `length` bytes. Source: `truncate_chunk_file` (`chunk_storage.cpp:305`). -/
def truncateChunkFile (st : ChunkStorage) (filePath : List Char) (chunkId length : Nat) :
    Except Nat ChunkStorage :=
  match st.lookup (getChunksDir filePath) with
  | none => .error ENOENT
  | some dir =>
    match dir.lookup chunkId with
    | none => .error ENOENT
    | some bytes =>
      .ok (st.insert (getChunksDir filePath) (dir.insert chunkId (cutChunk length bytes)))

/-- Remove the chunk directory of a path with all its files, if there is one.
Source: `destroy_chunk_space` (`chunk_storage.cpp:123`). -/
def destroyChunkSpace (st : ChunkStorage) (filePath : List Char) : ChunkStorage :=
  st.erase (getChunksDir filePath)

/-! ## What the operations do to the chunk files -/

/-- A removed chunk directory holds no chunk file. -/
theorem file?_destroyChunkSpace (st : ChunkStorage) (filePath : List Char) (chunkId : Nat) :
    (st.destroyChunkSpace filePath).file? filePath chunkId = none := by
  rw [file?, destroyChunkSpace, AList.lookup_erase, Option.bind_none]

/-- A cut file has the length it was cut to. -/
theorem cutChunk_length (length : Nat) (bytes : List UInt8) :
    (cutChunk length bytes).length = length := by
  rw [cutChunk, List.length_take, extend_length]
  omega

/-- Creating a chunk directory changes no chunk file. -/
theorem file?_initChunkSpace (st : ChunkStorage) (filePath path' : List Char) (chunkId : Nat) :
    (st.initChunkSpace filePath).file? path' chunkId = st.file? path' chunkId := by
  rw [initChunkSpace]
  split
  · rfl
  · next h =>
    simp only [file?]
    by_cases hd : getChunksDir path' = getChunksDir filePath
    · rw [hd, AList.lookup_insert, AList.lookup_eq_none.2 h]; rfl
    · rw [AList.lookup_insert_ne hd]

/-- After a write, the file holds the written bytes over what it held before. -/
theorem file?_writeChunk_self (st : ChunkStorage) (filePath : List Char) (chunkId : Nat)
    (buf : List UInt8) (offset : Nat) :
    (st.writeChunk filePath chunkId buf offset).1.file? filePath chunkId =
      some (overwrite 0 ((st.file? filePath chunkId).getD []) offset buf) := by
  rw [← file?_initChunkSpace st filePath filePath chunkId]
  simp only [writeChunk, file?, AList.lookup_insert, Option.bind_some]
  cases (st.initChunkSpace filePath).lookup (getChunksDir filePath) with
  | none => rfl
  | some dir => rfl

/-- A write changes no other chunk file of the path. -/
theorem file?_writeChunk_ne {id' : Nat} (st : ChunkStorage) (filePath : List Char) {chunkId : Nat}
    (buf : List UInt8) (offset : Nat) (h : id' ≠ chunkId) :
    (st.writeChunk filePath chunkId buf offset).1.file? filePath id' = st.file? filePath id' := by
  rw [← file?_initChunkSpace st filePath filePath id']
  simp only [writeChunk, file?, AList.lookup_insert, Option.bind_some, AList.lookup_insert_ne h]
  cases (st.initChunkSpace filePath).lookup (getChunksDir filePath) with
  | none => rfl
  | some dir => rfl

/-- The content of a file of a chunk directory, if both exist. -/
def chunkFile? (st : ChunkStorage) (dir : List Char) (chunkId : Nat) : Option (List UInt8) :=
  (st.lookup dir).bind fun files => files.lookup chunkId

/-- A write changes no file of another directory. -/
theorem chunkFile?_writeChunk_ne_dir (st : ChunkStorage) {filePath dir : List Char}
    (chunkId id' : Nat) (buf : List UInt8) (offset : Nat) (h : dir ≠ getChunksDir filePath) :
    (st.writeChunk filePath chunkId buf offset).1.chunkFile? dir id' = st.chunkFile? dir id' := by
  have hinit : (st.initChunkSpace filePath).lookup dir = st.lookup dir := by
    rw [initChunkSpace]
    split
    · rfl
    · exact AList.lookup_insert_ne h
  rw [chunkFile?, writeChunk, AList.lookup_insert_ne h, hinit, chunkFile?]

end ChunkStorage

end GekkoFS
