import GekkoFS.Common.Distributor
import GekkoFS.Daemon.ForwardRedistribution
import GekkoFS.Lib.Transition

/-!
# Redistribution after an expansion

After new daemons have joined, each daemon walks over its metadata entries and then over its chunk
files and sends to its destination what the new distribution places elsewhere. An entry or a chunk
file is first forwarded and then removed, whatever became of the forward. The daemons do this at
the same time, so a run is a list of events of the daemons in any order (`RedistState.step`), where
the forward and the removal are events of their own.

A daemon knows its own position among the daemons here; whether `connect_to_hosts` finds it is the
subject of `ConnectToHosts`. Its table of endpoints may have entries of earlier expansions, and an
endpoint stands for the daemon with that address.
-/

namespace GekkoFS

open Function

/-- The key of the root directory, which every daemon has and none moves. -/
def rootKey : List Char := ['/']

/-! ## The chunk directory iterator -/

namespace ChunkStorage

/-- The chunk files of a daemon: directory name and chunk id. Source: `get_all_chunk_files`
(`chunk_storage.cpp:348`). -/
def getAllChunkFiles (st : ChunkStorage) : List (List Char × Nat) :=
  st.keys.flatMap fun dir => ((st.lookup dir).getD ∅).keys.map fun chnkId => (dir, chnkId)

/-- Remove a chunk file, and its directory if that is empty then. Source: `redistribute_data`
(`malleable_manager.cpp:303`). -/
def removeChunkFile (st : ChunkStorage) (dir : List Char) (chnkId : Nat) : ChunkStorage :=
  match st.lookup dir with
  | none => st
  | some files =>
    if (files.erase chnkId).keys = [] then st.erase dir else st.insert dir (files.erase chnkId)

end ChunkStorage

/-- The path that a chunk directory is taken to belong to. Source: `redistribute_data`
(`malleable_manager.cpp:266`). -/
def gkfsPath (dir : List Char) : List Char :=
  '/' :: dir.map fun c => if c = ':' then '/' else c

/-- What `open` and `read` do to a chunk file: one of them fails, or `read` returns at most the
given number of bytes. -/
inductive ChunkRead
  | fails
  | bytes (count : Nat)
  deriving DecidableEq, Repr

/-- The bytes that are read of a chunk file; one that does not exist cannot be opened. -/
def ChunkRead.apply : ChunkRead → Option (List UInt8) → Option (List UInt8)
  | .fails, _ => none
  | .bytes count, file => file.map (List.take count)

/-! ## The daemons during a redistribution -/

/-- Where a daemon stands in `expand_abt`: at the head of a loop with what is left to visit, between
a forward that returned `err` and the removal that follows it, at the end, or after an exception of
the merge operator or of a missing endpoint, which nothing catches. -/
inductive RedistPhase
  | idle
  | metadata (iter : List (List Char × Cell))
  | removeKey (key : List Char) (err : Int) (iter : List (List Char × Cell))
  | data (files : List (List Char × Nat))
  | removeFile (dir : List Char) (chnkId : Nat) (err : Int) (files : List (List Char × Nat))
  | finished
  | aborted
  deriving DecidableEq, Repr

/-- The daemons, where each stands, how many entries each failed to forward, and the endpoints of
each. -/
structure RedistState (n : Nat) where
  daemons : DaemonCluster n
  phase : Fin n → RedistPhase
  migrationErr : Fin n → Nat
  endpoints : Fin n → Endpoints (Fin n)

/-- What a daemon does next; `link` is what becomes of the request it sends, if it sends one, and
`wbitset` is the text that is sent as the bitmap of a chunk. -/
inductive RedistEvent (n : Nat)
  | expandStart (host : Fin n)
  | migrateKey (host : Fin n) (link : Delivery)
  | removeKey (host : Fin n)
  | startData (host : Fin n)
  | seeFile (host : Fin n) (dir : List Char) (chnkId : Nat)
  | migrateFile (host : Fin n) (dir : List Char) (chnkId : Nat) (read : ChunkRead)
      (wbitset : List Char) (link : Delivery)
  | removeFile (host : Fin n)
  | finish (host : Fin n)

namespace RedistState

variable {n : Nat} (cfg : MetadataConfig) (d : Distributor n) (s : RedistState n)

/-- Before the expansion starts, with the endpoints of earlier expansions. -/
def start (cl : DaemonCluster n) (endpoints : Fin n → Endpoints (Fin n)) : RedistState n :=
  ⟨cl, fun _ => .idle, fun _ => 0, endpoints⟩

/-- A daemon goes on to another position. -/
def setPhase (host : Fin n) (p : RedistPhase) : RedistState n :=
  { s with phase := update s.phase host p }

/-- A daemon enters the endpoints that it does not have. Source: `connect_to_hosts`
(`malleable_manager.cpp:127`). -/
def connect (host : Fin n) : RedistState n :=
  { s with
    endpoints := update s.endpoints host
      ((List.finRange n).foldl (fun endpoints (id : Fin n) => endpoints.insertNew id id)
        (s.endpoints host)) }

/-- The body of the loop for one entry, up to the removal; reading the value of an entry calls the
merge operator. Source: `redistribute_metadata` (`malleable_manager.cpp:212`). -/
def migrateKey (host : Fin n) (link : Delivery) (key : List Char) (c : Cell)
    (iter : List (List Char × Cell)) : RedistState n :=
  let reserve := AppendOffsetReserve.putAll (s.daemons host).reserve (c.get cfg).1
  let s := { s with daemons := update s.daemons host { s.daemons host with reserve } }
  match (c.get cfg).2 with
  | .error _ => s.setPhase host .aborted
  | .ok value =>
    if key = rootKey then s.setPhase host (.metadata iter)
    else if d.locateFileMetadata key 0 = host then s.setPhase host (.metadata iter)
    else
      match forwardMetadata s.daemons (s.endpoints host) key value (d.locateFileMetadata key 0)
          link with
      | none => s.setPhase host .aborted
      | some r =>
        { s with
          daemons := r.2
          phase := update s.phase host (.removeKey key r.1 iter)
          migrationErr :=
            if r.1 ≠ 0 then update s.migrationErr host (s.migrationErr host + 1)
            else s.migrationErr }

/-- The body of the loop for one chunk file, up to the removal. Source: `redistribute_data`
(`malleable_manager.cpp:255`). -/
def migrateFile (host : Fin n) (dir : List Char) (chnkId : Nat) (read : ChunkRead)
    (wbitset : List Char) (link : Delivery) (files : List (List Char × Nat)) : RedistState n :=
  let destId := d.locateData (gkfsPath dir) chnkId 0
  if destId = host then s.setPhase host (.data files)
  else
    match read.apply ((s.daemons host).storage.chunkFile? dir chnkId) with
    | none => s.setPhase host (.data files)
    | some buf =>
      match forwardData s.daemons (s.endpoints host) (gkfsPath dir) wbitset buf chnkId destId
          link with
      | none => s.setPhase host .aborted
      | some r =>
        { s with
          daemons := r.2
          phase := update s.phase host (.removeFile dir chnkId r.1 files) }

/-- One event, if it can happen. The directory iterator may also see files that come after it was
made. Source: `expand_start` (`malleable_manager.cpp:339`) and `expand_abt`
(`malleable_manager.cpp:320`) with `redistribute_metadata` and `redistribute_data`. -/
def step : RedistEvent n → Option (RedistState n)
  | .expandStart host =>
    match s.phase host with
    | .idle => some ((s.connect host).setPhase host (.metadata (s.daemons host).db.iterateAll))
    | _ => none
  | .migrateKey host link =>
    match s.phase host with
    | .metadata ((key, c) :: iter) => some (s.migrateKey cfg d host link key c iter)
    | _ => none
  | .removeKey host =>
    match s.phase host with
    | .removeKey key _ iter =>
      some ({ s with
        daemons := update s.daemons host ((s.daemons host).removeImpl key) }.setPhase
          host (.metadata iter))
    | _ => none
  | .startData host =>
    match s.phase host with
    | .metadata [] => some (s.setPhase host (.data (s.daemons host).storage.getAllChunkFiles))
    | _ => none
  | .seeFile host dir chnkId =>
    match s.phase host with
    | .data files =>
      if ((s.daemons host).storage.chunkFile? dir chnkId).isSome then
        some (s.setPhase host (.data ((dir, chnkId) :: files)))
      else none
    | _ => none
  | .migrateFile host dir chnkId read wbitset link =>
    match s.phase host with
    | .data files =>
      if (dir, chnkId) ∈ files then
        some (s.migrateFile d host dir chnkId read wbitset link (files.erase (dir, chnkId)))
      else none
    | _ => none
  | .removeFile host =>
    match s.phase host with
    | .removeFile dir chnkId _ files =>
      some ({ s with
        daemons := update s.daemons host { s.daemons host with
          storage := (s.daemons host).storage.removeChunkFile dir chnkId } }.setPhase
            host (.data files))
    | _ => none
  | .finish host =>
    match s.phase host with
    | .data [] => some (s.setPhase host .finished)
    | _ => none

end RedistState

/-! ## What an expansion must keep -/

/-- The value of a key on a daemon, if it is there and can be read. -/
def MetadataDaemon.value? (cfg : MetadataConfig) (st : MetadataDaemon) (key : List Char) :
    Option (List Char) := (st.db.cell key).value? cfg

section
variable {m n : Nat} (cfg : MetadataConfig) (old : Fin m → Fin n) (dOld : Distributor m)
  (d : Distributor n) (paths : List (List Char)) (init : DaemonCluster n)

/-- The content of the daemons before an expansion, where `old` gives the positions of the old
daemons among all and `paths` the files of the file system: every entry can be read, and it lies, as
does every chunk of a file, where the old distribution places it. -/
structure Placed : Prop where
  readable : ∀ host key, ((init host).db.cell key).Readable cfg
  entry : ∀ host key, key ≠ rootKey → (init host).db.cell key ≠ Cell.empty →
    host = old (dOld.locateFileMetadata key 0)
  absolute : ∀ path ∈ paths, ∃ rest, path = '/' :: rest
  chunk : ∀ host dir chnkId bytes, (init host).storage.chunkFile? dir chnkId = some bytes →
    ∃ path ∈ paths, ChunkStorage.getChunksDir path = dir ∧
      host = old (dOld.locateData path chnkId 0)

/-- Nothing is lost: what is about to be removed has been acknowledged by its destination and is
there as it was at first, every entry and every chunk file is on some daemon as it was at first, and
after the old daemons have finished each is on the daemon that the new distribution names. The entry
of the root directory stays where it is. -/
structure RedistOk (s : RedistState n) : Prop where
  ackedKey : ∀ host key err iter, s.phase host = .removeKey key err iter →
    err = 0 ∧ ∃ home value, (init home).value? cfg key = some value ∧
      (s.daemons (d.locateFileMetadata key 0)).value? cfg key = some value
  ackedFile : ∀ host dir chnkId err files, s.phase host = .removeFile dir chnkId err files →
    err = 0 ∧ ∃ home bytes, (init home).storage.chunkFile? dir chnkId = some bytes ∧
      (s.daemons (d.locateData (gkfsPath dir) chnkId 0)).storage.chunkFile? dir chnkId =
        some bytes
  keptKey : ∀ home key value, (init home).value? cfg key = some value →
    ∃ host, (s.daemons host).value? cfg key = some value
  keptFile : ∀ home dir chnkId bytes, (init home).storage.chunkFile? dir chnkId = some bytes →
    ∃ host, (s.daemons host).storage.chunkFile? dir chnkId = some bytes
  root : ∀ host, (s.daemons host).value? cfg rootKey = (init host).value? cfg rootKey
  placedKey : (∀ h, s.phase (old h) = .finished) → ∀ home key value, key ≠ rootKey →
    (init home).value? cfg key = some value →
      (s.daemons (d.locateFileMetadata key 0)).value? cfg key = some value
  placedFile : (∀ h, s.phase (old h) = .finished) → ∀ path ∈ paths, ∀ home chnkId bytes,
    (init home).storage.file? path chnkId = some bytes →
      (s.daemons (d.locateData path chnkId 0)).storage.file? path chnkId = some bytes

end

/-- The condition on one event: a request is delivered and answered, a chunk file is read completely
and the bitmap of its request is the one that was computed. -/
def RedistState.ForwardOk {n : Nat} (s : RedistState n) : RedistEvent n → Prop
  | .migrateKey _ link => link = .delivered
  | .migrateFile host dir chnkId read wbitset link =>
    link = .delivered ∧ wbitset = oneChunkBitset ∧
      read.apply ((s.daemons host).storage.chunkFile? dir chnkId) =
        (s.daemons host).storage.chunkFile? dir chnkId
  | _ => True

instance {n : Nat} (s : RedistState n) : (e : RedistEvent n) → Decidable (s.ForwardOk e)
  | .migrateKey .. => inferInstanceAs (Decidable (_ = _))
  | .migrateFile .. => inferInstanceAs (Decidable (_ ∧ _))
  | .expandStart _ | .removeKey _ | .startData _ | .seeFile .. | .removeFile _ | .finish _ =>
    inferInstanceAs (Decidable True)

end GekkoFS
