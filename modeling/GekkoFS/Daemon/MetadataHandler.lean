import GekkoFS.Daemon.MetadataDB
import GekkoFS.Lib.Transition

/-!
# The metadata requests of a daemon

The handlers that create, stat, resize and remove entries are translated as the source has them,
each as a transformer of the daemon's state with the error code it answers with; `serve` runs one
request, and the machine `MetadataRun.step` runs requests one after another, with RocksDB folding
queued operands in between.

Size updates are queued without a look at the key. `KeysReadable` and `RemovedGone` say what should
hold of a daemon all the same, and `SizeUpdateOk` is the condition on the size updates under which
it does.
-/

namespace GekkoFS

open MetadataDaemon

/-! ## Handlers -/

section
variable (cfg : MetadataConfig) (st : MetadataDaemon) (path : List Char)

/-- Source: `rpc_srv_create` (`srv_metadata.cpp:65`) with `create` (`metadentry.cpp:64`). -/
def rpcSrvCreate (mode : UInt32) (now : Int64) : Int × MetadataDaemon :=
  match putNoExistImpl cfg st path
      ((Metadata.ofMode cfg now.toInt mode.toNat).serialize cfg) with
  | (.ok (), st) => (0, st)
  | (.error .exists, st) => (EEXIST, st)
  | (.error _, st) => (-1, st)

/-- The error code and the value of an entry. Source: `rpc_srv_stat` (`srv_metadata.cpp:120`). -/
def rpcSrvStat : (Int × List Char) × MetadataDaemon :=
  match getImpl cfg st path with
  | (.ok val, st) => ((0, val), st)
  | (.error .notFound, st) => ((ENOENT, []), st)
  | (.error _, st) => ((EBUSY, []), st)

/-- Source: `rpc_srv_decr_size` (`srv_metadata.cpp:176`). -/
def rpcSrvDecrSize (length : UInt64) (now : Int64) : Int × MetadataDaemon :=
  (0, decreaseSizeImpl cfg st path length now)

/-- The answer to a removal. Source: `rpc_rm_metadata_out_t` (`rpc_types.hpp:55`). -/
structure RmMetadataOut where
  err : Int
  size : Int
  mode : Nat
  deriving DecidableEq, Repr

/-- Remove an entry that was read as `md`, with the chunks that this daemon holds of it.
Source: `rpc_srv_remove_metadata` (`srv_metadata.cpp:245`). -/
def removeEntry (rmDir : Bool) (md : Metadata) : RmMetadataOut × MetadataDaemon :=
  if isDir md.mode && !rmDir then (⟨EISDIR, 0, 0⟩, st)
  else if !isDir md.mode && rmDir then (⟨ENOTDIR, 0, 0⟩, st)
  else
    (⟨0, toOff (if isDir md.mode then 0 else md.size), md.mode⟩,
      { removeImpl st path with
        storage :=
          if isReg md.mode && md.size ≠ 0 then st.storage.destroyChunkSpace path
          else st.storage })

/-- Source: `rpc_srv_remove_metadata` (`srv_metadata.cpp:231`). -/
def rpcSrvRemoveMetadata (rmDir : Bool) : RmMetadataOut × MetadataDaemon :=
  match getImpl cfg st path with
  | (.error .notFound, st) => (⟨ENOENT, 0, 0⟩, st)
  | (.error _, st) => (⟨EBUSY, 0, 0⟩, st)
  | (.ok val, st) =>
    match Metadata.parse cfg val with
    | none => (⟨EBUSY, 0, 0⟩, st)
    | some md => removeEntry st path rmDir md

/-- Source: `rpc_srv_remove_data` (`srv_metadata.cpp:311`). -/
def rpcSrvRemoveData : Int × MetadataDaemon :=
  (0, { st with storage := st.storage.destroyChunkSpace path })

/-- The error code and the offset of a size update. Source: `rpc_srv_update_metadentry_size`
(`srv_metadata.cpp:423`). -/
def rpcSrvUpdateMetadentrySize (size offset : UInt64) (append : Bool) (mergeId : UInt16)
    (now : Int64) : (Int × Int) × MetadataDaemon :=
  match increaseSizeImpl cfg st path size offset append mergeId now with
  | (.ok retOffset, st) => ((0, retOffset), st)
  | (.error .notFound, st) => ((ENOENT, 0), st)
  | (.error _, st) => ((EBUSY, 0), st)

end

/-! ## Sequences of requests -/

/-- A metadata request. The merge id and the time are what the daemon draws for it. -/
inductive MetadataRequest
  | create (path : List Char) (mode : UInt32) (now : Int64)
  | removeMetadata (path : List Char) (rmDir : Bool)
  | updateMetadentrySize (path : List Char) (size offset : UInt64) (append : Bool)
      (mergeId : UInt16) (now : Int64)
  | decrSize (path : List Char) (length : UInt64) (now : Int64)
  | stat (path : List Char)
  deriving DecidableEq

namespace MetadataRequest

/-- The path of a request. -/
def path : MetadataRequest → List Char
  | create path .. => path
  | removeMetadata path _ => path
  | updateMetadentrySize path .. => path
  | decrSize path .. => path
  | stat path => path

/-- Whether a request is a removal. -/
def isRemove : MetadataRequest → Bool
  | removeMetadata .. => true
  | _ => false

/-- The error code that a request is answered with, and the state of the daemon after it. -/
def serve (cfg : MetadataConfig) (st : MetadataDaemon) : MetadataRequest → Int × MetadataDaemon
  | create path mode now => rpcSrvCreate cfg st path mode now
  | removeMetadata path rmDir =>
    let r := rpcSrvRemoveMetadata cfg st path rmDir
    (r.1.err, r.2)
  | updateMetadentrySize path size offset append mergeId now =>
    let r := rpcSrvUpdateMetadentrySize cfg st path size offset append mergeId now
    (r.1.1, r.2)
  | decrSize path length now => rpcSrvDecrSize cfg st path length now
  | stat path =>
    let r := rpcSrvStat cfg st path
    (r.1.1, r.2)

end MetadataRequest

/-- What happens on a daemon: a request is served, or RocksDB folds the first `count` operands of a
key. -/
inductive MetadataEvent
  | request (req : MetadataRequest)
  | compact (key : List Char) (count : Nat)
  deriving DecidableEq

/-- A daemon with the requests it has served and their error codes, newest first. -/
structure MetadataRun where
  daemon : MetadataDaemon
  served : List (MetadataRequest × Int)

namespace MetadataRun

/-- A daemon that has just started on an empty store. -/
def initial : MetadataRun := ⟨⟨∅, fun _ => none, ∅⟩, []⟩

/-- The last request for a path that was successful. -/
def lastSuccessful (run : MetadataRun) (path : List Char) : Option MetadataRequest :=
  (run.served.find? fun r => r.1.path = path && r.2 = 0).map Prod.fst

/-- Fold operands of a key. -/
def compact (cfg : MetadataConfig) (run : MetadataRun) (key : List Char) (count : Nat) :
    MetadataRun :=
  let r := (run.daemon.db.cell key).compact cfg count
  { run with
    daemon :=
      { run.daemon with
        db := run.daemon.db.insert key r.2
        reserve := AppendOffsetReserve.putAll run.daemon.reserve r.1 } }

/-- One step of a daemon. A compaction folds at least one operand. -/
def step (cfg : MetadataConfig) (run : MetadataRun) : MetadataEvent → Option MetadataRun
  | .request req =>
    let r := req.serve cfg run.daemon
    some ⟨r.2, (req, r.1) :: run.served⟩
  | .compact key count =>
    if 0 < count ∧ count ≤ (run.daemon.db.cell key).operands.length then
      some (run.compact cfg key count)
    else none

end MetadataRun

/-- Every key can be read: the merge operator does not throw on its queued operands or a prefix of
them, and without a value they start with a creation. -/
def KeysReadable (cfg : MetadataConfig) (db : DB) : Prop :=
  ∀ key, (∀ n, 0 < n → n ≤ (db.cell key).operands.length →
      (fullMergeV2 cfg (db.cell key).base ((db.cell key).operands.take n)).2 ≠ none) ∧
    ∀ op ∈ (db.cell key).operands.head?, (db.cell key).base = none →
      MergeOperand.getId op = some .create

/-- A path that was removed last is reported as not existing and can be created. -/
def RemovedGone (cfg : MetadataConfig) (run : MetadataRun) : Prop :=
  ∀ path req, run.lastSuccessful path = some req → req.isRemove →
    (rpcSrvStat cfg run.daemon path).1.1 = ENOENT ∧
    ∀ mode now, (rpcSrvCreate cfg run.daemon path mode now).1 = 0

/-- The size that an update of a file of a given size leads to is below `2 ^ 63`. -/
def NewSizeOk (current : Option Nat) (size offset : UInt64) (append : Bool) : Prop :=
  if append then ∀ n ∈ current, u64 (n + size.toNat) < 2 ^ 63 else (offset + size).toNat < 2 ^ 63

instance (current : Option Nat) (size offset : UInt64) (append : Bool) :
    Decidable (NewSizeOk current size offset append) :=
  inferInstanceAs (Decidable (if append then ∀ n ∈ current, u64 (n + size.toNat) < 2 ^ 63 else _))

/-- The condition on a step: a size update is for a path that exists, and the size it leads to is
below `2 ^ 63`. -/
def SizeUpdateOk (cfg : MetadataConfig) (run : MetadataRun) : MetadataEvent → Prop
  | .request (.updateMetadentrySize path size offset append _ _) =>
    (existsImpl cfg run.daemon path).1 = .ok true ∧
      NewSizeOk (mergedSize cfg (run.daemon.db.cell path).base
        (run.daemon.db.cell path).operands) size offset append
  | .request (.decrSize path length _) =>
    (existsImpl cfg run.daemon path).1 = .ok true ∧ length.toNat < 2 ^ 63
  | _ => True

instance (cfg : MetadataConfig) (run : MetadataRun) :
    ∀ e : MetadataEvent, Decidable (SizeUpdateOk cfg run e)
  | .request (.updateMetadentrySize ..) =>
    inferInstanceAs (Decidable (_ ∧ NewSizeOk ..))
  | .request (.decrSize ..) => inferInstanceAs (Decidable (_ ∧ _))
  | .request (.create ..) => isTrue trivial
  | .request (.removeMetadata ..) => isTrue trivial
  | .request (.stat _) => isTrue trivial
  | .compact .. => isTrue trivial

end GekkoFS
