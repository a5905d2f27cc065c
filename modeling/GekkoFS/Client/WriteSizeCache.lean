import GekkoFS.Client.ForwardTruncate
import GekkoFS.Client.Namespace
import GekkoFS.Client.UpdateSize

/-!
# The write size cache of the client

A client may keep the size updates of its writes to itself: `WriteSizeCache` counts the updates of
each path and remembers the largest size, which is sent to the metadata daemon when the count
exceeds a threshold or the file is synced or closed. The functions of the client that look at sizes,
`gkfs_do_write`, `gkfs_truncate`, `gkfs_fsync` and `gkfs_close`, are translated here with the cache
as a part of their state. Files are named by their paths instead of descriptors; every request is
delivered and answered, there is no replication, and no entry is a link or was renamed.

`cellAt` is what the metadata daemon of a path holds for it. For each request there is a lemma that
says what it does to the cells of all paths and to the chunk storages.
-/

namespace GekkoFS

open Function

/-! ## The cache -/

/-- Source: `WriteSizeCache` (`cache.hpp:137`). -/
structure WriteSizeCache where
  /-- For each path the number of updates since the last flush, and the largest size. -/
  sizeCache : AList fun _ : List Char => UInt64 × UInt64
  flushThreshold : UInt64

namespace WriteSizeCache

/-- What the cache has for a path. -/
def entry (cache : WriteSizeCache) (path : List Char) : UInt64 × UInt64 :=
  (cache.sizeCache.lookup path).getD (0, 0)

/-- Source: `record` (`cache.cpp:132`). -/
def record (cache : WriteSizeCache) (path : List Char) (size : UInt64) :
    (UInt64 × UInt64) × WriteSizeCache :=
  let pair := cache.entry path
  let pair := (pair.1 + 1, if pair.2 < size then size else pair.2)
  (pair, { cache with sizeCache := cache.sizeCache.insert path pair })

/-- Source: `reset` (`cache.cpp:144`). -/
def reset (cache : WriteSizeCache) (path : List Char) (evict : Bool) :
    (UInt64 × UInt64) × WriteSizeCache :=
  match cache.sizeCache.lookup path with
  | none => ((0, 0), cache)
  | some entry =>
    (entry,
      { cache with
        sizeCache :=
          if evict then cache.sizeCache.erase path
          else cache.sizeCache.insert path (0, entry.2) })

end WriteSizeCache

/-- The cache of a client that starts with it, which is off if the threshold is 0. Source:
`init_environment` (`preload.cpp:286`). -/
def initWriteSizeCache (flushThreshold : UInt64) : Option WriteSizeCache :=
  if flushThreshold = 0 then none else some ⟨∅, flushThreshold⟩

/-- A client's cache, if it uses one, and the daemons. -/
structure FileSystem (n : Nat) where
  cache : Option WriteSizeCache
  daemons : DaemonCluster n

/-- The chunk storages of the daemons. -/
def storages {n : Nat} (cl : DaemonCluster n) : Cluster n := fun host => (cl host).storage

/-- The daemons with other chunk storages. -/
def withStorages {n : Nat} (cl : DaemonCluster n) (st : Cluster n) : DaemonCluster n :=
  fun host => { cl host with storage := st host }

section
variable {n : Nat} (cfg : MetadataConfig) (d : Distributor n)

/-! ## Size updates -/

/-- Source: `update_file_size` (`preload_util.cpp:330`). -/
def updateFileSize (cl : DaemonCluster n) (path : List Char) (count offset : UInt64)
    (isAppend : Bool) (mergeId : UInt16) (now : Int64) : (Int × Int) × DaemonCluster n :=
  let host := d.locateFileMetadata path 0
  let r := rpcSrvUpdateMetadentrySize cfg (cl host) path count offset isAppend mergeId now
  (forwardUpdateMetadentrySize [.replied r.1.1 r.1.2], update cl host r.2)

/-- Source: `forward_decr_size` (`client/rpc/forward_metadata.cpp:296`). -/
def forwardDecrSize (cl : DaemonCluster n) (path : List Char) (length : UInt64) (now : Int64) :
    Int × DaemonCluster n :=
  let host := d.locateFileMetadata path 0
  let r := rpcSrvDecrSize cfg (cl host) path length now
  (r.1, update cl host r.2)

/-- The source passes `false` to `reset` whatever `evict` is. Source: `flush` (`cache.cpp:162`). -/
def WriteSizeCache.flush (cache : WriteSizeCache) (cl : DaemonCluster n) (path : List Char)
    (_evict : Bool) (now : Int64) : (Int × Int) × WriteSizeCache × DaemonCluster n :=
  match cache.reset path false with
  | ((latestEntryCnt, latestEntrySize), cache) =>
    if latestEntryCnt = 0 then ((0, 0), cache, cl)
    else
      match updateFileSize cfg d cl path latestEntrySize 0 false 0 now with
      | (ret, cl) => (ret, cache, cl)

/-- The data of a write. -/
def writeData (cl : DaemonCluster n) (path : List Char) (buf : List UInt8) (offset : Int) :
    (Nat × Nat) × DaemonCluster n :=
  let r := forwardWrite d (fun _ => .delivered) (storages cl) path buf (offset % 2 ^ 64).toNat 0
  (r.1, withStorages cl r.2)

namespace FileSystem

/-- The size update of a write: the offset at which the write goes on, or an error. Source:
`gkfs_do_write` (`gkfs_functions.cpp:939`). -/
def updateSize (fs : FileSystem n) (path : List Char) (count : UInt64) (offset : Int64)
    (isAppend : Bool) (mergeId : UInt16) (now : Int64) : Except Int Int × FileSystem n :=
  match fs.cache, isAppend with
  | some cache, false =>
    match cache.record path (offset.toUInt64 + count) with
    | ((sizeUpdateCnt, _), cache) =>
      if cache.flushThreshold < sizeUpdateCnt then
        match cache.flush cfg d fs.daemons path false now with
        | ((err, _), cache, cl) =>
          (if err ≠ 0 then .error err else .ok offset.toInt, ⟨some cache, cl⟩)
      else (.ok offset.toInt, ⟨some cache, fs.daemons⟩)
  | _, _ =>
    match updateFileSize cfg d fs.daemons path count offset.toUInt64 isAppend mergeId now with
    | (retOffset, cl) =>
      (gkfsDoWriteOffset isAppend offset.toInt retOffset, { fs with daemons := cl })

/-- Write to a file that was opened as a regular file: the size written, an `int`, or an error.
Source: `gkfs_do_write` (`gkfs_functions.cpp:923`). -/
def gkfsDoWrite (fs : FileSystem n) (path : List Char) (buf : List UInt8) (offset : Int64)
    (isAppend : Bool) (mergeId : UInt16) (now : Int64) : Except Int Int × FileSystem n :=
  match fs.updateSize cfg d path (UInt64.ofNat buf.length) offset isAppend mergeId now with
  | (.error err, fs) => (.error err, fs)
  | (.ok offset, fs) =>
    let ret := writeData d fs.daemons path buf offset
    (if ret.1.1 ≠ 0 then .error ret.1.1 else .ok (Int.bmod ret.1.2 (2 ^ 32)),
      { fs with daemons := ret.2 })

/-! ## Truncating -/

/-- Cut a file. The call does not return if the walk over the chunks does not end within `fuel`
tests. Source: `gkfs_truncate` (`gkfs_functions.cpp:769`). -/
def truncateTo (order : HostOrder n) (fuel : Nat) (fs : FileSystem n) (path : List Char)
    (oldSize newSize : Nat) (now : Int64) : Option (Int × FileSystem n) :=
  if newSize = oldSize then some (0, fs)
  else
    match forwardDecrSize cfg d fs.daemons path (UInt64.ofNat newSize) now with
    | (err, cl) =>
      if err ≠ 0 then some (err, { fs with daemons := cl })
      else
        (forwardTruncate d (fun _ => .delivered) order (storages cl) path oldSize newSize 0
          fuel).map fun r => (r.1, { fs with daemons := withStorages cl r.2.storage })

/-- Fill a file with zeros from its end on. A directory is opened by listing it, and the write
fails. The offset stays 0 if the daemon does not give the size. Source: `gkfs_truncate`
(`gkfs_functions.cpp:862`) with `gkfs_lseek` (`gkfs_functions.cpp:717`). -/
def extendTo (fs : FileSystem n) (path : List Char) (md : Metadata) (length : Nat) (now : Int64) :
    Int × FileSystem n :=
  match getMetadata cfg d fs.daemons path with
  | (.error _, cl) => (EINVAL, { fs with daemons := cl })
  | (.ok opened, cl) =>
    if isDir opened.mode then (EINVAL, { fs with daemons := (forwardGetDirents cfg cl path).2 })
    else
      match getMetadata cfg d cl path with
      | (atEnd, cl) =>
        let pos := match atEnd with
          | .ok md => md.size
          | .error _ => 0
        match gkfsDoWrite cfg d { fs with daemons := cl } path
            (List.replicate (length - md.size) 0) (Int64.ofNat pos) false 0 now with
        | (written, fs) =>
          (match written with
            | .ok writeSize => if writeSize ≠ (length - md.size : Nat) then EINVAL else 0
            | .error _ => EINVAL, fs)

/-- Source: `gkfs_truncate` (`gkfs_functions.cpp:816`). -/
def gkfsTruncate (order : HostOrder n) (fuel : Nat) (fs : FileSystem n) (path : List Char)
    (length : Int64) (now : Int64) : Option (Int × FileSystem n) :=
  if length < 0 then some (EINVAL, fs)
  else
    match getMetadata cfg d fs.daemons path with
    | (.error err, cl) => some (err, { fs with daemons := cl })
    | (.ok md, cl) =>
      let length := length.toUInt64.toNat
      if md.size < length then some (extendTo cfg d { fs with daemons := cl } path md length now)
      else truncateTo cfg d order fuel { fs with daemons := cl } path md.size length now

/-! ## Flushing -/

/-- Send the size that the cache has for an open file. Source: `gkfs_fsync`
(`gkfs_functions.cpp:1589`) and `gkfs_close` (`gkfs_functions.cpp:1616`). -/
def flushOpen (fs : FileSystem n) (path : List Char) (now : Int64) : Int × FileSystem n :=
  match fs.cache with
  | none => (0, fs)
  | some cache =>
    match cache.flush cfg d fs.daemons path true now with
    | ((err, _), cache, cl) => (err, ⟨some cache, cl⟩)

end FileSystem

/-! ## Sequences of calls -/

/-- A call of the client on a path. -/
inductive FileCall
  | create (path : List Char) (mode : UInt32) (now : Int64)
  | write (path : List Char) (offset : Int64) (buf : List UInt8) (now : Int64)
  | truncate (path : List Char) (length : Int64) (now : Int64)
  | unlink (path : List Char)
  | fsync (path : List Char) (now : Int64)
  | close (path : List Char) (now : Int64)
  deriving DecidableEq

namespace FileCall

def path : FileCall → List Char
  | create path .. => path
  | write path .. => path
  | truncate path .. => path
  | unlink path => path
  | fsync path _ => path
  | close path _ => path

end FileCall

/-- The client's cache and the daemons after a call, if the call returns. -/
def fileStep (order : HostOrder n) (fuel : Nat) (fs : FileSystem n) :
    FileCall → Option (FileSystem n)
  | .create path mode now =>
    some { fs with daemons := (gkfsCreate cfg d fs.daemons path mode now).2 }
  | .write path offset buf now => some (fs.gkfsDoWrite cfg d path buf offset false 0 now).2
  | .truncate path length now => (fs.gkfsTruncate cfg d order fuel path length now).map Prod.snd
  | .unlink path => some { fs with daemons := (gkfsRemove cfg d fs.daemons path).2 }
  | .fsync path now => some (fs.flushOpen cfg d path now).2
  | .close path now => some (fs.flushOpen cfg d path now).2

end

/-! ## What the cache has after an operation -/

/-- The larger of two sizes, as `record` takes it. -/
theorem toNat_ite_lt (a b : UInt64) : (if a < b then b else a).toNat = max a.toNat b.toNat := by
  have hiff : a < b ↔ a.toNat < b.toNat := UInt64.lt_iff_toNat_lt
  split
  · next h => exact (Nat.max_eq_right (Nat.le_of_lt (hiff.1 h))).symm
  · next h => exact (Nat.max_eq_left (Nat.le_of_not_lt fun hlt => h (hiff.2 hlt))).symm

namespace WriteSizeCache

variable (cache : WriteSizeCache) (path : List Char)

theorem entry_insert (e : UInt64 × UInt64) :
    entry { cache with sizeCache := cache.sizeCache.insert path e } =
      update cache.entry path e := by
  funext path'
  by_cases h : path' = path
  · rw [h, update_self, entry, AList.lookup_insert, Option.getD_some]
  · rw [update_of_ne h, entry, AList.lookup_insert_ne h, entry]

/-- A record changes one entry. -/
theorem entry_record (size : UInt64) :
    (cache.record path size).2.entry =
      update cache.entry path (cache.record path size).1 :=
  entry_insert cache path _

/-- A reset returns what the cache has, and keeps the size. -/
theorem reset_false :
    (cache.reset path false).1 = cache.entry path ∧
      (cache.reset path false).2.entry =
        update cache.entry path (0, (cache.entry path).2) := by
  rw [reset]
  cases h : cache.sizeCache.lookup path with
  | none =>
    have hentry : cache.entry path = (0, 0) := by rw [entry, h, Option.getD_none]
    exact ⟨hentry.symm, by rw [hentry]; exact (update_eq_self_iff.2 hentry.symm).symm⟩
  | some e =>
    have hentry : cache.entry path = e := by rw [entry, h, Option.getD_some]
    exact ⟨hentry.symm, by rw [hentry]; exact entry_insert cache path _⟩

end WriteSizeCache

/-! ## What the requests do to the cells and the storages -/

section
variable {n : Nat} {d : Distributor n} {cl : DaemonCluster n} {path : List Char}
  {st : MetadataDaemon} {cl' : DaemonCluster n}

/-- What the metadata daemon of a path holds for it. -/
def cellAt (d : Distributor n) (cl : DaemonCluster n) (path : List Char) : Cell :=
  (cl (d.locateFileMetadata path 0)).db.cell path

/-- A request to the metadata daemon of a path that changes at most the cell of the path. -/
theorem cellAt_update
    (h : ∀ path', path' ≠ path →
      st.db.cell path' = (cl (d.locateFileMetadata path 0)).db.cell path') :
    cellAt d (update cl (d.locateFileMetadata path 0) st) =
      update (cellAt d cl) path (st.db.cell path) := by
  funext path'
  by_cases hpath : path' = path
  · rw [hpath, cellAt, update_self, update_self]
  · rw [update_of_ne hpath, cellAt, cellAt]
    by_cases hhost : d.locateFileMetadata path' 0 = d.locateFileMetadata path 0
    · rw [hhost, update_self, h path' hpath]
    · rw [update_of_ne hhost]

theorem cellAt_of_db (h : ∀ host, (cl' host).db = (cl host).db) :
    cellAt d cl' = cellAt d cl :=
  funext fun path => by rw [cellAt, cellAt, h]

theorem storages_update (host : Fin n) (st : MetadataDaemon) :
    storages (update cl host st) = update (storages cl) host st.storage := by
  funext host'
  by_cases h : host' = host
  · rw [h, storages, update_self, update_self]
  · rw [storages, update_of_ne h, update_of_ne h, storages]

theorem storages_unchanged {host : Fin n}
    (h : st.storage = (cl host).storage) : storages (update cl host st) = storages cl := by
  rw [storages_update, h]
  exact update_eq_self host (storages cl)

@[simp] theorem storages_withStorages (cl : DaemonCluster n) (st : Cluster n) :
    storages (withStorages cl st) = st := rfl

@[simp] theorem cellAt_withStorages (cl : DaemonCluster n) (st : Cluster n) :
    cellAt d (withStorages cl st) = cellAt d cl := rfl

/-! ### Size updates -/

/-- The daemons differ in one entry only, which has got a size. -/
def Resized (cfg : MetadataConfig) (d : Distributor n) (path : List Char) (md : Metadata)
    (size : Nat) (cl cl' : DaemonCluster n) : Prop :=
  storages cl' = storages cl ∧ ∃ c md', cellAt d cl' = update (cellAt d cl) path c ∧
    c.Holds cfg md' ∧ md'.mode = md.mode ∧ md'.size = size

variable {cfg : MetadataConfig} {md : Metadata} {cache : WriteSizeCache}

/-- A size operand that the metadata daemon of an existing path queues. -/
theorem resized_update {op : MergeOperand} (h : (cellAt d cl path).Holds cfg md) (hop : op.Valid)
    (hsize : (op.plain md).size < 2 ^ 63) (now : Int64) :
    Resized cfg d path md (op.plain md).size cl (update cl (d.locateFileMetadata path 0)
      (MetadataDaemon.updateMtime cfg
        { cl (d.locateFileMetadata path 0) with
          db := (cl (d.locateFileMetadata path 0)).db.merge path op.serialize } path now)) := by
  obtain ⟨md', hholds, hmode, hsize'⟩ := h.updateMtime hop hsize now
  refine ⟨storages_unchanged ?_, _, md', cellAt_update fun path' hne => ?_, hholds, hmode, hsize'⟩
  · rw [MetadataDaemon.updateMtime]
    split
    · rfl
    · rfl
  · rw [cell_updateMtime_ne hne, DB.cell_merge_ne hne]

/-- An update of the size of an existing path. -/
theorem updateFileSize_resized (h : (cellAt d cl path).Holds cfg md) {count offset : UInt64}
    (hsize : (offset + count).toNat < 2 ^ 63) (mergeId : UInt16) (now : Int64) :
    (updateFileSize cfg d cl path count offset false mergeId now).1 = (0, -1) ∧
      Resized cfg d path md (max (offset + count).toNat md.size) cl
        (updateFileSize cfg d cl path count offset false mergeId now).2 := by
  refine ⟨rfl, ?_⟩
  have hop : (MergeOperand.increaseSize (offset + count).toNat 0 false).Valid :=
    ⟨UInt64.toNat_lt _, by decide⟩
  exact resized_update h hop (Nat.max_lt.2 ⟨hsize, h.storable.size⟩) now

/-- An append to an existing path: it gets the size before it, and is put behind what is queued for
the path. -/
theorem updateFileSize_append (h : (cellAt d cl path).Holds cfg md) (count offset : UInt64)
    (mergeId : UInt16) (now : Int64) :
    (updateFileSize cfg d cl path count offset true mergeId now).1 = (0, (md.size : Int)) ∧
      storages (updateFileSize cfg d cl path count offset true mergeId now).2 = storages cl ∧
      cellAt d (updateFileSize cfg d cl path count offset true mergeId now).2 =
        update (cellAt d cl) path
          ((cellAt d cl path).merge (appendOperand count.toNat mergeId.toNat)) := by
  obtain ⟨hoff, hdb⟩ := increaseSizeImpl_append h count offset mergeId now
  have hstorage := increaseSizeImpl_storage cfg (cl (d.locateFileMetadata path 0)) path count offset
    true mergeId now
  rw [updateFileSize, rpcSrvUpdateMetadentrySize]
  generalize (cl (d.locateFileMetadata path 0)).increaseSizeImpl cfg path count offset true mergeId
    now = r at hoff hdb hstorage
  obtain ⟨r, st⟩ := r
  dsimp only at hoff hdb hstorage
  subst hoff
  refine ⟨?_, storages_unchanged hstorage, ?_⟩
  · show (0, toOff md.size) = _
    rw [toOff, if_pos h.storable.size]
  · dsimp only
    rw [cellAt_update fun path' hne => by rw [hdb, DB.cell_merge_ne hne], hdb, DB.cell_merge_self]
    rfl

/-- A decrease of the size of an existing path. -/
theorem forwardDecrSize_resized (h : (cellAt d cl path).Holds cfg md) {length : UInt64}
    (hsize : length.toNat < 2 ^ 63) (now : Int64) :
    (forwardDecrSize cfg d cl path length now).1 = 0 ∧
      Resized cfg d path md length.toNat cl (forwardDecrSize cfg d cl path length now).2 := by
  have hop : (MergeOperand.decreaseSize length.toNat).Valid := UInt64.toNat_lt length
  exact ⟨rfl, resized_update h hop hsize now⟩

/-- A flush does not fail. -/
theorem WriteSizeCache.flush_fst (cfg : MetadataConfig) (d : Distributor n)
    (cache : WriteSizeCache) (cl : DaemonCluster n) (path : List Char) (evict : Bool)
    (now : Int64) : (cache.flush cfg d cl path evict now).1.1 = 0 := by
  rw [WriteSizeCache.flush]
  dsimp only
  split
  · rfl
  · rfl

/-- A flush sets the number of updates of its path to 0, and keeps the size. -/
theorem WriteSizeCache.flush_entry (cfg : MetadataConfig) (d : Distributor n)
    (cache : WriteSizeCache) (cl : DaemonCluster n) (path : List Char) (evict : Bool)
    (now : Int64) :
    (cache.flush cfg d cl path evict now).2.1.entry =
      update cache.entry path (0, (cache.entry path).2) := by
  rw [← (cache.reset_false path).2, WriteSizeCache.flush]
  dsimp only
  split
  · rfl
  · rfl

/-- A flush without updates sends nothing. -/
theorem WriteSizeCache.flush_zero (hcnt : (cache.entry path).1 = 0)
    (evict : Bool) (now : Int64) : (cache.flush cfg d cl path evict now).2.2 = cl := by
  have hreset := (cache.reset_false path).1
  rw [WriteSizeCache.flush]
  generalize cache.reset path false = r at hreset
  obtain ⟨⟨cnt, size⟩, cache'⟩ := r
  dsimp only at hreset ⊢
  rw [← hreset] at hcnt
  rw [if_pos hcnt]

/-- A flush of the size that the cache has for an existing path, of which there are updates. -/
theorem WriteSizeCache.flush_resized
    (h : (cellAt d cl path).Holds cfg md) (hcnt : (cache.entry path).1 ≠ 0)
    (hsize : (cache.entry path).2.toNat < 2 ^ 63) (evict : Bool) (now : Int64) :
    Resized cfg d path md (max (cache.entry path).2.toNat md.size) cl
      (cache.flush cfg d cl path evict now).2.2 := by
  have hreset := (cache.reset_false path).1
  rw [WriteSizeCache.flush]
  generalize cache.reset path false = r at hreset
  obtain ⟨⟨cnt, size⟩, cache'⟩ := r
  dsimp only at hreset ⊢
  rw [← hreset] at hcnt hsize ⊢
  rw [if_neg hcnt]
  have hsum : (0 + size).toNat = size.toNat := by rw [UInt64.zero_add]
  have hupdate := (updateFileSize_resized h (hsum ▸ hsize) 0 now).2
  rwa [hsum] at hupdate

/-! ### The size update of a write -/

/-- The size update of a client without a cache. -/
theorem updateSize_none (cfg : MetadataConfig) (d : Distributor n) (cl : DaemonCluster n)
    (path : List Char) (count : UInt64) (offset : Int64) (append : Bool) (mergeId : UInt16)
    (now : Int64) :
    FileSystem.updateSize cfg d ⟨none, cl⟩ path count offset append mergeId now =
      (gkfsDoWriteOffset append offset.toInt
          (updateFileSize cfg d cl path count offset.toUInt64 append mergeId now).1,
        ⟨none, (updateFileSize cfg d cl path count offset.toUInt64 append mergeId now).2⟩) := by
  cases append <;> rfl

/-- The size update of an append, which the cache does not keep. -/
theorem updateSize_append (cfg : MetadataConfig) (d : Distributor n) (fs : FileSystem n)
    (path : List Char) (count : UInt64) (offset : Int64) (mergeId : UInt16) (now : Int64) :
    fs.updateSize cfg d path count offset true mergeId now =
      (gkfsDoWriteOffset true offset.toInt
          (updateFileSize cfg d fs.daemons path count offset.toUInt64 true mergeId now).1,
        { fs with
          daemons :=
            (updateFileSize cfg d fs.daemons path count offset.toUInt64 true mergeId now).2 }) := by
  obtain ⟨cache, cl⟩ := fs
  cases cache <;> rfl

/-- The size update of a client with a cache, which is kept or sent with those before it. -/
theorem updateSize_some (cfg : MetadataConfig) (d : Distributor n) (cache : WriteSizeCache)
    (cl : DaemonCluster n) (path : List Char) (count : UInt64) (offset : Int64) (mergeId : UInt16)
    (now : Int64) :
    FileSystem.updateSize cfg d ⟨some cache, cl⟩ path count offset false mergeId now =
      (.ok offset.toInt,
        if cache.flushThreshold < (cache.entry path).1 + 1 then
          ⟨some ((cache.record path (offset.toUInt64 + count)).2.flush cfg d cl path false now).2.1,
            ((cache.record path (offset.toUInt64 + count)).2.flush cfg d cl path false now).2.2⟩
        else ⟨some (cache.record path (offset.toUInt64 + count)).2, cl⟩) := by
  have hflush := WriteSizeCache.flush_fst cfg d (cache.record path (offset.toUInt64 + count)).2 cl
    path false now
  have hcnt : (cache.record path (offset.toUInt64 + count)).1.1 = (cache.entry path).1 + 1 := rfl
  have hthreshold : (cache.record path (offset.toUInt64 + count)).2.flushThreshold =
      cache.flushThreshold := rfl
  rw [← hcnt, ← hthreshold]
  unfold FileSystem.updateSize
  dsimp only
  generalize cache.record path (offset.toUInt64 + count) = r at hflush ⊢
  obtain ⟨⟨cnt, size⟩, cache₁⟩ := r
  dsimp only at hflush ⊢
  generalize cache₁.flush cfg d cl path false now = r at hflush ⊢
  obtain ⟨⟨err, off⟩, cache₂, cl₂⟩ := r
  dsimp only at hflush ⊢
  subst hflush
  split
  · rfl
  · rfl

/-! ### Reading, creating and removing -/

theorem readEntry_cellAt (h : (cellAt d cl path).Holds cfg md) :
    (cl (d.locateFileMetadata path 0)).readEntry cfg path = some (md.kept cfg) := h.readEntry

/-- Reading an entry leaves the chunks alone. -/
theorem getMetadata_storages (cfg : MetadataConfig) (d : Distributor n) (cl : DaemonCluster n)
    (path : List Char) : storages (getMetadata cfg d cl path).2 = storages cl := by
  have hstat : storages (update cl (d.locateFileMetadata path 0)
      (rpcSrvStat cfg (cl (d.locateFileMetadata path 0)) path).2) = storages cl :=
    storages_unchanged (rpcSrvStat_storage cfg _ path)
  rw [getMetadata, forwardStat]
  dsimp only
  split
  · exact hstat
  · cases Metadata.parse cfg _ with
    | none => exact hstat
    | some md => exact hstat

/-- Reading a path that is not there. -/
theorem getMetadata_empty (h : cellAt d cl path = Cell.empty) :
    (getMetadata cfg d cl path).1 = .error ENOENT := by
  have hnoent : (ENOENT : Int) ≠ 0 := by decide
  rw [getMetadata, forwardStat, rpcSrvStat, getImpl_empty h]
  dsimp only
  rw [if_pos hnoent]

theorem checkParentDir_storages (cfg : MetadataConfig) (d : Distributor n) (cl : DaemonCluster n)
    (path : List Char) : storages (checkParentDir cfg d cl path).2 = storages cl := by
  rw [checkParentDir_snd]
  exact getMetadata_storages cfg d cl (dirname path)

theorem removeDataOn_storages (h : storages cl' = storages cl)
    (link : Nat → Delivery) (hosts : List (Fin n)) (i : Nat) :
    storages (removeDataOn path link i cl' hosts).2 =
      storages (removeDataOn path link i cl hosts).2 := by
  induction hosts generalizing i cl cl' with
  | nil => exact h
  | cons host hosts ih =>
    have hhost : (cl' host).storage = (cl host).storage := congrFun h host
    have hserved : storages (update cl' host (rpcSrvRemoveData (cl' host) path).2) =
        storages (update cl host (rpcSrvRemoveData (cl host) path).2) := by
      rw [storages_update, storages_update, h, rpcSrvRemoveData, rpcSrvRemoveData, hhost]
    have hrest := ih hserved (i + 1)
    rw [removeDataOn, removeDataOn]
    cases link i with
    | notPosted => exact h
    | delivered => exact hrest
    | replyLost => exact hrest

end

end GekkoFS
