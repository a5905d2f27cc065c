import GekkoFS.Client.OpenFileMap
import GekkoFS.Client.ReadWrite
import GekkoFS.Client.Seek

/-!
# Truncating by path

`gkfs_truncate` with a path extends a file by opening it, seeking to its end and writing zeros
through the descriptor, which it removes from the map of open files at the end. The function is
translated with the map of open files and the sizes that the metadata daemons store as its state,
and with what its requests come to as an input (`TruncateAnswers`). There is memory for the zeros,
and links and renames are off.

The descriptor is removed after a write of all zeros only. So the descriptors are the same after a
call that extends a file if and only if the write gets to its end, unless the map hands out a
descriptor that is in use; and the size is stored if and only if it is sent, which the write size
cache may put off, and it is sent for the end of the file, of which a failed seek knows nothing
(`truncateOk_iff`).
-/

namespace GekkoFS

open Function

/-! ## Requests and state -/

/-- What a request that sets the size of a file comes to: the error code and the offset that the
client gets, and whether the metadata daemon has stored the size. -/
structure SizeAnswer where
  err : Int
  retOffset : Int
  applied : Bool

/-- What the requests of `gkfs_truncate` come to. -/
structure TruncateAnswers where
  /-- The error code of `get_metadata`. -/
  md : Int
  /-- Whether what is opened is a directory, or `none` if `gkfs_open` fails. -/
  opened : Option Bool
  /-- Where the new open file is put. -/
  address : Nat
  /-- The error code of the size request in `gkfs_lseek`. -/
  seek : Int
  /-- The size update of the write. -/
  size : SizeAnswer
  /-- The error code and the size of the transfer. -/
  primary : Nat × Nat
  /-- Those of the transfer to the replicas, if there are replicas. -/
  replica : Option (Nat × Nat)
  /-- The size decreases, one for each copy of the entry. -/
  decrease : List SizeAnswer
  /-- The error code of the request that cuts the chunks. -/
  cut : Int

/-- A client and the sizes of files on the metadata daemons. -/
structure Client where
  /-- For each descriptor where its open file is. -/
  fileMap : OpenFileMap Nat
  openFiles : Nat → OpenFile
  cache : Option WriteSizeCache
  sizes : List Char → Nat

/-! ## The steps -/

/-- Seek to the end, if the size request has no error. Source: `gkfs_lseek`
(`gkfs_functions.cpp:717`). -/
def OpenFile.seekEnd (file : OpenFile) (err : Int) (fileSize : Nat) : OpenFile :=
  if err ≠ 0 then file else file.moveTo fileSize

namespace Client

/-- The metadata daemon takes the larger size, or for an append adds to it. Source:
`update_file_size` (`preload_util.cpp:330`). -/
def updateFileSize (c : Client) (path : List Char) (count offset : UInt64) (isAppend : Bool)
    (a : SizeAnswer) : (Int × Int) × Client :=
  let size := if isAppend then c.sizes path + count.toNat
    else max (offset + count).toNat (c.sizes path)
  ((a.err, a.retOffset),
    if a.applied then { c with sizes := update c.sizes path size } else c)

/-- Source: `flush` (`cache.cpp:162`). -/
def flush (c : Client) (cache : WriteSizeCache) (path : List Char) (a : SizeAnswer) :
    (Int × Int) × Client :=
  match cache.reset path false with
  | ((latestEntryCnt, latestEntrySize), cache) =>
    if latestEntryCnt = 0 then ((0, 0), { c with cache := some cache })
    else updateFileSize { c with cache := some cache } path latestEntrySize 0 false a

/-- The size update of a write: the offset at which the write goes on, or an error. Source:
`gkfs_do_write` (`gkfs_functions.cpp:939`). -/
def updateSize (c : Client) (file : OpenFile) (count : UInt64) (a : SizeAnswer) :
    Except Int Int × Client :=
  match c.cache, file.append with
  | some cache, false =>
    match cache.record file.path (file.pos + count) with
    | ((sizeUpdateCnt, _), cache) =>
      if cache.flushThreshold < sizeUpdateCnt then
        match c.flush cache file.path a with
        | ((err, _), c) => (if err ≠ 0 then .error err else .ok file.pos.toInt64.toInt, c)
      else (.ok file.pos.toInt64.toInt, { c with cache := some cache })
  | _, isAppend =>
    match c.updateFileSize file.path count file.pos isAppend a with
    | (retOffset, c) => (gkfsDoWriteOffset isAppend file.pos.toInt64.toInt retOffset, c)

/-- Open a file for writing; the call does not return if no descriptor is found. Source: `gkfs_open`
(`gkfs_functions.cpp:141`). -/
def gkfsOpen (c : Client) (path : List Char) (a : TruncateAnswers) :
    Option (Option Int × Client) :=
  match a.opened with
  | none => some (none, c)
  | some isDirectory =>
    (c.fileMap.add a.address).map fun r => (some r.1,
      { c with
        fileMap := r.2
        openFiles := update c.openFiles a.address ⟨path, false, isDirectory, 0⟩ })

/-- Source: `gkfs_lseek` (`gkfs_functions.cpp:691`). -/
def gkfsLseekEnd (c : Client) (fd : Int) (err : Int) : Client :=
  match c.fileMap.get fd with
  | none => c
  | some address =>
    let file := c.openFiles address
    { c with
      openFiles := update c.openFiles address (file.seekEnd err (c.sizes file.path)) }

/-- Source: `gkfs_write` (`gkfs_functions.cpp:1068`). -/
def gkfsWrite (c : Client) (fd : Int) (count : Nat) (a : TruncateAnswers) :
    Except Int Int × Client :=
  match c.fileMap.get fd with
  | none => (.ok 0, c)
  | some address =>
    let file := c.openFiles address
    if file.isDirectory then (.error EISDIR, c)
    else
      match c.updateSize file (UInt64.ofNat count) a.size with
      | (size, c) =>
        match file.gkfsWrite ⟨size.map Int64.ofInt, a.primary, a.replica⟩ with
        | (written, file) =>
          (written, { c with openFiles := update c.openFiles address file })

/-- Decrease the size of each copy up to the first error. Source: `gkfs_truncate`
(`gkfs_functions.cpp:781`). -/
def decrSize (path : List Char) (length : Nat) : Client → List SizeAnswer → Int × Client
  | c, [] => (0, c)
  | c, a :: answers =>
    let c := if a.applied then { c with sizes := update c.sizes path length } else c
    if a.err ≠ 0 then (a.err, c) else decrSize path length c answers

/-- Cut a file. Source: `gkfs_truncate` (`gkfs_functions.cpp:769`). -/
def truncateTo (c : Client) (path : List Char) (oldSize newSize : Nat) (a : TruncateAnswers) :
    Int × Client :=
  if newSize = oldSize then (0, c)
  else
    match decrSize path newSize c a.decrease with
    | (err, c) => if err ≠ 0 then (err, c) else (a.cut, c)

/-- Write zeros at the end of a file that was opened, and close it. What the seek returns is not
looked at. Source: `gkfs_truncate` (`gkfs_functions.cpp:870`). -/
def writeZeros (c : Client) (outputFd : Int) (count : Nat) (a : TruncateAnswers) : Int × Client :=
  match (c.gkfsLseekEnd outputFd a.seek).gkfsWrite outputFd count a with
  | (.error _, c) => (EINVAL, c)
  | (.ok written, c) =>
    if written ≠ count then (EINVAL, c)
    else (0, { c with fileMap := (c.fileMap.remove outputFd).2 })

/-- The error code of the call, and the client after it, if the call returns. Source:
`gkfs_truncate` (`gkfs_functions.cpp:816`). -/
def gkfsTruncate (c : Client) (path : List Char) (length : Int64) (a : TruncateAnswers) :
    Option (Int × Client) :=
  if length < 0 then some (EINVAL, c)
  else if a.md ≠ 0 then some (a.md, c)
  else
    let size := c.sizes path
    let length := length.toUInt64.toNat
    if size < length then
      match c.gkfsOpen path a with
      | none => none
      | some (none, c) => some (EINVAL, c)
      | some (some outputFd, c) => some (c.writeZeros outputFd (length - size) a)
    else some (truncateTo c path size length a)

end Client

/-! ## The steps and the models of their requests -/

/-- The seek of `gkfs_truncate` is a seek to the end. -/
theorem OpenFile.seekEnd_pos (file : OpenFile) (err : Int) {fileSize : Nat}
    (h : fileSize < 2 ^ 63) :
    (file.seekEnd err fileSize).pos = (gkfsLseek file.pos ⟨0, SEEK_END, err, fileSize, h⟩).pos := by
  have hset : ¬ SEEK_END = SEEK_SET := by decide
  have hcur : ¬ SEEK_END = SEEK_CUR := by decide
  have hnonneg : ¬ ((0 : Int64) < 0 ∧ Int64.ofNat fileSize < -0) := fun hneg =>
    absurd hneg.1 (by decide)
  rw [seekEnd, gkfsLseek]
  dsimp only
  rw [if_neg hset, if_neg hcur, if_pos rfl]
  by_cases herr : err = 0
  · have hmod : ((fileSize : Int) % 2 ^ 64).toNat = fileSize := by omega
    rw [if_neg (not_not.2 herr), if_neg (not_not.2 herr), if_neg hnonneg, moveTo, hmod,
      Int64.add_zero]
    rfl
  · rw [if_pos herr, if_pos herr]
    rfl

/-- A size update that is delivered and answered has the stored size of the metadata daemon. -/
theorem Client.updateFileSize_refines {n : Nat} {cfg : MetadataConfig} {d : Distributor n}
    {cl : DaemonCluster n} {path : List Char} {md : Metadata}
    (hmd : (cellAt d cl path).Holds cfg md) {c : Client} (hsize : c.sizes path = md.size)
    {count offset : UInt64} (hend : (offset + count).toNat < 2 ^ 63) (mergeId : UInt16)
    (now : Int64) :
    (GekkoFS.updateFileSize cfg d cl path count offset false mergeId now).1 =
        (c.updateFileSize path count offset false ⟨0, -1, true⟩).1 ∧
      ∃ md', (cellAt d (GekkoFS.updateFileSize cfg d cl path count offset false mergeId now).2
          path).Holds cfg md' ∧
        md'.size = (c.updateFileSize path count offset false ⟨0, -1, true⟩).2.sizes path := by
  obtain ⟨hret, -, cell, md', hcell, hholds, -, hsize'⟩ :=
    updateFileSize_resized hmd hend mergeId now
  refine ⟨hret, md', ?_, ?_⟩
  · rw [hcell, update_self]
    exact hholds
  · have hstored : (c.updateFileSize path count offset false ⟨0, -1, true⟩).2.sizes path =
        max (offset + count).toNat (c.sizes path) := by simp [Client.updateFileSize]
    rw [hsize', hstored, hsize]

/-! ## What the call should do -/

/-- The call returns, leaves the descriptors and what they stand for as they were, and if it extends
a file without an error, the length is stored. -/
def TruncateOk (c : Client) (path : List Char) (length : Int64) (a : TruncateAnswers) : Prop :=
  ∃ err c', c.gkfsTruncate path length a = some (err, c') ∧ c'.fileMap.get = c.fileMap.get ∧
    (err = 0 → c.sizes path < length.toUInt64.toNat →
      c'.sizes path = length.toUInt64.toNat)

/-- The error code and the size of a write. -/
def TruncateAnswers.transferred (a : TruncateAnswers) : Nat × Nat :=
  WriteAnswers.transferred ⟨.ok 0, a.primary, a.replica⟩

/-- A size update is sent, not only kept in the cache. -/
def SizeSent (cache : Option WriteSizeCache) (file : OpenFile) : Prop :=
  ∀ entries, cache = some entries → file.append = false →
    entries.flushThreshold < (entries.entry file.path).1 + 1

/-- The size that a write up to `endPos` sends. -/
def sentSize (cache : Option WriteSizeCache) (path : List Char) (endPos : Nat) : Nat :=
  match cache with
  | none => endPos
  | some entries => max (entries.entry path).2.toNat endPos

/-- A write of `count` bytes to an open file gets to its end and returns `count`. -/
structure WriteDone (cache : Option WriteSizeCache) (file : OpenFile) (count : Nat)
    (a : TruncateAnswers) : Prop where
  isFile : file.isDirectory = false
  size : SizeSent cache file → a.size.err = 0 ∧ (file.append = true → a.size.retOffset ≠ -1)
  data : a.transferred.1 = 0
  count : Int.bmod a.transferred.2 (2 ^ 32) = count

/-- The size `length` of a file of another size is stored: it is sent and the daemon stores it, the
seek has found the end of the file, and the cache has no larger size. -/
structure SizeStored (c : Client) (path : List Char) (length : Nat) (a : TruncateAnswers) :
    Prop where
  sent : SizeSent c.cache ⟨path, false, false, 0⟩
  applied : a.size.applied = true
  length : sentSize c.cache path ((if a.seek ≠ 0 then 0 else c.sizes path) +
    (length - c.sizes path)) = length

theorem SizeStored.congr {c c' : Client} (hcache : c'.cache = c.cache)
    (hsizes : c'.sizes = c.sizes) {path : List Char} {length : Nat} {a : TruncateAnswers} :
    SizeStored c' path length a ↔ SizeStored c path length a := by
  constructor
  · rintro ⟨hsent, happlied, hlength⟩
    rw [hcache, hsizes] at hlength
    exact ⟨hcache ▸ hsent, happlied, hlength⟩
  · rintro ⟨hsent, happlied, hlength⟩
    rw [← hcache, ← hsizes] at hlength
    exact ⟨hcache.symm ▸ hsent, happlied, hlength⟩

/-- The call extends a file that it has opened. -/
def Extends (c : Client) (path : List Char) (length : Int64) (a : TruncateAnswers)
    (isDirectory : Bool) : Prop :=
  0 ≤ length ∧ a.md = 0 ∧ c.sizes path < length.toUInt64.toNat ∧ a.opened = some isDirectory

/-- The condition of the call: if it extends a file that it has opened, the map finds a descriptor,
and either this is free, the write gets to its end and the size is stored, or it is in use and the
write to the file that it stands for fails. -/
def TruncateCompletes (c : Client) (path : List Char) (length : Int64) (a : TruncateAnswers) :
    Prop :=
  ∀ isDirectory, Extends c path length a isDirectory →
    ∃ fd m, c.fileMap.safeGenerateFdIdx = some (fd, m) ∧
      ((c.fileMap.get fd = none ∧
          WriteDone c.cache ⟨path, false, isDirectory, 0⟩
            (length.toUInt64.toNat - c.sizes path) a ∧
          SizeStored c path length.toUInt64.toNat a) ∨
        ∃ address, c.fileMap.get fd = some address ∧
          ¬ WriteDone c.cache (c.openFiles address) (length.toUInt64.toNat - c.sizes path) a)

/-! ## The size update -/

namespace Client

variable {c : Client} {file : OpenFile} {count : UInt64} {a : SizeAnswer} {entries : WriteSizeCache}

theorem updateFileSize_frame (c : Client) (path : List Char) (count offset : UInt64)
    (isAppend : Bool) (a : SizeAnswer) :
    (c.updateFileSize path count offset isAppend a).2.fileMap = c.fileMap := by
  rw [updateFileSize]
  dsimp only
  split
  · rfl
  · rfl

/-- An update that the cache does not keep. -/
theorem updateSize_direct (h : c.cache = none ∨ file.append = true) :
    c.updateSize file count a =
      (gkfsDoWriteOffset file.append file.pos.toInt64.toInt (a.err, a.retOffset),
        (c.updateFileSize file.path count file.pos file.append a).2) := by
  rw [updateSize]
  split
  · next hcache happend =>
    rcases h with h | h
    · exact nomatch hcache.symm.trans h
    · exact nomatch happend.symm.trans h
  · rfl

/-- A flush of a path with updates sends the size that the cache has for it. -/
theorem flush_eq {path : List Char}
    (hcnt : (entries.entry path).1 ≠ 0) :
    ∃ entries', c.flush entries path a =
      updateFileSize { c with cache := some entries' } path (entries.entry path).2 0 false a := by
  have hreset := (entries.reset_false path).1
  rw [flush]
  generalize entries.reset path false = r at hreset
  obtain ⟨⟨cnt, size⟩, entries'⟩ := r
  rw [← hreset] at hcnt ⊢
  exact ⟨entries', if_neg hcnt⟩

variable (count a) in
/-- An update of a client with a cache: it is kept, or sent with the largest size so far. -/
theorem updateSize_cached (hcache : c.cache = some entries)
    (happend : file.append = false) :
    ∃ cache', c.updateSize file count a =
      if entries.flushThreshold < (entries.entry file.path).1 + 1 then
        (if a.err ≠ 0 then .error a.err else .ok file.pos.toInt64.toInt,
          (updateFileSize { c with cache := cache' } file.path
            (entries.record file.path (file.pos + count)).1.2 0 false a).2)
      else (.ok file.pos.toInt64.toInt, { c with cache := cache' }) := by
  have hentry := congrFun (entries.entry_record file.path (file.pos + count)) file.path
  rw [update_self] at hentry
  have hcnt : (entries.record file.path (file.pos + count)).1.1 =
      (entries.entry file.path).1 + 1 := rfl
  have hthreshold : (entries.record file.path (file.pos + count)).2.flushThreshold =
      entries.flushThreshold := rfl
  rw [updateSize, hcache, happend]
  dsimp only
  rw [← hthreshold, ← hcnt]
  generalize entries.record file.path (file.pos + count) = r at hentry
  obtain ⟨⟨cnt, size⟩, recorded⟩ := r
  dsimp only at hentry ⊢
  split
  · next hsent =>
    have hne : (recorded.entry file.path).1 ≠ 0 := by
      rw [hentry]
      rintro rfl
      exact absurd hsent (by rw [UInt64.lt_iff_toNat_lt]; exact Nat.not_lt_zero _)
    obtain ⟨flushed, hflush⟩ := flush_eq (c := c) (a := a) hne
    rw [hflush, hentry]
    exact ⟨some flushed, rfl⟩
  · exact ⟨some recorded, rfl⟩

theorem sizeSent_direct (h : c.cache = none ∨ file.append = true) : SizeSent c.cache file := by
  intro entries hcache happend
  rcases h with h | h
  · exact nomatch hcache.symm.trans h
  · exact nomatch happend.symm.trans h

theorem sizeSent_cached (hcache : c.cache = some entries)
    (happend : file.append = false) :
    SizeSent c.cache file ↔ entries.flushThreshold < (entries.entry file.path).1 + 1 := by
  rw [hcache]
  exact ⟨fun h => h entries rfl happend, fun h _ heq _ => Option.some.inj heq ▸ h⟩

/-- Every update is of one of the two kinds. -/
theorem direct_or_cached (c : Client) (file : OpenFile) :
    (c.cache = none ∨ file.append = true) ∨
      ∃ entries, c.cache = some entries ∧ file.append = false := by
  cases hcache : c.cache with
  | none => exact .inl (.inl rfl)
  | some entries =>
    cases happend : file.append with
    | false => exact .inr ⟨entries, rfl, rfl⟩
    | true => exact .inl (.inr rfl)

variable (c file count a) in
theorem updateSize_frame :
    (c.updateSize file count a).2.fileMap = c.fileMap := by
  rcases c.direct_or_cached file with h | ⟨entries, hcache, happend⟩
  · rw [updateSize_direct h, updateFileSize_frame]
  · obtain ⟨cache', heq⟩ := updateSize_cached count a hcache happend
    rw [heq]
    split
    · rw [updateFileSize_frame]
    · rfl

variable (c file count a) in
/-- When a write goes on after its size update. -/
theorem updateSize_ok_iff :
    (∃ offset, (c.updateSize file count a).1 = .ok offset) ↔
      (SizeSent c.cache file → a.err = 0 ∧ (file.append = true → a.retOffset ≠ -1)) := by
  rcases c.direct_or_cached file with h | ⟨entries, hcache, happend⟩
  · rw [updateSize_direct h, gkfsDoWriteOffset, forall_prop_of_true (sizeSent_direct h)]
    dsimp only
    by_cases herr : a.err = 0
    · cases file.append with
      | false => simp [herr]
      | true => by_cases hret : a.retOffset = -1 <;> simp [herr, hret]
    · simp [herr]
  · obtain ⟨cache', heq⟩ := updateSize_cached count a hcache happend
    rw [heq, sizeSent_cached hcache happend, happend]
    by_cases hsent : entries.flushThreshold < (entries.entry file.path).1 + 1
    · by_cases herr : a.err = 0
      · simp [hsent, herr]
      · simp [hsent, herr]
    · simp [hsent]

/-- The size that a daemon has after the size update of a write that is no append: the update
counts if it is sent and the daemon stores it. -/
theorem updateSize_sizes (happend : file.append = false)
    (hend : file.pos.toNat + count.toNat < 2 ^ 64) :
    (SizeSent c.cache file ∧ a.applied = true → (c.updateSize file count a).2.sizes file.path =
        max (sentSize c.cache file.path (file.pos.toNat + count.toNat)) (c.sizes file.path)) ∧
      (¬ (SizeSent c.cache file ∧ a.applied = true) →
        (c.updateSize file count a).2.sizes file.path = c.sizes file.path) := by
  have hsum : (file.pos + count).toNat = file.pos.toNat + count.toNat := by
    rw [UInt64.toNat_add, Nat.mod_eq_of_lt hend]
  rcases c.direct_or_cached file with h | ⟨entries, hcache, -⟩
  · have hcache : c.cache = none := h.resolve_right (by rw [happend]; exact Bool.false_ne_true)
    have hsent := sizeSent_direct h
    rw [updateSize_direct h, updateFileSize, happend, hcache, sentSize]
    constructor
    · rintro ⟨-, happlied⟩
      simp [happlied, hsum]
    · intro hnot
      have happlied : ¬ a.applied = true := fun happlied => hnot ⟨hcache ▸ hsent, happlied⟩
      simp [happlied]
  · obtain ⟨cache', heq⟩ := updateSize_cached count a hcache happend
    have hmax : (entries.record file.path (file.pos + count)).1.2.toNat =
        max (entries.entry file.path).2.toNat (file.pos.toNat + count.toNat) := by
      rw [← hsum]
      exact toNat_ite_lt _ _
    rw [heq, sizeSent_cached hcache happend, hcache, sentSize]
    constructor
    · rintro ⟨hsent, happlied⟩
      simp [hsent, updateFileSize, happlied, hmax]
    · intro hnot
      by_cases hsent : entries.flushThreshold < (entries.entry file.path).1 + 1
      · have happlied : ¬ a.applied = true := fun happlied => hnot ⟨hsent, happlied⟩
        simp [hsent, updateFileSize, happlied]
      · simp [hsent]

/-! ## The write -/

section
variable {fd : Int} {address n : Nat} {ans : TruncateAnswers}

variable (c fd n ans) in
theorem gkfsWrite_frame :
    (c.gkfsWrite fd n ans).2.fileMap = c.fileMap := by
  rw [gkfsWrite]
  split
  · rfl
  · dsimp only
    split
    · rfl
    · exact updateSize_frame c _ _ _

/-- A write to a regular file: its size update, and what becomes of the data. -/
theorem gkfsWrite_eq (hget : c.fileMap.get fd = some address)
    (hfile : (c.openFiles address).isDirectory = false) :
    (c.gkfsWrite fd n ans).1 =
        (match (c.updateSize (c.openFiles address) (UInt64.ofNat n) ans.size).1 with
          | .error err => .error err
          | .ok _ =>
            if ans.transferred.1 ≠ 0 then .error (ans.transferred.1 : Int)
            else .ok (Int.bmod ans.transferred.2 (2 ^ 32))) ∧
      (c.gkfsWrite fd n ans).2.sizes =
        (c.updateSize (c.openFiles address) (UInt64.ofNat n) ans.size).2.sizes := by
  rw [gkfsWrite, hget]
  dsimp only
  rw [if_neg (by rw [hfile]; exact Bool.false_ne_true)]
  refine ⟨?_, rfl⟩
  obtain ⟨size, c'⟩ := c.updateSize (c.openFiles address) (UInt64.ofNat n) ans.size
  dsimp only
  rw [OpenFile.gkfsWrite, OpenFile.gkfsDoWrite, hfile, if_neg Bool.false_ne_true]
  have htransferred : WriteAnswers.transferred ⟨size.map Int64.ofInt, ans.primary, ans.replica⟩ =
      ans.transferred := rfl
  rw [htransferred]
  cases size with
  | error err => rfl
  | ok offset =>
    dsimp only [Except.map]
    split
    · rfl
    · rfl

/-- A write of zeros is complete if its requests are served. -/
theorem gkfsWrite_ok_iff (hget : c.fileMap.get fd = some address) :
    (c.gkfsWrite fd n ans).1 = .ok (n : Int) ↔
      WriteDone c.cache (c.openFiles address) n ans := by
  cases hfile : (c.openFiles address).isDirectory with
  | true =>
    have herr : (c.gkfsWrite fd n ans).1 = .error EISDIR := by
      rw [gkfsWrite, hget]
      dsimp only
      rw [if_pos hfile]
    rw [herr]
    exact ⟨fun h => (nomatch h), fun h => nomatch hfile.symm.trans h.isFile⟩
  | false =>
    have hiff := c.updateSize_ok_iff (c.openFiles address) (UInt64.ofNat n) ans.size
    rw [(gkfsWrite_eq hget hfile).1]
    cases hsize : (c.updateSize (c.openFiles address) (UInt64.ofNat n) ans.size).1 with
    | error err =>
      refine ⟨fun h => (nomatch h), fun h => ?_⟩
      obtain ⟨offset, hok⟩ := hiff.2 h.size
      exact nomatch hsize.symm.trans hok
    | ok offset =>
      dsimp only
      have hdone := hiff.1 ⟨offset, hsize⟩
      by_cases hdata : ans.transferred.1 = 0
      · rw [if_neg (not_not.2 hdata), Except.ok.injEq]
        exact ⟨fun hcount => ⟨hfile, hdone, hdata, hcount⟩, fun h => h.count⟩
      · rw [if_pos hdata]
        exact ⟨fun h => (nomatch h), fun h => absurd h.data hdata⟩

/-! ## The extension of a file -/

/-- Seeking changes nothing that a write looks at, besides the position. -/
theorem writeDone_seekEnd {cache : Option WriteSizeCache} {err : Int} {size : Nat} :
    WriteDone cache (file.seekEnd err size) n ans ↔ WriteDone cache file n ans := by
  rw [OpenFile.seekEnd]
  split
  · exact Iff.rfl
  · exact ⟨fun h => ⟨h.isFile, h.size, h.data, h.count⟩,
      fun h => ⟨h.isFile, h.size, h.data, h.count⟩⟩

/-- The seek moves the position of the open file only. -/
theorem gkfsLseekEnd_spec (hget : c.fileMap.get fd = some address) (err : Int) :
    (c.gkfsLseekEnd fd err).fileMap = c.fileMap ∧ (c.gkfsLseekEnd fd err).cache = c.cache ∧
      (c.gkfsLseekEnd fd err).sizes = c.sizes ∧
      (c.gkfsLseekEnd fd err).openFiles address =
        (c.openFiles address).seekEnd err (c.sizes (c.openFiles address).path) := by
  rw [gkfsLseekEnd, hget]
  exact ⟨rfl, rfl, rfl, update_self ..⟩

/-- After the file is opened: if the write gets to its end, the descriptor is closed; otherwise it
stays. -/
theorem writeZeros_spec (hget : c.fileMap.get fd = some address) :
    (WriteDone c.cache (c.openFiles address) n ans → (c.writeZeros fd n ans).1 = 0 ∧
        (c.writeZeros fd n ans).2.fileMap.get = update c.fileMap.get fd none ∧
        (c.writeZeros fd n ans).2.sizes =
          ((c.gkfsLseekEnd fd ans.seek).gkfsWrite fd n ans).2.sizes) ∧
      (¬ WriteDone c.cache (c.openFiles address) n ans → (c.writeZeros fd n ans).1 = EINVAL ∧
        (c.writeZeros fd n ans).2.fileMap = c.fileMap) := by
  obtain ⟨hmap, hcache, -, hopen⟩ := gkfsLseekEnd_spec hget ans.seek
  have hframe := (c.gkfsLseekEnd fd ans.seek).gkfsWrite_frame fd n ans
  rw [hmap] at hframe
  have hiff := @gkfsWrite_ok_iff (c.gkfsLseekEnd fd ans.seek) fd address n ans
    (by rw [hmap]; exact hget)
  rw [hcache, hopen, writeDone_seekEnd] at hiff
  rw [← hiff, writeZeros]
  generalize (c.gkfsLseekEnd fd ans.seek).gkfsWrite fd n ans = r at hframe
  obtain ⟨written, c'⟩ := r
  dsimp only at hframe ⊢
  cases written with
  | error err => exact ⟨fun h => (nomatch h), fun _ => ⟨rfl, hframe⟩⟩
  | ok written =>
    dsimp only
    rw [Except.ok.injEq]
    constructor
    · intro h
      rw [if_neg (not_not.2 h)]
      dsimp only
      rw [OpenFileMap.get_remove, hframe]
      exact ⟨rfl, rfl, rfl⟩
    · intro h
      rw [if_pos h]
      exact ⟨rfl, hframe⟩

/-- The size of an extension that gets to its end. -/
theorem writeZeros_sizes {path : List Char} {length : Nat} (hlength : length < 2 ^ 64)
    (hsize : c.sizes path < length) (hget : c.fileMap.get fd = some address)
    (hopen : c.openFiles address = ⟨path, false, false, 0⟩) :
    ((c.gkfsLseekEnd fd ans.seek).gkfsWrite fd (length - c.sizes path) ans).2.sizes path = length ↔
      SizeStored c path length ans := by
  obtain ⟨hmap, hcache, hsizes, hfile⟩ := gkfsLseekEnd_spec hget ans.seek
  rw [hopen] at hfile
  generalize c.gkfsLseekEnd fd ans.seek = c' at hmap hcache hsizes hfile
  rw [← hmap] at hget
  have hfields : (c'.openFiles address).path = path ∧ (c'.openFiles address).append = false ∧
      (c'.openFiles address).isDirectory = false ∧
      (c'.openFiles address).pos.toNat = if ans.seek ≠ 0 then 0 else c.sizes path := by
    rw [hfile, OpenFile.seekEnd]
    split
    · exact ⟨rfl, rfl, rfl, rfl⟩
    · refine ⟨rfl, rfl, rfl, ?_⟩
      rw [OpenFile.moveTo]
      dsimp only
      rw [UInt64.toNat_ofNat']
      omega
  obtain ⟨hpath, happend, hregular, hpos⟩ := hfields
  have hcount : (UInt64.ofNat (length - c.sizes path)).toNat = length - c.sizes path := by
    rw [UInt64.toNat_ofNat']
    omega
  have hend : (c'.openFiles address).pos.toNat +
      (UInt64.ofNat (length - c.sizes path)).toNat < 2 ^ 64 := by
    rw [hpos, hcount]
    split <;> omega
  have hsent : SizeSent c'.cache (c'.openFiles address) ↔
      SizeSent c.cache ⟨path, false, false, 0⟩ := by
    rw [SizeSent, SizeSent, hpath, happend, hcache]
  obtain ⟨hstored, hkept⟩ := @updateSize_sizes c' _ _ ans.size happend hend
  rw [hsent, hcount, hpos, hpath, hcache, hsizes] at hstored
  rw [hsent, hpath, hsizes] at hkept
  rw [(gkfsWrite_eq hget hregular).2]
  constructor
  · intro h
    by_cases hboth : SizeSent c.cache ⟨path, false, false, 0⟩ ∧ ans.size.applied = true
    · rw [hstored hboth] at h
      exact ⟨hboth.1, hboth.2, by omega⟩
    · rw [hkept hboth] at h
      omega
  · intro h
    rw [hstored ⟨h.sent, h.applied⟩, h.length]
    omega

end

end Client

/-! ## Main result -/

section
variable {c : Client} {path : List Char} {length : Int64} {a : TruncateAnswers} {isDirectory : Bool}

theorem Client.decrSize_frame (path : List Char) (size : Nat) (c : Client)
    (answers : List SizeAnswer) : (decrSize path size c answers).2.fileMap = c.fileMap := by
  induction answers generalizing c with
  | nil => rfl
  | cons answer answers ih =>
    rw [decrSize]
    split
    · split
      · rfl
      · rfl
    · rw [ih]
      split
      · rfl
      · rfl

/-- A truncation leaves the table of files alone. -/
theorem Client.truncateTo_frame (c : Client) (path : List Char) (oldSize newSize : Nat)
    (a : TruncateAnswers) : (c.truncateTo path oldSize newSize a).2.fileMap = c.fileMap := by
  have hframe := decrSize_frame path newSize c a.decrease
  rw [truncateTo]
  split
  · rfl
  · dsimp only
    split
    · exact hframe
    · exact hframe

theorem truncateOk_iff_of_eq {r : Int × Client} (h : c.gkfsTruncate path length a = some r) :
    TruncateOk c path length a ↔ r.2.fileMap.get = c.fileMap.get ∧
      (r.1 = 0 → c.sizes path < length.toUInt64.toNat →
        r.2.sizes path = length.toUInt64.toNat) := by
  rw [TruncateOk, h]
  constructor
  · rintro ⟨err, c', heq, hok⟩
    cases heq
    exact hok
  · exact fun hok => ⟨r.1, r.2, rfl, hok⟩

/-- A call that opens no file leaves the map as it is. -/
theorem truncateOk_of_not_extends (h : ∀ isDirectory, ¬ Extends c path length a isDirectory) :
    TruncateOk c path length a := by
  have hinval : (EINVAL : Int) ≠ 0 := by decide
  rw [TruncateOk, Client.gkfsTruncate]
  by_cases hneg : length < 0
  · rw [if_pos hneg]
    exact ⟨EINVAL, c, rfl, rfl, fun herr => absurd herr hinval⟩
  rw [if_neg hneg]
  by_cases hmd : a.md = 0
  · rw [if_neg (not_not.2 hmd)]
    dsimp only
    by_cases hsize : c.sizes path < length.toUInt64.toNat
    · rw [if_pos hsize]
      cases hopened : a.opened with
      | none =>
        rw [Client.gkfsOpen, hopened]
        exact ⟨EINVAL, c, rfl, rfl, fun herr => absurd herr hinval⟩
      | some isDirectory =>
        exact absurd ⟨Int64.not_lt.1 hneg, hmd, hsize, hopened⟩ (h isDirectory)
    · rw [if_neg hsize]
      have hframe := c.truncateTo_frame path (c.sizes path) length.toUInt64.toNat a
      generalize c.truncateTo path (c.sizes path) length.toUInt64.toNat a = r at hframe
      exact ⟨r.1, r.2, rfl, by rw [hframe], fun _ hlt => absurd hlt hsize⟩
  · rw [if_pos hmd]
    exact ⟨a.md, c, rfl, rfl, fun herr => absurd herr hmd⟩

/-- The client after the file is opened with the descriptor that the map hands out. -/
def Client.opened (c : Client) (path : List Char) (isDirectory : Bool) (address : Nat) (fd : Int)
    (m : OpenFileMap Nat) : Client :=
  { c with
    fileMap := m.insertNew fd address
    openFiles := update c.openFiles address ⟨path, false, isDirectory, 0⟩ }

/-- An extension opens the file and writes zeros. -/
theorem gkfsTruncate_extends (h : Extends c path length a isDirectory) :
    c.gkfsTruncate path length a = c.fileMap.safeGenerateFdIdx.map fun r =>
      (c.opened path isDirectory a.address r.1 r.2).writeZeros r.1
        (length.toUInt64.toNat - c.sizes path) a := by
  obtain ⟨hlength, hmd, hsize, hopened⟩ := h
  rw [Client.gkfsTruncate, if_neg (Int64.not_lt.2 hlength), if_neg (not_not.2 hmd)]
  dsimp only
  rw [if_pos hsize, Client.gkfsOpen, hopened]
  dsimp only
  rw [OpenFileMap.add, Option.map_map]
  cases c.fileMap.safeGenerateFdIdx with
  | none => rfl
  | some r => rfl

/-- An extension with a free descriptor. -/
theorem truncateOk_iff_of_free (h : Extends c path length a isDirectory)
    {fd : Int} {m : OpenFileMap Nat} (hfound : c.fileMap.safeGenerateFdIdx = some (fd, m))
    (hfree : c.fileMap.get fd = none) :
    TruncateOk c path length a ↔
      WriteDone c.cache ⟨path, false, isDirectory, 0⟩ (length.toUInt64.toNat - c.sizes path) a ∧
        SizeStored c path length.toUInt64.toNat a := by
  have hcall := gkfsTruncate_extends h
  rw [hfound, Option.map_some] at hcall
  obtain ⟨c', hc'⟩ : ∃ c', c.opened path isDirectory a.address fd m = c' := ⟨_, rfl⟩
  have hmap : c'.fileMap.get = update c.fileMap.get fd (some a.address) := by
    rw [← hc', Client.opened, ← OpenFileMap.safeGenerateFdIdx_get hfound]
    exact OpenFileMap.get_insertNew (OpenFileMap.safeGenerateFdIdx_get hfound ▸ hfree) a.address
  have hget : c'.fileMap.get fd = some a.address := by rw [hmap, update_self]
  have hopen : c'.openFiles a.address = ⟨path, false, isDirectory, 0⟩ := by
    rw [← hc']
    exact update_self ..
  have hcache : c'.cache = c.cache := by rw [← hc', Client.opened]
  have hsizes : c'.sizes = c.sizes := by rw [← hc', Client.opened]
  obtain ⟨hdone, hfailed⟩ := @Client.writeZeros_spec c' fd a.address
    (length.toUInt64.toNat - c.sizes path) a hget
  dsimp only at hcall
  rw [hc'] at hcall
  rw [hopen, hcache] at hdone hfailed
  rw [truncateOk_iff_of_eq hcall]
  by_cases hwrite : WriteDone c.cache ⟨path, false, isDirectory, 0⟩
      (length.toUInt64.toNat - c.sizes path) a
  · obtain ⟨herr, hclosed, hstored⟩ := hdone hwrite
    have hfile : isDirectory = false := hwrite.isFile
    have hiff := @Client.writeZeros_sizes c' fd a.address a path length.toUInt64.toNat
      (UInt64.toNat_lt _) (by rw [hsizes]; exact h.2.2.1) hget (by rw [hopen, hfile])
    rw [hsizes, SizeStored.congr hcache hsizes] at hiff
    rw [herr, hclosed, hstored, hiff, hmap, update_idem, ← hfree, update_eq_self]
    exact ⟨fun hok => ⟨hwrite, hok.2 rfl h.2.2.1⟩, fun hok => ⟨rfl, fun _ _ => hok.2⟩⟩
  · -- the descriptor stays in the map
    refine ⟨fun hok => ?_, fun hok => absurd hok.1 hwrite⟩
    have hopened := congrFun hok.1 fd
    rw [(hfailed hwrite).2, hget, hfree] at hopened
    exact nomatch hopened

/-- An extension with a descriptor that is in use. -/
theorem truncateOk_iff_of_taken (h : Extends c path length a isDirectory)
    {fd : Int} {m : OpenFileMap Nat} (hfound : c.fileMap.safeGenerateFdIdx = some (fd, m))
    {address : Nat} (htaken : c.fileMap.get fd = some address) (hne : address ≠ a.address) :
    TruncateOk c path length a ↔
      ¬ WriteDone c.cache (c.openFiles address) (length.toUInt64.toNat - c.sizes path) a := by
  have hcall := gkfsTruncate_extends h
  rw [hfound, Option.map_some] at hcall
  obtain ⟨c', hc'⟩ : ∃ c', c.opened path isDirectory a.address fd m = c' := ⟨_, rfl⟩
  have hmap : c'.fileMap.get = c.fileMap.get := by
    have hsame := OpenFileMap.safeGenerateFdIdx_get hfound
    rw [← hc', Client.opened, OpenFileMap.insertNew_of_get (hsame ▸ htaken), hsame]
  have hget : c'.fileMap.get fd = some address := by rw [hmap, htaken]
  have hopen : c'.openFiles address = c.openFiles address := by
    rw [← hc']
    exact update_of_ne hne ..
  have hcache : c'.cache = c.cache := by rw [← hc', Client.opened]
  obtain ⟨hdone, hfailed⟩ := @Client.writeZeros_spec c' fd address
    (length.toUInt64.toNat - c.sizes path) a hget
  dsimp only at hcall
  rw [hc'] at hcall
  rw [hopen, hcache] at hdone hfailed
  rw [truncateOk_iff_of_eq hcall]
  constructor
  · -- a write that gets to its end is followed by the removal of the descriptor
    intro hok hwrite
    have hclosed := congrFun hok.1 fd
    rw [(hdone hwrite).2.1, update_self, htaken] at hclosed
    exact nomatch hclosed
  · intro hwrite
    obtain ⟨herr, hkept⟩ := hfailed hwrite
    rw [herr, hkept, hmap]
    exact ⟨rfl, fun hzero => absurd hzero (by decide)⟩

end

/-- A call leaves the descriptors as they are, and stores the length of a file that it reports as
extended, if and only if it completes. A new open file is put where no open file is. -/
theorem truncateOk_iff (c : Client) (path : List Char) (length : Int64) (a : TruncateAnswers)
    (hfresh : ∀ fd, c.fileMap.get fd ≠ some a.address) :
    TruncateOk c path length a ↔ TruncateCompletes c path length a := by
  by_cases hextends : ∃ isDirectory, Extends c path length a isDirectory
  · obtain ⟨isDirectory, h⟩ := hextends
    have hunique : ∀ isDirectory', Extends c path length a isDirectory' →
        isDirectory' = isDirectory := fun _ h' =>
      Option.some.inj (h'.2.2.2.symm.trans h.2.2.2)
    cases hfound : c.fileMap.safeGenerateFdIdx with
    | none =>
      have hcall := gkfsTruncate_extends h
      rw [hfound, Option.map_none] at hcall
      refine ⟨fun ⟨_, _, heq, _⟩ => (nomatch hcall.symm.trans heq), fun hcond => ?_⟩
      obtain ⟨_, _, heq, _⟩ := hcond isDirectory h
      exact nomatch hfound.symm.trans heq
    | some r =>
      obtain ⟨fd, m⟩ := r
      cases hget : c.fileMap.get fd with
      | none =>
        rw [truncateOk_iff_of_free h hfound hget]
        constructor
        · intro hok isDirectory' h'
          rw [hunique isDirectory' h']
          exact ⟨fd, m, hfound, .inl ⟨hget, hok⟩⟩
        · intro hcond
          obtain ⟨fd', m', heq, hfd⟩ := hcond isDirectory h
          cases hfound.symm.trans heq
          rcases hfd with ⟨-, hok⟩ | ⟨address, hsome, -⟩
          · exact hok
          · exact nomatch hget.symm.trans hsome
      | some address =>
        have hne : address ≠ a.address := fun heq => hfresh fd (heq ▸ hget)
        rw [truncateOk_iff_of_taken h hfound hget hne]
        constructor
        · intro hok isDirectory' h'
          exact ⟨fd, m, hfound, .inr ⟨address, hget, hok⟩⟩
        · intro hcond
          obtain ⟨fd', m', heq, hfd⟩ := hcond isDirectory h
          cases hfound.symm.trans heq
          rcases hfd with ⟨hnone, -⟩ | ⟨address', hsome, hok⟩
          · exact nomatch hget.symm.trans hnone
          · cases hget.symm.trans hsome
            exact hok
  · have hnot : ∀ isDirectory, ¬ Extends c path length a isDirectory := not_exists.1 hextends
    exact ⟨fun _ isDirectory h => absurd h (hnot isDirectory),
      fun _ => truncateOk_of_not_extends hnot⟩

/-- A client without a cache that extends a file from three bytes to eight. -/
theorem truncateOk_extends :
    TruncateOk ⟨OpenFileMap.start, fun _ => ⟨[], false, false, 0⟩, none, fun _ => 3⟩ "/f".toList 8
      ⟨0, some false, 0, 0, ⟨0, -1, true⟩, (0, 5), none, [], 0⟩ := by
  refine (truncateOk_iff _ _ _ _ fun fd h => ?_).2 fun isDirectory h => ?_
  · exact nomatch (AList.lookup_empty fd).symm.trans h
  · cases h.2.2.2
    refine ⟨10000, _, rfl, .inl ⟨rfl, ⟨rfl, fun _ => ⟨rfl, fun h => (nomatch h)⟩, rfl, ?_⟩,
      ⟨fun _ h => (nomatch h), rfl, ?_⟩⟩⟩
    · decide +kernel
    · decide +kernel

/-- The same extension with a write that fails: the descriptor stays open. -/
theorem truncate_leaks_descriptor :
    ((Client.gkfsTruncate ⟨OpenFileMap.start, fun _ => ⟨[], false, false, 0⟩, none, fun _ => 3⟩
        "/f".toList 8 ⟨0, some false, 0, 0, ⟨0, -1, true⟩, ( EIO, 0), none, [], 0⟩).map
          fun r => (r.1, r.2.fileMap.get 10000)) = some ((EINVAL : Int), some 0) ∧
      ¬ TruncateOk ⟨OpenFileMap.start, fun _ => ⟨[], false, false, 0⟩, none, fun _ => 3⟩
        "/f".toList 8 ⟨0, some false, 0, 0, ⟨0, -1, true⟩, ( EIO, 0), none, [], 0⟩ := by
  have hcall : ((Client.gkfsTruncate ⟨OpenFileMap.start, fun _ => ⟨[], false, false, 0⟩, none,
      fun _ => 3⟩ "/f".toList 8 ⟨0, some false, 0, 0, ⟨0, -1, true⟩, ( EIO, 0), none, [], 0⟩).map
        fun r => (r.1, r.2.fileMap.get 10000)) = some ((EINVAL : Int), some 0) := by
    decide +kernel
  refine ⟨hcall, ?_⟩
  rintro ⟨err, c', heq, hmap, -⟩
  rw [heq, Option.map_some, hmap] at hcall
  have hfd : (OpenFileMap.start : OpenFileMap Nat).get 10000 = some 0 :=
    congrArg Prod.snd (Option.some.inj hcall)
  exact nomatch (AList.lookup_empty (10000 : Int)).symm.trans hfd

end GekkoFS
