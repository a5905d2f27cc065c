import GekkoFS.Client.WriteSizeCache
import GekkoFS.Lib.Transition
import GekkoFS.NamespaceTree

/-!
# What the write size cache changes

The same calls are run by a client that uses the write size cache and by one that does not. The
daemons should not show the difference: a path that was flushed should have the same size, and a
removal should leave no chunk file that the other client would have removed (`CacheInvisible`).

The cache keeps the largest size of a path when it is flushed, and it is not told of truncations and
removals, which in turn do not look at sizes that wait in it. So an old size comes back with a later
flush, and a file that has been written but not flushed is removed without its chunks
(`stale_size_after_truncate`). `CacheSafe` is the condition on a call under which this does not
happen. As long as it is met the two runs stay related by `Agrees`: the chunk files are the same,
and the size without the cache is the size that a flush would lead to (`pendingSize`).
-/

namespace GekkoFS

open Function Transition

/-- What the cache has for a path; nothing without a cache. -/
def FileSystem.cached {n : Nat} (fs : FileSystem n) (path : List Char) : UInt64 × UInt64 :=
  match fs.cache with
  | none => (0, 0)
  | some cache => cache.entry path

/-- Whether a path is flushed after a call. -/
def FileCall.flushedAfter (path : List Char) (flushed : Bool) : FileCall → Bool
  | write path' .. => if path' = path then false else flushed
  | fsync path' _ => if path' = path then true else flushed
  | close path' _ => if path' = path then true else flushed
  | create .. => flushed
  | truncate .. => flushed
  | unlink _ => flushed

/-- Whether a path was flushed by some call and has not been written to since. -/
def Flushed (path : List Char) (calls : List FileCall) : Bool :=
  calls.foldl (FileCall.flushedAfter path) false

section
variable {n : Nat} (cfg : MetadataConfig) (d : Distributor n)

/-- The size stored at the metadata daemon of a path. -/
def sizeAt (cl : DaemonCluster n) (path : List Char) : Option Nat :=
  ((cl (d.locateFileMetadata path 0)).readEntry cfg path).map Metadata.size

/-- The daemons of a client with the cache and of one without, after the same calls: flushed paths
have the same size, and the removal of a path leaves no chunk file that is gone without the
cache. -/
structure CacheInvisible (calls : List FileCall) (fs fs' : FileSystem n) : Prop where
  sizes : ∀ path, Flushed path calls = true →
    sizeAt cfg d fs.daemons path = sizeAt cfg d fs'.daemons path
  chunks : ∀ path, calls.getLast? = some (.unlink path) → ∀ host chnkId,
    (fs'.daemons host).storage.file? path chnkId = none →
      (fs.daemons host).storage.file? path chnkId = none

/-- Every path is not there or has an entry that can be read. -/
def EntriesReadable (cl : DaemonCluster n) : Prop :=
  ∀ path, cellAt d cl path = Cell.empty ∨ ∃ md, (cellAt d cl path).Holds cfg md

/-- The end of a write in its file. -/
def writeEnd (offset : Int64) (buf : List UInt8) : UInt64 :=
  offset.toUInt64 + UInt64.ofNat buf.length

/-- The condition on a call on a path with the size at its daemon and what the cache has for it. A
write is to a file that exists, ends below `2 ^ 63`, and is not the `2 ^ 64`-th since the last
flush; if it is the first one, no larger size is left in the cache from before. A path that does not
exist is created or flushed only if no update waits. A truncation is to a size that is not larger
than the one at the daemon, and no larger size waits. A file is removed only if no size waits that
is larger than the one at the daemon. -/
def FileCall.SafeFor (size : Option Nat) (cnt cachedSize : UInt64) : FileCall → Prop
  | create .. => size = none → cnt = 0
  | write _ offset buf _ =>
    (writeEnd offset buf).toNat < 2 ^ 63 ∧ cnt + 1 ≠ 0 ∧
      ∃ stored ∈ size, cnt = 0 → cachedSize.toNat ≤ max (writeEnd offset buf).toNat stored
  | truncate _ length _ => 0 ≤ length → ∀ stored ∈ size,
    length.toUInt64.toNat ≤ stored ∧ (cnt ≠ 0 → cachedSize.toNat ≤ length.toUInt64.toNat)
  | unlink _ => ∀ stored ∈ size, cnt ≠ 0 → cachedSize.toNat ≤ stored
  | fsync .. => size = none → cnt = 0
  | close .. => size = none → cnt = 0

instance (size : Option Nat) (cnt cachedSize : UInt64) :
    ∀ call : FileCall, Decidable (call.SafeFor size cnt cachedSize)
  | .create .. => inferInstanceAs (Decidable (_ → _))
  | .write .. => inferInstanceAs (Decidable (_ ∧ _ ∧ ∃ stored ∈ size, _))
  | .truncate .. => inferInstanceAs (Decidable (_ → _))
  | .unlink _ => inferInstanceAs (Decidable (∀ stored ∈ size, _))
  | .fsync .. => inferInstanceAs (Decidable (_ → _))
  | .close .. => inferInstanceAs (Decidable (_ → _))

/-- The condition on a call in a state of the client with the cache. -/
def CacheSafe (fs : FileSystem n) (call : FileCall) : Prop :=
  call.SafeFor (sizeAt cfg d fs.daemons call.path) (fs.cached call.path).1 (fs.cached call.path).2

instance (fs : FileSystem n) (call : FileCall) : Decidable (CacheSafe cfg d fs call) :=
  inferInstanceAs (Decidable (call.SafeFor _ _ _))

/-! ## The relation between the two runs -/

/-- The size that a flush leads to. -/
def pendingSize (e : UInt64 × UInt64) (size : Nat) : Nat :=
  if e.1 = 0 then size else max size e.2.toNat

/-- A path does not exist in both, or has entries of the same mode, where the size without the cache
is the one that a flush leads to. -/
def EntryAgrees (e : UInt64 × UInt64) (c c' : Cell) : Prop :=
  (c = Cell.empty ∧ c' = Cell.empty) ∨ ∃ md md', c.Holds cfg md ∧ c'.Holds cfg md' ∧
    md'.mode = md.mode ∧ md'.size = pendingSize e md.size

/-- The daemons with the cache and those without hold the same chunk files, and their entries
agree. -/
structure Agrees (cached : List Char → UInt64 × UInt64) (cl cl' : DaemonCluster n) : Prop where
  storage : storages cl' = storages cl
  entry : ∀ path, EntryAgrees cfg (cached path) (cellAt d cl path) (cellAt d cl' path)

/-- The client without the cache has none, and the daemons agree. -/
structure FileSystemsAgree (fs fs' : FileSystem n) : Prop where
  noCache : fs'.cache = none
  daemons : Agrees cfg d fs.cached fs.daemons fs'.daemons

end

section
variable {n : Nat} {cfg : MetadataConfig} {d : Distributor n} {cl cl' cl₁ cl₁' : DaemonCluster n}
  {cached : List Char → UInt64 × UInt64} {path : List Char} {e : UInt64 × UInt64} {c c' : Cell}
  {md md' : Metadata} {size : Nat} {fs fs' : FileSystem n} {cache : WriteSizeCache}
  {offset now : Int64} {buf : List UInt8} {out : RmMetadataOut} {st : MetadataDaemon}
  {endPos : UInt64} {past calls : List FileCall} {call : FileCall}

/-- A missing entry has no size. -/
theorem sizeAt_empty (h : cellAt d cl path = Cell.empty) : sizeAt cfg d cl path = none := by
  rw [sizeAt, readEntry_empty h, Option.map_none]

/-- The size of a stored entry. -/
theorem sizeAt_holds (h : (cellAt d cl path).Holds cfg md) :
    sizeAt cfg d cl path = some md.size := by
  rw [sizeAt, readEntry_cellAt h]
  rfl

/-- Requests that keep the cells and the chunk files keep the agreement. -/
theorem Agrees.keep (h : Agrees cfg d cached cl cl') (hcell : cellAt d cl₁ = cellAt d cl)
    (hcell' : cellAt d cl₁' = cellAt d cl') (hst : storages cl₁' = storages cl₁) :
    Agrees cfg d cached cl₁ cl₁' where
  storage := hst
  entry path := by
    rw [hcell, hcell']
    exact h.entry path

/-- Requests that change only the chunk files keep the agreement if they leave the same ones. -/
theorem Agrees.withStorages (h : Agrees cfg d cached cl cl') (st : Cluster n) :
    Agrees cfg d cached (withStorages cl st) (withStorages cl' st) :=
  h.keep (cellAt_withStorages cl st) (cellAt_withStorages cl' st)
    (by rw [storages_withStorages, storages_withStorages])

/-- Requests that change the cell of one path. -/
theorem Agrees.update (h : Agrees cfg d cached cl cl')
    (hcell : cellAt d cl₁ = update (cellAt d cl) path c)
    (hcell' : cellAt d cl₁' = update (cellAt d cl') path c')
    (hst : storages cl₁' = storages cl₁) (hentry : EntryAgrees cfg e c c') :
    Agrees cfg d (update cached path e) cl₁ cl₁' where
  storage := hst
  entry path' := by
    rw [hcell, hcell']
    by_cases hpath : path' = path
    · rw [hpath, update_self, update_self, update_self]
      exact hentry
    · rw [update_of_ne hpath, update_of_ne hpath, update_of_ne hpath]
      exact h.entry path'

theorem pendingSize_eq (h : e.1 ≠ 0 → e.2.toNat ≤ size) :
    pendingSize e size = size := by
  rw [pendingSize]
  split
  · rfl
  · next hcnt => exact Nat.max_eq_left (h hcnt)

theorem cached_withDaemons (fs : FileSystem n) (cl : DaemonCluster n) :
    FileSystem.cached { fs with daemons := cl } = fs.cached := rfl

/-- Both clients keep what they have in their caches. -/
theorem FileSystemsAgree.withDaemons (h : FileSystemsAgree cfg d fs fs')
    (hcl : Agrees cfg d fs.cached cl cl') :
    FileSystemsAgree cfg d { fs with daemons := cl } { fs' with daemons := cl' } where
  noCache := h.noCache
  daemons := hcl

/-! ## Creating -/

/-- Both clients get the same error for the parent. -/
theorem Agrees.checkParentDir_fst (h : Agrees cfg d cached cl cl') (path : List Char) :
    (checkParentDir cfg d cl' path).1 = (checkParentDir cfg d cl path).1 := by
  rw [checkParentDir, checkParentDir]
  rcases h.entry (dirname path) with ⟨hempty, hempty'⟩ | ⟨md, md', hmd, hmd', hmode, -⟩
  · have hget : (getMetadata cfg d cl _).1 = _ := getMetadata_empty hempty
    have hget' : (getMetadata cfg d cl' _).1 = _ := getMetadata_empty hempty'
    generalize getMetadata cfg d cl (dirname path) = r at hget ⊢
    generalize getMetadata cfg d cl' (dirname path) = r' at hget' ⊢
    obtain ⟨r, cl₁⟩ := r
    obtain ⟨r', cl₁'⟩ := r'
    subst hget hget'
    rfl
  · have hget := getMetadata_some (readEntry_cellAt hmd)
    have hget' := getMetadata_some (readEntry_cellAt hmd')
    generalize getMetadata cfg d cl (dirname path) = r at hget ⊢
    generalize getMetadata cfg d cl' (dirname path) = r' at hget' ⊢
    obtain ⟨r, cl₁⟩ := r
    obtain ⟨r', cl₁'⟩ := r'
    subst hget hget'
    have hkept : (md'.kept cfg).mode = (md.kept cfg).mode := hmode
    dsimp only
    rw [hkept]
    split
    · rfl
    · rfl

theorem Agrees.checkParentDir (h : Agrees cfg d cached cl cl') (path : List Char) :
    Agrees cfg d cached (checkParentDir cfg d cl path).2 (checkParentDir cfg d cl' path).2 :=
  h.keep (cellAt_of_db (checkParentDir_db cfg d cl path))
    (cellAt_of_db (checkParentDir_db cfg d cl' path))
    (by rw [checkParentDir_storages, checkParentDir_storages, h.storage])

variable (cfg d cl path) in
theorem forwardCreate_storages (mode : UInt32) (now : Int64) :
    storages (forwardCreate cfg d cl path mode now).2 = storages cl :=
  storages_unchanged (rpcSrvCreate_storage cfg _ path mode now)

/-- A creation of a path that is not there. -/
theorem forwardCreate_empty (cfg : MetadataConfig) (h : cellAt d cl path = Cell.empty)
    (mode : UInt32) (now : Int64) :
    ∃ c, cellAt d (forwardCreate cfg d cl path mode now).2 = update (cellAt d cl) path c ∧
      c.Holds cfg (Metadata.ofMode cfg now.toInt mode.toNat) := by
  refine ⟨_, cellAt_update fun path' hne => ?_, rpcSrvCreate_empty h mode now⟩
  rcases rpcSrvCreate_db cfg (cl (d.locateFileMetadata path 0)) path mode now with
    ⟨-, -, hdb⟩ | ⟨-, hdb⟩
  · rw [hdb, DB.cell_merge_ne hne]
  · rw [hdb]

/-- A creation of a path that is there. -/
theorem forwardCreate_holds (h : (cellAt d cl path).Holds cfg md) (mode : UInt32)
    (now : Int64) : cellAt d (forwardCreate cfg d cl path mode now).2 = cellAt d cl := by
  rcases rpcSrvCreate_db cfg (cl (d.locateFileMetadata path 0)) path mode now with
    ⟨-, hempty, -⟩ | ⟨-, hdb⟩
  · exact absurd hempty h.ne_empty
  · exact cellAt_of_db (update_db hdb)

/-- The daemons agree after a create request. -/
theorem Agrees.forwardCreate (h : Agrees cfg d cached cl cl')
    (hok : cellAt d cl path = Cell.empty → (cached path).1 = 0) (mode : UInt32) (now : Int64) :
    Agrees cfg d cached (forwardCreate cfg d cl path mode now).2
      (forwardCreate cfg d cl' path mode now).2 := by
  have hst : storages (GekkoFS.forwardCreate cfg d cl' path mode now).2 =
      storages (GekkoFS.forwardCreate cfg d cl path mode now).2 := by
    rw [forwardCreate_storages, forwardCreate_storages, h.storage]
  rcases h.entry path with ⟨hempty, hempty'⟩ | ⟨md, md', hmd, hmd', -⟩
  · obtain ⟨c, hcell, hc⟩ := forwardCreate_empty cfg hempty mode now
    obtain ⟨c', hcell', hc'⟩ := forwardCreate_empty cfg hempty' mode now
    have hentry : EntryAgrees cfg (cached path) c c' :=
      .inr ⟨_, _, hc, hc', rfl, by rw [pendingSize, if_pos (hok hempty)]⟩
    have hnew := h.update hcell hcell' hst hentry
    rwa [update_eq_self] at hnew
  · exact h.keep (forwardCreate_holds hmd mode now) (forwardCreate_holds hmd' mode now) hst

/-- They agree after a creation. -/
theorem Agrees.gkfsCreate (h : Agrees cfg d cached cl cl')
    (hok : cellAt d cl path = Cell.empty → (cached path).1 = 0) (mode : UInt32) (now : Int64) :
    Agrees cfg d cached (gkfsCreate cfg d cl path mode now).2
      (gkfsCreate cfg d cl' path mode now).2 := by
  rw [GekkoFS.gkfsCreate, GekkoFS.gkfsCreate]
  cases createMode mode with
  | error err => exact h
  | ok mode =>
    have herr := h.checkParentDir_fst path
    have hparent := h.checkParentDir path
    have hsame : cellAt d (GekkoFS.checkParentDir cfg d cl path).2 = cellAt d cl :=
      cellAt_of_db (checkParentDir_db cfg d cl path)
    dsimp only
    generalize GekkoFS.checkParentDir cfg d cl path = r at herr hparent hsame ⊢
    generalize GekkoFS.checkParentDir cfg d cl' path = r' at herr hparent ⊢
    obtain ⟨err, cl₁⟩ := r
    obtain ⟨err', cl₁'⟩ := r'
    subst herr
    dsimp only at hparent hsame ⊢
    split
    · exact hparent
    · exact hparent.forwardCreate (by rw [hsame]; exact hok) mode now

/-! ## Removing -/

variable (cfg d cl path) in
/-- What a removal leaves: the metadata daemon has served it, and if it succeeded the daemons that
its answer names have removed their chunks. -/
theorem gkfsRemove_snd
    (h : rpcSrvRemoveMetadata cfg (cl (d.locateFileMetadata path 0)) path false = (out, st)) :
    (gkfsRemove cfg d cl path).2 =
      if out.err ≠ 0 then update cl (d.locateFileMetadata path 0) st
      else (removeDataOn path (fun _ => .delivered) 0
        (update cl (d.locateFileMetadata path 0) st) (removeTargets d path 0 out)).2 := by
  rw [gkfsRemove, forwardRemove, copyRange_zero, removeMetadataLoop, removeMetadata,
    h]
  dsimp only
  by_cases herr : out.err ≠ 0
  · rw [if_pos herr, if_pos herr]
  · rw [if_neg herr, if_neg herr]
    rfl

/-- Nothing is done to remove a missing file. -/
theorem gkfsRemove_empty (h : cellAt d cl path = Cell.empty) :
    (gkfsRemove cfg d cl path).2 = cl := by
  have hnoent : (ENOENT : Int) ≠ 0 := by decide
  have hserved : rpcSrvRemoveMetadata cfg (cl (d.locateFileMetadata path 0)) path false =
      (⟨ENOENT, 0, 0⟩, cl (d.locateFileMetadata path 0)) := by
    rw [rpcSrvRemoveMetadata, getImpl_empty h]
  rw [gkfsRemove_snd cfg d cl path hserved, if_pos hnoent, update_eq_self]

/-- The metadata daemon of a path that has an entry. -/
theorem rpcSrvRemoveMetadata_holds (h : (cellAt d cl path).Holds cfg md) :
    rpcSrvRemoveMetadata cfg (cl (d.locateFileMetadata path 0)) path false =
      removeEntry (MetadataDaemon.getImpl cfg (cl (d.locateFileMetadata path 0)) path).2 path false
        (md.kept cfg) :=
  rpcSrvRemoveMetadata_some (readEntry_cellAt h) false

/-- The cells after the removal of a path. -/
theorem cellAt_gkfsRemove
    (h : rpcSrvRemoveMetadata cfg (cl (d.locateFileMetadata path 0)) path false = (out, st)) :
    cellAt d (gkfsRemove cfg d cl path).2 =
      if out.err ≠ 0 then cellAt d cl else update (cellAt d cl) path Cell.empty := by
  have hdb := rpcSrvRemoveMetadata_db cfg (cl (d.locateFileMetadata path 0)) path false
  rw [gkfsRemove_snd cfg d cl path h]
  rw [h] at hdb
  rcases hdb with ⟨herr, hdb⟩ | ⟨herr, hdb⟩
  · rw [if_neg (not_not.2 herr), if_neg (not_not.2 herr), cellAt_of_db (removeDataOn_db _ _ _ _ _),
      cellAt_update fun path' hne => by rw [hdb, DB.cell_erase_ne hne], hdb, DB.cell_erase_self]
  · rw [if_pos herr, if_pos herr, cellAt_of_db (update_db hdb)]

/-- The daemons agree after a removal. -/
theorem Agrees.gkfsRemove (h : Agrees cfg d cached cl cl')
    (hok : ∀ md, (cellAt d cl path).Holds cfg md →
      (cached path).1 ≠ 0 → (cached path).2.toNat ≤ md.size) :
    Agrees cfg d cached (gkfsRemove cfg d cl path).2 (gkfsRemove cfg d cl' path).2 := by
  rcases h.entry path with ⟨hempty, hempty'⟩ | ⟨md, md', hmd, hmd', hmode, hsize⟩
  · rw [gkfsRemove_empty hempty, gkfsRemove_empty hempty']
    exact h
  · have hsame : md'.size = md.size := hsize.trans (pendingSize_eq (hok md hmd))
    have hhost := congrFun h.storage (d.locateFileMetadata path 0)
    obtain ⟨hout, hstorage⟩ := @removeEntry_congr
      (MetadataDaemon.getImpl cfg (cl (d.locateFileMetadata path 0)) path).2
      (MetadataDaemon.getImpl cfg (cl' (d.locateFileMetadata path 0)) path).2 path (md.kept cfg)
      (md'.kept cfg) hmode hsame hhost false
    rw [← rpcSrvRemoveMetadata_holds hmd, ← rpcSrvRemoveMetadata_holds hmd'] at hout hstorage
    generalize hr : rpcSrvRemoveMetadata cfg (cl (d.locateFileMetadata path 0)) path false = r
      at hout hstorage
    generalize hr' : rpcSrvRemoveMetadata cfg (cl' (d.locateFileMetadata path 0)) path false = r'
      at hout hstorage
    obtain ⟨out, st⟩ := r
    obtain ⟨out', st'⟩ := r'
    subst hout
    have hserved : storages (Function.update cl' (d.locateFileMetadata path 0) st') =
        storages (Function.update cl (d.locateFileMetadata path 0) st) := by
      rw [storages_update, storages_update, h.storage, hstorage]
    have hst : storages (GekkoFS.gkfsRemove cfg d cl' path).2 =
        storages (GekkoFS.gkfsRemove cfg d cl path).2 := by
      rw [gkfsRemove_snd cfg d cl path hr, gkfsRemove_snd cfg d cl' path hr']
      split
      · exact hserved
      · exact removeDataOn_storages hserved _ _ 0
    have hcell := cellAt_gkfsRemove hr
    have hcell' := cellAt_gkfsRemove hr'
    split at hcell
    · next herr =>
      rw [if_pos herr] at hcell'
      exact h.keep hcell hcell' hst
    · next herr =>
      rw [if_neg herr] at hcell'
      have hentry : EntryAgrees cfg (cached path) Cell.empty Cell.empty := .inl ⟨rfl, rfl⟩
      have hnew := h.update hcell hcell' hst hentry
      rwa [update_eq_self] at hnew

/-! ## Flushing -/

/-- A flush brings the size at the daemon to the one without the cache. -/
theorem Agrees.flush (h : Agrees cfg d cache.entry cl cl')
    (hok : cellAt d cl path = Cell.empty → (cache.entry path).1 = 0) (evict : Bool)
    (now : Int64) :
    Agrees cfg d (cache.flush cfg d cl path evict now).2.1.entry
      (cache.flush cfg d cl path evict now).2.2 cl' := by
  rw [WriteSizeCache.flush_entry]
  by_cases hcnt : (cache.entry path).1 = 0
  · rw [WriteSizeCache.flush_zero hcnt, ← hcnt, Prod.mk.eta, update_eq_self]
    exact h
  · rcases h.entry path with ⟨hempty, -⟩ | ⟨md, md', hmd, hmd', hmode, hsize⟩
    · exact absurd (hok hempty) hcnt
    · rw [pendingSize, if_neg hcnt] at hsize
      have hlt := hmd'.storable.size
      rw [hsize] at hlt
      obtain ⟨hst, c, md₁, hcell, hc, hmode₁, hsize₁⟩ :=
        WriteSizeCache.flush_resized hmd hcnt (Nat.max_lt.1 hlt).2 evict now
      refine h.update hcell (update_eq_self path _).symm (h.storage.trans hst.symm)
        (.inr ⟨md₁, md', hc, hmd', hmode.trans hmode₁.symm, ?_⟩)
      rw [hsize, hsize₁, pendingSize, if_pos rfl, Nat.max_comm]

/-- A flush of an open file. -/
theorem FileSystemsAgree.flushOpen (h : FileSystemsAgree cfg d fs fs')
    (hok : cellAt d fs.daemons path = Cell.empty → (fs.cached path).1 = 0) (now : Int64) :
    FileSystemsAgree cfg d (fs.flushOpen cfg d path now).2 (fs'.flushOpen cfg d path now).2 ∧
      ((fs.flushOpen cfg d path now).2.cached path).1 = 0 ∧
      ∀ path', path' ≠ path →
        (fs.flushOpen cfg d path now).2.cached path' = fs.cached path' := by
  have hnone : fs'.flushOpen cfg d path now = (0, fs') := by
    rw [FileSystem.flushOpen, h.noCache]
  rw [hnone]
  obtain ⟨cache, cl⟩ := fs
  cases cache with
  | none => exact ⟨h, rfl, fun _ _ => rfl⟩
  | some cache =>
    have hagrees := h.daemons.flush hok true now
    have hentry := WriteSizeCache.flush_entry cfg d cache cl path true now
    rw [FileSystem.flushOpen]
    dsimp only
    generalize cache.flush cfg d cl path true now = r at hagrees hentry ⊢
    obtain ⟨ret, cache₁, cl₁⟩ := r
    refine ⟨⟨h.noCache, hagrees⟩, ?_, fun path' hne => ?_⟩
    · change (cache₁.entry path).1 = 0
      rw [hentry, update_self]
    · change cache₁.entry path' = cache.entry path'
      rw [hentry, update_of_ne hne]

/-! ## Writing -/

/-- What waits in the cache after a write is the size of the file after the write. -/
theorem pendingSize_record (hcnt : (cache.entry path).1 + 1 ≠ 0)
    (hok : (cache.entry path).1 = 0 → (cache.entry path).2.toNat ≤ max endPos.toNat size) :
    pendingSize (cache.record path endPos).1 size =
      max endPos.toNat (pendingSize (cache.entry path) size) := by
  have hmax := toNat_ite_lt (cache.entry path).2 endPos
  rw [pendingSize, pendingSize, WriteSizeCache.record]
  dsimp only
  rw [if_neg hcnt, hmax]
  split
  · next hzero =>
    have := hok hzero
    omega
  · omega

/-- The size update of the client without the cache. -/
theorem updateSize_noCache (h : fs.cache = none) (path : List Char)
    (count : UInt64) (offset : Int64) (now : Int64) :
    fs.updateSize cfg d path count offset false 0 now =
      (.ok offset.toInt,
        { fs with
          daemons :=
            (updateFileSize cfg d fs.daemons path count offset.toUInt64 false 0 now).2 }) := by
  obtain ⟨cache, cl⟩ := fs
  subst h
  exact updateSize_none cfg d cl path count offset false 0 now

/-- A write that only the client without the cache has sent the size of. -/
theorem Agrees.record (h : Agrees cfg d cache.entry cl cl') (hmd : (cellAt d cl path).Holds cfg md)
    (hmode : md'.mode = md.mode) (hsize : md'.size = pendingSize (cache.entry path) md.size)
    (hre : Resized cfg d path md' (max endPos.toNat md'.size) cl' cl₁')
    (hcnt : (cache.entry path).1 + 1 ≠ 0)
    (hok : (cache.entry path).1 = 0 → (cache.entry path).2.toNat ≤ max endPos.toNat md.size) :
    Agrees cfg d (cache.record path endPos).2.entry cl cl₁' := by
  obtain ⟨hst, c, md₁, hcell, hc, hmode₁, hsize₁⟩ := hre
  rw [WriteSizeCache.entry_record]
  refine h.update (update_eq_self path _).symm hcell (hst.trans h.storage)
    (.inr ⟨md, md₁, hmd, hc, hmode₁.trans hmode, ?_⟩)
  rw [hsize₁, hsize, pendingSize_record hcnt hok]

/-- Both clients have changed the size of a path, to sizes that agree. -/
theorem Agrees.of_resized {size' : Nat} (h : Agrees cfg d cached cl cl')
    (hmode : md'.mode = md.mode) (hsize : size' = pendingSize (cached path) size)
    (hre : Resized cfg d path md size cl cl₁) (hre' : Resized cfg d path md' size' cl' cl₁') :
    Agrees cfg d cached cl₁ cl₁' := by
  obtain ⟨hst, c, md₁, hcell, hc, hmode₁, hsize₁⟩ := hre
  obtain ⟨hst', c', md₁', hcell', hc', hmode₁', hsize₁'⟩ := hre'
  have hentry : EntryAgrees cfg (cached path) c c' := by
    refine .inr ⟨md₁, md₁', hc, hc', (hmode₁'.trans hmode).trans hmode₁.symm, ?_⟩
    rw [hsize₁', hsize₁, hsize]
  have hnew := h.update hcell hcell' (hst'.trans (h.storage.trans hst.symm)) hentry
  rwa [update_eq_self] at hnew

/-- A write that both clients have sent the size of. -/
theorem Agrees.resize {endPos : Nat} (h : Agrees cfg d cached cl cl')
    (hmode : md'.mode = md.mode) (hsize : md'.size = md.size) (hcnt : (cached path).1 = 0)
    (hre : Resized cfg d path md (max endPos md.size) cl cl₁)
    (hre' : Resized cfg d path md' (max endPos md'.size) cl' cl₁') :
    Agrees cfg d cached cl₁ cl₁' := by
  refine h.of_resized hmode ?_ hre hre'
  rw [hsize, pendingSize, if_pos hcnt]

/-- The size update of the client with the cache is kept, or sent with those before it. -/
theorem Agrees.updateSize {count : UInt64}
    (h : Agrees cfg d (cache.record path (offset.toUInt64 + count)).2.entry cl cl')
    (hne : cellAt d cl path ≠ Cell.empty) (now : Int64) :
    ∃ cache₁ cl₁, FileSystem.updateSize cfg d ⟨some cache, cl⟩ path count offset false 0 now =
        (.ok offset.toInt, ⟨some cache₁, cl₁⟩) ∧ Agrees cfg d cache₁.entry cl₁ cl' ∧
      ∀ path', path' ≠ path → cache₁.entry path' = cache.entry path' := by
  have hkeep : ∀ path', path' ≠ path →
      (cache.record path (offset.toUInt64 + count)).2.entry path' = cache.entry path' := by
    intro path' hp
    rw [cache.entry_record path, update_of_ne hp]
  rw [updateSize_some]
  split
  · refine ⟨_, _, rfl, h.flush (fun hempty => absurd hempty hne) false now, fun path' hp => ?_⟩
    rw [WriteSizeCache.flush_entry, update_of_ne hp, hkeep path' hp]
  · exact ⟨_, cl, rfl, h, hkeep⟩

/-- The size updates of a write. -/
theorem FileSystemsAgree.updateSize (h : FileSystemsAgree cfg d fs fs')
    (hok : CacheSafe cfg d fs (.write path offset buf now)) :
    ∃ fs₁ fs₁', fs.updateSize cfg d path (UInt64.ofNat buf.length) offset false 0 now =
        (.ok offset.toInt, fs₁) ∧
      fs'.updateSize cfg d path (UInt64.ofNat buf.length) offset false 0 now =
        (.ok offset.toInt, fs₁') ∧
      FileSystemsAgree cfg d fs₁ fs₁' ∧
      ∀ path', path' ≠ path → fs₁.cached path' = fs.cached path' := by
  obtain ⟨hend, hcnt, stored, hstored, hfirst⟩ := hok
  rcases h.daemons.entry path with ⟨hempty, -⟩ | ⟨md, md', hmd, hmd', hmode, hsize⟩
  · rw [FileCall.path, sizeAt_empty hempty] at hstored
    exact absurd hstored (Option.not_mem_none stored)
  · rw [FileCall.path, sizeAt_holds hmd, Option.mem_some_iff] at hstored
    subst hstored
    obtain ⟨-, hre'⟩ := updateFileSize_resized hmd' hend 0 now
    obtain ⟨cache, cl⟩ := fs
    cases cache with
    | none =>
      obtain ⟨-, hre⟩ := updateFileSize_resized hmd hend 0 now
      exact ⟨_, _, updateSize_noCache rfl path _ offset now,
        updateSize_noCache h.noCache path _ offset now,
        ⟨h.noCache, h.daemons.resize hmode hsize rfl hre hre'⟩, fun _ _ => rfl⟩
    | some cache =>
      have hrecorded : Agrees cfg d
          (cache.record path (offset.toUInt64 + UInt64.ofNat buf.length)).2.entry cl
          (updateFileSize cfg d fs'.daemons path (UInt64.ofNat buf.length) offset.toUInt64 false 0
            now).2 :=
        Agrees.record h.daemons hmd hmode hsize hre' hcnt hfirst
      obtain ⟨cache₁, cl₁, hcached, hagrees, hkeep⟩ := hrecorded.updateSize hmd.ne_empty now
      exact ⟨⟨some cache₁, cl₁⟩, _, hcached, updateSize_noCache h.noCache path _ offset now,
        ⟨h.noCache, hagrees⟩, hkeep⟩

/-- A write of the same data to the same chunk files. -/
theorem Agrees.writeData (h : Agrees cfg d cached cl cl') (path : List Char) (buf : List UInt8)
    (offset : Int) :
    Agrees cfg d cached (writeData d cl path buf offset).2 (writeData d cl' path buf offset).2 := by
  rw [GekkoFS.writeData, GekkoFS.writeData, h.storage]
  exact h.withStorages _

theorem gkfsDoWrite_snd {fs₁ : FileSystem n}
    {used : Int}
    (h : fs.updateSize cfg d path (UInt64.ofNat buf.length) offset false 0 now = (.ok used, fs₁)) :
    (fs.gkfsDoWrite cfg d path buf offset false 0 now).2 =
      { fs₁ with daemons := (writeData d fs₁.daemons path buf used).2 } := by
  rw [FileSystem.gkfsDoWrite, h]

/-- The file systems agree after a write. -/
theorem FileSystemsAgree.gkfsDoWrite (h : FileSystemsAgree cfg d fs fs')
    (hok : CacheSafe cfg d fs (.write path offset buf now)) :
    FileSystemsAgree cfg d (fs.gkfsDoWrite cfg d path buf offset false 0 now).2
        (fs'.gkfsDoWrite cfg d path buf offset false 0 now).2 ∧
      ∀ path', path' ≠ path →
        (fs.gkfsDoWrite cfg d path buf offset false 0 now).2.cached path' = fs.cached path' := by
  obtain ⟨fs₁, fs₁', hfs, hfs', hagree, hkeep⟩ := h.updateSize hok
  rw [gkfsDoWrite_snd hfs, gkfsDoWrite_snd hfs']
  refine ⟨hagree.withDaemons (hagree.daemons.writeData path buf offset.toInt), ?_⟩
  rw [cached_withDaemons]
  exact hkeep

/-! ## Truncating -/

/-- A decrease of the size that no size in the cache exceeds. -/
theorem Agrees.forwardDecrSize {length : UInt64}
    (h : Agrees cfg d cached cl cl') (hmd : (cellAt d cl path).Holds cfg md)
    (hmd' : (cellAt d cl' path).Holds cfg md') (hmode : md'.mode = md.mode)
    (hlength : length.toNat < 2 ^ 63)
    (hok : (cached path).1 ≠ 0 → (cached path).2.toNat ≤ length.toNat) (now : Int64) :
    (forwardDecrSize cfg d cl path length now).1 = 0 ∧
      (forwardDecrSize cfg d cl' path length now).1 = 0 ∧
      Agrees cfg d cached (forwardDecrSize cfg d cl path length now).2
        (forwardDecrSize cfg d cl' path length now).2 := by
  obtain ⟨herr, hre⟩ := forwardDecrSize_resized hmd hlength now
  obtain ⟨herr', hre'⟩ := forwardDecrSize_resized hmd' hlength now
  exact ⟨herr, herr', h.of_resized hmode (pendingSize_eq hok).symm hre hre'⟩

/-- The results of a call of the two clients that does not touch the cache. -/
def CallsAgree (cfg : MetadataConfig) (d : Distributor n) (fs : FileSystem n)
    (r r' : Int × FileSystem n) : Prop :=
  FileSystemsAgree cfg d r.2 r'.2 ∧ r.2.cached = fs.cached

/-- They agree after a change to a smaller size. -/
theorem FileSystemsAgree.truncateTo {order : HostOrder n} {fuel : Nat} {newSize : Nat}
    (h : FileSystemsAgree cfg d fs fs')
    (hmd : (cellAt d fs.daemons path).Holds cfg md)
    (hmd' : (cellAt d fs'.daemons path).Holds cfg md') (hmode : md'.mode = md.mode)
    (hnew : newSize < 2 ^ 63)
    (hok : (fs.cached path).1 ≠ 0 → (fs.cached path).2.toNat ≤ newSize) (oldSize : Nat)
    (now : Int64) :
    Option.Rel (CallsAgree cfg d fs) (fs.truncateTo cfg d order fuel path oldSize newSize now)
      (fs'.truncateTo cfg d order fuel path oldSize newSize now) := by
  have hlength : (UInt64.ofNat newSize).toNat = newSize :=
    UInt64.toNat_ofNat_of_lt' (Nat.lt_trans hnew (by decide))
  rw [← hlength] at hnew hok
  obtain ⟨herr, herr', hagrees⟩ :=
    Agrees.forwardDecrSize h.daemons hmd hmd' hmode hnew hok now
  rw [FileSystem.truncateTo, FileSystem.truncateTo]
  split
  · exact .some ⟨h, rfl⟩
  · generalize GekkoFS.forwardDecrSize cfg d fs.daemons path (UInt64.ofNat newSize) now = r
      at herr hagrees ⊢
    generalize GekkoFS.forwardDecrSize cfg d fs'.daemons path (UInt64.ofNat newSize) now = r'
      at herr' hagrees ⊢
    obtain ⟨err, cl⟩ := r
    obtain ⟨err', cl'⟩ := r'
    subst herr herr'
    dsimp only at hagrees ⊢
    rw [if_neg (not_not.2 rfl), if_neg (not_not.2 rfl), hagrees.storage]
    cases forwardTruncate d (fun _ => .delivered) order (storages cl) path oldSize newSize 0
      fuel with
    | none => exact .none
    | some r => exact .some ⟨h.withDaemons (hagrees.withStorages r.2.storage), rfl⟩

theorem Agrees.getMetadata (h : Agrees cfg d cached cl cl') (path : List Char) :
    Agrees cfg d cached (getMetadata cfg d cl path).2 (getMetadata cfg d cl' path).2 :=
  h.keep (cellAt_of_db (getMetadata_db cfg d cl path))
    (cellAt_of_db (getMetadata_db cfg d cl' path))
    (by rw [getMetadata_storages, getMetadata_storages, h.storage])

/-- They agree after a truncation. -/
theorem FileSystemsAgree.gkfsTruncate {fs fs' : FileSystem n} (h : FileSystemsAgree cfg d fs fs')
    {order : HostOrder n} {fuel : Nat} {length now : Int64}
    (hok : CacheSafe cfg d fs (.truncate path length now)) :
    Option.Rel (CallsAgree cfg d fs) (fs.gkfsTruncate cfg d order fuel path length now)
      (fs'.gkfsTruncate cfg d order fuel path length now) := by
  have hread := h.daemons.getMetadata path
  have hcell : cellAt d (getMetadata cfg d fs.daemons path).2 = cellAt d fs.daemons :=
    cellAt_of_db (getMetadata_db cfg d fs.daemons path)
  have hcell' : cellAt d (getMetadata cfg d fs'.daemons path).2 = cellAt d fs'.daemons :=
    cellAt_of_db (getMetadata_db cfg d fs'.daemons path)
  rw [FileSystem.gkfsTruncate, FileSystem.gkfsTruncate]
  split
  · exact .some ⟨h, rfl⟩
  · next hneg =>
    rcases h.daemons.entry path with ⟨hempty, hempty'⟩ | ⟨md, md', hmd, hmd', hmode, hsize⟩
    · have hget : (getMetadata cfg d fs.daemons path).1 = _ := getMetadata_empty hempty
      have hget' : (getMetadata cfg d fs'.daemons path).1 = _ := getMetadata_empty hempty'
      generalize getMetadata cfg d fs.daemons path = r at hget hread ⊢
      generalize getMetadata cfg d fs'.daemons path = r' at hget' hread ⊢
      obtain ⟨r, cl⟩ := r
      obtain ⟨r', cl'⟩ := r'
      subst hget hget'
      exact .some ⟨h.withDaemons hread, rfl⟩
    · obtain ⟨hle, hcached⟩ := hok (Int64.not_lt.1 hneg) md.size (sizeAt_holds hmd)
      have hget := getMetadata_some (readEntry_cellAt hmd)
      have hget' := getMetadata_some (readEntry_cellAt hmd')
      rw [← hcell] at hmd
      rw [← hcell'] at hmd'
      have hlt := Nat.lt_of_le_of_lt hle hmd.storable.size
      -- no size waits that is larger than the new size, so both see the same size
      have hsame : md'.size = md.size :=
        hsize.trans (pendingSize_eq fun hcnt => (hcached hcnt).trans hle)
      generalize getMetadata cfg d fs.daemons path = r at hget hread hmd ⊢
      generalize getMetadata cfg d fs'.daemons path = r' at hget' hread hmd' ⊢
      obtain ⟨r, cl⟩ := r
      obtain ⟨r', cl'⟩ := r'
      subst hget hget'
      dsimp only at hread hmd hmd' ⊢
      rw [show (md'.kept cfg).size = md.size from hsame, show (md.kept cfg).size = md.size from rfl,
        if_neg (Nat.not_lt.2 hle), if_neg (Nat.not_lt.2 hle)]
      exact (h.withDaemons hread).truncateTo hmd hmd' hmode hlt hcached md.size now

/-! ## Runs -/

/-- After the same calls the two clients agree, and nothing waits for a path that was flushed. -/
structure RunsAgree (cfg : MetadataConfig) (d : Distributor n) (past : List FileCall)
    (fs fs' : FileSystem n) : Prop where
  agree : FileSystemsAgree cfg d fs fs'
  flushed : ∀ path, Flushed path past = true → (fs.cached path).1 = 0

variable (path past call) in
theorem flushed_concat :
    Flushed path (past ++ [call]) = call.flushedAfter path (Flushed path past) := by
  rw [Flushed, List.foldl_append, List.foldl_cons, List.foldl_nil, Flushed]

/-- A flush of a path. -/
theorem RunsAgree.flushOpen (h : RunsAgree cfg d past fs fs')
    (hcall : ∀ path' flushed, call.flushedAfter path' flushed =
      if path = path' then true else flushed)
    (hok : sizeAt cfg d fs.daemons path = none → (fs.cached path).1 = 0) :
    RunsAgree cfg d (past ++ [call]) (fs.flushOpen cfg d path now).2
      (fs'.flushOpen cfg d path now).2 := by
  obtain ⟨hagree, hzero, hkeep⟩ :=
    h.agree.flushOpen (fun hempty => hok (sizeAt_empty hempty)) now
  refine ⟨hagree, fun path' hflushed => ?_⟩
  rw [flushed_concat, hcall] at hflushed
  by_cases hpath : path = path'
  · rw [← hpath]
    exact hzero
  · rw [if_neg hpath] at hflushed
    rw [hkeep path' (Ne.symm hpath)]
    exact h.flushed path' hflushed

/-- Every call that meets the condition keeps the two clients in agreement. -/
theorem RunsAgree.step
    (h : RunsAgree cfg d past fs fs') (hok : CacheSafe cfg d fs call) (order : HostOrder n)
    (fuel : Nat) :
    Option.Rel (RunsAgree cfg d (past ++ [call])) (fileStep cfg d order fuel fs call)
      (fileStep cfg d order fuel fs' call) := by
  cases call with
  | create path mode now =>
    refine .some ⟨h.agree.withDaemons (h.agree.daemons.gkfsCreate
      (fun hempty => hok (sizeAt_empty hempty)) mode now), fun path' hflushed => ?_⟩
    rw [flushed_concat] at hflushed
    exact h.flushed path' hflushed
  | write path offset buf now =>
    obtain ⟨hagree, hkeep⟩ := h.agree.gkfsDoWrite hok
    refine .some ⟨hagree, fun path' hflushed => ?_⟩
    rw [flushed_concat, FileCall.flushedAfter] at hflushed
    split at hflushed
    · cases hflushed
    · next hpath =>
      rw [hkeep path' (Ne.symm hpath)]
      exact h.flushed path' hflushed
  | truncate path length now =>
    have hrel := @FileSystemsAgree.gkfsTruncate n cfg d path fs fs' h.agree order fuel length now
      hok
    rw [fileStep, fileStep]
    generalize fs.gkfsTruncate cfg d order fuel path length now = r at hrel ⊢
    generalize fs'.gkfsTruncate cfg d order fuel path length now = r' at hrel ⊢
    cases hrel with
    | none => exact .none
    | some hcalls =>
      refine .some ⟨hcalls.1, fun path' hflushed => ?_⟩
      rw [flushed_concat] at hflushed
      rw [hcalls.2]
      exact h.flushed path' hflushed
  | unlink path =>
    refine .some ⟨h.agree.withDaemons (h.agree.daemons.gkfsRemove
      fun md hmd => hok md.size (sizeAt_holds hmd)), fun path' hflushed => ?_⟩
    rw [flushed_concat] at hflushed
    exact h.flushed path' hflushed
  | fsync path now => exact .some (h.flushOpen (fun _ _ => rfl) hok)
  | close path now => exact .some (h.flushOpen (fun _ _ => rfl) hok)

/-- Runs that agree show the same sizes and bytes. -/
theorem RunsAgree.cacheInvisible
    (h : RunsAgree cfg d calls fs fs') : CacheInvisible cfg d calls fs fs' where
  sizes path hflushed := by
    have hcnt := h.flushed path hflushed
    rcases h.agree.daemons.entry path with ⟨hempty, hempty'⟩ | ⟨md, md', hmd, hmd', -, hsize⟩
    · rw [sizeAt_empty hempty, sizeAt_empty hempty']
    · rw [sizeAt_holds hmd, sizeAt_holds hmd', hsize, pendingSize, if_pos hcnt]
  chunks path _ host chnkId hnone := by
    have hhost : (fs'.daemons host).storage = (fs.daemons host).storage :=
      congrFun h.agree.daemons.storage host
    rw [← hhost]
    exact hnone

/-- Daemons that have just started hold the entry of the root only. -/
theorem entriesReadable_initialCluster (now : Fin n → Int64) :
    EntriesReadable cfg d (initialCluster cfg now) := by
  intro path
  by_cases hpath : path = CanonicalPath.root.text
  · subst hpath
    have hempty : DB.cell ∅ CanonicalPath.root.text = Cell.empty := rfl
    exact .inr ⟨_, @rpcSrvCreate_empty cfg ⟨∅, fun _ => none, ∅⟩ _ hempty 0o40777 _⟩
  · refine .inl ?_
    rcases rpcSrvCreate_db cfg ⟨∅, fun _ => none, ∅⟩ CanonicalPath.root.text 0o40777
      (now (d.locateFileMetadata path 0)) with ⟨-, -, hdb⟩ | ⟨-, hdb⟩
    · rw [cellAt, initialCluster, hdb, DB.cell_merge_ne hpath]
      rfl
    · rw [cellAt, initialCluster, hdb]
      rfl

/-- A client starts with nothing in its cache. -/
theorem runsAgree_init (threshold : UInt64) (h : EntriesReadable cfg d cl) :
    RunsAgree cfg d [] ⟨initWriteSizeCache threshold, cl⟩ ⟨none, cl⟩ := by
  have hcached : ∀ path, FileSystem.cached ⟨initWriteSizeCache threshold, cl⟩ path = (0, 0) := by
    intro path
    rw [initWriteSizeCache]
    split
    · rfl
    · rfl
  refine ⟨⟨rfl, rfl, fun path => ?_⟩, fun path _ => by rw [hcached]⟩
  rw [hcached]
  rcases h path with hempty | ⟨md, hmd⟩
  · exact .inl ⟨hempty, hempty⟩
  · exact .inr ⟨md, md, hmd, hmd, rfl, rfl⟩

/-- In every run whose calls meet the condition the cache does not show, whatever the threshold. A
run that does not return does not return without the cache either. -/
theorem cacheInvisible_of_run (order : HostOrder n) (fuel : Nat) (threshold : UInt64)
    (hcl : EntriesReadable cfg d cl)
    (hok : Transition.AllOk (fileStep cfg d order fuel) (CacheSafe cfg d)
      ⟨initWriteSizeCache threshold, cl⟩ calls) :
    Option.Rel (CacheInvisible cfg d calls)
      (run (fileStep cfg d order fuel) ⟨initWriteSizeCache threshold, cl⟩ calls)
      (run (fileStep cfg d order fuel) ⟨none, cl⟩ calls) := by
  have hstep : ∀ past fs fs' call, RunsAgree cfg d past fs fs' → CacheSafe cfg d fs call →
      Option.Rel (RunsAgree cfg d (past ++ [call])) (fileStep cfg d order fuel fs call)
        (fileStep cfg d order fuel fs' call) :=
    fun past fs fs' call h hcall => h.step hcall order fuel
  have hruns := run_rel hstep (runsAgree_init threshold hcl) hok
  generalize run (fileStep cfg d order fuel) _ calls = r at hruns ⊢
  generalize run (fileStep cfg d order fuel) _ calls = r' at hruns ⊢
  cases hruns with
  | none => exact .none
  | some h => exact .some h.cacheInvisible

end

/-- What calls leave on two daemons that have just started. -/
def filesAfter (cache : Option WriteSizeCache) (calls : List FileCall) : Option (FileSystem 2) :=
  run (fileStep .default splitPlacement (HostOrder.sorted 2) 10)
    ⟨cache, initialCluster .default fun _ => 0⟩ calls

/-- A file is written, synced, cut, written again up to its old size and removed, while another one
stays. -/
def syncedCalls : List FileCall :=
  [.create "/a".toList 0o644 0, .write "/a".toList 0 [97, 98, 99] 0, .fsync "/a".toList 0,
    .truncate "/a".toList 2 0, .write "/a".toList 0 [97, 98, 99] 0, .close "/a".toList 0,
    .create "/b".toList 0o644 0, .write "/b".toList 0 [97] 0, .write "/b".toList 1 [98] 0,
    .close "/b".toList 0, .unlink "/a".toList]

/-- With the cache these calls leave the file that stays with its size. -/
theorem cacheInvisible_of_run_syncedCalls :
    ∃ fs fs', filesAfter (initWriteSizeCache 5) syncedCalls = some fs ∧
      filesAfter none syncedCalls = some fs' ∧
      sizeAt .default splitPlacement fs.daemons "/b".toList = some 2 ∧
      CacheInvisible .default splitPlacement syncedCalls fs fs' := by
  have hcached : (filesAfter (initWriteSizeCache 5) syncedCalls).isSome = true := by decide +kernel
  have hplain : (filesAfter none syncedCalls).isSome = true := by decide +kernel
  have hsize : (filesAfter (initWriteSizeCache 5) syncedCalls).bind (fun fs =>
      sizeAt .default splitPlacement fs.daemons "/b".toList) = some 2 := by decide +kernel
  have hrel := cacheInvisible_of_run (HostOrder.sorted 2) 10 5
    (entriesReadable_initialCluster fun _ => 0)
    (show Transition.AllOk (fileStep .default splitPlacement (HostOrder.sorted 2) 10)
      (CacheSafe .default splitPlacement) _ syncedCalls by decide +kernel)
  obtain ⟨fs, hfs⟩ := Option.isSome_iff_exists.1 hcached
  obtain ⟨fs', hfs'⟩ := Option.isSome_iff_exists.1 hplain
  change Option.Rel _ (filesAfter _ _) (filesAfter _ _) at hrel
  rw [hfs, hfs'] at hrel
  rw [hfs, Option.bind_some] at hsize
  cases hrel with
  | some h => exact ⟨fs, fs', hfs, hfs', hsize, h⟩

/-- A file is written, synced and cut, and then written again up to less than its old size. -/
def shortenedCalls : List FileCall :=
  [.create "/a".toList 0o644 0, .write "/a".toList 0 [97, 98, 99] 0, .fsync "/a".toList 0,
    .truncate "/a".toList 2 0, .write "/a".toList 0 [97] 0, .close "/a".toList 0]

/-- A file is removed before the size of its only write has been flushed. -/
def unsyncedCalls : List FileCall :=
  [.create "/a".toList 0o644 0, .write "/a".toList 0 [97, 98, 99] 0, .unlink "/a".toList]

/-- The old size comes back when the file is closed, and the chunk of a file that was removed before
a flush stays. -/
theorem stale_size_after_truncate :
    (∃ fs fs', filesAfter (initWriteSizeCache 5) shortenedCalls = some fs ∧
      filesAfter none shortenedCalls = some fs' ∧
      ¬ CacheInvisible .default splitPlacement shortenedCalls fs fs') ∧
    ∃ fs fs', filesAfter (initWriteSizeCache 5) unsyncedCalls = some fs ∧
      filesAfter none unsyncedCalls = some fs' ∧
      ¬ CacheInvisible .default splitPlacement unsyncedCalls fs fs' := by
  constructor
  · refine ⟨(filesAfter (initWriteSizeCache 5) shortenedCalls).get (by decide +kernel),
      (filesAfter none shortenedCalls).get (by decide +kernel), (Option.some_get _).symm,
      (Option.some_get _).symm, fun h => ?_⟩
    have hsizes := h.sizes "/a".toList (by decide)
    revert hsizes
    decide +kernel
  · refine ⟨(filesAfter (initWriteSizeCache 5) unsyncedCalls).get (by decide +kernel),
      (filesAfter none unsyncedCalls).get (by decide +kernel), (Option.some_get _).symm,
      (Option.some_get _).symm, fun h => ?_⟩
    have hchunks := h.chunks "/a".toList rfl firstHost 0
    revert hchunks
    decide +kernel

end GekkoFS
