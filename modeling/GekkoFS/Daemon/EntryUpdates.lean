import GekkoFS.Common.MetadataRoundTrip
import GekkoFS.Daemon.MetadataBackends
import GekkoFS.Daemon.StoredEntry
import GekkoFS.Lib.Transition

/-!
# Updates of an entry as a whole

Two handlers change fields of an entry: they read it, change it in their own memory and write all of
it back (`updateEntry`). A size update in contrast is queued as an operand, so it needs no read.

Requests for one path are served at the same time, and a run is a list of the reads and writes of
their handlers in any order (`EntryState.step`). The entry that a handler writes back has the size
that it has read, so a size update that is queued in between is lost. `sizeOk_of_run` says that no
size update is lost otherwise.
-/

namespace GekkoFS

open List MetadataDaemon Transition
open Metadata (allFields)

/-! ## The handlers -/

/-- The fields of an entry to set, without those that the handler does not read. Source:
`rpc_update_metadentry_in_t` (`rpc_types.hpp:62`). -/
structure UpdateMetadentryIn where
  nlink : Option UInt64
  size : Option Int64
  blocks : Option Int64
  atime : Option Int64
  mtime : Option Int64
  ctime : Option Int64
  deriving DecidableEq

/-- The entry with the fields set. -/
def UpdateMetadentryIn.apply (u : UpdateMetadentryIn) (md : Metadata) : Metadata :=
  { md with
    blocks := (u.blocks.map Int64.toInt).getD md.blocks
    linkCount := (u.nlink.map UInt64.toNat).getD md.linkCount
    size := (u.size.map fun size => size.toUInt64.toNat).getD md.size
    atime := (u.atime.map Int64.toInt).getD md.atime
    mtime := (u.mtime.map Int64.toInt).getD md.mtime
    ctime := (u.ctime.map Int64.toInt).getD md.ctime }

/-- The target of a link, which is a C string. Source: `rpc_mk_symlink_in_t`
(`rpc_types.hpp:83`). -/
structure MkSymlinkIn where
  targetPath : List Char
  isCString : '\x00' ∉ targetPath
  deriving DecidableEq

/-- The entry with the link; the entry at the old name of a rename gets the new name. -/
def MkSymlinkIn.apply (cfg : MetadataConfig) (l : MkSymlinkIn) (md : Metadata) : Metadata :=
  if cfg.hasRename ∧ md.blocks = -1 then { md with renamePath := l.targetPath }
  else { md with targetPath := l.targetPath }

section
variable (cfg : MetadataConfig) (st : MetadataDaemon) (path : List Char)

/-- The entry of a path; the store and the constructor of the entry may throw. Source:
`gkfs::metadata::get` (`metadentry.cpp:39`). -/
def getEntry : Option Metadata × MetadataDaemon :=
  match getImpl cfg st path with
  | (.ok val, st) => (Metadata.parse cfg val, st)
  | (.error _, st) => (none, st)

/-- Read an entry, change it and write it back. -/
def updateEntry (f : Metadata → Metadata) : Int × MetadataDaemon :=
  match getEntry cfg st path with
  | (none, st) => (1, st)
  | (some md, st) => (0, st.updateImpl path path ((f md).serialize cfg))

/-- Source: `rpc_srv_update_metadentry` (`srv_metadata.cpp:362`). -/
def rpcSrvUpdateMetadentry (u : UpdateMetadentryIn) : Int × MetadataDaemon :=
  updateEntry cfg st path u.apply

/-- Source: `rpc_srv_mk_symlink` (`srv_metadata.cpp:853`). -/
def rpcSrvMkSymlink (l : MkSymlinkIn) : Int × MetadataDaemon :=
  updateEntry cfg st path (l.apply cfg)

end

section
variable {cfg : MetadataConfig} {st : MetadataDaemon} {path : List Char} {md : Metadata}

variable (cfg st path) in
theorem getEntry_fst :
    (getEntry cfg st path).1 = st.readEntry cfg path := by
  rw [getEntry, getImpl, readEntry]
  cases ((st.db.cell path).get cfg).2 <;> rfl

variable (cfg st path) in
/-- A read fills the table of append offsets only. -/
theorem getEntry_snd :
    (getEntry cfg st path).2.db = st.db ∧ (getEntry cfg st path).2.storage = st.storage := by
  rw [getEntry, getImpl]
  cases ((st.db.cell path).get cfg).2 <;> exact ⟨rfl, rfl⟩

theorem cell_updateImpl (st : MetadataDaemon) (path path' val : List Char) :
    (st.updateImpl path path val).db.cell path' =
      if path' = path then ⟨some val, []⟩ else st.db.cell path' := by
  rw [updateImpl]
  split
  · next h => rw [h, DB.cell_insert_self]
  · next h => rw [DB.cell_insert_ne h, DB.cell_erase_ne h]

theorem isLong_getD (o : Option Int64) {z : Int} (h : Metadata.IsLong z) :
    Metadata.IsLong ((o.map Int64.toInt).getD z) := by
  cases o with
  | none => exact h
  | some v => exact ⟨Int64.le_toInt v, Int64.toInt_lt v⟩

theorem toNat_getD_lt (o : Option UInt64) {k : Nat} (h : k < 2 ^ 64) :
    (o.map UInt64.toNat).getD k < 2 ^ 64 := by
  cases o with
  | none => exact h
  | some v => exact v.toNat_lt

/-- Setting fields without the size keeps an entry within its types. -/
theorem UpdateMetadentryIn.inRange_apply (u : UpdateMetadentryIn) (hsize : u.size = none)
    (h : md.InRange) : (u.apply md).InRange ∧ (u.apply md).size = md.size := by
  have hkeep : (u.apply md).size = md.size := by rw [UpdateMetadentryIn.apply, hsize]; rfl
  exact ⟨⟨h.mode, hkeep ▸ h.size, isLong_getD _ h.atime, isLong_getD _ h.mtime,
    isLong_getD _ h.ctime, toNat_getD_lt _ h.linkCount, isLong_getD _ h.blocks, h.targetPath,
    h.renamePath⟩, hkeep⟩

/-- Setting fields keeps an entry storable, if its size can be read afterwards. -/
theorem UpdateMetadentryIn.storable_apply (u : UpdateMetadentryIn) (h : md.Storable)
    (hsize : (u.apply md).size < 2 ^ 63) : (u.apply md).Storable :=
  ⟨h.mode, hsize, isLong_getD _ h.atime, isLong_getD _ h.mtime, isLong_getD _ h.ctime,
    toNat_getD_lt _ h.linkCount, isLong_getD _ h.blocks, h.targetPath, h.renamePath, h.separator⟩

theorem MkSymlinkIn.inRange_apply (cfg : MetadataConfig) (l : MkSymlinkIn) (h : md.InRange) :
    (l.apply cfg md).InRange ∧ (l.apply cfg md).size = md.size := by
  rw [MkSymlinkIn.apply]
  split
  · exact ⟨{ h with renamePath := l.isCString }, rfl⟩
  · exact ⟨{ h with targetPath := l.isCString }, rfl⟩

end

/-! ## Requests at the same time -/

/-- A request that changes an entry as a whole and sets no size. -/
inductive EntryUpdate
  | metadentry (u : UpdateMetadentryIn) (noSize : u.size = none)
  | symlink (l : MkSymlinkIn)
  deriving DecidableEq

def EntryUpdate.apply (cfg : MetadataConfig) (md : Metadata) : EntryUpdate → Metadata
  | .metadentry u _ => u.apply md
  | .symlink l => l.apply cfg md

/-- A size update of a write, with the merge id and the time that the daemon draws for it. Source:
`rpc_update_metadentry_size_in_t` (`rpc_types.hpp:72`). -/
structure SizeUpdate where
  size : UInt64
  offset : UInt64
  append : Bool
  mergeId : UInt16
  now : Int64
  deriving DecidableEq

namespace SizeUpdate

variable (w : SizeUpdate)

/-- The operand that is queued first. Source: `increase_size_impl` (`rocksdb_backend.cpp:215`). -/
def operand : MergeOperand :=
  if w.append then .increaseSize w.size.toNat w.mergeId.toNat true
  else .increaseSize (w.offset + w.size).toNat 0 false

/-- The size of a file after the update. -/
def newSize (size : Nat) : Nat :=
  if w.append then size + w.size.toNat else max (w.offset + w.size).toNat size

theorem operand_valid : w.operand.Valid := by
  rw [operand]
  split
  · exact ⟨w.size.toNat_lt, w.mergeId.toNat_lt⟩
  · exact ⟨(w.offset + w.size).toNat_lt, by decide⟩

theorem plain_operand_size (md : Metadata) : (w.operand.plain md).size = w.newSize md.size := by
  rw [operand, newSize]
  cases w.append <;> rfl

end SizeUpdate

/-- Where a handler stands: before its read, with the changed entry before its write, before its
operand is queued, after that, or at its end. -/
inductive EntryThread
  | update (u : EntryUpdate)
  | updating (md : Metadata)
  | resize (w : SizeUpdate)
  | resized (w : SizeUpdate)
  | answered (err : Int)
  deriving DecidableEq

/-- The size update whose operand is queued next. -/
def EntryThread.resize? : EntryThread → Option SizeUpdate
  | .resize w => some w
  | _ => none

/-- Whether a handler has read the entry and not yet written it. -/
def EntryThread.isUpdating : EntryThread → Bool
  | .updating _ => true
  | _ => false

/-- A daemon with the handlers of requests for one path, and the size updates in the order in which
the store has received them. -/
structure EntryState where
  daemon : MetadataDaemon
  threads : List EntryThread
  received : List SizeUpdate

/-- A request arrives, or a handler makes its next access to the store. -/
inductive EntryEvent
  | entryUpdate (u : EntryUpdate)
  | sizeUpdate (w : SizeUpdate)
  | proceed (i : Nat)
  deriving DecidableEq

/-- What follows the first operand of a size update: an append reads the entry, which puts its
offset into the table, and takes the offset; another update queues the time. Source:
`increase_size_impl` (`rocksdb_backend.cpp:215`) in `rpc_srv_update_metadentry_size`
(`srv_metadata.cpp:423`). -/
def resizeRest (cfg : MetadataConfig) (st : MetadataDaemon) (path : List Char) (w : SizeUpdate) :
    Int × MetadataDaemon :=
  if w.append then
    match getImpl cfg st path with
    | (.error .notFound, st) => (ENOENT, st)
    | (.error _, st) => (EBUSY, st)
    | (.ok _, st) =>
      (0, { st with reserve := (AppendOffsetReserve.getAndErase st.reserve w.mergeId.toNat).2 })
  else (0, updateMtime cfg st path w.now)

/-- The operand and the rest make up the handler. -/
theorem resizeRest_merge (cfg : MetadataConfig) (st : MetadataDaemon) (path : List Char)
    (w : SizeUpdate) :
    resizeRest cfg { st with db := st.db.merge path w.operand.serialize } path w =
      ((rpcSrvUpdateMetadentrySize cfg st path w.size w.offset w.append w.mergeId w.now).1.1,
        (rpcSrvUpdateMetadentrySize cfg st path w.size w.offset w.append w.mergeId w.now).2) := by
  rw [resizeRest, rpcSrvUpdateMetadentrySize, increaseSizeImpl, SizeUpdate.operand]
  cases w.append with
  | false => rfl
  | true =>
    simp only [if_true, appendOperand]
    generalize getImpl cfg _ path = r
    obtain ⟨r, st'⟩ := r
    cases r with
    | error e => cases e <;> rfl
    | ok val =>
      dsimp only [AppendOffsetReserve.getAndErase]
      cases st'.reserve w.mergeId.toNat <;> rfl

namespace EntryState

section
variable (cfg : MetadataConfig) (path : List Char) (s : EntryState)

/-- A handler goes on, with what it has made of the daemon. -/
def setThread (i : Nat) (t : EntryThread) (daemon : MetadataDaemon) : EntryState :=
  { s with daemon, threads := s.threads.set i t }

/-- The next access of a handler. -/
def proceed (i : Nat) : Option EntryState :=
  match s.threads[i]? with
  | some (.update u) =>
    let r := getEntry cfg s.daemon path
    match r.1 with
    | none => some (s.setThread i (.answered 1) r.2)
    | some md => some (s.setThread i (.updating (u.apply cfg md)) r.2)
  | some (.updating md) =>
    some (s.setThread i (.answered 0) (s.daemon.updateImpl path path (md.serialize cfg)))
  | some (.resize w) =>
    some { s.setThread i (.resized w)
        { s.daemon with db := s.daemon.db.merge path w.operand.serialize } with
      received := s.received ++ [w] }
  | some (.resized w) =>
    let r := resizeRest cfg s.daemon path w
    some (s.setThread i (.answered r.1) r.2)
  | _ => none

/-- One event, if it can happen. -/
def step : EntryEvent → Option EntryState
  | .entryUpdate u => some { s with threads := s.threads ++ [.update u] }
  | .sizeUpdate w => some { s with threads := s.threads ++ [.resize w] }
  | .proceed i => s.proceed cfg path i

/-- The size of the file is what the size updates make of it, in the order in which the store has
received them. -/
def SizeOk (size : Nat) : Prop :=
  ∃ md, s.daemon.readEntry cfg path = some md ∧
    md.size = s.received.foldl (fun size w => w.newSize size) size

/-- A size update is queued while no handler has read the entry and not yet written it, unless it
does not change the size; and the size it leads to is below `2 ^ 63`. -/
def StepOk : EntryEvent → Prop
  | .proceed i => ∀ w ∈ s.threads[i]?.bind EntryThread.resize?,
    ∀ md ∈ s.daemon.readEntry cfg path,
      w.newSize md.size < 2 ^ 63 ∧
        (w.newSize md.size = md.size ∨ ∀ t ∈ s.threads, t.isUpdating = false)
  | _ => True

instance (e : EntryEvent) : Decidable (s.StepOk cfg path e) :=
  match e with
  | .proceed i => inferInstanceAs
    (Decidable (∀ w ∈ s.threads[i]?.bind EntryThread.resize?, ∀ md ∈ s.daemon.readEntry cfg path,
      _ ∧ (_ ∨ _)))
  | .entryUpdate _ | .sizeUpdate _ => isTrue trivial

end

section
variable {cfg : MetadataConfig} {path : List Char} {s s' : EntryState} {size : Nat}

/-- The cell of the path stands for an entry with the right size, and the handlers that will write
the entry have read this size. -/
structure Inv (cfg : MetadataConfig) (path : List Char) (size : Nat) (s : EntryState)
    (md : Metadata) : Prop where
  holds : (s.daemon.db.cell path).Holds cfg md
  size : md.size = s.received.foldl (fun size w => w.newSize size) size
  updating : ∀ md', .updating md' ∈ s.threads → md'.InRange ∧ md'.size = md.size

variable {md : Metadata}

/-- A handler goes on, where the size of the entry stays. -/
theorem Inv.setThread (h : Inv cfg path size s md) {i : Nat} {t : EntryThread}
    {daemon : MetadataDaemon} {md' : Metadata} (hholds : (daemon.db.cell path).Holds cfg md')
    (hsize : md'.size = md.size)
    (ht : ∀ u, t = .updating u → u.InRange ∧ u.size = md.size) :
    Inv cfg path size (s.setThread i t daemon) md' := by
  refine ⟨hholds, hsize.trans h.size, fun u hu => ?_⟩
  rw [hsize]
  rcases mem_or_eq_of_mem_set hu with hu | hu
  · exact h.updating u hu
  · exact ht u hu.symm

/-- What the rest of a size update leaves of the entry. -/
theorem holds_resizeRest {st : MetadataDaemon} (h : (st.db.cell path).Holds cfg md)
    (w : SizeUpdate) :
    ∃ md', ((resizeRest cfg st path w).2.db.cell path).Holds cfg md' ∧ md'.size = md.size := by
  rw [resizeRest]
  split
  · refine ⟨md, ?_, rfl⟩
    rw [getImpl, h.get]
    exact h
  · obtain ⟨mtime, hholds⟩ := h.setMtime w.now
    exact ⟨_, hholds, rfl⟩

/-- A whole entry that is written. -/
theorem holds_updateImpl (cfg : MetadataConfig) (st : MetadataDaemon) (path : List Char)
    (h : md.InRange) (hsize : md.size < 2 ^ 63) :
    ∃ md', ((st.updateImpl path path (md.serialize cfg)).db.cell path).Holds cfg md' ∧
      md'.size = md.size := by
  obtain ⟨md', hstorable, htext, hsize'⟩ := h.exists_storable cfg hsize
  refine ⟨md', ?_, hsize'⟩
  rw [cell_updateImpl, if_pos rfl, ← htext]
  exact Cell.holds_put hstorable

theorem EntryUpdate.inRange_apply {md : Metadata} (h : md.InRange) (u : EntryUpdate) :
    (u.apply cfg md).InRange ∧ (u.apply cfg md).size = md.size := by
  cases u with
  | metadentry u hu => exact u.inRange_apply hu h
  | symlink l => exact l.inRange_apply cfg h

/-- A request that goes on keeps the invariant. -/
theorem Inv.proceed (h : Inv cfg path size s md) {i : Nat} (hok : s.StepOk cfg path (.proceed i))
    (hs : s.proceed cfg path i = some s') : ∃ md', Inv cfg path size s' md' := by
  have hread := h.holds.readEntry
  have hstorable := h.holds.storable
  rw [EntryState.proceed] at hs
  split at hs
  · next u _ =>
    dsimp only at hs
    rw [getEntry_fst, hread] at hs
    cases hs
    refine ⟨md, h.setThread ?_ rfl fun md' hmd' => ?_⟩
    · rw [(getEntry_snd cfg s.daemon path).1]
      exact h.holds
    · cases hmd'
      exact EntryUpdate.inRange_apply (hstorable.kept cfg).inRange u
  · next md' hi =>
    cases hs
    obtain ⟨hrange, hsize⟩ := h.updating md' (mem_of_getElem? hi)
    obtain ⟨md'', hholds, hsize'⟩ :=
      holds_updateImpl cfg s.daemon path hrange (hsize ▸ hstorable.size)
    exact ⟨md'', h.setThread hholds (hsize'.trans hsize) fun _ ht => by cases ht⟩
  · next w hi =>
    cases hs
    obtain ⟨hlt, hkeep⟩ := hok w (hi ▸ rfl) _ hread
    have hnew := w.plain_operand_size md
    refine ⟨w.operand.plain md, ?_, ?_, fun md' hmd' => ?_⟩
    · show ((DB.merge s.daemon.db path w.operand.serialize).cell path).Holds cfg _
      rw [DB.cell_merge_self]
      exact h.holds.merge w.operand_valid (hnew ▸ hlt)
    · rw [hnew, h.size, foldl_append]
      rfl
    · rcases mem_or_eq_of_mem_set hmd' with hmd' | hmd'
      · rcases hkeep with hkeep | hnone
        · rw [hnew]
          exact ⟨(h.updating md' hmd').1, (h.updating md' hmd').2.trans hkeep.symm⟩
        · exact absurd (hnone _ hmd') (by simp [EntryThread.isUpdating])
      · cases hmd'
  · next w _ =>
    cases hs
    obtain ⟨md', hholds, hsize⟩ := holds_resizeRest h.holds w
    exact ⟨md', h.setThread hholds hsize fun _ ht => by cases ht⟩
  · cases hs

/-- Every event that meets the condition keeps the invariant. -/
theorem Inv.step {e : EntryEvent} (h : Inv cfg path size s md) (hok : s.StepOk cfg path e)
    (hs : s.step cfg path e = some s') : ∃ md', Inv cfg path size s' md' := by
  have harrive : ∀ t, (∀ u, t ≠ .updating u) →
      Inv cfg path size { s with threads := s.threads ++ [t] } md := by
    refine fun t ht => ⟨h.holds, h.size, fun u hu => ?_⟩
    rcases mem_append.1 hu with hu | hu
    · exact h.updating u hu
    · exact absurd (mem_singleton.1 hu).symm (ht u)
  cases e with
  | entryUpdate u =>
    cases hs
    exact ⟨md, harrive _ fun _ ht => by cases ht⟩
  | sizeUpdate w =>
    cases hs
    exact ⟨md, harrive _ fun _ ht => by cases ht⟩
  | proceed i => exact h.proceed hok hs

/-- Before any request. -/
def start (daemon : MetadataDaemon) : EntryState := ⟨daemon, [], []⟩

/-- In every run whose steps meet the condition, no size update is lost. -/
theorem sizeOk_of_run {daemon : MetadataDaemon} {es : List EntryEvent}
    (hholds : (daemon.db.cell path).Holds cfg md)
    (hok : Transition.AllOk (step cfg path) (StepOk cfg path) (start daemon) es)
    (hrun : run (step cfg path) (start daemon) es = some s) :
    s.SizeOk cfg path md.size := by
  have hinit : ∃ md', Inv cfg path md.size (start daemon) md' :=
    ⟨md, hholds, rfl, fun _ h => absurd h not_mem_nil⟩
  obtain ⟨md', h⟩ := run_invariant (I := fun s => ∃ md', Inv cfg path md.size s md')
    (fun _ _ _ ⟨_, h⟩ hok hs => h.step hok hs) hinit hok hrun
  exact ⟨_, h.holds.readEntry, h.size⟩

end

/-- A daemon with an empty file. -/
def emptyFile (cfg : MetadataConfig) : MetadataDaemon where
  db := AList.insert "/f".toList ⟨some ((Metadata.ofMode cfg 0 0o100644).serialize cfg), []⟩ ∅
  reserve := fun _ => none
  storage := ∅

theorem holds_emptyFile (cfg : MetadataConfig) :
    ((emptyFile cfg).db.cell "/f".toList).Holds cfg (Metadata.ofMode cfg 0 0o100644) := by
  rw [emptyFile, DB.cell_insert_self]
  exact Cell.holds_put (Metadata.storable_ofMode cfg (by decide) (by decide))

/-- Set the number of blocks. -/
def setBlocks : EntryUpdate := .metadentry ⟨none, none, some 8, none, none, none⟩ rfl

/-- Make the file a link. -/
def linkTo : EntryUpdate := .symlink ⟨"/g".toList, by decide⟩

/-- The size update of a write of 100 bytes at the start of the file. -/
def write100 : SizeUpdate := ⟨100, 0, false, 0, 7⟩

/-- The size update of an append of 5 bytes. -/
def append5 : SizeUpdate := ⟨5, 0, true, 3, 7⟩

/-- Two updates that overlap each other, and size updates before, between and after them. -/
def overlapping : List EntryEvent :=
  [.sizeUpdate write100, .entryUpdate setBlocks, .entryUpdate linkTo, .sizeUpdate append5,
    .proceed 0, .proceed 1, .proceed 0, .proceed 2, .proceed 2, .proceed 1, .proceed 3, .proceed 3]

theorem sizeOk_of_run_overlapping :
    Transition.AllOk (step allFields "/f".toList)
        (StepOk allFields "/f".toList) (start (emptyFile allFields))
        overlapping ∧
      ∃ s, run (step allFields "/f".toList)
          (start (emptyFile allFields)) overlapping = some s ∧
        s.received = [write100, append5] ∧ s.SizeOk allFields "/f".toList 0 := by
  have hok : Transition.AllOk (step allFields "/f".toList)
      (StepOk allFields "/f".toList) (start (emptyFile allFields))
      overlapping := by decide +kernel
  refine ⟨hok, (run (step allFields "/f".toList)
    (start (emptyFile allFields)) overlapping).get (by decide +kernel),
    (Option.some_get _).symm, by decide +kernel, ?_⟩
  exact sizeOk_of_run (holds_emptyFile _) hok (Option.some_get _).symm

/-- A size update that is queued between the read and the write of another request. -/
def sizeBetween : List EntryEvent :=
  [.entryUpdate setBlocks, .sizeUpdate write100, .proceed 0, .proceed 1, .proceed 0, .proceed 1]

/-- All handlers have answered, the store has received a size update to 100 bytes, and the size of
the file is 0. -/
theorem size_update_lost : ∃ s, run (step allFields "/f".toList)
      (start (emptyFile allFields)) sizeBetween = some s ∧
    s.threads = [.answered 0, .answered 0] ∧ s.received = [write100] ∧
    ¬ s.SizeOk allFields "/f".toList 0 := by
  refine ⟨(run (step allFields "/f".toList)
    (start (emptyFile allFields)) sizeBetween).get (by decide +kernel),
    (Option.some_get _).symm, by decide +kernel, by decide +kernel, ?_⟩
  rintro ⟨md, hread, hsize⟩
  have hlost := congrArg (Option.map Metadata.size) hread
  rw [Option.map_some, hsize] at hlost
  revert hlost
  decide +kernel

end EntryState

end GekkoFS
