import GekkoFS.Daemon.ChunkNames
import GekkoFS.Lib.Migration

/-!
# The endpoints and the items of a redistribution

A daemon forwards to the endpoint that its table has for a position. As long as no table has the
endpoint of another daemon for a position (`EndpointsOk`), what a daemon forwards goes to its
destination, and every event keeps this (`EndpointsOk.step`).

The entries and the chunk files of the daemons are two collections of items that are moved between
nodes in the sense of `Lib.Migration`. A request of a redistribution stores an item at a daemon or
drops one (`entries_putImpl`, `entries_removeImpl`, `chunks_writeChunk`, `chunks_removeChunkFile`).
-/

open Migration

namespace GekkoFS

open Function List

/-! ## The endpoints -/

section
variable {n : Nat} {cfg : MetadataConfig} {d : Distributor n} {s s' : RedistState n} {host : Fin n}
  {e : RedistEvent n}

/-- Where a daemon enters endpoints, it has those of the positions afterwards. -/
theorem foldl_insertNew (ids : List (Fin n)) (endpoints : Endpoints (Fin n)) (k : Nat) :
    ids.foldl (fun endpoints (id : Fin n) => endpoints.insertNew id id) endpoints k =
      (endpoints k).or (ids.find? fun id : Fin n => (id : Nat) = k) := by
  induction ids generalizing endpoints with
  | nil => exact (Option.or_none ..).symm
  | cons id ids ih =>
    rw [foldl_cons, ih, Endpoints.insertNew_apply, Option.or_assoc]
    by_cases hid : k = id
    · rw [if_pos hid, Option.some_or, find?_cons_of_pos (by simpa using hid.symm)]
    · rw [if_neg hid, Option.none_or, find?_cons_of_neg (by simpa using Ne.symm hid)]

/-- No table has the endpoint of another daemon for a position, and a daemon that has started has an
endpoint for every position. -/
structure EndpointsOk (s : RedistState n) : Prop where
  current : ∀ host id endp, s.endpoints host id = some endp → (endp : Nat) = id
  filled : ∀ host, s.phase host ≠ .idle → ∀ id : Fin n, s.endpoints host id ≠ none

/-- What a daemon that has started forwards goes to its destination. -/
theorem EndpointsOk.endpoint (h : EndpointsOk s) (hphase : s.phase host ≠ .idle)
    (id : Fin n) : s.endpoints host id = some id := by
  obtain ⟨endp, hendp⟩ := Option.ne_none_iff_exists'.1 (h.filled host hphase id)
  rw [hendp, Fin.ext (h.current host id endp hendp)]

/-- The body of the metadata loop moves its daemon on, and keeps the endpoints. -/
theorem migrateKey_frame (host : Fin n) (link : Delivery) (key : List Char) (c : Cell)
    (iter : List (List Char × Cell)) :
    (s.migrateKey cfg d host link key c iter).endpoints = s.endpoints ∧
      ∀ other ≠ host, (s.migrateKey cfg d host link key c iter).phase other = s.phase other := by
  simp only [RedistState.migrateKey, RedistState.setPhase]
  repeat' split
  all_goals exact ⟨rfl, fun _ hne => update_of_ne hne ..⟩

/-- The body of the data loop does, too. -/
theorem migrateFile_frame (host : Fin n) (dir : List Char) (chnkId : Nat) (read : ChunkRead)
    (wbitset : List Char) (link : Delivery) (files : List (List Char × Nat)) :
    (s.migrateFile d host dir chnkId read wbitset link files).endpoints = s.endpoints ∧
      ∀ other ≠ host,
        (s.migrateFile d host dir chnkId read wbitset link files).phase other = s.phase other := by
  simp only [RedistState.migrateFile, RedistState.setPhase]
  repeat' split
  all_goals exact ⟨rfl, fun _ hne => update_of_ne hne ..⟩

/-- An event starts a daemon and enters its endpoints, or moves a daemon on that has started and
keeps all endpoints. -/
theorem RedistState.step_frame (hstep : s.step cfg d e = some s') :
    ∃ host, (s'.endpoints = (s.connect host).endpoints ∨
        s'.endpoints = s.endpoints ∧ s.phase host ≠ .idle) ∧
      ∀ other ≠ host, s'.phase other = s.phase other := by
  cases e with
  | expandStart host =>
    simp only [RedistState.step] at hstep
    split at hstep
    · cases hstep
      exact ⟨host, .inl rfl, fun _ hne => update_of_ne hne ..⟩
    · cases hstep
  | migrateKey host link =>
    simp only [RedistState.step] at hstep
    split at hstep
    · next hphase =>
      cases hstep
      obtain ⟨hends, hother⟩ := @migrateKey_frame n cfg d s host link _ _ _
      exact ⟨host, .inr ⟨hends, by simp [hphase]⟩, hother⟩
    · cases hstep
  | migrateFile host dir chnkId read wbitset link =>
    simp only [RedistState.step] at hstep
    split at hstep
    · next hphase =>
      split at hstep
      · cases hstep
        obtain ⟨hends, hother⟩ := @migrateFile_frame n d s host dir chnkId read wbitset link _
        exact ⟨host, .inr ⟨hends, by simp [hphase]⟩, hother⟩
      · cases hstep
    · cases hstep
  | seeFile host dir chnkId =>
    simp only [RedistState.step] at hstep
    split at hstep
    · next hphase =>
      split at hstep
      · cases hstep
        exact ⟨host, .inr ⟨rfl, by simp [hphase]⟩, fun _ hne => update_of_ne hne ..⟩
      · cases hstep
    · cases hstep
  | removeKey host | startData host | removeFile host | finish host =>
    simp only [RedistState.step] at hstep
    split at hstep
    · next hphase =>
      cases hstep
      exact ⟨host, .inr ⟨rfl, by simp [hphase]⟩, fun _ hne => update_of_ne hne ..⟩
    · cases hstep

/-- Every event keeps the endpoints right. -/
theorem EndpointsOk.step (h : EndpointsOk s)
    (hstep : s.step cfg d e = some s') : EndpointsOk s' := by
  obtain ⟨host, hends, hother⟩ := RedistState.step_frame hstep
  rcases hends with hends | ⟨hends, hphase⟩
  · have happly : ∀ other id, s'.endpoints other id = if other = host then
        (s.endpoints other id).or ((List.finRange n).find? fun k : Fin n => (k : Nat) = id)
        else s.endpoints other id := by
      intro other id
      rw [hends, RedistState.connect]
      dsimp only
      by_cases heq : other = host
      · rw [if_pos heq, heq, update_self, foldl_insertNew]
      · rw [if_neg heq, update_of_ne heq]
    refine ⟨fun other id endp hendp => ?_, fun other hphase id => ?_⟩
    · rw [happly] at hendp
      split at hendp
      · rcases Option.or_eq_some_iff.1 hendp with hold | ⟨-, hnew⟩
        · exact h.current other id endp hold
        · have hid := find?_some hnew
          exact of_decide_eq_true hid
      · exact h.current other id endp hendp
    · rw [happly]
      split
      · rw [Ne, Option.or_eq_none_iff, find?_eq_none, not_and_or]
        exact .inr fun hnone => hnone id (mem_finRange id) (decide_eq_true rfl)
      · next hne => exact h.filled other (hother other hne ▸ hphase) id
  · refine ⟨fun other => hends ▸ h.current other, fun other hmoved => hends ▸ h.filled other ?_⟩
    by_cases heq : other = host
    · exact heq ▸ hphase
    · exact hother other heq ▸ hmoved

/-! ## The items -/

/-- The entries of the daemons except that of the root directory. -/
def DaemonCluster.entries (cfg : MetadataConfig) (cl : DaemonCluster n) :
    Holding (Fin n) (List Char) (List Char) := fun host key =>
  if key = rootKey then none else (cl host).value? cfg key

/-- The chunk files of the daemons. -/
def DaemonCluster.chunks (cl : DaemonCluster n) : Holding (Fin n) (List Char × Nat) (List UInt8) :=
  fun host file => (cl host).storage.chunkFile? file.1 file.2

/-- Where the new distribution places an entry. -/
def keyDest (d : Distributor n) (key : List Char) : Fin n := d.locateFileMetadata key 0

/-- Where the new distribution places a chunk file. -/
def fileDest (d : Distributor n) (file : List Char × Nat) : Fin n :=
  d.locateData (gkfsPath file.1) file.2 0

variable {cfg : MetadataConfig} {cl cl' : DaemonCluster n} {key : List Char} {destId : Fin n}
  {dir : List Char} {chnkId : Nat}

theorem entries_of_ne (h : key ≠ rootKey) (host : Fin n) :
    cl.entries cfg host key = (cl host).value? cfg key := if_neg h

/-- Daemons with the same stores have the same entries. -/
theorem entries_congr (h : ∀ host, (cl' host).db = (cl host).db) :
    cl'.entries cfg = cl.entries cfg := by
  funext host key
  simp only [DaemonCluster.entries, MetadataDaemon.value?, h]

/-- Daemons with the same chunk files have the same chunk files. -/
theorem chunks_congr (h : ∀ host, (cl' host).storage = (cl host).storage) :
    cl'.chunks = cl.chunks := by
  funext host file
  simp only [DaemonCluster.chunks, h]

/-- An update of one daemon that keeps a field of it keeps that field of all. -/
theorem field_update {α : Type*} (field : MetadataDaemon → α) (cl : DaemonCluster n) (host : Fin n)
    (st : MetadataDaemon) (h : field st = field (cl host)) (host' : Fin n) :
    field (update cl host st host') = field (cl host') := by
  by_cases heq : host' = host
  · subst heq
    rw [update_self, h]
  · rw [update_of_ne heq]

/-! ## What the requests do to the items -/

/-- A forwarded entry is at its destination afterwards, and no other entry changes. -/
theorem entries_putImpl {md : Metadata}
    (hroot : key ≠ rootKey) (hmd : md.Storable)
    (hreadable : ((cl destId).db.cell key).Readable cfg)
    (hsame : ∀ v, cl.entries cfg destId key = some v → v = md.serialize cfg) :
    DaemonCluster.entries cfg
        (update cl destId ((cl destId).putImpl key (md.serialize cfg))) =
      put (cl.entries cfg) destId key (md.serialize cfg) := by
  have hcell : ((cl destId).db.cell key) = Cell.empty ∨
      ((cl destId).db.cell key).value? cfg = some (md.serialize cfg) := by
    by_cases hne : (cl destId).db.cell key = Cell.empty
    · exact .inl hne
    · obtain ⟨md', -, hvalue⟩ := hreadable hne
      refine .inr ?_
      rw [hvalue, hsame _ ((entries_of_ne hroot destId).trans hvalue)]
  refine eq_put ?_ ?_
  · rw [entries_of_ne hroot]
    simp only [MetadataDaemon.putImpl, update_self, MetadataDaemon.value?,
      DB.cell_merge_self]
    exact Cell.value?_put hmd hcell
  · intro host key' hother
    simp only [DaemonCluster.entries, MetadataDaemon.putImpl, MetadataDaemon.value?]
    by_cases hhost : host = destId
    · subst hhost
      rw [update_self, DB.cell_merge_ne fun hkey => hother ⟨rfl, hkey⟩]
    · rw [update_of_ne hhost]

/-- A removed entry is gone from its daemon, and no other entry changes. -/
theorem entries_removeImpl :
    DaemonCluster.entries cfg (update cl host ((cl host).removeImpl key)) =
      drop (cl.entries cfg) host key := by
  refine eq_drop ?_ ?_
  · simp only [DaemonCluster.entries, MetadataDaemon.removeImpl, MetadataDaemon.value?,
      update_self, DB.cell_erase_self]
    exact ite_self none
  · intro host' key' hother
    simp only [DaemonCluster.entries, MetadataDaemon.removeImpl, MetadataDaemon.value?]
    by_cases hhost : host' = host
    · subst hhost
      rw [update_self, DB.cell_erase_ne fun hkey => hother ⟨rfl, hkey⟩]
    · rw [update_of_ne hhost]

/-- A forwarded chunk file is at its destination afterwards, and no other chunk file changes. -/
theorem chunks_writeChunk {buf : List UInt8}
    (hdir : '/' ∉ dir) (hsame : ∀ v, cl.chunks destId (dir, chnkId) = some v → v = buf) :
    DaemonCluster.chunks (update cl destId { cl destId with
        storage := ((cl destId).storage.writeChunk (gkfsPath dir) chnkId buf 0).1 }) =
      put cl.chunks destId (dir, chnkId) buf := by
  have hover : Bytes.overwrite 0 (((cl destId).storage.chunkFile? dir chnkId).getD []) 0 buf =
      buf := by
    refine Bytes.overwrite_zero_of_length_le 0 ?_
    cases hold : (cl destId).storage.chunkFile? dir chnkId with
    | none => exact Nat.zero_le _
    | some v =>
      have hv : v = buf := hsame v hold
      exact (congrArg List.length hv).le
  refine eq_put ?_ ?_
  · simp only [DaemonCluster.chunks, update_self, ChunkStorage.chunkFile?_writeChunk,
      getChunksDir_gkfsPath hdir, and_self, if_true, hover]
  · intro host file hother
    simp only [DaemonCluster.chunks]
    by_cases hhost : host = destId
    · subst hhost
      rw [update_self, ChunkStorage.chunkFile?_writeChunk, getChunksDir_gkfsPath hdir,
        if_neg fun hfile => hother ⟨rfl, Prod.ext hfile.1 hfile.2⟩]
    · rw [update_of_ne hhost]

/-- What is left of the chunk files after one has been removed. -/
theorem chunkFile?_removeChunkFile (st : ChunkStorage) (dir : List Char) (chnkId : Nat)
    (dir' : List Char) (id' : Nat) :
    (st.removeChunkFile dir chnkId).chunkFile? dir' id' =
      if dir' = dir ∧ id' = chnkId then none else st.chunkFile? dir' id' := by
  rw [ChunkStorage.removeChunkFile]
  cases hlookup : st.lookup dir with
  | none =>
    dsimp only
    split
    · next h => rw [h.1, ChunkStorage.chunkFile?, hlookup, Option.bind_none]
    · rfl
  | some files =>
    dsimp only
    by_cases hdir : dir' = dir
    · subst hdir
      have hnew : ((files.erase chnkId).lookup id' : Option (List UInt8)) =
          if dir' = dir' ∧ id' = chnkId then none else st.chunkFile? dir' id' := by
        simp only [true_and, ChunkStorage.chunkFile?, hlookup, Option.bind_some]
        split
        · next h => rw [h, AList.lookup_erase]
        · next h => rw [AList.lookup_erase_ne h]
      rw [← hnew]
      split
      · next hempty =>
        rw [ChunkStorage.chunkFile?, AList.lookup_erase, Option.bind_none, eq_comm,
          AList.lookup_eq_none, AList.mem_keys, hempty]
        exact not_mem_nil
      · rw [ChunkStorage.chunkFile?, AList.lookup_insert, Option.bind_some]
    · rw [@if_neg (dir' = dir ∧ id' = chnkId) _ fun h => hdir h.1]
      split
      · rw [ChunkStorage.chunkFile?, AList.lookup_erase_ne hdir, ChunkStorage.chunkFile?]
      · rw [ChunkStorage.chunkFile?, AList.lookup_insert_ne hdir, ChunkStorage.chunkFile?]

/-- A removed chunk file is gone from its daemon, and no other chunk file changes. -/
theorem chunks_removeChunkFile :
    DaemonCluster.chunks (update cl host { cl host with
      storage := (cl host).storage.removeChunkFile dir chnkId }) =
      drop cl.chunks host (dir, chnkId) := by
  refine eq_drop ?_ ?_
  · simp only [DaemonCluster.chunks, update_self, chunkFile?_removeChunkFile, and_self,
      if_true]
  · intro host' file hother
    simp only [DaemonCluster.chunks]
    by_cases hhost : host' = host
    · subst hhost
      rw [update_self, chunkFile?_removeChunkFile,
        if_neg fun hfile => hother ⟨rfl, Prod.ext hfile.1 hfile.2⟩]
    · rw [update_of_ne hhost]

end

end GekkoFS
