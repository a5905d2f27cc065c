import GekkoFS.Daemon.RedistributionInvariant

/-!
# What a redistribution keeps

The daemons start with every item on its old daemon, where the invariant holds (`RedistInv.start`).
So nothing is lost in a run, and when the old daemons have finished everything is in its place
(`redistOk_of_run`). A forward that is refused or a chunk file that is read in part is lost
(`redistribution_loses`).
-/

open Migration

namespace GekkoFS

open Function List Transition

/-! ## Runs -/

section
variable {m n : Nat} {cfg : MetadataConfig} {old : Fin m → Fin n} {dOld : Distributor m}
  {d : Distributor n} {init : DaemonCluster n} {host : Fin n} {s : RedistState n}
  {key : List Char} {paths : List (List Char)}

/-- A chunk file from before the expansion is that of a path without colons, and on its old
daemon. -/
theorem Placed.chunk_eq (hplaced : Placed cfg old dOld paths init)
    (hcolon : ∀ path ∈ paths, ':' ∉ path) {file : List Char × Nat} {v : List UInt8}
    (h : init.chunks host file = some v) :
    '/' ∉ file.1 ∧ host = old (dOld.locateData (gkfsPath file.1) file.2 0) := by
  obtain ⟨path, hmem, hdir, hhost⟩ := hplaced.chunk host file.1 file.2 v h
  obtain ⟨rest, rfl⟩ := hplaced.absolute path hmem
  refine ⟨hdir ▸ slash_not_mem_getChunksDir _, ?_⟩
  rw [← hdir, gkfsPath_getChunksDir_iff.2 (hcolon _ hmem)]
  exact hhost

/-- An entry from before the expansion is on its old daemon. -/
theorem Placed.entry_eq (hplaced : Placed cfg old dOld paths init)
    (h : init.entries cfg host key ≠ none) :
    host = old (dOld.locateFileMetadata key 0) := by
  obtain ⟨hroot, hne⟩ := cell_ne_empty_of_entries h
  exact hplaced.entry host key hroot hne

/-- The invariant holds before the expansion. -/
theorem RedistInv.start (hplaced : Placed cfg old dOld paths init)
    (hcolon : ∀ path ∈ paths, ':' ∉ path) (d : Distributor n)
    (endpoints : Fin n → Endpoints (Fin n)) :
    RedistInv cfg old dOld d init (RedistState.start init endpoints) where
  readable := hplaced.readable
  root := fun _ => rfl
  keys := by
    refine ⟨fun host key v hv => ?_, fun key v hv => ⟨_, hv⟩⟩
    rw [initKeys, ← hplaced.entry_eq (Option.ne_none_iff_exists'.2 ⟨v, hv⟩)]
    exact hv
  files := by
    refine ⟨fun host file v hv => ?_, fun file v hv => ⟨_, hv⟩⟩
    rw [initFiles, ← (hplaced.chunk_eq hcolon hv).2]
    exact hv
  new := fun host hnew => by
    constructor
    · intro key hkey _
      exact absurd (hplaced.entry_eq hkey).symm (hnew _)
    · intro file hfile _
      obtain ⟨v, hv⟩ := Option.ne_none_iff_exists'.1 hfile
      exact absurd (hplaced.chunk_eq hcolon hv).2.symm (hnew _)
  phases := fun _ => trivial

/-- When the old daemons have finished, no daemon has anything to move. -/
theorem RedistInv.ahead_of_finished (h : RedistInv cfg old dOld d init s)
    (hdone : ∀ i, s.phase (old i) = .finished) (host : Fin n) :
    Ahead (keyDest d) (s.daemons.entries cfg) host ∅ ∧
      Ahead (fileDest d) s.daemons.chunks host ∅ := by
  by_cases hold : ∃ i, old i = host
  · obtain ⟨i, rfl⟩ := hold
    have hp := h.phases (old i)
    rw [hdone i] at hp
    exact hp
  · exact h.new host fun i hi => hold ⟨i, hi⟩

/-- What the invariant says about the daemons. -/
theorem RedistInv.redistOk (hplaced : Placed cfg old dOld paths init)
    (hcolon : ∀ path ∈ paths, ':' ∉ path) (h : RedistInv cfg old dOld d init s) :
    RedistOk cfg old d paths init s where
  ackedKey := by
    intro host key err iter hphase
    obtain ⟨⟨herr, -, harrived⟩, -⟩ : PhaseOk cfg old dOld d init _ _ host
        (.removeKey key err iter) := hphase ▸ h.phases host
    obtain ⟨v, hinit, hv⟩ := h.keys.of_arrived harrived
    have hroot := (cell_ne_empty_of_entries harrived).1
    rw [initKeys, entries_of_ne hroot] at hinit
    rw [entries_of_ne hroot] at hv
    exact ⟨herr, _, v, hinit, hv⟩
  ackedFile := by
    intro host dir chnkId err files hphase
    obtain ⟨⟨herr, -, harrived⟩, -⟩ : PhaseOk cfg old dOld d init _ _ host
        (.removeFile dir chnkId err files) := hphase ▸ h.phases host
    obtain ⟨v, hinit, hv⟩ := h.files.of_arrived harrived
    exact ⟨herr, _, v, hinit, hv⟩
  keptKey := by
    intro home key value hvalue
    by_cases hroot : key = rootKey
    · subst hroot
      exact ⟨home, by rw [MetadataDaemon.value?, h.root home]; exact hvalue⟩
    · have hinit : initKeys cfg old dOld init key = some value :=
        (RedistInv.start hplaced hcolon d fun _ _ => none).keys.original home key value
          ((entries_of_ne hroot home).trans hvalue)
      obtain ⟨host, hhost⟩ := h.keys.somewhere key value hinit
      exact ⟨host, (entries_of_ne hroot host).symm.trans hhost⟩
  keptFile := by
    intro home dir chnkId bytes hbytes
    exact h.files.somewhere (dir, chnkId) bytes
      ((RedistInv.start hplaced hcolon d fun _ _ => none).files.original home (dir, chnkId) bytes
        hbytes)
  root := fun host => by rw [MetadataDaemon.value?, h.root host]; rfl
  placedKey := by
    intro hdone home key value hroot hvalue
    have hinit : initKeys cfg old dOld init key = some value :=
      (RedistInv.start hplaced hcolon d fun _ _ => none).keys.original home key value
        ((entries_of_ne hroot home).trans hvalue)
    have hat := h.keys.atDest (fun host => (h.ahead_of_finished hdone host).1) hinit
    exact (entries_of_ne hroot _).symm.trans hat
  placedFile := by
    intro hdone path hmem home chnkId bytes hbytes
    obtain ⟨rest, rfl⟩ := hplaced.absolute path hmem
    have hinit := (RedistInv.start hplaced hcolon d fun _ _ => none).files.original home
      (ChunkStorage.getChunksDir ('/' :: rest), chnkId) bytes hbytes
    have hat := h.files.atDest (fun host => (h.ahead_of_finished hdone host).2) hinit
    rw [fileDest, gkfsPath_getChunksDir_iff.2 (hcolon _ hmem)] at hat
    exact hat

/-- If no daemon has the endpoint of another daemon for a position from an earlier expansion, every
forward is acknowledged, every chunk file is read completely and sent with its bitmap, and no path
has a colon, an expansion loses nothing at any time and puts everything in its place. -/
theorem redistOk_of_run (cfg : MetadataConfig) (old : Fin m → Fin n) (dOld : Distributor m)
    (d : Distributor n) (paths : List (List Char)) (init : DaemonCluster n)
    (endpoints : Fin n → Endpoints (Fin n))
    (hplaced : Placed cfg old dOld paths init) (hcolon : ∀ path ∈ paths, ':' ∉ path)
    (hends : ∀ host id endp, endpoints host id = some endp → (endp : Nat) = id)
    (es : List (RedistEvent n)) (s : RedistState n)
    (hok : Transition.AllOk (RedistState.step cfg d) RedistState.ForwardOk
      (RedistState.start init endpoints) es)
    (hrun : run (RedistState.step cfg d) (RedistState.start init endpoints) es =
      some s) :
    RedistOk cfg old d paths init s := by
  have hdirs : ∀ file v, initFiles old dOld init file = some v → '/' ∉ file.1 := fun file v hv =>
    (hplaced.chunk_eq hcolon hv).1
  have hstep : ∀ s e s', (RedistInv cfg old dOld d init s ∧ EndpointsOk s) → s.ForwardOk e →
      s.step cfg d e = some s' → RedistInv cfg old dOld d init s' ∧ EndpointsOk s' :=
    fun _ _ _ hi hok hstep => ⟨hi.1.step hdirs hi.2 hok hstep, hi.2.step hstep⟩
  have hinv := run_invariant hstep
    ⟨RedistInv.start hplaced hcolon d endpoints, hends, fun _ hidle => absurd rfl hidle⟩ hok hrun
  exact hinv.1.redistOk hplaced hcolon

end

/-! ## An expansion from one daemon to two -/

/-- The entry of the root directory. -/
def rootEntry : Metadata := Metadata.ofMode .default 0 0o40755

/-- The entry of a file of 5 bytes. -/
def fileEntry : Metadata := { Metadata.ofMode .default 0 0o100644 with size := 5 }

/-- An old daemon with the file `/f` and a new one, each with the root directory. -/
def oneFileCluster : DaemonCluster 2 := fun host =>
  if host = firstHost then
    { db := ((∅ : DB).insert rootKey ⟨some (rootEntry.serialize .default), []⟩).insert
        "/f".toList ⟨some (fileEntry.serialize .default), []⟩
      reserve := fun _ => none
      storage := (∅ : ChunkStorage).insert "f".toList ((∅ : ChunkDir).insert 0 [1, 2, 3, 4, 5]) }
  else
    { db := (∅ : DB).insert rootKey ⟨some (rootEntry.serialize .default), []⟩
      reserve := fun _ => none
      storage := ∅ }

/-- The old daemon holds everything before the expansion. -/
def allOnFirst : Distributor 1 := ⟨fun _ _ _ => 0, fun _ _ => 0⟩

/-- The new daemon holds everything after it. -/
def allOnSecond : Distributor 2 := ⟨fun _ _ _ => secondHost, fun _ _ => secondHost⟩

theorem readable_insert {cfg : MetadataConfig} {db : DB} (h : ∀ key, (db.cell key).Readable cfg)
    (key : List Char) {md : Metadata} (hmd : md.Storable) (key' : List Char) :
    (DB.cell (db.insert key ⟨some (md.serialize cfg), []⟩) key').Readable cfg := by
  by_cases hkey : key' = key
  · rw [hkey, DB.cell_insert_self]
    exact (CellOk.stored md [] (QueueOk.nil hmd)).readable
  · rw [DB.cell_insert_ne hkey]
    exact h key'

/-- Everything is where it should be before. -/
theorem placed_oneFileCluster :
    Placed .default (fun _ => 0) allOnFirst ["/f".toList] oneFileCluster where
  readable := by
    have hroot : rootEntry.Storable := Metadata.storable_ofMode _ (by decide) (by decide)
    have hfile : fileEntry.Storable :=
      { Metadata.storable_ofMode .default (show Metadata.IsLong 0 by decide)
          (show 0o100644 < 2 ^ 32 by decide) with
        size := show 5 < 2 ^ 63 by decide }
    have hempty : ∀ key, (DB.cell ∅ key).Readable .default := fun _ hne => absurd rfl hne
    intro host key
    by_cases hhost : host = 0
    · rw [oneFileCluster, if_pos hhost]
      exact readable_insert (readable_insert hempty rootKey hroot) _ hfile key
    · rw [oneFileCluster, if_neg hhost]
      exact readable_insert hempty rootKey hroot key
  entry := by
    intro host key hroot hcell
    by_contra hhost
    rw [oneFileCluster, if_neg hhost, DB.cell_insert_ne hroot] at hcell
    exact hcell rfl
  absolute := by
    intro path hmem
    exact ⟨['f'], mem_singleton.1 hmem⟩
  chunk := by
    intro host dir chnkId bytes hbytes
    by_cases hhost : host = 0
    · refine ⟨_, mem_singleton_self _, ?_, hhost⟩
      rw [oneFileCluster, if_pos hhost] at hbytes
      by_contra hdir
      have hne : dir ≠ "f".toList := fun heq => hdir (by rw [heq]; decide)
      rw [ChunkStorage.chunkFile?, AList.lookup_insert_ne hne] at hbytes
      cases hbytes
    · rw [oneFileCluster, if_neg hhost] at hbytes
      cases hbytes

/-- The events of an expansion in which the entry and the chunk of `/f` move to the new daemon. -/
def oneFileEvents : List (RedistEvent 2) :=
  [.expandStart firstHost, .migrateKey firstHost .delivered, .migrateKey firstHost .delivered,
    .removeKey firstHost, .startData firstHost,
    .migrateFile firstHost "f".toList 0 (.bytes 5) oneChunkBitset .delivered, .removeFile firstHost,
    .finish firstHost]

/-- The expansion of one file runs to its end, and loses nothing. -/
theorem redistOk_of_run_oneFile :
    ∃ s, run (RedistState.step .default allOnSecond)
        (RedistState.start oneFileCluster fun _ _ => none) oneFileEvents = some s ∧
      s.phase 0 = .finished ∧
      RedistOk .default (fun _ : Fin 1 => 0) allOnSecond ["/f".toList] oneFileCluster s := by
  refine ⟨(run (RedistState.step .default allOnSecond)
    (RedistState.start oneFileCluster fun _ _ => none) oneFileEvents).get (by decide),
    (Option.some_get _).symm, by decide, ?_⟩
  exact redistOk_of_run .default (fun _ => 0) allOnFirst allOnSecond ["/f".toList] oneFileCluster
    _ placed_oneFileCluster (by decide) (fun _ _ _ h => by cases h) oneFileEvents _ (by decide)
    (Option.some_get _).symm

/-- A forward of the entry that cannot be posted. -/
def lostKeyEvents : List (RedistEvent 2) :=
  [.expandStart firstHost, .migrateKey firstHost .delivered, .migrateKey firstHost .notPosted,
    .removeKey firstHost]

/-- A chunk file of which only the first two bytes are read. -/
def shortReadEvents : List (RedistEvent 2) :=
  [.expandStart firstHost, .migrateKey firstHost .delivered, .migrateKey firstHost .delivered,
    .removeKey firstHost, .startData firstHost,
    .migrateFile firstHost "f".toList 0 (.bytes 2) oneChunkBitset .delivered, .removeFile firstHost,
    .finish firstHost]

/-- An entry whose forward fails is removed all the same and is on no daemon afterwards; and of a
chunk file that is read short only what was read is left. -/
theorem redistribution_loses :
    (∃ s, run (RedistState.step .default allOnSecond)
        (RedistState.start oneFileCluster fun _ _ => none) lostKeyEvents = some s ∧
      (∀ host, (s.daemons host).value? .default "/f".toList = none) ∧
      ¬ RedistOk .default (fun _ : Fin 1 => 0) allOnSecond ["/f".toList] oneFileCluster s) ∧
    ∃ s, run (RedistState.step .default allOnSecond)
        (RedistState.start oneFileCluster fun _ _ => none) shortReadEvents = some s ∧
      (∀ host, (s.daemons host).storage.chunkFile? "f".toList 0 ≠ some [1, 2, 3, 4, 5]) ∧
      ¬ RedistOk .default (fun _ : Fin 1 => 0) allOnSecond ["/f".toList] oneFileCluster s := by
  constructor
  · refine ⟨(run (RedistState.step .default allOnSecond)
      (RedistState.start oneFileCluster fun _ _ => none) lostKeyEvents).get (by decide),
      (Option.some_get _).symm, by decide, fun h => ?_⟩
    obtain ⟨host, hhost⟩ := h.keptKey 0 "/f".toList (fileEntry.serialize .default) (by decide)
    revert host
    decide
  · refine ⟨(run (RedistState.step .default allOnSecond)
      (RedistState.start oneFileCluster fun _ _ => none) shortReadEvents).get (by decide),
      (Option.some_get _).symm, by decide, fun h => ?_⟩
    obtain ⟨host, hhost⟩ := h.keptFile 0 "f".toList 0 [1, 2, 3, 4, 5] (by decide)
    revert host
    decide

end GekkoFS
