import GekkoFS.Daemon.RedistributionItems

/-!
# The invariant of a redistribution

What a daemon still has to move is ahead of it, what it is about to remove has arrived, and no item
is lost or changed (`RedistInv`). As long as the tables of endpoints are right, every forward is
acknowledged and every chunk file is read completely and sent with its bitmap, each event copies an
item to its destination, drops one that has arrived, or changes nothing, so it keeps the invariant
(`RedistInv.step`).
-/

open Migration

namespace GekkoFS

open Function List

/-! ## The invariant -/

section
variable {m n : Nat} (cfg : MetadataConfig) (old : Fin m → Fin n) (dOld : Distributor m)
  (d : Distributor n) (init : DaemonCluster n)

/-- The entries before the expansion, each on its old daemon. -/
def initKeys (key : List Char) : Option (List Char) :=
  init.entries cfg (old (dOld.locateFileMetadata key 0)) key

/-- The chunk files before the expansion, each on its old daemon. -/
def initFiles (file : List Char × Nat) : Option (List UInt8) :=
  init.chunks (old (dOld.locateData (gkfsPath file.1) file.2 0)) file

/-- What an iterator has left to yield are entries from before the expansion. -/
def IterOk (iter : List (List Char × Cell)) : Prop :=
  ∀ p ∈ iter, ∃ md : Metadata, md.Storable ∧ p.2.value? cfg = some (md.serialize cfg) ∧
    (p.1 ≠ rootKey → initKeys cfg old dOld init p.1 = some (md.serialize cfg))

/-- What holds where a daemon stands: what it still has to move is ahead of it, and what it is about
to remove has arrived. -/
def PhaseOk (keys : Holding (Fin n) (List Char) (List Char))
    (files : Holding (Fin n) (List Char × Nat) (List UInt8)) (host : Fin n) : RedistPhase → Prop
  | .idle => True
  | .metadata iter =>
    IterOk cfg old dOld init iter ∧ Ahead (keyDest d) keys host {key | key ∈ iter.map Prod.fst}
  | .removeKey key err iter =>
    (err = 0 ∧ keyDest d key ≠ host ∧ Arrived (keyDest d) keys key) ∧
      IterOk cfg old dOld init iter ∧
      Ahead (keyDest d) keys host (insert key {key | key ∈ iter.map Prod.fst})
  | .data todo => Ahead (keyDest d) keys host ∅ ∧ Ahead (fileDest d) files host {f | f ∈ todo}
  | .removeFile dir chnkId err todo =>
    (err = 0 ∧ fileDest d (dir, chnkId) ≠ host ∧ Arrived (fileDest d) files (dir, chnkId)) ∧
      Ahead (keyDest d) keys host ∅ ∧
      Ahead (fileDest d) files host (insert (dir, chnkId) {f | f ∈ todo})
  | .finished => Ahead (keyDest d) keys host ∅ ∧ Ahead (fileDest d) files host ∅
  | .aborted => False

/-- What holds throughout a redistribution. -/
structure RedistInv (s : RedistState n) : Prop where
  readable : ∀ host key, ((s.daemons host).db.cell key).Readable cfg
  root : ∀ host, (s.daemons host).db.cell rootKey = (init host).db.cell rootKey
  keys : Conserved (initKeys cfg old dOld init) (s.daemons.entries cfg)
  files : Conserved (initFiles old dOld init) s.daemons.chunks
  new : ∀ host, (∀ h, old h ≠ host) → Ahead (keyDest d) (s.daemons.entries cfg) host ∅ ∧
    Ahead (fileDest d) s.daemons.chunks host ∅
  phases : ∀ host, PhaseOk cfg old dOld d init (s.daemons.entries cfg) s.daemons.chunks host
    (s.phase host)

variable {cfg old dOld d init} {host : Fin n} {p : RedistPhase} {s s' : RedistState n}
  {key dir : List Char} {iter : List (List Char × Cell)} {chnkId : Nat}
  {files : List (List Char × Nat)}

/-- A step of any daemon keeps what holds where a daemon stands. -/
theorem PhaseOk.step {keys keys' : Holding (Fin n) (List Char) (List Char)}
    {files files' : Holding (Fin n) (List Char × Nat) (List UInt8)}
    (h : PhaseOk cfg old dOld d init keys files host p)
    (hkeys : Step (keyDest d) (initKeys cfg old dOld init) keys keys')
    (hfiles : Step (fileDest d) (initFiles old dOld init) files files') :
    PhaseOk cfg old dOld d init keys' files' host p := by
  cases p with
  | idle => trivial
  | metadata iter => exact ⟨h.1, h.2.step hkeys⟩
  | removeKey key err iter =>
    obtain ⟨⟨herr, hne, harrived⟩, hiter, hahead⟩ := h
    exact ⟨⟨herr, hne, harrived.step hkeys⟩, hiter, hahead.step hkeys⟩
  | data todo => exact ⟨h.1.step hkeys, h.2.step hfiles⟩
  | removeFile dir chnkId err todo =>
    obtain ⟨⟨herr, hne, harrived⟩, hdone, hahead⟩ := h
    exact ⟨⟨herr, hne, harrived.step hfiles⟩, hdone.step hkeys, hahead.step hfiles⟩
  | finished => exact ⟨h.1.step hkeys, h.2.step hfiles⟩
  | aborted => exact h

/-- An event keeps the invariant if it is a step on the entries and on the chunk files, leaves the
entries readable and the root directory alone, and leaves its daemon where it may stand. -/
theorem RedistInv.of_step (h : RedistInv cfg old dOld d init s)
    (hphase : s'.phase = update s.phase host p)
    (hreadable : ∀ host key, ((s'.daemons host).db.cell key).Readable cfg)
    (hroot : ∀ host, (s'.daemons host).db.cell rootKey = (s.daemons host).db.cell rootKey)
    (hkeys : Step (keyDest d) (initKeys cfg old dOld init) (s.daemons.entries cfg)
      (s'.daemons.entries cfg))
    (hfiles : Step (fileDest d) (initFiles old dOld init) s.daemons.chunks s'.daemons.chunks)
    (hp : PhaseOk cfg old dOld d init (s'.daemons.entries cfg) s'.daemons.chunks host p) :
    RedistInv cfg old dOld d init s' where
  readable := hreadable
  root := fun host => (hroot host).trans (h.root host)
  keys := h.keys.step hkeys
  files := h.files.step hfiles
  new := fun host hnew => ⟨(h.new host hnew).1.step hkeys, (h.new host hnew).2.step hfiles⟩
  phases := fun host' => by
    rw [hphase]
    by_cases heq : host' = host
    · subst heq
      rw [update_self]
      exact hp
    · rw [update_of_ne heq]
      exact (h.phases host').step hkeys hfiles

/-- An event that leaves the metadata stores alone keeps the invariant if it is a step on the chunk
files. -/
theorem RedistInv.of_fileStep (h : RedistInv cfg old dOld d init s)
    (hphase : s'.phase = update s.phase host p)
    (hdb : ∀ host, (s'.daemons host).db = (s.daemons host).db)
    (hfiles : Step (fileDest d) (initFiles old dOld init) s.daemons.chunks s'.daemons.chunks)
    (hp : PhaseOk cfg old dOld d init (s.daemons.entries cfg) s'.daemons.chunks host p) :
    RedistInv cfg old dOld d init s' := by
  have hentries : s'.daemons.entries cfg = s.daemons.entries cfg := entries_congr hdb
  refine h.of_step hphase ?_ (fun host' => by rw [hdb]) ?_ hfiles ?_
  · intro host' key
    rw [hdb]
    exact h.readable host' key
  · rw [hentries]
    exact .stay _
  · rw [hentries]
    exact hp

/-- An event that only moves a daemon on keeps the invariant. -/
theorem RedistInv.setPhase (h : RedistInv cfg old dOld d init s)
    (hp : PhaseOk cfg old dOld d init (s.daemons.entries cfg) s.daemons.chunks host p) :
    RedistInv cfg old dOld d init (s.setPhase host p) :=
  h.of_fileStep rfl (fun _ => rfl) (.stay _) hp

/-! ## The events -/

theorem setOf_mem_cons {α : Type*} (a : α) (l : List α) :
    {x | x ∈ a :: l} = insert a {x | x ∈ l} := Set.ext fun _ => mem_cons

/-- An entry that a daemon holds is stored there. -/
theorem cell_ne_empty_of_entries {cl : DaemonCluster n}
    (h : cl.entries cfg host key ≠ none) :
    key ≠ rootKey ∧ (cl host).db.cell key ≠ Cell.empty := by
  have hroot : key ≠ rootKey := by
    rintro rfl
    exact h (if_pos rfl)
  refine ⟨hroot, fun hempty => h ?_⟩
  rw [entries_of_ne hroot, MetadataDaemon.value?, hempty]
  rfl

section
variable (h : RedistInv cfg old dOld d init s)
include h

/-- A new iterator yields everything that the daemon has to move. -/
theorem RedistInv.expandStart (host : Fin n) :
    RedistInv cfg old dOld d init
      ((s.connect host).setPhase host (.metadata (s.daemons host).db.iterateAll)) := by
  refine h.of_fileStep rfl (fun _ => rfl) (.stay _) ⟨fun p hp => ?_, fun key hkey _ => ?_⟩
  · obtain ⟨hne, hcell⟩ := DB.mem_iterateAll.1 hp
    obtain ⟨md, hmd, hvalue⟩ := h.readable host p.1 hne
    rw [← hcell] at hvalue
    refine ⟨md, hmd, hvalue, fun hroot => h.keys.original host p.1 _ ?_⟩
    rw [entries_of_ne hroot, MetadataDaemon.value?, ← hcell, hvalue]
  · have hne := (cell_ne_empty_of_entries hkey).2
    exact mem_map.2 ⟨(key, (s.daemons host).db.cell key), DB.mem_iterateAll.2 ⟨hne, rfl⟩, rfl⟩

/-- Reading a value changes the table of append offsets only. -/
theorem RedistInv.setReserve (host : Fin n) (reserve : AppendOffsetReserve) :
    RedistInv cfg old dOld d init
      { s with daemons := update s.daemons host { s.daemons host with reserve } } := by
  have hdb := field_update MetadataDaemon.db s.daemons host { s.daemons host with reserve } rfl
  have hstorage :=
    field_update MetadataDaemon.storage s.daemons host { s.daemons host with reserve } rfl
  refine h.of_fileStep (update_eq_self host s.phase).symm hdb ?_ ?_
  · rw [chunks_congr hstorage]
    exact .stay _
  · rw [chunks_congr hstorage]
    exact h.phases host

/-- A forwarded entry that is acknowledged. -/
theorem RedistInv.forwardKey {md : Metadata}
    (hroot : key ≠ rootKey) (hdest : keyDest d key ≠ host) (hmd : md.Storable)
    (hinit : initKeys cfg old dOld init key = some (md.serialize cfg))
    (hiter : IterOk cfg old dOld init iter)
    (hahead : Ahead (keyDest d) (s.daemons.entries cfg) host
      (insert key {key | key ∈ iter.map Prod.fst}))
    (hdaemons : s'.daemons = update s.daemons (keyDest d key)
      ((s.daemons (keyDest d key)).putImpl key (md.serialize cfg)))
    (hphase : s'.phase = update s.phase host (.removeKey key 0 iter)) :
    RedistInv cfg old dOld d init s' := by
  have hentries := entries_putImpl hroot hmd (h.readable (keyDest d key) key) fun v hv => by
    have := h.keys.original _ _ _ hv
    rw [hinit] at this
    exact (Option.some.inj this).symm
  have hcells : ∀ host' key', key' ≠ key →
      (s'.daemons host').db.cell key' = (s.daemons host').db.cell key' := by
    intro host' key' hne
    rw [hdaemons]
    refine field_update (fun st => st.db.cell key') s.daemons (keyDest d key) _ ?_ host'
    exact DB.cell_merge_ne hne ..
  have hchunks := chunks_congr (field_update MetadataDaemon.storage s.daemons (keyDest d key)
    ((s.daemons (keyDest d key)).putImpl key (md.serialize cfg)) rfl)
  rw [← hdaemons] at hentries hchunks
  have hstep : Step (keyDest d) (initKeys cfg old dOld init) (s.daemons.entries cfg)
      (s'.daemons.entries cfg) := by
    rw [hentries]
    exact .copy _ hinit
  refine h.of_step hphase ?_ (fun host' => hcells host' rootKey hroot.symm) hstep ?_ ?_
  · intro host' key'
    by_cases hkey : key' = key
    · subst hkey
      by_cases hhost : host' = keyDest d key'
      · subst hhost
        refine fun _ => ⟨md, hmd, ?_⟩
        have := congrFun (congrFun hentries (keyDest d key')) key'
        rwa [entries_of_ne hroot, put_self] at this
      · have := h.readable host' key'
        rwa [← update_of_ne hhost _ s.daemons, ← hdaemons] at this
    · rw [hcells host' key' hkey]
      exact h.readable host' key'
  · exact hchunks ▸ .stay _
  · refine ⟨⟨rfl, hdest, ?_⟩, hiter, hahead.step hstep⟩
    rw [Arrived, hentries, put_self]
    exact Option.some_ne_none _

/-- The body of the metadata loop, if its forward is acknowledged. -/
theorem RedistInv.migrateKey
    (hends : EndpointsOk s) {c : Cell} (hphase : s.phase host = .metadata ((key, c) :: iter)) :
    RedistInv cfg old dOld d init (s.migrateKey cfg d host .delivered key c iter) := by
  have h₁ := h.setReserve host (AppendOffsetReserve.putAll (s.daemons host).reserve (c.get cfg).1)
  obtain ⟨hiter, hahead⟩ : PhaseOk cfg old dOld d init _ _ host (.metadata ((key, c) :: iter)) :=
    hphase ▸ h₁.phases host
  rw [map_cons, setOf_mem_cons] at hahead
  obtain ⟨md, hmd, hvalue, hinit⟩ := hiter (key, c) mem_cons_self
  have hrest : IterOk cfg old dOld init iter := fun p hp => hiter p (mem_cons_of_mem _ hp)
  have hget : (c.get cfg).2 = .ok (md.serialize cfg) := by
    rw [Cell.value?] at hvalue
    cases hget : (c.get cfg).2 with
    | ok value => rw [hget] at hvalue; exact congrArg _ (Option.some.inj hvalue)
    | error e => rw [hget] at hvalue; cases hvalue
  simp only [RedistState.migrateKey, hget]
  by_cases hroot : key = rootKey
  · rw [if_pos hroot]
    refine h₁.setPhase ⟨hrest, fun i hi hne => (hahead i hi hne).resolve_left ?_⟩
    rintro rfl
    exact (cell_ne_empty_of_entries hi).1 hroot
  rw [if_neg hroot]
  by_cases hdest : d.locateFileMetadata key 0 = host
  · rw [if_pos hdest]
    exact h₁.setPhase ⟨hrest, hahead.skip hdest⟩
  · rw [if_neg hdest, forwardMetadata_delivered _ (hends.endpoint (by simp [hphase]) _)]
    exact h₁.forwardKey hroot hdest hmd (hinit hroot) hrest hahead rfl rfl

/-- The removal of an entry that has arrived. -/
theorem RedistInv.removeKey {err : Int}
    (hphase : s.phase host = .removeKey key err iter) :
    RedistInv cfg old dOld d init ({ s with
      daemons := update s.daemons host ((s.daemons host).removeImpl key) }.setPhase
        host (.metadata iter)) := by
  obtain ⟨⟨-, hdest, harrived⟩, hiter, hahead⟩ : PhaseOk cfg old dOld d init _ _ host
      (.removeKey key err iter) := hphase ▸ h.phases host
  have hroot : key ≠ rootKey := (cell_ne_empty_of_entries harrived).1
  have hcells : ∀ host' key', key' ≠ key →
      ((update s.daemons host ((s.daemons host).removeImpl key)) host').db.cell key' =
        (s.daemons host').db.cell key' := by
    intro host' key' hne
    refine field_update (fun st => st.db.cell key') s.daemons host _ ?_ host'
    exact DB.cell_erase_ne hne ..
  have hchunks := chunks_congr (field_update MetadataDaemon.storage s.daemons host
    ((s.daemons host).removeImpl key) rfl)
  refine h.of_step rfl ?_ (fun host' => hcells host' rootKey hroot.symm) ?_ ?_ ?_
  · intro host' key'
    by_cases hkey : key' = key
    · subst hkey
      by_cases hhost : host' = host
      · subst hhost
        intro hne
        refine absurd ?_ hne
        simp only [RedistState.setPhase, update_self, MetadataDaemon.removeImpl,
          DB.cell_erase_self]
      · have := h.readable host' key'
        rwa [← update_of_ne hhost _ s.daemons] at this
    · have := h.readable host' key'
      rwa [← hcells host' key' hkey] at this
  · show Step _ _ _ (DaemonCluster.entries cfg
      (update s.daemons host ((s.daemons host).removeImpl key)))
    rw [entries_removeImpl]
    exact .drop _ hdest harrived
  · exact hchunks ▸ .stay _
  · refine ⟨hiter, ?_⟩
    exact entries_removeImpl ▸ hahead.drop

end

theorem mem_getAllChunkFiles {st : ChunkStorage}
    (h : st.chunkFile? dir chnkId ≠ none) : (dir, chnkId) ∈ st.getAllChunkFiles := by
  obtain ⟨bytes, hbytes⟩ := Option.ne_none_iff_exists'.1 h
  obtain ⟨files, hlookup, hfile⟩ := Option.bind_eq_some_iff.1 hbytes
  have hdir : dir ∈ st.keys :=
    AList.mem_keys.1 (AList.lookup_isSome.1 (by rw [hlookup]; rfl))
  have hid : chnkId ∈ files.keys :=
    AList.mem_keys.1 (AList.lookup_isSome.1 (by rw [hfile]; rfl))
  refine mem_flatMap.2 ⟨dir, hdir, mem_map.2 ⟨chnkId, ?_, rfl⟩⟩
  rw [hlookup]
  exact hid

section
variable (h : RedistInv cfg old dOld d init s)
include h

/-- A new directory iterator yields everything that the daemon has to move. -/
theorem RedistInv.startData (hphase : s.phase host = .metadata []) :
    RedistInv cfg old dOld d init
      (s.setPhase host (.data (s.daemons host).storage.getAllChunkFiles)) := by
  obtain ⟨-, hahead⟩ : PhaseOk cfg old dOld d init _ _ host (.metadata []) :=
    hphase ▸ h.phases host
  refine h.setPhase ⟨fun key hkey hne => ?_, fun file hfile _ => mem_getAllChunkFiles hfile⟩
  exact (not_mem_nil (hahead key hkey hne)).elim

/-- A chunk file that comes into view. -/
theorem RedistInv.seeFile (hphase : s.phase host = .data files)
    (file : List Char × Nat) :
    RedistInv cfg old dOld d init (s.setPhase host (.data (file :: files))) := by
  obtain ⟨hdone, hahead⟩ : PhaseOk cfg old dOld d init _ _ host (.data files) :=
    hphase ▸ h.phases host
  exact h.setPhase ⟨hdone, hahead.mono fun f hf => mem_cons_of_mem _ hf⟩

/-- A forwarded chunk file that is acknowledged. -/
theorem RedistInv.forwardFile
    {buf : List UInt8} (hdir : '/' ∉ dir) (hdest : fileDest d (dir, chnkId) ≠ host)
    (hinit : initFiles old dOld init (dir, chnkId) = some buf)
    (hdone : Ahead (keyDest d) (s.daemons.entries cfg) host ∅)
    (hahead : Ahead (fileDest d) s.daemons.chunks host
      (insert (dir, chnkId) {f | f ∈ files})) :
    RedistInv cfg old dOld d init { s with
      daemons := update s.daemons (fileDest d (dir, chnkId))
        { s.daemons (fileDest d (dir, chnkId)) with
          storage := ((s.daemons (fileDest d (dir, chnkId))).storage.writeChunk (gkfsPath dir)
            chnkId buf 0).1 }
      phase := update s.phase host (.removeFile dir chnkId 0 files) } := by
  have hchunks := chunks_writeChunk hdir fun v hv => by
    have := h.files.original (fileDest d (dir, chnkId)) (dir, chnkId) v hv
    rw [hinit] at this
    exact (Option.some.inj this).symm
  have hstep : Step (fileDest d) (initFiles old dOld init) s.daemons.chunks
      (put s.daemons.chunks (fileDest d (dir, chnkId)) (dir, chnkId) buf) := .copy _ hinit
  rw [← hchunks] at hstep
  refine h.of_fileStep rfl ?_ hstep ⟨⟨rfl, hdest, ?_⟩, hdone, hahead.step hstep⟩
  · exact field_update MetadataDaemon.db s.daemons _ _ rfl
  · rw [Arrived, hchunks, put_self]
    exact Option.some_ne_none _

/-- The body of the data loop, if the chunk file is read completely and its forward is
acknowledged. -/
theorem RedistInv.migrateFile (hends : EndpointsOk s)
    (hdirs : ∀ file v, initFiles old dOld init file = some v → '/' ∉ file.1)
    (hphase : s.phase host = .data files) {read : ChunkRead}
    (hread : read.apply ((s.daemons host).storage.chunkFile? dir chnkId) =
      (s.daemons host).storage.chunkFile? dir chnkId) :
    RedistInv cfg old dOld d init
      (s.migrateFile d host dir chnkId read oneChunkBitset .delivered
        (files.erase (dir, chnkId))) := by
  obtain ⟨hdone, hall⟩ : PhaseOk cfg old dOld d init _ _ host (.data files) :=
    hphase ▸ h.phases host
  have hahead : Ahead (fileDest d) s.daemons.chunks host
      (insert (dir, chnkId) {f | f ∈ files.erase (dir, chnkId)}) := by
    refine hall.mono fun f hf => ?_
    by_cases heq : f = (dir, chnkId)
    · exact .inl heq
    · exact .inr ((mem_erase_of_ne heq).2 hf)
  rw [RedistState.migrateFile, hread]
  by_cases hdest : d.locateData (gkfsPath dir) chnkId 0 = host
  · rw [if_pos hdest]
    exact h.setPhase ⟨hdone, hahead.skip hdest⟩
  rw [if_neg hdest]
  cases hfile : (s.daemons host).storage.chunkFile? dir chnkId with
  | none =>
    refine h.setPhase ⟨hdone, fun f hf hne => (hahead f hf hne).resolve_left ?_⟩
    rintro rfl
    exact hf hfile
  | some buf =>
    have hinit : initFiles old dOld init (dir, chnkId) = some buf :=
      h.files.original host (dir, chnkId) buf hfile
    dsimp only
    rw [forwardData_delivered _ (hends.endpoint (by simp [hphase]) _)]
    exact h.forwardFile (hdirs _ _ hinit) hdest hinit hdone hahead

/-- The removal of a chunk file that has arrived. -/
theorem RedistInv.removeFile {err : Int}
    (hphase : s.phase host = .removeFile dir chnkId err files) :
    RedistInv cfg old dOld d init ({ s with
      daemons := update s.daemons host { s.daemons host with
        storage := (s.daemons host).storage.removeChunkFile dir chnkId } }.setPhase
          host (.data files)) := by
  obtain ⟨⟨-, hdest, harrived⟩, hdone, hahead⟩ : PhaseOk cfg old dOld d init _ _ host
      (.removeFile dir chnkId err files) := hphase ▸ h.phases host
  refine h.of_fileStep rfl ?_ ?_ ⟨hdone, ?_⟩
  · exact field_update MetadataDaemon.db s.daemons _ _ rfl
  · exact chunks_removeChunkFile ▸ .drop _ hdest harrived
  · exact chunks_removeChunkFile ▸ hahead.drop

end

/-- Every event keeps the invariant, if requests are acknowledged and chunk files are read
completely. -/
theorem RedistInv.step {e : RedistEvent n}
    (hdirs : ∀ file v, initFiles old dOld init file = some v → '/' ∉ file.1)
    (h : RedistInv cfg old dOld d init s) (hends : EndpointsOk s) (hok : s.ForwardOk e)
    (hstep : s.step cfg d e = some s') : RedistInv cfg old dOld d init s' := by
  cases e with
  | expandStart host =>
    simp only [RedistState.step] at hstep
    split at hstep
    · cases hstep
      exact h.expandStart host
    · cases hstep
  | migrateKey host link =>
    obtain rfl : link = .delivered := hok
    simp only [RedistState.step] at hstep
    split at hstep
    · next hphase =>
      cases hstep
      exact h.migrateKey hends hphase
    · cases hstep
  | removeKey host =>
    simp only [RedistState.step] at hstep
    split at hstep
    · next hphase =>
      cases hstep
      exact h.removeKey hphase
    · cases hstep
  | startData host =>
    simp only [RedistState.step] at hstep
    split at hstep
    · next hphase =>
      cases hstep
      exact h.startData hphase
    · cases hstep
  | seeFile host dir chnkId =>
    simp only [RedistState.step] at hstep
    split at hstep
    · next hphase =>
      split at hstep
      · cases hstep
        exact h.seeFile hphase (dir, chnkId)
      · cases hstep
    · cases hstep
  | migrateFile host dir chnkId read wbitset link =>
    obtain ⟨rfl, rfl, hread⟩ := hok
    simp only [RedistState.step] at hstep
    split at hstep
    · next hphase =>
      split at hstep
      · cases hstep
        exact h.migrateFile hends hdirs hphase hread
      · cases hstep
    · cases hstep
  | removeFile host =>
    simp only [RedistState.step] at hstep
    split at hstep
    · next hphase =>
      cases hstep
      exact h.removeFile hphase
    · cases hstep
  | finish host =>
    simp only [RedistState.step] at hstep
    split at hstep
    · next hphase =>
      cases hstep
      obtain ⟨hdone, hahead⟩ : PhaseOk cfg old dOld d init _ _ host (.data []) :=
        hphase ▸ h.phases host
      exact h.setPhase ⟨hdone, fun f hf hne => (not_mem_nil (hahead f hf hne)).elim⟩
    · cases hstep

end

end GekkoFS
