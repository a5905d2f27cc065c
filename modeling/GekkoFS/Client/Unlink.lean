import GekkoFS.Client.ForwardRemove
import GekkoFS.Client.Namespace

/-!
# What the removal of a file reaches

The client removes the metadata copies of a path and then asks daemons for its data: those of the
chunks up to the size over the chunk size if they are few, and all of them otherwise. `UnlinkOk`
says that this clears the chunk files of the path on every daemon that has some and leaves those of
the other files alone.

Every daemon with a chunk or a replica is reached (`mem_removeTargets`). The other half depends on
the names of the chunk directories, in which a slash cannot be told from a colon: `unlinkOk_iff`
says that it holds exactly if no other file shares the directory, or there is nothing in it.
-/

namespace GekkoFS

open ChunkStorage Function List MetadataDaemon

section
variable {n : Nat} (cfg : MetadataConfig) (d : Distributor n) (cl : DaemonCluster n)
  (path : CanonicalPath)

/-- Every copy of the metadata is an entry of a regular file of `size` bytes. -/
def IsFile (numCopies size : Nat) : Prop :=
  ∀ copy ≤ numCopies, ∃ md, (cl (d.locateFileMetadata path.text copy)).readEntry cfg path.text =
    some md ∧ isReg md.mode = true ∧ md.size = size

/-- Every chunk file of a path is one of a file of `size` bytes, and lies on the daemon of a copy of
its chunk. -/
def CopiesWithin (numCopies size : Nat) : Prop :=
  ∀ host chnkId, (cl host).storage.file? path.text chnkId ≠ none →
    chnkId * chunksize < size ∧ ∃ copy ≤ numCopies, d.locateData path.text chnkId copy = host

/-- The chunk directory of a path is not that of another path that exists, or has no file in it. -/
def OwnChunksDir : Prop :=
  ∀ other : CanonicalPath, other ≠ path → entryAt cfg d cl other ≠ none →
    getChunksDir other.text = getChunksDir path.text → NoChunks cl path.text

/-- A removal has cleared a path's chunk files on every daemon that had some, and left those of the
other paths that exist. -/
structure UnlinkOk (cl' : DaemonCluster n) : Prop where
  /-- The chunk files of the path are gone. -/
  reaches : NoChunks cl' path.text
  /-- The chunk files of other paths are as they were. -/
  keeps : ∀ other : CanonicalPath, other ≠ path → entryAt cfg d cl other ≠ none →
    ∀ host chnkId, (cl' host).storage.file? other.text chnkId =
      (cl host).storage.file? other.text chnkId

end

/-! ## What a removal can do -/

section
variable {n : Nat} {cfg : MetadataConfig} {d : Distributor n} {cl cl' cl'' : DaemonCluster n}
  {path : List Char} {host : Fin n} {chnkId : Nat} {rmDir : Bool} {link : Nat → Delivery}

/-- What the requests to remove a path do to the daemons: each entry and each chunk directory of the
path is as it was or gone, and the other chunk directories are as they were. -/
structure Removes (cfg : MetadataConfig) (path : List Char) (cl cl' : DaemonCluster n) : Prop where
  entry : ∀ host, (cl' host).readEntry cfg path = (cl host).readEntry cfg path ∨
    (cl' host).readEntry cfg path = none
  own : ∀ host, (cl' host).storage.lookup (getChunksDir path) =
    (cl host).storage.lookup (getChunksDir path) ∨
      (cl' host).storage.lookup (getChunksDir path) = none
  others : ∀ host dir, dir ≠ getChunksDir path →
    (cl' host).storage.lookup dir = (cl host).storage.lookup dir

theorem Removes.refl : Removes cfg path cl cl :=
  ⟨fun _ => .inl rfl, fun _ => .inl rfl, fun _ _ _ => rfl⟩

/-- Removals follow each other. -/
theorem Removes.trans (h : Removes cfg path cl cl') (h' : Removes cfg path cl' cl'') :
    Removes cfg path cl cl'' where
  entry host := (h'.entry host).elim (fun he => he ▸ h.entry host) .inr
  own host := (h'.own host).elim (fun he => he ▸ h.own host) .inr
  others host dir hdir := (h'.others host dir hdir).trans (h.others host dir hdir)

/-- A request that one daemon serves. -/
theorem Removes.update {st : MetadataDaemon}
    (hentry : st.readEntry cfg path = (cl host).readEntry cfg path ∨ st.readEntry cfg path = none)
    (hstorage : st.storage = (cl host).storage ∨
      st.storage = (cl host).storage.destroyChunkSpace path) :
    Removes cfg path cl (update cl host st) := by
  refine ⟨fun x => ?_, fun x => ?_, fun x dir hdir => ?_⟩
  all_goals
    by_cases hx : x = host
    swap
    · simp only [update_of_ne hx, true_or]
    subst hx
    rw [update_self]
  · exact hentry
  · rcases hstorage with hst | hst
    · exact .inl (by rw [hst])
    · exact .inr (by rw [hst, destroyChunkSpace, AList.lookup_erase])
  · rcases hstorage with hst | hst
    · rw [hst]
    · rw [hst, destroyChunkSpace, AList.lookup_erase_ne hdir]

/-- A chunk file of a path with another directory is as it was. -/
theorem Removes.file?_other (h : Removes cfg path cl cl') {other : List Char}
    (hdir : getChunksDir other ≠ getChunksDir path) (host : Fin n) (chnkId : Nat) :
    (cl' host).storage.file? other chnkId = (cl host).storage.file? other chnkId := by
  rw [file?, file?, h.others host _ hdir]

/-- No chunk file is created. -/
theorem Removes.file?_none (h : Removes cfg path cl cl')
    (hnone : (cl host).storage.file? path chnkId = none) :
    (cl' host).storage.file? path chnkId = none := by
  rcases h.own host with he | he
  · rw [file?, he]; exact hnone
  · rw [file?, he]; rfl

/-- The data requests. -/
theorem removes_removeDataOn (cfg : MetadataConfig) (link : Nat → Delivery) (hosts : List (Fin n))
    (i : Nat) (cl : DaemonCluster n) :
    Removes cfg path cl (removeDataOn path link i cl hosts).2 := by
  induction hosts generalizing i cl with
  | nil => exact .refl
  | cons x xs ih =>
    have hserved : Removes cfg path cl (update cl x (rpcSrvRemoveData (cl x) path).2) :=
      .update (.inl (congrFun (readEntry_of_db rfl) path)) (.inr rfl)
    rw [removeDataOn]
    cases link i with
    | notPosted => exact .refl
    | delivered => exact hserved.trans (ih _ _)
    | replyLost => exact hserved.trans (ih _ _)

/-- A metadata request. -/
theorem removes_rpcSrvRemoveMetadata (cfg : MetadataConfig) (cl : DaemonCluster n) (host : Fin n)
    (rmDir : Bool) :
    Removes cfg path cl
      (update cl host (rpcSrvRemoveMetadata cfg (cl host) path rmDir).2) := by
  refine .update ?_ (rpcSrvRemoveMetadata_storage cfg (cl host) path rmDir)
  rcases rpcSrvRemoveMetadata_readEntry cfg (cl host) path rmDir with ⟨-, -, he⟩ | ⟨-, he⟩
  · exact .inr (by rw [he, update_self])
  · exact .inl (by rw [he])

/-- The answer to a removal that succeeds is that of an entry that was there. -/
theorem rpcSrvRemoveMetadata_answer {st : MetadataDaemon} {rmDir : Bool}
    (h : (rpcSrvRemoveMetadata cfg st path rmDir).1.err = 0) :
    ∃ md, st.readEntry cfg path = some md ∧ isDir md.mode = rmDir ∧
      (rpcSrvRemoveMetadata cfg st path rmDir).1 =
        ⟨0, toOff (if isDir md.mode then 0 else md.size), md.mode⟩ := by
  cases hentry : st.readEntry cfg path with
  | none => exact absurd h (rpcSrvRemoveMetadata_unread hentry rmDir)
  | some md =>
    rw [rpcSrvRemoveMetadata_some hentry] at h ⊢
    have hdir := (removeEntry_err _ _ _ _).1 h
    refine ⟨md, rfl, hdir, ?_⟩
    rw [removeEntry, hdir]
    cases rmDir <;> rfl

/-- The metadata requests, if all of them succeed: the answer is that of an entry that was there
before them. -/
theorem removeMetadataLoop_ok :
    ∀ {copies : List Nat} {last out : RmMetadataOut} {cl cl' : DaemonCluster n},
      removeMetadataLoop cfg d path rmDir link copies last cl = (.ok out, cl') →
      Removes cfg path cl cl' ∧ ((copies = [] ∧ out = last) ∨ ∃ copy ∈ copies, ∃ md,
        (cl (d.locateFileMetadata path copy)).readEntry cfg path = some md ∧
          out = ⟨0, toOff (if isDir md.mode then 0 else md.size), md.mode⟩)
  | [], last, out, cl, cl', h => by
    rw [removeMetadataLoop, Prod.mk.injEq, Except.ok.injEq] at h
    exact ⟨h.2 ▸ .refl, .inl ⟨rfl, h.1.symm⟩⟩
  | copy :: copies, last, out, cl, cl', h => by
    rw [removeMetadataLoop] at h
    unfold removeMetadata at h
    have hserved : Removes cfg path cl _ :=
      removes_rpcSrvRemoveMetadata cfg cl (d.locateFileMetadata path copy) rmDir
    have hanswer := @rpcSrvRemoveMetadata_answer cfg path (cl (d.locateFileMetadata path copy))
      rmDir
    cases hlink : link copy with
    | notPosted => simp [hlink] at h
    | replyLost => simp [hlink] at h
    | delivered =>
      simp only [hlink] at h
      split at h
      · simp at h
      · next herr =>
        obtain ⟨hrest, hout⟩ := removeMetadataLoop_ok h
        obtain ⟨md, hmd, -, hr⟩ := hanswer (not_not.1 herr)
        refine ⟨hserved.trans hrest, .inr ?_⟩
        rcases hout with ⟨-, hout⟩ | ⟨copy', hcopy', md', hmd', hout⟩
        · exact ⟨copy, mem_cons_self, md, hmd, hout.trans hr⟩
        · -- an entry that is there after the request was there before it
          refine ⟨copy', mem_cons_of_mem _ hcopy', md', ?_, hout⟩
          rcases hserved.entry (d.locateFileMetadata path copy') with he | he
          · rw [← he]; exact hmd'
          · rw [he] at hmd'; cases hmd'

/-- The metadata requests end with an error code if one of them fails. -/
theorem removeMetadataLoop_error {err : Int} :
    ∀ {copies : List Nat} {last : RmMetadataOut} {cl cl' : DaemonCluster n},
      removeMetadataLoop cfg d path rmDir link copies last cl = (.error err, cl') → err ≠ 0
  | [], last, cl, cl', h => by simp [removeMetadataLoop] at h
  | copy :: copies, last, cl, cl', h => by
    have hbusy : (EBUSY : Int) ≠ 0 := by decide
    rw [removeMetadataLoop] at h
    split at h
    · rw [Prod.mk.injEq, Except.error.injEq] at h
      exact h.1 ▸ hbusy
    · split at h
      · next herr =>
        rw [Prod.mk.injEq, Except.error.injEq] at h
        exact h.1 ▸ herr
      · exact removeMetadataLoop_error h

/-! ## Which daemons are asked -/

/-- The client asks every daemon that has a chunk or a replica of a file. -/
theorem mem_removeTargets {numCopies size copy : Nat} {out : RmMetadataOut}
    (hreg : isReg out.mode = true) (hout : out.size = size) (hsize : size < 2 ^ 63)
    (hchnk : chnkId * chunksize < size) (hcopy : copy ∈ copyRange numCopies) :
    d.locateData path chnkId copy ∈ removeTargets d path numCopies out := by
  have hpos : out.size ≠ 0 := by omega
  have hend : removeChnkEnd out = size / chunksize := by
    have hle := Nat.div_le_self size chunksize
    rw [removeChnkEnd, hout, Int.tdiv_eq_ediv_of_nonneg (Int.natCast_nonneg _),
      ← Int.natCast_ediv, Int.emod_eq_of_lt (Int.natCast_nonneg _) (by omega), Int.toNat_natCast]
  rw [removeTargets, hreg, if_neg (by simpa using hpos)]
  split
  · rw [mem_flatMap]
    refine ⟨0, mem_range.2 (Nat.zero_lt_of_lt (mem_range.1 hcopy)), ?_⟩
    by_cases hhost : d.locateData path chnkId copy = d.locateFileMetadata path 0
    · rw [hhost]
      exact mem_cons_self
    · refine mem_cons_of_mem _ (mem_filter.2 ⟨?_, by simpa using hhost⟩)
      rw [mem_flatMap, hend]
      have hle : chnkId ≤ size / chunksize := (Nat.le_div_iff_mul_le chunksize_pos).2 hchnk.le
      exact ⟨chnkId, mem_range.2 (Nat.lt_succ_of_le hle),
        mem_map.2 ⟨copy, hcopy, rfl⟩⟩
  · exact mem_finRange _

end

/-! ## The theorem -/

variable {n : Nat}

/-- A removal that reports success has cleared the chunk files of the path, and done nothing else to
chunk files. -/
theorem forwardRemove_noChunks {cfg : MetadataConfig} {d : Distributor n}
    {cl : DaemonCluster n} {path : CanonicalPath} {numCopies size : Nat}
    {mdLink link : Nat → Delivery} (hcopies : numCopies < 128)
    (hfile : IsFile cfg d cl path numCopies size) (hsize : size < 2 ^ 63)
    (hwithin : CopiesWithin d cl path numCopies size)
    (hzero : (forwardRemove cfg d cl path.text false numCopies mdLink link).1 = 0) :
    Removes cfg path.text cl (forwardRemove cfg d cl path.text false numCopies mdLink link).2 ∧
      NoChunks (forwardRemove cfg d cl path.text false numCopies mdLink link).2 path.text := by
  have hrange := copyRange_of_lt hcopies
  rw [forwardRemove] at hzero ⊢
  cases hloop : removeMetadataLoop cfg d path.text false mdLink (copyRange numCopies)
      ⟨0, 0, 0⟩ cl with
  | mk result cl₁ =>
    cases result with
    | error err =>
      rw [hloop] at hzero
      exact absurd hzero (removeMetadataLoop_error hloop)
    | ok out =>
      rw [hloop] at hzero
      dsimp only at hzero ⊢
      obtain ⟨hmd, hout⟩ := removeMetadataLoop_ok hloop
      have hremoves := hmd.trans (removes_removeDataOn cfg link
        (removeTargets d path.text numCopies out) 0 cl₁)
      refine ⟨hremoves, fun host chnkId => ?_⟩
      by_cases hhere : (cl host).storage.file? path.text chnkId = none
      · exact hremoves.file?_none hhere
      · obtain ⟨hchnk, copy, hcopy, rfl⟩ := hwithin host chnkId hhere
        refine removeDataOn_mem link _ 0 cl₁ hzero ?_ chnkId
        -- the answer is that of one of the metadata copies, which are all of the file
        obtain ⟨hnil, -⟩ | ⟨copy', hcopy', md, hentry, rfl⟩ := hout
        · simp [hrange] at hnil
        · obtain ⟨md', hentry', hreg, hmdsize⟩ :=
            hfile copy' (Nat.le_of_lt_succ (mem_range.1 (hrange ▸ hcopy')))
          rw [hentry, Option.some.injEq] at hentry'
          subst hentry'
          have hnotdir : isDir md.mode = false := isDir_of_isReg hreg
          refine mem_removeTargets hreg ?_ hsize hchnk
            (hrange ▸ mem_range.2 (Nat.lt_succ_of_le hcopy))
          rw [hnotdir, hmdsize]
          exact if_pos hsize

/-- When the removal of a file with fewer than 128 copies, the number that `num_copies` can hold,
reaches what it should and nothing else. -/
theorem unlinkOk_iff (cfg : MetadataConfig) (d : Distributor n) (cl : DaemonCluster n)
    (path : CanonicalPath) (numCopies size : Nat) (mdLink link : Nat → Delivery)
    (hcopies : numCopies < 128) (hfile : IsFile cfg d cl path numCopies size)
    (hsize : size < 2 ^ 63) (hwithin : CopiesWithin d cl path numCopies size)
    (hzero : (forwardRemove cfg d cl path.text false numCopies mdLink link).1 = 0) :
    UnlinkOk cfg d cl path (forwardRemove cfg d cl path.text false numCopies mdLink link).2 ↔
      OwnChunksDir cfg d cl path := by
  obtain ⟨hremoves, hgone⟩ := forwardRemove_noChunks hcopies hfile hsize hwithin hzero
  generalize (forwardRemove cfg d cl path.text false numCopies mdLink link).2 = cl' at *
  constructor
  · intro h other hne hexists hdir host chnkId
    have hkept := h.keeps other hne hexists host chnkId
    rw [file?, file?, hdir, ← file?, ← file?] at hkept
    rw [← hkept, hgone]
  · refine fun h => ⟨hgone, fun other hne hexists host chnkId => ?_⟩
    by_cases hdir : getChunksDir other.text = getChunksDir path.text
    · have hbefore := h other hne hexists hdir host chnkId
      have hafter := hgone host chnkId
      rw [file?, ← hdir, ← file?] at hbefore hafter
      rw [hbefore, hafter]
    · exact hremoves.file?_other hdir host chnkId

/-- A storage with one chunk file. -/
theorem file?_insert_zero {path : List Char} {bytes : List UInt8} {chnkId : Nat}
    (h : file? ((∅ : ChunkStorage).insert (getChunksDir path) ((∅ : ChunkDir).insert 0 bytes)) path
      chnkId ≠ none) : chnkId = 0 := by
  by_contra hne
  rw [file?, AList.lookup_insert, Option.bind_some, AList.lookup_insert_ne hne] at h
  exact h rfl

/-- The two daemons with the file `/f` hold no other entry. -/
theorem entryAt_splitCluster {other : CanonicalPath} (hne : other.text ≠ "/f".toList) :
    entryAt .default splitDistributor splitCluster other = none := by
  refine readEntry_empty ?_
  change entryDaemon.db.cell other.text = Cell.empty
  rw [entryDaemon, DB.cell_insert_ne hne]
  rfl

/-- The removal of the file `/f` of 5 bytes, whose entry and chunk are on two daemons. -/
theorem unlinkOk_iff_split :
    UnlinkOk .default splitDistributor splitCluster (canonicalForm "/f".toList)
      (forwardRemove .default splitDistributor splitCluster
        (canonicalForm "/f".toList).text false 0 (fun _ => .delivered) fun _ => .delivered).2 := by
  have htext : (canonicalForm "/f".toList).text = "/f".toList := by decide
  refine (unlinkOk_iff .default splitDistributor splitCluster (canonicalForm "/f".toList) 0 5
    (fun _ => .delivered) (fun _ => .delivered) (by decide) (fun copy _ => ?_) (by decide)
    (fun host chnkId hfile => ?_) (by decide +kernel)).2 fun other hne hexists _ => ?_
  · exact ⟨(Metadata.parse .default "33188|5".toList).get (by decide),
      (Option.some_get _).symm, by decide, by decide⟩
  · rcases eq_or_ne host firstHost with rfl | hhost
    · exact absurd rfl hfile
    · rw [splitCluster, if_neg hhost, htext] at hfile
      obtain rfl := file?_insert_zero hfile
      exact ⟨by decide, 0, le_rfl, (Fin.eq_one_of_ne_zero host hhost).symm⟩
  · refine absurd (entryAt_splitCluster fun heq => hne ?_) hexists
    exact CanonicalPath.text_injective (heq.trans htext.symm)

/-- Two daemons, of which the first holds the entries of the files `/a/b` and `/a:b`, and the second
their chunk directory with a chunk file. -/
def colonCluster : DaemonCluster 2 := fun host =>
  if host = firstHost then
    { entryDaemon with
      db := ((∅ : DB).insert "/a/b".toList ⟨some "33188|5".toList, []⟩).insert "/a:b".toList
        ⟨some "33188|5".toList, []⟩ }
  else
    { chunkDaemon with
      storage := (∅ : ChunkStorage).insert (getChunksDir "/a/b".toList)
        ((∅ : ChunkDir).insert 0 [1, 2, 3, 4, 5]) }

/-- The removal of `/a/b` removes the chunk file of `/a:b`. -/
theorem unlink_removes_other_file :
    IsFile .default splitDistributor colonCluster (canonicalForm "/a/b".toList) 0 5 ∧
      CopiesWithin splitDistributor colonCluster (canonicalForm "/a/b".toList) 0 5 ∧
      (forwardRemove .default splitDistributor colonCluster (canonicalForm "/a/b".toList).text
        false 0 (fun _ => .delivered) fun _ => .delivered).1 = 0 ∧
      ¬ UnlinkOk .default splitDistributor colonCluster (canonicalForm "/a/b".toList)
        (forwardRemove .default splitDistributor colonCluster (canonicalForm "/a/b".toList).text
          false 0 (fun _ => .delivered) fun _ => .delivered).2 := by
  have htext : (canonicalForm "/a/b".toList).text = "/a/b".toList := by decide
  refine ⟨fun copy _ => ?_, fun host chnkId hfile => ?_, by decide +kernel, fun h => ?_⟩
  · have hentry : readEntry .default (colonCluster firstHost) "/a/b".toList =
        some ((Metadata.parse .default "33188|5".toList).get (by decide)) := by decide +kernel
    exact ⟨_, htext ▸ hentry, by decide, by decide⟩
  · rcases eq_or_ne host firstHost with rfl | hhost
    · exact absurd rfl hfile
    · rw [colonCluster, if_neg hhost, htext] at hfile
      obtain rfl := file?_insert_zero hfile
      exact ⟨by decide, 0, le_rfl, (Fin.eq_one_of_ne_zero host hhost).symm⟩
  · have hkept := h.keeps (canonicalForm "/a:b".toList) (by decide) (by decide +kernel) secondHost 0
    exact absurd hkept (by decide +kernel)

end GekkoFS
