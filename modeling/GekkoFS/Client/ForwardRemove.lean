import GekkoFS.Common.Distributor
import GekkoFS.Daemon.MetadataHandler

/-!
# Removing a file

A client removes the metadata entry of a path first, and the answer of the metadata daemon says
whether there is data to remove: the entry is a regular file and its size is not 0. The client then
asks the daemons that can hold a chunk, or all of them. The proxy removes the entry in the same way
and asks all daemons, but it unpacks the answer into its variables in the wrong order and tests the
size as the mode and the mode as the size.

`proxyRemoveOk_iff` says for which answers this makes no difference; for every other regular file
the daemons other than its metadata daemon keep its chunks.
-/

namespace GekkoFS

open Function List

/-- Whether a signed word has the file type bits of a regular file. Source: `S_ISREG` of
`sys/stat.h`, on an `int64_t`. -/
def isRegWord (z : Int) : Bool := isReg (z % 2 ^ 64).toNat

section
variable {n : Nat} (cfg : MetadataConfig) (d : Distributor n) (cl : DaemonCluster n)
  (path : List Char)

/-- The request to the metadata daemon of a copy: its answer, unless that does not arrive, and the
daemons afterwards. Source: `remove_metadata` (`proxy/rpc/forward_metadata.cpp:25`) and
`forward_remove` (`client/rpc/forward_metadata.cpp:147`). -/
def removeMetadata (rmDir : Bool) (copy : Nat) (link : Delivery) :
    Option RmMetadataOut × DaemonCluster n :=
  let host := d.locateFileMetadata path copy
  let r := rpcSrvRemoveMetadata cfg (cl host) path rmDir
  match link with
  | .notPosted => (none, cl)
  | .delivered => (some r.1, update cl host r.2)
  | .replyLost => (none, update cl host r.2)

/-- Ask daemons in turn to remove the chunks of a path, where `link i` is what becomes of the `i`-th
request. The first request that cannot be posted ends the function; otherwise the last error counts.
Source: `remove_data` (`proxy/rpc/forward_metadata.cpp:81`) and `forward_remove`
(`client/rpc/forward_metadata.cpp:182`). -/
def removeDataOn (link : Nat → Delivery) :
    Nat → DaemonCluster n → List (Fin n) → Int × DaemonCluster n
  | _, cl, [] => (0, cl)
  | i, cl, host :: hosts =>
    let served := rpcSrvRemoveData (cl host) path
    let rest := removeDataOn link (i + 1) (update cl host served.2) hosts
    match link i with
    | .notPosted => (EBUSY, cl)
    | .delivered => (if rest.1 ≠ 0 then rest.1 else served.1, rest.2)
    | .replyLost => (if rest.1 ≠ 0 then rest.1 else EBUSY, rest.2)

/-! ## The client -/

/-- The last chunk id that the client looks at, an `uint64_t` of a signed quotient. Source:
`forward_remove` (`client/rpc/forward_metadata.cpp:200`). -/
def removeChnkEnd (out : RmMetadataOut) : Nat := (out.size.tdiv chunksize % 2 ^ 64).toNat

/-- The daemons that the client asks to remove data after an answer of the metadata daemon. For a
small file these are, for each copy of the metadata, its daemon and the daemons of the chunks that
are others. Source: `forward_remove` (`client/rpc/forward_metadata.cpp:176`). -/
def removeTargets (numCopies : Nat) (out : RmMetadataOut) : List (Fin n) :=
  if !isReg out.mode || out.size = 0 then []
  else if removeChnkEnd out < n then
    (copyRange numCopies).flatMap fun copymd =>
      d.locateFileMetadata path copymd ::
        ((List.range (removeChnkEnd out + 1)).flatMap fun chnkId =>
          (copyRange numCopies).map fun copy => d.locateData path chnkId copy).filter
            (· ≠ d.locateFileMetadata path copymd)
  else List.finRange n

/-- The metadata requests of all copies: the answer to the last one, or the error that ended them.
Source: `forward_remove` (`client/rpc/forward_metadata.cpp:145`). -/
def removeMetadataLoop (rmDir : Bool) (link : Nat → Delivery) :
    List Nat → RmMetadataOut → DaemonCluster n → Except Int RmMetadataOut × DaemonCluster n
  | [], last, cl => (.ok last, cl)
  | copy :: copies, _, cl =>
    match removeMetadata cfg d cl path rmDir copy (link copy) with
    | (none, cl) => (.error EBUSY, cl)
    | (some out, cl) =>
      if out.err ≠ 0 then (.error out.err, cl)
      else removeMetadataLoop rmDir link copies out cl

/-- Source: `forward_remove` (`client/rpc/forward_metadata.cpp:138`). -/
def forwardRemove (rmDir : Bool) (numCopies : Nat) (mdLink link : Nat → Delivery) :
    Int × DaemonCluster n :=
  match removeMetadataLoop cfg d path rmDir mdLink (copyRange numCopies) ⟨0, 0, 0⟩ cl with
  | (.error err, cl) => (err, cl)
  | (.ok out, cl) => removeDataOn path link 0 cl (removeTargets d path numCopies out)

/-! ## The proxy -/

/-- The proxy's tuple of error, size and mode. Source: `remove_metadata`
(`proxy/rpc/forward_metadata.cpp:25`). -/
def proxyRemoveMetadata (rmDir : Bool) (link : Delivery) :
    (Int × Int × Nat) × DaemonCluster n :=
  match removeMetadata cfg d cl path rmDir 0 link with
  | (none, cl) => ((EBUSY, 0, 0), cl)
  | (some out, cl) => if out.err ≠ 0 then ((out.err, 0, 0), cl) else ((0, out.size, out.mode), cl)

/-- The daemons that the proxy asks to remove data. The names are those of the source, which binds
the second component of the tuple to `mode` and the third to `size`. Source: `forward_remove`
(`proxy/rpc/forward_metadata.cpp:239`). -/
def proxyRemoveTargets (n : Nat) (tuple : Int × Int × Nat) : List (Fin n) :=
  let mode := tuple.2.1
  let size := tuple.2.2
  if !isRegWord mode || size = 0 then [] else List.finRange n

/-- Source: `forward_remove` (`proxy/rpc/forward_metadata.cpp:239`). -/
def proxyForwardRemove (rmDir : Bool) (mdLink : Delivery) (link : Nat → Delivery) :
    Int × DaemonCluster n :=
  match proxyRemoveMetadata cfg d cl path rmDir mdLink with
  | (tuple, cl) =>
    if tuple.1 ≠ 0 then (tuple.1, cl)
    else removeDataOn path link 0 cl (proxyRemoveTargets n tuple)

/-! ## What the proxy should do -/

/-- The answer of the metadata daemon of a path to its removal. -/
def removeAnswer (rmDir : Bool) : RmMetadataOut :=
  (rpcSrvRemoveMetadata cfg (cl (d.locateFileMetadata path 0)) path rmDir).1

/-- Every chunk file of a path is one of a file of `size` bytes, and lies on the daemon of its
chunk. -/
def ChunksWithin (size : Int) : Prop :=
  ∀ host chnkId bytes, (cl host).storage.file? path chnkId = some bytes →
    (chnkId * chunksize : Int) < size ∧ host = d.locateData path chnkId 0

/-- No daemon holds a chunk file of a path. -/
def NoChunks : Prop := ∀ host chnkId, (cl host).storage.file? path chnkId = none

/-- After an entry was removed, the proxy asks for the removal of data exactly if the client would;
every daemon that holds a chunk of a regular file is asked or is the metadata daemon; and if the
proxy reports success, no daemon keeps a chunk. -/
def ProxyRemoveOk (rmDir : Bool) (mdLink : Delivery) (link : Nat → Delivery) : Prop :=
  let out := removeAnswer cfg d cl path rmDir
  let targets := proxyRemoveTargets n (0, out.size, out.mode)
  out.err = 0 →
    (targets ≠ [] ↔ removeTargets d path 0 out ≠ []) ∧
    (isReg out.mode → ChunksWithin d cl path out.size →
      (∀ host chnkId bytes, (cl host).storage.file? path chnkId = some bytes →
        host ∈ targets ∨ host = d.locateFileMetadata path 0) ∧
      ((proxyForwardRemove cfg d cl path rmDir mdLink link).1 = 0 →
        NoChunks (proxyForwardRemove cfg d cl path rmDir mdLink link).2 path))

end

/-- The swap of mode and size makes no difference: a regular file is empty or its size has the bits
of a regular file's mode, and for any other entry the mode is 0 or the size does not have them. -/
def SwapHarmless (out : RmMetadataOut) : Prop :=
  if isReg out.mode then out.size = 0 ∨ isRegWord out.size
  else out.mode = 0 ∨ ¬ isRegWord out.size

/-! ## Proof -/

section
variable {n : Nat} {cfg : MetadataConfig} {d : Distributor n} {cl : DaemonCluster n}
  {path : List Char} {host : Fin n} {chnkId : Nat} {rmDir : Bool} {mdLink : Delivery}
  {link : Nat → Delivery}

/-- The client asks for the removal of data exactly if the entry is a regular file that is not
empty. -/
theorem removeTargets_ne_nil (d : Distributor n) (path : List Char) (out : RmMetadataOut) :
    removeTargets d path 0 out ≠ [] ↔ isReg out.mode ∧ out.size ≠ 0 := by
  have hn : List.finRange n ≠ [] := fun h => by
    have := mem_finRange (d.locateFileMetadata path 0)
    rw [h] at this
    cases this
  rw [removeTargets]
  split
  · next h =>
    refine ⟨fun hne => absurd rfl hne, fun ⟨h₁, h₂⟩ => ?_⟩
    simp [h₁, h₂] at h
  · next h =>
    have h' : isReg out.mode = true ∧ out.size ≠ 0 := by simpa [not_or] using h
    refine ⟨fun _ => h', fun _ => ?_⟩
    split
    · rw [copyRange_zero, flatMap_cons]
      exact cons_ne_nil _ _
    · exact hn

/-- The proxy asks for it exactly if the size has the bits of a regular file's mode and the mode is
not 0. -/
theorem proxyRemoveTargets_eq (n : Nat) (out : RmMetadataOut) :
    proxyRemoveTargets n (0, out.size, out.mode) =
      if isRegWord out.size ∧ out.mode ≠ 0 then List.finRange n else [] := by
  rw [proxyRemoveTargets]
  by_cases hs : isRegWord out.size <;> by_cases hm : out.mode = 0 <;> simp [hs, hm]

/-- Removing data creates no chunk file. -/
theorem removeDataOn_none (link : Nat → Delivery) (hosts : List (Fin n)) (i : Nat)
    (cl : DaemonCluster n)
    (h : (cl host).storage.file? path chnkId = none) :
    ((removeDataOn path link i cl hosts).2 host).storage.file? path chnkId = none := by
  induction hosts generalizing i cl with
  | nil => exact h
  | cons x xs ih =>
    have hserved : ((update cl x (rpcSrvRemoveData (cl x) path).2) host).storage.file?
        path chnkId = none := by
      by_cases hx : host = x
      · rw [hx, update_self]; exact ChunkStorage.file?_destroyChunkSpace ..
      · rw [update_of_ne hx]; exact h
    rw [removeDataOn]
    cases link i with
    | notPosted => exact h
    | delivered => exact ih _ _ hserved
    | replyLost => exact ih _ _ hserved

/-- A removal of data that succeeds leaves no chunk file on the daemons that were asked. -/
theorem removeDataOn_mem (link : Nat → Delivery) (hosts : List (Fin n)) (i : Nat)
    (cl : DaemonCluster n) (hzero : (removeDataOn path link i cl hosts).1 = 0)
    (hmem : host ∈ hosts) (chnkId : Nat) :
    ((removeDataOn path link i cl hosts).2 host).storage.file? path chnkId = none := by
  have hbusy : (EBUSY : Int) ≠ 0 := by decide
  induction hosts generalizing i cl with
  | nil => cases hmem
  | cons x xs ih =>
    rw [removeDataOn] at hzero ⊢
    -- the rest of the requests succeeds too, and this one is served
    have hrest : (removeDataOn path link (i + 1)
        (update cl x (rpcSrvRemoveData (cl x) path).2) xs).1 = 0 →
        ((removeDataOn path link (i + 1) (update cl x (rpcSrvRemoveData (cl x) path).2)
          xs).2 host).storage.file? path chnkId = none := by
      intro hz
      rcases mem_cons.1 hmem with rfl | hmem
      · refine removeDataOn_none link xs (i + 1) _ ?_
        rw [update_self]
        exact ChunkStorage.file?_destroyChunkSpace ..
      · exact ih _ _ hz hmem
    cases hlink : link i with
    | notPosted => rw [hlink] at hzero; exact absurd hzero hbusy
    | delivered =>
      simp only [hlink] at hzero ⊢
      refine hrest ?_
      by_contra hne
      rw [if_pos hne] at hzero
      exact hne hzero
    | replyLost =>
      simp only [hlink] at hzero ⊢
      refine hrest ?_
      by_contra hne
      rw [if_pos hne] at hzero
      exact hne hzero

/-- Removing a metadata entry leaves the chunk files or removes the directory of the path. -/
theorem rpcSrvRemoveMetadata_storage (cfg : MetadataConfig) (st : MetadataDaemon) (path : List Char)
    (rmDir : Bool) :
    (rpcSrvRemoveMetadata cfg st path rmDir).2.storage = st.storage ∨
      (rpcSrvRemoveMetadata cfg st path rmDir).2.storage = st.storage.destroyChunkSpace path := by
  have hentry : ∀ (st' : MetadataDaemon) md,
      (removeEntry st' path rmDir md).2.storage = st'.storage ∨
        (removeEntry st' path rmDir md).2.storage = st'.storage.destroyChunkSpace path := by
    intro st' md
    rw [removeEntry]
    split
    · exact .inl rfl
    split
    · exact .inl rfl
    dsimp only
    split
    · exact .inr rfl
    · exact .inl rfl
  rw [rpcSrvRemoveMetadata, MetadataDaemon.getImpl]
  cases ((st.db.cell path).get cfg).2 with
  | ok value =>
    dsimp only
    cases Metadata.parse cfg value with
    | none => exact .inl rfl
    | some md => exact hentry _ md
  | error e => cases e <;> exact .inl rfl

/-- Removing a metadata entry creates no chunk file. -/
theorem rpcSrvRemoveMetadata_none (st : MetadataDaemon) (rmDir : Bool)
    (h : st.storage.file? path chnkId = none) :
    (rpcSrvRemoveMetadata cfg st path rmDir).2.storage.file? path chnkId = none := by
  rcases rpcSrvRemoveMetadata_storage cfg st path rmDir with he | he
  · rw [he]; exact h
  · rw [he]; exact ChunkStorage.file?_destroyChunkSpace ..

variable (cfg d cl path rmDir) in
/-- The proxy's tuple if the answer of the metadata daemon arrives. -/
theorem proxyRemoveMetadata_delivered :
    proxyRemoveMetadata cfg d cl path rmDir .delivered =
      (if (removeAnswer cfg d cl path rmDir).err ≠ 0 then
          ((removeAnswer cfg d cl path rmDir).err, 0, 0)
        else (0, (removeAnswer cfg d cl path rmDir).size, (removeAnswer cfg d cl path rmDir).mode),
        update cl (d.locateFileMetadata path 0)
          (rpcSrvRemoveMetadata cfg (cl (d.locateFileMetadata path 0)) path rmDir).2) := by
  by_cases herr : (removeAnswer cfg d cl path rmDir).err = 0
  · rw [if_neg (not_not.2 herr)]
    exact if_neg (not_not.2 herr)
  · rw [if_pos herr]
    exact if_pos herr

/-- The proxy reports success only after the metadata daemon has removed the entry, and then the
result is that of the data removal. -/
theorem proxyForwardRemove_eq
    (hzero : (proxyForwardRemove cfg d cl path rmDir mdLink link).1 = 0) :
    proxyForwardRemove cfg d cl path rmDir mdLink link =
      removeDataOn path link 0
        (update cl (d.locateFileMetadata path 0)
          (rpcSrvRemoveMetadata cfg (cl (d.locateFileMetadata path 0)) path rmDir).2)
        (proxyRemoveTargets n (0, (removeAnswer cfg d cl path rmDir).size,
          (removeAnswer cfg d cl path rmDir).mode)) := by
  have hbusy : (EBUSY : Int) ≠ 0 := by decide
  rw [proxyForwardRemove] at hzero ⊢
  cases mdLink with
  | notPosted => exact absurd hzero hbusy
  | replyLost => exact absurd hzero hbusy
  | delivered =>
    rw [proxyRemoveMetadata_delivered] at hzero ⊢
    by_cases herr : (removeAnswer cfg d cl path rmDir).err = 0
    · simp only [herr, ne_eq, not_true_eq_false, if_false]
    · simp only [ne_eq, herr, not_false_eq_true, if_true] at hzero

/-- After a success of the proxy no daemon keeps a chunk file, if every daemon with one was
asked. -/
theorem noChunks_of_proxyForwardRemove
    (hzero : (proxyForwardRemove cfg d cl path rmDir mdLink link).1 = 0)
    (htold : ∀ host chnkId bytes, (cl host).storage.file? path chnkId = some bytes →
      host ∈ proxyRemoveTargets n
        (0, (removeAnswer cfg d cl path rmDir).size, (removeAnswer cfg d cl path rmDir).mode)) :
    NoChunks (proxyForwardRemove cfg d cl path rmDir mdLink link).2 path := by
  intro host chnkId
  have heq := proxyForwardRemove_eq hzero
  rw [heq] at hzero ⊢
  cases hfile : (cl host).storage.file? path chnkId with
  | some bytes => exact removeDataOn_mem link _ 0 _ hzero (htold host chnkId bytes hfile) chnkId
  | none =>
    refine removeDataOn_none link _ 0 _ ?_
    by_cases hhost : host = d.locateFileMetadata path 0
    · subst hhost
      rw [update_self]
      exact rpcSrvRemoveMetadata_none _ rmDir hfile
    · rw [update_of_ne hhost]
      exact hfile

/-- The proxy asks for the removal of data exactly if the client does, if and only if the swap is
harmless. -/
theorem targets_iff_swapHarmless (d : Distributor n) (path : List Char) (out : RmMetadataOut) :
    (proxyRemoveTargets n (0, out.size, out.mode) ≠ [] ↔ removeTargets d path 0 out ≠ []) ↔
      SwapHarmless out := by
  have hmode : isReg out.mode = true → out.mode ≠ 0 := by
    intro h hzero
    rw [hzero] at h
    exact absurd h (by decide)
  have hsize : isRegWord out.size = true → out.size ≠ 0 := by
    intro h hzero
    rw [hzero] at h
    exact absurd h (by decide)
  have hproxy : proxyRemoveTargets n (0, out.size, out.mode) ≠ [] ↔
      isRegWord out.size = true ∧ out.mode ≠ 0 := by
    rw [proxyRemoveTargets_eq]
    split
    · next h =>
      exact iff_of_true (ne_nil_of_mem (mem_finRange (d.locateFileMetadata path 0))) h
    · next h => exact iff_of_false (fun hne => hne rfl) h
  rw [hproxy, removeTargets_ne_nil, SwapHarmless]
  split
  · next h =>
    rw [and_iff_left (hmode h), and_iff_right h]
    constructor
    · exact fun hiff => or_iff_not_imp_left.2 hiff.2
    · rintro (hzero | hword)
      · exact ⟨hsize, fun hne => absurd hzero hne⟩
      · exact ⟨hsize, fun _ => hword⟩
  · next h =>
    have hno : ¬ (isReg out.mode = true ∧ out.size ≠ 0) := fun hand => h hand.1
    rw [iff_false_right hno, not_and_or, not_ne_iff, or_comm]

/-- The proxy removes the data of a path as it should exactly if the metadata daemon refuses the
removal or reports a mode and a size for which their swap is harmless. -/
theorem proxyRemoveOk_iff (cfg : MetadataConfig) (d : Distributor n) (cl : DaemonCluster n)
    (path : List Char) (rmDir : Bool) (mdLink : Delivery) (link : Nat → Delivery) :
    ProxyRemoveOk cfg d cl path rmDir mdLink link ↔
      ((removeAnswer cfg d cl path rmDir).err = 0 →
        SwapHarmless (removeAnswer cfg d cl path rmDir)) := by
  constructor
  · intro h herr
    exact (targets_iff_swapHarmless d path _).1 (h herr).1
  · intro h herr
    have hswap := h herr
    refine ⟨(targets_iff_swapHarmless d path _).2 hswap, fun hreg hwithin => ?_⟩
    -- a chunk file makes the size positive, so the size has the bits and all daemons are asked
    have htold : ∀ host chnkId bytes, (cl host).storage.file? path chnkId = some bytes →
        host ∈ proxyRemoveTargets n (0, (removeAnswer cfg d cl path rmDir).size,
          (removeAnswer cfg d cl path rmDir).mode) := by
      intro host chnkId bytes hfile
      have hpos := (hwithin host chnkId bytes hfile).1
      have hne : (removeAnswer cfg d cl path rmDir).size ≠ 0 := by
        intro h0
        rw [h0] at hpos
        exact absurd hpos (Int.not_lt.2 (Int.natCast_nonneg (chnkId * chunksize)))
      have hsome := ((targets_iff_swapHarmless d path _).2 hswap).2
        ((removeTargets_ne_nil d path _).2 ⟨hreg, hne⟩)
      rw [proxyRemoveTargets_eq] at hsome ⊢
      split at hsome
      · next hc => rw [if_pos hc]; exact mem_finRange host
      · exact absurd rfl hsome
    exact ⟨fun host chnkId bytes hfile => .inl (htold host chnkId bytes hfile),
      fun hzero => noChunks_of_proxyForwardRemove hzero htold⟩

end

/-! ## A file whose chunks stay -/

/-- Two daemons, of which the first holds all metadata and the second all chunks. -/
def splitDistributor : Distributor 2 := ⟨fun _ _ _ => secondHost, fun _ _ => firstHost⟩

/-- A daemon with an entry for the file `/f` of 5 bytes. -/
def entryDaemon : MetadataDaemon :=
  { db := (∅ : DB).insert "/f".toList ⟨some "33188|5".toList, []⟩
    reserve := fun _ => none
    storage := ∅ }

/-- A daemon with the first chunk of the file `/f`. -/
def chunkDaemon : MetadataDaemon :=
  { db := ∅
    reserve := fun _ => none
    storage := (∅ : ChunkStorage).insert (ChunkStorage.getChunksDir "/f".toList)
      ((∅ : AList fun _ : Nat => List UInt8).insert 0 [1, 2, 3, 4, 5]) }

/-- The two daemons with the entry of `/f` on the first and its chunk on the second. -/
def splitCluster : DaemonCluster 2 := fun host =>
  if host = firstHost then entryDaemon else chunkDaemon

/-- With the entry of a file of 5 bytes on one daemon and its chunk on another, the proxy reports
that it removed the file, and the chunk stays. -/
theorem proxyForwardRemove_keeps_chunk :
    ¬ ProxyRemoveOk .default splitDistributor splitCluster "/f".toList false .delivered
        (fun _ => .delivered) ∧
      (proxyForwardRemove .default splitDistributor splitCluster "/f".toList false .delivered
        fun _ => .delivered).1 = 0 ∧
      ((proxyForwardRemove .default splitDistributor splitCluster "/f".toList false .delivered
        fun _ => .delivered).2 1).storage.file? "/f".toList 0 = some [1, 2, 3, 4, 5] := by
  refine ⟨fun h => ?_, by decide, by decide⟩
  have htargets := (h (by decide)).1.2 ((removeTargets_ne_nil _ _ _).2 (by decide))
  exact htargets (by decide)

end GekkoFS
