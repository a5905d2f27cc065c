import GekkoFS.Client.ForwardRemove
import GekkoFS.Common.CanonicalPath
import GekkoFS.Daemon.DirectoryListing

/-!
# Creating and removing entries

The functions of the client that create files and directories, look them up and remove them, with
the requests they send. Every request is delivered and answered here, there is no replication, and
`GKFS_CREATE_CHECK_PARENTS` is on. A function returns the error code that the source leaves in
`errno`, or 0.

`entryAt` is the entry of a path on its metadata daemon. For each function there is a lemma that
says what it does to the entries of all paths.
-/

namespace GekkoFS

open Function List Separated

/-! ## Paths and modes -/

/-- The path up to its last slash. Source: `dirname` (`path_util.cpp:161`). -/
def dirname (path : List Char) : List Char :=
  let parentPathSize := (path.reverse.dropWhile (· ≠ '/')).length - 1
  path.take (if parentPathSize = 0 then 1 else parentPathSize)

/-- The mode of a new entry, which is that of a regular file or of a directory. Source:
`gkfs_create` (`gkfs_functions.cpp:285`). -/
def createMode (mode : UInt32) : Except Nat UInt32 :=
  if fileType mode.toNat = 0 then .ok (mode ||| 0x8000)
  else if fileType mode.toNat = 0x8000 ∨ fileType mode.toNat = 0x4000 then .ok mode
  else if fileType mode.toNat ∈ [0x2000, 0x6000, 0x1000, 0xC000] then .error ENOTSUP
  else .error EINVAL

/-- A mode that is not taken leaves an error code. -/
theorem createMode_error {mode : UInt32} {err : Nat} (h : createMode mode = .error err) :
    (err : Int) ≠ 0 := by
  have hnotsup : (ENOTSUP : Int) ≠ 0 := by decide
  have hinval : (EINVAL : Int) ≠ 0 := by decide
  rw [createMode] at h
  split at h
  · cases h
  · split at h
    · cases h
    · split at h
      · cases h
        exact hnotsup
      · cases h
        exact hinval

/-- The size of the client's buffer for a listing. Source: `dirents_buff_size`
(`config.hpp:152`). -/
def direntsBuffSize : Nat := 8 * 1024 * 1024

section
variable {n : Nat} (cfg : MetadataConfig) (d : Distributor n) (cl : DaemonCluster n)
  (path : List Char)

/-! ## Requests -/

/-- Source: `forward_stat` (`client/rpc/forward_metadata.cpp:93`). -/
def forwardStat : (Int × List Char) × DaemonCluster n :=
  let host := d.locateFileMetadata path 0
  let r := rpcSrvStat cfg (cl host) path
  (r.1, update cl host r.2)

/-- Source: `forward_create` (`client/rpc/forward_metadata.cpp:58`). -/
def forwardCreate (mode : UInt32) (now : Int64) : Int × DaemonCluster n :=
  let host := d.locateFileMetadata path 0
  let r := rpcSrvCreate cfg (cl host) path mode now
  (r.1, update cl host r.2)

/-- Ask daemons in turn for their entries below a path: the last error, and all entries. -/
def getDirentsOn :
    DaemonCluster n → List (Fin n) → (Int × List (List Char × Bool)) × DaemonCluster n
  | cl, [] => ((0, []), cl)
  | cl, host :: hosts =>
    let served := rpcSrvGetDirents cfg (cl host) path (direntsBuffSize / n)
    let rest := getDirentsOn (update cl host served.2) hosts
    ((if rest.1.1 ≠ 0 then rest.1.1 else served.1.1, served.1.2 ++ rest.1.2), rest.2)

/-- Source: `forward_get_dirents` (`client/rpc/forward_metadata.cpp:636`). -/
def forwardGetDirents : (Int × List (List Char × Bool)) × DaemonCluster n :=
  getDirentsOn cfg path cl (List.finRange n)

/-! ## Functions of the client -/

/-- An entry that cannot be parsed makes the client throw, which nothing catches. Source:
`get_metadata` (`preload_util.cpp:211`), without following links. -/
def getMetadata : Except Int Metadata × DaemonCluster n :=
  match forwardStat cfg d cl path with
  | ((err, attr), cl) =>
    if err ≠ 0 then (.error err, cl)
    else
      match Metadata.parse cfg attr with
      | none => (.error EIO, cl)
      | some md => (.ok md, cl)

/-- Source: `check_parent_dir` (`gkfs_functions.cpp:106`). -/
def checkParentDir : Int × DaemonCluster n :=
  match getMetadata cfg d cl (dirname path) with
  | (.error err, cl) => (err, cl)
  | (.ok md, cl) => if isDir md.mode then (0, cl) else (ENOTDIR, cl)

/-- Source: `gkfs_create` (`gkfs_functions.cpp:283`). -/
def gkfsCreate (mode : UInt32) (now : Int64) : Int × DaemonCluster n :=
  match createMode mode with
  | .error err => (err, cl)
  | .ok mode =>
    match checkParentDir cfg d cl path with
    | (err, cl) => if err ≠ 0 then (err, cl) else forwardCreate cfg d cl path mode now

/-- Source: `gkfs_remove` (`gkfs_functions.cpp:343`), without renames. -/
def gkfsRemove : Int × DaemonCluster n :=
  forwardRemove cfg d cl path false 0 (fun _ => .delivered) fun _ => .delivered

/-- Source: `gkfs_rmdir` (`gkfs_functions.cpp:1410`). -/
def gkfsRmdir : Int × DaemonCluster n :=
  match getMetadata cfg d cl path with
  | (.error err, cl) => (err, cl)
  | (.ok _, cl) =>
    match forwardGetDirents cfg cl path with
    | ((err, openDir), cl) =>
      if err ≠ 0 then (err, cl)
      else if openDir ≠ [] then (ENOTEMPTY, cl)
      else forwardRemove cfg d cl path true 0 (fun _ => .delivered) fun _ => .delivered

end

/-! ## The last name of a path -/

namespace CanonicalPath

variable {p : CanonicalPath}

/-- A path other than the root is a name below its parent. -/
theorem exists_names_eq (h : p ≠ root) :
    ∃ name, IsName name ∧ p.names = p.parent.names ++ [name] := by
  have hne : p.names ≠ [] := fun hnil => h (CanonicalPath.ext hnil)
  exact ⟨p.names.getLast hne, p.isName _ (getLast_mem hne),
    (dropLast_append_getLast hne).symm⟩

theorem render_names {name : List Char}
    (h : p.names = p.parent.names ++ [name]) :
    p.text = render '/' p.parent.names ++ '/' :: name := by
  have hroot : p ≠ root := by
    rintro rfl
    exact absurd h.symm (append_ne_nil_of_right_ne_nil _ (cons_ne_nil name []))
  rw [text_eq_render hroot, h, render_append, render_cons,
    render_nil, append_nil]

/-- The directory of a path is its parent. -/
theorem dirname_text (p : CanonicalPath) : dirname p.text = p.parent.text := by
  by_cases hroot : p = root
  · rw [hroot]
    rfl
  · obtain ⟨name, hname, hnames⟩ := exists_names_eq hroot
    have hall : ∀ c ∈ name.reverse, decide (c ≠ '/') = true := fun c hc =>
      decide_eq_true fun heq : c = '/' => hname.2.1 (heq ▸ mem_reverse.1 hc)
    have hdrop : p.text.reverse.dropWhile (· ≠ '/') =
        '/' :: (render '/' p.parent.names).reverse := by
      rw [render_names hnames, reverse_append, reverse_cons, append_assoc,
        dropWhile_append_of_pos hall, singleton_append,
        dropWhile_cons_of_neg (by decide)]
    rw [dirname, hdrop, length_cons, Nat.add_sub_cancel, length_reverse,
      render_names hnames]
    by_cases hparent : p.parent = root
    · rw [hparent]
      rfl
    · have hlength : (render '/' p.parent.names).length ≠ 0 := fun hzero =>
        hparent (CanonicalPath.ext
          (render_eq_nil_iff.1 (length_eq_zero_iff.1 hzero)))
      rw [if_neg hlength, take_left, text_eq_render hparent]

/-- A path other than the root does not end in a slash. -/
theorem direntsRoot_text (h : p ≠ root) :
    direntsRoot p.text = p.text ++ ['/'] := by
  obtain ⟨name, hname, hnames⟩ := exists_names_eq h
  rw [direntsRoot, if_pos]
  rw [render_names hnames]
  constructor
  · rw [getLast?_append_of_ne_nil _ (cons_ne_nil _ _),
      getLast?_cons_of_ne_nil hname.1]
    intro hlast
    exact hname.2.1 (mem_of_getLast? hlast)
  · have := length_pos_of_ne_nil hname.1
    rw [length_append, length_cons]
    omega

/-- A path other than the root is what its parent is listed with, and a name. -/
theorem text_eq_direntsRoot {name : List Char}
    (h : p.names = p.parent.names ++ [name]) : p.text = direntsRoot p.parent.text ++ name := by
  rw [render_names h]
  by_cases hparent : p.parent = root
  · rw [hparent]
    rfl
  · rw [direntsRoot_text hparent, text_eq_render hparent, append_assoc,
      singleton_append]

end CanonicalPath

/-! ## What the functions do to the entries -/

section
variable {n : Nat} {cfg : MetadataConfig} {d : Distributor n} {cl cl' : DaemonCluster n}
  {path : List Char} {p : CanonicalPath} {st : MetadataDaemon} {host : Fin n}

/-- The entry of a path on its metadata daemon. -/
def entryAt (cfg : MetadataConfig) (d : Distributor n) (cl : DaemonCluster n)
    (p : CanonicalPath) : Option Metadata :=
  (cl (d.locateFileMetadata p.text 0)).readEntry cfg p.text

theorem entryAt_of_db (h : ∀ host, (cl' host).db = (cl host).db) :
    entryAt cfg d cl' = entryAt cfg d cl :=
  funext fun p => by rw [entryAt, entryAt, readEntry_of_db (h _)]

/-- A request to the metadata daemon of a path that changes at most the entry of the path. -/
theorem entryAt_update {e : Option Metadata}
    (h : st.readEntry cfg =
      update ((cl (d.locateFileMetadata p.text 0)).readEntry cfg) p.text e) :
    entryAt cfg d (update cl (d.locateFileMetadata p.text 0) st) =
      update (entryAt cfg d cl) p e := by
  funext q
  by_cases hq : q = p
  · rw [hq, entryAt, update_self, h, update_self, update_self]
  · rw [update_of_ne hq, entryAt, entryAt]
    by_cases hhost : d.locateFileMetadata q.text 0 = d.locateFileMetadata p.text 0
    · rw [hhost, update_self, h,
        update_of_ne fun htext => hq (CanonicalPath.text_injective htext)]
    · rw [update_of_ne hhost]

theorem entryAt_unchanged (h : st.readEntry cfg = (cl host).readEntry cfg) :
    entryAt cfg d (update cl host st) = entryAt cfg d cl := by
  funext q
  rw [entryAt, entryAt]
  by_cases hhost : d.locateFileMetadata q.text 0 = host
  · rw [hhost, update_self, h]
  · rw [update_of_ne hhost]

theorem update_db (h : st.db = (cl host).db) (host' : Fin n) :
    (update cl host st host').db = (cl host').db := by
  by_cases hhost : host' = host
  · rw [hhost, update_self, h]
  · rw [update_of_ne hhost]

/-! ### Reading -/

variable (cfg d cl path host) in
/-- Reading an entry leaves the stores alone. -/
theorem getMetadata_db :
    ((getMetadata cfg d cl path).2 host).db = (cl host).db := by
  have hstat := update_db (rpcSrvStat_db cfg (cl (d.locateFileMetadata path 0)) path) host
  rw [getMetadata, forwardStat]
  dsimp only
  split
  · exact hstat
  · cases Metadata.parse cfg _ with
    | none => exact hstat
    | some md => exact hstat

/-- An entry on the metadata daemon is read. -/
theorem getMetadata_some {md : Metadata}
    (h : (cl (d.locateFileMetadata path 0)).readEntry cfg path = some md) :
    (getMetadata cfg d cl path).1 = .ok md := by
  obtain ⟨val, hget, hparse⟩ := readEntry_eq_some h
  rw [getMetadata, forwardStat, rpcSrvStat, MetadataDaemon.getImpl, hget]
  simp only [ne_eq, not_true_eq_false, if_false, hparse]

/-- Without an entry on the metadata daemon the client gets an error. -/
theorem getMetadata_none (h : (cl (d.locateFileMetadata path 0)).readEntry cfg path = none) :
    ∃ err, err ≠ 0 ∧ (getMetadata cfg d cl path).1 = .error err := by
  have hio : ( EIO : Int) ≠ 0 := by decide
  have hnoent : (ENOENT : Int) ≠ 0 := by decide
  have hbusy : (EBUSY : Int) ≠ 0 := by decide
  rw [MetadataDaemon.readEntry] at h
  rw [getMetadata, forwardStat, rpcSrvStat, MetadataDaemon.getImpl]
  cases hget : (((cl (d.locateFileMetadata path 0)).db.cell path).get cfg).2 with
  | error e =>
    cases e with
    | notFound => exact ⟨ENOENT, hnoent, by simp only [if_pos hnoent]⟩
    | «exists» => exact ⟨EBUSY, hbusy, by simp only [if_pos hbusy]⟩
    | other => exact ⟨EBUSY, hbusy, by simp only [if_pos hbusy]⟩
  | ok val =>
    rw [hget] at h
    exact ⟨ EIO, hio, by simp only [ne_eq, not_true_eq_false, if_false, h]⟩

variable (cfg d cl path) in
/-- The check of the parent only looks it up. -/
theorem checkParentDir_snd :
    (checkParentDir cfg d cl path).2 = (getMetadata cfg d cl (dirname path)).2 := by
  rw [checkParentDir]
  generalize getMetadata cfg d cl (dirname path) = r
  rcases r with ⟨err | md, cl'⟩
  · rfl
  · dsimp only
    split
    · rfl
    · rfl

variable (cfg d cl path host) in
/-- So does the check of the parent directory. -/
theorem checkParentDir_db :
    ((checkParentDir cfg d cl path).2 host).db = (cl host).db := by
  rw [checkParentDir_snd]
  exact getMetadata_db cfg d cl (dirname path) host

/-- The check of the parent succeeds exactly if the parent is a directory. -/
theorem checkParentDir_zero_iff :
    (checkParentDir cfg d cl p.text).1 = 0 ↔
      ∃ md, entryAt cfg d cl p.parent = some md ∧ isDir md.mode = true := by
  have hnotdir : (ENOTDIR : Int) ≠ 0 := by decide
  rw [checkParentDir, CanonicalPath.dirname_text, entryAt]
  cases hentry : (cl (d.locateFileMetadata p.parent.text 0)).readEntry cfg p.parent.text with
  | none =>
    obtain ⟨err, hne, herr⟩ := getMetadata_none hentry
    rw [show getMetadata cfg d cl p.parent.text = (.error err, (getMetadata cfg d cl
      p.parent.text).2) from Prod.ext herr rfl]
    exact iff_of_false hne fun ⟨md, hmd, _⟩ => by cases hmd
  | some md =>
    rw [show getMetadata cfg d cl p.parent.text = (.ok md, (getMetadata cfg d cl
      p.parent.text).2) from Prod.ext (getMetadata_some hentry) rfl]
    dsimp only
    split
    · next hdir => exact iff_of_true rfl ⟨md, rfl, hdir⟩
    · next hdir =>
      refine iff_of_false hnotdir fun ⟨md', hmd, hdir'⟩ => ?_
      cases hmd
      exact hdir hdir'

/-! ### Creating and removing -/

variable (cfg d cl p) in
/-- A creation changes nothing, or adds an entry whose parent is a directory. -/
theorem gkfsCreate_entryAt (mode : UInt32) (now : Int64) :
    entryAt cfg d (gkfsCreate cfg d cl p.text mode now).2 = entryAt cfg d cl ∨
      (entryAt cfg d cl p = none ∧
        (∃ md, entryAt cfg d cl p.parent = some md ∧ isDir md.mode = true) ∧
        ∃ md, entryAt cfg d (gkfsCreate cfg d cl p.text mode now).2 =
          update (entryAt cfg d cl) p (some md)) := by
  rw [gkfsCreate]
  cases createMode mode with
  | error err => exact .inl rfl
  | ok mode =>
    dsimp only
    have hzero : (checkParentDir cfg d cl p.text).1 = 0 → _ := checkParentDir_zero_iff.1
    have hsame : entryAt cfg d (checkParentDir cfg d cl p.text).2 = entryAt cfg d cl :=
      entryAt_of_db (checkParentDir_db cfg d cl p.text)
    generalize checkParentDir cfg d cl p.text = r at hzero hsame ⊢
    obtain ⟨err, cl'⟩ := r
    dsimp only at hzero hsame ⊢
    split
    · exact .inl hsame
    · next herr =>
      rw [forwardCreate]
      rcases rpcSrvCreate_readEntry cfg (cl' (d.locateFileMetadata p.text 0)) p.text mode now with
        ⟨-, hnone, hentry⟩ | ⟨-, hentry⟩
      · refine .inr ⟨?_, hzero (not_not.1 herr),
          (Metadata.ofMode cfg now.toInt mode.toNat).kept cfg, ?_⟩
        · rw [← hsame]
          exact hnone
        · rw [← hsame]
          exact entryAt_update hentry
      · exact .inl ((entryAt_unchanged hentry).trans hsame)

theorem removeDataOn_db (link : Nat → Delivery) (hosts : List (Fin n)) (i : Nat)
    (cl : DaemonCluster n) (path : List Char) (host : Fin n) :
    ((removeDataOn path link i cl hosts).2 host).db = (cl host).db := by
  induction hosts generalizing i cl with
  | nil => rfl
  | cons x hosts ih =>
    have hserved : (rpcSrvRemoveData (cl x) path).2.db = (cl x).db := rfl
    have hrest := (ih (i + 1) (update cl x (rpcSrvRemoveData (cl x) path).2)).trans
      (update_db hserved host)
    rw [removeDataOn]
    cases link i with
    | notPosted => rfl
    | delivered => exact hrest
    | replyLost => exact hrest

variable (cfg d cl p) in
/-- A removal changes nothing, or removes an entry of the right kind. -/
theorem forwardRemove_entryAt (rmDir : Bool) {cl' : DaemonCluster n}
    (hcl' : (forwardRemove cfg d cl p.text rmDir 0 (fun _ => .delivered) fun _ => .delivered).2 =
      cl') :
    entryAt cfg d cl' = entryAt cfg d cl ∨
      ((∃ md, entryAt cfg d cl p = some md ∧ isDir md.mode = rmDir) ∧
        entryAt cfg d cl' = update (entryAt cfg d cl) p none) := by
  rw [← hcl', forwardRemove, copyRange_zero, removeMetadataLoop, removeMetadata]
  dsimp only
  rcases rpcSrvRemoveMetadata_readEntry cfg (cl (d.locateFileMetadata p.text 0)) p.text rmDir with
    ⟨herr, hmd, hentry⟩ | ⟨herr, hentry⟩
  · refine .inr ⟨hmd, ?_⟩
    rw [if_neg (not_not.2 herr)]
    dsimp only [removeMetadataLoop]
    rw [entryAt_of_db (removeDataOn_db _ _ _ _ _), entryAt_update hentry]
  · refine .inl ?_
    rw [if_pos herr]
    exact entryAt_unchanged hentry

/-! ### Listing -/

theorem getDirentsOn_db (cfg : MetadataConfig) (path : List Char) (cl : DaemonCluster n)
    (hosts : List (Fin n)) (host : Fin n) :
    ((getDirentsOn cfg path cl hosts).2 host).db = (cl host).db := by
  induction hosts generalizing cl with
  | nil => rfl
  | cons x hosts ih =>
    rw [getDirentsOn]
    exact (ih _).trans (update_db (rpcSrvGetDirents_snd cfg (cl x) path _).1 host)

/-- If all daemons succeed, the entries that each of them lists are in the listing. -/
theorem getDirentsOn_mem {hosts : List (Fin n)} (hhost : host ∈ hosts)
    (h : (getDirentsOn cfg path cl hosts).1.1 = 0) :
    ∃ st entries, st.db = (cl host).db ∧
      (rpcSrvGetDirents cfg st path (direntsBuffSize / n)).1 = (0, entries) ∧
      entries ⊆ (getDirentsOn cfg path cl hosts).1.2 := by
  induction hosts generalizing cl with
  | nil => exact absurd hhost not_mem_nil
  | cons x hosts ih =>
    rw [getDirentsOn] at h ⊢
    dsimp only at h ⊢
    split at h
    · next hrest => exact absurd h hrest
    · next hrest =>
      rw [not_not] at hrest
      rcases mem_cons.1 hhost with rfl | hhost
      · exact ⟨cl host, _, rfl, Prod.ext h rfl, subset_append_left _ _⟩
      · obtain ⟨st, entries, hdb, hserved, hsub⟩ := ih hhost hrest
        refine ⟨st, entries, ?_, hserved, List.Subset.trans hsub (subset_append_right _ _)⟩
        rw [hdb, update_db (rpcSrvGetDirents_snd cfg (cl x) path _).1]

/-- A directory whose listing is empty has nothing in it. -/
theorem entryAt_of_empty_listing (hrename : cfg.hasRename = false)
    (herr : (forwardGetDirents cfg cl p.text).1.1 = 0)
    (hempty : (forwardGetDirents cfg cl p.text).1.2 = []) {q : CanonicalPath}
    (hq : q ≠ CanonicalPath.root) (hparent : q.parent = p) : entryAt cfg d cl q = none := by
  obtain ⟨name, hname, hnames⟩ := CanonicalPath.exists_names_eq hq
  obtain ⟨st, entries, hdb, hserved, hsub⟩ :=
    getDirentsOn_mem (mem_finRange (d.locateFileMetadata q.text 0)) herr
  cases hentry : entryAt cfg d cl q with
  | none => rfl
  | some md =>
    have hread : st.readEntry cfg (direntsRoot p.text ++ name) = some md := by
      rw [readEntry_of_db hdb, ← hparent, ← CanonicalPath.text_eq_direntsRoot hnames]
      exact hentry
    have hmem := hsub (mem_getDirentsImpl hrename hname.1 hname.2.1 hread
      (getDirentsImpl_of_rpcSrvGetDirents hserved))
    rw [← forwardGetDirents, hempty] at hmem
    exact absurd hmem not_mem_nil

/-- The removal of a directory changes nothing, or removes a directory with nothing in it. -/
theorem gkfsRmdir_entryAt (hrename : cfg.hasRename = false) (d : Distributor n)
    (cl : DaemonCluster n) (p : CanonicalPath) :
    entryAt cfg d (gkfsRmdir cfg d cl p.text).2 = entryAt cfg d cl ∨
      ((∀ q, q ≠ CanonicalPath.root → q.parent = p → entryAt cfg d cl q = none) ∧
        entryAt cfg d (gkfsRmdir cfg d cl p.text).2 =
          update (entryAt cfg d cl) p none) := by
  have hsame : entryAt cfg d (getMetadata cfg d cl p.text).2 = entryAt cfg d cl :=
    entryAt_of_db (getMetadata_db cfg d cl p.text)
  rw [gkfsRmdir]
  generalize getMetadata cfg d cl p.text = r at hsame ⊢
  obtain ⟨err | md, cl₁⟩ := r
  · exact .inl hsame
  · have hlisted : entryAt cfg d (forwardGetDirents cfg cl₁ p.text).2 = entryAt cfg d cl :=
      (entryAt_of_db (getDirentsOn_db cfg p.text cl₁ _)).trans hsame
    have hchild := @entryAt_of_empty_listing n cfg d cl₁ p hrename
    dsimp only at hsame ⊢
    generalize forwardGetDirents cfg cl₁ p.text = r at hlisted hchild ⊢
    obtain ⟨⟨err, openDir⟩, cl₂⟩ := r
    dsimp only at hlisted hchild ⊢
    split
    · exact .inl hlisted
    · next herr =>
      split
      · exact .inl hlisted
      · next hempty =>
        rw [not_not] at herr hempty
        rcases forwardRemove_entryAt cfg d cl₂ p true rfl with hremove | ⟨-, hremove⟩
        · exact .inl (hremove.trans hlisted)
        · refine .inr ⟨fun q hq hparent => ?_, hlisted ▸ hremove⟩
          rw [← hsame]
          exact hchild herr hempty hq hparent

end

end GekkoFS
