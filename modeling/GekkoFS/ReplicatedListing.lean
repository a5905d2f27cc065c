import GekkoFS.DirentsExact
import GekkoFS.Lib.Simulation
import GekkoFS.NamespaceTree

/-!
# Listing replicated entries

With replicas, `gkfs_create` stores an entry on the daemons of several copies, while
`forward_get_dirents` asks all daemons for their entries and adds what each of them answers. What
the creations of a client lead to is a tree of files and directories, of which each daemon has the
entries that a copy of falls to it (`storesReplicas_final`).

The listing of a directory has an entry as often as there are daemons that hold a copy of it and
whose entries fit into their part of the client's buffer (`StoresReplicas.count_listing`). So every
entry is listed once if and only if there is exactly one such daemon for it (`listsOnce_iff`), and
with two copies on two daemons it is listed twice (`listing_repeats_copies`).
-/

namespace GekkoFS

open CanonicalPath Function List Metadata Simulation

/-! ## Creating with copies -/

/-- The placement by which requests for a copy go. -/
def Distributor.onCopy {n : Nat} (d : Distributor n) (copy : Nat) : Distributor n where
  place path chnkId numCopy := d.place path chnkId (copy + numCopy)
  locateFileMetadata path numCopy := d.locateFileMetadata path (copy + numCopy)

section
variable {n : Nat} (cfg : MetadataConfig) (d : Distributor n) (path : List Char)

/-- Ask for the entry of a path on the daemons of its copies, from one copy on, until one has it.
Source: `get_metadata` (`preload_util.cpp:239`). -/
def statCopies : Nat → Nat → DaemonCluster n → (Int × List Char) × DaemonCluster n
  | copy, 0, cl => forwardStat cfg (d.onCopy copy) cl path
  | copy, left + 1, cl =>
    match forwardStat cfg (d.onCopy copy) cl path with
    | ((err, attr), cl) =>
      if err ≠ 0 then statCopies (copy + 1) left cl else ((err, attr), cl)

/-- Source: `get_metadata` (`preload_util.cpp:211`). -/
def getMetadataCopies (replicas : Nat) (cl : DaemonCluster n) :
    Except Int Metadata × DaemonCluster n :=
  match statCopies cfg d path 0 replicas cl with
  | ((err, attr), cl) =>
    if err ≠ 0 then (.error err, cl)
    else
      match Metadata.parse cfg attr with
      | none => (.error EIO, cl)
      | some md => (.ok md, cl)

/-- Source: `check_parent_dir` (`gkfs_functions.cpp:106`). -/
def checkParentDirCopies (replicas : Nat) (cl : DaemonCluster n) : Int × DaemonCluster n :=
  match getMetadataCopies cfg d (dirname path) replicas cl with
  | (.error err, cl) => (err, cl)
  | (.ok md, cl) => if isDir md.mode then (0, cl) else (ENOTDIR, cl)

/-- Create one copy, with whether a copy was created so far and the last error. A daemon serves the
request for a copy at its own time. Source: the loop of `gkfs_create`
(`gkfs_functions.cpp:319`). -/
def createCopy (mode : UInt32) (now : Nat → Int64) (r : (Bool × Int) × DaemonCluster n)
    (copy : Nat) : (Bool × Int) × DaemonCluster n :=
  match forwardCreate cfg (d.onCopy copy) r.2 path mode (now copy) with
  | (err, cl) => if err ≠ 0 then ((r.1.1, err), cl) else ((true, 0), cl)

/-- Source: `gkfs_create` (`gkfs_functions.cpp:283`). -/
def gkfsCreateCopies (replicas : Nat) (cl : DaemonCluster n) (mode : UInt32) (now : Nat → Int64) :
    Int × DaemonCluster n :=
  match createMode mode with
  | .error err => (err, cl)
  | .ok mode =>
    match checkParentDirCopies cfg d path replicas cl with
    | (err, cl) =>
      if err ≠ 0 then (err, cl)
      else
        match (List.range (replicas + 1)).foldl (createCopy cfg d path mode now)
          ((false, 0), cl) with
        | ((success, err), cl) => (if success then 0 else err, cl)

/-- Without replicas this is the creation of `GekkoFS.gkfsCreate`. -/
theorem gkfsCreateCopies_zero (cl : DaemonCluster n) (mode : UInt32) (now : Nat → Int64) :
    gkfsCreateCopies cfg d path 0 cl mode now = gkfsCreate cfg d cl path mode (now 0) := by
  rw [gkfsCreateCopies, gkfsCreate]
  cases createMode mode with
  | error err => rfl
  | ok mode =>
    have hcheck : checkParentDirCopies cfg d path 0 cl = checkParentDir cfg d cl path := rfl
    dsimp only
    rw [hcheck]
    obtain ⟨err, cl'⟩ := checkParentDir cfg d cl path
    have hcreate : forwardCreate cfg (d.onCopy 0) cl' path mode (now 0) =
      forwardCreate cfg d cl' path mode (now 0) := rfl
    dsimp only
    split
    · rfl
    · rw [range_one, foldl_cons, foldl_nil, createCopy, hcreate]
      obtain ⟨err', cl''⟩ := forwardCreate cfg d cl' path mode (now 0)
      dsimp only
      split
      · rfl
      · next h => rw [not_not.1 h]; rfl

end

/-! ## The tree of files and directories -/

/-- For each path whether it is a directory, if it exists. -/
abbrev Kinds := List Char → Option Bool

/-- A call of `gkfs_create`, with the times at which its copies are created. -/
structure CreateCall where
  path : CanonicalPath
  mode : UInt32
  now : Nat → Int64

/-- What a creation should do to the tree, and whether it succeeds. -/
def createKinds (kinds : Kinds) (call : CreateCall) : Bool × Kinds :=
  match createMode call.mode with
  | .error _ => (false, kinds)
  | .ok mode =>
    if kinds call.path.parent.text = some true ∧ kinds call.path.text = none then
      (true, update kinds call.path.text (some (isDir mode.toNat)))
    else (false, kinds)

/-- The tree has its root only. -/
def rootKinds : Kinds := update (fun _ => none) root.text (some true)

/-- The store of a daemon has entries for these paths: they can be read, and none is the mark that a
rename leaves. -/
def HoldsKinds (cfg : MetadataConfig) (db : DB) (held : Kinds) : Prop :=
  ∃ stored, StoresEntries cfg db stored ∧
    ∀ key, held key = (stored key).map (fun md => isDir md.mode) ∧
      ∀ md, stored key = some md → md.Storable ∧ ¬ IsTombstone cfg md

section
variable {n : Nat} (cfg : MetadataConfig) (d : Distributor n) (numCopies : Nat)

/-- The daemons of the copies of an entry. -/
def holders (key : List Char) : List (Fin n) :=
  (List.range (numCopies + 1)).map (d.locateFileMetadata key)

/-- The paths of the tree that a daemon has entries of. Every daemon has one of the root. -/
def heldBy (kinds : Kinds) (host : Fin n) : Kinds := fun key =>
  if key = root.text ∨ host ∈ holders d numCopies key then kinds key else none

/-- The daemons store the entries of a tree, each of them on the daemons of its copies. -/
def StoresReplicas (cl : DaemonCluster n) (kinds : Kinds) : Prop :=
  kinds root.text = some true ∧
    ∀ host, HoldsKinds cfg (cl host).db (heldBy d numCopies kinds host)

/-- Whether the entries that a daemon has of a directory fit into a part of the client's buffer. -/
def fitsBuffer (st : MetadataDaemon) (dir : CanonicalPath) (bulkSize : Nat) : Bool :=
  (st.getDirentsImpl cfg (direntsRoot dir.text)).1.toOption.any fun entries =>
    (entries.map fun e => e.1.length).sum + entries.length * 2 ≤ bulkSize

/-- A name in a directory of the tree, with its kind. -/
def IsChild (kinds : Kinds) (dir : CanonicalPath) (name : List Char) (kind : Bool) : Prop :=
  name ≠ [] ∧ '/' ∉ name ∧ kinds (joinName dir name) = some kind

instance (kinds : Kinds) (dir : CanonicalPath) (name : List Char) (kind : Bool) :
    Decidable (IsChild kinds dir name kind) :=
  inferInstanceAs (Decidable (_ ∧ _))

/-- The listing of a directory has every entry of it once, and nothing else. -/
def ListsOnce (cl : DaemonCluster n) (kinds : Kinds) (dir : CanonicalPath) : Prop :=
  ∀ name kind, (forwardGetDirents cfg cl dir.text).1.2.count (name, kind) =
    if IsChild kinds dir name kind then 1 else 0

end

/-! ## The store of one daemon -/

section
variable {cfg : MetadataConfig} {st : MetadataDaemon} {db : DB} {held : Kinds} {path : List Char}

/-- A path without an entry is not in the store. -/
theorem HoldsKinds.cell_eq_empty_iff (h : HoldsKinds cfg db held) :
    db.cell path = Cell.empty ↔ held path = none := by
  obtain ⟨stored, hstores, hheld⟩ := h
  rw [(hheld path).1, Option.map_eq_none_iff]
  refine ⟨fun hempty => ?_, fun hnone => (hstores path).1 hnone⟩
  cases hmd : stored path with
  | none => rfl
  | some md =>
    have hget := ((hstores path).2 md hmd).1
    rw [hempty] at hget
    cases hget

/-- A creation adds an entry that is not there, and only then. -/
theorem HoldsKinds.create (h : HoldsKinds cfg st.db held) (path : List Char) (mode : UInt32)
    (now : Int64) :
    ((rpcSrvCreate cfg st path mode now).1 = 0 ↔ held path = none) ∧
      HoldsKinds cfg (rpcSrvCreate cfg st path mode now).2.db
        (if held path = none then update held path (some (isDir mode.toNat))
          else held) := by
  rcases rpcSrvCreate_db cfg st path mode now with ⟨herr, hempty, hdb⟩ | ⟨herr, hdb⟩
  · have hnone := h.cell_eq_empty_iff.1 hempty
    refine ⟨iff_of_true herr hnone, ?_⟩
    obtain ⟨stored, hstores, hheld⟩ := h
    have hholds := holds_ofMode cfg mode now
    rw [if_pos hnone, hdb]
    refine ⟨update stored path (some (Metadata.ofMode cfg now.toInt mode.toNat)),
      fun key => ?_, fun key => ?_⟩
    · by_cases hkey : key = path
      · rw [hkey, update_self, DB.cell_merge_self, hempty]
        refine ⟨fun hnone => (nomatch hnone), fun md hmd => ?_⟩
        cases hmd
        exact ⟨hholds.get, hholds.storable.inRange⟩
      · rw [update_of_ne hkey, DB.cell_merge_ne hkey]
        exact hstores key
    · by_cases hkey : key = path
      · rw [hkey, update_self, update_self]
        refine ⟨rfl, fun md hmd => ?_⟩
        cases hmd
        refine ⟨hholds.storable, fun htomb => ?_⟩
        have hblocks := htomb.2
        simp [Metadata.kept, Metadata.ofMode] at hblocks
      · rw [update_of_ne hkey, update_of_ne hkey]
        exact hheld key
  · have hsome : held path ≠ none := fun hnone =>
      herr (rpcSrvCreate_empty_fst (h.cell_eq_empty_iff.2 hnone) mode now)
    rw [if_neg hsome, hdb]
    exact ⟨iff_of_false herr hsome, h⟩

theorem HoldsKinds.stat_none (h : HoldsKinds cfg st.db held) (hnone : held path = none) :
    (rpcSrvStat cfg st path).1.1 ≠ 0 := by
  have hnoent : (ENOENT : Int) ≠ 0 := by decide
  rw [rpcSrvStat, getImpl_empty (h.cell_eq_empty_iff.2 hnone)]
  exact hnoent

/-- A stored entry is found with its kind. -/
theorem HoldsKinds.stat_some {kind : Bool} (h : HoldsKinds cfg st.db held)
    (hkind : held path = some kind) :
    ∃ md : Metadata, (rpcSrvStat cfg st path).1 = (0, md.serialize cfg) ∧ md.Storable ∧
      isDir md.mode = kind := by
  obtain ⟨stored, hstores, hheld⟩ := h
  rw [(hheld path).1, Option.map_eq_some_iff] at hkind
  obtain ⟨md, hmd, rfl⟩ := hkind
  refine ⟨md, ?_, ((hheld path).2 md hmd).1, rfl⟩
  rw [rpcSrvStat, MetadataDaemon.getImpl, ((hstores path).2 md hmd).1]

/-- A daemon answers with what the backend lists, if it fits. -/
theorem rpcSrvGetDirents_entries {dir : CanonicalPath} {entries : List (List Char × Bool)}
    (h : (st.getDirentsImpl cfg (direntsRoot dir.text)).1 = .ok entries) (bulkSize : Nat) :
    (rpcSrvGetDirents cfg st dir.text bulkSize).1.2 =
      if fitsBuffer cfg st dir bulkSize then entries else [] := by
  rw [rpcSrvGetDirents, fitsBuffer]
  generalize st.getDirentsImpl cfg (direntsRoot dir.text) = r at h ⊢
  obtain ⟨listed, st'⟩ := r
  subst h
  simp only [Except.toOption, Option.any_some, decide_eq_true_eq]
  split
  · next hnil =>
    subst hnil
    exact (ite_self []).symm
  · split
    · next hlarge => rw [if_neg (Nat.not_le.2 hlarge)]
    · next hlarge => rw [if_pos (Nat.not_lt.1 hlarge)]

/-- A daemon lists what it has of a directory once, if it fits. -/
theorem HoldsKinds.count_listed (h : HoldsKinds cfg st.db held) (dir : CanonicalPath)
    (bulkSize : Nat) (name : List Char) (kind : Bool) :
    (rpcSrvGetDirents cfg st dir.text bulkSize).1.2.count (name, kind) =
      if fitsBuffer cfg st dir bulkSize ∧ IsChild held dir name kind then 1 else 0 := by
  obtain ⟨stored, hstores, hheld⟩ := h
  have hsizes : ChildSizesOk stored dir := fun name md _ _ hmd => ((hheld _).2 md hmd).1.size
  obtain ⟨entries, hlisted, hsorted, hmem⟩ := (hstores.direntsExact hsizes).1
  have hchild : (name, kind) ∈ entries ↔ IsChild held dir name kind := by
    rw [hmem, IsChild, (hheld _).1, Option.map_eq_some_iff]
    refine and_congr_right fun _ => and_congr_right fun _ => exists_congr fun md =>
      and_congr_right fun hmd => ?_
    exact ⟨fun hkind => hkind.2.symm, fun hkind => ⟨((hheld _).2 md hmd).2, hkind.symm⟩⟩
  have hnodup : entries.Nodup := by
    refine (pairwise_map.1 hsorted).imp fun hlt heq => ?_
    rw [heq] at hlt
    exact lt_irrefl _ hlt
  rw [rpcSrvGetDirents_entries hlisted]
  by_cases hfits : fitsBuffer cfg st dir bulkSize = true
  · rw [if_pos hfits, hnodup.count]
    exact if_congr (hchild.trans (and_iff_right hfits).symm) rfl rfl
  · rw [if_neg hfits, if_neg fun hand => hfits hand.1, count_nil]

/-! ## All daemons -/

variable {n : Nat} {d : Distributor n} {numCopies : Nat} {cl : DaemonCluster n} {kinds : Kinds}

/-- The daemons are asked in turn, and each of them once. -/
theorem getDirentsOn_entries (path : List Char) {hosts : List (Fin n)} (hnodup : hosts.Nodup)
    (cl : DaemonCluster n) :
    (getDirentsOn cfg path cl hosts).1.2 = hosts.flatMap fun host =>
      (rpcSrvGetDirents cfg (cl host) path (direntsBuffSize / n)).1.2 := by
  induction hosts generalizing cl with
  | nil => rfl
  | cons host hosts ih =>
    obtain ⟨hnotin, hnodup⟩ := nodup_cons.1 hnodup
    rw [getDirentsOn, flatMap_cons]
    dsimp only
    rw [ih hnodup]
    refine congrArg _ (flatMap_congr fun host' hmem => ?_)
    rw [update_of_ne fun heq : host' = host => hnotin (heq ▸ hmem)]

theorem heldBy_of_ne_root {key : List Char} (hkey : key ≠ root.text) (host : Fin n) :
    heldBy d numCopies kinds host key =
      if host ∈ holders d numCopies key then kinds key else none :=
  if_congr (or_iff_right hkey) rfl rfl

/-- Of a list without repetitions exactly one element satisfies a predicate. -/
theorem countP_eq_one_iff {α : Type} {l : List α} (hnodup : l.Nodup) (p : α → Bool) :
    l.countP p = 1 ↔ ∃! a, a ∈ l ∧ p a = true := by
  rw [countP_eq_length_filter, length_eq_one_iff]
  refine exists_congr fun a => ⟨fun h => ?_, fun ⟨ha, hall⟩ => ?_⟩
  · have hmem : ∀ b, b ∈ l ∧ p b = true ↔ b = a := fun b => by
      rw [← mem_filter, h, mem_singleton]
    exact ⟨(hmem a).2 rfl, fun b hb => (hmem b).1 hb⟩
  · refine perm_singleton.1 ?_
    rw [perm_ext_iff_of_nodup (hnodup.filter p) (nodup_singleton a)]
    intro b
    rw [mem_filter, mem_singleton]
    exact ⟨hall b, fun hb => hb ▸ ha⟩

theorem sum_map_ite_eq_countP {α : Type} (l : List α) (p : α → Prop) [DecidablePred p] :
    (l.map fun a => if p a then 1 else 0).sum = l.countP fun a => p a := by
  induction l with
  | nil => rfl
  | cons a l ih =>
    rw [map_cons, sum_cons, countP_cons, ih, Nat.add_comm]
    simp only [decide_eq_true_eq]

/-- An entry is listed by every daemon that holds a copy of it and whose entries fit. -/
theorem StoresReplicas.count_listing (h : StoresReplicas cfg d numCopies cl kinds)
    (dir : CanonicalPath) (name : List Char) (kind : Bool) :
    (forwardGetDirents cfg cl dir.text).1.2.count (name, kind) =
      if IsChild kinds dir name kind then
        (List.finRange n).countP fun host => host ∈ holders d numCopies (joinName dir name) ∧
          fitsBuffer cfg (cl host) dir (direntsBuffSize / n) = true
      else 0 := by
  have hhost : ∀ host, (rpcSrvGetDirents cfg (cl host) dir.text (direntsBuffSize / n)).1.2.count
      (name, kind) = if IsChild kinds dir name kind ∧
        host ∈ holders d numCopies (joinName dir name) ∧
          fitsBuffer cfg (cl host) dir (direntsBuffSize / n) = true then 1 else 0 := by
    intro host
    rw [(h.2 host).count_listed]
    refine if_congr ?_ rfl rfl
    by_cases hname : name = []
    · exact iff_of_false (fun hand => hand.2.1 hname) fun hand => hand.1.1 hname
    · rw [IsChild, IsChild, heldBy_of_ne_root (joinName_ne_root dir hname)]
      by_cases hmem : host ∈ holders d numCopies (joinName dir name)
      · rw [if_pos hmem, and_iff_right hmem, and_comm]
      · rw [if_neg hmem]
        exact iff_of_false (fun hand => nomatch hand.2.2.2) fun hand => hmem hand.2.1
  rw [forwardGetDirents, getDirentsOn_entries _ (nodup_finRange n), count_flatMap]
  simp only [comp_def, hhost]
  by_cases hchild : IsChild kinds dir name kind
  · simp only [hchild, true_and, if_true]
    exact sum_map_ite_eq_countP _ _
  · simp [hchild]

end

/-! ## Creations refine the tree -/

section
variable {n : Nat} {cfg : MetadataConfig} {d : Distributor n} {numCopies : Nat}
  {cl : DaemonCluster n} {kinds : Kinds} {held : Fin n → Kinds} {path : List Char}

/-- The daemons of the copies of an entry have it if it exists. -/
theorem heldBy_locate (key : List Char) {copy : Nat} (hcopy : copy ≤ numCopies) :
    heldBy d numCopies kinds (d.locateFileMetadata key copy) key = kinds key :=
  if_pos (.inr (mem_map_of_mem (mem_range.2 (Nat.lt_succ_of_le hcopy))))

theorem StoresReplicas.of_db {cl' : DaemonCluster n} (h : StoresReplicas cfg d numCopies cl kinds)
    (hdb : ∀ host, (cl' host).db = (cl host).db) : StoresReplicas cfg d numCopies cl' kinds :=
  ⟨h.1, fun host => by rw [hdb]; exact h.2 host⟩

/-! ### Looking up -/

variable (cfg d cl path) in
theorem forwardStat_db (host : Fin n) : ((forwardStat cfg d cl path).2 host).db = (cl host).db :=
  update_db (rpcSrvStat_db cfg _ path) host

/-- Reading copies leaves the stores alone. -/
theorem statCopies_db (copy left : Nat) (cl : DaemonCluster n) (host : Fin n) :
    ((statCopies cfg d path copy left cl).2 host).db = (cl host).db := by
  induction left generalizing copy cl with
  | zero => exact forwardStat_db cfg _ cl path host
  | succ left ih =>
    have hdb := forwardStat_db cfg (d.onCopy copy) cl path host
    rw [statCopies]
    generalize forwardStat cfg (d.onCopy copy) cl path = r at hdb ⊢
    obtain ⟨⟨err, attr⟩, cl'⟩ := r
    dsimp only at hdb ⊢
    split
    · exact (ih _ cl').trans hdb
    · exact hdb

/-- Without an entry on the daemons of the copies all requests fail. -/
theorem StoresReplicas.statCopies_none (h : StoresReplicas cfg d numCopies cl kinds)
    (hnone : kinds path = none) (left : Nat) {copy : Nat} (hcopy : copy + left ≤ numCopies) :
    (statCopies cfg d path copy left cl).1.1 ≠ 0 := by
  have hstat : ∀ {cl : DaemonCluster n} {copy : Nat}, StoresReplicas cfg d numCopies cl kinds →
      copy ≤ numCopies → (forwardStat cfg (d.onCopy copy) cl path).1.1 ≠ 0 := fun h hle =>
    (h.2 _).stat_none ((heldBy_locate path hle).trans hnone)
  induction left generalizing copy cl with
  | zero => exact hstat h hcopy
  | succ left ih =>
    have hne := hstat h (Nat.le_of_add_right_le hcopy)
    have hdb := forwardStat_db cfg (d.onCopy copy) cl path
    rw [statCopies]
    generalize forwardStat cfg (d.onCopy copy) cl path = r at hne hdb ⊢
    obtain ⟨⟨err, attr⟩, cl'⟩ := r
    dsimp only at hne hdb ⊢
    rw [if_pos hne]
    exact ih (h.of_db hdb) (by omega)

/-- An entry is found on the daemon of the first copy. -/
theorem StoresReplicas.statCopies_some {kind : Bool} (h : StoresReplicas cfg d numCopies cl kinds)
    (hkind : kinds path = some kind) (left : Nat) :
    ∃ md : Metadata, (statCopies cfg d path 0 left cl).1 = (0, md.serialize cfg) ∧ md.Storable ∧
      isDir md.mode = kind := by
  obtain ⟨md, hstat, hmd⟩ := (h.2 _).stat_some
    ((heldBy_locate path (Nat.zero_le numCopies)).trans hkind)
  have hstat : (forwardStat cfg (d.onCopy 0) cl path).1 = (0, md.serialize cfg) := hstat
  refine ⟨md, ?_, hmd⟩
  cases left with
  | zero => exact hstat
  | succ left =>
    rw [statCopies]
    generalize forwardStat cfg (d.onCopy 0) cl path = r at hstat ⊢
    obtain ⟨⟨err, attr⟩, cl'⟩ := r
    cases hstat
    dsimp only
    rw [if_neg (not_not.2 rfl)]

/-- The check of the parent succeeds if and only if the parent is a directory. -/
theorem StoresReplicas.checkParentDir (h : StoresReplicas cfg d numCopies cl kinds)
    (path : List Char) :
    ((checkParentDirCopies cfg d path numCopies cl).1 = 0 ↔ kinds (dirname path) = some true) ∧
      ∀ host, ((checkParentDirCopies cfg d path numCopies cl).2 host).db = (cl host).db := by
  have hnotdir : (ENOTDIR : Int) ≠ 0 := by decide
  have hdb := @statCopies_db n cfg d (dirname path) 0 numCopies cl
  rw [checkParentDirCopies, getMetadataCopies]
  cases hkind : kinds (dirname path) with
  | none =>
    have herr := h.statCopies_none hkind numCopies (Nat.zero_add numCopies).le
    generalize statCopies cfg d (dirname path) 0 numCopies cl = r at hdb herr ⊢
    obtain ⟨⟨err, attr⟩, cl'⟩ := r
    dsimp only at hdb herr ⊢
    rw [if_pos herr]
    exact ⟨iff_of_false herr (fun hsome => nomatch hsome), hdb⟩
  | some kind =>
    obtain ⟨md, hstat, hmd, rfl⟩ := h.statCopies_some hkind numCopies
    generalize statCopies cfg d (dirname path) 0 numCopies cl = r at hdb hstat ⊢
    obtain ⟨⟨err, attr⟩, cl'⟩ := r
    cases hstat
    dsimp only
    rw [if_neg (not_not.2 rfl), Metadata.parse_serialize cfg hmd]
    dsimp only
    have hmode : isDir (md.kept cfg).mode = isDir md.mode := rfl
    rw [hmode]
    cases isDir md.mode with
    | false => exact ⟨iff_of_false hnotdir (fun hsome => nomatch hsome), hdb⟩
    | true => exact ⟨iff_of_true rfl rfl, hdb⟩

/-! ### Creating -/

/-- What the daemons have when an entry has been created on some of them. -/
def addHeld (held : Fin n → Kinds) (path : List Char) (kind : Bool) (hosts : List (Fin n)) :
    Fin n → Kinds := fun host =>
  if host ∈ hosts ∧ held host path = none then update (held host) path (some kind)
  else held host

theorem addHeld_cons (held : Fin n → Kinds) (path : List Char) (kind : Bool) (host : Fin n)
    (hosts : List (Fin n)) :
    addHeld (addHeld held path kind [host]) path kind hosts =
      addHeld held path kind (host :: hosts) := by
  funext host'
  simp only [addHeld, mem_cons, not_mem_nil, or_false]
  by_cases hnone : held host' path = none
  · by_cases heq : host' = host
    · simp [heq ▸ hnone, heq]
    · simp [heq, hnone]
  · simp [hnone]

theorem addHeld_self (held : Fin n → Kinds) (path : List Char) (kind : Bool) (host : Fin n) :
    addHeld held path kind [host] host =
      if held host path = none then update (held host) path (some kind) else held host :=
  if_congr (and_iff_right (mem_singleton_self host)) rfl rfl

theorem addHeld_of_notMem {host : Fin n} {hosts : List (Fin n)} (hhost : host ∉ hosts)
    (held : Fin n → Kinds) (path : List Char) (kind : Bool) :
    addHeld held path kind hosts host = held host :=
  if_neg fun hand => hhost hand.1

/-- A creation on the daemon of a copy. -/
theorem forwardCreate_addHeld (h : ∀ host, HoldsKinds cfg (cl host).db (held host)) (mode : UInt32)
    (now : Int64) (copy : Nat) :
    ((forwardCreate cfg (d.onCopy copy) cl path mode now).1 = 0 ↔
        held (d.locateFileMetadata path copy) path = none) ∧
      ∀ host, HoldsKinds cfg ((forwardCreate cfg (d.onCopy copy) cl path mode now).2 host).db
        (addHeld held path (isDir mode.toNat) [d.locateFileMetadata path copy] host) := by
  obtain ⟨hzero, hholds⟩ := (h (d.locateFileMetadata path copy)).create path mode now
  refine ⟨hzero, fun host => ?_⟩
  have hcluster : (forwardCreate cfg (d.onCopy copy) cl path mode now).2 =
      update cl (d.locateFileMetadata path copy)
        (rpcSrvCreate cfg (cl (d.locateFileMetadata path copy)) path mode now).2 := rfl
  rw [hcluster]
  by_cases heq : host = d.locateFileMetadata path copy
  · rw [heq, update_self, addHeld_self]
    exact hholds
  · rw [update_of_ne heq, addHeld_of_notMem (mt mem_singleton.1 heq)]
    exact h host

/-- Creating the copies one after the other: it succeeds if some daemon did not have the entry. -/
theorem foldl_createCopy (mode : UInt32) (now : Nat → Int64) (copies : List Nat)
    {r : (Bool × Int) × DaemonCluster n} (h : ∀ host, HoldsKinds cfg (r.2 host).db (held host)) :
    (copies.foldl (createCopy cfg d path mode now) r).1.1 =
        (r.1.1 || copies.any fun copy => held (d.locateFileMetadata path copy) path = none) ∧
      ∀ host, HoldsKinds cfg ((copies.foldl (createCopy cfg d path mode now) r).2 host).db
        (addHeld held path (isDir mode.toNat) (copies.map (d.locateFileMetadata path)) host) := by
  induction copies generalizing r held with
  | nil =>
    refine ⟨(Bool.or_false _).symm, fun host => ?_⟩
    rw [map_nil, addHeld_of_notMem not_mem_nil]
    exact h host
  | cons copy copies ih =>
    obtain ⟨hzero, hholds⟩ := @forwardCreate_addHeld n cfg d r.2 held path h mode (now copy) copy
    have hcopy : createCopy cfg d path mode now r copy =
        if held (d.locateFileMetadata path copy) path = none
        then ((true, 0), (forwardCreate cfg (d.onCopy copy) r.2 path mode (now copy)).2)
        else ((r.1.1, (forwardCreate cfg (d.onCopy copy) r.2 path mode (now copy)).1),
          (forwardCreate cfg (d.onCopy copy) r.2 path mode (now copy)).2) := by
      rw [createCopy, ← ite_not]
      exact if_congr (not_congr hzero) rfl rfl
    rw [foldl_cons, hcopy, any_cons, map_cons, ← addHeld_cons]
    split
    · next hnone =>
      obtain ⟨hsuccess, hrest⟩ := @ih _ ((true, 0), _) hholds
      refine ⟨hsuccess.trans ?_, hrest⟩
      simp [hnone]
    · next hsome =>
      have hsame :
          addHeld held path (isDir mode.toNat) [d.locateFileMetadata path copy] = held := by
        funext host
        refine if_neg fun hand => hsome ?_
        rw [← mem_singleton.1 hand.1]
        exact hand.2
      obtain ⟨hsuccess, hrest⟩ := @ih _ ((r.1.1, _), _) hholds
      refine ⟨hsuccess.trans ?_, hrest⟩
      rw [hsame]
      simp [hsome]

/-- A creation that does not create a copy leaves an error. -/
theorem createCopy_err (mode : UInt32) (now : Nat → Int64) (r : (Bool × Int) × DaemonCluster n)
    (copy : Nat) (h : (createCopy cfg d path mode now r copy).1.1 = false) :
    (createCopy cfg d path mode now r copy).1.2 ≠ 0 := by
  rw [createCopy] at h ⊢
  generalize forwardCreate cfg (d.onCopy copy) r.2 path mode (now copy) = r' at h ⊢
  obtain ⟨err, cl'⟩ := r'
  dsimp only at h ⊢
  split
  · next herr => exact herr
  · next herr =>
    rw [if_neg herr] at h
    cases h

/-- The entry that is added to the daemons of its copies is added to the tree. -/
theorem addHeld_heldBy (hnone : kinds path = none) (hroot : path ≠ root.text)
    (kind : Bool) :
    addHeld (heldBy d numCopies kinds) path kind (holders d numCopies path) =
      heldBy d numCopies (update kinds path (some kind)) := by
  funext host key
  have hheld : heldBy d numCopies kinds host path = none := by
    rw [heldBy, hnone, ite_self]
  by_cases hkey : key = path
  · rw [hkey, heldBy_of_ne_root hroot, update_self, addHeld]
    by_cases hmem : host ∈ holders d numCopies path
    · rw [if_pos ⟨hmem, hheld⟩, if_pos hmem, update_self]
    · rw [if_neg fun hand => hmem hand.1, if_neg hmem, hheld]
  · have hsame : heldBy d numCopies (update kinds path (some kind)) host key =
        heldBy d numCopies kinds host key := by
      rw [heldBy, heldBy, update_of_ne hkey]
    rw [hsame, addHeld]
    split
    · rw [update_of_ne hkey]
    · rfl

/-- An entry that exists is not created again. -/
theorem addHeld_heldBy_of_some (hsome : kinds path ≠ none) (kind : Bool) :
    addHeld (heldBy d numCopies kinds) path kind (holders d numCopies path) =
      heldBy d numCopies kinds := by
  funext host
  refine if_neg fun hand => hsome ?_
  rw [← hand.2, heldBy, if_pos (.inr hand.1)]

/-- Creating all copies adds an entry that does not exist to the tree, and fails otherwise. -/
theorem StoresReplicas.createCopies (h : StoresReplicas cfg d numCopies cl kinds)
    (path : List Char) (mode : UInt32) (now : Nat → Int64) :
    ∃ success err cl', (List.range (numCopies + 1)).foldl (createCopy cfg d path mode now)
        ((false, 0), cl) = ((success, err), cl') ∧ (success = true ↔ kinds path = none) ∧
      (success = false → err ≠ 0) ∧
      StoresReplicas cfg d numCopies cl' (if kinds path = none then
        update kinds path (some (isDir mode.toNat)) else kinds) := by
  obtain ⟨hsuccess, hholds⟩ := foldl_createCopy mode now (List.range (numCopies + 1))
    (r := ((false, 0), cl)) h.2
  have herr : ((List.range (numCopies + 1)).foldl (createCopy cfg d path mode now)
      ((false, 0), cl)).1.1 = false → ((List.range (numCopies + 1)).foldl
        (createCopy cfg d path mode now) ((false, 0), cl)).1.2 ≠ 0 := by
    rw [range_succ, foldl_append, foldl_cons, foldl_nil]
    exact createCopy_err mode now _ numCopies
  have hany : ((List.range (numCopies + 1)).any fun copy =>
      heldBy d numCopies kinds (d.locateFileMetadata path copy) path = none) = true ↔
      kinds path = none := by
    rw [any_eq_true]
    constructor
    · rintro ⟨copy, hmem, hnone⟩
      rw [heldBy_locate path (Nat.le_of_lt_succ (mem_range.1 hmem))] at hnone
      exact of_decide_eq_true hnone
    · intro hnone
      refine ⟨0, mem_range.2 (Nat.succ_pos _), decide_eq_true ?_⟩
      rw [heldBy_locate path (Nat.zero_le _), hnone]
  refine ⟨_, _, _, rfl, ?_, herr, ?_⟩
  · rw [hsuccess, Bool.false_or, hany]
  · by_cases hnone : kinds path = none
    · have hroot : path ≠ root.text := fun heq => by
        rw [heq, h.1] at hnone
        cases hnone
      rw [if_pos hnone]
      refine ⟨by rw [update_of_ne hroot.symm, h.1], fun host => ?_⟩
      rw [← addHeld_heldBy hnone hroot]
      exact hholds host
    · rw [if_neg hnone]
      refine ⟨h.1, fun host => ?_⟩
      rw [← addHeld_heldBy_of_some hnone (isDir mode.toNat)]
      exact hholds host

/-- A creation does what it should do to the tree. -/
theorem StoresReplicas.create (h : StoresReplicas cfg d numCopies cl kinds) (call : CreateCall) :
    ((gkfsCreateCopies cfg d call.path.text numCopies cl call.mode call.now).1 = 0 ↔
        (createKinds kinds call).1 = true) ∧
      StoresReplicas cfg d numCopies
        (gkfsCreateCopies cfg d call.path.text numCopies cl call.mode call.now).2
        (createKinds kinds call).2 := by
  rw [gkfsCreateCopies, createKinds]
  cases hmode : createMode call.mode with
  | error err => exact ⟨iff_of_false (createMode_error hmode) Bool.false_ne_true, h⟩
  | ok mode =>
    obtain ⟨hcheck, hdb⟩ := h.checkParentDir call.path.text
    rw [dirname_text] at hcheck
    generalize checkParentDirCopies cfg d call.path.text numCopies cl = r at hcheck hdb ⊢
    obtain ⟨err, cl'⟩ := r
    dsimp only at hcheck hdb ⊢
    have h := h.of_db hdb
    by_cases hparent : kinds call.path.parent.text = some true
    · obtain ⟨success, err', cl'', hfold, hsuccess, herr, hstores⟩ :=
        h.createCopies call.path.text mode call.now
      rw [if_neg (not_not.2 (hcheck.2 hparent)), hfold]
      by_cases hnone : kinds call.path.text = none
      · rw [if_pos hnone] at hstores
        rw [if_pos (And.intro hparent hnone), hsuccess.2 hnone]
        exact ⟨iff_of_true rfl rfl, hstores⟩
      · have hfailed : success = false := Bool.eq_false_iff.2 (mt hsuccess.1 hnone)
        rw [if_neg hnone] at hstores
        rw [if_neg (fun hand : _ ∧ _ => hnone hand.2), hfailed]
        exact ⟨iff_of_false (herr hfailed) Bool.false_ne_true, hstores⟩
    · rw [if_pos (mt hcheck.1 hparent), if_neg fun hand => hparent hand.1]
      exact ⟨iff_of_false (mt hcheck.1 hparent) Bool.false_ne_true, h⟩

end

/-! ## Runs -/

section
variable {n : Nat} (cfg : MetadataConfig) (d : Distributor n) (numCopies : Nat)

/-- A creation, and whether it succeeds. -/
def createServe (cl : DaemonCluster n) (call : CreateCall) : Bool × DaemonCluster n :=
  ((gkfsCreateCopies cfg d call.path.text numCopies cl call.mode call.now).1 = 0,
    (gkfsCreateCopies cfg d call.path.text numCopies cl call.mode call.now).2)

/-- Every daemon starts with the root. -/
theorem storesReplicas_initialCluster (now : Fin n → Int64) :
    StoresReplicas cfg d numCopies (initialCluster cfg now) rootKinds := by
  refine ⟨update_self _ _ _, fun host => ?_⟩
  have hheld : heldBy d numCopies rootKinds host = rootKinds := by
    funext key
    by_cases hkey : key = root.text
    · exact if_pos (.inl hkey)
    · rw [heldBy, rootKinds, update_of_ne hkey, ite_self]
  have hempty : HoldsKinds cfg (⟨∅, fun _ => none, ∅⟩ : MetadataDaemon).db fun _ => none :=
    ⟨fun _ => none, storesEntries_empty, fun _ => ⟨rfl, fun _ h => nomatch h⟩⟩
  rw [hheld]
  exact (hempty.create root.text 0o40777 (now host)).2

/-- Whatever creations a client makes, the daemons store the entries of the tree that the creations
lead to, each of them on the daemons of its copies. -/
theorem storesReplicas_final (now : Fin n → Int64) (calls : List CreateCall) :
    StoresReplicas cfg d numCopies
      (final (createServe cfg d numCopies) (initialCluster cfg now) calls)
      (final createKinds rootKinds calls) := by
  have hsim : Simulation.Simulates (createServe cfg d numCopies) createKinds (fun _ _ => True)
      (StoresReplicas cfg d numCopies) :=
    ⟨fun _ _ call h _ => Bool.eq_iff_iff.2 (decide_eq_true_iff.trans (h.create call).1),
      fun _ _ call h _ => (h.create call).2⟩
  exact final_rel hsim (storesReplicas_initialCluster cfg d numCopies now)
    (Transition.allOk_of_forall fun _ _ _ => trivial)

end

/-! ## Every entry once -/

/-- Every entry of a directory is listed once, and nothing else, if and only if for each of them
there is exactly one daemon that holds a copy and whose entries fit into its part of the buffer. -/
theorem listsOnce_iff {n : Nat} {cfg : MetadataConfig} {d : Distributor n} {numCopies : Nat}
    {cl : DaemonCluster n} {kinds : Kinds} (h : StoresReplicas cfg d numCopies cl kinds)
    (dir : CanonicalPath) :
    ListsOnce cfg cl kinds dir ↔ ∀ name kind, IsChild kinds dir name kind →
      ∃! host, host ∈ holders d numCopies (joinName dir name) ∧
        fitsBuffer cfg (cl host) dir (direntsBuffSize / n) = true := by
  refine forall_congr' fun name => forall_congr' fun kind => ?_
  rw [h.count_listing]
  by_cases hchild : IsChild kinds dir name kind
  · rw [if_pos hchild, if_pos hchild, countP_eq_one_iff (nodup_finRange n)]
    simp only [mem_finRange, true_and, decide_eq_true_eq, hchild, true_imp_iff]
  · rw [if_neg hchild, if_neg hchild]
    exact iff_of_true rfl fun hchild' => absurd hchild' hchild

theorem isName_a : ∀ name ∈ ["a".toList], IsName name := by decide

/-- The creation of a file and of a directory. -/
def twoCreations : List CreateCall :=
  [⟨⟨["a".toList], isName_a⟩, 0o100644, fun _ => 5⟩,
    ⟨⟨["b".toList], by decide⟩, 0o40755, fun _ => 6⟩]

/-- The daemons after these creations. -/
def afterCreations (numCopies : Nat) : DaemonCluster 2 :=
  final (createServe allFields (simpleHashDistributor List.length 2 (by decide))
    numCopies) (initialCluster allFields fun _ => 0) twoCreations

/-- Without further copies both entries are listed once. -/
theorem listsOnce_twoCreations :
    (forwardGetDirents allFields (afterCreations 0) root.text).1.2 =
        [("a".toList, false), ("b".toList, true)] ∧
      ListsOnce allFields (afterCreations 0) (final createKinds rootKinds twoCreations)
        root := by
  have hfits : ∀ host, fitsBuffer allFields (afterCreations 0 host) root
    (direntsBuffSize / 2) = true := by decide +kernel
  refine ⟨by decide +kernel, (listsOnce_iff (storesReplicas_final allFields _ 0 _ _) _).2
    fun name kind _ => ?_⟩
  refine ⟨_, ⟨mem_singleton_self _, hfits _⟩, fun host hhost => ?_⟩
  exact mem_singleton.1 hhost.1

/-- With a second copy on the other daemon both entries are listed twice. -/
theorem listing_repeats_copies :
    let kinds := final createKinds rootKinds twoCreations
    StoresReplicas allFields (simpleHashDistributor List.length 2 (by decide)) 1 (afterCreations 1)
        kinds ∧
      (forwardGetDirents allFields (afterCreations 1) root.text).1 =
        (0, [("a".toList, false), ("b".toList, true), ("a".toList, false), ("b".toList, true)]) ∧
      IsChild kinds root "a".toList false ∧
      ¬ ListsOnce allFields (afterCreations 1) kinds root := by
  have hlisting : (forwardGetDirents allFields (afterCreations 1) root.text).1 =
      (0, [("a".toList, false), ("b".toList, true), ("a".toList, false), ("b".toList, true)]) := by
    decide +kernel
  have hchild : IsChild (final createKinds rootKinds twoCreations) root
      "a".toList false := by decide +kernel
  refine ⟨storesReplicas_final allFields _ 1 _ _, hlisting, hchild, fun h => ?_⟩
  have hcount := h "a".toList false
  rw [hlisting, if_pos hchild] at hcount
  exact absurd hcount (by decide)

end GekkoFS
