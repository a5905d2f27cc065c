import GekkoFS.DirentsWire

/-!
# Opening a directory

`gkfs_opendir` asks all daemons for the entries of a directory and keeps them in an open directory.
Without the cache of directory entries it sends plain listings from one function,
`forward_get_dirents`, which keeps the error of the last daemon that reports one. With the cache it
sends an extended listing for each daemon, and keeps what the last daemon answers, an error or not.

So the two ways agree if and only if no daemon reports an error or the last one does
(`opendirAgrees_iff`). What a daemon answers, a list of entries or an error, is the same on both
ways here, and all requests can be sent: a request for an extended listing that cannot be sent makes
the client read from an empty vector. Entering the open directory into the table of descriptors is
left out, so that a call returns the directory itself.
-/

namespace GekkoFS.OpenDirs

open List Wire

/-! ## The open directory -/

/-- Source: `FileType` (`open_file_map.hpp:55`). -/
inductive FileType
  | regular
  | directory
  deriving DecidableEq

/-- Source: `DirEntry` (`open_dir.hpp:42`). -/
structure DirEntry where
  name : List UInt8
  type : FileType
  deriving DecidableEq

/-- Source: `OpenDir` (`open_dir.hpp:55`). -/
structure OpenDir where
  path : List Char
  entries : List DirEntry
  deriving DecidableEq

/-- Source: `OpenDir::add` (`open_dir.cpp:55`). -/
def OpenDir.add (dir : OpenDir) (name : List UInt8) (type : FileType) : OpenDir :=
  { dir with entries := dir.entries ++ [⟨name, type⟩] }

/-- The type that stands for a flag of an entry. -/
def fileTypeOf (isDir : Bool) : FileType := if isDir then .directory else .regular

/-! ## The answers of the daemons -/

/-- An error code: one that the daemon has answered with, or `EBUSY` for an answer that is lost. -/
abbrev ErrorCode := { err : Int // err ≠ 0 }

/-- What comes of the request to a daemon. -/
abbrev Outcome (ε : Type) := Except ErrorCode (List ε)

/-- The entry in a plain listing. -/
def plain (e : DirentExtended) : Dirent := (e.1, e.2.1)

section
variable {n : Nat} (path : List Char)

/-- The client takes the answer of a daemon, with the error and the directory it has so far. Source:
the loop over the answers in `forward_get_dirents` (`client/rpc/forward_metadata.cpp:708`). -/
def takeOutcome (outcome : Fin n → Outcome Dirent) (ret : Int × OpenDir) (host : Fin n) :
    Int × OpenDir :=
  match outcome host with
  | .error err => (err, ret.2)
  | .ok entries => (ret.1, entries.foldl (fun dir e => dir.add e.1 (fileTypeOf e.2)) ret.2)

/-- Source: `forward_get_dirents` (`client/rpc/forward_metadata.cpp:636`). -/
def forwardGetDirents (outcome : Fin n → Outcome Dirent) : Int × OpenDir :=
  (List.finRange n).foldl (takeOutcome outcome) (0, ⟨path, []⟩)

/-- On an error there are no entries to decode. Source: `forward_get_dirents_single`
(`client/rpc/forward_metadata.cpp:787`) and `forward_get_dirents_single_proxy`
(`forward_metadata_proxy.cpp:194`). -/
def forwardGetDirentsSingle : Outcome DirentExtended → Int × List DirentExtended
  | .error err => (err, [])
  | .ok entries => (0, entries)

/-- The client takes the result for a daemon. Source: the loop over the results in `gkfs_opendir`
(`gkfs_functions.cpp:1369`). -/
def takeResult (outcome : Fin n → Outcome DirentExtended) (ret : Int × OpenDir) (host : Fin n) :
    Int × OpenDir :=
  let res := forwardGetDirentsSingle (outcome host)
  (res.1, res.2.foldl (fun dir e => dir.add e.1 (fileTypeOf e.2.1)) ret.2)

/-- The directory that the cached way collects. -/
def collectResults (outcome : Fin n → Outcome DirentExtended) : Int × OpenDir :=
  (List.finRange n).foldl (takeResult outcome) (0, ⟨path, []⟩)

/-- The open directory that is entered into the table of descriptors, or the error that is left in
`errno`. `md` is what `get_metadata` returns for the path. Source: `gkfs_opendir`
(`gkfs_functions.cpp:1333`). -/
def gkfsOpendir (useDentryCache : Bool) (md : Except Int Metadata)
    (outcome : Fin n → Outcome DirentExtended) : Except Int OpenDir :=
  match md with
  | .error err => .error err
  | .ok md =>
    if !isDir md.mode then .error ENOTDIR
    else
      let ret :=
        if useDentryCache then collectResults path outcome
        else forwardGetDirents path fun host => (outcome host).map (List.map plain)
      if ret.1 ≠ 0 then .error ret.1 else .ok ret.2

end

/-! ## What opening a directory should do -/

/-- The daemon reports an error. -/
def Reports {ε : Type} : Outcome ε → Prop
  | .error _ => True
  | .ok _ => False

instance {ε : Type} : (o : Outcome ε) → Decidable (Reports o)
  | .error _ => isTrue trivial
  | .ok _ => isFalse id

/-- Opening with the cache reports missing daemons as opening without it does. -/
structure OpendirAgrees {n : Nat} (path : List Char) (md : Except Int Metadata)
    (outcome : Fin n → Outcome DirentExtended) : Prop where
  /-- The cached way succeeds only if no daemon reports an error. -/
  complete : ∀ dir, gkfsOpendir path true md outcome = .ok dir → ∀ host, ¬ Reports (outcome host)
  /-- It succeeds if and only if the other way does. -/
  succeeds : (∃ dir, gkfsOpendir path true md outcome = .ok dir) ↔
    ∃ dir, gkfsOpendir path false md outcome = .ok dir
  /-- If both succeed, they hold the same entries with the same types. -/
  entries : ∀ dir dir', gkfsOpendir path true md outcome = .ok dir →
    gkfsOpendir path false md outcome = .ok dir' → dir.entries = dir'.entries

/-- The path is a directory. -/
def IsDirectory : Except Int Metadata → Prop
  | .error _ => False
  | .ok md => isDir md.mode = true

/-! ## What the loops collect -/

/-- The open directory's form of an entry. -/
def dirEntry (e : Dirent) : DirEntry := ⟨e.1, fileTypeOf e.2⟩

/-- The entries of a daemon. -/
def listedBy : Outcome DirentExtended → List DirEntry
  | .error _ => []
  | .ok entries => entries.map fun e => dirEntry (plain e)

/-- Adding entries one after the other. -/
theorem foldl_add {ε : Type} (name : ε → List UInt8) (type : ε → FileType) (entries : List ε)
    (dir : OpenDir) :
    entries.foldl (fun dir e => dir.add (name e) (type e)) dir =
      { dir with entries := dir.entries ++ entries.map fun e => ⟨name e, type e⟩ } := by
  induction entries generalizing dir with
  | nil => rw [map_nil, append_nil, foldl_nil]
  | cons e entries ih =>
    rw [foldl_cons, ih, OpenDir.add, map_cons, append_assoc, singleton_append]

section
variable {n : Nat} {path : List Char} {outcome : Fin n → Outcome DirentExtended}

/-- A result of the cached way. -/
theorem takeResult_eq (ret : Int × OpenDir) (host : Fin n) :
    takeResult outcome ret host = ((forwardGetDirentsSingle (outcome host)).1,
      { ret.2 with entries := ret.2.entries ++ listedBy (outcome host) }) := by
  rw [takeResult, foldl_add]
  cases outcome host with
  | error err => rfl
  | ok entries => rfl

/-- An outcome of the plain way. -/
theorem takeOutcome_eq (ret : Int × OpenDir) (host : Fin n) :
    takeOutcome (fun host => (outcome host).map (List.map plain)) ret host =
      (if Reports (outcome host) then (forwardGetDirentsSingle (outcome host)).1 else ret.1,
        { ret.2 with entries := ret.2.entries ++ listedBy (outcome host) }) := by
  rw [takeOutcome]
  cases outcome host with
  | error err =>
    rw [listedBy, append_nil]
    rfl
  | ok entries =>
    rw [listedBy, Except.map]
    dsimp only
    rw [foldl_add, map_map]
    rfl

/-- Both loops collect the entries of the daemons in turn. -/
theorem foldl_entries {take : Int × OpenDir → Fin n → Int × OpenDir}
    (htake : ∀ ret host, (take ret host).2 =
      { ret.2 with entries := ret.2.entries ++ listedBy (outcome host) })
    (hosts : List (Fin n)) (ret : Int × OpenDir) :
    (hosts.foldl take ret).2 =
      { ret.2 with
        entries := ret.2.entries ++ hosts.flatMap fun host => listedBy (outcome host) } := by
  induction hosts generalizing ret with
  | nil => rw [flatMap_nil, append_nil, foldl_nil]
  | cons host hosts ih => rw [foldl_cons, ih, htake, flatMap_cons, append_assoc]

/-- The two ways collect the same directory. -/
theorem forwardGetDirents_snd :
    (forwardGetDirents path fun host => (outcome host).map (List.map plain)).2 =
      (collectResults path outcome).2 := by
  have hplain : ∀ ret host, (takeOutcome (fun host => (outcome host).map (List.map plain)) ret
      host).2 = _ := fun ret host => congrArg Prod.snd (takeOutcome_eq ret host)
  have hcached : ∀ ret host, (takeResult outcome ret host).2 = _ := fun ret host =>
    congrArg Prod.snd (takeResult_eq ret host)
  exact (foldl_entries hplain _ _).trans (foldl_entries hcached _ _).symm

theorem forwardGetDirentsSingle_fst (o : Outcome DirentExtended) :
    (forwardGetDirentsSingle o).1 = 0 ↔ ¬ Reports o := by
  cases o with
  | error err => exact iff_of_false err.2 (not_not.2 trivial)
  | ok entries => exact iff_of_true rfl id

/-- The error of a plain listing is 0 if it was 0 before and no daemon reports one. -/
theorem foldl_takeOutcome_fst (hosts : List (Fin n)) (ret : Int × OpenDir) :
    (hosts.foldl (takeOutcome fun host => (outcome host).map (List.map plain)) ret).1 = 0 ↔
      ret.1 = 0 ∧ ∀ host ∈ hosts, ¬ Reports (outcome host) := by
  induction hosts generalizing ret with
  | nil => exact ⟨fun h => ⟨h, fun _ hmem => absurd hmem not_mem_nil⟩, And.left⟩
  | cons host hosts ih =>
    rw [foldl_cons, ih, takeOutcome_eq, forall_mem_cons, ← and_assoc]
    refine and_congr_left' ?_
    dsimp only
    split
    · next h =>
      exact iff_of_false (mt (forwardGetDirentsSingle_fst _).1 (not_not.2 h)) fun h' => h'.2 h
    · next h => exact (and_iff_left h).symm

theorem forwardGetDirents_fst :
    (forwardGetDirents path fun host => (outcome host).map (List.map plain)).1 = 0 ↔
      ∀ host, ¬ Reports (outcome host) := by
  rw [forwardGetDirents, foldl_takeOutcome_fst]
  simp only [true_and, mem_finRange, true_imp_iff]

end

section
variable {n : Nat} {path : List Char} {md : Except Int Metadata}
  {outcome : Fin (n + 1) → Outcome DirentExtended}

/-- The error of the cached way is that of the last daemon. -/
theorem collectResults_fst :
    (collectResults path outcome).1 = 0 ↔ ¬ Reports (outcome (Fin.last n)) := by
  rw [collectResults, finRange_succ_last, foldl_append, foldl_cons, foldl_nil,
    takeResult_eq]
  exact forwardGetDirentsSingle_fst _

/-- The end of a call. -/
theorem ite_eq_ok_iff (ret : Int × OpenDir) (dir : OpenDir) :
    (if ret.1 ≠ 0 then .error ret.1 else .ok ret.2 : Except Int OpenDir) = .ok dir ↔
      ret.1 = 0 ∧ ret.2 = dir := by
  split
  · next herr => exact iff_of_false (fun h => nomatch h) fun h => herr h.1
  · next herr => rw [Except.ok.injEq, and_iff_right (not_not.1 herr)]

/-- When a call succeeds, and with which directory. -/
theorem gkfsOpendir_eq_ok_iff (useDentryCache : Bool) (dir : OpenDir) :
    gkfsOpendir path useDentryCache md outcome = .ok dir ↔ IsDirectory md ∧
      (if useDentryCache then ¬ Reports (outcome (Fin.last n))
        else ∀ host, ¬ Reports (outcome host)) ∧ (collectResults path outcome).2 = dir := by
  cases md with
  | error err => exact iff_of_false (fun h => nomatch h) fun h => h.1
  | ok md =>
    rw [gkfsOpendir, IsDirectory]
    dsimp only
    cases hdir : isDir md.mode with
    | false => exact iff_of_false (fun h => nomatch h) fun h => nomatch h.1
    | true =>
      rw [Bool.not_true, if_neg Bool.false_ne_true, and_iff_right rfl, ite_eq_ok_iff]
      cases useDentryCache with
      | false => exact and_congr forwardGetDirents_fst (by rw [← forwardGetDirents_snd]; rfl)
      | true => exact and_congr_left' collectResults_fst

/-- Opening a directory with the cache reports missing daemons as opening without it does if and
only if the path is not a directory, no daemon reports an error, or the last one does. -/
theorem opendirAgrees_iff (path : List Char) (md : Except Int Metadata)
    (outcome : Fin (n + 1) → Outcome DirentExtended) :
    OpendirAgrees path md outcome ↔
      (IsDirectory md → (∃ host, Reports (outcome host)) → Reports (outcome (Fin.last n))) := by
  constructor
  · intro h hdir ⟨host, hhost⟩
    by_contra hlast
    exact h.complete _ ((gkfsOpendir_eq_ok_iff true _).2 ⟨hdir, hlast, rfl⟩) host hhost
  · intro h
    have hcomplete : IsDirectory md → ¬ Reports (outcome (Fin.last n)) →
        ∀ host, ¬ Reports (outcome host) := fun hdir hlast host hhost =>
      hlast (h hdir ⟨host, hhost⟩)
    refine ⟨fun dir hok => ?_, ?_, fun dir dir' hok hok' => ?_⟩
    · obtain ⟨hdir, hlast, -⟩ := (gkfsOpendir_eq_ok_iff true dir).1 hok
      exact hcomplete hdir hlast
    · refine exists_congr fun dir => ?_
      rw [gkfsOpendir_eq_ok_iff, gkfsOpendir_eq_ok_iff, if_pos rfl, if_neg Bool.false_ne_true]
      refine and_congr_right fun hdir => and_congr_left' ⟨hcomplete hdir, fun hall => hall _⟩
    · obtain ⟨-, -, rfl⟩ := (gkfsOpendir_eq_ok_iff true dir).1 hok
      obtain ⟨-, -, rfl⟩ := (gkfsOpendir_eq_ok_iff false dir').1 hok'
      rfl

end

/-! ## The outcomes on the wire -/

section
variable {n : Nat} (path : List Char)

/-- What comes of a request whose entries are pushed into a buffer. -/
def pushOutcome {ε : Type} (form : DirentsForm ε) (buffSize : Nat) (entries : List ε) : Outcome ε :=
  if form.outSize entries ≤ buffSize then .ok entries else .error ⟨ENOBUFS, by decide⟩

/-- The error and the directory of entries that were decoded. -/
def openDecoded (r : Int × List Dirent) : Int × OpenDir := (r.1, ⟨path, r.2.map dirEntry⟩)

/-- The plain listing that decodes the buffer of the client is the one over outcomes. -/
theorem forwardGetDirents_wire {listed : Fin n → List Dirent}
    (hlisted : ∀ host, NamesOk plainForm (listed host)) (fresh : Fin n → Nat → UInt8)
    {buf : List UInt8} (hbuf : buf.length = direntsBuffSize) {served : Fin n → List (Fin n)}
    (hserved : ∀ host, host ∈ served host ∧ (served host).Nodup) :
    forwardGetDirents path (fun host => pushOutcome plainForm (perHostBuffSize n) (listed host)) =
      openDecoded path
        (Wire.forwardGetDirents (fun host => .ok (listed host)) fresh buf served) := by
  have hstart : (0, ⟨path, []⟩) = openDecoded path (0, []) := rfl
  rw [forwardGetDirents, Wire.forwardGetDirents, hstart]
  refine foldl_hom (openDecoded path) fun r host => ?_
  rw [takeAnswer_eq hlisted hbuf hserved, takeOutcome, pushOutcome]
  by_cases hfits : Fits listed host
  · rw [if_pos hfits, if_pos (show _ ≤ _ from hfits)]
    dsimp only
    rw [foldl_add, openDecoded, openDecoded, map_append]
    rfl
  · rw [if_neg hfits, if_neg (show ¬ _ ≤ _ from hfits)]
    rfl

/-- The extended listing of a daemon that decodes the buffer of the client is the one over
outcomes. -/
theorem forwardGetDirentsSingle_wire {entries : List DirentExtended}
    (hentries : NamesOk extendedForm entries) (fresh : Nat → UInt8) (buf : List UInt8) :
    forwardGetDirentsSingle (pushOutcome extendedForm direntsBuffSize entries) =
      Wire.forwardGetDirentsSingle (.ok entries) fresh buf := by
  rw [forwardGetDirentsSingle_eq hentries, pushOutcome]
  split
  · rfl
  · rfl

end

/-! ## A daemon that is missed -/

/-- The first of two daemons reports an error. -/
def firstFails (host : Fin 2) : Outcome DirentExtended :=
  if host.val = 0 then .error ⟨ EIO, by decide⟩ else .ok []

/-- The second daemon answers, so the cached way returns a directory without the entries of the
first one, and the other way fails. -/
theorem opendir_misses_daemon :
    let md : Except Int Metadata := .ok ⟨0, 0, 0, 0o40777, 1, 0, 0, [], []⟩
    Reports (firstFails firstHost) ∧
      gkfsOpendir ['/'] true md firstFails = .ok ⟨['/'], []⟩ ∧
      gkfsOpendir ['/'] false md firstFails = .error EIO ∧
      ¬ OpendirAgrees ['/'] md firstFails := by
  refine ⟨trivial, rfl, by decide +kernel, fun h => ?_⟩
  exact h.complete _ rfl firstHost trivial

end GekkoFS.OpenDirs
