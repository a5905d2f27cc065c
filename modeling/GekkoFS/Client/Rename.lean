import GekkoFS.Client.WriteSizeCache
import GekkoFS.Daemon.EntryUpdates

/-!
# Renaming files

A rename leaves the data and the size of a file where they are: the entry of the old name stays with
a block count of -1, and the entry of the new name has the old name as its target. A file that was
renamed several times has a chain of entries, from its current name to the name it was created with.
The functions of the client that deal with such entries are translated here, in the build that has
them: `gkfs_rename`, `gkfs_stat`, `gkfs_access`, `gkfs_open`, `gkfs_remove` and writes to an open
file. Every request is delivered and answered, there is no replication, no entry is a symbolic link,
and the client has no cache. The loops that follow targets may not end, so they have a number of
turns as fuel.
-/

namespace GekkoFS

/-- The name of a file: a C string that the entries can hold, other than the root. -/
structure FileName where
  text : List Char
  nonempty : text ≠ []
  notRoot : text ≠ ['/']
  noSeparator : MSP ∉ text
  isCString : '\x00' ∉ text

theorem FileName.ext {name name' : FileName} (h : name.text = name'.text) : name = name' := by
  cases name
  cases name'
  cases h
  rfl

instance : DecidableEq FileName := fun name name' =>
  decidable_of_iff (name.text = name'.text) ⟨FileName.ext, congrArg FileName.text⟩

/-- The flags of an open file that are modelled. Source: `O_CREAT`, `O_EXCL` and `O_APPEND` of
`fcntl.h`. -/
structure OpenFlags where
  create : Bool
  excl : Bool
  append : Bool
  deriving DecidableEq

/-- An open file or directory. Source: `OpenFile` (`open_file_map.hpp:59`). -/
structure OpenedFile where
  path : List Char
  append : Bool
  isDirectory : Bool
  deriving DecidableEq

namespace Rename

section
variable {n : Nat} (cfg : MetadataConfig) (d : Distributor n) (cl : DaemonCluster n)

/-! ## Requests -/

/-- Source: `forward_update_metadentry` (`client/rpc/forward_metadata.cpp:336`). -/
def forwardUpdateMetadentry (path : List Char) (u : UpdateMetadentryIn) : Int × DaemonCluster n :=
  let host := d.locateFileMetadata path 0
  let r := rpcSrvUpdateMetadentry cfg (cl host) path u
  (r.1, Function.update cl host r.2)

/-- Source: `forward_rename` (`client/rpc/forward_metadata.cpp:479`). -/
def postMkSymlink (path : List Char) (l : MkSymlinkIn) : Int × DaemonCluster n :=
  let host := d.locateFileMetadata path 0
  let r := rpcSrvMkSymlink cfg (cl host) path l
  (r.1, Function.update cl host r.2)

/-- `forward_remove` without replication. -/
def forwardRemove (path : List Char) (rmDir : Bool) : Int × DaemonCluster n :=
  GekkoFS.forwardRemove cfg d cl path rmDir 0 (fun _ => .delivered) fun _ => .delivered

/-- The fields that a rename sets at the old name: the block count, and what the client has read and
is not zero. Source: `forward_rename` (`client/rpc/forward_metadata.cpp:410`). -/
def renamedIn (md : Metadata) : UpdateMetadentryIn where
  nlink := if md.linkCount ≠ 0 then some (UInt64.ofNat md.linkCount) else none
  size := if md.size ≠ 0 then some (Int64.ofNat md.size) else none
  blocks := some (-1)
  atime := if md.atime ≠ 0 then some (Int64.ofInt md.atime) else none
  mtime := if md.mtime ≠ 0 then some (Int64.ofInt md.mtime) else none
  ctime := if md.ctime ≠ 0 then some (Int64.ofInt md.ctime) else none

/-- The fields that a rename back sets at the new name. Source: `gkfs_rename`
(`gkfs_functions.cpp:463`). -/
def restoredIn : UpdateMetadentryIn := ⟨none, none, some 0, none, none, none⟩

/-- The errors of the requests are not looked at. Source: `forward_rename`
(`client/rpc/forward_metadata.cpp:396`). -/
def forwardRename (oldpath newpath : FileName) (md : Metadata) (now : Int64) :
    Int × DaemonCluster n :=
  let cl := (forwardUpdateMetadentry cfg d cl oldpath.text (renamedIn md)).2
  let cl := (forwardCreate cfg d cl newpath.text (UInt32.ofNat md.mode) now).2
  let cl := (postMkSymlink cfg d cl newpath.text ⟨oldpath.text, oldpath.isCString⟩).2
  (0, (postMkSymlink cfg d cl oldpath.text ⟨newpath.text, newpath.isCString⟩).2)

/-! ## Functions of the client -/

/-- The return value, 0 or -1. An entry that the client cannot parse ends the call, as in
`getMetadata`. Source: `gkfs_rename` (`gkfs_functions.cpp:447`). -/
def gkfsRename (oldPath newPath : FileName) (now : Int64) : Int × DaemonCluster n :=
  match getMetadata cfg d cl oldPath.text with
  | (.error _, cl) => (-1, cl)
  | (.ok mdOld, cl) =>
    if mdOld.blocks = -1 then (-1, cl)
    else
      match getMetadata cfg d cl newPath.text with
      | (.ok mdNew, cl) =>
        if mdNew.blocks = -1 ∧ mdOld.targetPath = newPath.text then
          match forwardUpdateMetadentry cfg d cl newPath.text restoredIn with
          | (err, cl) =>
            if err ≠ 0 then (-1, cl)
            else
              match forwardRemove cfg d cl oldPath.text (isDir mdOld.mode) with
              | (err, cl) => (if err ≠ 0 then -1 else 0, cl)
        else (-1, cl)
      | (.error err, cl) =>
        if err = EIO then (-1, cl)
        else
          match forwardRename cfg d cl oldPath newPath mdOld now with
          | (err, cl) => (if err ≠ 0 then -1 else 0, cl)

/-- Go from an entry to its target until there is none: the last path and its entry, or the error of
the first entry that is not there. Source: the loops of `gkfs_stat`, `gkfs_access`, `gkfs_open` and
`gkfs_remove` (`gkfs_functions.cpp:529`, `:417`, `:228`, `:363`). -/
def followTargets : Nat → Metadata → List Char → DaemonCluster n →
    Option (Except Int (List Char × Metadata) × DaemonCluster n)
  | 0, md, path, cl => if md.targetPath = [] then some (.ok (path, md), cl) else none
  | fuel + 1, md, path, cl =>
    if md.targetPath = [] then some (.ok (path, md), cl)
    else
      match getMetadata cfg d cl md.targetPath with
      | (.error err, cl) => some (.error err, cl)
      | (.ok md', cl) => followTargets fuel md' md.targetPath cl

/-- The entry whose fields `stat` reports. Source: `gkfs_stat` (`gkfs_functions.cpp:518`). -/
def gkfsStat (fuel : Nat) (path : List Char) : Option (Except Int Metadata × DaemonCluster n) :=
  match getMetadata cfg d cl path with
  | (.error err, cl) => some (.error err, cl)
  | (.ok md, cl) =>
    if md.blocks = -1 then some (.error ENOENT, cl)
    else (followTargets cfg d fuel md path cl).map fun r => (r.1.map Prod.snd, r.2)

/-- Source: `gkfs_access` (`gkfs_functions.cpp:402`), whose body is that of `gkfs_stat`. -/
def gkfsAccess (fuel : Nat) (path : List Char) : Option (Int × DaemonCluster n) :=
  (gkfsStat cfg d cl fuel path).map fun r =>
    (match r.1 with
      | .ok _ => 0
      | .error err => err, r.2)

/-- The error code, or 0. The entry of the first target is read once more than is needed. Source:
`gkfs_remove` (`gkfs_functions.cpp:343`). -/
def gkfsRemove (fuel : Nat) (path : List Char) : Option (Int × DaemonCluster n) :=
  match getMetadata cfg d cl path with
  | (.error err, cl) => some (err, cl)
  | (.ok md, cl) =>
    if isDir md.mode then some (EISDIR, cl)
    else if md.blocks = -1 then some (ENOENT, cl)
    else if md.targetPath = [] then some (forwardRemove cfg d cl path false)
    else
      match followTargets cfg d fuel md path (getMetadata cfg d cl md.targetPath).2 with
      | none => none
      | some (.error err, cl) => some (err, cl)
      | some (.ok (newPath, _), cl) =>
        match forwardRemove cfg d cl newPath false with
        | (err, cl) =>
          if err ≠ 0 then some (err, cl) else some (forwardRemove cfg d cl path false)

/-- Source: `gkfs_opendir` (`gkfs_functions.cpp:1333`). -/
def gkfsOpendir (path : List Char) : Except Int OpenedFile × DaemonCluster n :=
  match getMetadata cfg d cl path with
  | (.error err, cl) => (.error err, cl)
  | (.ok md, cl) =>
    if !isDir md.mode then (.error ENOTDIR, cl)
    else
      match forwardGetDirents cfg cl path with
      | ((err, _), cl) => (if err ≠ 0 then .error err else .ok ⟨path, false, true⟩, cl)

/-- Open what a path is the entry of. -/
def openEntry (path : List Char) (md : Metadata) (flags : OpenFlags) :
    Except Int OpenedFile × DaemonCluster n :=
  if isDir md.mode then gkfsOpendir cfg d cl path else (.ok ⟨path, flags.append, false⟩, cl)

/-- Open a path whose entry has been read. A first target that is not there makes the client throw.
Source: `gkfs_open` (`gkfs_functions.cpp:216`). -/
def openExisting (fuel : Nat) (path : List Char) (md : Metadata) (flags : OpenFlags) :
    Option (Except Int OpenedFile × DaemonCluster n) :=
  if md.blocks = -1 then some (.error ENOENT, cl)
  else if md.targetPath = [] then some (openEntry cfg d cl path md flags)
  else
    match getMetadata cfg d cl md.targetPath with
    | (.error _, cl) => some (.error EIO, cl)
    | (.ok md', cl) =>
      match followTargets cfg d fuel md' md.targetPath cl with
      | none => none
      | some (.error err, cl) => some (.error err, cl)
      | some (.ok (newPath, md), cl) => some (openEntry cfg d cl newPath md flags)

/-- Source: `gkfs_open` (`gkfs_functions.cpp:141`). -/
def gkfsOpen (fuel : Nat) (path : List Char) (mode : UInt32) (flags : OpenFlags) (now : Int64) :
    Option (Except Int OpenedFile × DaemonCluster n) :=
  if flags.create then
    match gkfsCreate cfg d cl path (mode ||| 0x8000) now with
    | (err, cl) =>
      if err = 0 then some (.ok ⟨path, flags.append, false⟩, cl)
      else if err ≠ EEXIST ∨ flags.excl then some (.error err, cl)
      else
        match getMetadata cfg d cl path with
        | (.error err, cl) => some (.error err, cl)
        | (.ok md, cl) =>
          if md.blocks = -1 then some (.error EEXIST, cl)
          else openExisting cfg d cl fuel path md flags
  else
    match getMetadata cfg d cl path with
    | (.error err, cl) => some (.error err, cl)
    | (.ok md, cl) => openExisting cfg d cl fuel path md flags

/-- The size written, or an error. Source: `gkfs_do_write` (`gkfs_functions.cpp:923`). -/
def gkfsDoWrite (file : OpenedFile) (buf : List UInt8) (offset : Int64) (mergeId : UInt16)
    (now : Int64) : Except Int Int × DaemonCluster n :=
  if file.isDirectory then (.error EISDIR, cl)
  else
    match FileSystem.gkfsDoWrite cfg d ⟨none, cl⟩ file.path buf offset file.append mergeId now with
    | (ret, fs) => (ret, fs.daemons)

end

end Rename

end GekkoFS
