import GekkoFS.Client.RenameEntries
import GekkoFS.DirentsExact

/-!
# Calls that rename files

A client opens, writes, renames and removes files (`RenameState.step`). Beside the daemons and the
open files, the state has a book of the files that the calls have created and not removed, with the
name and the size that each of them should have by the calls that reported success.
`RenameState.LiveOk` says that the client and the daemons report exactly the names in the book.
-/

namespace GekkoFS

/-! ## Calls -/

/-- The name and the size that a file should have. -/
structure FileInfo where
  name : FileName
  size : Nat
  deriving DecidableEq

/-- The daemons, the open files of the client, each with the number of its file, and the files by
number. -/
structure RenameState (n : Nat) where
  daemons : DaemonCluster n
  opened : List (OpenedFile × Nat)
  files : Nat → Option FileInfo
  created : Nat

/-- A call of the client. An open file is named by its place in the list. -/
inductive RenameCall
  | openFile (name : FileName) (mode : UInt32) (flags : OpenFlags) (now : Int64)
  | write (fd : Nat) (buf : List UInt8) (offset : Int64) (mergeId : UInt16) (now : Int64)
  | rename (oldPath newPath : FileName) (now : Int64)
  | remove (path : FileName)
  deriving DecidableEq

namespace RenameState

section
variable {n : Nat} (cfg : MetadataConfig) (d : Distributor n) (fuel : Nat) (s : RenameState n)

/-- The number of the file with a name. -/
def fileNamed (name : FileName) : Option Nat :=
  (List.range s.created).find? fun i => (s.files i).any fun f => f.name = name

/-- The state after a call, if it returns. -/
def step : RenameCall → Option (RenameState n)
  | .openFile name mode flags now =>
    match Rename.gkfsOpen cfg d s.daemons fuel name.text mode flags now with
    | none => none
    | some (.error _, cl) => some { s with daemons := cl }
    | some (.ok file, cl) =>
      match s.fileNamed name with
      | some i => some { s with daemons := cl, opened := s.opened ++ [(file, i)] }
      | none => some ⟨cl, s.opened ++ [(file, s.created)],
          Function.update s.files s.created (some ⟨name, 0⟩), s.created + 1⟩
  | .write fd buf offset mergeId now =>
    match s.opened[fd]? with
    | none => some s
    | some (file, i) =>
      match Rename.gkfsDoWrite cfg d s.daemons file buf offset mergeId now with
      | (.error _, cl) => some { s with daemons := cl }
      | (.ok _, cl) =>
        some { s with
          daemons := cl
          files := Function.update s.files i ((s.files i).map fun f =>
            { f with size := writtenSize file.append f.size offset buf.length }) }
  | .rename oldPath newPath now =>
    match Rename.gkfsRename cfg d s.daemons oldPath newPath now with
    | (ret, cl) =>
      if ret ≠ 0 then some { s with daemons := cl }
      else
        some { s with
          daemons := cl
          files := fun i => (s.files i).map fun f =>
            if f.name = oldPath then { f with name := newPath } else f }
  | .remove path =>
    match Rename.gkfsRemove cfg d s.daemons fuel path.text with
    | none => none
    | some (err, cl) =>
      if err ≠ 0 then some { s with daemons := cl }
      else
        some { s with
          daemons := cl
          files := fun i => (s.files i).filter fun f => f.name ≠ path }

/-- A write has between 1 and `2 ^ 31 - 1` bytes, at an offset that is not negative; the file has
not been removed since it was opened, and its size stays below `2 ^ 63`. -/
def StepOk : RenameCall → Prop
  | .write fd buf offset _ _ => ∀ p ∈ s.opened[fd]?, ∃ f ∈ s.files p.2,
    0 < buf.length ∧ buf.length < 2 ^ 31 ∧ 0 ≤ offset.toInt ∧
      writtenSize p.1.append f.size offset buf.length < 2 ^ 63
  | _ => True

instance (call : RenameCall) : Decidable (s.StepOk call) :=
  match call with
  | .write _ _ _ _ _ => inferInstanceAs (Decidable (∀ p ∈ _, ∃ f ∈ _, _))
  | .openFile _ _ _ _ | .rename _ _ _ | .remove _ => isTrue trivial

/-- A listing returns names of files only. -/
def ListsFiles {β : Type} (dir : CanonicalPath)
    (listing : Except DBException (List (List Char × β))) : Prop :=
  ∃ entries, listing = .ok entries ∧
    ∀ e ∈ entries, ∃ i f, s.files i = some f ∧ f.name.text = joinName dir e.1

/-- Every file has exactly one name: the client finds it under this name, with its size, and under
no other; and no daemon lists another. -/
structure LiveOk : Prop where
  stat : ∀ i f, s.files i = some f → ∃ md cl,
    Rename.gkfsStat cfg d s.daemons fuel f.name.text = some (.ok md, cl) ∧ md.size = f.size
  access : ∀ i f, s.files i = some f → ∃ cl,
    Rename.gkfsAccess cfg d s.daemons fuel f.name.text = some (0, cl)
  injective : ∀ i j f g, s.files i = some f → s.files j = some g → f.name = g.name → i = j
  missing : ∀ name : FileName, (∀ i f, s.files i = some f → f.name ≠ name) →
    (∃ cl, Rename.gkfsStat cfg d s.daemons fuel name.text = some (.error ENOENT, cl)) ∧
      ∃ cl, Rename.gkfsAccess cfg d s.daemons fuel name.text = some ((ENOENT : Int), cl)
  listed : ∀ (host : Fin n) (dir : CanonicalPath),
    s.ListsFiles dir ((s.daemons host).getDirentsImpl cfg (direntsRoot dir.text)).1 ∧
      s.ListsFiles dir ((s.daemons host).getDirentsExtendedImpl cfg (direntsRoot dir.text)).1

end

end RenameState

end GekkoFS
