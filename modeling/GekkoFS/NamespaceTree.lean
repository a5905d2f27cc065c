import GekkoFS.Client.Namespace
import GekkoFS.Lib.Hierarchy
import GekkoFS.Lib.Transition

/-!
# The entries are a tree

The daemons keep the entries under their paths, each on the daemon of its own hash; that they form a
tree is up to the checks of the clients. A creation asks for its parent first, a removal is refused
by the metadata daemon if the entry is a directory, and a directory is removed only if no daemon
lists an entry below it. So every call keeps the entries a tree (`isTree_step`), from the root
directory that every daemon starts with, except that nothing protects the root itself: it can be
removed when it is empty (`rmdir_removes_root`).
-/

namespace GekkoFS

open CanonicalPath Transition

section
variable {n : Nat} (cfg : MetadataConfig) (d : Distributor n)

/-- The root is a directory, and the parent of every other entry is one. -/
def IsTree (cl : DaemonCluster n) : Prop :=
  Hierarchy.Closed parent root (fun md => isDir md.mode = true)
    (entryAt cfg d cl)

/-- A call of the client. -/
inductive NamespaceCall
  | create (p : CanonicalPath) (mode : UInt32) (now : Int64)
  | remove (p : CanonicalPath)
  | rmdir (p : CanonicalPath)
  deriving DecidableEq

/-- The error code of a call, and the daemons after it. -/
def NamespaceCall.serve (cl : DaemonCluster n) : NamespaceCall → Int × DaemonCluster n
  | .create p mode now => gkfsCreate cfg d cl p.text mode now
  | .remove p => gkfsRemove cfg d cl p.text
  | .rmdir p => gkfsRmdir cfg d cl p.text

/-- The daemons after a call. -/
def namespaceStep (cl : DaemonCluster n) (call : NamespaceCall) : Option (DaemonCluster n) :=
  some (call.serve cfg d cl).2

/-- The daemons when they have started. Each of them creates the entry of the root, at its own time.
Source: `init_environment` (`daemon.cpp:504`). -/
def initialCluster (now : Fin n → Int64) : DaemonCluster n := fun host =>
  (rpcSrvCreate cfg ⟨∅, fun _ => none, ∅⟩ root.text 0o40777 (now host)).2

/-- The call does not remove the root directory while nothing is in it. -/
def KeepsRoot (cl : DaemonCluster n) : NamespaceCall → Prop
  | .rmdir p => p = root →
    ∃ q, q ≠ root ∧ q.parent = root ∧ entryAt cfg d cl q ≠ none
  | .create .. | .remove _ => True

end

section
variable {n : Nat} {cfg : MetadataConfig} {d : Distributor n} {cl : DaemonCluster n}

/-- Every daemon starts with the entry of the root. -/
theorem readEntry_initialCluster (now : Fin n → Int64) (host : Fin n) :
    (initialCluster cfg now host).readEntry cfg = Function.update (fun _ => none)
      root.text
      (some ((Metadata.ofMode cfg (now host).toInt 0o40777).kept cfg)) := by
  have hempty : MetadataDaemon.readEntry cfg ⟨∅, fun _ => none, ∅⟩ = fun _ => none :=
    funext fun path => readEntry_empty rfl
  rcases rpcSrvCreate_readEntry cfg ⟨∅, fun _ => none, ∅⟩ root.text 0o40777
    (now host) with ⟨-, -, hentry⟩ | ⟨herr, -⟩
  · rw [hempty] at hentry
    exact hentry
  · exact absurd rfl herr

theorem keepsRoot_of_ne {call : NamespaceCall} (h : call ≠ .rmdir root) :
    KeepsRoot cfg d cl call := by
  cases call with
  | create p mode now => exact trivial
  | remove p => exact trivial
  | rmdir p => exact fun hp => absurd (congrArg NamespaceCall.rmdir hp) h

/-- The root alone is a tree. -/
theorem isTree_initialCluster (now : Fin n → Int64) : IsTree cfg d (initialCluster cfg now) := by
  constructor
  · refine ⟨(Metadata.ofMode cfg (now (d.locateFileMetadata root.text 0)).toInt
      0o40777).kept cfg, ?_, show isDir 0o40777 = true by decide⟩
    rw [entryAt, readEntry_initialCluster, Function.update_self]
  · intro p md hp hentry
    rw [entryAt, readEntry_initialCluster, Function.update_of_ne fun htext =>
      hp (text_injective htext)] at hentry
    cases hentry

/-- A call that keeps the root keeps the tree. -/
theorem isTree_step (hrename : cfg.hasRename = false) (h : IsTree cfg d cl) {call : NamespaceCall}
    (hcall : KeepsRoot cfg d cl call) : IsTree cfg d (call.serve cfg d cl).2 := by
  cases call with
  | create p mode now =>
    rw [NamespaceCall.serve, IsTree]
    rcases gkfsCreate_entryAt cfg d cl p mode now with hsame | ⟨hnone, ⟨md, hmd, hdir⟩, md', hnew⟩
    · rw [hsame]
      exact h
    · rw [hnew]
      exact h.insert hnone hmd hdir md'
  | remove p =>
    rw [NamespaceCall.serve, IsTree]
    rcases forwardRemove_entryAt cfg d cl p false rfl with hsame | ⟨⟨md, hmd, hfile⟩, hremoved⟩
    · rw [gkfsRemove, hsame]
      exact h
    · have hnotdir : ¬ isDir md.mode = true := by
        rw [hfile]
        exact Bool.false_ne_true
      have hroot : p ≠ root := by
        rintro rfl
        obtain ⟨root, hrootEntry, hdir⟩ := h.atRoot
        rw [hmd] at hrootEntry
        cases hrootEntry
        exact hnotdir hdir
      rw [gkfsRemove, hremoved]
      exact h.erase hroot fun q hq hparent => h.childless hmd hnotdir hq hparent
  | rmdir p =>
    rw [NamespaceCall.serve, IsTree]
    rcases gkfsRmdir_entryAt hrename d cl p with hsame | ⟨hchild, hremoved⟩
    · rw [hsame]
      exact h
    · rw [hremoved]
      refine h.erase (fun hroot => ?_) hchild
      obtain ⟨q, hq, hparent, hentry⟩ := hcall hroot
      exact hentry (hchild q hq (hparent.trans hroot.symm))

/-- In every run in which no call removes the empty root directory, the entries are a tree. -/
theorem isTree_of_run (hrename : cfg.hasRename = false) (now : Fin n → Int64)
    {calls : List NamespaceCall}
    (hok : Transition.AllOk (namespaceStep cfg d) (KeepsRoot cfg d) (initialCluster cfg now) calls)
    (hrun : run (namespaceStep cfg d) (initialCluster cfg now) calls = some cl) :
    IsTree cfg d cl := by
  refine run_invariant (fun cl call cl' h hcall hstep => ?_)
    (isTree_initialCluster now) hok hrun
  cases hstep
  exact isTree_step hrename h hcall

end

/-- Two daemons, of which the second has the entries of all paths but the root. -/
def splitPlacement : Distributor 2 where
  place _ _ _ := firstHost
  locateFileMetadata path _ := if path = ['/'] then firstHost else secondHost

/-- A directory with a file in it, which is not removed before the file. -/
def dirCalls : List NamespaceCall :=
  [.create (canonicalForm "/a".toList) 0o40755 0, .create (canonicalForm "/a/b".toList) 0o644 0,
    .rmdir (canonicalForm "/a".toList), .create (canonicalForm "/a/b/c".toList) 0o644 0,
    .remove (canonicalForm "/a/b".toList)]

/-- After these calls the directory is there without the file. -/
theorem isTree_of_run_dirCalls :
    ∃ cl, run (namespaceStep .default splitPlacement)
        (initialCluster .default fun _ => 0) dirCalls = some cl ∧
      (entryAt .default splitPlacement cl (canonicalForm "/a".toList)).isSome = true ∧
      entryAt .default splitPlacement cl (canonicalForm "/a/b".toList) = none ∧
      IsTree .default splitPlacement cl := by
  refine ⟨(run (namespaceStep .default splitPlacement)
    (initialCluster .default fun _ => 0) dirCalls).get rfl, (Option.some_get _).symm, by decide,
    by decide, ?_⟩
  refine isTree_of_run rfl (fun _ => 0) ?_ (Option.some_get _).symm
  have hcalls : ∀ call ∈ dirCalls, call ≠ .rmdir root := by decide
  exact allOk_of_forall fun call hcall cl => keepsRoot_of_ne (hcalls call hcall)

/-- The root directory can be removed, and then there is no tree. -/
theorem rmdir_removes_root :
    ∃ cl, run (namespaceStep .default splitPlacement)
        (initialCluster .default fun _ => 0) [.rmdir root] = some cl ∧
      entryAt .default splitPlacement cl root = none ∧
      ¬ IsTree .default splitPlacement cl := by
  have hroot : entryAt .default splitPlacement ((NamespaceCall.rmdir root).serve
      .default splitPlacement (initialCluster .default fun _ => 0)).2 root =
        none := by
    decide
  refine ⟨_, rfl, hroot, fun h => ?_⟩
  obtain ⟨md, hmd, -⟩ := h.atRoot
  rw [hroot] at hmd
  cases hmd

end GekkoFS
