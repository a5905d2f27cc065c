import GekkoFS.Lib.Transition
import GekkoFS.NamespaceTree
import GekkoFS.RenameInvariant

/-!
# The names of renamed files

With the links between the names, the client finds each file under its current name only, and the
daemons list no other (`Names.liveOk`). So exactly the current names of the files are there, with
the right sizes, in every run whose writes meet `StepOk` (`liveOk_of_run`).
-/

namespace GekkoFS

open List Transition
open Metadata (allFields)

/-! ## Listings -/

section
variable {n : Nat} {cfg : MetadataConfig} {d : Distributor n} {s : RenameState n}
  {nodes nodes' : FileName → Slot} {older : Nat → List FileName} {bound : Nat}

/-- The entries of a daemon: each of them is that of the root or of a name. -/
theorem Refines.exists_stored {cl : DaemonCluster n} (h : Refines cfg d (RootOnly cfg) cl nodes)
    (hknown : ∀ name, nodes name ≠ .other) (hcfg : RenameBuild cfg) (host : Fin n) :
    ∃ stored, StoresEntries cfg (cl host).db stored ∧ ∀ key md, stored key = some md →
      md.size < 2 ^ 63 ∧ (key = ['/'] ∨ ∃ name nd, nodes name = .taken nd ∧
        (IsTombstone cfg md ↔ nd.dead = true) ∧ name.text = key) := by
  have hkey : ∀ key, (cl host).db.cell key = Cell.empty ∨
      ∃ md, ((cl host).db.cell key).Holds cfg md ∧ (key = ['/'] ∨ ∃ name nd,
        nodes name = .taken nd ∧ (IsTombstone cfg md ↔ nd.dead = true) ∧ name.text = key) := by
    intro key
    by_cases hname : ∃ name : FileName, name.text = key
    · obtain ⟨name, rfl⟩ := hname
      by_cases hhost : host = d.locateFileMetadata name.text 0
      · rw [hhost]
        cases hnode : nodes name with
        | other => exact absurd hnode (hknown name)
        | free => exact .inl (h.empty hnode)
        | taken nd =>
          obtain ⟨md, hholds, hmd⟩ := h.holds hnode
          exact .inr ⟨md, hholds, .inr ⟨name, nd, hnode,
            (and_iff_right hcfg.hasRename).trans (hmd.kept hcfg).blocks, rfl⟩⟩
      · exact .inl (h.apart name host (hknown name) hhost)
    · have hrest := h.others host key fun name htext => absurd ⟨name, htext⟩ hname
      rw [RootOnly] at hrest
      split at hrest
      · next hroot => exact .inr (hrest.imp fun md hholds => ⟨hholds, .inl hroot⟩)
      · exact .inl hrest
  have hslot : ∀ key, ∃ o : Option Metadata, (o = none → (cl host).db.cell key = Cell.empty) ∧
      ∀ md, o = some md → ((cl host).db.cell key).Holds cfg md ∧ (key = ['/'] ∨
        ∃ name nd, nodes name = .taken nd ∧ (IsTombstone cfg md ↔ nd.dead = true) ∧
          name.text = key) := by
    intro key
    rcases hkey key with hempty | ⟨md, hmd⟩
    · exact ⟨none, fun _ => hempty, fun md hnone => absurd hnone.symm (Option.some_ne_none md)⟩
    · refine ⟨some md, fun hnone => absurd hnone (Option.some_ne_none md), fun md' hmd' => ?_⟩
      cases hmd'
      exact hmd
  choose stored hempty hstored using hslot
  refine ⟨stored, fun key => ⟨hempty key, fun md hmd => ?_⟩, fun key md hmd => ?_⟩
  · obtain ⟨hholds, -⟩ := hstored key md hmd
    exact ⟨hholds.get, hholds.storable.inRange⟩
  · obtain ⟨hholds, hname⟩ := hstored key md hmd
    exact ⟨hholds.storable.size, hname⟩

namespace Names

/-- A listing that is exact returns names of files only. -/
theorem listsFiles (h : Names cfg d s nodes older bound) {β : Type} {b : Metadata → β}
    {stored : List Char → Option Metadata}
    (hstored : ∀ key md, stored key = some md → md.size < 2 ^ 63 ∧ (key = ['/'] ∨
      ∃ name nd, nodes name = .taken nd ∧ (IsTombstone cfg md ↔ nd.dead = true) ∧ name.text = key))
    {dir : CanonicalPath} {listing : Except DBException (List (List Char × β))}
    (hexact : ListsExactly b cfg stored dir listing) : s.ListsFiles dir listing := by
  obtain ⟨entries, hok, -, hmem⟩ := hexact
  refine ⟨entries, hok, fun e he => ?_⟩
  obtain ⟨hne, -, md, hmd, htomb, -⟩ := (hmem e.1 e.2).1 he
  rcases (hstored _ md hmd).2 with hroot | ⟨name, nd, hnd, hdead, htext⟩
  · exact absurd hroot (joinName_ne_root dir hne)
  · have hlive : nd.dead = false := Bool.eq_false_iff.2 fun hd => htomb (hdead.2 hd)
    obtain ⟨i, f, hi, rfl⟩ := h.exists_file hnd hlive
    exact ⟨i, f, hi, htext⟩

/-- What the client and the daemons report of the names. -/
theorem liveOk (h : Names cfg d s nodes older bound) (hcfg : RenameBuild cfg) {fuel : Nat}
    (hfuel : bound ≤ fuel) : s.LiveOk cfg d fuel := by
  have hstat : ∀ i f, s.files i = some f → ∃ md cl,
      Rename.gkfsStat cfg d s.daemons fuel f.name.text = some (.ok md, cl) ∧
        md.size = f.size := by
    intro i f hi
    have hfile := h.file i f hi
    obtain ⟨nd, hnd, hlive⟩ := hfile.live
    obtain ⟨first, nd', md, cl, hstat, hlast, hnd', hsize⟩ :=
      h.refines.gkfsStat_linked hcfg hfile.linked ((h.bound i f hi).trans hfuel) hnd hlive
    obtain ⟨first', nd'', hlast', hnd'', hsize'⟩ := hfile.size
    rw [hlast, Option.some.injEq] at hlast'
    rw [← hlast', hnd', Slot.taken.injEq] at hnd''
    exact ⟨md, cl, hstat, hsize.trans (hnd'' ▸ hsize')⟩
  have hmissing : ∀ name : FileName, (∀ i f, s.files i = some f → f.name ≠ name) → ∃ cl,
      Rename.gkfsStat cfg d s.daemons fuel name.text = some (.error ENOENT, cl) := by
    intro name hname
    refine h.refines.gkfsStat_missing hcfg (h.known name) (fun nd hnd => ?_) fuel
    refine (h.dead name nd hnd).resolve_right fun ⟨i, f, hi, hf⟩ => hname i f hi hf
  refine ⟨hstat, fun i f hi => ?_, fun i j f g hi hj hname => ?_, fun name hname => ?_,
    fun host dir => ?_⟩
  · obtain ⟨md, cl, hmd, -⟩ := hstat i f hi
    exact ⟨cl, by rw [Rename.gkfsAccess, hmd]; rfl⟩
  · exact h.eq_of_mem hi hj mem_cons_self (hname ▸ mem_cons_self)
  · obtain ⟨cl, hcl⟩ := hmissing name hname
    exact ⟨⟨cl, hcl⟩, cl, by rw [Rename.gkfsAccess, hcl]; rfl⟩
  · obtain ⟨stored, hstores, hstored⟩ := h.refines.exists_stored h.known hcfg host
    have hsizes : ChildSizesOk stored dir := fun name md _ _ hmd => (hstored _ md hmd).1
    obtain ⟨hplain, hextended⟩ := hstores.direntsExact hsizes
    exact ⟨h.listsFiles hstored hplain, h.listsFiles hstored hextended⟩

end Names

/-! ## Runs -/

namespace RenameState

/-- A client that has not made a call yet. -/
def start (cl : DaemonCluster n) : RenameState n := ⟨cl, [], fun _ => none, 0⟩

/-- Daemons that have just started hold the entry of the root only. -/
theorem refines_initialCluster (now : Fin n → Int64) :
    Refines cfg d (RootOnly cfg) (initialCluster cfg now) fun _ => .free := by
  have hcell : ∀ host key, key ≠ ['/'] →
      (initialCluster cfg now host).db.cell key = Cell.empty := by
    intro host key hkey
    rcases rpcSrvCreate_db cfg ⟨∅, fun _ => none, ∅⟩ CanonicalPath.root.text 0o40777 (now host)
      with ⟨-, -, hdb⟩ | ⟨-, hdb⟩
    · rw [initialCluster, hdb]
      exact (DB.cell_merge_ne hkey ..).trans rfl
    · rw [initialCluster, hdb]
      rfl
  have hempty : DB.cell ∅ ['/'] = Cell.empty := rfl
  refine ⟨fun name => hcell _ _ name.notRoot, fun name host _ _ => hcell host _ name.notRoot,
    fun host key _ => ?_⟩
  rw [RootOnly]
  split
  · next hroot =>
    rw [hroot]
    exact ⟨_, @rpcSrvCreate_empty cfg ⟨∅, fun _ => none, ∅⟩ _ hempty 0o40777 _⟩
  · next hroot => exact hcell host key hroot

/-- No file has a name at the start. -/
theorem names_start (now : Fin n → Int64) (bound : Nat) :
    Names cfg d (start (initialCluster cfg now)) (fun _ => .free) (fun _ => []) bound where
  refines := refines_initialCluster now
  known _ := Slot.noConfusion
  file _ f hi := absurd hi.symm (Option.some_ne_none f)
  dead _ _ hnd := Slot.noConfusion hnd
  apart _ _ f _ hi := absurd hi.symm (Option.some_ne_none f)
  bound _ f hi := absurd hi.symm (Option.some_ne_none f)
  created _ f hi := absurd hi.symm (Option.some_ne_none f)
  opened _ hp := absurd hp not_mem_nil

/-- In every run whose writes meet the condition, and with enough fuel for one turn per call, all
calls return and every file has exactly one name. -/
theorem liveOk_of_run (hcfg : RenameBuild cfg) (now : Fin n → Int64) {fuel : Nat}
    {calls : List RenameCall} (hfuel : calls.length ≤ fuel)
    (hok : Transition.AllOk (step cfg d fuel) StepOk (start (initialCluster cfg now)) calls) :
    ∃ s, run (step cfg d fuel) (start (initialCluster cfg now)) calls = some s ∧
      s.LiveOk cfg d fuel := by
  have hcount := run_countdown
    (I := fun k s => k ≤ fuel ∧ ∃ nodes older, Names cfg d s nodes older (fuel - k))
    (fun k s call ⟨hk, nodes, older, hnames⟩ hcall => by
      obtain ⟨s', hs', nodes', older', hnames'⟩ := hnames.step hcfg (Nat.sub_le _ _) hcall
      rw [show fuel - (k + 1) + 1 = fuel - k by omega] at hnames'
      exact ⟨s', hs', Nat.le_of_succ_le hk, nodes', older', hnames'⟩)
    ⟨hfuel, _, _, names_start now (fuel - calls.length)⟩ hok
  obtain ⟨s, hrun, -, nodes, older, hnames⟩ := hcount
  exact ⟨s, hrun, hnames.liveOk hcfg le_rfl⟩

end RenameState

end

/-! ### Runs on fixed inputs -/

def nameA : FileName := ⟨"/a".toList, by decide, by decide, by decide, by decide⟩
def nameB : FileName := ⟨"/b".toList, by decide, by decide, by decide, by decide⟩
def nameC : FileName := ⟨"/c".toList, by decide, by decide, by decide, by decide⟩

namespace RenameState

/-- A file is created, renamed twice and back, written before and after, and removed; its first name
is used again. -/
def renamingCalls : List RenameCall :=
  [.openFile nameA 0o644 ⟨true, false, false⟩ 1, .write 0 [1, 2, 3] 0 0 2, .rename nameA nameB 3,
    .rename nameB nameC 4, .write 0 [4, 5] 10 0 5, .rename nameC nameB 6,
    .openFile nameB 0o644 ⟨false, false, true⟩ 7, .write 1 [6] 0 9 8, .remove nameB,
    .openFile nameA 0o600 ⟨true, true, false⟩ 9, .rename nameA nameC 10]

theorem liveOk_of_run_renamingCalls :
    RenameBuild allFields ∧ renamingCalls.length ≤ 20 ∧
      Transition.AllOk (step allFields splitPlacement 20) StepOk
        (start (initialCluster allFields fun _ => 0)) renamingCalls ∧
      ∃ s, run (step allFields splitPlacement 20)
          (start (initialCluster allFields fun _ => 0)) renamingCalls = some s ∧
        s.LiveOk allFields splitPlacement 20 := by
  have hcfg : RenameBuild allFields := ⟨rfl, rfl, rfl⟩
  have hok : Transition.AllOk (step allFields splitPlacement 20) StepOk
      (start (initialCluster allFields fun _ => 0)) renamingCalls := by decide +kernel
  exact ⟨hcfg, by decide, hok, liveOk_of_run hcfg _ (by decide) hok⟩

/-- The state after calls, if all of them return. -/
def runCalls (calls : List RenameCall) : Option (RenameState 2) :=
  run (step allFields splitPlacement 20)
    (start (initialCluster allFields fun _ => 0)) calls

/-- A renamed file is written at the end of the range of offsets. -/
def farCalls : List RenameCall :=
  [.openFile nameA 0o644 ⟨true, false, false⟩ 1, .rename nameA nameB 2,
    .write 0 [1] Int64.maxValue 0 3]

/-- A file is written after it was removed. -/
def removedCalls : List RenameCall :=
  [.openFile nameA 0o644 ⟨true, false, false⟩ 1, .remove nameA, .write 0 [1] 0 0 2]

/-- The name of the renamed file is not found although the write has reported success. The name of
the removed file is neither missing nor a file, and the listing of its directory fails. -/
theorem names_fail :
    (∃ s, runCalls farCalls = some s ∧ s.files 0 = some ⟨nameB, 2 ^ 63⟩ ∧
      ¬ s.LiveOk allFields splitPlacement 20) ∧
    ∃ s, runCalls removedCalls = some s ∧ s.files 0 = none ∧
      (Rename.gkfsStat allFields splitPlacement s.daemons 20 nameA.text).map
        (fun r => r.1.toOption.isSome) = some false ∧
      ¬ s.LiveOk allFields splitPlacement 20 := by
  -- each run is evaluated once, with all that is asked of its last state
  have hfar : (runCalls farCalls).map (fun s => (s.files 0,
      (Rename.gkfsStat allFields splitPlacement s.daemons 20 nameB.text).map
        fun r => r.1.toOption.isSome)) = some (some ⟨nameB, 2 ^ 63⟩, some false) := by
    decide +kernel
  have hremoved : (runCalls removedCalls).map (fun s => (s.files 0,
      (Rename.gkfsStat allFields splitPlacement s.daemons 20 nameA.text).map
        (fun r => r.1.toOption.isSome),
      ((s.daemons (splitPlacement.locateFileMetadata nameA.text 0)).getDirentsImpl
        allFields (direntsRoot CanonicalPath.root.text)).1.toOption.isSome)) =
      some (none, some false, false) := by
    decide +kernel
  constructor
  · obtain ⟨s, hrun, hs⟩ := Option.map_eq_some_iff.1 hfar
    obtain ⟨hfile, hstat⟩ := Prod.mk.inj hs
    refine ⟨s, hrun, hfile, fun hlive => ?_⟩
    obtain ⟨md, cl, hfound, -⟩ := hlive.stat 0 ⟨nameB, 2 ^ 63⟩ hfile
    rw [hfound] at hstat
    cases hstat
  · obtain ⟨s, hrun, hs⟩ := Option.map_eq_some_iff.1 hremoved
    obtain ⟨hfile, hs⟩ := Prod.mk.inj hs
    obtain ⟨hstat, hlist⟩ := Prod.mk.inj hs
    refine ⟨s, hrun, hfile, hstat, fun hlive => ?_⟩
    obtain ⟨entries, hlisting, -⟩ :=
      (hlive.listed (splitPlacement.locateFileMetadata nameA.text 0) CanonicalPath.root).1
    rw [hlisting] at hlist
    cases hlist

end RenameState

end GekkoFS
