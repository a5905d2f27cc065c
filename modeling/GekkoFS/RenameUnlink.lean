import GekkoFS.RenameNames

/-!
# Unlinking renamed files

A removal of a renamed file removes the entries of its current name and of the name that it was
created with, and leaves those between. So all names that a file has had in a sequence of renames
are free afterwards if and only if `FreesAll` holds (`freed_iff`): each rename goes back to the name
before, except that the last one may go on from the name that the file was created with.

`Renamed` says what a sequence of renames does to the linked names of a file; the daemons follow it
(`renameAll_spec`), and which names a removal leaves is read off it (`Renamed.freesAll_iff`).
-/

namespace GekkoFS

open List
open Function (update update_of_ne update_self)
open Metadata (allFields)

/-! ## Renames of one file -/

/-- Rename a file from each name to the next one: its last name, if every rename succeeds. -/
def Rename.renameAll {n : Nat} (cfg : MetadataConfig) (d : Distributor n) :
    DaemonCluster n → FileName → List (FileName × Int64) → Option (FileName × DaemonCluster n)
  | cl, name, [] => some (name, cl)
  | cl, name, (new, now) :: steps =>
    match Rename.gkfsRename cfg d cl name new now with
    | (ret, cl) => if ret ≠ 0 then none else renameAll cfg d cl new steps

/-- No daemon has an entry of a name, and it can be created again. -/
structure Freed {n : Nat} (cfg : MetadataConfig) (d : Distributor n) (cl : DaemonCluster n)
    (name : FileName) : Prop where
  entry : ∀ host, (cl host).db.cell name.text = Cell.empty
  create : ∀ (mode mode' : UInt32) (now : Int64), createMode mode = .ok mode' →
    (checkParentDir cfg d cl name.text).1 = 0 → (gkfsCreate cfg d cl name.text mode now).1 = 0

/-- The names of a file, given the names before its current one: each is the one before, and only
the last may be a new one, if there is none before. -/
def FreesAll : List FileName → List FileName → Prop
  | _, [] => True
  | [], _ :: names => names = []
  | back :: older, name :: names => name = back ∧ FreesAll older names

/-- The linked names of a file after renames: a rename to the name before drops the current one, and
any other rename puts a new one in front. -/
inductive Renamed : List FileName → List FileName → List FileName → Prop
  | nil {l : List FileName} : Renamed l [] l
  | back {name new : FileName} {older names l : List FileName}
    (h : Renamed (new :: older) names l) : Renamed (name :: new :: older) (new :: names) l
  | on {name new : FileName} {older names l : List FileName} (hnew : new ∉ name :: older)
    (h : Renamed (new :: name :: older) names l) : Renamed (name :: older) (new :: names) l

namespace Renamed

variable {name last : FileName} {older rest names l l' : List FileName}

theorem mem (h : Renamed l names l') (hname : name ∈ l') : name ∈ l ∨ name ∈ names := by
  induction h with
  | nil => exact .inl hname
  | back _ ih =>
    exact (ih hname).imp (mem_cons_of_mem _) (mem_cons_of_mem _)
  | on _ _ ih =>
    rcases ih hname with hmem | hmem
    · rcases mem_cons.1 hmem with rfl | hmem
      · exact .inr mem_cons_self
      · exact .inl hmem
    · exact .inr (mem_cons_of_mem _ hmem)

/-- A name before the current one stays unless it is renamed to. -/
theorem mem_of_tail (h : Renamed l names l') (hname : name ∈ l.tail) (hnames : name ∉ names) :
    name ∈ l' := by
  induction h with
  | nil => exact mem_of_mem_tail hname
  | back _ ih =>
    rcases mem_cons.1 hname with rfl | hname
    · exact absurd mem_cons_self hnames
    · exact ih hname fun hmem => hnames (mem_cons_of_mem _ hmem)
  | on _ _ ih =>
    exact ih (mem_cons_of_mem _ hname) fun hmem => hnames (mem_cons_of_mem _ hmem)

theorem length_le (h : Renamed l names l') : l'.length ≤ l.length + names.length := by
  induction h with
  | nil => exact Nat.le_refl _
  | back _ ih =>
    simp only [length_cons] at ih ⊢
    omega
  | on _ _ ih =>
    simp only [length_cons] at ih ⊢
    omega

/-- Which renames leave, of the names that the file has had, its first and its last one only. -/
theorem freesAll_iff (h : Renamed (name :: older) names (last :: rest))
    (hl : (name :: older).Nodup) (hnames : (name :: names).Nodup) :
    (∀ a ∈ name :: names, a ∈ last :: rest → a = last ∨ (last :: rest).getLast? = some a) ↔
      FreesAll older names := by
  induction names generalizing name older with
  | nil =>
    cases h
    rw [FreesAll]
    exact iff_of_true (fun a ha _ => .inl (mem_singleton.1 ha)) trivial
  | cons new names ih =>
    cases h with
    | back h =>
      have hgone : name ∉ last :: rest := fun hmem =>
        (h.mem hmem).elim (nodup_cons.1 hl).1 fun hmem =>
          (nodup_cons.1 hnames).1 (mem_cons_of_mem _ hmem)
      rw [FreesAll, and_iff_right rfl, ← ih h hl.of_cons hnames.of_cons, forall_mem_cons,
        and_iff_right fun hmem => absurd hmem hgone]
    | on hnew h =>
      have hrest := ih h (nodup_cons.2 ⟨hnew, hl⟩) hnames.of_cons
      have hne : name ≠ new := fun heq => (nodup_cons.1 hnames).1 (heq ▸ mem_cons_self)
      cases names with
      | nil =>
        cases h
        cases older with
        | nil =>
          refine iff_of_true (fun a ha _ => ?_) rfl
          rcases mem_cons.1 ha with rfl | ha
          · exact .inr rfl
          · exact .inl (mem_singleton.1 ha)
        | cons back older =>
          refine iff_of_false (fun hall => ?_) fun hfrees => ?_
          · rcases hall name mem_cons_self (mem_cons_of_mem _ mem_cons_self) with
              heq | hlast
            · exact hne heq
            · rw [getLast?_cons_cons, getLast?_cons_cons] at hlast
              exact (nodup_cons.1 hl).1 (mem_of_getLast? hlast)
          · exact hnew (hfrees.1 ▸ mem_cons_of_mem _ mem_cons_self)
      | cons new' names =>
        have hon : ¬ FreesAll (name :: older) (new' :: names) := fun hfrees => by
          rw [FreesAll] at hfrees
          exact (nodup_cons.1 hnames).1 (hfrees.1 ▸ mem_cons_of_mem _ mem_cons_self)
        refine iff_of_false (fun hall => ?_) fun hfrees => ?_
        · exact hon (hrest.1 fun a ha => hall a (mem_cons_of_mem _ ha))
        · cases older with
          | nil => cases hfrees
          | cons back older => exact hnew (hfrees.1 ▸ mem_cons_of_mem _ mem_cons_self)

end Renamed

/-! ## The daemons after the renames -/

section
variable {n : Nat} {cfg : MetadataConfig} {d : Distributor n} {cl cl' : DaemonCluster n}
  {rest : List Char → Cell → Prop} {nodes : FileName → Slot} {name last : FileName} {f : FileInfo}
  {older : List FileName} {steps : List (FileName × Int64)}

/-- A name that is not there can be created. -/
theorem Refines.freed (h : Refines cfg d rest cl nodes) (hname : nodes name = .free) :
    Freed cfg d cl name := by
  refine ⟨h.cell_empty hname, fun mode mode' now hmode hparent => ?_⟩
  have hrefines := h.of_db (checkParentDir_db cfg d cl name.text)
  rw [gkfsCreate, hmode]
  dsimp only
  generalize checkParentDir cfg d cl name.text = r at hparent hrefines
  rw [if_neg (not_not.2 hparent)]
  exact rpcSrvCreate_empty_fst (hrefines.empty hname) mode' now

/-- A rename that succeeds goes on to a new name, or back and leaves the current one free. -/
theorem gkfsRename_step (hcfg : RenameBuild cfg) (h : Refines cfg d rest cl nodes)
    (hfile : FileAt nodes f older) {new : FileName} (hknown : nodes new ≠ .other) {now : Int64}
    (hr : Rename.gkfsRename cfg d cl f.name new now = (0, cl')) :
    ∃ nodes' older', Refines cfg d rest cl' nodes' ∧ FileAt nodes' ⟨new, f.size⟩ older' ∧
      (∀ name, name ≠ f.name → name ≠ new → nodes' name = nodes name) ∧
      ((new ∉ f.name :: older ∧ older' = f.name :: older) ∨
        (older = new :: older' ∧ nodes' f.name = .free)) := by
  obtain ⟨nd, hnd, -⟩ := hfile.live
  rcases h.gkfsRename_cases hcfg (ne_other_of_taken hnd) hknown now hr with
    ⟨hret, -⟩ | ⟨-, nd', hnd', -, hcases⟩
  · exact absurd rfl hret
  · rw [hnd] at hnd'
    cases hnd'
    rcases hcases with ⟨hnew, hcl⟩ | ⟨nd', hnew, -, htarget, hcl⟩
    · refine ⟨_, _, hcl, hfile.renameOn hnd hnew, fun name hold hname => ?_, .inl ⟨?_, rfl⟩⟩
      · rw [renameOn, update_of_ne hname, update_of_ne hold]
      · intro hmem
        obtain ⟨nd', hnd'⟩ := hfile.exists_node hmem
        rw [hnew] at hnd'
        cases hnd'
    · obtain ⟨older, rfl⟩ := hfile.older_eq hnd htarget
      refine ⟨_, _, hcl, hfile.renameBack hnew, fun name hold hname => ?_, .inr ⟨rfl, ?_⟩⟩
      · rw [renameBack, update_of_ne hold, update_of_ne hname]
      · rw [renameBack, update_self]

/-- Renames that succeed: the linked names of the file change as `Renamed` says, the names that are
dropped from them become free, and no other name changes. -/
theorem renameAll_spec (hcfg : RenameBuild cfg) (h : Refines cfg d rest cl nodes)
    (hfile : FileAt nodes f older) (hnodup : (f.name :: steps.map Prod.fst).Nodup)
    (hknown : ∀ name ∈ steps.map Prod.fst, nodes name ≠ .other)
    (hr : Rename.renameAll cfg d cl f.name steps = some (last, cl')) :
    ∃ nodes' older', Refines cfg d rest cl' nodes' ∧ FileAt nodes' ⟨last, f.size⟩ older' ∧
      Renamed (f.name :: older) (steps.map Prod.fst) (last :: older') ∧
      (∀ name ∉ f.name :: steps.map Prod.fst, nodes' name = nodes name) ∧
      ∀ name ∈ f.name :: steps.map Prod.fst, name ∈ last :: older' ∨ nodes' name = .free := by
  induction steps generalizing cl nodes f older with
  | nil =>
    cases hr
    exact ⟨nodes, older, h, hfile, .nil, fun _ _ => rfl, fun name hname =>
      .inl (mem_singleton.1 hname ▸ mem_cons_self)⟩
  | cons step steps ih =>
    obtain ⟨new, now⟩ := step
    rw [map_cons] at hnodup hknown ⊢
    obtain ⟨hold, hnodup⟩ := nodup_cons.1 hnodup
    rw [Rename.renameAll] at hr
    cases hrename : Rename.gkfsRename cfg d cl f.name new now with
    | mk ret cl₁ =>
      rw [hrename] at hr
      dsimp only at hr
      split at hr
      · cases hr
      · next hret =>
        rw [not_not.1 hret] at hrename
        obtain ⟨nodes₁, older₁, hcl₁, hfile₁, hsame, hcases⟩ :=
          gkfsRename_step hcfg h hfile (hknown new mem_cons_self) hrename
        have hknown₁ : ∀ name ∈ steps.map Prod.fst, nodes₁ name ≠ .other := fun name hname => by
          rw [hsame name (fun heq => hold (heq ▸ mem_cons_of_mem _ hname))
            fun heq => (nodup_cons.1 hnodup).1 (heq ▸ hname)]
          exact hknown name (mem_cons_of_mem _ hname)
        obtain ⟨nodes', older', hcl', hfile', hrenamed, hframe, hfree⟩ :=
          ih hcl₁ hfile₁ hnodup hknown₁ hr
        refine ⟨nodes', older', hcl', hfile', ?_, fun name hname => ?_, fun name hname => ?_⟩
        · rcases hcases with ⟨hnew, rfl⟩ | ⟨rfl, -⟩
          · exact .on hnew hrenamed
          · exact .back hrenamed
        · obtain ⟨hne, hname⟩ := not_or.1 fun hmem => hname (mem_cons.2 hmem)
          rw [hframe name hname, hsame name hne fun heq => hname (heq ▸ mem_cons_self)]
        · rcases mem_cons.1 hname with rfl | hname
          · rcases hcases with ⟨-, rfl⟩ | ⟨-, hgone⟩
            · exact .inl (hrenamed.mem_of_tail mem_cons_self fun hmem =>
                hold (mem_cons_of_mem _ hmem))
            · exact .inr ((hframe _ hold).trans hgone)
          · exact hfree name hname

/-- A file is renamed along different names and then removed. The removal succeeds, and all names
are free afterwards if and only if each rename goes back to the name before, except that the last
one may go on from the name that the file was created with. -/
theorem freed_iff (hcfg : RenameBuild cfg) (h : Refines cfg d rest cl nodes)
    (hfile : FileAt nodes f older) (hnodup : (f.name :: steps.map Prod.fst).Nodup)
    (hknown : ∀ name ∈ steps.map Prod.fst, nodes name ≠ .other)
    (hr : Rename.renameAll cfg d cl f.name steps = some (last, cl')) {fuel : Nat}
    (hfuel : older.length + steps.length ≤ fuel) :
    ∃ cl'', Rename.gkfsRemove cfg d cl' fuel last.text = some (0, cl'') ∧
      ((∀ name ∈ f.name :: steps.map Prod.fst, Freed cfg d cl'' name) ↔
        FreesAll older (steps.map Prod.fst)) := by
  obtain ⟨nodes', older', hcl', hfile', hrenamed, -, hfree⟩ :=
    renameAll_spec hcfg h hfile hnodup hknown hr
  have hlength := hrenamed.length_le
  rw [length_cons, length_cons, length_map] at hlength
  obtain ⟨nd, hnd, hlive⟩ := hfile'.live
  obtain ⟨first, cl'', hremove, hfirst, hcl''⟩ :=
    hcl'.gkfsRemove_linked hcfg hfile'.linked (by omega : older'.length ≤ fuel) hnd hlive
  refine ⟨cl'', hremove, Iff.trans (forall₂_congr fun name hname => ?_)
    (hrenamed.freesAll_iff hfile.linked.nodup hnodup)⟩
  refine ⟨fun hfreed hmem => ?_, fun hends => hcl''.freed ?_⟩
  · by_contra hends
    obtain ⟨hlast, hne⟩ := not_or.1 hends
    obtain ⟨nd', hnd'⟩ := hfile'.exists_node hmem
    have hother : name ≠ first := fun heq => hne (heq ▸ hfirst)
    have hkept : update (update nodes' first .free) last .free name =
        .taken nd' := by
      rw [update_of_ne hlast, update_of_ne hother, hnd']
    obtain ⟨md, hholds, -⟩ := hcl''.holds hkept
    exact hholds.ne_empty (hfreed.entry _)
  · by_cases hlast : name = last
    · rw [hlast, update_self]
    · rw [update_of_ne hlast]
      by_cases hother : name = first
      · rw [hother, update_self]
      · rw [update_of_ne hother]
        refine (hfree name hname).resolve_left fun hmem => ?_
        rcases hends hmem with heq | heq
        · exact hlast heq
        · rw [hfirst, Option.some.injEq] at heq
          exact hother heq.symm

end

/-! ### Runs on fixed inputs -/

/-- Two daemons that have the entry of a new file `/a`. -/
def createdCluster : DaemonCluster 2 :=
  (forwardCreate allFields splitPlacement (initialCluster allFields fun _ => 0)
    nameA.text 0o100644 1).2

/-- A file that was renamed before is renamed back to its first name and on to a third one; after
its removal all three names are free. -/
theorem freed_iff_back :
    ∃ cl cl' cl'', Rename.renameAll allFields splitPlacement createdCluster nameA
        [(nameB, 2)] = some (nameB, cl) ∧
      Rename.renameAll allFields splitPlacement cl nameB [(nameA, 3), (nameC, 4)] =
        some (nameC, cl') ∧
      Rename.gkfsRemove allFields splitPlacement cl' 3 nameC.text = some (0, cl'') ∧
      ∀ name ∈ [nameB, nameA, nameC], Freed allFields splitPlacement cl'' name := by
  have hcfg : RenameBuild allFields := ⟨rfl, rfl, rfl⟩
  have hstart : Refines allFields splitPlacement (RootOnly allFields)
      createdCluster (update (fun _ => .free) nameA (.taken ⟨false, none, 0⟩)) :=
    ((RenameState.refines_initialCluster _).forwardCreate_free rfl (by decide) 1).2
  have hrun : ((Rename.renameAll allFields splitPlacement createdCluster nameA
      [(nameB, 2)]).bind fun before => (Rename.renameAll allFields splitPlacement before.2
        before.1 [(nameA, 3), (nameC, 4)]).map fun renamed => (before.1, renamed.1)) =
      some (nameB, nameC) := by
    decide +kernel
  obtain ⟨⟨name, cl⟩, hbefore, hrun⟩ := Option.bind_eq_some_iff.1 hrun
  obtain ⟨⟨last, cl'⟩, hrename, hnames⟩ := Option.map_eq_some_iff.1 hrun
  obtain ⟨rfl, rfl⟩ := Prod.mk.inj hnames
  obtain ⟨nodes, older, hcl, hfile, hrenamed, hsame, -⟩ :=
    renameAll_spec hcfg hstart (FileAt.create _ nameA) (by decide) (by decide) hbefore
  have hfree : nodes nameC = .free := (hsame nameC (by decide)).trans rfl
  cases hrenamed with
  | on _ hrenamed =>
    cases hrenamed
    obtain ⟨nd, hnd⟩ := hfile.exists_node (mem_cons_of_mem nameB mem_cons_self)
    have hknown : ∀ name ∈ [(nameA, (3 : Int64)), (nameC, 4)].map Prod.fst,
        nodes name ≠ .other := by
      refine forall_mem_cons.2 ⟨ne_other_of_taken hnd, forall_mem_singleton.2 ?_⟩
      rw [hfree]
      simp
    obtain ⟨cl'', hremove, hfreed⟩ :=
      freed_iff hcfg hcl hfile (by decide) hknown hrename (le_refl 3)
    exact ⟨cl, cl', cl'', hbefore, hrename, hremove, hfreed.2 ⟨rfl, rfl⟩⟩

/-- After two renames the name between is left: it cannot be created again. -/
theorem renamed_name_left :
    ∃ cl' cl'', Rename.renameAll allFields splitPlacement createdCluster nameA
        [(nameB, 2), (nameC, 3)] = some (nameC, cl') ∧
      Rename.gkfsRemove allFields splitPlacement cl' 2 nameC.text = some (0, cl'') ∧
      (checkParentDir allFields splitPlacement cl'' nameB.text).1 = 0 ∧
      (gkfsCreate allFields splitPlacement cl'' nameB.text 0o100644 4).1 = EEXIST ∧
      ¬ Freed allFields splitPlacement cl'' nameB := by
  -- the run is evaluated once, with all that is asked of the daemons after it
  have hrun : ((Rename.renameAll allFields splitPlacement createdCluster nameA
      [(nameB, 2), (nameC, 3)]).bind fun renamed =>
      (Rename.gkfsRemove allFields splitPlacement renamed.2 2 nameC.text).map
        fun removed => (renamed.1, removed.1,
          (checkParentDir allFields splitPlacement removed.2 nameB.text).1,
          (gkfsCreate allFields splitPlacement removed.2 nameB.text 0o100644 4).1,
          decide ((removed.2 (splitPlacement.locateFileMetadata nameB.text 0)).db.cell
            nameB.text = Cell.empty))) =
      some (nameC, 0, 0, (EEXIST : Int), false) := by
    decide +kernel
  obtain ⟨⟨name, cl'⟩, hrename, hrun⟩ := Option.bind_eq_some_iff.1 hrun
  obtain ⟨⟨err, cl''⟩, hremove, hresults⟩ := Option.map_eq_some_iff.1 hrun
  simp only [Prod.mk.injEq, decide_eq_false_iff_not] at hresults
  obtain ⟨rfl, rfl, hparent, hcreate, hentry⟩ := hresults
  exact ⟨cl', cl'', hrename, hremove, hparent, hcreate, fun hfreed => hentry (hfreed.entry _)⟩

end GekkoFS
