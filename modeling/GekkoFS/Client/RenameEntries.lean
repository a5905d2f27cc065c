import GekkoFS.Client.Rename
import GekkoFS.Lib.Linked

/-!
# What renames do to the entries

`Node` is what the functions of `Rename` look at in an entry. A map `FileName → Slot` says of some
names that they are free or which node they have, and nothing of the others. `Refines` says that the
daemons hold the entries of such a map, each on its own daemon; for each request and each function
there is a lemma that says what it does to the map.
The targets of a node are followed along `Linked` names (`followTargets_linked`).
-/

namespace GekkoFS

open Function List

/-- A build that has renames. -/
structure RenameBuild (cfg : MetadataConfig) : Prop where
  useBlocks : cfg.useBlocks = true
  hasSymlinks : cfg.hasSymlinks = true
  hasRename : cfg.hasRename = true

/-- What a rename needs of an entry: whether it is left from a rename, its target and its size. -/
structure Node where
  dead : Bool
  target : Option FileName
  size : Nat
  deriving DecidableEq

/-- The text of a target. -/
def targetText (target : Option FileName) : List Char := (target.map FileName.text).getD []

/-- An entry of a file with the properties of a node. -/
structure Describes (md : Metadata) (nd : Node) : Prop where
  blocks : md.blocks = -1 ↔ nd.dead = true
  targetPath : md.targetPath = targetText nd.target
  size : md.size = nd.size
  mode : isDir md.mode = false

/-- What is known of a name: nothing, that it is free, or the node of its entry. -/
inductive Slot
  | other
  | free
  | taken (nd : Node)
  deriving DecidableEq

/-- A cell that is empty, or stands for the entry of a node. -/
def CellOf (cfg : MetadataConfig) (c : Cell) : Slot → Prop
  | .other => True
  | .free => c = Cell.empty
  | .taken nd => ∃ md, c.Holds cfg md ∧ Describes md nd

section
variable {n : Nat} {cfg : MetadataConfig} {d : Distributor n} {cl cl' : DaemonCluster n}
  {rest : List Char → Cell → Prop} {nodes : FileName → Slot} {name : FileName} {nd : Node}
  {md : Metadata}

/-- The daemons hold the entries of a map, each on its own daemon only. The cells that the map says
nothing about have a given property. -/
structure Refines (cfg : MetadataConfig) (d : Distributor n) (rest : List Char → Cell → Prop)
    (cl : DaemonCluster n) (nodes : FileName → Slot) : Prop where
  cell : ∀ name : FileName,
    CellOf cfg ((cl (d.locateFileMetadata name.text 0)).db.cell name.text) (nodes name)
  apart : ∀ (name : FileName) host, nodes name ≠ .other → host ≠ d.locateFileMetadata name.text 0 →
    (cl host).db.cell name.text = Cell.empty
  others : ∀ host key, (∀ name : FileName, name.text = key → nodes name = .other) →
    rest key ((cl host).db.cell key)

/-- The size of a file after a write. -/
def writtenSize (append : Bool) (size : Nat) (offset : Int64) (count : Nat) : Nat :=
  if append then size + count else max (offset.toInt.toNat + count) size

/-- The targets of the names that are there. -/
def targets (nodes : FileName → Slot) (name : FileName) : Option (Option FileName) :=
  match nodes name with
  | .taken nd => some nd.target
  | _ => none

/-- A name that is renamed to a new one. -/
def renameOn (nodes : FileName → Slot) (old new : FileName) (nd : Node) :
    FileName → Slot :=
  Function.update (Function.update nodes old (.taken { nd with dead := true })) new
    (.taken ⟨false, some old, 0⟩)

/-- A name that is renamed to its target. -/
def renameBack (nodes : FileName → Slot) (old new : FileName) (nd : Node) :
    FileName → Slot :=
  Function.update (Function.update nodes new (.taken { nd with dead := false })) old .free

theorem targetText_eq_text {target : Option FileName} :
    targetText target = name.text ↔ target = some name := by
  cases target with
  | none => exact iff_of_false (fun h => name.nonempty h.symm) (Option.some_ne_none _).symm
  | some name' =>
    exact ⟨fun h => congrArg some (FileName.ext h), fun h => by cases h; rfl⟩

/-- A build with renames keeps what a node has. -/
theorem Describes.kept (hcfg : RenameBuild cfg) (h : Describes md nd) :
    Describes (md.kept cfg) nd := by
  refine ⟨?_, ?_, h.size, h.mode⟩
  · rw [show (md.kept cfg).blocks = md.blocks from if_pos hcfg.useBlocks]
    exact h.blocks
  · rw [show (md.kept cfg).targetPath = md.targetPath from if_pos hcfg.hasSymlinks]
    exact h.targetPath

theorem Describes.targetPath_nil (h : Describes md nd) : md.targetPath = [] ↔ nd.target = none := by
  rw [h.targetPath]
  cases nd.target with
  | none => exact iff_of_true rfl rfl
  | some name => exact iff_of_false name.nonempty (Option.some_ne_none _)

/-- Chunks are removed without an error. -/
theorem removeDataOn_fst (path : List Char) (hosts : List (Fin n)) (i : Nat)
    (cl : DaemonCluster n) : (removeDataOn path (fun _ => .delivered) i cl hosts).1 = 0 := by
  induction hosts generalizing i cl with
  | nil => rfl
  | cons host hosts ih =>
    rw [removeDataOn]
    dsimp only
    rw [ih]
    rfl

/-- The mode of a new file is not that of a directory. -/
theorem isDir_createMode {mode mode' : UInt32} (h : createMode (mode ||| 0x8000) = .ok mode') :
    isDir mode'.toNat = false := by
  have hbit : ∀ k : Nat, (k ||| 0x8000) &&& 0xF000 ≠ 0x4000 := fun k heq => by
    have htest := congrArg (Nat.testBit · 15) heq
    rw [Nat.testBit_and, Nat.testBit_or] at htest
    revert htest
    cases k.testBit 15 <;> decide
  have hdir : ∀ k : UInt32, isDir (k ||| 0x8000).toNat = false := fun k => by
    rw [isDir, fileType, UInt32.toNat_or]
    exact decide_eq_false (hbit k.toNat)
  rw [createMode] at h
  split at h
  · cases h
    exact hdir _
  · split at h
    · cases h
      exact hdir mode
    · split at h <;> cases h

/-- The data of a write leave the stores alone. -/
theorem writeData_db (d : Distributor n) (cl : DaemonCluster n) (path : List Char)
    (buf : List UInt8) (offset : Int) (host : Fin n) :
    ((writeData d cl path buf offset).2 host).db = (cl host).db := by
  have hdb : ∀ st : Cluster n, (withStorages cl st host).db = (cl host).db := fun _ => rfl
  rw [writeData]
  exact hdb _

theorem targets_taken (h : nodes name = .taken nd) : targets nodes name = some nd.target := by
  rw [targets, h]

theorem exists_node (h : targets nodes name ≠ none) : ∃ nd, nodes name = .taken nd := by
  rw [targets] at h
  split at h
  · next nd hnd => exact ⟨nd, hnd⟩
  · exact absurd rfl h

theorem ne_other_of_free (h : nodes name = .free) : nodes name ≠ .other := by
  rw [h]
  exact Slot.noConfusion

theorem ne_other_of_taken (h : nodes name = .taken nd) : nodes name ≠ .other := by
  rw [h]
  exact Slot.noConfusion

namespace Refines

section
variable (h : Refines cfg d rest cl nodes)
include h

/-- Requests that leave the stores alone. -/
theorem of_db (hdb : ∀ host, (cl' host).db = (cl host).db) :
    Refines cfg d rest cl' nodes where
  cell name := by rw [hdb]; exact h.cell name
  apart name host := by rw [hdb]; exact h.apart name host
  others host key := by rw [hdb]; exact h.others host key

/-- A request that changes at most the cell of a name, on its daemon. -/
theorem update (hname : nodes name ≠ .other)
    {st : MetadataDaemon} {o : Slot}
    (hother : ∀ key, key ≠ name.text →
      st.db.cell key = (cl (d.locateFileMetadata name.text 0)).db.cell key)
    (hcell : CellOf cfg (st.db.cell name.text) o) (ho : o ≠ .other) :
    Refines cfg d rest (Function.update cl (d.locateFileMetadata name.text 0) st)
      (Function.update nodes name o) := by
  have hsame : ∀ host key, key ≠ name.text →
      (Function.update cl (d.locateFileMetadata name.text 0) st host).db.cell key =
        (cl host).db.cell key := by
    intro host key hne
    by_cases hhost : host = d.locateFileMetadata name.text 0
    · rw [hhost, update_self, hother key hne]
    · rw [update_of_ne hhost]
  refine ⟨fun name' => ?_, fun name' host hname' hhost => ?_, fun host key hkey => ?_⟩
  · by_cases hself : name' = name
    · rw [hself, update_self, update_self]
      exact hcell
    · rw [hsame _ _ fun htext => hself (FileName.ext htext), update_of_ne hself]
      exact h.cell name'
  · by_cases hself : name' = name
    · rw [hself] at hhost ⊢
      rw [update_of_ne hhost]
      exact h.apart name host hname hhost
    · rw [update_of_ne hself] at hname'
      rw [hsame _ _ fun htext => hself (FileName.ext htext)]
      exact h.apart name' host hname' hhost
  · have hne : ∀ name', name'.text = key → name' ≠ name := by
      rintro name' htext rfl
      have := hkey name' htext
      rw [update_self] at this
      exact ho this
    rw [hsame host key fun heq => hne name heq.symm rfl]
    refine h.others host key fun name' htext => ?_
    have := hkey name' htext
    rwa [update_of_ne (hne name' htext)] at this

/-- A free name has no entry. -/
theorem empty (hname : nodes name = .free) :
    (cl (d.locateFileMetadata name.text 0)).db.cell name.text = Cell.empty := by
  have hcell := h.cell name
  rwa [hname] at hcell

/-- A taken name has an entry as described. -/
theorem holds (hname : nodes name = .taken nd) :
    ∃ md, ((cl (d.locateFileMetadata name.text 0)).db.cell name.text).Holds cfg md ∧
      Describes md nd := by
  have hcell := h.cell name
  rwa [hname] at hcell

/-- No daemon has an entry of a name that is not there. -/
theorem cell_empty (hname : nodes name = .free) (host : Fin n) :
    (cl host).db.cell name.text = Cell.empty := by
  by_cases hhost : host = d.locateFileMetadata name.text 0
  · rw [hhost]
    exact h.empty hname
  · exact h.apart name host (ne_other_of_free hname) hhost

/-! ## Requests -/

/-- Reading a name that is not there. -/
theorem getMetadata_free (hname : nodes name = .free) :
    ∃ cl', getMetadata cfg d cl name.text = (.error ENOENT, cl') ∧ Refines cfg d rest cl' nodes :=
  ⟨_, Prod.ext (getMetadata_empty (h.empty hname)) rfl, h.of_db (getMetadata_db cfg d cl name.text)⟩

/-- Reading a name that is there. -/
theorem getMetadata_taken (hcfg : RenameBuild cfg)
    (hname : nodes name = .taken nd) :
    ∃ md cl', getMetadata cfg d cl name.text = (.ok md, cl') ∧ Describes md nd ∧ md.Storable ∧
      Refines cfg d rest cl' nodes := by
  obtain ⟨md, hholds, hmd⟩ := h.holds hname
  exact ⟨md.kept cfg, _, Prod.ext (GekkoFS.getMetadata_some hholds.readEntry) rfl, hmd.kept hcfg,
    hholds.storable.kept cfg, h.of_db (getMetadata_db cfg d cl name.text)⟩

/-- A new name. -/
theorem forwardCreate_free (hname : nodes name = .free)
    {mode : UInt32} (hmode : isDir mode.toNat = false) (now : Int64) :
    (forwardCreate cfg d cl name.text mode now).1 = 0 ∧
      Refines cfg d rest (forwardCreate cfg d cl name.text mode now).2
        (Function.update nodes name (.taken ⟨false, none, 0⟩)) := by
  have hempty := h.empty hname
  have hdead : (Metadata.ofMode cfg now.toInt mode.toNat).blocks = -1 ↔ false = true := by
    show (0 : Int) = -1 ↔ false = true
    decide
  rcases rpcSrvCreate_db cfg (cl (d.locateFileMetadata name.text 0)) name.text mode now with
    ⟨herr, -, hdb⟩ | ⟨herr, -⟩
  · refine ⟨herr, h.update (ne_other_of_free hname)
      (fun key hne => by rw [hdb, DB.cell_merge_ne hne]) ?_ Slot.noConfusion⟩
    exact ⟨_, rpcSrvCreate_empty hempty mode now, hdead, rfl, rfl, hmode⟩
  · exact absurd (rpcSrvCreate_empty_fst hempty mode now) herr

/-- A name that is there cannot be created. -/
theorem forwardCreate_taken (hname : nodes name = .taken nd)
    (mode : UInt32) (now : Int64) :
    (forwardCreate cfg d cl name.text mode now).1 ≠ 0 ∧
      Refines cfg d rest (forwardCreate cfg d cl name.text mode now).2 nodes := by
  obtain ⟨md, hholds, -⟩ := h.holds hname
  rcases rpcSrvCreate_db cfg (cl (d.locateFileMetadata name.text 0)) name.text mode now with
    ⟨-, hempty, -⟩ | ⟨herr, hdb⟩
  · exact absurd hempty hholds.ne_empty
  · exact ⟨herr, h.of_db (update_db hdb)⟩

/-- A request that changes the entry of a name as a whole. -/
theorem updateEntry_taken (hcfg : RenameBuild cfg)
    (hname : nodes name = .taken nd) {nd' : Node} {f : Metadata → Metadata}
    (hf : ∀ md, Describes md nd → md.Storable → Describes (f md) nd' ∧ (f md).Storable) :
    (updateEntry cfg (cl (d.locateFileMetadata name.text 0)) name.text f).1 = 0 ∧
      Refines cfg d rest (Function.update cl (d.locateFileMetadata name.text 0)
        (updateEntry cfg (cl (d.locateFileMetadata name.text 0)) name.text f).2)
        (Function.update nodes name (.taken nd')) := by
  obtain ⟨md, hholds, hmd⟩ := h.holds hname
  obtain ⟨hnew, hstorable⟩ := hf (md.kept cfg) (hmd.kept hcfg) (hholds.storable.kept cfg)
  generalize hst : cl (d.locateFileMetadata name.text 0) = st at hholds
  have hread : getEntry cfg st name.text = (some (md.kept cfg), (getEntry cfg st name.text).2) :=
    Prod.ext ((getEntry_fst cfg st name.text).trans hholds.readEntry) rfl
  have hdb := (getEntry_snd cfg st name.text).1
  rw [updateEntry, hread]
  refine ⟨rfl, h.update (ne_other_of_taken hname) (fun key hne => ?_)
    ⟨f (md.kept cfg), ?_, hnew⟩ Slot.noConfusion⟩
  · rw [cell_updateImpl, if_neg hne, hdb, hst]
  · rw [cell_updateImpl, if_pos rfl]
    exact Cell.holds_put hstorable

/-- A removal of a name that is there. -/
theorem forwardRemove_taken (hcfg : RenameBuild cfg)
    (hname : nodes name = .taken nd) :
    ∃ cl', Rename.forwardRemove cfg d cl name.text false = (0, cl') ∧
      Refines cfg d rest cl' (Function.update nodes name .free) := by
  obtain ⟨md, hholds, hmd⟩ := h.holds hname
  have herr : (rpcSrvRemoveMetadata cfg (cl (d.locateFileMetadata name.text 0)) name.text
      false).1.err = 0 := by
    rw [rpcSrvRemoveMetadata_some hholds.readEntry, removeEntry_err]
    exact (hmd.kept hcfg).mode
  rcases rpcSrvRemoveMetadata_db cfg (cl (d.locateFileMetadata name.text 0)) name.text false with
    ⟨-, hdb⟩ | ⟨herr', -⟩
  · rw [Rename.forwardRemove, forwardRemove, copyRange_zero, removeMetadataLoop,
      removeMetadata]
    generalize rpcSrvRemoveMetadata cfg (cl (d.locateFileMetadata name.text 0)) name.text false = r
      at herr hdb
    dsimp only
    rw [if_neg (not_not.2 herr), removeMetadataLoop]
    refine ⟨_, Prod.ext (removeDataOn_fst _ _ _ _) rfl,
      Refines.of_db ?_ (removeDataOn_db _ _ _ _ _)⟩
    refine h.update (ne_other_of_taken hname)
      (fun key hne => by rw [hdb, DB.cell_erase_ne hne]) ?_ Slot.noConfusion
    rw [hdb, DB.cell_erase_self]
    rfl
  · exact absurd herr herr'

/-- The old name of a rename. -/
theorem renamedIn_taken (hcfg : RenameBuild cfg)
    (hname : nodes name = .taken nd) (hmd : Describes md nd) (hstorable : md.Storable) :
    Refines cfg d rest (Rename.forwardUpdateMetadentry cfg d cl name.text (Rename.renamedIn md)).2
      (Function.update nodes name (.taken { nd with dead := true })) := by
  refine (h.updateEntry_taken hcfg hname fun md' hmd' hstorable' => ?_).2
  have hsize : ((Rename.renamedIn md).apply md').size = nd.size := by
    rw [UpdateMetadentryIn.apply, Rename.renamedIn]
    dsimp only
    split
    · rw [← hmd.size]
      have hlt := hstorable.size
      exact UInt64.toNat_ofNat_of_lt' (Nat.lt_trans hlt (by decide))
    · exact hmd'.size
  have hlt : nd.size < 2 ^ 63 := hmd.size ▸ hstorable.size
  have hblocks : Int64.toInt (-1) = -1 := by decide
  exact ⟨⟨iff_of_true hblocks rfl, hmd'.targetPath, hsize, hmd'.mode⟩,
    UpdateMetadentryIn.storable_apply _ hstorable' (hsize ▸ hlt)⟩

/-- The new name of a rename back. -/
theorem restoredIn_taken (hcfg : RenameBuild cfg)
    (hname : nodes name = .taken nd) :
    ∃ cl', Rename.forwardUpdateMetadentry cfg d cl name.text Rename.restoredIn = (0, cl') ∧
      Refines cfg d rest cl' (Function.update nodes name (.taken { nd with dead := false })) := by
  have hset : ∀ md, Describes md nd → md.Storable →
      Describes (Rename.restoredIn.apply md) { nd with dead := false } ∧
        (Rename.restoredIn.apply md).Storable := by
    refine fun md hmd hstorable => ⟨⟨?_, hmd.targetPath, hmd.size, hmd.mode⟩, ?_⟩
    · exact iff_of_false (show ¬ Int64.toInt 0 = -1 by decide) Bool.false_ne_true
    · exact UpdateMetadentryIn.storable_apply _ hstorable hstorable.size
  obtain ⟨hzero, hrefines⟩ := h.updateEntry_taken hcfg hname hset
  exact ⟨_, Prod.ext hzero rfl, hrefines⟩

/-- A link is the target of a name, unless the name is left from a rename. -/
theorem postMkSymlink_taken (hcfg : RenameBuild cfg)
    (hname : nodes name = .taken nd) (target : FileName) :
    Refines cfg d rest
      (Rename.postMkSymlink cfg d cl name.text ⟨target.text, target.isCString⟩).2
      (Function.update nodes name
        (.taken { nd with target := if nd.dead then nd.target else some target })) := by
  refine (h.updateEntry_taken hcfg hname fun md hmd hstorable => ?_).2
  rw [MkSymlinkIn.apply]
  cases hdead : nd.dead with
  | true =>
    rw [if_pos ⟨hcfg.hasRename, hmd.blocks.2 hdead⟩, if_pos rfl]
    exact ⟨⟨hdead ▸ hmd.blocks, hmd.targetPath, hmd.size, hmd.mode⟩,
      { hstorable with renamePath := target.isCString, separator := target.noSeparator }⟩
  | false =>
    have hlive : md.blocks ≠ -1 := fun hblocks => by
      rw [hmd.blocks.1 hblocks] at hdead
      cases hdead
    rw [if_neg fun hand => hlive hand.2, if_neg (by decide)]
    exact ⟨⟨hdead ▸ hmd.blocks, rfl, hmd.size, hmd.mode⟩,
      { hstorable with targetPath := target.isCString }⟩

end

/-! ## Renames -/

theorem ne_of_dead {name' : FileName} {nd' : Node} (hname : nodes name = .taken nd)
    (hname' : nodes name' = .taken nd') (hlive : nd.dead = false) (hdead : nd'.dead = true) :
    name' ≠ name := by
  rintro rfl
  rw [hname] at hname'
  cases hname'
  rw [hlive] at hdead
  cases hdead

theorem forwardRename_taken (h : Refines cfg d rest cl nodes) (hcfg : RenameBuild cfg)
    {new : FileName} (hname : nodes name = .taken nd) (hnew : nodes new = .free)
    (hmd : Describes md nd) (hstorable : md.Storable) (now : Int64) :
    Refines cfg d rest (Rename.forwardRename cfg d cl name new md now).2
      (renameOn nodes name new nd) := by
  have hne : new ≠ name := fun heq => by
    rw [heq, hname] at hnew
    cases hnew
  have hmode : isDir (UInt32.ofNat md.mode).toNat = false := by
    rw [UInt32.toNat_ofNat_of_lt' hstorable.mode]
    exact hmd.mode
  have hdead := h.renamedIn_taken hcfg hname hmd hstorable
  have hcreated := (hdead.forwardCreate_free (by rw [update_of_ne hne, hnew]) hmode now).2
  have hlinked := hcreated.postMkSymlink_taken hcfg (update_self ..) name
  have hold : Function.update (Function.update (Function.update nodes name
      (.taken { nd with dead := true })) new (.taken ⟨false, none, 0⟩)) new
      (.taken ⟨false, some name, 0⟩) name = .taken { nd with dead := true } := by
    rw [update_of_ne hne.symm, update_of_ne hne.symm, update_self]
  have hboth := hlinked.postMkSymlink_taken hcfg hold new
  rw [update_idem] at hboth
  rw [show Slot.taken { nd with
      dead := true, target := if true = true then nd.target else some new } =
      Slot.taken { nd with dead := true } from rfl, update_comm hne.symm,
    update_idem, update_comm hne] at hboth
  exact hboth

/-- A rename that succeeds is one of a name that is not left from a rename, to a name that is not
there or to its own target; one that fails changes nothing. -/
theorem gkfsRename_cases (h : Refines cfg d rest cl nodes) (hcfg : RenameBuild cfg)
    {old new : FileName} (hknown : nodes old ≠ .other) (hknown' : nodes new ≠ .other) (now : Int64)
    {r : Int × DaemonCluster n} (hr : Rename.gkfsRename cfg d cl old new now = r) :
    (r.1 ≠ 0 ∧ Refines cfg d rest r.2 nodes) ∨
      (r.1 = 0 ∧ ∃ nd, nodes old = .taken nd ∧ nd.dead = false ∧
        ((nodes new = .free ∧ Refines cfg d rest r.2 (renameOn nodes old new nd)) ∨
          ∃ nd', nodes new = .taken nd' ∧ nd'.dead = true ∧ nd.target = some new ∧
            Refines cfg d rest r.2 (renameBack nodes old new nd'))) := by
  have hfail : (-1 : Int) ≠ 0 := by decide
  have hio : (ENOENT : Int) ≠ EIO := by decide
  rw [Rename.gkfsRename] at hr
  cases hname : nodes old with
  | other => exact absurd hname hknown
  | free =>
    obtain ⟨cl₁, hget, hrefines⟩ := h.getMetadata_free hname
    rw [hget] at hr
    cases hr
    exact .inl ⟨hfail, hrefines⟩
  | taken nd =>
    obtain ⟨md, cl₁, hget, hmd, hstorable, hrefines⟩ := h.getMetadata_taken hcfg hname
    rw [hget] at hr
    dsimp only at hr
    split at hr
    · cases hr
      exact .inl ⟨hfail, hrefines⟩
    · next hblocks =>
      have hlive : nd.dead = false := Bool.eq_false_iff.2 fun hdead => hblocks (hmd.blocks.2 hdead)
      cases hnew : nodes new with
      | other => exact absurd hnew hknown'
      | free =>
        obtain ⟨cl₂, hget, hrefines⟩ := hrefines.getMetadata_free hnew
        rw [hget] at hr
        dsimp only at hr
        rw [if_neg hio] at hr
        cases hr
        exact .inr ⟨rfl, nd, rfl, hlive, .inl ⟨rfl,
          hrefines.forwardRename_taken hcfg hname hnew hmd hstorable now⟩⟩
      | taken nd' =>
        obtain ⟨md', cl₂, hget, hmd', -, hrefines⟩ := hrefines.getMetadata_taken hcfg hnew
        rw [hget] at hr
        dsimp only at hr
        split at hr
        · next hback =>
          have hdead := hmd'.blocks.1 hback.1
          have hne := ne_of_dead hname hnew hlive hdead
          obtain ⟨cl₃, hzero, hrefines⟩ := hrefines.restoredIn_taken hcfg hnew
          obtain ⟨cl₄, hzero', hrefines⟩ := hrefines.forwardRemove_taken hcfg
            ((update_of_ne hne.symm _ nodes).trans hname)
          rw [hmd.mode, hzero] at hr
          dsimp only at hr
          rw [if_neg (not_not.2 rfl), hzero'] at hr
          cases hr
          exact .inr ⟨rfl, nd, rfl, hlive, .inr ⟨nd', rfl, hdead,
            targetText_eq_text.1 (hmd.targetPath ▸ hback.2), hrefines⟩⟩
        · cases hr
          exact .inl ⟨hfail, hrefines⟩

/-! ## Following targets -/

variable {older : List FileName} {fuel : Nat}

/-- The targets of linked names are followed to the last one. -/
theorem followTargets_linked (hcfg : RenameBuild cfg)
    (h : Refines cfg d rest cl nodes) (hl : Linked (targets nodes) (name :: older))
    (hfuel : older.length ≤ fuel) (hname : nodes name = .taken nd) (hmd : Describes md nd) :
    ∃ first nd' md' cl',
      Rename.followTargets cfg d fuel md name.text cl = some (.ok (first.text, md'), cl') ∧
        (name :: older).getLast? = some first ∧ nodes first = .taken nd' ∧ Describes md' nd' ∧
        Refines cfg d rest cl' nodes := by
  induction older generalizing name nd md cl fuel with
  | nil =>
    cases hl with
    | last htarget =>
      rw [targets_taken hname, Option.some.injEq] at htarget
      refine ⟨name, nd, md, cl, ?_, rfl, hname, hmd, h⟩
      cases fuel <;> rw [Rename.followTargets, if_pos (hmd.targetPath_nil.2 htarget)]
  | cons next older ih =>
    cases hl with
    | cons htarget hl =>
      rw [targets_taken hname, Option.some.injEq] at htarget
      obtain ⟨fuel, rfl⟩ : ∃ k, fuel = k + 1 := ⟨fuel - 1, by rw [length_cons] at hfuel; omega⟩
      obtain ⟨nd', hnext⟩ := exists_node (hl.ne_none mem_cons_self)
      obtain ⟨md', cl₁, hget, hmd', -, hrefines⟩ := h.getMetadata_taken hcfg hnext
      have hne : md.targetPath ≠ [] := fun hnil => by
        rw [hmd.targetPath_nil.1 hnil] at htarget
        cases htarget
      have htext : md.targetPath = next.text := by rw [hmd.targetPath, htarget]; rfl
      rw [Rename.followTargets, if_neg hne, htext, hget, getLast?_cons_cons]
      exact ih hrefines hl (Nat.le_of_succ_le_succ hfuel) hnext hmd'

/-- The entry of a name that is not left from a rename has no block count of -1. -/
theorem live_blocks (hmd : Describes md nd) (hlive : nd.dead = false) : md.blocks ≠ -1 :=
  fun hblocks => by
    rw [hmd.blocks.1 hblocks] at hlive
    cases hlive

section
variable (h : Refines cfg d rest cl nodes)
include h

/-- Reading a name that is not there, or is left from a rename. -/
theorem getMetadata_missing (hcfg : RenameBuild cfg)
    (hknown : nodes name ≠ .other) (hname : ∀ nd, nodes name = .taken nd → nd.dead = true) :
    ∃ cl', Refines cfg d rest cl' nodes ∧
      (getMetadata cfg d cl name.text = (.error ENOENT, cl') ∨
        ∃ md, getMetadata cfg d cl name.text = (.ok md, cl') ∧ md.blocks = -1 ∧
          isDir md.mode = false) := by
  cases hnode : nodes name with
  | other => exact absurd hnode hknown
  | free =>
    obtain ⟨cl', hget, hrefines⟩ := h.getMetadata_free hnode
    exact ⟨cl', hrefines, .inl hget⟩
  | taken nd =>
    obtain ⟨md, cl', hget, hmd, -, hrefines⟩ := h.getMetadata_taken hcfg hnode
    exact ⟨cl', hrefines, .inr ⟨md, hget, hmd.blocks.2 (hname nd hnode), hmd.mode⟩⟩

/-- A name that is not there, or is left from a rename, is missing. -/
theorem gkfsStat_missing (hcfg : RenameBuild cfg)
    (hknown : nodes name ≠ .other) (hname : ∀ nd, nodes name = .taken nd → nd.dead = true)
    (fuel : Nat) :
    ∃ cl', Rename.gkfsStat cfg d cl fuel name.text = some (.error ENOENT, cl') := by
  obtain ⟨cl', -, hget | ⟨md, hget, hblocks, -⟩⟩ := getMetadata_missing h hcfg hknown hname
  · refine ⟨cl', ?_⟩
    rw [Rename.gkfsStat, hget]
  · refine ⟨cl', ?_⟩
    rw [Rename.gkfsStat, hget]
    exact if_pos hblocks

/-- The size of a name is that of the last of its linked names. -/
theorem gkfsStat_linked (hcfg : RenameBuild cfg)
    (hl : Linked (targets nodes) (name :: older))
    (hfuel : older.length ≤ fuel) (hname : nodes name = .taken nd) (hlive : nd.dead = false) :
    ∃ first nd' md' cl', Rename.gkfsStat cfg d cl fuel name.text = some (.ok md', cl') ∧
      (name :: older).getLast? = some first ∧ nodes first = .taken nd' ∧ md'.size = nd'.size := by
  obtain ⟨md, cl₁, hget, hmd, -, hrefines⟩ := h.getMetadata_taken hcfg hname
  obtain ⟨first, nd', md', cl', hfollow, hlast, hfirst, hmd', -⟩ :=
    followTargets_linked hcfg hrefines hl hfuel hname hmd
  refine ⟨first, nd', md', cl', ?_, hlast, hfirst, hmd'.size⟩
  rw [Rename.gkfsStat, hget]
  dsimp only
  rw [if_neg (live_blocks hmd hlive), hfollow]
  rfl

/-! ## Removing -/

/-- A removal of a name that is not there, or is left from a rename, changes nothing. -/
theorem gkfsRemove_missing (hcfg : RenameBuild cfg)
    (hknown : nodes name ≠ .other) (hname : ∀ nd, nodes name = .taken nd → nd.dead = true)
    (fuel : Nat) :
    ∃ cl', Rename.gkfsRemove cfg d cl fuel name.text = some ((ENOENT : Int), cl') ∧
      Refines cfg d rest cl' nodes := by
  obtain ⟨cl', hrefines, hget | ⟨md, hget, hblocks, hmode⟩⟩ :=
    getMetadata_missing h hcfg hknown hname
  · refine ⟨cl', ?_, hrefines⟩
    rw [Rename.gkfsRemove, hget]
  · refine ⟨cl', ?_, hrefines⟩
    rw [Rename.gkfsRemove, hget]
    dsimp only
    rw [if_neg (Bool.eq_false_iff.1 hmode), if_pos hblocks]

/-- A removal removes the name and the last of its linked names. -/
theorem gkfsRemove_linked (hcfg : RenameBuild cfg)
    (hl : Linked (targets nodes) (name :: older))
    (hfuel : older.length ≤ fuel) (hname : nodes name = .taken nd) (hlive : nd.dead = false) :
    ∃ first cl', Rename.gkfsRemove cfg d cl fuel name.text = some (0, cl') ∧
      (name :: older).getLast? = some first ∧
      Refines cfg d rest cl' (Function.update (Function.update nodes first .free) name .free) := by
  obtain ⟨md, cl₁, hget, hmd, -, hrefines⟩ := h.getMetadata_taken hcfg hname
  rw [Rename.gkfsRemove, hget]
  dsimp only
  rw [if_neg (Bool.eq_false_iff.1 hmd.mode), if_neg (live_blocks hmd hlive)]
  cases hl with
  | last htarget =>
    rw [targets_taken hname, Option.some.injEq] at htarget
    obtain ⟨cl₂, hzero, hrefines⟩ := hrefines.forwardRemove_taken hcfg hname
    refine ⟨name, cl₂, ?_, rfl, ?_⟩
    · rw [if_pos (hmd.targetPath_nil.2 htarget), hzero]
    · rw [update_idem]
      exact hrefines
  | @cons _ next older htarget hl =>
    have hlinked := Linked.cons htarget hl
    rw [targets_taken hname, Option.some.injEq] at htarget
    have htext : md.targetPath = next.text := by rw [hmd.targetPath, htarget]; rfl
    obtain ⟨nd₁, hnext⟩ := exists_node (hl.ne_none mem_cons_self)
    obtain ⟨md₁, cl₂, hget, -, -, hrefines⟩ := hrefines.getMetadata_taken hcfg hnext
    obtain ⟨first, nd', md', cl₃, hfollow, hlast, hfirst, -, hrefines⟩ :=
      followTargets_linked hcfg hrefines hlinked hfuel hname hmd
    have hother : name ≠ first := by
      rintro rfl
      have hend := hlinked.next_getLast hlast
      rw [targets_taken hname, Option.some.injEq, htarget] at hend
      cases hend
    obtain ⟨cl₄, hzero, hrefines⟩ := hrefines.forwardRemove_taken hcfg hfirst
    obtain ⟨cl₅, hzero', hrefines⟩ := hrefines.forwardRemove_taken hcfg
      ((update_of_ne hother _ nodes).trans hname)
    refine ⟨first, cl₅, ?_, hlast, hrefines⟩
    rw [if_neg (htext ▸ next.nonempty), htext, hget]
    dsimp only
    rw [hfollow]
    dsimp only
    rw [hzero]
    dsimp only
    rw [if_neg (not_not.2 rfl), hzero']

end

/-! ## Opening -/

/-- A file is not opened as a directory. -/
theorem openEntry_file (hmd : Describes md nd) (cl : DaemonCluster n) (path : List Char)
    (flags : OpenFlags) :
    Rename.openEntry cfg d cl path md flags = (.ok ⟨path, flags.append, false⟩, cl) := by
  rw [Rename.openEntry, if_neg (Bool.eq_false_iff.1 hmd.mode)]

/-- A name is opened as the last of its linked names. -/
theorem openExisting_linked (h : Refines cfg d rest cl nodes) (hcfg : RenameBuild cfg)
    (hl : Linked (targets nodes) (name :: older))
    (hfuel : older.length ≤ fuel) (hname : nodes name = .taken nd) (hlive : nd.dead = false)
    (hmd : Describes md nd) (flags : OpenFlags) :
    ∃ first cl', Rename.openExisting cfg d cl fuel name.text md flags =
        some (.ok ⟨first.text, flags.append, false⟩, cl') ∧
      (name :: older).getLast? = some first ∧ Refines cfg d rest cl' nodes := by
  rw [Rename.openExisting, if_neg (live_blocks hmd hlive)]
  cases hl with
  | last htarget =>
    rw [targets_taken hname, Option.some.injEq] at htarget
    refine ⟨name, cl, ?_, rfl, h⟩
    rw [if_pos (hmd.targetPath_nil.2 htarget), openEntry_file hmd]
  | @cons _ next older htarget hl =>
    rw [targets_taken hname, Option.some.injEq] at htarget
    have htext : md.targetPath = next.text := by rw [hmd.targetPath, htarget]; rfl
    obtain ⟨nd₁, hnext⟩ := exists_node (hl.ne_none mem_cons_self)
    obtain ⟨md₁, cl₁, hget, hmd₁, -, hrefines⟩ := h.getMetadata_taken hcfg hnext
    obtain ⟨first, nd', md', cl', hfollow, hlast, -, hmd', hrefines⟩ :=
      followTargets_linked hcfg hrefines hl (Nat.le_of_lt hfuel) hnext hmd₁
    refine ⟨first, cl', ?_, getLast?_cons_cons.trans hlast, hrefines⟩
    rw [if_neg (htext ▸ next.nonempty), htext, hget]
    dsimp only
    rw [hfollow]
    exact congrArg some (openEntry_file hmd' cl' first.text flags)

/-- A creation that succeeds is one of a name that is not there, and one that fails changes
nothing. -/
theorem gkfsCreate_cases (h : Refines cfg d rest cl nodes) (hknown : nodes name ≠ .other)
    (mode : UInt32) (now : Int64) {r : Int × DaemonCluster n}
    (hr : gkfsCreate cfg d cl name.text (mode ||| 0x8000) now = r) :
    (r.1 ≠ 0 ∧ Refines cfg d rest r.2 nodes) ∨
      (r.1 = 0 ∧ nodes name = .free ∧
        Refines cfg d rest r.2 (Function.update nodes name (.taken ⟨false, none, 0⟩))) := by
  rw [gkfsCreate] at hr
  cases hmode : createMode (mode ||| 0x8000) with
  | error err =>
    rw [hmode] at hr
    cases hr
    exact .inl ⟨createMode_error hmode, h⟩
  | ok mode' =>
    rw [hmode] at hr
    have hparent := h.of_db (checkParentDir_db cfg d cl name.text)
    dsimp only at hr
    generalize checkParentDir cfg d cl name.text = g at hparent hr
    obtain ⟨err, cl₁⟩ := g
    dsimp only at hparent hr
    split at hr
    · next herr =>
      cases hr
      exact .inl ⟨herr, hparent⟩
    · cases hnode : nodes name with
      | other => exact absurd hnode hknown
      | free =>
        have hcreated := hparent.forwardCreate_free hnode (isDir_createMode hmode) now
        rw [hr] at hcreated
        exact .inr ⟨hcreated.1, rfl, hcreated.2⟩
      | taken nd =>
        have hkept := hparent.forwardCreate_taken hnode mode' now
        rw [hr] at hkept
        exact .inl hkept

/-- An open has failed, or a name is open as the last of its linked names. -/
def OpensExisting (cfg : MetadataConfig) (d : Distributor n) (rest : List Char → Cell → Prop)
    (nodes : FileName → Slot) (name : FileName) (flags : OpenFlags)
    (r : Except Int OpenedFile × DaemonCluster n) : Prop :=
  Refines cfg d rest r.2 nodes ∧ ((∃ err, r.1 = .error err) ∨
    ∃ nd older first, r.1 = .ok ⟨first.text, flags.append, false⟩ ∧ nodes name = .taken nd ∧
      nd.dead = false ∧ Linked (targets nodes) (name :: older) ∧
      (name :: older).getLast? = some first)

/-- Opening a name that is there. -/
theorem openExisting_cases (h : Refines cfg d rest cl nodes) (hcfg : RenameBuild cfg)
    (hname : nodes name = .taken nd)
    (hlinked : nd.dead = false →
      ∃ older, Linked (targets nodes) (name :: older) ∧ older.length ≤ fuel)
    (hmd : Describes md nd) (flags : OpenFlags) :
    ∃ r, Rename.openExisting cfg d cl fuel name.text md flags = some r ∧
      OpensExisting cfg d rest nodes name flags r := by
  cases hdead : nd.dead with
  | true =>
    refine ⟨(.error ENOENT, cl), ?_, h, .inl ⟨_, rfl⟩⟩
    rw [Rename.openExisting, if_pos (hmd.blocks.2 hdead)]
  | false =>
    obtain ⟨older, hl, hfuel⟩ := hlinked hdead
    obtain ⟨first, cl', hopen, hlast, hrefines⟩ :=
      h.openExisting_linked hcfg hl hfuel hname hdead hmd flags
    exact ⟨_, hopen, hrefines, .inr ⟨nd, older, first, rfl, hname, hdead, hl, hlast⟩⟩

/-- What an open does: it fails, opens a name that is there, or creates a file. -/
theorem gkfsOpen_cases (h : Refines cfg d rest cl nodes) (hcfg : RenameBuild cfg)
    (hknown : nodes name ≠ .other)
    (hlinked : ∀ nd, nodes name = .taken nd → nd.dead = false →
      ∃ older, Linked (targets nodes) (name :: older) ∧ older.length ≤ fuel)
    (mode : UInt32) (flags : OpenFlags) (now : Int64) :
    ∃ r, Rename.gkfsOpen cfg d cl fuel name.text mode flags now = some r ∧
      (OpensExisting cfg d rest nodes name flags r ∨
        (r.1 = .ok ⟨name.text, flags.append, false⟩ ∧ nodes name = .free ∧
          Refines cfg d rest r.2 (Function.update nodes name (.taken ⟨false, none, 0⟩)))) := by
  rw [Rename.gkfsOpen]
  split
  · have hcreate := h.gkfsCreate_cases hknown mode now rfl
    generalize gkfsCreate cfg d cl name.text (mode ||| 0x8000) now = g at hcreate
    obtain ⟨err, cl₁⟩ := g
    dsimp only at hcreate ⊢
    rcases hcreate with ⟨herr, hrefines⟩ | ⟨herr, hnone, hrefines⟩
    · rw [if_neg herr]
      split
      · exact ⟨_, rfl, .inl ⟨hrefines, .inl ⟨err, rfl⟩⟩⟩
      · cases hnode : nodes name with
        | other => exact absurd hnode hknown
        | free =>
          obtain ⟨cl₂, hget, hrefines⟩ := hrefines.getMetadata_free hnode
          rw [hget]
          exact ⟨_, rfl, .inl ⟨hrefines, .inl ⟨_, rfl⟩⟩⟩
        | taken nd =>
          obtain ⟨md, cl₂, hget, hmd, -, hrefines⟩ := hrefines.getMetadata_taken hcfg hnode
          rw [hget]
          dsimp only
          split
          · exact ⟨_, rfl, .inl ⟨hrefines, .inl ⟨_, rfl⟩⟩⟩
          · obtain ⟨r, hr, hopen⟩ :=
              hrefines.openExisting_cases hcfg hnode (hlinked nd hnode) hmd flags
            exact ⟨r, hr, .inl hopen⟩
    · rw [if_pos herr]
      exact ⟨_, rfl, .inr ⟨rfl, hnone, hrefines⟩⟩
  · cases hnode : nodes name with
    | other => exact absurd hnode hknown
    | free =>
      obtain ⟨cl₁, hget, hrefines⟩ := h.getMetadata_free hnode
      rw [hget]
      exact ⟨_, rfl, .inl ⟨hrefines, .inl ⟨_, rfl⟩⟩⟩
    | taken nd =>
      obtain ⟨md, cl₁, hget, hmd, -, hrefines⟩ := h.getMetadata_taken hcfg hnode
      rw [hget]
      obtain ⟨r, hr, hopen⟩ := hrefines.openExisting_cases hcfg hnode (hlinked nd hnode) hmd flags
      exact ⟨r, hr, .inl hopen⟩

/-! ## Writing -/

/-- The size update of a write to a name that is there. -/
theorem updateFileSize_taken (h : Refines cfg d rest cl nodes) (hname : nodes name = .taken nd)
    {append : Bool} {offset : Int64} {count : Nat} (ho : 0 ≤ offset.toInt) (hcount : count < 2 ^ 31)
    (hsize : writtenSize append nd.size offset count < 2 ^ 63) (mergeId : UInt16) (now : Int64) :
    ∃ cl', updateFileSize cfg d cl name.text (UInt64.ofNat count) offset.toUInt64 append mergeId
        now = ((0, if append then (nd.size : Int) else -1), cl') ∧
      Refines cfg d rest cl' (Function.update nodes name
        (.taken { nd with size := writtenSize append nd.size offset count })) := by
  obtain ⟨md, hholds, hmd⟩ := h.holds hname
  have hword : (UInt64.ofNat count).toNat = count :=
    UInt64.toNat_ofNat_of_lt' (Nat.lt_trans hcount (by decide))
  cases append with
  | true =>
    have hlt : md.size + (UInt64.ofNat count).toNat < 2 ^ 63 := by
      rw [hword, hmd.size]
      exact hsize
    have hop : (MergeOperand.increaseSize (UInt64.ofNat count).toNat mergeId.toNat true).Valid :=
      ⟨UInt64.toNat_lt _, mergeId.toNat_lt⟩
    obtain ⟨hoff, hdb⟩ :=
      increaseSizeImpl_append hholds (UInt64.ofNat count) offset.toUInt64 mergeId now
    rw [updateFileSize, rpcSrvUpdateMetadentrySize]
    generalize (cl (d.locateFileMetadata name.text 0)).increaseSizeImpl cfg name.text
      (UInt64.ofNat count) offset.toUInt64 true mergeId now = r at hoff hdb
    obtain ⟨r, st⟩ := r
    dsimp only at hoff hdb
    subst hoff
    have hnew := hholds.merge hop hlt
    refine ⟨_, Prod.ext ?_ rfl, h.update (ne_other_of_taken hname)
      (fun key hne => by rw [hdb, DB.cell_merge_ne hne]) ?_ Slot.noConfusion⟩
    · show (0, toOff md.size) = _
      rw [toOff, if_pos hholds.storable.size, hmd.size]
      rfl
    · rw [hdb, DB.cell_merge_self]
      refine ⟨_, hnew, hmd.blocks, hmd.targetPath, ?_, hmd.mode⟩
      show md.size + _ = nd.size + count
      rw [hmd.size, hword]
  | false =>
    have hend : (offset.toUInt64 + UInt64.ofNat count).toNat = offset.toInt.toNat + count := by
      have hlt := (Nat.max_lt.1 hsize).1
      have hoff : offset.toUInt64.toNat = offset.toInt.toNat := toNat_toUInt64_of_nonneg ho
      rw [UInt64.toNat_add, hoff, hword, Nat.mod_eq_of_lt (Nat.lt_trans hlt (by decide))]
    have hop : (MergeOperand.increaseSize (offset.toUInt64 + UInt64.ofNat count).toNat 0
        false).Valid := ⟨UInt64.toNat_lt _, by decide⟩
    have hplain : ((MergeOperand.increaseSize (offset.toUInt64 + UInt64.ofNat count).toNat 0
        false).plain md).size = writtenSize false nd.size offset count := by
      show max (offset.toUInt64 + UInt64.ofNat count).toNat md.size = _
      rw [hend, hmd.size]
      rfl
    have hmerge := hholds.merge hop (hplain ▸ hsize)
    rw [← DB.cell_merge_self] at hmerge
    obtain ⟨mtime, hnew⟩ := @Cell.Holds.setMtime cfg
      { cl (d.locateFileMetadata name.text 0) with
        db := (cl (d.locateFileMetadata name.text 0)).db.merge name.text _ } _ _ hmerge now
    refine ⟨_, Prod.ext rfl rfl, h.update (ne_other_of_taken hname) (fun key hne => ?_)
      ⟨_, hnew, hmd.blocks, hmd.targetPath, hplain, hmd.mode⟩ Slot.noConfusion⟩
    exact (cell_updateMtime_ne hne ..).trans (DB.cell_merge_ne hne ..)

/-- A write to a name that is there. -/
theorem gkfsDoWrite_taken (h : Refines cfg d rest cl nodes) (hname : nodes name = .taken nd)
    {append : Bool} {offset : Int64} {buf : List UInt8} (ho : 0 ≤ offset.toInt)
    (hs : 0 < buf.length) (hs' : buf.length < 2 ^ 31)
    (hsize : writtenSize append nd.size offset buf.length < 2 ^ 63) (mergeId : UInt16)
    (now : Int64) :
    ∃ cl', Rename.gkfsDoWrite cfg d cl ⟨name.text, append, false⟩ buf offset mergeId now =
        (.ok buf.length, cl') ∧
      Refines cfg d rest cl' (Function.update nodes name
        (.taken { nd with size := writtenSize append nd.size offset buf.length })) := by
  obtain ⟨cl₁, hupdate, hrefines⟩ := h.updateFileSize_taken hname ho hs' hsize mergeId now
  obtain ⟨pos, hpos, hlt⟩ : ∃ pos : Nat, gkfsDoWriteOffset append offset.toInt
      (0, if append then (nd.size : Int) else -1) = .ok (pos : Int) ∧ pos < 2 ^ 63 := by
    cases append with
    | true =>
      refine ⟨nd.size, ?_, Nat.lt_of_le_of_lt (Nat.le_add_right _ _) hsize⟩
      rw [gkfsDoWriteOffset, if_neg (not_not.2 rfl), if_pos rfl, if_pos rfl, if_neg (by omega)]
    | false =>
      refine ⟨offset.toInt.toNat, ?_, ?_⟩
      · rw [gkfsDoWriteOffset, if_neg (not_not.2 rfl), if_neg Bool.false_ne_true,
          Int.toNat_of_nonneg ho]
      · have hend := (Nat.max_lt.1 hsize).1
        omega
  have hdata : (writeData d cl₁ name.text buf pos).1 = (0, buf.length) := by
    have hoff : ((pos : Int) % 2 ^ 64).toNat = pos := by omega
    rw [writeData]
    dsimp only
    rw [hoff]
    exact forwardWrite_fst d name.text _ hlt hs (hs'.trans (by decide))
  have hdb := writeData_db d cl₁ name.text buf pos
  have hret : Int.bmod (buf.length : Nat) (2 ^ 32) = buf.length := by
    rw [Int.bmod_eq_of_le] <;> omega
  rw [Rename.gkfsDoWrite, FileSystem.gkfsDoWrite, updateSize_none, hupdate]
  dsimp only
  rw [hpos]
  dsimp only
  generalize writeData d cl₁ name.text buf pos = w at hdata hdb
  refine ⟨w.2, ?_, hrefines.of_db hdb⟩
  rw [hdata, if_neg (not_not.2 rfl), hret]
  exact if_neg Bool.false_ne_true

end Refines

end

end GekkoFS
