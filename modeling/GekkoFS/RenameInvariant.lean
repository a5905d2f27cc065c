import GekkoFS.RenameMachine

/-!
# The links between the names of a file

The names of a file are linked from its current one to the one it was created with (`FileAt`), and
those of different files end in different ones, so no name belongs to two files (`Names`). Every
call that returns keeps this, and makes no list of names longer than by one (`Names.step`).
-/

namespace GekkoFS

open Function List

/-! ## The names of one file -/

/-- The names of a file are linked from the current one, and the others are left from renames; the
last one has the size. -/
structure FileAt (nodes : FileName → Slot) (f : FileInfo) (older : List FileName) : Prop where
  linked : Linked (targets nodes) (f.name :: older)
  live : ∃ nd, nodes f.name = .taken nd ∧ nd.dead = false
  dead : ∀ name ∈ older, ∃ nd, nodes name = .taken nd ∧ nd.dead = true
  size : ∃ first nd, (f.name :: older).getLast? = some first ∧ nodes first = .taken nd ∧
    nd.size = f.size

namespace FileAt

variable {nodes nodes' : FileName → Slot} {f : FileInfo} {older : List FileName}
  {name : FileName} {nd : Node} {new : FileName}

/-- The names of a file are there. -/
theorem exists_node (h : FileAt nodes f older) (hname : name ∈ f.name :: older) :
    ∃ nd, nodes name = .taken nd := GekkoFS.exists_node (h.linked.ne_none hname)

theorem name_not_mem (h : FileAt nodes f older) : f.name ∉ older := by
  intro hmem
  obtain ⟨nd, hnd, hlive⟩ := h.live
  obtain ⟨nd', hnd', hdead⟩ := h.dead _ hmem
  rw [hnd] at hnd'
  cases hnd'
  rw [hlive] at hdead
  cases hdead

/-- The target of the current name is the name before it. -/
theorem older_eq (h : FileAt nodes f older) (hname : nodes f.name = .taken nd)
    (htarget : nd.target = some new) : ∃ rest, older = new :: rest := by
  cases h.linked with
  | last hend =>
    rw [targets_taken hname, htarget] at hend
    cases hend
  | cons hnext _ =>
    rw [targets_taken hname, htarget, Option.some.injEq, Option.some.injEq] at hnext
    exact ⟨_, by rw [hnext]⟩

/-- A file whose names stay as they are. -/
theorem congr (h : FileAt nodes f older)
    (heq : ∀ name ∈ f.name :: older, nodes' name = nodes name) : FileAt nodes' f older where
  linked := h.linked.congr fun name hname => by rw [targets, targets, heq name hname]
  live := by
    rw [heq _ mem_cons_self]
    exact h.live
  dead name hname := by
    rw [heq name (mem_cons_of_mem _ hname)]
    exact h.dead name hname
  size := by
    obtain ⟨first, nd, hlast, hnd, hsize⟩ := h.size
    exact ⟨first, nd, hlast, (heq first (mem_of_getLast? hlast)).trans hnd, hsize⟩

/-- A change of another name. -/
theorem update (h : FileAt nodes f older) (hname : name ∉ f.name :: older) (o : Slot) :
    FileAt (Function.update nodes name o) f older :=
  h.congr fun name' hmem => update_of_ne (fun heq : name' = name => hname (heq ▸ hmem)) _ _

/-- A new file. -/
theorem create (nodes : FileName → Slot) (name : FileName) :
    FileAt (Function.update nodes name (.taken ⟨false, none, 0⟩)) ⟨name, 0⟩ [] where
  linked := .last (targets_taken (update_self ..))
  live := ⟨_, update_self .., rfl⟩
  dead _ hname := absurd hname not_mem_nil
  size := ⟨name, _, rfl, update_self .., rfl⟩

/-- A change of the size at the first name. -/
theorem resize (h : FileAt nodes f older) {first : FileName}
    (hlast : (f.name :: older).getLast? = some first) (hnd : nodes first = .taken nd) (size : Nat) :
    FileAt (Function.update nodes first (.taken { nd with size := size })) { f with size := size }
      older := by
  have hnode : ∀ name, ∀ nd', nodes name = .taken nd' → ∃ nd'',
      Function.update nodes first (.taken { nd with size := size }) name = .taken nd'' ∧
        nd''.dead = nd'.dead ∧ nd''.target = nd'.target := by
    intro name nd' hnd'
    by_cases hname : name = first
    · rw [hname, hnd] at hnd'
      cases hnd'
      rw [hname, update_self]
      exact ⟨_, rfl, rfl, rfl⟩
    · exact ⟨nd', (update_of_ne hname ..).trans hnd', rfl, rfl⟩
  refine ⟨h.linked.congr fun name hname => ?_, ?_, fun name hname => ?_,
    first, _, hlast, update_self .., rfl⟩
  · obtain ⟨nd', hnd'⟩ := h.exists_node hname
    obtain ⟨nd'', hnd'', -, htarget⟩ := hnode name nd' hnd'
    rw [targets_taken hnd'', targets_taken hnd', htarget]
  · obtain ⟨nd', hnd', hlive⟩ := h.live
    obtain ⟨nd'', hnd'', hdead, -⟩ := hnode _ nd' hnd'
    exact ⟨nd'', hnd'', hdead.trans hlive⟩
  · obtain ⟨nd', hnd', hdead'⟩ := h.dead name hname
    obtain ⟨nd'', hnd'', hdead, -⟩ := hnode _ nd' hnd'
    exact ⟨nd'', hnd'', hdead.trans hdead'⟩

/-- A rename to a name that is not there. -/
theorem renameOn (h : FileAt nodes f older) (hname : nodes f.name = .taken nd)
    (hnew : nodes new = .free) :
    FileAt (renameOn nodes f.name new nd) ⟨new, f.size⟩ (f.name :: older) := by
  have hne : ∀ name ∈ f.name :: older, name ≠ new := by
    rintro name hmem rfl
    obtain ⟨nd', hnd'⟩ := h.exists_node hmem
    rw [hnew] at hnd'
    cases hnd'
  have hat : GekkoFS.renameOn nodes f.name new nd f.name = .taken { nd with dead := true } := by
    rw [GekkoFS.renameOn, update_of_ne (hne _ mem_cons_self), update_self]
  have hold : ∀ name ∈ older, GekkoFS.renameOn nodes f.name new nd name = nodes name := by
    intro name hmem
    rw [GekkoFS.renameOn, update_of_ne (hne _ (mem_cons_of_mem _ hmem)),
      update_of_ne fun heq : name = f.name => h.name_not_mem (heq ▸ hmem)]
  have hself : GekkoFS.renameOn nodes f.name new nd new = .taken ⟨false, some f.name, 0⟩ :=
    update_self ..
  refine ⟨.cons (targets_taken hself) (h.linked.congr fun name hmem => ?_),
    ⟨_, hself, rfl⟩, fun name hmem => ?_, ?_⟩
  · rcases mem_cons.1 hmem with rfl | hmem
    · rw [targets_taken hat, targets_taken hname]
    · rw [targets, targets, hold name hmem]
  · rcases mem_cons.1 hmem with rfl | hmem
    · exact ⟨_, hat, rfl⟩
    · rw [hold name hmem]
      exact h.dead name hmem
  · obtain ⟨first, nd', hlast, hnd', hsize⟩ := h.size
    rw [getLast?_cons_cons]
    rcases mem_cons.1 (mem_of_getLast? hlast) with rfl | hmem
    · rw [hname] at hnd'
      cases hnd'
      exact ⟨_, _, hlast, hat, hsize⟩
    · exact ⟨first, nd', hlast, (hold first hmem).trans hnd', hsize⟩

/-- A rename back to the target. -/
theorem renameBack (h : FileAt nodes f (new :: older))
    (hnew : nodes new = .taken nd) :
    FileAt (renameBack nodes f.name new nd) ⟨new, f.size⟩ older := by
  have hne : ∀ name ∈ new :: older, name ≠ f.name := fun name hmem heq =>
    h.name_not_mem (heq ▸ hmem)
  have hlinked : Linked (targets nodes) (new :: older) := by
    cases h.linked with
    | cons _ hl => exact hl
  have hnodup : new ∉ older := hlinked.not_mem
  have hat : GekkoFS.renameBack nodes f.name new nd new = .taken { nd with dead := false } := by
    rw [GekkoFS.renameBack, update_of_ne (hne _ mem_cons_self),
      update_self]
  have hold : ∀ name ∈ older, GekkoFS.renameBack nodes f.name new nd name = nodes name := by
    intro name hmem
    rw [GekkoFS.renameBack, update_of_ne (hne _ (mem_cons_of_mem _ hmem)),
      update_of_ne fun heq : name = new => hnodup (heq ▸ hmem)]
  refine ⟨hlinked.congr fun name hmem => ?_, ⟨_, hat, rfl⟩, fun name hmem => ?_, ?_⟩
  · rcases mem_cons.1 hmem with rfl | hmem
    · rw [targets_taken hat, targets_taken hnew]
    · rw [targets, targets, hold name hmem]
  · rw [hold name hmem]
    exact h.dead name (mem_cons_of_mem _ hmem)
  · obtain ⟨first, nd', hlast, hnd', hsize⟩ := h.size
    rw [getLast?_cons_cons] at hlast
    rcases mem_cons.1 (mem_of_getLast? hlast) with rfl | hmem
    · rw [hnew] at hnd'
      cases hnd'
      exact ⟨_, _, hlast, hat, hsize⟩
    · exact ⟨first, nd', hlast, (hold first hmem).trans hnd', hsize⟩

end FileAt

/-! ## The names of all files -/

section
variable {n : Nat} {cfg : MetadataConfig} {d : Distributor n} {s : RenameState n}
  {nodes nodes' : FileName → Slot} {older : Nat → List FileName} {bound : Nat}

/-- Apart from the names of files there is the entry of the root only. -/
def RootOnly (cfg : MetadataConfig) (key : List Char) (c : Cell) : Prop :=
  if key = ['/'] then ∃ md, c.Holds cfg md else c = Cell.empty

/-- The daemons hold the names of the files, which are linked, and apart from these only names that
are left from renames; the names of different files end in different ones, and every open file has
the last name of its file. -/
structure Names (cfg : MetadataConfig) (d : Distributor n) (s : RenameState n)
    (nodes : FileName → Slot) (older : Nat → List FileName) (bound : Nat) : Prop where
  refines : Refines cfg d (RootOnly cfg) s.daemons nodes
  known : ∀ name, nodes name ≠ .other
  file : ∀ i f, s.files i = some f → FileAt nodes f (older i)
  dead : ∀ name nd, nodes name = .taken nd →
    nd.dead = true ∨ ∃ i f, s.files i = some f ∧ f.name = name
  apart : ∀ i j f g, s.files i = some f → s.files j = some g →
    (f.name :: older i).getLast? = (g.name :: older j).getLast? → i = j
  bound : ∀ i f, s.files i = some f → (older i).length ≤ bound
  created : ∀ i f, s.files i = some f → i < s.created
  opened : ∀ p ∈ s.opened, p.2 < s.created ∧ ∃ first : FileName,
    p.1.path = first.text ∧ p.1.isDirectory = false ∧
      ∀ f, s.files p.2 = some f → (f.name :: older p.2).getLast? = some first

theorem ne_other_update (h : ∀ name, nodes name ≠ .other) {name : FileName} {o : Slot}
    (ho : o ≠ .other) : ∀ name', Function.update nodes name o name' ≠ .other := by
  intro name'
  by_cases hself : name' = name
  · rw [hself, update_self]
    exact ho
  · rw [update_of_ne hself]
    exact h name'

namespace Names

variable {i fuel : Nat} {f : FileInfo} {name : FileName} {cl : DaemonCluster n} {nd : Node}

section
variable (h : Names cfg d s nodes older bound)
include h

/-- No name belongs to two files. -/
theorem eq_of_mem {j : Nat} {g : FileInfo}
    (hi : s.files i = some f) (hj : s.files j = some g)
    (hname : name ∈ f.name :: older i) (hname' : name ∈ g.name :: older j) : i = j :=
  h.apart i j f g hi hj ((h.file i f hi).linked.getLast_eq (h.file j g hj).linked hname hname')

/-- Calls that leave the entries and the files alone. -/
theorem of_refines (hcl : Refines cfg d (RootOnly cfg) cl nodes) :
    Names cfg d { s with daemons := cl } nodes older bound :=
  { h with refines := hcl }

theorem mono {bound' : Nat} (hle : bound ≤ bound') :
    Names cfg d s nodes older bound' :=
  { h with bound := fun i f hi => (h.bound i f hi).trans hle }

/-- A name that is there and not left from a rename is that of a file. -/
theorem exists_file (hname : nodes name = .taken nd) (hlive : nd.dead = false) :
    ∃ i f, s.files i = some f ∧ f.name = name := by
  refine (h.dead name nd hname).resolve_left fun hdead => ?_
  rw [hlive] at hdead
  cases hdead

/-- The file with a name is found. -/
theorem fileNamed_eq (hi : s.files i = some f) : s.fileNamed f.name = some i := by
  cases hfind : s.fileNamed f.name with
  | none =>
    have hnone := find?_eq_none.1 hfind i (mem_range.2 (h.created i f hi))
    rw [hi] at hnone
    exact absurd (decide_eq_true rfl) hnone
  | some j =>
    have hany := find?_some hfind
    obtain ⟨g, hj, hname⟩ := (Option.any_eq_true _ _).1 hany
    have hname : g.name = f.name := of_decide_eq_true hname
    exact congrArg some (h.eq_of_mem hj hi mem_cons_self (hname ▸ mem_cons_self))

end

theorem fileNamed_none (s : RenameState n)
    (hname : ∀ i f, s.files i = some f → f.name ≠ name) : s.fileNamed name = none := by
  refine find?_eq_none.2 fun i _ hany => ?_
  obtain ⟨f, hi, hf⟩ := (Option.any_eq_true _ _).1 hany
  exact hname i f hi (of_decide_eq_true hf)

section
variable (h : Names cfg d s nodes older bound)
include h

/-- The names of a file that another name does not belong to stay as they are. -/
theorem not_mem_of_free (hname : nodes name = .free) (hi : s.files i = some f) :
    name ∉ f.name :: older i := fun hmem => by
  obtain ⟨nd, hnd⟩ := (h.file i f hi).exists_node hmem
  rw [hname] at hnd
  cases hnd

/-- A new file that is open. -/
theorem create (hname : nodes name = .free)
    (hcl : Refines cfg d (RootOnly cfg) cl (Function.update nodes name (.taken ⟨false, none, 0⟩)))
    (append : Bool) :
    Names cfg d ⟨cl, s.opened ++ [(⟨name.text, append, false⟩, s.created)],
        Function.update s.files s.created (some ⟨name, 0⟩), s.created + 1⟩
      (Function.update nodes name (.taken ⟨false, none, 0⟩))
      (Function.update older s.created []) bound := by
  have hother : ∀ i f, s.files i = some f → i ≠ s.created := fun i f hi =>
    Nat.ne_of_lt (h.created i f hi)
  have hfiles : ∀ i f, Function.update s.files s.created (some ⟨name, 0⟩) i = some f →
      (i = s.created ∧ f = ⟨name, 0⟩) ∨ (i ≠ s.created ∧ s.files i = some f) := by
    intro i f hi
    by_cases hnew : i = s.created
    · rw [hnew, update_self, Option.some.injEq] at hi
      exact .inl ⟨hnew, hi.symm⟩
    · rw [update_of_ne hnew] at hi
      exact .inr ⟨hnew, hi⟩
  have hfirst : ∀ i f, s.files i = some f →
      (f.name :: older i).getLast? ≠ some name := fun i f hi hlast =>
    h.not_mem_of_free hname hi (mem_of_getLast? hlast)
  refine ⟨hcl, ne_other_update h.known Slot.noConfusion, fun i f hi => ?_,
    fun name' nd hnd => ?_, fun i j f g hi hj hlast => ?_, fun i f hi => ?_,
    fun i f hi => ?_, fun p hp => ?_⟩
  · rcases hfiles i f hi with ⟨rfl, rfl⟩ | ⟨hne, hi⟩
    · rw [update_self]
      exact .create nodes name
    · rw [update_of_ne hne]
      exact (h.file i f hi).update (h.not_mem_of_free hname hi) _
  · by_cases hself : name' = name
    · exact .inr ⟨s.created, ⟨name, 0⟩, update_self .., hself.symm⟩
    · rw [update_of_ne hself] at hnd
      refine (h.dead name' nd hnd).imp_right fun ⟨i, f, hi, hf⟩ => ⟨i, f, ?_, hf⟩
      exact (update_of_ne (hother i f hi) ..).trans hi
  · rcases hfiles i f hi with ⟨rfl, rfl⟩ | ⟨hne, hi⟩
    · rcases hfiles j g hj with ⟨rfl, rfl⟩ | ⟨hne, hj⟩
      · rfl
      · rw [update_self, update_of_ne hne] at hlast
        exact absurd hlast.symm (hfirst j g hj)
    · rcases hfiles j g hj with ⟨rfl, rfl⟩ | ⟨hne', hj⟩
      · rw [update_self, update_of_ne hne] at hlast
        exact absurd hlast (hfirst i f hi)
      · rw [update_of_ne hne, update_of_ne hne'] at hlast
        exact h.apart i j f g hi hj hlast
  · rcases hfiles i f hi with ⟨rfl, rfl⟩ | ⟨hne, hi⟩
    · rw [update_self]
      exact Nat.zero_le _
    · rw [update_of_ne hne]
      exact h.bound i f hi
  · rcases hfiles i f hi with ⟨rfl, rfl⟩ | ⟨-, hi⟩
    · exact Nat.lt_succ_self _
    · exact Nat.lt_succ_of_lt (h.created i f hi)
  · rcases mem_append.1 hp with hp | hp
    · obtain ⟨hlt, first, hpath, hdir, hlast⟩ := h.opened p hp
      refine ⟨Nat.lt_succ_of_lt hlt, first, hpath, hdir, fun f hf => ?_⟩
      dsimp only at hf
      rw [update_of_ne (Nat.ne_of_lt hlt)] at hf ⊢
      exact hlast f hf
    · cases mem_singleton.1 hp
      refine ⟨Nat.lt_succ_self _, name, rfl, rfl, fun f hf => ?_⟩
      dsimp only at hf
      rw [update_self, Option.some.injEq] at hf
      rw [← hf, update_self]
      rfl

/-- A change of one file that keeps its first name. -/
theorem updateFile (hi : s.files i = some f) (hcl : Refines cfg d (RootOnly cfg) cl nodes')
    (hknown : ∀ name, nodes' name ≠ .other)
    (hframe : ∀ j g, s.files j = some g → j ≠ i → ∀ name ∈ g.name :: older j,
      nodes' name = nodes name)
    {o : Option FileInfo} {rest : List FileName} {bound' : Nat} (hle : bound ≤ bound')
    (hfile : ∀ f', o = some f' → FileAt nodes' f' rest ∧
      (f'.name :: rest).getLast? = (f.name :: older i).getLast? ∧ rest.length ≤ bound')
    (hdead : ∀ name nd, nodes' name = .taken nd →
      nd.dead = true ∨ (∃ f', o = some f' ∧ f'.name = name) ∨
      ∃ j g, j ≠ i ∧ s.files j = some g ∧ g.name = name) :
    Names cfg d { s with daemons := cl, files := Function.update s.files i o } nodes'
      (Function.update older i rest) bound' := by
  have hfiles : ∀ j g, Function.update s.files i o j = some g →
      (j = i ∧ o = some g) ∨ (j ≠ i ∧ s.files j = some g) := by
    intro j g hj
    by_cases heq : j = i
    · rw [heq, update_self] at hj
      exact .inl ⟨heq, hj⟩
    · rw [update_of_ne heq] at hj
      exact .inr ⟨heq, hj⟩
  -- a changed file has the last name that it had, and so have the others
  have hlast : ∀ j g, Function.update s.files i o j = some g → ∃ g', s.files j = some g' ∧
      (g.name :: Function.update older i rest j).getLast? = (g'.name :: older j).getLast? := by
    intro j g hj
    rcases hfiles j g hj with ⟨rfl, ho⟩ | ⟨hne, hj⟩
    · rw [update_self]
      exact ⟨f, hi, (hfile g ho).2.1⟩
    · rw [update_of_ne hne]
      exact ⟨g, hj, rfl⟩
  refine ⟨hcl, hknown, fun j g hj => ?_, fun name nd hnd => ?_, fun j k g g' hj hk heq => ?_,
    fun j g hj => ?_, fun j g hj => ?_, fun p hp => ?_⟩
  · rcases hfiles j g hj with ⟨rfl, ho⟩ | ⟨hne, hj⟩
    · rw [update_self]
      exact (hfile g ho).1
    · rw [update_of_ne hne]
      exact (h.file j g hj).congr (hframe j g hj hne)
  · rcases hdead name nd hnd with hdead | ⟨f', ho, hf'⟩ | ⟨j, g, hne, hj, hg⟩
    · exact .inl hdead
    · exact .inr ⟨i, f', (update_self ..).trans ho, hf'⟩
    · exact .inr ⟨j, g, (update_of_ne hne ..).trans hj, hg⟩
  · obtain ⟨g₁, hj₁, hlast₁⟩ := hlast j g hj
    obtain ⟨g₂, hk₂, hlast₂⟩ := hlast k g' hk
    rw [hlast₁, hlast₂] at heq
    exact h.apart j k g₁ g₂ hj₁ hk₂ heq
  · rcases hfiles j g hj with ⟨rfl, ho⟩ | ⟨hne, hj⟩
    · rw [update_self]
      exact (hfile g ho).2.2
    · rw [update_of_ne hne]
      exact (h.bound j g hj).trans hle
  · obtain ⟨g', hj', -⟩ := hlast j g hj
    exact h.created j g' hj'
  · obtain ⟨hlt, first, hpath, hdir, hfirst⟩ := h.opened p hp
    refine ⟨hlt, first, hpath, hdir, fun g hg => ?_⟩
    obtain ⟨g', hg', heq⟩ := hlast p.2 g hg
    rw [heq]
    exact hfirst g' hg'

/-! ## Steps -/

/-- The name of a file belongs to this file only. -/
theorem name_ne {j : Nat} {g : FileInfo}
    (hi : s.files i = some f) (hg : s.files j = some g) (hj : j ≠ i) : g.name ≠ f.name :=
  fun hname => hj (h.eq_of_mem hg hi mem_cons_self (hname ▸ mem_cons_self))

theorem map_rename (hi : s.files i = some f) (new : FileName) :
    (fun j => (s.files j).map fun g => if g.name = f.name then { g with name := new } else g) =
      Function.update s.files i (some { f with name := new }) := by
  funext j
  by_cases hj : j = i
  · rw [hj, update_self, hi, Option.map_some, if_pos rfl]
  · rw [update_of_ne hj]
    cases hg : s.files j with
    | none => rfl
    | some g => rw [Option.map_some, if_neg (h.name_ne hi hg hj)]

theorem filter_remove (hi : s.files i = some f) :
    (fun j => (s.files j).filter fun g => g.name ≠ f.name) = Function.update s.files i none := by
  funext j
  by_cases hj : j = i
  · rw [hj, update_self, hi]
    exact if_neg (by simp)
  · rw [update_of_ne hj]
    cases hg : s.files j with
    | none => rfl
    | some g => exact if_pos (decide_eq_true (h.name_ne hi hg hj))

/-- A file is opened or created. -/
theorem openFile (hcfg : RenameBuild cfg)
    (hfuel : bound ≤ fuel) (name : FileName) (mode : UInt32) (flags : OpenFlags) (now : Int64) :
    ∃ s', s.step cfg d fuel (.openFile name mode flags now) = some s' ∧
      ∃ nodes' older', Names cfg d s' nodes' older' bound := by
  have hlinked : ∀ nd, nodes name = .taken nd → nd.dead = false →
      ∃ older, Linked (targets nodes) (name :: older) ∧ older.length ≤ fuel := by
    intro nd hnd hlive
    obtain ⟨i, f, hi, rfl⟩ := h.exists_file hnd hlive
    exact ⟨older i, (h.file i f hi).linked, (h.bound i f hi).trans hfuel⟩
  obtain ⟨⟨r, cl⟩, hopen, hcases⟩ :=
    h.refines.gkfsOpen_cases hcfg (h.known name) hlinked mode flags now
  rw [RenameState.step, hopen]
  rcases hcases with ⟨hcl, ⟨err, hr⟩ | ⟨nd, rest, first, hr, hnd, hlive, hl, hlast⟩⟩ |
    ⟨hr, hnone, hcl⟩
  · cases hr
    exact ⟨_, rfl, nodes, older, h.of_refines hcl⟩
  · cases hr
    obtain ⟨i, f, hi, rfl⟩ := h.exists_file hnd hlive
    have hrest := (h.file i f hi).linked.unique hl
    dsimp only
    rw [h.fileNamed_eq hi]
    refine ⟨_, rfl, nodes, older, { h.of_refines hcl with opened := fun p hp => ?_ }⟩
    rcases mem_append.1 hp with hp | hp
    · exact h.opened p hp
    · cases mem_singleton.1 hp
      refine ⟨h.created i f hi, first, rfl, rfl, fun g hg => ?_⟩
      rw [hi] at hg
      cases hg
      rw [hrest]
      exact hlast
  · cases hr
    have hnew : ∀ i f, s.files i = some f → f.name ≠ name := fun i f hi heq =>
      h.not_mem_of_free hnone hi (heq ▸ mem_cons_self)
    dsimp only
    rw [fileNamed_none s hnew]
    exact ⟨_, rfl, _, _, h.create hnone hcl flags.append⟩

/-- The size of a file changes at its last name. -/
theorem resize {first : FileName} {size : Nat}
    (hi : s.files i = some f)
    (hlast : (f.name :: older i).getLast? = some first) (hnd : nodes first = .taken nd)
    (hcl : Refines cfg d (RootOnly cfg) cl
      (Function.update nodes first (.taken { nd with size := size }))) :
    Names cfg d
      { s with daemons := cl, files := Function.update s.files i (some { f with size := size }) }
      (Function.update nodes first (.taken { nd with size := size }))
      (Function.update older i (older i)) bound := by
  refine h.updateFile hi hcl (ne_other_update h.known Slot.noConfusion)
    (fun j g hj hne name hname => ?_) le_rfl (fun f' hf' => ?_)
    fun name nd' hnd' => ?_
  · refine update_of_ne (fun heq : name = first => hne ?_) ..
    exact h.eq_of_mem hj hi hname (heq ▸ mem_of_getLast? hlast)
  · cases hf'
    exact ⟨(h.file i f hi).resize hlast hnd size, rfl, h.bound i f hi⟩
  · obtain ⟨nd'', hnd'', hdead⟩ : ∃ nd'', nodes name = .taken nd'' ∧ nd''.dead = nd'.dead := by
      by_cases hname : name = first
      · rw [hname, update_self] at hnd'
        cases hnd'
        exact ⟨nd, hname ▸ hnd, rfl⟩
      · rw [update_of_ne hname] at hnd'
        exact ⟨nd', hnd', rfl⟩
    rcases h.dead name nd'' hnd'' with hd | ⟨j, g, hj, hg⟩
    · exact .inl (hdead ▸ hd)
    · by_cases hji : j = i
      · rw [hji, hi] at hj
        cases hj
        exact .inr (.inl ⟨_, rfl, hg⟩)
      · exact .inr (.inr ⟨j, g, hji, hj, hg⟩)

/-- A file is written. -/
theorem write {fd : Nat} {buf : List UInt8}
    {offset : Int64} {mergeId : UInt16} {now : Int64}
    (hok : s.StepOk (.write fd buf offset mergeId now)) :
    ∃ s', s.step cfg d fuel (.write fd buf offset mergeId now) = some s' ∧
      ∃ nodes' older', Names cfg d s' nodes' older' bound := by
  rw [RenameState.step]
  cases hfd : s.opened[fd]? with
  | none => exact ⟨s, rfl, nodes, older, h⟩
  | some p =>
    obtain ⟨file, i⟩ := p
    obtain ⟨f, hi, hs, hs', ho, hsize⟩ := hok (file, i) hfd
    dsimp only at hi hsize
    obtain ⟨-, first, hpath, hdir, hfirst⟩ := h.opened (file, i) (mem_of_getElem? hfd)
    have hlast := hfirst f hi
    obtain ⟨first', nd, hlast', hnd, hndsize⟩ := (h.file i f hi).size
    rw [hlast] at hlast'
    cases hlast'
    have hfile : file = ⟨first.text, file.append, false⟩ := by
      obtain ⟨path, append, isDirectory⟩ := file
      cases hpath
      cases hdir
      rfl
    rw [← hndsize] at hsize
    obtain ⟨cl, hwrite, hcl⟩ := h.refines.gkfsDoWrite_taken hnd ho hs hs' hsize mergeId now
    rw [← hfile] at hwrite
    dsimp only
    rw [hwrite]
    rw [hi, Option.map_some, ← hndsize]
    exact ⟨_, rfl, _, _, h.resize hi hlast hnd hcl⟩

/-- A name that is there and is not that of a given file. -/
theorem dead_of_ne (hi : s.files i = some f)
    (hname : name ≠ f.name) (hnd : nodes name = .taken nd) :
    nd.dead = true ∨ ∃ j g, j ≠ i ∧ s.files j = some g ∧ g.name = name := by
  refine (h.dead name nd hnd).imp_right fun ⟨j, g, hj, hg⟩ => ⟨j, g, ?_, hj, hg⟩
  rintro rfl
  rw [hi] at hj
  cases hj
  exact hname hg.symm

/-- A file is renamed to a name that is not there. -/
theorem renameOn {new : FileName} (hi : s.files i = some f)
    (hnd : nodes f.name = .taken nd)
    (hnew : nodes new = .free)
    (hcl : Refines cfg d (RootOnly cfg) cl (renameOn nodes f.name new nd)) :
    Names cfg d
      { s with daemons := cl, files := Function.update s.files i (some { f with name := new }) }
      (GekkoFS.renameOn nodes f.name new nd) (Function.update older i (f.name :: older i))
      (bound + 1) := by
  refine h.updateFile hi hcl
    (ne_other_update (ne_other_update h.known Slot.noConfusion) Slot.noConfusion)
    (fun j g hj hne name hname => ?_) (Nat.le_succ _) (fun f' hf' => ?_)
    fun name nd' hnd' => ?_
  · rw [GekkoFS.renameOn, update_of_ne fun heq : name = new =>
      h.not_mem_of_free hnew hj (heq ▸ hname), update_of_ne fun heq : name = f.name =>
      hne (h.eq_of_mem hj hi hname (heq ▸ mem_cons_self))]
  · cases hf'
    exact ⟨(h.file i f hi).renameOn hnd hnew, getLast?_cons_cons,
      Nat.succ_le_succ (h.bound i f hi)⟩
  · rw [GekkoFS.renameOn] at hnd'
    by_cases hself : name = new
    · exact .inr (.inl ⟨_, rfl, hself.symm⟩)
    · rw [update_of_ne hself] at hnd'
      by_cases hold : name = f.name
      · rw [hold, update_self] at hnd'
        cases hnd'
        exact .inl rfl
      · rw [update_of_ne hold] at hnd'
        exact (h.dead_of_ne hi hold hnd').imp_right .inr

/-- A file is renamed back to the name before. -/
theorem renameBack {new : FileName}
    {nd' : Node} (hi : s.files i = some f)
    (hnd : nodes f.name = .taken nd) (htarget : nd.target = some new)
    (hnew : nodes new = .taken nd')
    (hcl : Refines cfg d (RootOnly cfg) cl (renameBack nodes f.name new nd')) :
    ∃ rest, Names cfg d
      { s with daemons := cl, files := Function.update s.files i (some { f with name := new }) }
      (GekkoFS.renameBack nodes f.name new nd') (Function.update older i rest) bound := by
  have hfile := h.file i f hi
  obtain ⟨rest, hrest⟩ := hfile.older_eq hnd htarget
  have hmem : new ∈ f.name :: older i := by
    rw [hrest]
    exact mem_cons_of_mem _ mem_cons_self
  refine ⟨rest, h.updateFile hi hcl
    (ne_other_update (ne_other_update h.known Slot.noConfusion) Slot.noConfusion)
    (fun j g hj hne name hname => ?_) le_rfl (fun f' hf' => ?_)
    fun name nd'' hnd'' => ?_⟩
  · rw [GekkoFS.renameBack, update_of_ne fun heq : name = f.name =>
      hne (h.eq_of_mem hj hi hname (heq ▸ mem_cons_self)),
      update_of_ne fun heq : name = new => hne (h.eq_of_mem hj hi hname (heq ▸ hmem))]
  · cases hf'
    rw [hrest] at hfile ⊢
    refine ⟨hfile.renameBack hnew, getLast?_cons_cons.symm, ?_⟩
    have hbound := h.bound i f hi
    rw [hrest] at hbound
    exact Nat.le_of_succ_le hbound
  · rw [GekkoFS.renameBack] at hnd''
    by_cases hold : name = f.name
    · rw [hold, update_self] at hnd''
      cases hnd''
    · rw [update_of_ne hold] at hnd''
      by_cases hself : name = new
      · exact .inr (.inl ⟨_, rfl, hself.symm⟩)
      · rw [update_of_ne hself] at hnd''
        exact (h.dead_of_ne hi hold hnd'').imp_right .inr

/-- A file is renamed. -/
theorem rename (hcfg : RenameBuild cfg) (fuel : Nat)
    (oldPath newPath : FileName) (now : Int64) :
    ∃ s', s.step cfg d fuel (.rename oldPath newPath now) = some s' ∧
      ∃ nodes' older', Names cfg d s' nodes' older' (bound + 1) := by
  have hcases := h.refines.gkfsRename_cases hcfg (h.known oldPath) (h.known newPath) now rfl
  rw [RenameState.step]
  generalize Rename.gkfsRename cfg d s.daemons oldPath newPath now = r at hcases
  obtain ⟨ret, cl⟩ := r
  dsimp only at hcases ⊢
  rcases hcases with ⟨hret, hcl⟩ | ⟨hret, nd, hnd, hlive, hcases⟩
  · rw [if_pos hret]
    exact ⟨_, rfl, nodes, older, (h.of_refines hcl).mono (Nat.le_succ _)⟩
  · obtain ⟨i, f, hi, rfl⟩ := h.exists_file hnd hlive
    rw [if_neg (not_not.2 hret), h.map_rename hi newPath]
    rcases hcases with ⟨hnew, hcl⟩ | ⟨nd', hnew, -, htarget, hcl⟩
    · exact ⟨_, rfl, _, _, h.renameOn hi hnd hnew hcl⟩
    · obtain ⟨rest, hnames⟩ := h.renameBack hi hnd htarget hnew hcl
      exact ⟨_, rfl, _, _, hnames.mono (Nat.le_succ _)⟩

/-- A file is removed. -/
theorem remove (hcfg : RenameBuild cfg)
    (hfuel : bound ≤ fuel) (path : FileName) :
    ∃ s', s.step cfg d fuel (.remove path) = some s' ∧
      ∃ nodes' older', Names cfg d s' nodes' older' bound := by
  have hnoent : (ENOENT : Int) ≠ 0 := by decide
  rw [RenameState.step]
  by_cases hmissing : ∀ nd, nodes path = .taken nd → nd.dead = true
  · obtain ⟨cl, hremove, hcl⟩ := h.refines.gkfsRemove_missing hcfg (h.known path) hmissing fuel
    rw [hremove]
    exact ⟨_, if_pos hnoent, nodes, older, h.of_refines hcl⟩
  · push Not at hmissing
    obtain ⟨nd, hnd, hlive⟩ := hmissing
    have hlive : nd.dead = false := Bool.eq_false_iff.2 hlive
    obtain ⟨i, f, hi, rfl⟩ := h.exists_file hnd hlive
    have hfile := h.file i f hi
    obtain ⟨first, cl, hremove, hlast, hcl⟩ := h.refines.gkfsRemove_linked hcfg hfile.linked
      ((h.bound i f hi).trans hfuel) hnd hlive
    rw [hremove]
    dsimp only
    rw [if_neg (not_not.2 rfl), h.filter_remove hi]
    refine ⟨_, rfl, _, Function.update older i [], h.updateFile hi hcl
      (ne_other_update (ne_other_update h.known Slot.noConfusion) Slot.noConfusion)
      (fun j g hj hne name hname => ?_) le_rfl (fun f' hf' => by cases hf') fun name nd' hnd' => ?_⟩
    · rw [update_of_ne fun heq : name = f.name =>
          hne (h.eq_of_mem hj hi hname (heq ▸ mem_cons_self)),
        update_of_ne fun heq : name = first =>
          hne (h.eq_of_mem hj hi hname (heq ▸ mem_of_getLast? hlast))]
    · by_cases hname : name = f.name
      · rw [hname, update_self] at hnd'
        cases hnd'
      · rw [update_of_ne hname] at hnd'
        by_cases hfirst : name = first
        · rw [hfirst, update_self] at hnd'
          cases hnd'
        · rw [update_of_ne hfirst] at hnd'
          exact (h.dead_of_ne hi hname hnd').imp_right .inr

/-- Every call that meets the condition returns and keeps the names in order. -/
theorem step (hcfg : RenameBuild cfg)
    (hfuel : bound ≤ fuel) {call : RenameCall} (hok : s.StepOk call) :
    ∃ s', s.step cfg d fuel call = some s' ∧
      ∃ nodes' older', Names cfg d s' nodes' older' (bound + 1) := by
  have hmono : ∀ {s' : RenameState n},
      (∃ nodes' older', Names cfg d s' nodes' older' bound) →
        ∃ nodes' older', Names cfg d s' nodes' older' (bound + 1) :=
    fun ⟨nodes', older', hnames⟩ => ⟨nodes', older', hnames.mono (Nat.le_succ _)⟩
  cases call with
  | openFile name mode flags now =>
    obtain ⟨s', hs', hnames⟩ := h.openFile hcfg hfuel name mode flags now
    exact ⟨s', hs', hmono hnames⟩
  | write fd buf offset mergeId now =>
    obtain ⟨s', hs', hnames⟩ := h.write hok
    exact ⟨s', hs', hmono hnames⟩
  | rename oldPath newPath now => exact h.rename hcfg fuel oldPath newPath now
  | remove path =>
    obtain ⟨s', hs', hnames⟩ := h.remove hcfg hfuel path
    exact ⟨s', hs', hmono hnames⟩

end

end Names

end

end GekkoFS
