import GekkoFS.Common.GuidedDistributor
import GekkoFS.Lib.Simulation

/-!
# Requests to all hosts

A request about a directory goes to the hosts of `locate_directory_metadata`, a list that the
distributors keep beside the number of hosts. Both are set by the constructor and by a lookup with
a number of hosts, if it is not the one that is stored. `hosts_size` sets the number only, and a
lookup with that number does not make up for it.

The list covers the placements after each of some calls exactly if none of them is a `hosts_size`
with a number other than the one before it (`broadcastsCover_iff`). The guided distributor without
lines does what the hash distributor does (`simulates_unguided`), so this is shown for the latter
(`covers_iff` for one state, `broadcastsCover_simple` for all calls).
-/

namespace GekkoFS

open List Simulation

/-- A positive number of hosts. -/
structure HostCount where
  size : UInt32
  pos : 0 < size.toNat

/-- A call that takes a number of hosts. -/
inductive SizedCall
  /-- Source: `hosts_size` (`distributor.hpp:60`). -/
  | hostsSize (size : HostCount)
  /-- Source: `locate_data` (`distributor.hpp:63`). -/
  | locateData (path : List Char) (chnkId : UInt32) (hostsSize : HostCount) (numCopy : Int32)

/-- The number of hosts of a call. -/
def SizedCall.count : SizedCall → UInt32
  | .hostsSize size => size.size
  | .locateData _ _ size _ => size.size

/-- An `int` that is added to a `size_t`. -/
def sizeOfInt (x : Int32) : Nat := x.toInt64.toUInt64.toNat

/-- The functions of a distributor, with the string hash that it uses. Source: `Distributor`
(`distributor.hpp:45`). -/
structure DistributorFunctions (σ : Type) where
  /-- The object for a number of hosts; zero hosts are those of the constructor without
  arguments. -/
  construct : UInt32 → σ
  hostsSize : σ → UInt32
  setHostsSize : σ → UInt32 → σ
  locateData : (List Char → Nat) → σ → List Char → UInt32 → Nat → Option Nat
  locateDataSized : (List Char → Nat) → σ → List Char → UInt32 → UInt32 → Nat → Option Nat × σ
  locateFileMetadata : (List Char → Nat) → σ → List Char → Nat → Option Nat
  locateDirectoryMetadata : σ → List Nat

namespace DistributorFunctions

variable {σ : Type} (fns : DistributorFunctions σ) (strHash : List Char → Nat)

/-- A call: the host that it returns, if any, and the object after it. -/
def serve (s : σ) : SizedCall → Option Nat × σ
  | .hostsSize size => (none, fns.setHostsSize s size.size)
  | .locateData path chnkId hostsSize numCopy =>
    fns.locateDataSized strHash s path chnkId hostsSize.size (sizeOfInt numCopy)

/-- Requests to all hosts reach every host that a lookup can return, and no host that there is
not. -/
structure Covers (s : σ) : Prop where
  data : ∀ path chnkId numCopy host,
    fns.locateData strHash s path chnkId (sizeOfInt numCopy) = some host →
      host ∈ fns.locateDirectoryMetadata s
  metadata : ∀ path numCopy host,
    fns.locateFileMetadata strHash s path (sizeOfInt numCopy) = some host →
      host ∈ fns.locateDirectoryMetadata s
  inside : ∀ host ∈ fns.locateDirectoryMetadata s, host < (fns.hostsSize s).toNat

end DistributorFunctions

/-- The number of hosts of a constructor, which may be the one without arguments. -/
def constructorCount : Option HostCount → UInt32
  | none => 0
  | some hostsSize => hostsSize.size

/-- After the constructor and each of the calls, for whatever string hash, requests to all hosts
cover the placements. -/
def BroadcastsCover {σ : Type} (fns : DistributorFunctions σ) (constructor : Option HostCount)
    (calls : List SizedCall) : Prop :=
  ∀ strHash done, done <+: calls → fns.Covers strHash
    (final (fns.serve strHash) (fns.construct (constructorCount constructor)) done)

/-- The call is no `hosts_size` with another number than the one that is stored. -/
def SizedCall.Repeats (count : UInt32) : SizedCall → Prop
  | .hostsSize size => size.size = count
  | .locateData .. => True

/-- Each `hosts_size` repeats the number of the call before it, the first one that of the
constructor. -/
def RepeatsCounts (count : UInt32) (calls : List SizedCall) : Prop :=
  Transition.AllOk (fun _ call => some call.count) SizedCall.Repeats count calls

theorem repeatsCounts_cons {count : UInt32} {call : SizedCall} {calls : List SizedCall} :
    RepeatsCounts count (call :: calls) ↔
      call.Repeats count ∧ RepeatsCounts call.count calls := by
  refine and_congr_right fun _ => ⟨fun h => h _ rfl, ?_⟩
  rintro h _ ⟨⟩
  exact h

/-! ## The two distributors -/

/-- Source: `SimpleHashDistributor` (`distributor.hpp:74`). -/
def SimpleHashDistributor.functions : DistributorFunctions SimpleHashDistributor where
  construct := ofSize
  hostsSize := hostsSize
  setHostsSize := setHostsSize
  locateData strHash dist path chnkId numCopy := dist.locateData strHash path chnkId.toNat numCopy
  locateDataSized strHash dist path chnkId hostsSize numCopy :=
    dist.locateDataSized strHash path chnkId.toNat hostsSize numCopy
  locateFileMetadata strHash dist := dist.locateFileMetadata strHash
  locateDirectoryMetadata := allHosts

/-- The guided distributor with its list of hosts. Source: `GuidedDistributor`
(`distributor.hpp:189`). -/
structure GuidedObject extends GuidedDistributor where
  allHosts : List Nat

namespace GuidedObject

/-- Source: the constructors `GuidedDistributor` (`distributor.cpp:232`). -/
def ofLines (hostsSize : UInt32) (lines : List GuidedLine) : Option GuidedObject :=
  (GuidedDistributor.initGuided hostsSize lines).map fun g => ⟨g, List.range hostsSize.toNat⟩

/-- The object if there are no lines. -/
def unguided (hostsSize : UInt32) : GuidedObject :=
  ⟨⟨hostsSize, fun _ => none, []⟩, List.range hostsSize.toNat⟩

theorem ofLines_nil (hostsSize : UInt32) : ofLines hostsSize [] = some (unguided hostsSize) := rfl

variable (strHash : List Char → Nat) (g : GuidedObject)

/-- Source: `hosts_size` (`distributor.cpp:258`). -/
def setHostsSize (size : UInt32) : GuidedObject := { g with hostsSize := size }

/-- The lookup with a number of hosts, which the object keeps. Source: `locate_data`
(`distributor.cpp:263`). -/
def locateDataSized (path : List Char) (chnkId hostsSize : UInt32) (numCopy : Nat) :
    Option Nat × GuidedObject :=
  let g : GuidedObject :=
    if g.hostsSize ≠ hostsSize then
      { g with hostsSize, allHosts := List.range hostsSize.toNat }
    else g
  (g.locateData strHash path chnkId numCopy, g)

/-- Source: `locate_file_metadata` (`distributor.cpp:298`). -/
def locateFileMetadata (path : List Char) (numCopy : Nat) : Option Nat :=
  g.select (strHash path) numCopy

/-- The functions, for an object without lines. Source: `GuidedDistributor`
(`distributor.hpp:189`). -/
def functions : DistributorFunctions GuidedObject where
  construct := unguided
  hostsSize g := g.hostsSize
  setHostsSize := setHostsSize
  locateData strHash g := g.locateData strHash
  locateDataSized := locateDataSized
  locateFileMetadata := locateFileMetadata
  locateDirectoryMetadata := allHosts

end GuidedObject

/-! ## The list of hosts -/

namespace SimpleHashDistributor

variable {dist : SimpleHashDistributor} {strHash : List Char → Nat}

theorem select_lt {hash numCopy host : Nat} (h : dist.select hash numCopy = some host) :
    host < dist.hostsSize.toNat := by
  rw [select] at h
  split at h
  · cases h
  · next hne =>
    have hpos : 0 < dist.hostsSize.toNat :=
      Nat.pos_of_ne_zero fun hzero => hne (UInt32.toNat_inj.1 hzero)
    rw [← Option.some.inj h]
    exact Nat.mod_lt _ hpos

/-- A host below the number of hosts is the one of every path for some string hash. -/
theorem locateFileMetadata_const {host : Nat} (h : host < dist.hostsSize.toNat)
    (path : List Char) :
    dist.locateFileMetadata (fun _ => host) path (sizeOfInt 0) = some host := by
  have hlt := dist.hostsSize.toNat_lt
  have hzero : sizeOfInt 0 = 0 := by decide
  have hfits : u64 host = host := Nat.mod_eq_of_lt (by omega)
  rw [locateFileMetadata, select_eq (Nat.zero_lt_of_lt h) rfl, hzero, Nat.add_zero, hfits,
    Nat.mod_eq_of_lt h]

/-- The first `m` hosts cover the placements exactly if there are `m` hosts. -/
theorem covers_iff {m : Nat} (h : dist.allHosts = List.range m) :
    (∀ strHash, functions.Covers strHash dist) ↔ m = dist.hostsSize.toNat := by
  constructor
  · intro hcovers
    refine Nat.le_antisymm (Nat.le_of_not_lt fun hlt => ?_) (Nat.le_of_not_lt fun hlt => ?_)
    · -- the list has a host behind the last one
      have hmem : dist.hostsSize.toNat ∈ dist.allHosts := by
        rw [h]
        exact mem_range.2 hlt
      exact Nat.lt_irrefl _ ((hcovers fun _ => 0).inside _ hmem)
    · -- it lacks the host `m`, where some string hash places everything
      have hmem := (hcovers fun _ => m).metadata [] 0 m (locateFileMetadata_const hlt [])
      have hlist : functions.locateDirectoryMetadata dist = List.range m := h
      rw [hlist] at hmem
      exact not_mem_range_self hmem
  · rintro rfl strHash
    have hmem : ∀ host, host < dist.hostsSize.toNat ↔
        host ∈ functions.locateDirectoryMetadata dist := fun host => by
      rw [← mem_range, ← h]
      rfl
    exact ⟨fun _ _ _ _ hhost => (hmem _).1 (select_lt hhost),
      fun _ _ _ hhost => (hmem _).1 (select_lt hhost), fun host hhost => (hmem host).2 hhost⟩

/-- A call leaves its number of hosts in the object. -/
theorem hostsSize_serve (call : SizedCall) :
    (functions.serve strHash dist call).2.hostsSize = call.count := by
  cases call with
  | hostsSize size => rfl
  | locateData path chnkId size numCopy =>
    exact hostsSize_locateDataSized dist path chnkId.toNat (sizeOfInt numCopy)

/-- A call from an object whose list has the hosts that there are: the list has those of the call
exactly if the call is no `hosts_size` with another number. -/
theorem allHosts_serve (h : dist.allHosts = List.range dist.hostsSize.toNat) (call : SizedCall) :
    ∃ m, (functions.serve strHash dist call).2.allHosts = List.range m ∧
      (m = call.count.toNat ↔ call.Repeats dist.hostsSize) := by
  cases call with
  | hostsSize size =>
    refine ⟨_, h, ?_⟩
    rw [SizedCall.Repeats, SizedCall.count, eq_comm, UInt32.toNat_inj]
  | locateData path chnkId size numCopy =>
    refine ⟨size.size.toNat, ?_, iff_of_true rfl trivial⟩
    show (dist.locateDataSized strHash path chnkId.toNat size.size _).2.allHosts = _
    rw [locateDataSized]
    dsimp only
    split
    · rfl
    · next hsame => rw [h, not_not.1 hsame]

/-- What a call leaves does not depend on the string hash. -/
theorem serve_snd (strHash' : List Char → Nat) (call : SizedCall) :
    (functions.serve strHash dist call).2 = (functions.serve strHash' dist call).2 := by
  cases call <;> rfl

/-- The calls of a run, from an object whose list has the hosts that there are. -/
theorem covers_final_iff (h : dist.allHosts = List.range dist.hostsSize.toNat)
    (calls : List SizedCall) :
    (∀ strHash done, done <+: calls →
        functions.Covers strHash (final (functions.serve strHash) dist done)) ↔
      RepeatsCounts dist.hostsSize calls := by
  induction calls generalizing dist with
  | nil =>
    refine iff_of_true (fun strHash done hdone => ?_) trivial
    rw [prefix_nil.1 hdone]
    exact (covers_iff h).2 rfl strHash
  | cons call calls ih =>
    obtain ⟨next, hnext⟩ : ∃ next, ∀ strHash, (functions.serve strHash dist call).2 = next :=
      ⟨(functions.serve (fun _ => 0) dist call).2, fun strHash => serve_snd _ call⟩
    obtain ⟨m, hm, hrepeats⟩ := @allHosts_serve dist (fun _ => 0) h call
    have hcount := @hostsSize_serve dist (fun _ => 0) call
    rw [hnext] at hm hcount
    rw [repeatsCounts_cons, ← hrepeats, ← hcount]
    have hcons : ∀ strHash done, final (functions.serve strHash) dist (call :: done) =
        final (functions.serve strHash) next done := fun strHash done => by
      rw [final, foldl_cons, hnext strHash, final]
    constructor
    · intro hcovers
      have hrest : ∀ strHash done, done <+: calls →
          functions.Covers strHash (final (functions.serve strHash) next done) := by
        intro strHash done hdone
        rw [← hcons]
        exact hcovers strHash (call :: done) (cons_prefix_cons.2 ⟨rfl, hdone⟩)
      have heq := (covers_iff hm).1 fun strHash => hrest strHash [] List.nil_prefix
      exact ⟨heq, (ih (heq ▸ hm)).1 hrest⟩
    · rintro ⟨heq, hrest⟩ strHash done hdone
      cases done with
      | nil => exact (covers_iff h).2 rfl strHash
      | cons call' done =>
        obtain ⟨rfl, htail⟩ := cons_prefix_cons.1 hdone
        rw [hcons]
        exact (ih (heq ▸ hm)).2 hrest strHash done htail

/-- After the constructor, the list has the hosts that there are. -/
theorem broadcastsCover_simple (constructor : Option HostCount) (calls : List SizedCall) :
    BroadcastsCover functions constructor calls ↔
      RepeatsCounts (constructorCount constructor) calls :=
  covers_final_iff rfl calls

end SimpleHashDistributor

/-! ## Without lines -/

/-- A guided distributor without lines, and a hash distributor with the same hosts. -/
structure GuidedObject.Unguided (g : GuidedObject) (dist : SimpleHashDistributor) : Prop where
  mapInterval : ∀ path, g.mapInterval path = none
  prefixList : g.prefixList = []
  hostsSize : g.hostsSize = dist.hostsSize
  allHosts : g.allHosts = dist.allHosts

namespace GuidedObject

variable {g : GuidedObject} {dist : SimpleHashDistributor} {strHash : List Char → Nat}

/-- The lookups of hash distributors with the same number of hosts are the same. -/
theorem Unguided.select_eq (h : g.Unguided dist) (hash numCopy : Nat) :
    g.select hash numCopy = dist.select hash numCopy := by
  rw [GuidedDistributor.select, SimpleHashDistributor.select, SimpleHashDistributor.select,
    SimpleHashDistributor.ofSize, h.hostsSize]

/-- Without lines, a chunk is where the hash distributor has it. -/
theorem Unguided.locateData_eq (h : g.Unguided dist) (path : List Char) (chnkId : UInt32)
    (numCopy : Nat) :
    g.locateData strHash path chnkId numCopy =
      dist.locateData strHash path chnkId.toNat numCopy := by
  have hchunk : u32 chnkId.toNat = chnkId.toNat := Nat.mod_eq_of_lt chnkId.toNat_lt
  rw [GuidedDistributor.locateData, h.mapInterval, GuidedDistributor.locateByHash, h.prefixList,
    SimpleHashDistributor.locateData, hchunk]
  exact h.select_eq _ _

/-- A lookup with a number of hosts keeps them alike. -/
theorem Unguided.locateDataSized (h : g.Unguided dist) (strHash : List Char → Nat)
    (path : List Char) (chnkId size : UInt32) (numCopy : Nat) :
    (g.locateDataSized strHash path chnkId size numCopy).2.Unguided
      (dist.locateDataSized strHash path chnkId.toNat size numCopy).2 := by
  rw [GuidedObject.locateDataSized, SimpleHashDistributor.locateDataSized, h.hostsSize]
  dsimp only
  split
  · exact ⟨h.mapInterval, h.prefixList, rfl, rfl⟩
  · exact h

/-- Both take each call in the same way. -/
theorem simulates_unguided (strHash : List Char → Nat) :
    Simulation.Simulates (functions.serve strHash)
      (SimpleHashDistributor.functions.serve strHash) (fun _ _ => True) Unguided where
  answer := by
    intro g dist call h _
    cases call with
    | hostsSize size => rfl
    | locateData path chnkId size numCopy =>
      exact (h.locateDataSized strHash path chnkId size.size (sizeOfInt numCopy)).locateData_eq ..
  next := by
    intro g dist call h _
    cases call with
    | hostsSize size => exact ⟨h.mapInterval, h.prefixList, rfl, h.allHosts⟩
    | locateData path chnkId size numCopy =>
      exact h.locateDataSized strHash path chnkId size.size (sizeOfInt numCopy)

/-- Requests to all hosts cover the placements of both or of neither. -/
theorem Unguided.covers_iff (h : g.Unguided dist) :
    functions.Covers strHash g ↔ SimpleHashDistributor.functions.Covers strHash dist := by
  have hdata : ∀ path chnkId numCopy, functions.locateData strHash g path chnkId numCopy =
      SimpleHashDistributor.functions.locateData strHash dist path chnkId numCopy :=
    h.locateData_eq
  have hmetadata : ∀ path numCopy, functions.locateFileMetadata strHash g path numCopy =
      SimpleHashDistributor.functions.locateFileMetadata strHash dist path numCopy :=
    fun path numCopy => h.select_eq (strHash path) numCopy
  have hlist : functions.locateDirectoryMetadata g =
      SimpleHashDistributor.functions.locateDirectoryMetadata dist := h.allHosts
  have hsize : functions.hostsSize g = SimpleHashDistributor.functions.hostsSize dist :=
    h.hostsSize
  constructor
  · rintro ⟨hcdata, hcmetadata, hcinside⟩
    simp only [hdata, hmetadata, hlist, hsize] at hcdata hcmetadata hcinside
    exact ⟨hcdata, hcmetadata, hcinside⟩
  · rintro ⟨hcdata, hcmetadata, hcinside⟩
    simp only [← hdata, ← hmetadata, ← hlist, ← hsize] at hcdata hcmetadata hcinside
    exact ⟨hcdata, hcmetadata, hcinside⟩

theorem broadcastsCover_unguided (constructor : Option HostCount) (calls : List SizedCall) :
    BroadcastsCover functions constructor calls ↔
      BroadcastsCover SimpleHashDistributor.functions constructor calls := by
  refine forall_congr' fun strHash => forall_congr' fun done => imp_congr_right fun _ => ?_
  exact Unguided.covers_iff (final_rel (simulates_unguided strHash)
    ⟨fun _ => rfl, rfl, rfl, rfl⟩ (Transition.allOk_of_forall fun _ _ _ => trivial))

end GuidedObject

/-! ## When requests to all hosts cover the placements -/

/-- For both distributors: after the constructor and each of the calls, requests to all hosts cover
the placements, exactly if each `hosts_size` repeats the number of hosts before it. -/
theorem broadcastsCover_iff (constructor : Option HostCount) (calls : List SizedCall) :
    (BroadcastsCover SimpleHashDistributor.functions constructor calls ↔
        RepeatsCounts (constructorCount constructor) calls) ∧
      (BroadcastsCover GuidedObject.functions constructor calls ↔
        RepeatsCounts (constructorCount constructor) calls) :=
  ⟨SimpleHashDistributor.broadcastsCover_simple constructor calls,
    (GuidedObject.broadcastsCover_unguided constructor calls).trans
      (SimpleHashDistributor.broadcastsCover_simple constructor calls)⟩

/-- One host, and then `hosts_size` with two: with a string hash that is zero, the second copy of
every file is on the second host, which is not in the list. -/
theorem broadcasts_after_growth :
    ¬ BroadcastsCover SimpleHashDistributor.functions (some ⟨1, Nat.one_pos⟩)
        [.hostsSize ⟨2, Nat.two_pos⟩] ∧
      ¬ BroadcastsCover GuidedObject.functions (some ⟨1, Nat.one_pos⟩)
        [.hostsSize ⟨2, Nat.two_pos⟩] := by
  constructor
  · intro h
    have hmem := (h (fun _ => 0) _ (prefix_refl _)).metadata [] 1 1 (by decide)
    exact absurd hmem (by decide)
  · intro h
    have hmem := (h (fun _ => 0) _ (prefix_refl _)).metadata [] 1 1 (by decide)
    exact absurd hmem (by decide)

end GekkoFS
