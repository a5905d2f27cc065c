import GekkoFS.Common.SimpleHashDistributor
import GekkoFS.Daemon.Redistribution

/-!
# The distributor of a daemon during a redistribution

A daemon has one distributor object. The migration thread asks it for the destinations of entries
and chunk files, and the handlers of proxy requests ask it for the chunks that are theirs, with the
number of hosts that the proxy sent. The second kind of lookup stores that number in the object, so
the lookups of the thread are made with the number of hosts of the last proxy request.

A run is a list of lookups of the thread and of the handlers in any order (`SharedState.step`).
`destinations_of_run` says that every destination is the one that the new number of hosts gives, if
all proxy requests carry that number.
-/

namespace GekkoFS

open List Transition

/-! ## The threads -/

/-- A destination that the migration asks for. -/
inductive MigrationLookup
  | metadata (key : List Char)
  | data (path : List Char) (chnkId : Nat)
  deriving DecidableEq

/-- The host that a distribution gives. -/
def MigrationLookup.destination {n : Nat} (d : Distributor n) : MigrationLookup → Fin n
  | .metadata key => d.locateFileMetadata key 0
  | .data path chnkId => d.locateData path chnkId 0

/-- What the migration thread has left to visit. -/
inductive MigrationPhase
  | metadata (keys : List (List Char))
  | data (files : List (List Char × Nat))
  deriving DecidableEq

/-- The input of a proxy request, as far as its lookups use it. Source:
`rpc_proxy_daemon_write_in_t` and `rpc_proxy_daemon_read_in_t` (`rpc_types.hpp:146`). -/
structure ProxyIn where
  path : List Char
  hostId : UInt64
  hostSize : UInt64
  chunkN : UInt64
  chunkStart : UInt64
  chunkEnd : UInt64
  deriving DecidableEq

/-- A handler in its loop over the chunks. -/
structure ProxyHandler where
  input : ProxyIn
  chnkIdFile : UInt64
  chnkIdCurr : UInt64
  deriving DecidableEq

/-- The distributor with the threads that use it, and the destinations that the migration has
computed. -/
structure SharedState where
  dist : SimpleHashDistributor
  phase : MigrationPhase
  handlers : List ProxyHandler
  destinations : List (MigrationLookup × Nat)
  deriving DecidableEq

/-- What happens next: the migration visits a key, goes on to the chunk files, or visits a chunk
file; a proxy request is being served, from its start or since before the expansion; or a handler
takes one turn of its loop. -/
inductive SharedEvent
  | migrateKey
  | startData (files : List (List Char × Nat))
  | migrateFile
  | proxyRequest (handler : ProxyHandler)
  | proxyLookup (i : Nat)
  deriving DecidableEq

namespace SharedState

variable (strHash : List Char → Nat) (s : SharedState)

/-- After `expand_start` has set the number of hosts. Source: `MalleableManager::expand_start`
(`malleable_manager.cpp:349`). -/
def expandStart (dist : SimpleHashDistributor) (n : UInt32) (keys : List (List Char)) :
    SharedState :=
  ⟨dist.setHostsSize n, .metadata keys, [], []⟩

/-- A turn of the loop over the chunks, if there is another one. Source: `rpc_srv_proxy_write`
(`srv_data.cpp:806`) and `rpc_srv_proxy_read` (`srv_data.cpp:1098`). -/
def proxyLookup (i : Nat) (h : ProxyHandler) : Option SharedState :=
  if h.chnkIdFile ≤ h.input.chunkEnd ∧ h.chnkIdCurr < h.input.chunkN then
    let r := s.dist.locateDataSized strHash h.input.path h.chnkIdFile.toNat
      h.input.hostSize.toUInt32 0
    r.1.map fun host =>
      let chnkIdCurr := if UInt64.ofNat host ≠ h.input.hostId then h.chnkIdCurr
        else h.chnkIdCurr + 1
      { s with
        dist := r.2
        handlers := s.handlers.set i { h with chnkIdFile := h.chnkIdFile + 1, chnkIdCurr } }
  else none

/-- One event, if it can happen. Source: `redistribute_metadata` and `redistribute_data`
(`malleable_manager.cpp:201`, `malleable_manager.cpp:247`) up to the destination. -/
def step : SharedEvent → Option SharedState
  | .migrateKey =>
    match s.phase with
    | .metadata (key :: keys) =>
      if key = rootKey then some { s with phase := .metadata keys }
      else
        (s.dist.locateFileMetadata strHash key 0).map fun destId =>
          { s with
            phase := .metadata keys
            destinations := s.destinations ++ [(.metadata key, destId)] }
    | _ => none
  | .startData files =>
    match s.phase with
    | .metadata [] => some { s with phase := .data files }
    | _ => none
  | .migrateFile =>
    match s.phase with
    | .data ((dir, chnkId) :: files) =>
      (s.dist.locateData strHash (gkfsPath dir) chnkId 0).map fun destId =>
        { s with
          phase := .data files
          destinations := s.destinations ++ [(.data (gkfsPath dir) chnkId, destId)] }
    | _ => none
  | .proxyRequest handler => some { s with handlers := s.handlers ++ [handler] }
  | .proxyLookup i =>
    match s.handlers[i]? with
    | some h => s.proxyLookup strHash i h
    | none => none

end SharedState

/-- A proxy request carries the given number of hosts, as the distributor reads it. -/
def SharedEvent.HostSizeIs (n : UInt32) : SharedEvent → Prop
  | .proxyRequest handler => handler.input.hostSize.toUInt32 = n
  | _ => True

instance (n : UInt32) (e : SharedEvent) : Decidable (e.HostSizeIs n) :=
  match e with
  | .proxyRequest _ => inferInstanceAs (Decidable (_ = _))
  | .migrateKey | .startData _ | .migrateFile | .proxyLookup _ => isTrue trivial

/-! ## Runs -/

section
variable {strHash : List Char → Nat} {n : UInt32}

namespace SharedState

/-- The object has the number of hosts of the expansion, every handler will store the same number,
and the destinations so far are right. -/
structure Inv (strHash : List Char → Nat) (n : UInt32) (hn : 0 < n.toNat) (s : SharedState) :
    Prop where
  hostsSize : s.dist.hostsSize = n
  handlers : ∀ h ∈ s.handlers, h.input.hostSize.toUInt32 = n
  destinations : ∀ p ∈ s.destinations,
    p.2 = (p.1.destination (simpleHashDistributor strHash n.toNat hn)).val

variable {s s' : SharedState} {hn : 0 < n.toNat}

/-- The migration computes another destination. -/
theorem Inv.append (h : Inv strHash n hn s) (phase : MigrationPhase) (lookup : MigrationLookup) :
    Inv strHash n hn { s with
      phase
      destinations := s.destinations ++
        [(lookup, (lookup.destination (simpleHashDistributor strHash n.toNat hn)).val)] } := by
  refine ⟨h.hostsSize, h.handlers, fun p hp => ?_⟩
  rcases mem_append.1 hp with hp | hp
  · exact h.destinations p hp
  · rw [mem_singleton.1 hp]

/-- A lookup for a proxy keeps the invariant. -/
theorem Inv.proxyLookup (h : Inv strHash n hn s) {i : Nat} {handler : ProxyHandler}
    (hi : s.handlers[i]? = some handler) (hs : s.proxyLookup strHash i handler = some s') :
    Inv strHash n hn s' := by
  have hsize : handler.input.hostSize.toUInt32 = n := h.handlers _ (mem_of_getElem? hi)
  rw [SharedState.proxyLookup] at hs
  split at hs
  · obtain ⟨host, -, rfl⟩ := Option.map_eq_some_iff.1 hs
    refine ⟨?_, fun h' hmem => ?_, h.destinations⟩
    · have hdist := @SimpleHashDistributor.hostsSize_locateDataSized strHash n s.dist
        handler.input.path handler.chnkIdFile.toNat 0
      rw [← hsize] at hdist ⊢
      exact hdist
    · rcases mem_or_eq_of_mem_set hmem with hmem | rfl
      · exact h.handlers h' hmem
      · exact hsize
  · cases hs

/-- Every event keeps the invariant, if a request carries the number of hosts. -/
theorem Inv.step {e : SharedEvent} (h : Inv strHash n hn s) (hok : e.HostSizeIs n)
    (hs : s.step strHash e = some s') : Inv strHash n hn s' := by
  cases e with
  | migrateKey =>
    rw [SharedState.step] at hs
    split at hs
    · next key keys _ =>
      split at hs
      · cases hs
        exact ⟨h.hostsSize, h.handlers, h.destinations⟩
      · rw [SimpleHashDistributor.locateFileMetadata_eq hn h.hostsSize] at hs
        cases hs
        exact h.append _ (.metadata key)
    · cases hs
  | startData files =>
    rw [SharedState.step] at hs
    split at hs
    · cases hs
      exact ⟨h.hostsSize, h.handlers, h.destinations⟩
    · cases hs
  | migrateFile =>
    rw [SharedState.step] at hs
    split at hs
    · next dir chnkId files _ =>
      rw [SimpleHashDistributor.locateData_eq hn h.hostsSize] at hs
      cases hs
      exact h.append _ (.data (gkfsPath dir) chnkId)
    · cases hs
  | proxyRequest handler =>
    cases hs
    refine ⟨h.hostsSize, fun h' hmem => ?_, h.destinations⟩
    rcases mem_append.1 hmem with hmem | hmem
    · exact h.handlers h' hmem
    · rw [mem_singleton.1 hmem]
      exact hok
  | proxyLookup i =>
    rw [SharedState.step] at hs
    split at hs
    · next hi => exact h.proxyLookup hi hs
    · cases hs

/-- After `expand_start` has set the number of hosts to `n`, in every run in which all proxy
requests carry `n`, every destination of the redistribution is the one that `n` hosts give. -/
theorem destinations_of_run {dist : SimpleHashDistributor} {keys : List (List Char)}
    {es : List SharedEvent} {s : SharedState}
    (hok : Transition.AllOk (step strHash) (fun _ e => e.HostSizeIs n) (expandStart dist n keys) es)
    (hrun : run (step strHash) (expandStart dist n keys) es = some s) :
    ∀ p ∈ s.destinations,
      p.2 = (p.1.destination (simpleHashDistributor strHash n.toNat hn)).val := by
  have hinit : Inv strHash n hn (expandStart dist n keys) :=
    ⟨rfl, fun _ h => absurd h not_mem_nil, fun _ h => absurd h not_mem_nil⟩
  exact (run_invariant (fun _ _ _ h hok hs => h.step hok hs) hinit hok hrun).destinations

/-- An expansion to three hosts, during which a proxy that knows them writes a chunk. -/
def expandToThree : List SharedEvent :=
  [.proxyRequest ⟨⟨"/g".toList, 0, 3, 1, 0, 0⟩, 0, 0⟩, .proxyLookup 0, .migrateKey, .migrateKey,
    .startData [("f".toList, 0)], .migrateFile]

/-- The keys of a daemon with one file. -/
def oneKey : List (List Char) := [rootKey, "/f".toList]

theorem destinations_of_run_three :
    Transition.AllOk (step List.length) (fun _ e => e.HostSizeIs 3)
        (expandStart ⟨2, [0, 1]⟩ 3 oneKey) expandToThree ∧
      ∃ s, run (step List.length) (expandStart ⟨2, [0, 1]⟩ 3 oneKey) expandToThree =
          some s ∧
        s.destinations = [(.metadata "/f".toList, 2), (.data "/f".toList 0, 0)] ∧
        ∀ p ∈ s.destinations,
          p.2 = (p.1.destination (simpleHashDistributor List.length 3 (by decide))).val := by
  have hok : Transition.AllOk (step List.length) (fun _ e => e.HostSizeIs 3)
      (expandStart ⟨2, [0, 1]⟩ 3 oneKey) expandToThree := by decide
  refine ⟨hok, (run (step List.length) (expandStart ⟨2, [0, 1]⟩ 3 oneKey)
    expandToThree).get (by decide), (Option.some_get _).symm, by decide, ?_⟩
  exact destinations_of_run hok (Option.some_get _).symm

/-- A proxy that knows two hosts writes a chunk before the migration comes to a key. -/
def expandWithOldProxy : List SharedEvent :=
  [.proxyRequest ⟨⟨"/g".toList, 0, 2, 1, 0, 0⟩, 0, 0⟩, .proxyLookup 0, .migrateKey, .migrateKey]

/-- The key is sent where two hosts place it. -/
theorem destination_of_old_proxy : ∃ s,
    run (step List.length) (expandStart ⟨2, [0, 1]⟩ 3 oneKey) expandWithOldProxy =
        some s ∧
      s.destinations = [(.metadata "/f".toList, 0)] ∧
      ¬ ∀ p ∈ s.destinations,
        p.2 = (p.1.destination (simpleHashDistributor List.length 3 (by decide))).val := by
  refine ⟨(run (step List.length) (expandStart ⟨2, [0, 1]⟩ 3 oneKey)
    expandWithOldProxy).get (by decide), (Option.some_get _).symm, by decide, by decide⟩

end SharedState

end

end GekkoFS
