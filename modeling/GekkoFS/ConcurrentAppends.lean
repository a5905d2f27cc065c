import GekkoFS.ConcurrentWrites
import GekkoFS.Daemon.AppendReservation

/-!
# Concurrent appends

An append first has the metadata daemon of its file reserve a range and then writes its bytes there.
The two machines of these steps are run side by side: the metadata stores, one a daemon, in which
the reservations of several processes are under way at once (`StoreState.step`), and the chunk
storages with the requests and tasklets of the writes (`WritesState.step`). A process posts its
write when it has been given an offset, and at that offset.

The ranges that have been returned for one file do not meet while the merge ids are fresh, so the
writes that follow are such as `WritesInv` asks for. In every reachable state the bytes of each
append that has returned without an error stand together at what was the end of the file before it,
whatever the other appends are doing (`appendsOk_of_run`).
-/

namespace GekkoFS

open Function List Transition

open ChunkStorage (getChunksDir)

/-! ## The machine -/

/-- The metadata stores of the daemons, the writes that were posted, and for each of them the daemon
and the number of the reservation it belongs to. -/
structure AppendsState (n : Nat) where
  stores : Fin n → StoreState
  files : WritesState n
  posted : List (Fin n × Nat)

/-- A step of a metadata store, a write of an append that has its offset, or a step of the requests
and tasklets. -/
inductive AppendEvent (n : Nat)
  | store (host : Fin n) (event : StoreEvent)
  | post (host : Fin n) (request : Nat) (buf : List UInt8)
  | arrive (write request : Nat)
  | tasklet (write request tasklet : Nat) (event : TaskletEvent)

section
variable {n : Nat}

/-- Size updates of a path go to the daemon of its entry. Source: `forward_update_metadentry_size`
(`client/rpc/forward_metadata.cpp:529`). -/
def StoreEvent.Routed (d : Distributor n) (host : Fin n) : StoreEvent → Prop
  | append key _ _ => d.locateFileMetadata key 0 = host
  | increase key _ _ => d.locateFileMetadata key 0 = host
  | _ => True

instance (d : Distributor n) (host : Fin n) : ∀ e : StoreEvent, Decidable (e.Routed d host)
  | .append .. | .increase .. => inferInstanceAs (Decidable (_ = _))
  | .updateTime .. | .beginGet _ | .beginRead .. | .beginCompact .. | .apply _ | .finish _
  | .take _ => isTrue trivial

/-- The write of an append: its bytes, as many as it has reserved, at the offset that it was given.
Source: `gkfs_do_write` (`gkfs_functions.cpp:957`). -/
def AppendRequest.call? (q : AppendRequest) (buf : List UInt8) : Option WriteCall :=
  if buf.length = q.ioSize then q.offset?.map fun offset => ⟨q.key, buf, offset⟩ else none

namespace AppendsState

/-- Stores and storages with nothing under way. -/
def start (dbs : Fin n → DB) (cl : Cluster n) : AppendsState n :=
  ⟨fun host => StoreState.initial (dbs host), .start cl, []⟩

/-- An event, if it can happen. An append is posted once. -/
def step (cfg : MetadataConfig) (d : Distributor n) (s : AppendsState n) :
    AppendEvent n → Option (AppendsState n)
  | .store host event =>
    if event.Routed d host then
      ((s.stores host).step cfg event).map fun st =>
        { s with stores := update s.stores host st }
    else none
  | .post host request buf =>
    if (host, request) ∈ s.posted then none
    else
      (s.stores host).requests[request]?.bind fun q => (q.call? buf).bind fun call =>
        (s.files.step d (.post call)).map fun files =>
          { s with files := files, posted := s.posted ++ [(host, request)] }
  | .arrive i j => (s.files.step d (.arrive i j)).map fun files => { s with files := files }
  | .tasklet i j k event =>
    (s.files.step d (.tasklet i j k event)).map fun files => { s with files := files }

end AppendsState

/-! ## What appends should do -/

/-- The appends to a file, where `cl` are the storages before. -/
structure AppendsOk (cfg : MetadataConfig) (d : Distributor n) (cl : Cluster n)
    (s : AppendsState n) (path : List Char) : Prop where
  /-- Each of them writes where the file ended just before it. -/
  placed : ∀ w ∈ s.files.writes, w.call.path = path →
    ∃ q ∈ (s.stores (d.locateFileMetadata path 0)).requests, q.key = path ∧
      q.ioSize = w.call.buf.length ∧
      sizeBefore cfg (s.stores (d.locateFileMetadata path 0)) q = some w.call.offset
  /-- No two of them write to a common part. -/
  apart : s.files.writes.Pairwise fun w w' => w.call.path = path → w'.call.path = path →
    w.call.offset + w.call.buf.length ≤ w'.call.offset ∨
      w'.call.offset + w'.call.buf.length ≤ w.call.offset
  /-- Those that have returned without an error have their bytes in the file, and no other byte
  changes. -/
  bytes : WritesOk d cl s.files path

/-- The condition on an event: merge ids are fresh, the data has at least one and less than `2 ^ 34`
bytes, no two files share a chunk directory, and no failed system call has the code 0. -/
def AppendEvent.Ok (cfg : MetadataConfig) (s : AppendsState n) : AppendEvent n → Prop
  | store host event => AppendFresh cfg (s.stores host) event
  | post host request buf => 0 < buf.length ∧ buf.length < 2 ^ 34 ∧
    ∀ q ∈ (s.stores host).requests[request]?, ∀ w ∈ s.files.writes,
      getChunksDir w.call.path = getChunksDir q.key → w.call.path = q.key
  | arrive _ _ => True
  | tasklet _ _ _ event => event.Possible

instance (cfg : MetadataConfig) (s : AppendsState n) : ∀ e : AppendEvent n, Decidable (e.Ok cfg s)
  | .store _ _ => inferInstanceAs (Decidable (AppendFresh cfg _ _))
  | .post _ _ _ => inferInstanceAs (Decidable (_ ∧ _ ∧ ∀ q ∈ _, ∀ w ∈ _, _))
  | .arrive _ _ => isTrue trivial
  | .tasklet _ _ _ event => inferInstanceAs (Decidable event.Possible)

/-! ## What a step of a store does to its reservations -/

variable {cfg : MetadataConfig} {s s' : StoreState} {e : StoreEvent} {q : AppendRequest} {r : Nat}

/-- An append that has steps to take has not returned an offset. -/
theorem AppendRequest.offset?_of_active (h : q.phase.active = true) :
    q.offset? = none := by
  rw [AppendRequest.offset?]
  cases hphase : q.phase with
  | returned offset => rw [hphase] at h; cases h
  | merged | reading | evaluated | failed => rfl

/-- A reservation that has steps to take is in its next phase. -/
def PhaseTaken (s s' : StoreState) : Prop :=
  ∃ r q phase, s.requests[r]? = some q ∧ q.phase.active = true ∧
    (∀ offset, phase = .returned offset → offset < 2 ^ 63) ∧
    s'.requests = s.requests.set r { q with phase := phase }

theorem PhaseTaken.of_modify {phase : AppendPhase}
    (hq : s.requests[r]? = some q) (hact : q.phase.active = true)
    (hphase : ∀ offset, phase = .returned offset → offset < 2 ^ 63)
    (h : s'.requests = s.requests.modify r fun q => { q with phase := phase }) :
    PhaseTaken s s' := by
  refine ⟨r, q, phase, hq, hact, hphase, ?_⟩
  rw [h, modify_eq_set_getElem?, hq]
  rfl

/-- A step queues an append, or leaves the reservations as they are, or moves one on. -/
theorem StoreInv.step_requests (hi : StoreInv cfg s) (hstep : s.step cfg e = some s') :
    (∃ key ioSize mergeId index, e = .append key ioSize mergeId ∧
      s'.requests = s.requests ++ [⟨key, ioSize.toNat, mergeId.toNat, index, .merged⟩]) ∨
    s'.requests = s.requests ∨ PhaseTaken s s' := by
  obtain ⟨folded, pos, hi⟩ := hi
  cases e with
  | append key ioSize mergeId =>
    cases hstep
    exact .inl ⟨key, ioSize, mergeId, _, rfl, rfl⟩
  | increase key ioSize offset =>
    cases hstep
    exact .inr (.inl rfl)
  | updateTime key now =>
    rw [StoreState.step] at hstep
    split at hstep
    · cases hstep
      exact .inr (.inl rfl)
    · cases hstep
  | beginGet r =>
    rw [StoreState.step] at hstep
    split at hstep
    · next q hq =>
      split at hstep
      · next hphase =>
        cases hstep
        refine .inr (.inr ?_)
        have hact : q.phase.active = true := by rw [hphase]; rfl
        rw [StoreState.beginGet]
        split <;> exact .of_modify hq hact (fun _ h => by cases h) rfl
      · cases hstep
    · cases hstep
  | beginRead reader key =>
    rw [StoreState.step] at hstep
    split at hstep
    · cases hstep
    · cases hstep
      refine .inr (.inl ?_)
      rw [StoreState.beginRead]
      split <;> rfl
  | beginCompact key count =>
    rw [StoreState.step] at hstep
    split at hstep
    · cases hstep
    · cases hstep
      refine .inr (.inl ?_)
      rw [StoreState.beginCompact]
      split <;> rfl
  | apply who =>
    rw [StoreState.step] at hstep
    split at hstep
    · next ev hev =>
      split at hstep
      · next op rest hrest =>
        cases hstep
        rw [StoreState.applyNext]
        split
        · cases who with
          | get r =>
            obtain ⟨q, hq, hphase, -⟩ := hi.get r ev hev
            exact .inr (.inr (.of_modify hq (by rw [hphase]; rfl) (fun _ h => by cases h) rfl))
          | read | compact => exact .inr (.inl rfl)
        · exact .inr (.inl rfl)
      · cases hstep
    · cases hstep
  | finish who =>
    rw [StoreState.step] at hstep
    split at hstep
    · next ev hev =>
      split at hstep
      · cases hstep
        cases who with
        | get r =>
          obtain ⟨q, hq, hphase, -⟩ := hi.get r ev hev
          exact .inr (.inr (.of_modify hq (by rw [hphase]; rfl) (fun _ h => by cases h) rfl))
        | read | compact => exact .inr (.inl rfl)
      · cases hstep
    · cases hstep
  | take r =>
    rw [StoreState.step] at hstep
    split at hstep
    · next q hq =>
      split at hstep
      · next hphase =>
        cases hstep
        refine .inr (.inr ?_)
        have hact : q.phase.active = true := by rw [hphase]; rfl
        obtain ⟨size, hsize, htable⟩ := hi.requests.evaluated r q hq hphase
        have hlt := mergedSize_lt hsize
        rw [StoreState.takeOffset, AppendOffsetReserve.getAndErase, htable]
        refine .of_modify hq hact (fun offset h => ?_) rfl
        cases h
        rw [toOff]
        split
        · omega
        · omega
      · cases hstep
    · cases hstep

/-- A reservation that has returned an offset stays as it is. -/
theorem StoreInv.step_returned (hi : StoreInv cfg s) (hstep : s.step cfg e = some s')
    (hq : s.requests[r]? = some q) (hoff : q.offset? ≠ none) :
    s'.requests[r]? = some q := by
  rcases hi.step_requests hstep with ⟨key, ioSize, mergeId, index, -, heq⟩ | heq |
    ⟨r', q', phase, hq', hact, -, heq⟩
  · rw [heq, getElem?_append_left (List.getElem?_eq_some_iff.1 hq).1]
    exact hq
  · rw [heq]
    exact hq
  · have hne : r' ≠ r := fun h => by
      rw [h, hq] at hq'
      cases hq'
      exact hoff (AppendRequest.offset?_of_active hact)
    rw [heq, getElem?_set_ne hne]
    exact hq

/-- What holds of every reservation, of one that is queued, and of one after its phase. -/
theorem StoreInv.step_forall (hi : StoreInv cfg s) (hstep : s.step cfg e = some s')
    {P : AppendRequest → Prop} (h : ∀ q ∈ s.requests, P q)
    (hnew : ∀ key ioSize mergeId index, e = .append key ioSize mergeId →
      P ⟨key, ioSize.toNat, mergeId.toNat, index, .merged⟩)
    (hphase : ∀ q phase, (∀ offset, phase = .returned offset → offset < 2 ^ 63) → P q →
      P { q with phase := phase }) : ∀ q ∈ s'.requests, P q := by
  rcases hi.step_requests hstep with ⟨key, ioSize, mergeId, index, he, heq⟩ | heq |
    ⟨r, q, phase, hq, -, hlt, heq⟩
  · rw [heq, forall_mem_append]
    exact ⟨h, forall_mem_singleton.2 (hnew key ioSize mergeId index he)⟩
  · rwa [heq]
  · rw [heq]
    exact (Replaced.set hq _).forall_mem h (hphase q phase hlt (h q (mem_of_getElem? hq)))
      fun _ _ hx => hx

/-- An offset that fits an `off_t` is returned as it is. -/
theorem AppendRequest.offset?_lt (h : ∀ offset, q.phase = .returned offset →
    offset < 2 ^ 63) : ∀ off ∈ q.offset?, off < 2 ^ 63 := by
  intro off hoff
  rw [AppendRequest.offset?] at hoff
  split at hoff
  · next offset hret =>
    split at hoff
    · cases hoff
      have := h offset hret
      omega
    · cases hoff
  · cases hoff

end

/-! ## The invariant -/

section
variable {n : Nat} {cfg : MetadataConfig} {d : Distributor n} {cl : Cluster n}
  {s s' : AppendsState n} {host : Fin n} {st : StoreState} {q : AppendRequest} {e : StoreEvent}
  {buf : List UInt8} {call : WriteCall} {r : Nat} {files : WritesState n}

/-- What holds of the store of a daemon. -/
structure ReservationsOk (cfg : MetadataConfig) (d : Distributor n) (host : Fin n)
    (st : StoreState) : Prop where
  inv : StoreInv cfg st
  routed : ∀ q ∈ st.requests, d.locateFileMetadata q.key 0 = host
  offset_lt : ∀ q ∈ st.requests, ∀ off ∈ q.offset?, off < 2 ^ 63

/-- A step of a store keeps its reservations right. -/
theorem ReservationsOk.step {st' : StoreState}
    (h : ReservationsOk cfg d host st) (hrouted : e.Routed d host) (hok : AppendFresh cfg st e)
    (hstep : st.step cfg e = some st') : ReservationsOk cfg d host st' where
  inv := h.inv.step hok hstep
  routed := by
    refine h.inv.step_forall hstep h.routed (fun key ioSize mergeId index he => ?_)
      fun q phase _ hq => hq
    subst he
    exact hrouted
  offset_lt := h.inv.step_forall hstep h.offset_lt
    (fun key ioSize mergeId index _ off hoff => by cases hoff)
    fun q phase hlt _ => AppendRequest.offset?_lt hlt

/-- What holds in every reachable state. -/
structure AppendsInv (cfg : MetadataConfig) (d : Distributor n) (cl : Cluster n)
    (s : AppendsState n) : Prop where
  stores : ∀ host, ReservationsOk cfg d host (s.stores host)
  files : WritesInv d cl s.files
  linked : ∀ w ∈ s.files.writes, ∃ p ∈ s.posted, ∃ q, (s.stores p.1).requests[p.2]? = some q ∧
    q.call? w.call.buf = some w.call

theorem AppendRequest.call?_eq_some
    (h : q.call? buf = some call) : call.path = q.key ∧ call.buf = buf ∧
      buf.length = q.ioSize ∧ q.offset? = some call.offset := by
  rw [AppendRequest.call?] at h
  split at h
  · next hlen =>
    obtain ⟨offset, hoff, rfl⟩ := Option.map_eq_some_iff.1 h
    exact ⟨rfl, rfl, hlen, hoff⟩
  · cases h

/-- Two reservations of one file that have both returned. -/
theorem OffsetsOk.apart (h : OffsetsOk cfg st) {r' : Nat}
    {q' : AppendRequest} (hq : st.requests[r]? = some q) (hq' : st.requests[r']? = some q')
    (hne : r ≠ r') (hkey : q.key = q'.key) {off off' : Nat} (hoff : q.offset? = some off)
    (hoff' : q'.offset? = some off') : off + q.ioSize ≤ off' ∨ off' + q'.ioSize ≤ off := by
  obtain ⟨hr, rfl⟩ := List.getElem?_eq_some_iff.1 hq
  obtain ⟨hr', rfl⟩ := List.getElem?_eq_some_iff.1 hq'
  rcases Nat.lt_or_gt_of_ne hne with hlt | hlt
  · exact pairwise_iff_getElem.1 h.2 r r' hr hr' hlt hkey off hoff off' hoff'
  · exact (pairwise_iff_getElem.1 h.2 r' r hr' hr hlt hkey.symm off' hoff' off hoff).symm

/-- A write that is posted is apart from those posted before. -/
theorem AppendsInv.apart_post (h : AppendsInv cfg d cl s)
    (hok : (AppendEvent.post host r buf).Ok cfg s)
    (hnew : (host, r) ∉ s.posted)
    (hq : (s.stores host).requests[r]? = some q)
    (hcall : q.call? buf = some call) : ∀ w ∈ s.files.writes, w.call.Apart call := by
  intro w hw hdir
  obtain ⟨hpath, rfl, hlen, hoff⟩ := AppendRequest.call?_eq_some hcall
  obtain ⟨⟨host', r'⟩, hp, q', hq', hcall'⟩ := h.linked w hw
  obtain ⟨hpath', -, hlen', hoff'⟩ := AppendRequest.call?_eq_some hcall'
  rw [hpath] at hdir ⊢
  have hname := hok.2.2 q hq w hw hdir
  refine ⟨hname, ?_⟩
  -- both were reserved by the daemon of the file
  have hkey : q'.key = q.key := hpath'.symm.trans hname
  have hhost : host' = host := by
    rw [← (h.stores host').routed q' (mem_of_getElem? hq'),
      ← (h.stores host).routed q (mem_of_getElem? hq), hkey]
  subst hhost
  obtain ⟨folded, pos, hi⟩ := (h.stores host').inv
  have hapart := hi.offsetsOk.apart hq' hq (fun heq => hnew (heq ▸ hp)) hkey hoff' hoff
  rwa [← hlen, ← hlen'] at hapart

/-- A step of a store keeps the invariant. -/
theorem AppendsInv.store (h : AppendsInv cfg d cl s) (hrouted : e.Routed d host)
    (hok : AppendFresh cfg (s.stores host) e)
    (hstep : (s.stores host).step cfg e = some st) :
    AppendsInv cfg d cl { s with stores := update s.stores host st } := by
  refine ⟨?_, h.files, fun w hw => ?_⟩
  · exact (forall_update_iff s.stores (ReservationsOk cfg d)).2
      ⟨(h.stores host).step hrouted hok hstep, fun host' _ => h.stores host'⟩
  · obtain ⟨p, hp, q, hq, hcall⟩ := h.linked w hw
    refine ⟨p, hp, q, ?_, hcall⟩
    dsimp only
    by_cases hh : p.1 = host
    · rw [hh] at hq
      rw [hh, update_self]
      refine (h.stores host).inv.step_returned hstep hq ?_
      rw [(AppendRequest.call?_eq_some hcall).2.2.2]
      exact fun hnone => by cases hnone
    · rw [update_of_ne hh]
      exact hq

/-- Only posting changes the calls. -/
theorem WritesState.exists_call_of_step {files' : WritesState n} {e : WriteEvent}
    (h : files.step d e = some files') (he : ∀ call, e ≠ .post call) :
    ∀ w' ∈ files'.writes, ∃ w ∈ files.writes, w.call = w'.call := by
  intro w' hw'
  have hmap : files'.writes.map PostedWrite.call = files.writes.map PostedWrite.call := by
    rcases WritesState.step_cases h with ⟨call, rfl, -, -⟩ | ⟨w, w', -, -, -, hcall, hw, -⟩ |
      ⟨w, w', -, -, -, -, -, -, -, hcall, hw, -⟩
    · exact absurd rfl (he call)
    · exact hw.map_eq hcall
    · exact hw.map_eq hcall
  exact mem_map.1 (hmap ▸ mem_map_of_mem hw')

/-- A step of the requests and tasklets keeps the invariant. -/
theorem AppendsInv.files_step (h : AppendsInv cfg d cl s) {e : WriteEvent}
    (he : ∀ call, e ≠ .post call) (hok : e.Ok s.files) (hstep : s.files.step d e = some files) :
    AppendsInv cfg d cl { s with files := files } := by
  refine ⟨h.stores, h.files.step hok hstep, fun w' hw' => ?_⟩
  obtain ⟨w, hw, hcall⟩ := WritesState.exists_call_of_step hstep he w' hw'
  rw [← hcall]
  exact h.linked w hw

/-- A step keeps the invariant. -/
theorem AppendsInv.step {e : AppendEvent n} (h : AppendsInv cfg d cl s) (hok : e.Ok cfg s)
    (hstep : s.step cfg d e = some s') : AppendsInv cfg d cl s' := by
  cases e with
  | store host event =>
    rw [AppendsState.step] at hstep
    split at hstep
    · next hrouted =>
      obtain ⟨st, hst, rfl⟩ := Option.map_eq_some_iff.1 hstep
      exact h.store hrouted hok hst
    · cases hstep
  | post host r buf =>
    rw [AppendsState.step] at hstep
    split at hstep
    · cases hstep
    · next hnew =>
      obtain ⟨q, hq, hstep⟩ := Option.bind_eq_some_iff.1 hstep
      obtain ⟨call, hcall, hstep⟩ := Option.bind_eq_some_iff.1 hstep
      obtain ⟨files, hfiles, rfl⟩ := Option.map_eq_some_iff.1 hstep
      obtain ⟨-, rfl, -, hoff⟩ := AppendRequest.call?_eq_some hcall
      have hlt := (h.stores host).offset_lt q (mem_of_getElem? hq) call.offset hoff
      have hpost : (WriteEvent.post call).Ok s.files :=
        ⟨⟨hlt, hok.1, hok.2.1⟩, h.apart_post hok hnew hq hcall⟩
      refine ⟨h.stores, h.files.step hpost hfiles, ?_⟩
      cases hfiles
      refine forall_mem_append.2 ⟨fun w hw => ?_, fun w hw => ?_⟩
      · obtain ⟨p, hp, hlink⟩ := h.linked w hw
        exact ⟨p, mem_append_left _ hp, hlink⟩
      · rw [mem_singleton] at hw
        rw [hw]
        exact ⟨(host, r), mem_append_right _ mem_cons_self, q, hq, hcall⟩
  | arrive i j =>
    obtain ⟨files, hfiles, rfl⟩ := Option.map_eq_some_iff.1 hstep
    exact h.files_step (e := .arrive i j) (fun _ he => by cases he) trivial hfiles
  | tasklet i j k event =>
    obtain ⟨files, hfiles, rfl⟩ := Option.map_eq_some_iff.1 hstep
    exact h.files_step (e := .tasklet i j k event) (fun _ he => by cases he) hok hfiles

/-- The invariant holds at the start. -/
theorem AppendsInv.start (cfg : MetadataConfig) (d : Distributor n) (dbs : Fin n → DB)
    (cl : Cluster n) : AppendsInv cfg d cl (.start dbs cl) where
  stores host := ⟨.initial cfg (dbs host), fun q hq => (by cases hq), fun q hq => (by cases hq)⟩
  files := .start d cl
  linked w hw := by cases hw

/-- The appends to a file in a reachable state. -/
theorem AppendsInv.appendsOk (h : AppendsInv cfg d cl s) {path : List Char}
    (hname : ∀ w ∈ s.files.writes, getChunksDir w.call.path = getChunksDir path →
      w.call.path = path) : AppendsOk cfg d cl s path where
  placed w hw hpath := by
    obtain ⟨p, -, q, hq, hcall⟩ := h.linked w hw
    obtain ⟨hkey, -, hlen, hoff⟩ := AppendRequest.call?_eq_some hcall
    have hmem := mem_of_getElem? hq
    have hhost := (h.stores p.1).routed q hmem
    rw [← hkey, hpath] at hhost
    rw [hhost]
    obtain ⟨folded, pos, hi⟩ := (h.stores p.1).inv
    exact ⟨q, hmem, hkey.symm.trans hpath, hlen.symm, hi.offsetsOk.1 q hmem _ hoff⟩
  apart := h.files.apart.imp fun hapart hpath hpath' => (hapart (by rw [hpath, hpath'])).2
  bytes := h.files.writesOk hname

/-- In every state that concurrent appends reach by events that meet the condition, each append to a
file writes where the file ended before it, no two write to a common part, and the bytes of each one
that has returned without an error are in the file. -/
theorem appendsOk_of_run (cfg : MetadataConfig) (d : Distributor n) (dbs : Fin n → DB)
    (cl : Cluster n) (events : List (AppendEvent n))
    (hok : Transition.AllOk (AppendsState.step cfg d) (AppendEvent.Ok cfg) (.start dbs cl) events)
    (hrun : run (AppendsState.step cfg d) (.start dbs cl) events = some s)
    (path : List Char)
    (hname : ∀ w ∈ s.files.writes, getChunksDir w.call.path = getChunksDir path →
      w.call.path = path) : AppendsOk cfg d cl s path :=
  (run_invariant (I := AppendsInv cfg d cl) (fun _ _ _ h hok hstep => h.step hok hstep)
    (.start cfg d dbs cl) hok hrun).appendsOk hname

end

/-- The steps of two appends of two bytes on the store of a daemon, whose operands are both queued
before either append reads the key. -/
def reserveTwo : List (AppendEvent 2) :=
  [.append "/f".toList 2 7, .append "/f".toList 2 8, .beginGet 0, .beginGet 1, .apply (.get 0),
    .apply (.get 1), .apply (.get 1), .finish (.get 1), .take 1, .apply (.get 0), .finish (.get 0),
    .take 0].map (.store firstHost)

/-- The second append writes its bytes before the first. -/
def appendTwo : List (AppendEvent 2) :=
  reserveTwo ++ [.post firstHost 1 [3, 4], .arrive 0 0, .tasklet 0 0 0 (.mkdir none),
    .tasklet 0 0 0 (.openFile none), .post firstHost 0 [1, 2], .arrive 1 0,
    .tasklet 0 0 0 (.pwrite (.bytes 2 Nat.two_pos)), .tasklet 1 0 0 (.mkdir none),
    .tasklet 1 0 0 (.openFile none), .tasklet 1 0 0 (.pwrite (.bytes 1 Nat.one_pos)),
    .tasklet 1 0 0 (.pwrite (.bytes 1 Nat.one_pos))]

/-- Two appends, of which the second one writes first. -/
theorem appendsOk_of_run_appendTwo :
    ∃ s, run (AppendsState.step .default byLastDigit)
        (.start (fun _ => oneFile) fun _ => ∅) appendTwo = some s ∧
      (s.files.writes.map fun w => (w.call.offset, w.result)) =
        [(2, some (0, 2)), (0, some (0, 2))] ∧
      AppendsOk .default byLastDigit (fun _ => ∅) s "/f".toList := by
  have hrun : (run (AppendsState.step .default byLastDigit)
      (.start (fun _ => oneFile) fun _ => ∅) appendTwo).map (fun s =>
        (s.files.writes.map fun w => (w.call.offset, w.result),
          s.files.writes.map fun w => w.call.path)) =
      some ([(2, some (0, 2)), (0, some (0, 2))], ["/f".toList, "/f".toList]) := by
    decide +kernel
  obtain ⟨s, hs, heq⟩ := Option.map_eq_some_iff.1 hrun
  obtain ⟨hres, hpaths⟩ := Prod.mk.inj heq
  refine ⟨s, hs, hres, appendsOk_of_run .default byLastDigit _ _ appendTwo (by decide +kernel) hs _
    fun w hw _ => ?_⟩
  have hmem : w.call.path ∈ ["/f".toList, "/f".toList] := hpaths ▸ mem_map_of_mem hw
  simpa using hmem

end GekkoFS
