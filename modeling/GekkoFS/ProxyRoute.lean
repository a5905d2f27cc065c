import GekkoFS.Lib.Traverse
import GekkoFS.Proxy.ForwardData

/-!
# The proxy route and the direct route

A client sends its data requests to the daemons itself, or to a proxy that sends them on. Both cut
the range into chunks and both kinds of daemon handlers walk over the range again, one with a bitmap
and one with the distributor. Here the accesses to chunk files that the two routes make are
compared: `chunkFileWrites` and `chunkFileReads` list those of the direct route, and
`forwardWrite_chunkFileWrites` and `forwardRead_chunkFileReads` say that the list is what a call
does.

The tables of the proxy are those of the client (`Proxy.Plan.Matches`), so each daemon gets the same
request up to the bitmap (`Proxy.Plan.Matches.request_eq`), and the bitmap has the chunks that the
daemon's distributor would find (`DataPlan.RecordsOwner.matchesHash`). So both routes make the same
accesses and report the same (`routesAgree`).
-/

namespace GekkoFS

open Bytes Function
open List hiding count

open Blocks (count)

/-! ## Accesses -/

/-- A write to a chunk file. -/
structure ChunkFileWrite (n : Nat) where
  host : Fin n
  chnkId : Nat
  /-- Where the bytes stand in the chunk. -/
  offset : Nat
  bytes : List UInt8
  deriving DecidableEq

/-- A read of a chunk file into a buffer. -/
structure ChunkFileRead (n : Nat) where
  host : Fin n
  chnkId : Nat
  /-- Where the bytes stand in the chunk. -/
  offset : Nat
  size : Nat
  /-- Where they go in the buffer. -/
  position : Nat
  deriving DecidableEq

section
variable {n : Nat}

/-- The writes of the tasks of a daemon, which are none if a transfer fails. -/
def taskWrites (host : Fin n) (bulk : List UInt8) (total : Nat) (tasks : List ChunkTask) :
    List (ChunkFileWrite n) :=
  match pullTasks bulk tasks (List.replicate total 0) with
  | none => []
  | some bulkBuf => tasks.map fun t =>
      ⟨host, t.chnkId, t.offset, slice bulkBuf t.bulkBufPtr t.size⟩

/-- The reads of the tasks of a daemon. -/
def taskReads (host : Fin n) (tasks : List ChunkTask) : List (ChunkFileRead n) :=
  tasks.map fun t => ⟨host, t.chnkId, t.offset, t.size, t.originOffset⟩

/-- The writes of `forward_write` of a client, without replication. -/
def chunkFileWrites (d : Distributor n) (path : List Char) (buf : List UInt8) (offset : Nat) :
    List (ChunkFileWrite n) :=
  let plan := planWrite d path offset buf.length 0
  plan.targets.flatMap fun t =>
    taskWrites t buf (plan.request path offset buf.length t).totalChunkSize
      (assignChunks (plan.request path offset buf.length t) buf.length).1

/-- The tables of a read without replication. -/
def planReadOwner (d : Distributor n) (path : List Char) (offset size : Nat) : DataPlan n :=
  planRead offset size
    ((chunkIds offset size).map fun chnkId => (chnkId, d.locateData path chnkId 0))

/-- The reads of `forward_read` of a client, without replication. -/
def chunkFileReads (d : Distributor n) (path : List Char) (offset size : Nat) :
    List (ChunkFileRead n) :=
  let plan := planReadOwner d path offset size
  plan.targets.flatMap fun t =>
    taskReads t (assignChunks (plan.request path offset size t) size).1

namespace Proxy

variable (strHash : List Char → Nat) (cl : ProxyCluster n) (path : List Char)

/-- The tasks that a daemon finds for the proxy. -/
def hostTasks (plan : Plan) (offset size target : Nat) : Option (Fin n × List ChunkTask) :=
  if h : target < n then
    (proxyAssignChunks strHash (cl ⟨target, h⟩).dist (plan.request path offset size n target)
      size).map fun r => (⟨target, h⟩, r.1.1)
  else none

/-- The writes of `forward_write` of the proxy. -/
def chunkFileWrites (buf : List UInt8) (offset : Nat) : Option (List (ChunkFileWrite n)) :=
  (planData strHash (distributor n) path offset buf.length).bind fun plan =>
    (plan.targets.mapM (hostTasks strHash cl path plan offset buf.length)).map fun l =>
      l.flatMap fun p => taskWrites p.1 buf (plan.totalChunkSize offset buf.length p.1) p.2

/-- The reads of `forward_read` of the proxy. -/
def chunkFileReads (offset size : Nat) : Option (List (ChunkFileRead n)) :=
  (planData strHash (distributor n) path offset size).bind fun plan =>
    (plan.targets.mapM (hostTasks strHash cl path plan offset size)).map fun l =>
      l.flatMap fun p => taskReads p.1 p.2

end Proxy

/-! ## What the accesses of the direct route do -/

/-- The storages after a write. -/
def ChunkFileWrite.apply (path : List Char) (cl : Cluster n) (w : ChunkFileWrite n) : Cluster n :=
  update cl w.host ((cl w.host).writeChunk path w.chnkId w.bytes w.offset).1

/-- The bytes that a read finds. -/
def ChunkFileRead.bytes (path : List Char) (cl : Cluster n) (r : ChunkFileRead n) : List UInt8 :=
  slice (((cl r.host).file? path r.chnkId).getD []) r.offset r.size

/-- The tasklets of a write make its writes, one after another. -/
theorem foldl_writeTasks (path : List Char) (bulkBuf : List UInt8) (host : Fin n)
    (tasks : List ChunkTask) (cl : Cluster n) :
    ((tasks.map fun t => (⟨host, t.chnkId, t.offset, slice bulkBuf t.bulkBufPtr t.size⟩ :
        ChunkFileWrite n)).foldl (ChunkFileWrite.apply path) cl) =
      update cl host (writeTasks path bulkBuf tasks (cl host)).1 := by
  induction tasks generalizing cl with
  | nil => exact (update_eq_self host cl).symm
  | cons t tasks ih =>
    rw [map_cons, foldl_cons, ih, ChunkFileWrite.apply, update_idem,
      update_self, writeTasks]

theorem foldl_taskWrites (inp : DataIn) (bulk : List UInt8) (host : Fin n) (cl : Cluster n) :
    (taskWrites host bulk inp.totalChunkSize (assignChunks inp bulk.length).1).foldl
        (ChunkFileWrite.apply inp.path) cl =
      update cl host (rpcSrvWrite (cl host) inp bulk).1 := by
  rw [taskWrites, rpcSrvWrite]
  cases pullTasks bulk (assignChunks inp bulk.length).1 (List.replicate inp.totalChunkSize 0) with
  | none => exact (update_eq_self host cl).symm
  | some bulkBuf => exact foldl_writeTasks inp.path bulkBuf host _ cl

/-- What posted writes do to the chunk files. -/
theorem postWrites_snd (request : Fin n → DataIn) (buf : List UInt8) {path : List Char}
    (hpath : ∀ t, (request t).path = path) (targets : List (Fin n)) (cl : Cluster n) :
    (postWrites (fun _ => .delivered) 0 request buf targets cl).2 =
      (targets.flatMap fun t => taskWrites t buf (request t).totalChunkSize
        (assignChunks (request t) buf.length).1).foldl (ChunkFileWrite.apply path) cl := by
  induction targets generalizing cl with
  | nil => rfl
  | cons target targets ih =>
    have hhost := foldl_taskWrites (request target) buf target cl
    rw [hpath] at hhost
    rw [flatMap_cons, foldl_append, hhost, ← ih, postWrites]

/-- A write of a client leaves the daemons as its writes leave them. -/
theorem forwardWrite_chunkFileWrites (d : Distributor n) (cl : Cluster n) (path : List Char)
    (buf : List UInt8) (offset : Nat) :
    (forwardWrite d (fun _ => .delivered) cl path buf offset 0).2 =
      (chunkFileWrites d path buf offset).foldl (ChunkFileWrite.apply path) cl := by
  obtain ⟨plan, hplan⟩ : ∃ plan, planWrite d path offset buf.length 0 = plan := ⟨_, rfl⟩
  rw [forwardWrite, chunkFileWrites, hplan]
  exact postWrites_snd (plan.request path offset buf.length) buf
    (fun t => plan.request_path path offset buf.length t) plan.targets cl

/-- A read of a client puts the bytes that its reads find into the buffer, and returns how many
they are. -/
theorem forwardRead_chunkFileReads (d : Distributor n) (cl : Cluster n) (path : List Char)
    {buf : List UInt8} {offset : Nat} (ho : offset < 2 ^ 63) (hs : 0 < buf.length)
    (hs' : buf.length < 2 ^ 34) (failed : Finset Int) (draws : Nat → List Nat) :
    forwardRead d (fun _ => .delivered) cl path buf offset 0 failed draws =
      some ⟨(0, ((chunkFileReads d path offset buf.length).map fun r =>
          (r.bytes path cl).length).sum),
        spliceAll buf ((chunkFileReads d path offset buf.length).map fun r =>
          (r.position, r.bytes path cl)), failed⟩ := by
  have hplan : (planReadOwner d path offset buf.length).RecordsOwner offset buf.length
      (d.locateData path · 0) := planRead_recordsOwner _ offset buf.length
  have hbytes : ((chunkFileReads d path offset buf.length).map fun r =>
        (r.position, r.bytes path cl)) =
      (planReadOwner d path offset buf.length).targets.flatMap
        (readBytes cl path offset buf.length (d.locateData path · 0)) := by
    rw [chunkFileReads, map_flatMap]
    refine flatMap_congr fun t ht => ?_
    rw [taskReads, map_map, (assignChunks_eq (hplan.selects_small ho hs hs' path ht)).1]
    have hpieces := pieceTasks_taskBytes (cl t) path (chnkStart offset) (offset % chunksize)
      buf.length (ownedPieces offset buf.length (d.locateData path · 0) t) 0
    rw [DataPlan.request_offset, DataPlan.request_chunkStart]
    exact hpieces
  rw [forwardRead_delivered d cl path rfl ho hs (hs'.trans (by decide))
    (fun _ => perWindow_of_lt hs hs' _) failed draws]
  have hsum : ((chunkFileReads d path offset buf.length).map fun r =>
        (r.bytes path cl).length).sum =
      ((planReadOwner d path offset buf.length).targets.map fun t =>
        ((readBytes cl path offset buf.length (d.locateData path · 0) t).map
          fun p => p.2.length).sum).sum := by
    have hlengths := congrArg (fun l => (l.map fun p => p.2.length).sum) hbytes
    rw [map_map, map_flatMap, flatMap_def, sum_flatten, map_map]
      at hlengths
    exact hlengths
  rw [← planReadOwner, ← hbytes, hsum]

/-! ## The tables of the proxy -/

/-- The tables of the proxy and of a client after the same chunks have been entered. -/
structure Proxy.Plan.Matches (plan : Proxy.Plan) (plan' : DataPlan n) (owner : Nat → Fin n)
    (first last : Nat) (ids : List Nat) : Prop where
  targetChnks : ∀ t : Fin n, plan.targetChnks t = plan'.targetChnks t
  targets : plan.targets = plan'.targets.map Fin.val
  start : first ∈ ids → plan.chnkStartTarget = owner first
  stop : last ∈ ids → plan.chnkEndTarget = owner last

namespace Proxy.Plan.Matches

variable {plan : Proxy.Plan} {plan' : DataPlan n} {owner : Nat → Fin n} {first last : Nat}
  {done : List Nat}

theorem add (h : plan.Matches plan' owner first last done)
    (setBit : List UInt8 → Nat → List UInt8) (mark : Finset (Fin n) → Fin n → Finset (Fin n))
    (id : Nat) :
    (plan.add first last id (owner id)).Matches (plan'.add setBit mark first last id (owner id))
      owner first last (done ++ [id]) where
  targetChnks t := by
    rw [Proxy.Plan.add, DataPlan.add]
    dsimp only
    by_cases ht : t = owner id
    · rw [ht, update_self, update_self, h.targetChnks]
    · rw [update_of_ne ht, update_of_ne fun hval => ht (Fin.ext hval),
        h.targetChnks]
  targets := by
    rw [Proxy.Plan.add, DataPlan.add]
    dsimp only
    rw [h.targetChnks, h.targets]
    split
    · rw [map_append, map_singleton]
    · rfl
  start hmem := by
    rw [Proxy.Plan.add]
    dsimp only
    split
    · next hid => rw [hid]
    · next hid =>
      refine h.start ((mem_append.1 hmem).resolve_right fun hlast => hid ?_)
      exact (mem_singleton.1 hlast).symm
  stop hmem := by
    rw [Proxy.Plan.add]
    dsimp only
    split
    · next hid => rw [hid]
    · next hid =>
      refine h.stop ((mem_append.1 hmem).resolve_right fun hlast => hid ?_)
      exact (mem_singleton.1 hlast).symm

/-- The loops fill the tables alike. -/
theorem foldlM {strHash : List Char → Nat} {dist : SimpleHashDistributor} {path : List Char}
    (hlocate : ∀ id, dist.locateData strHash path id 0 = some (owner id).val)
    (setBit : List UInt8 → Nat → List UInt8) (mark : Finset (Fin n) → Fin n → Finset (Fin n))
    (ids : List Nat) (h : plan.Matches plan' owner first last done) :
    ∃ plan₁, ids.foldlM (fun plan id => (dist.locateData strHash path id 0).map
        (plan.add first last id)) plan = some plan₁ ∧
      plan₁.Matches (ids.foldl (fun plan id => plan.add setBit mark first last id (owner id)) plan')
        owner first last (done ++ ids) := by
  induction ids generalizing plan plan' done with
  | nil =>
    rw [append_nil]
    exact ⟨plan, rfl, h⟩
  | cons id ids ih =>
    obtain ⟨plan₁, hplan, hmatches⟩ := ih (h.add setBit mark id)
    rw [append_assoc, singleton_append] at hmatches
    refine ⟨plan₁, ?_, hmatches⟩
    rw [foldlM_cons, hlocate, Option.map_some]
    exact hplan

variable {offset size : Nat}

/-- The tables of the proxy make the requests of a client, up to the bitmap. -/
theorem request_eq
    (h : plan.Matches plan' owner (chnkStart offset) (chnkEnd offset size) (chunkIds offset size))
    (hplan : plan'.RecordsOwner offset size owner) (ho : offset < 2 ^ 63) (hs : 0 < size)
    (hs' : size < 2 ^ 34) (path : List Char) (t : Fin n) :
    plan.request path offset size n t = (plan'.request path offset size t).forProxy := by
  have hcount : 0 < count chunksize (offset % chunksize) size := Nat.succ_pos _
  have hlt : size < 2 ^ 62 := hs'.trans (by decide)
  have hsucc := chnkEnd_succ ho hs hlt
  have hlast : chnkEnd offset size =
      chnkStart offset + (count chunksize (offset % chunksize) size - 1) := by omega
  have hmem : ∀ j < count chunksize (offset % chunksize) size,
      chnkStart offset + j ∈ chunkIds offset size := fun j hj => by
    rw [chunkIds_eq ho hs hlt]
    exact mem_map.2 ⟨j, mem_range.2 hj, rfl⟩
  have hstart : t.val = plan.chnkStartTarget ↔ t ∈ plan'.chnkStartTarget := by
    have hrec := mem_recorded owner t ho hs hlt hcount
    rw [Nat.add_zero] at hrec
    rw [h.start (hmem 0 hcount), hplan.mem_start, hrec, Fin.val_inj, eq_comm]
  have hstop : t.val = plan.chnkEndTarget ↔ t ∈ plan'.chnkEndTarget := by
    have hrec := mem_recorded owner t ho hs hlt (Nat.sub_lt hcount Nat.one_pos)
    rw [← hlast] at hrec
    rw [h.stop (hlast ▸ hmem _ (Nat.sub_lt hcount Nat.one_pos)), hplan.mem_end, hrec, Fin.val_inj,
      eq_comm]
  have htotal : plan.totalChunkSize offset size t = plan'.totalChunkSize offset size t := by
    rw [totalChunkSize, DataPlan.totalChunkSize]
    simp only [h.targetChnks, hstart, hstop]
  rw [Proxy.Plan.request, DataIn.forProxy, htotal, h.targetChnks]
  rfl

end Proxy.Plan.Matches

/-- The bitmap of a request has the chunks that belong to its daemon. -/
theorem DataPlan.RecordsOwner.matchesHash {n : UInt32} {d : Distributor n.toNat}
    {plan : DataPlan n.toNat} {path : List Char} {offset size : Nat}
    (h : plan.RecordsOwner offset size (d.locateData path · 0)) (ho : offset < 2 ^ 63)
    (hs : 0 < size) (hs' : size < 2 ^ 34) {t : Fin n.toNat} (ht : t ∈ plan.targets) :
    (plan.request path offset size t).MatchesHash d := by
  have hselects := h.selects_small ho hs hs' path ht
  intro id hlow hhigh
  have hlast := hselects.chunkEnd_eq
  obtain ⟨j, rfl⟩ := Nat.exists_eq_add_of_le hlow
  rw [Nat.add_sub_cancel_left, hselects.bits j (by omega), decide_eq_true_eq]
  exact Fin.ext_iff

end

/-! ## The two routes -/

namespace Proxy

theorem collect_ok (sizes : List Nat) (outSize : Nat) :
    collect (sizes.map fun k => some ⟨0, k⟩) 0 outSize = (0, outSize + sizes.sum) := by
  induction sizes generalizing outSize with
  | nil => rfl
  | cons k sizes ih =>
    rw [map_cons, collect, if_neg (not_not.2 rfl), ih, sum_cons, Nat.add_assoc]

section
variable {strHash : List Char → Nat} {n : UInt32}

/-- The requests that the proxy makes are those of a client, and each daemon finds its chunks in the
bitmap of the client's. -/
structure SameRequests (d : Distributor n.toNat) (request : Fin n.toNat → DataIn)
    (request' : Nat → ProxyDataIn) (targets : List (Fin n.toNat)) : Prop where
  eq : ∀ t ∈ targets, request' t = (request t).forProxy
  hostSize : ∀ t ∈ targets, UInt32.ofNat (request t).hostSize = n
  matchesHash : ∀ t ∈ targets, (request t).MatchesHash d

variable {request : Fin n.toNat → DataIn} {request' : Nat → ProxyDataIn} {target : Fin n.toNat}
  {targets : List (Fin n.toNat)}

theorem SameRequests.tail {d : Distributor n.toNat}
    (h : SameRequests d request request' (target :: targets)) :
    SameRequests d request request' targets where
  eq t ht := h.eq t (mem_cons_of_mem _ ht)
  hostSize t ht := h.hostSize t (mem_cons_of_mem _ ht)
  matchesHash t ht := h.matchesHash t (mem_cons_of_mem _ ht)

variable (hn : 0 < n.toNat)
include hn

/-- The daemons serve the writes of the proxy as those of a client. -/
theorem postWrites_eq (buf : List UInt8)
    (h : SameRequests (simpleHashDistributor strHash n.toNat hn) request request' targets)
    (cl : ProxyCluster n.toNat) :
    ∃ outs cl', postWrites strHash (fun _ => .delivered) request' buf (targets.map Fin.val) cl =
        some (outs, cl') ∧
      GekkoFS.postWrites (fun _ => .delivered) 0 request buf targets (fun t => (cl t).storage) =
        (outs, fun t => (cl' t).storage) := by
  induction targets generalizing cl with
  | nil => exact ⟨some [], cl, rfl, rfl⟩
  | cons t targets ih =>
    obtain ⟨dist', hwrite⟩ := rpcSrvProxyWrite_eq hn (h.hostSize t mem_cons_self)
      (h.matchesHash t mem_cons_self) (cl t) buf
    obtain ⟨outs, cl', hproxy, hclient⟩ := ih h.tail
      (update cl t ⟨(rpcSrvWrite (cl t).storage (request t) buf).1, dist'⟩)
    refine ⟨outs.map (some (rpcSrvWrite (cl t).storage (request t) buf).2 :: ·), cl', ?_, ?_⟩
    · rw [map_cons, postWrites, dif_pos t.isLt, h.eq t mem_cons_self]
      dsimp only
      rw [hwrite, Option.bind_some, hproxy, Option.map_some]
    · have hstorage : (fun u => (update cl t
          ⟨(rpcSrvWrite (cl t).storage (request t) buf).1, dist'⟩ u).storage) =
          update (fun u => (cl u).storage) t
            (rpcSrvWrite (cl t).storage (request t) buf).1 :=
        funext fun u => apply_update (fun _ => ProxyDaemon.storage) cl t _ u
      rw [hstorage] at hclient
      rw [GekkoFS.postWrites]
      dsimp only
      rw [hclient]

/-- The daemons serve the reads of the proxy as those of a client, if those are answered. -/
theorem postReads_eq (S : Nat)
    (h : SameRequests (simpleHashDistributor strHash n.toNat hn) request request' targets)
    (cl : ProxyCluster n.toNat) {buf : List UInt8} (hlength : buf.length = S)
    (hanswer : ∀ t ∈ targets, ∀ b : List UInt8, b.length = S → ∃ out b', b'.length = S ∧
      rpcSrvRead (cl t).storage (request t) b = (some out, b')) :
    ∃ outs cl' buf', postReads strHash (fun _ => .delivered) request' (targets.map Fin.val) cl buf =
        some (outs, cl', buf') ∧
      GekkoFS.postReads (fun _ => .delivered) (fun t => (cl t).storage) request targets buf =
        (outs, buf') ∧
      ∀ t, (cl' t).storage = (cl t).storage := by
  induction targets generalizing cl buf with
  | nil => exact ⟨some [], cl, buf, rfl, rfl, fun _ => rfl⟩
  | cons t targets ih =>
    obtain ⟨out, b', hb', hread⟩ := hanswer t mem_cons_self buf hlength
    obtain ⟨dist', hproxyRead⟩ := rpcSrvProxyRead_eq hn (h.hostSize t mem_cons_self)
      (h.matchesHash t mem_cons_self) (cl t) hread
    have hstorage : ∀ u, (update cl t ⟨(cl t).storage, dist'⟩ u).storage =
        (cl u).storage := fun u => by
      rw [apply_update (fun _ => ProxyDaemon.storage) cl t]
      exact congrFun (update_eq_self t fun u => (cl u).storage) u
    obtain ⟨outs, cl', buf', hproxy, hclient, hcl'⟩ := ih h.tail
      (update cl t ⟨(cl t).storage, dist'⟩) hb' (fun u hu b hb => by
        rw [hstorage]
        exact hanswer u (mem_cons_of_mem _ hu) b hb)
    refine ⟨outs.map (some out :: ·), cl', buf', ?_, ?_, fun u => (hcl' u).trans (hstorage u)⟩
    · rw [map_cons, postReads, dif_pos t.isLt, h.eq t mem_cons_self]
      dsimp only
      rw [hproxyRead, Option.bind_some, hproxy, Option.map_some]
    · rw [funext hstorage] at hclient
      rw [GekkoFS.postReads]
      dsimp only
      rw [hread, hclient]

/-- The loop of the proxy fills its tables like a loop of a client. -/
theorem planData_matches (setBit : List UInt8 → Nat → List UInt8)
    (mark : Finset (Fin n.toNat) → Fin n.toNat → Finset (Fin n.toNat)) (path : List Char)
    (offset size : Nat) :
    ∃ plan, planData strHash (distributor n.toNat) path offset size = some plan ∧
      plan.Matches ((chunkIds offset size).foldl (fun plan id =>
          plan.add setBit mark (chnkStart offset) (chnkEnd offset size) id
            ((simpleHashDistributor strHash n.toNat hn).locateData path id 0)) .empty)
        ((simpleHashDistributor strHash n.toNat hn).locateData path · 0) (chnkStart offset)
        (chnkEnd offset size) (chunkIds offset size) := by
  have hempty : Plan.empty.Matches (DataPlan.empty : DataPlan n.toNat)
      ((simpleHashDistributor strHash n.toNat hn).locateData path · 0) (chnkStart offset)
      (chnkEnd offset size) [] :=
    ⟨fun _ => rfl, rfl, fun h => absurd h not_mem_nil, fun h => absurd h not_mem_nil⟩
  have hlocate : ∀ id, (distributor n.toNat).locateData strHash path id 0 =
      some ((simpleHashDistributor strHash n.toNat hn).locateData path id 0).val := fun id =>
    SimpleHashDistributor.locateData_eq hn UInt32.ofNat_toNat path id 0
  have hfold := hempty.foldlM hlocate setBit mark (chunkIds offset size)
  rw [nil_append] at hfold
  exact hfold

variable {plan : Plan} {plan' : DataPlan n.toNat} {path : List Char} {offset size : Nat}

/-- The requests of matching tables. -/
theorem Plan.Matches.sameRequests
    (h : plan.Matches plan' ((simpleHashDistributor strHash n.toNat hn).locateData path · 0)
      (chnkStart offset) (chnkEnd offset size) (chunkIds offset size))
    (hplan : plan'.RecordsOwner offset size
      ((simpleHashDistributor strHash n.toNat hn).locateData path · 0))
    (ho : offset < 2 ^ 63) (hs : 0 < size) (hs' : size < 2 ^ 34) :
    SameRequests (simpleHashDistributor strHash n.toNat hn) (plan'.request path offset size)
      (plan.request path offset size n.toNat) plan'.targets where
  eq t _ := h.request_eq hplan ho hs hs' path t
  hostSize _ _ := UInt32.ofNat_toNat
  matchesHash _ ht := hplan.matchesHash ho hs hs' ht

/-- The daemons find the tasks of the client's requests. -/
theorem Plan.Matches.mapM_hostTasks
    (h : plan.Matches plan' ((simpleHashDistributor strHash n.toNat hn).locateData path · 0)
      (chnkStart offset) (chnkEnd offset size) (chunkIds offset size))
    (hplan : plan'.RecordsOwner offset size
      ((simpleHashDistributor strHash n.toNat hn).locateData path · 0))
    (ho : offset < 2 ^ 63) (hs : 0 < size) (hs' : size < 2 ^ 34) (cl : ProxyCluster n.toNat) :
    plan.targets.mapM (hostTasks strHash cl path plan offset size) =
      some (plan'.targets.map fun t =>
        (t, (assignChunks (plan'.request path offset size t) size).1)) := by
  have hsame := h.sameRequests hn hplan ho hs hs'
  rw [h.targets, Traverse.mapM_eq_some_iff, forall₂_map_left_iff, forall₂_map_right_iff,
    forall₂_same]
  intro t ht
  obtain ⟨dist', htasks⟩ := proxyAssignChunks_eq hn (hsame.hostSize t ht) (hsame.matchesHash t ht)
    (cl t).dist size
  rw [hostTasks, dif_pos t.isLt, hsame.eq t ht, htasks, Option.map_some]

end

end Proxy

section
variable {n : Nat} (d : Distributor n) (strHash : List Char → Nat) (cl : ProxyCluster n)
  (path : List Char) (buf : List UInt8) (offset : Nat)

/-- The write and the read of a range do the same through the proxy and directly, if every request
is served. -/
structure RoutesAgree : Prop where
  /-- The chunk writes are the same. -/
  writes : Proxy.chunkFileWrites strHash cl path buf offset =
    some (chunkFileWrites d path buf offset)
  /-- The write returns the same and leaves the same storages. -/
  write : ∃ cl', Proxy.forwardWrite strHash (fun _ => .delivered) cl path buf offset =
      some ((forwardWrite d (fun _ => .delivered) (fun t => (cl t).storage) path buf offset 0).1,
        cl') ∧
    (fun t => (cl' t).storage) =
      (forwardWrite d (fun _ => .delivered) (fun t => (cl t).storage) path buf offset 0).2
  /-- The same places of the buffer are filled from the same places of the same chunks. -/
  reads : Proxy.chunkFileReads strHash cl path offset buf.length =
    some (chunkFileReads d path offset buf.length)
  /-- The read returns the same, and leaves the same buffer and the storages as they are. -/
  read : ∀ failed draws, ∃ r cl',
    forwardRead d (fun _ => .delivered) (fun t => (cl t).storage) path buf offset 0 failed draws =
      some r ∧
    Proxy.forwardRead strHash (fun _ => .delivered) cl path buf offset =
      some (r.result, cl', r.buf) ∧
    ∀ t, (cl' t).storage = (cl t).storage

end

section
variable {strHash : List Char → Nat} {n : UInt32} {plan : Proxy.Plan} {plan' : DataPlan n.toNat}
  {path : List Char} {buf : List UInt8} {offset : Nat} (hn : 0 < n.toNat)

/-- The tables of a write without replication. -/
theorem planWrite_zero {n : Nat} (d : Distributor n) (path : List Char) (offset size : Nat) :
    planWrite d path offset size 0 = (chunkIds offset size).foldl (fun plan chnkId =>
      plan.add setBitset (fun s t => insert t s) (chnkStart offset) (chnkEnd offset size) chnkId
        (d.locateData path chnkId 0)) .empty := by
  rw [planWrite]
  rfl

/-- The proxy plans a write as the client does. -/
theorem planWrite_matches (path : List Char) (offset size : Nat) :
    ∃ plan, Proxy.planData strHash (Proxy.distributor n.toNat) path offset size = some plan ∧
      plan.Matches (planWrite (simpleHashDistributor strHash n.toNat hn) path offset size 0)
        ((simpleHashDistributor strHash n.toNat hn).locateData path · 0) (chnkStart offset)
        (chnkEnd offset size) (chunkIds offset size) := by
  rw [planWrite_zero]
  exact Proxy.planData_matches hn setBitset (fun s t => insert t s) path offset size

/-- The proxy plans a read as the client does. -/
theorem planRead_matches (path : List Char) (offset size : Nat) :
    ∃ plan, Proxy.planData strHash (Proxy.distributor n.toNat) path offset size = some plan ∧
      plan.Matches (planReadOwner (simpleHashDistributor strHash n.toNat hn) path offset size)
        ((simpleHashDistributor strHash n.toNat hn).locateData path · 0) (chnkStart offset)
        (chnkEnd offset size) (chunkIds offset size) := by
  rw [planReadOwner, planRead, foldl_map]
  exact Proxy.planData_matches hn orBit (fun _ t => {t}) path offset size

theorem flatMap_taskWrites {n : Nat} (tasks : Fin n → List ChunkTask) (buf : List UInt8)
    {total total' : Fin n → Nat} (h : ∀ t, total t = total' t) (targets : List (Fin n)) :
    ((targets.map fun t => (t, tasks t)).flatMap fun p => taskWrites p.1 buf (total p.1) p.2) =
      targets.flatMap fun t => taskWrites t buf (total' t) (tasks t) := by
  rw [flatMap_map, funext h]

theorem flatMap_taskReads {n : Nat} (tasks : Fin n → List ChunkTask) (targets : List (Fin n)) :
    ((targets.map fun t => (t, tasks t)).flatMap fun p => taskReads p.1 p.2) =
      targets.flatMap fun t => taskReads t (tasks t) :=
  flatMap_map ..

include hn

/-- Both routes write the same chunk files. -/
theorem Proxy.chunkFileWrites_eq (ho : offset < 2 ^ 63) (hs : 0 < buf.length)
    (hs' : buf.length < 2 ^ 34) (cl : ProxyCluster n.toNat) :
    Proxy.chunkFileWrites strHash cl path buf offset =
      some (GekkoFS.chunkFileWrites (simpleHashDistributor strHash n.toNat hn) path buf
        offset) := by
  obtain ⟨plan, hdata, hmatches⟩ := @planWrite_matches strHash n hn path offset buf.length
  have hplan := planWrite_recordsOwner (simpleHashDistributor strHash n.toNat hn) path ho hs hs'
  rw [Proxy.chunkFileWrites, GekkoFS.chunkFileWrites, hdata, Option.bind_some]
  obtain ⟨plan', hplan'⟩ : ∃ plan', planWrite (simpleHashDistributor strHash n.toNat hn) path offset
    buf.length 0 = plan' := ⟨_, rfl⟩
  rw [hplan'] at hmatches hplan ⊢
  have htotal : ∀ t : Fin n.toNat, plan.totalChunkSize offset buf.length t =
      (plan'.request path offset buf.length t).totalChunkSize := fun t =>
    congrArg ProxyDataIn.totalChunkSize (hmatches.request_eq hplan ho hs hs' path t)
  rw [hmatches.mapM_hostTasks hn hplan ho hs hs' cl, Option.map_some]
  exact congrArg some (flatMap_taskWrites _ buf htotal plan'.targets)

/-- Both routes read the same chunk files. -/
theorem Proxy.chunkFileReads_eq {size : Nat} (ho : offset < 2 ^ 63) (hs : 0 < size)
    (hs' : size < 2 ^ 34) (cl : ProxyCluster n.toNat) :
    Proxy.chunkFileReads strHash cl path offset size =
      some (GekkoFS.chunkFileReads (simpleHashDistributor strHash n.toNat hn) path offset
        size) := by
  obtain ⟨plan, hdata, hmatches⟩ := @planRead_matches strHash n hn path offset size
  have hplan : (planReadOwner (simpleHashDistributor strHash n.toNat hn) path offset
      size).RecordsOwner offset size _ := planRead_recordsOwner _ offset size
  rw [Proxy.chunkFileReads, GekkoFS.chunkFileReads, hdata, Option.bind_some]
  obtain ⟨plan', hplan'⟩ : ∃ plan', planReadOwner (simpleHashDistributor strHash n.toNat hn) path
    offset size = plan' := ⟨_, rfl⟩
  rw [hplan'] at hmatches hplan ⊢
  rw [hmatches.mapM_hostTasks hn hplan ho hs hs' cl, Option.map_some]
  exact congrArg some (flatMap_taskReads _ plan'.targets)

/-- The writes of matching tables. -/
theorem Proxy.Plan.Matches.postWrites_eq
    (h : plan.Matches plan' ((simpleHashDistributor strHash n.toNat hn).locateData path · 0)
      (chnkStart offset) (chnkEnd offset buf.length) (chunkIds offset buf.length))
    (hplan : plan'.RecordsOwner offset buf.length
      ((simpleHashDistributor strHash n.toNat hn).locateData path · 0))
    (ho : offset < 2 ^ 63) (hs : 0 < buf.length) (hs' : buf.length < 2 ^ 34)
    (cl : ProxyCluster n.toNat) :
    ∃ outs cl', Proxy.postWrites strHash (fun _ => .delivered)
          (plan.request path offset buf.length n.toNat) buf plan.targets cl = some (outs, cl') ∧
      GekkoFS.postWrites (fun _ => .delivered) 0 (plan'.request path offset buf.length) buf
        plan'.targets (fun t => (cl t).storage) = (outs, fun t => (cl' t).storage) ∧
      Proxy.dataResult outs = writeResult 0 buf.length outs := by
  obtain ⟨outs, cl', hproxy, hclient⟩ := Proxy.postWrites_eq hn buf
    (h.sameRequests hn hplan ho hs hs') cl
  rw [h.targets]
  refine ⟨outs, cl', hproxy, hclient, ?_⟩
  have hrecorded := hclient.symm.trans
    (postWrites_recorded 0 (fun t => (cl t).storage) hplan.recordsRange ho hs hs')
  rw [(Prod.mk.inj hrecorded).1]
  rw [Proxy.dataResult, Proxy.collect_ok, writeResult, collectWrites_ok]
  simp only [ne_eq, not_true_eq_false, if_false, if_true]

/-- A write by the proxy. -/
theorem Proxy.forwardWrite_eq (ho : offset < 2 ^ 63) (hs : 0 < buf.length)
    (hs' : buf.length < 2 ^ 34) (cl : ProxyCluster n.toNat) :
    ∃ cl', Proxy.forwardWrite strHash (fun _ => .delivered) cl path buf offset =
        some ((GekkoFS.forwardWrite (simpleHashDistributor strHash n.toNat hn)
          (fun _ => .delivered) (fun t => (cl t).storage) path buf offset 0).1, cl') ∧
      (fun t => (cl' t).storage) = (GekkoFS.forwardWrite (simpleHashDistributor strHash n.toNat hn)
        (fun _ => .delivered) (fun t => (cl t).storage) path buf offset 0).2 := by
  obtain ⟨plan, hdata, hmatches⟩ := @planWrite_matches strHash n hn path offset buf.length
  obtain ⟨outs, cl', hproxy, hclient, hresult⟩ := hmatches.postWrites_eq hn
    (planWrite_recordsOwner (simpleHashDistributor strHash n.toNat hn) path ho hs hs') ho hs hs' cl
  refine ⟨cl', ?_, ?_⟩
  · rw [Proxy.forwardWrite, GekkoFS.forwardWrite, int8_zero, hdata, Option.bind_some, hproxy,
      Option.map_some, hresult, hclient]
  · rw [GekkoFS.forwardWrite, int8_zero, hclient]

/-- The reads of matching tables. -/
theorem Proxy.Plan.Matches.postReads_eq
    (h : plan.Matches plan' ((simpleHashDistributor strHash n.toNat hn).locateData path · 0)
      (chnkStart offset) (chnkEnd offset buf.length) (chunkIds offset buf.length))
    (hplan : plan'.RecordsOwner offset buf.length
      ((simpleHashDistributor strHash n.toNat hn).locateData path · 0))
    (ho : offset < 2 ^ 63) (hs : 0 < buf.length) (hs' : buf.length < 2 ^ 34)
    (cl : ProxyCluster n.toNat) :
    ∃ outs cl' buf', Proxy.postReads strHash (fun _ => .delivered)
          (plan.request path offset buf.length n.toNat) plan.targets cl buf =
        some (outs, cl', buf') ∧
      GekkoFS.postReads (fun _ => .delivered) (fun t => (cl t).storage)
        (plan'.request path offset buf.length) plan'.targets buf = (outs, buf') ∧
      (∀ failed, readResult plan'.targets failed outs = (Proxy.dataResult outs, failed)) ∧
      ∀ t, (cl' t).storage = (cl t).storage := by
  have hsame := h.sameRequests hn hplan ho hs hs'
  obtain ⟨outs, cl', buf', hproxy, hclient, hcl'⟩ := Proxy.postReads_eq hn buf.length hsame cl rfl
    fun t ht b hb => by
      rw [← hb] at hplan hs hs' ⊢
      exact ⟨_, _, spliceAll_length (readBytes_le _ path hs _ t),
        hplan.rpcSrvRead_eq ho hs (hs'.trans (by decide)) (fun _ => perWindow_of_lt hs hs' _)
          (fun t => (cl t).storage) path ht⟩
  rw [h.targets]
  refine ⟨outs, cl', buf', hproxy, hclient, fun failed => ?_, hcl'⟩
  have hread := hclient.symm.trans
    (hplan.postReads_eq ho hs (hs'.trans (by decide)) (fun _ => perWindow_of_lt hs hs' _)
      (fun t => (cl t).storage) path)
  rw [(Prod.mk.inj hread).1, Proxy.dataResult, readResult, collectReads_ok]
  have hcollect := Proxy.collect_ok (plan'.targets.map fun t =>
    ((readBytes (fun t => (cl t).storage) path offset buf.length
      ((simpleHashDistributor strHash n.toNat hn).locateData path · 0) t).map
        fun p => p.2.length).sum) 0
  rw [map_map] at hcollect
  simp only [ne_eq, not_true_eq_false, if_false]
  exact congrArg (·, failed) hcollect.symm

/-- A read by the proxy. -/
theorem Proxy.forwardRead_eq (ho : offset < 2 ^ 63) (hs : 0 < buf.length)
    (hs' : buf.length < 2 ^ 34) (cl : ProxyCluster n.toNat) (failed : Finset Int)
    (draws : Nat → List Nat) :
    ∃ r cl', GekkoFS.forwardRead (simpleHashDistributor strHash n.toNat hn) (fun _ => .delivered)
        (fun t => (cl t).storage) path buf offset 0 failed draws = some r ∧
      Proxy.forwardRead strHash (fun _ => .delivered) cl path buf offset =
        some (r.result, cl', r.buf) ∧
      ∀ t, (cl' t).storage = (cl t).storage := by
  obtain ⟨plan, hdata, hmatches⟩ := @planRead_matches strHash n hn path offset buf.length
  obtain ⟨outs, cl', buf', hproxy, hclient, hresult, hcl'⟩ := hmatches.postReads_eq hn
    (planRead_recordsOwner _ offset buf.length) ho hs hs' cl
  refine ⟨⟨Proxy.dataResult outs, buf', failed⟩, cl', ?_, ?_, hcl'⟩
  · rw [GekkoFS.forwardRead, mapM_readTarget_zero, Option.map_some, readSelected, ← planReadOwner,
      hclient, hresult]
  · rw [Proxy.forwardRead, hdata, Option.bind_some, hproxy, Option.map_some]

end

/-- Reads and writes do the same through the proxy and directly, for every hash function and every
number of hosts. -/
theorem routesAgree (strHash : List Char → Nat) (n : UInt32) (hn : 0 < n.toNat)
    (cl : ProxyCluster n.toNat) (path : List Char) (buf : List UInt8) (offset : Nat)
    (ho : offset < 2 ^ 63) (hs : 0 < buf.length) (hs' : buf.length < 2 ^ 31) :
    RoutesAgree (simpleHashDistributor strHash n.toNat hn) strHash cl path buf offset := by
  have hs' : buf.length < 2 ^ 34 := hs'.trans (by decide)
  exact ⟨Proxy.chunkFileWrites_eq hn ho hs hs' cl, Proxy.forwardWrite_eq hn ho hs hs' cl,
    Proxy.chunkFileReads_eq hn ho hs hs' cl, Proxy.forwardRead_eq hn ho hs hs' cl⟩

/-- A range over the border of two chunks, on two hosts. -/
theorem routesAgree_border :
    RoutesAgree (simpleHashDistributor List.length (2 : UInt32).toNat (by decide)) List.length
      (fun _ => ⟨∅, .ofSize 2⟩) "/f".toList [1, 2, 3] (chunksize - 1) :=
  routesAgree List.length 2 (by decide) _ _ _ _ (by decide) (by decide) (by decide)

end GekkoFS
