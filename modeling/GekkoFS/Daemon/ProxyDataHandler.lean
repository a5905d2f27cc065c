import GekkoFS.Common.SimpleHashDistributor
import GekkoFS.Daemon.DataHandler

/-!
# The data handlers of a daemon for the proxy

A data request of the proxy has no bitmap. `rpc_srv_proxy_write` and `rpc_srv_proxy_read` walk over
the chunks of the range like the handlers for clients, but ask the distributor which of them are
theirs, with the number of hosts that the request carries.

`proxyAssignChunks_eq` says that the walk finds the tasks of a client's request, if the bitmap of
that request has the chunks that the distributor gives to the host; the handlers then do what the
handlers for clients do (`rpcSrvProxyWrite_eq`, `rpcSrvProxyRead_eq`).
-/

namespace GekkoFS

/-- The input of a read or write request of the proxy. Source: `rpc_proxy_daemon_write_in_t`,
`rpc_proxy_daemon_read_in_t` (`rpc_types.hpp:146`, `rpc_types.hpp:154`). -/
structure ProxyDataIn where
  /-- The path of the file. -/
  path : List Char
  /-- The offset of the request in its first chunk. -/
  offset : Nat
  /-- The daemon the request is sent to. -/
  hostId : Nat
  /-- The number of daemons. -/
  hostSize : Nat
  /-- The number of chunks of the daemon. -/
  chunkN : Nat
  /-- The first chunk of the request. -/
  chunkStart : Nat
  /-- The last chunk of the request. -/
  chunkEnd : Nat
  /-- The number of bytes that go to the daemon. -/
  totalChunkSize : Nat
  deriving DecidableEq, Repr

/-- What a request of the proxy shares with one of a client. -/
def ProxyDataIn.dataIn (inp : ProxyDataIn) : DataIn where
  path := inp.path
  offset := inp.offset
  hostId := inp.hostId
  hostSize := inp.hostSize
  wbitset := []
  chunkN := inp.chunkN
  chunkStart := inp.chunkStart
  chunkEnd := inp.chunkEnd
  totalChunkSize := inp.totalChunkSize

/-- The storage and the distributor of a daemon. -/
structure ProxyDaemon where
  storage : ChunkStorage
  dist : SimpleHashDistributor

/-! ## The handlers -/

section
variable (strHash : List Char → Nat)

/-- The walk over the chunk ids of the range: chunks of other hosts are skipped, and the walk ends
when all announced chunks have been found. The parameter of the distributor for the number of hosts
is an `unsigned int`. Source: `rpc_srv_proxy_write` (`srv_data.cpp:806`), `rpc_srv_proxy_read`
(`srv_data.cpp:1098`). -/
def proxyAssignLoop (inp : ProxyDataIn) (bulkSize : Nat) :
    List Nat → SimpleHashDistributor → AssignState →
      Option ((List ChunkTask × AssignState) × SimpleHashDistributor)
  | [], dist, s => some (([], s), dist)
  | chnkIdFile :: ids, dist, s =>
    if s.chnkIdCurr < inp.chunkN then
      match dist.locateDataSized strHash inp.path chnkIdFile (UInt32.ofNat inp.hostSize) 0 with
      | (none, _) => none
      | (some host, dist) =>
        if host ≠ inp.hostId then proxyAssignLoop inp bulkSize ids dist s
        else
          let a := assignChunk inp.dataIn bulkSize chnkIdFile s
          (proxyAssignLoop inp bulkSize ids dist a.2).map fun r => ((a.1 :: r.1.1, r.1.2), r.2)
    else some (([], s), dist)

/-- The tasks of a request of the proxy, and the loop's variables and the distributor at its end.
Source: `rpc_srv_proxy_write` (`srv_data.cpp:765`), `rpc_srv_proxy_read` (`srv_data.cpp:1067`). -/
def proxyAssignChunks (dist : SimpleHashDistributor) (inp : ProxyDataIn) (bulkSize : Nat) :
    Option ((List ChunkTask × AssignState) × SimpleHashDistributor) :=
  proxyAssignLoop strHash inp bulkSize
    (List.range' inp.chunkStart (inp.chunkEnd + 1 - inp.chunkStart)) dist
    { chnkIdCurr := 0
      chnkSizeLeftHost := inp.totalChunkSize
      chnkPtr := 0
      transferSize := if bulkSize ≤ chunksize then bulkSize else chunksize }

/-- The write handler, with the proxy's buffer `bulk`. Without hosts the daemon is ended by a
division by zero. Source: `rpc_srv_proxy_write` (`srv_data.cpp:671`). -/
def rpcSrvProxyWrite (daemon : ProxyDaemon) (inp : ProxyDataIn) (bulk : List UInt8) :
    Option (ProxyDaemon × DataOut) :=
  (proxyAssignChunks strHash daemon.dist inp bulk.length).map fun ((tasks, _), dist) =>
    match pullTasks bulk tasks (List.replicate inp.totalChunkSize 0) with
    | none => (⟨daemon.storage, dist⟩, ⟨EBUSY, 0⟩)
    | some bulkBuf =>
      let w := writeTasks inp.path bulkBuf tasks daemon.storage
      let r := waitForTasks (w.2.map some ++ List.replicate (inp.chunkN - tasks.length) none)
      (⟨w.1, dist⟩, ⟨r.1, r.2⟩)

/-- The read handler, with the proxy's buffer `buf`: the daemon, the reply and the proxy's buffer
after it. Unlike `rpc_srv_read` it answers also if no chunk was found. Source: `rpc_srv_proxy_read`
(`srv_data.cpp:974`). -/
def rpcSrvProxyRead (daemon : ProxyDaemon) (inp : ProxyDataIn) (buf : List UInt8) :
    Option (ProxyDaemon × DataOut × List UInt8) :=
  (proxyAssignChunks strHash daemon.dist inp buf.length).map fun ((tasks, _), dist) =>
    let r := readTasks daemon.storage inp.path tasks (List.replicate inp.totalChunkSize 0)
    let w := waitForTasksAndPushBack r.1
      (r.2.map some ++ List.replicate (inp.chunkN - tasks.length) none) buf
    (⟨daemon.storage, dist⟩, ⟨w.1, w.2.1⟩, w.2.2)

end

/-! ## The tasks of both kinds of requests -/

section
variable {strHash : List Char → Nat} {n : UInt32} {inp : DataIn}

/-- The request of the proxy for what a client's request asks for. -/
def DataIn.forProxy (inp : DataIn) : ProxyDataIn where
  path := inp.path
  offset := inp.offset
  hostId := inp.hostId
  hostSize := inp.hostSize
  chunkN := inp.chunkN
  chunkStart := inp.chunkStart
  chunkEnd := inp.chunkEnd
  totalChunkSize := inp.totalChunkSize

theorem assignChunk_forProxy (inp : DataIn) (bulkSize chnkIdFile : Nat) (s : AssignState) :
    assignChunk inp.forProxy.dataIn bulkSize chnkIdFile s = assignChunk inp bulkSize chnkIdFile s :=
  rfl

/-- A walk that asks the distributor finds the chunks of a bitmap that has what it answers. -/
theorem proxyAssignLoop_eq (hn : 0 < n.toNat) (hsize : UInt32.ofNat inp.hostSize = n)
    {bitset : List UInt8} (bulkSize : Nat) {ids : List Nat}
    (hbits : ∀ id ∈ ids, getBitset bitset (id - inp.chunkStart) = true ↔
      ((simpleHashDistributor strHash n.toNat hn).locateData inp.path id 0).val = inp.hostId)
    (dist : SimpleHashDistributor) (s : AssignState) :
    ∃ dist', proxyAssignLoop strHash inp.forProxy bulkSize ids dist s =
      some (assignLoop inp bulkSize bitset ids s, dist') := by
  induction ids generalizing dist s with
  | nil => exact ⟨dist, rfl⟩
  | cons id ids ih =>
    have hrest := ih fun id' hid' => hbits id' (List.mem_cons_of_mem _ hid')
    have hhere := hbits id List.mem_cons_self
    by_cases hlt : s.chnkIdCurr < inp.chunkN
    · have hlocate : dist.locateDataSized strHash inp.forProxy.path id
          (UInt32.ofNat inp.forProxy.hostSize) 0 =
          (some ((simpleHashDistributor strHash n.toNat hn).locateData inp.path id 0).val,
            (dist.locateDataSized strHash inp.path id n 0).2) := by
        subst hsize
        refine Prod.ext (SimpleHashDistributor.locateData_eq hn ?_ inp.path id 0) rfl
        exact @SimpleHashDistributor.hostsSize_locateDataSized strHash _ dist inp.path id 0
      rw [proxyAssignLoop, assignLoop, if_pos hlt, if_pos (show _ < inp.forProxy.chunkN from hlt),
        hlocate, show inp.forProxy.hostId = inp.hostId from rfl]
      dsimp only
      by_cases hhost : ((simpleHashDistributor strHash n.toNat hn).locateData inp.path id 0).val =
          inp.hostId
      · obtain ⟨dist', hloop⟩ := hrest (dist.locateDataSized strHash inp.path id n 0).2
          (assignChunk inp bulkSize id s).2
        rw [if_neg (not_not.2 hhost), if_pos (hhere.2 hhost), assignChunk_forProxy, hloop]
        exact ⟨dist', rfl⟩
      · rw [if_pos hhost, if_neg fun hbit => hhost (hhere.1 hbit)]
        exact hrest _ s
    · rw [proxyAssignLoop, assignLoop, if_neg hlt, if_neg (show ¬ _ < inp.forProxy.chunkN from hlt)]
      exact ⟨dist, rfl⟩

/-- The bitmap of a request has the chunks that the distributor gives to its host. -/
def DataIn.MatchesHash (inp : DataIn) (d : Distributor n.toNat) : Prop :=
  ∀ id, inp.chunkStart ≤ id → id ≤ inp.chunkEnd →
    (getBitset (decompressBitset inp.wbitset) (id - inp.chunkStart) = true ↔
      (d.locateData inp.path id 0).val = inp.hostId)

/-- A request of the proxy has the tasks of the client's request for the same. -/
theorem proxyAssignChunks_eq (hn : 0 < n.toNat) (hsize : UInt32.ofNat inp.hostSize = n)
    (hbits : inp.MatchesHash (simpleHashDistributor strHash n.toNat hn))
    (dist : SimpleHashDistributor) (bulkSize : Nat) :
    ∃ dist', proxyAssignChunks strHash dist inp.forProxy bulkSize =
      some (assignChunks inp bulkSize, dist') := by
  refine proxyAssignLoop_eq hn hsize bulkSize (fun id hid => ?_) dist _
  rw [List.mem_range'_1] at hid
  change inp.chunkStart ≤ id ∧ id < inp.chunkStart + (inp.chunkEnd + 1 - inp.chunkStart) at hid
  exact hbits id hid.1 (by omega)

/-- The write handlers do the same for such requests. -/
theorem rpcSrvProxyWrite_eq (hn : 0 < n.toNat) (hsize : UInt32.ofNat inp.hostSize = n)
    (hbits : inp.MatchesHash (simpleHashDistributor strHash n.toNat hn)) (daemon : ProxyDaemon)
    (bulk : List UInt8) :
    ∃ dist', rpcSrvProxyWrite strHash daemon inp.forProxy bulk =
      some (⟨(rpcSrvWrite daemon.storage inp bulk).1, dist'⟩,
        (rpcSrvWrite daemon.storage inp bulk).2) := by
  obtain ⟨dist', htasks⟩ := proxyAssignChunks_eq hn hsize hbits daemon.dist bulk.length
  refine ⟨dist', ?_⟩
  rw [rpcSrvProxyWrite, htasks, rpcSrvWrite, Option.map_some]
  dsimp only
  rw [show inp.forProxy.totalChunkSize = inp.totalChunkSize from rfl]
  cases pullTasks bulk (assignChunks inp bulk.length).1
    (List.replicate inp.totalChunkSize 0) <;> rfl

/-- The read handlers do the same for such requests, if the client's is answered. -/
theorem rpcSrvProxyRead_eq (hn : 0 < n.toNat) (hsize : UInt32.ofNat inp.hostSize = n)
    (hbits : inp.MatchesHash (simpleHashDistributor strHash n.toNat hn)) (daemon : ProxyDaemon)
    {buf buf' : List UInt8} {out : DataOut}
    (hread : rpcSrvRead daemon.storage inp buf = (some out, buf')) :
    ∃ dist', rpcSrvProxyRead strHash daemon inp.forProxy buf =
      some (⟨daemon.storage, dist'⟩, out, buf') := by
  obtain ⟨dist', htasks⟩ := proxyAssignChunks_eq hn hsize hbits daemon.dist buf.length
  refine ⟨dist', ?_⟩
  rw [rpcSrvRead] at hread
  split at hread
  · cases hread
  · rw [rpcSrvProxyRead, htasks, Option.map_some]
    cases hread
    rfl

end

end GekkoFS
