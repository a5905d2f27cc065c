import GekkoFS.Client.ForwardData
import GekkoFS.Daemon.ProxyDataHandler

/-!
# Data requests of the proxy

The proxy forwards the reads and writes of its clients to the daemons. Its `forward_write` and
`forward_read` cut the range into chunks like those of a client, without replication and without
bitmaps: a request says how many chunks the daemon has, and the daemon finds out which. The loops of
the two functions fill the same tables, which are a `Proxy.Plan`.

As for a client, the requests are served one after another, and what the network does to the request
to each daemon is a parameter.
-/

namespace GekkoFS

open Function

/-- The daemons, as far as the proxy uses them for data. -/
abbrev ProxyCluster (n : Nat) := Fin n → ProxyDaemon

namespace Proxy

/-! ## The tables -/

/-- The tables of a data request. Source: `target_chnks`, `targets`, `chnk_start_target` and
`chnk_end_target` (`proxy/rpc/forward_data.cpp:51`, `proxy/rpc/forward_data.cpp:211`). -/
structure Plan where
  /-- The chunks of each daemon; there is an entry if the list is not empty. -/
  targetChnks : Nat → List Nat
  /-- The daemons that have a chunk, in the order they were found. -/
  targets : List Nat
  /-- The daemon of the first chunk. -/
  chnkStartTarget : Nat
  /-- The daemon of the last chunk. -/
  chnkEndTarget : Nat

namespace Plan

/-- The tables before the loop. -/
def empty : Plan := ⟨fun _ => [], [], 0, 0⟩

/-- Enter a chunk for a daemon, in a request for the chunks `first` to `last`. Source: the loop
bodies of `forward_write` (`proxy/rpc/forward_data.cpp:60`) and `forward_read`
(`proxy/rpc/forward_data.cpp:220`). -/
def add (first last : Nat) (plan : Plan) (chnkId target : Nat) : Plan where
  targetChnks := update plan.targetChnks target (plan.targetChnks target ++ [chnkId])
  targets := if plan.targetChnks target = [] then plan.targets ++ [target] else plan.targets
  chnkStartTarget := if chnkId = first then target else plan.chnkStartTarget
  chnkEndTarget := if chnkId = last then target else plan.chnkEndTarget

/-- The bytes of the range that go to a daemon. Source: `proxy/rpc/forward_data.cpp:88`,
`proxy/rpc/forward_data.cpp:249`. -/
def totalChunkSize (plan : Plan) (offset size target : Nat) : Nat :=
  let total := u64 ((plan.targetChnks target).length * chunksize)
  let total :=
    if target = plan.chnkStartTarget then sub64 total (blockOverrun offset chunksize) else total
  if target = plan.chnkEndTarget ∧ isAligned (u64 (offset + size)) chunksize = false then
    sub64 total (blockUnderrun (u64 (offset + size)) chunksize)
  else total

/-- The request for a daemon. Source: `proxy/rpc/forward_data.cpp:101`,
`proxy/rpc/forward_data.cpp:262`. -/
def request (plan : Plan) (path : List Char) (offset size hostSize target : Nat) : ProxyDataIn where
  path := path
  offset := blockOverrun offset chunksize
  hostId := target
  hostSize := hostSize
  chunkN := (plan.targetChnks target).length
  chunkStart := chnkStart offset
  chunkEnd := chnkEnd offset size
  totalChunkSize := plan.totalChunkSize offset size target

end Plan

section
variable (strHash : List Char → Nat)

/-- The tables of a request. Source: `proxy/rpc/forward_data.cpp:60`,
`proxy/rpc/forward_data.cpp:220`. -/
def planData (dist : SimpleHashDistributor) (path : List Char) (offset size : Nat) : Option Plan :=
  (chunkIds offset size).foldlM (fun plan chnkId =>
    (dist.locateData strHash path chnkId 0).map
      (plan.add (chnkStart offset) (chnkEnd offset size) chnkId)) .empty

/-- The distributor of a proxy that has connected to `n` daemons. Source: `init_environment`
(`proxy/proxy.cpp:265`). -/
def distributor (n : Nat) : SimpleHashDistributor := .ofSize (UInt32.ofNat n)

variable {n : Nat}

/-! ## Writing -/

/-- Send the write requests: the replies, where a reply that does not arrive is `none`, and the
daemons afterwards. The first request that cannot be posted ends the call. A daemon that the proxy
is not connected to makes it throw. -/
def postWrites (net : Nat → Delivery) (request : Nat → ProxyDataIn) (buf : List UInt8) :
    List Nat → ProxyCluster n → Option (Option (List (Option DataOut)) × ProxyCluster n)
  | [], cl => some (some [], cl)
  | target :: targets, cl =>
    if h : target < n then
      match net target with
      | .notPosted => some (none, cl)
      | .delivered =>
        (rpcSrvProxyWrite strHash (cl ⟨target, h⟩) (request target) buf).bind fun w =>
          (postWrites net request buf targets (update cl ⟨target, h⟩ w.1)).map fun r =>
            (r.1.map (some w.2 :: ·), r.2)
      | .replyLost =>
        (rpcSrvProxyWrite strHash (cl ⟨target, h⟩) (request target) buf).bind fun w =>
          (postWrites net request buf targets (update cl ⟨target, h⟩ w.1)).map fun r =>
            (r.1.map (none :: ·), r.2)
    else none

/-- The reply loop: the error and the size after it. A reply that does not arrive has no size.
Source: `proxy/rpc/forward_data.cpp:151`, `proxy/rpc/forward_data.cpp:314`. -/
def collect : List (Option DataOut) → Nat → Nat → Nat × Nat
  | [], err, outSize => (err, outSize)
  | none :: outs, _, outSize => collect outs EBUSY outSize
  | some out :: outs, err, outSize =>
    if out.err ≠ 0 then collect outs out.err outSize
    else collect outs err (outSize + out.ioSize)

/-- The error code and the size that a call returns, from the replies to its requests. -/
def dataResult : Option (List (Option DataOut)) → Nat × Nat
  | none => (EBUSY, 0)
  | some outs => collect outs 0 0

/-- Write a buffer at a file offset: the error code and the size written, and the daemons
afterwards. Source: `forward_write` (`proxy/rpc/forward_data.cpp:28`). -/
def forwardWrite (net : Nat → Delivery) (cl : ProxyCluster n) (path : List Char)
    (buf : List UInt8) (offset : Nat) : Option ((Nat × Nat) × ProxyCluster n) :=
  (planData strHash (distributor n) path offset buf.length).bind fun plan =>
    (postWrites strHash net (plan.request path offset buf.length n) buf plan.targets cl).map
      fun r => (dataResult r.1, r.2)

/-! ## Reading -/

/-- Send the read requests: the replies, the caller's buffer and the daemons afterwards. -/
def postReads (net : Nat → Delivery) (request : Nat → ProxyDataIn) :
    List Nat → ProxyCluster n → List UInt8 →
      Option (Option (List (Option DataOut)) × ProxyCluster n × List UInt8)
  | [], cl, buf => some (some [], cl, buf)
  | target :: targets, cl, buf =>
    if h : target < n then
      match net target with
      | .notPosted => some (none, cl, buf)
      | .delivered =>
        (rpcSrvProxyRead strHash (cl ⟨target, h⟩) (request target) buf).bind fun w =>
          (postReads net request targets (update cl ⟨target, h⟩ w.1) w.2.2).map fun r =>
            (r.1.map (some w.2.1 :: ·), r.2)
      | .replyLost =>
        (rpcSrvProxyRead strHash (cl ⟨target, h⟩) (request target) buf).bind fun w =>
          (postReads net request targets (update cl ⟨target, h⟩ w.1) w.2.2).map fun r =>
            (r.1.map (none :: ·), r.2)
    else none

/-- Read into a buffer from a file offset: the error code and the size read, the daemons and the
buffer afterwards. Source: `forward_read` (`proxy/rpc/forward_data.cpp:185`). -/
def forwardRead (net : Nat → Delivery) (cl : ProxyCluster n) (path : List Char)
    (buf : List UInt8) (offset : Nat) : Option ((Nat × Nat) × ProxyCluster n × List UInt8) :=
  (planData strHash (distributor n) path offset buf.length).bind fun plan =>
    (postReads strHash net (plan.request path offset buf.length n) plan.targets cl buf).map
      fun r => (dataResult r.1, r.2)

end

end Proxy

end GekkoFS
