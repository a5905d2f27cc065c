import GekkoFS.Client.DataPlan

/-!
# The client side of data requests

`forward_write` and `forward_read` send the requests of a `DataPlan` and collect the replies. If
every request is served, a write returns its size (`forwardWrite_fst`) and leaves each piece in the
chunk file of its daemon (`file?_forwardWrite_entered`), and a read puts what the daemons find into
the caller's buffer (`forwardRead_delivered`).

The requests go to different daemons, so they are served one after another here. What the network
does to the request to each daemon is a parameter.
-/

namespace GekkoFS

open Blocks Bytes Function
open List hiding count

/-- The chunk storages of the daemons. -/
abbrev Cluster (n : Nat) := Fin n → ChunkStorage

section
variable {n : Nat} {offset : Nat} {plan : DataPlan n} {buf : List UInt8}

/-! ## Writing -/

/-- Send the write requests: the replies, where a reply that does not arrive is `none`, and the
storages afterwards. Without replication the first request that cannot be posted ends the call. -/
def postWrites (net : Fin n → Delivery) (numCopies : Int) (request : Fin n → DataIn)
    (buf : List UInt8) : List (Fin n) → Cluster n → Option (List (Option DataOut)) × Cluster n
  | [], cl => (some [], cl)
  | target :: targets, cl =>
    match net target with
    | .notPosted =>
      if numCopies = 0 then (none, cl) else postWrites net numCopies request buf targets cl
    | .delivered =>
      let w := rpcSrvWrite (cl target) (request target) buf
      let r := postWrites net numCopies request buf targets (update cl target w.1)
      (r.1.map (some w.2 :: ·), r.2)
    | .replyLost =>
      let w := rpcSrvWrite (cl target) (request target) buf
      let r := postWrites net numCopies request buf targets (update cl target w.1)
      (r.1.map (none :: ·), r.2)

/-- The reply loop of `forward_write`: the error and the size after it. -/
def collectWrites : List (Option DataOut) → Nat → Nat → Nat × Nat
  | [], err, outSize => (err, outSize)
  | none :: outs, _, outSize => collectWrites outs EIO outSize
  | some out :: outs, err, outSize =>
    if out.err ≠ 0 then collectWrites outs out.err outSize
    else collectWrites outs err (outSize + out.ioSize)

/-- The error code and the size that `forward_write` returns, from the replies to its requests.
With replication the size is that of the buffer. -/
def writeResult (numCopies : Int) (writeSize : Nat) : Option (List (Option DataOut)) → Nat × Nat
  | none => (EBUSY, 0)
  | some outs =>
    let r := collectWrites outs 0 0
    if r.1 ≠ 0 then (r.1, 0) else (0, if numCopies = 0 then r.2 else writeSize)

/-- Write a buffer at a file offset: the error code and the size written, and the storages
afterwards. Source: `forward_write` (`client/rpc/forward_data.cpp:63`). -/
def forwardWrite (d : Distributor n) (net : Fin n → Delivery) (cl : Cluster n) (path : List Char)
    (buf : List UInt8) (offset numCopies : Nat) : (Nat × Nat) × Cluster n :=
  let plan := planWrite d path offset buf.length numCopies
  let posted := postWrites net (int8 numCopies) (plan.request path offset buf.length) buf
    plan.targets cl
  (writeResult (int8 numCopies) buf.length posted.1, posted.2)

/-! ## Reading -/

/-- Select another copy while the daemon is known to have failed. `draws` are the values that
`rand` returns; the loop has not ended when they are used up.
Source: `forward_read` (`client/rpc/forward_data.cpp:333`). -/
def reselect (d : Distributor n) (path : List Char) (chnkId numCopies : Nat) (failed : Finset Int) :
    List Nat → Fin n → Option (Fin n)
  | [], target => if int8 target ∈ failed then none else some target
  | draw :: draws, target =>
    if int8 target ∈ failed then
      reselect d path chnkId numCopies failed draws (d.locateData path chnkId (draw % numCopies))
    else some target

/-- The daemon a chunk is read from. -/
def readTarget (d : Distributor n) (path : List Char) (numCopies : Nat) (failed : Finset Int)
    (draws : Nat → List Nat) (chnkId : Nat) : Option (Fin n) :=
  if 0 < numCopies then
    reselect d path chnkId numCopies failed (draws chnkId) (d.locateData path chnkId 0)
  else some (d.locateData path chnkId 0)

/-- Send the read requests: the replies, where a reply that does not arrive is `none`, and the
caller's buffer afterwards. The first request that cannot be posted ends the call. -/
def postReads (net : Fin n → Delivery) (cl : Cluster n) (request : Fin n → DataIn) :
    List (Fin n) → List UInt8 → Option (List (Option DataOut)) × List UInt8
  | [], buf => (some [], buf)
  | target :: targets, buf =>
    match net target with
    | .notPosted => (none, buf)
    | .delivered =>
      let w := rpcSrvRead (cl target) (request target) buf
      let r := postReads net cl request targets w.2
      (r.1.map (w.1 :: ·), r.2)
    | .replyLost =>
      let w := rpcSrvRead (cl target) (request target) buf
      let r := postReads net cl request targets w.2
      (r.1.map (none :: ·), r.2)

/-- The reply loop of `forward_read`: the error, the size and the failed daemons after it. The size
of a reply is added even if it reports an error. -/
def collectReads : List (Fin n) → List (Option DataOut) → Nat → Nat → Finset Int →
    Nat × Nat × Finset Int
  | target :: targets, none :: outs, _, outSize, failed =>
    collectReads targets outs EIO outSize (insert (int8 target) failed)
  | _ :: targets, some out :: outs, err, outSize, failed =>
    collectReads targets outs (if out.err ≠ 0 then out.err else err) (outSize + out.ioSize) failed
  | _, _, err, outSize, failed => (err, outSize, failed)

/-- What `forward_read` returns and leaves behind. -/
structure ReadResult where
  /-- The error code and the size read. -/
  result : Nat × Nat
  /-- The caller's buffer. -/
  buf : List UInt8
  /-- The daemons known to have failed. -/
  failed : Finset Int

/-- The error code and the size that `forward_read` returns, and the failed daemons, from the
replies to its requests. -/
def readResult (targets : List (Fin n)) (failed : Finset Int) :
    Option (List (Option DataOut)) → (Nat × Nat) × Finset Int
  | none => ((EBUSY, 0), failed)
  | some outs =>
    let r := collectReads targets outs 0 0 failed
    (if r.1 ≠ 0 then (r.1, 0) else (0, r.2.1), r.2.2)

/-- Read into a buffer from the daemons selected for the chunks. -/
def readSelected (net : Fin n → Delivery) (cl : Cluster n) (path : List Char) (buf : List UInt8)
    (offset : Nat) (failed : Finset Int) (selected : List (Nat × Fin n)) : ReadResult :=
  let plan := planRead offset buf.length selected
  let posted := postReads net cl (plan.request path offset buf.length) plan.targets buf
  let r := readResult plan.targets failed posted.1
  ⟨r.1, posted.2, r.2⟩

/-- Read into a buffer from a file offset. The call does not return if the selection of a copy does
not end with the values drawn. Source: `forward_read` (`client/rpc/forward_data.cpp:301`). -/
def forwardRead (d : Distributor n) (net : Fin n → Delivery) (cl : Cluster n) (path : List Char)
    (buf : List UInt8) (offset numCopies : Nat) (failed : Finset Int) (draws : Nat → List Nat) :
    Option ReadResult :=
  ((chunkIds offset buf.length).mapM fun chnkId =>
    (readTarget d path numCopies failed draws chnkId).map (chnkId, ·)).map
      (readSelected net cl path buf offset failed)

/-! ## When every request is served -/

/-- Writes that are all delivered act on the storage of each target once. -/
theorem postWrites_delivered (numCopies : Int) (request : Fin n → DataIn) (buf : List UInt8) :
    ∀ {targets : List (Fin n)} (cl : Cluster n), targets.Nodup →
      postWrites (fun _ => .delivered) numCopies request buf targets cl =
        (some (targets.map fun t => some (rpcSrvWrite (cl t) (request t) buf).2),
          fun t => if t ∈ targets then (rpcSrvWrite (cl t) (request t) buf).1 else cl t)
  | [], cl, _ => by simp [postWrites]
  | target :: targets, cl, h => by
    rw [nodup_cons] at h
    have hne : ∀ t ∈ targets, t ≠ target := fun t ht e => h.1 (e ▸ ht)
    simp only [postWrites, postWrites_delivered numCopies request buf _ h.2, Option.map_some,
      map_cons, Prod.mk.injEq, Option.some.injEq, List.cons.injEq, true_and]
    refine ⟨map_congr_left fun t ht => ?_, funext fun t => ?_⟩
    · rw [update_of_ne (hne t ht)]
    · by_cases ht : t = target
      · subst ht; simp [h.1]
      · simp [ht]

/-- Replies without an error add their sizes up. -/
theorem collectWrites_ok : ∀ (sizes : List Nat) (outSize : Nat),
    collectWrites (sizes.map fun k => some ⟨0, k⟩) 0 outSize = (0, outSize + sizes.sum)
  | [], outSize => rfl
  | k :: sizes, outSize => by
    rw [map_cons, collectWrites, if_neg (by simp), collectWrites_ok, sum_cons,
      Nat.add_assoc]

section
variable {d : Distributor n} {path : List Char} {buf : List UInt8} {offset numCopies : Nat}
  {plan : DataPlan n} {pairs : List (Nat × Fin n)}

/-- Each target of a plan serves the request for its chunks, and replies with the bytes that went to
it. -/
theorem postWrites_recorded (copies : Int) (cl : Cluster n)
    (h : plan.RecordsRange offset buf.length pairs)
    (ho : offset < 2 ^ 63) (hs : 0 < buf.length) (hs' : buf.length < 2 ^ 34) :
    postWrites (fun _ => .delivered) copies (plan.request path offset buf.length) buf
        plan.targets cl =
      (some ((plan.targets.map (plan.totalChunkSize offset buf.length)).map fun k => some ⟨0, k⟩),
        fun t => if t ∈ plan.targets then
          (rpcSrvWrite (cl t) (plan.request path offset buf.length t) buf).1 else cl t) := by
  rw [postWrites_delivered copies _ buf cl h.nodup, map_map]
  refine Prod.ext (congrArg some (map_congr_left fun t ht => ?_)) rfl
  rw [(rpcSrvWrite_spec (h.selects_small ho hs hs' path ht) (cl t)).1,
    DataPlan.request_totalChunkSize, comp_apply]

/-- A write that is served by all its daemons returns the bytes that went to them, or with
replication its size. -/
theorem forwardWrite_recorded (cl : Cluster n)
    (hp : planWrite d path offset buf.length numCopies = plan)
    (h : plan.RecordsRange offset buf.length pairs) (ho : offset < 2 ^ 63) (hs : 0 < buf.length)
    (hs' : buf.length < 2 ^ 34) :
    forwardWrite d (fun _ => .delivered) cl path buf offset numCopies =
      ((0, if int8 numCopies = 0 then
          (plan.targets.map (plan.totalChunkSize offset buf.length)).sum else buf.length),
        fun t => if t ∈ plan.targets then
          (rpcSrvWrite (cl t) (plan.request path offset buf.length t) buf).1 else cl t) := by
  rw [forwardWrite, hp]
  simp only [postWrites_recorded _ cl h ho hs hs', writeResult, collectWrites_ok, Nat.zero_add,
    ne_eq, not_true_eq_false, if_false]

/-- A write without replication that is served by all its daemons returns its size. -/
theorem forwardWrite_fst (d : Distributor n) (path : List Char) (cl : Cluster n)
    (ho : offset < 2 ^ 63) (hs : 0 < buf.length) (hs' : buf.length < 2 ^ 34) :
    (forwardWrite d (fun _ => .delivered) cl path buf offset 0).1 = (0, buf.length) := by
  have hplan := planWrite_recordsOwner d path ho hs hs'
  have hw := congrArg Prod.fst (forwardWrite_recorded cl rfl hplan.recordsRange ho hs hs')
  rwa [if_pos int8_zero, hplan.sum_totalChunkSize ho hs (hs'.trans (by decide))] at hw

/-- After a write, the chunk file of a piece holds the piece over what it held before, on every
daemon that the chunk is entered for. -/
theorem file?_forwardWrite_entered (cl : Cluster n)
    (hp : planWrite d path offset buf.length numCopies = plan)
    (h : plan.RecordsRange offset buf.length pairs) (ho : offset < 2 ^ 63) (hs : 0 < buf.length)
    (hs' : buf.length < 2 ^ 34) {j : Nat} {t : Fin n}
    (hj : j ∈ enteredPieces offset buf.length pairs t) :
    ((forwardWrite d (fun _ => .delivered) cl path buf offset numCopies).2 t).file? path
        (chnkStart offset + j) =
      some (overwrite 0 (((cl t).file? path (chnkStart offset + j)).getD [])
        (fileOff (offset % chunksize) j)
        (slice buf (lo chunksize (offset % chunksize) j)
          (len chunksize (offset % chunksize) buf.length j))) := by
  have ht : t ∈ plan.targets :=
    (h.mem_targets_iff ho hs (hs'.trans (by decide))).2 (ne_nil_of_mem hj)
  have hspec := (rpcSrvWrite_spec (h.selects_small ho hs hs' path ht) (cl t)).2.1 j
  rw [DataPlan.request_offset, DataPlan.request_chunkStart, DataPlan.request_path] at hspec
  rw [forwardWrite_recorded cl hp h ho hs hs']
  simp only [if_pos ht]
  exact hspec hj

/-- A write changes the chunk files that are entered for a daemon only. -/
theorem file?_forwardWrite_not_entered (cl : Cluster n)
    (hp : planWrite d path offset buf.length numCopies = plan)
    (h : plan.RecordsRange offset buf.length pairs) (ho : offset < 2 ^ 63) (hs : 0 < buf.length)
    (hs' : buf.length < 2 ^ 34) {id : Nat} {t : Fin n} (hid : (id, t) ∉ pairs) :
    ((forwardWrite d (fun _ => .delivered) cl path buf offset numCopies).2 t).file? path id =
      (cl t).file? path id := by
  rw [forwardWrite_recorded cl hp h ho hs hs']
  by_cases ht : t ∈ plan.targets
  · have hspec := (rpcSrvWrite_spec (h.selects_small ho hs hs' path ht) (cl t)).2.2 id
    rw [DataPlan.request_offset, DataPlan.request_chunkStart, DataPlan.request_path] at hspec
    simp only [if_pos ht]
    refine hspec fun j hj he => hid ?_
    rw [he]
    exact (h.mem_iff ho hs (hs'.trans (by decide)) j).2 hj
  · simp only [if_neg ht]

end

/-- Reads that are all delivered and answered put the bytes of every target into the caller's
buffer, one target after another. -/
theorem postReads_delivered {cl : Cluster n} {request : Fin n → DataIn} {size : Fin n → Nat}
    {bytes : Fin n → List (Nat × List UInt8)} {S : Nat} :
    ∀ {targets : List (Fin n)} {buf : List UInt8}, buf.length = S →
      (∀ t ∈ targets, ∀ b : List UInt8, b.length = S →
        rpcSrvRead (cl t) (request t) b = (some ⟨0, size t⟩, spliceAll b (bytes t)) ∧
          (spliceAll b (bytes t)).length = S) →
      postReads (fun _ => .delivered) cl request targets buf =
        (some (targets.map fun t => some ⟨0, size t⟩),
          spliceAll buf (targets.flatMap bytes))
  | [], buf, _, _ => rfl
  | target :: targets, buf, hb, h => by
    obtain ⟨h₁, h₂⟩ := h target (by simp) buf hb
    have htail : ∀ t ∈ targets, t ∈ target :: targets := fun t ht => by simp [ht]
    have ih := postReads_delivered h₂ fun t ht => h t (htail t ht)
    simp only [postReads, h₁, ih, Option.map_some, map_cons, flatMap_cons,
      spliceAll_append]

/-- Replies without an error add their sizes up, and no daemon is recorded as failed. -/
theorem collectReads_ok (failed : Finset Int) : ∀ (targets : List (Fin n)) (size : Fin n → Nat)
    (outSize : Nat),
    collectReads targets (targets.map fun t => some ⟨0, size t⟩) 0 outSize failed =
      (0, outSize + (targets.map size).sum, failed)
  | [], size, outSize => rfl
  | t :: targets, size, outSize => by
    simp only [map_cons, collectReads, ne_eq, not_true_eq_false, if_false,
      collectReads_ok failed targets size, sum_cons, Nat.add_assoc]

/-- What the daemon `t` finds of a range, with the place of each piece in the caller's buffer. -/
def readBytes (cl : Cluster n) (path : List Char) (offset size : Nat) (owner : Nat → Fin n)
    (t : Fin n) : List (Nat × List UInt8) :=
  (ownedPieces offset size owner t).map fun j => (lo chunksize (offset % chunksize) j,
    pieceBytes (cl t) path (chnkStart offset) (offset % chunksize) size j)

/-- What a daemon finds of a range stays inside the caller's buffer. -/
theorem readBytes_le (cl : Cluster n) (path : List Char) {size : Nat} (hs : 0 < size)
    (owner : Nat → Fin n) (t : Fin n) :
    ∀ p ∈ readBytes cl path offset size owner t, p.1 + p.2.length ≤ size := by
  intro p hp
  obtain ⟨j, hj, rfl⟩ := mem_map.1 hp
  have hlt := lo_lt_hi chunksize_pos hs (Nat.mod_lt offset chunksize_pos)
    (mem_range.1 (mem_filter.1 hj).1)
  have hle := hi_le chunksize (offset % chunksize) size j
  simp only [pieceBytes, slice_length, len]
  omega

/-- A daemon of a plan puts what it finds of the range into the caller's buffer. -/
theorem DataPlan.RecordsOwner.rpcSrvRead_eq
    {owner : Nat → Fin n} (h : plan.RecordsOwner offset buf.length owner) (ho : offset < 2 ^ 63)
    (hs : 0 < buf.length) (hs' : buf.length < 2 ^ 62)
    (hw : ∀ t, PerWindow offset buf.length fun j => owner (chnkStart offset + j) = t)
    (cl : Cluster n) (path : List Char) {t : Fin n} (ht : t ∈ plan.targets) :
    rpcSrvRead (cl t) (plan.request path offset buf.length t) buf =
      (some ⟨0, ((readBytes cl path offset buf.length owner t).map fun p => p.2.length).sum⟩,
        spliceAll buf (readBytes cl path offset buf.length owner t)) := by
  have hne := h.ownedPieces_ne_nil ho hs hs' ht
  rw [ownedPieces, ← plan.request_offset path offset buf.length t] at hne
  have hread := rpcSrvRead_spec (h.selects ho hs hs' path ht (hw t)) hne (cl t)
  rw [request_offset, request_chunkStart, request_path, ← ownedPieces] at hread
  rw [hread, readBytes, map_map]
  rfl

/-- The daemons of a plan put what they find of the range into the caller's buffer, and reply with
how many bytes that is. -/
theorem DataPlan.RecordsOwner.postReads_eq
    {owner : Nat → Fin n} (h : plan.RecordsOwner offset buf.length owner) (ho : offset < 2 ^ 63)
    (hs : 0 < buf.length) (hs' : buf.length < 2 ^ 62)
    (hw : ∀ t, PerWindow offset buf.length fun j => owner (chnkStart offset + j) = t)
    (cl : Cluster n) (path : List Char) :
    postReads (fun _ => .delivered) cl (plan.request path offset buf.length) plan.targets buf =
      (some (plan.targets.map fun t =>
          some ⟨0, ((readBytes cl path offset buf.length owner t).map fun p => p.2.length).sum⟩),
        spliceAll buf (plan.targets.flatMap
          (readBytes cl path offset buf.length owner))) := by
  refine postReads_delivered rfl fun t ht b hb => ?_
  rw [← hb] at h hs hs' hw ⊢
  exact ⟨h.rpcSrvRead_eq ho hs hs' hw cl path ht,
    spliceAll_length (readBytes_le cl path hs _ t)⟩

/-- Without replication, a chunk is read from its daemon. -/
theorem mapM_readTarget_zero (d : Distributor n) (path : List Char) (failed : Finset Int)
    (draws : Nat → List Nat) (ids : List Nat) :
    (ids.mapM fun chnkId => (readTarget d path 0 failed draws chnkId).map (chnkId, ·)) =
      some (ids.map fun chnkId => (chnkId, d.locateData path chnkId 0)) := by
  simp only [readTarget, Nat.lt_irrefl, if_false, Option.map_some]
  exact mapM_pure

/-- A read without replication that is served by all its daemons puts what they find of the range
into the caller's buffer, and returns how many bytes that is, if the bitmaps tell the daemons their
chunks. -/
theorem forwardRead_delivered (d : Distributor n) (cl : Cluster n) (path : List Char)
    (hp : planRead offset buf.length ((chunkIds offset buf.length).map fun chnkId =>
      (chnkId, d.locateData path chnkId 0)) = plan)
    (ho : offset < 2 ^ 63) (hs : 0 < buf.length) (hs' : buf.length < 2 ^ 62)
    (hw : ∀ t, PerWindow offset buf.length fun j => d.locateData path (chnkStart offset + j) 0 = t)
    (failed : Finset Int) (draws : Nat → List Nat) :
    forwardRead d (fun _ => .delivered) cl path buf offset 0 failed draws =
      some ⟨(0, (plan.targets.map fun t => ((readBytes cl path offset buf.length
          (d.locateData path · 0) t).map fun p => p.2.length).sum).sum),
        spliceAll buf (plan.targets.flatMap
          (readBytes cl path offset buf.length (d.locateData path · 0))), failed⟩ := by
  have hplan := planRead_recordsOwner (d.locateData path · 0) offset buf.length
  rw [hp] at hplan
  rw [forwardRead, mapM_readTarget_zero, Option.map_some, readSelected, hp]
  simp only [hplan.postReads_eq ho hs hs' hw cl path, readResult, collectReads_ok, Nat.zero_add,
    ne_eq, not_true_eq_false, if_false]

end

end GekkoFS
