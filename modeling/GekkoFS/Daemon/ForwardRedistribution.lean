import GekkoFS.Daemon.ConnectToHosts
import GekkoFS.Daemon.DataHandler
import GekkoFS.Daemon.MetadataReadable

/-!
# Forwarding an entry or a chunk to another daemon

During an expansion a daemon sends the metadata entries and chunk files that belong to another
daemon there: an entry as the text that the iterator of the metadata store yields, which the
destination queues as a creation, and a chunk file as a write request for that one chunk. The
request goes to the endpoint that the sender's table has for the destination, and what is sent as
the bitmap of a chunk is the text at a pointer into a string that is gone by then.

An entry that arrives at a daemon without it, or with the same one, is there afterwards with its
text (`Cell.value?_put`), and the bytes of a chunk file that arrives are written into the chunk file
at the destination (`rpcSrvWrite_migrateRequest`).
-/

namespace GekkoFS

open Bytes Function List

/-! ## The requests -/

/-- Source: `rpc_srv_migrate_metadata` (`srv_malleability.cpp:113`). -/
def rpcSrvMigrateMetadata (st : MetadataDaemon) (key value : List Char) : Int × MetadataDaemon :=
  (0, st.putImpl key value)

section
variable {n : Nat} (cl : DaemonCluster n)

/-- What becomes of a request to a daemon that answers with an error code, and is changed. -/
def deliver (endp : Fin n) (served : Int × MetadataDaemon) : Delivery → Int × DaemonCluster n
  | .notPosted => (EBUSY, cl)
  | .delivered => (served.1, update cl endp served.2)
  | .replyLost => (EBUSY, update cl endp served.2)

/-- The error code of a forwarded entry, and the daemons afterwards; `at` throws if there is no
endpoint. A destination that fails to store the entry answers with an error, which to the sender is
like a request that cannot be posted. Source: `forward_metadata`
(`forward_redistribution.cpp:37`). -/
def forwardMetadata (endpoints : Endpoints (Fin n)) (key value : List Char) (destId : Fin n)
    (link : Delivery) : Option (Int × DaemonCluster n) :=
  (endpoints destId).map fun endp =>
    deliver cl endp (rpcSrvMigrateMetadata (cl endp) key value) link

/-- The write request for a whole chunk file. The bitmap is the text that is found where the
temporary string `compress_bitset(write_ops_vect)` was. Source: `forward_data`
(`forward_redistribution.cpp:84`). -/
def migrateRequest (path wbitset : List Char) (count chnkId : Nat) (destId : Fin n) : DataIn where
  path := path
  offset := 0
  hostId := destId
  hostSize := n
  wbitset := wbitset
  chunkN := 1
  chunkStart := chnkId
  chunkEnd := chnkId
  totalChunkSize := count

/-- The error code of a forwarded chunk, and the daemons afterwards; the number of bytes in the
answer is not looked at. Source: `forward_data` (`forward_redistribution.cpp:84`). -/
def forwardData (endpoints : Endpoints (Fin n)) (path wbitset : List Char) (buf : List UInt8)
    (chnkId : Nat) (destId : Fin n) (link : Delivery) : Option (Int × DaemonCluster n) :=
  (endpoints destId).map fun endp =>
    let r := rpcSrvWrite (cl endp).storage (migrateRequest path wbitset buf.length chnkId destId)
      buf
    deliver cl endp (r.2.err, { cl endp with storage := r.1 }) link

end

/-! ## The entry at the destination -/

/-- The value of a key, if it is there and can be read. -/
def Cell.value? (cfg : MetadataConfig) (c : Cell) : Option (List Char) := (c.get cfg).2.toOption

theorem Cell.value?_nil (cfg : MetadataConfig) (base : Option (List Char)) :
    Cell.value? cfg ⟨base, []⟩ = base := by
  cases base <;> rfl

theorem Cell.value?_cons (cfg : MetadataConfig) (base : Option (List Char)) (op : List Char)
    (ops : List (List Char)) :
    Cell.value? cfg ⟨base, op :: ops⟩ = (fullMergeV2 cfg base (op :: ops)).2 := by
  rw [value?, get]
  dsimp only
  split
  · next h => rw [h]; rfl
  · next h => rw [h]; rfl

section
variable {cfg : MetadataConfig} {md : Metadata} {ops : List MergeOperand} {c : Cell}

theorem value?_stored (h : QueueOk md ops) :
    Cell.value? cfg ⟨some (md.serialize cfg), ops.map MergeOperand.serialize⟩ =
      some ((MergeOperand.applyAll (startOf cfg md) ops).newValue cfg) := by
  cases ops with
  | nil => exact (Cell.value?_nil cfg _).trans (congrArg some (md.serialize_kept cfg).symm)
  | cons op ops =>
    rw [map_cons, Cell.value?_cons, ← map_cons, fullMergeV2_stored h]

theorem value?_created (h : QueueOk md ops) :
    Cell.value? cfg ⟨none, (MergeOperand.create (md.serialize cfg)).serialize ::
        ops.map MergeOperand.serialize⟩ =
      some ((MergeOperand.applyAll (startOf cfg md) ops).newValue cfg) := by
  rw [Cell.value?_cons, fullMergeV2_created h]

/-- The entry that queued operands lead to is storable. -/
theorem QueueOk.storable (h : QueueOk md ops) (cfg : MetadataConfig) :
    (MergeOperand.applyAll (startOf cfg md) ops).entry.Storable := by
  simpa using (h.drop cfg ops.length).entry

/-- A key that is there can be read, and has the text of a storable entry. -/
def Cell.Readable (cfg : MetadataConfig) (c : Cell) : Prop :=
  c ≠ Cell.empty → ∃ md : Metadata, md.Storable ∧ c.value? cfg = some (md.serialize cfg)

/-- The keys of a daemon whose size updates all find their path are readable. -/
theorem CellOk.readable (h : CellOk cfg c) : c.Readable cfg := by
  intro hne
  cases h with
  | empty => exact absurd rfl hne
  | stored md ops hq => exact ⟨_, hq.storable cfg, value?_stored hq⟩
  | created md ops hq => exact ⟨_, hq.storable cfg, value?_created hq⟩

/-- A merge with an operand that creates what is there already. -/
theorem fullMergeV2_concat_create {base : Option (List Char)} {operands : List (List Char)}
    {value : List Char} (h : (fullMergeV2 cfg base operands).2 = some value) (text : List Char) :
    (fullMergeV2 cfg base (operands ++ [(MergeOperand.create text).serialize])).2 =
      some value := by
  rw [fullMergeV2] at h ⊢
  cases hbegin : mergeBegin cfg base operands with
  | none => rw [hbegin] at h; cases h
  | some r =>
    obtain ⟨m, rest⟩ := r
    rw [hbegin] at h
    obtain ⟨m', hm', hvalue⟩ := Option.map_eq_some_iff.1 h
    rw [mergeBegin_append hbegin]
    simp only [mergeLoop_append hm', mergeLoop,
      applyOperand_serialize m' (.create text) trivial, MergeOperand.apply, Option.map_some, hvalue]

/-- A creation of an entry does not change the key if the entry is already there. -/
theorem Cell.value?_merge_create (hmd : md.Storable) (text : List Char)
    (h : c.value? cfg = some (md.serialize cfg)) :
    (c.merge (MergeOperand.create text).serialize).value? cfg = some (md.serialize cfg) := by
  obtain ⟨base, operands⟩ := c
  cases operands with
  | nil =>
    rw [value?_nil] at h
    subst h
    have hq : QueueOk md [.create text] := (QueueOk.nil hmd).concat trivial hmd.size
    exact (value?_stored hq).trans (congrArg some (md.serialize_kept cfg))
  | cons op ops =>
    rw [value?_cons] at h
    exact (value?_cons cfg base op _).trans (fullMergeV2_concat_create h text)

/-- An entry that arrives where it is missing, or where it is already, is there afterwards. -/
theorem Cell.value?_put (hmd : md.Storable)
    (hc : c = Cell.empty ∨ c.value? cfg = some (md.serialize cfg)) :
    (c.merge (MergeOperand.create (md.serialize cfg)).serialize).value? cfg =
      some (md.serialize cfg) := by
  rcases hc with rfl | hc
  · exact (value?_created (QueueOk.nil hmd)).trans (congrArg some (md.serialize_kept cfg))
  · exact value?_merge_create hmd _ hc

end

/-! ## The chunk at the destination -/

namespace ChunkStorage

/-- What a write of a whole file does to the files: the bytes are written over what the file
held. -/
theorem chunkFile?_writeChunk (st : ChunkStorage) (filePath : List Char) (chunkId : Nat)
    (buf : List UInt8) (dir : List Char) (id' : Nat) :
    (st.writeChunk filePath chunkId buf 0).1.chunkFile? dir id' =
      if dir = getChunksDir filePath ∧ id' = chunkId then
        some (overwrite 0 ((st.chunkFile? dir id').getD []) 0 buf)
      else st.chunkFile? dir id' := by
  by_cases hdir : dir = getChunksDir filePath
  · subst hdir
    by_cases hid : id' = chunkId
    · subst hid
      rw [if_pos ⟨rfl, rfl⟩]
      exact file?_writeChunk_self st filePath id' buf 0
    · rw [if_neg fun h => hid h.2]
      exact file?_writeChunk_ne st filePath buf 0 hid
  · rw [if_neg fun h => hdir h.1]
    exact chunkFile?_writeChunk_ne_dir st chunkId id' buf 0 hdir

end ChunkStorage

/-- The bitmap that `forward_data` computes for a chunk. -/
def oneChunkBitset : List Char := compressBitset [1]

/-- The handler finds one task for a forwarded chunk, which covers the whole buffer. -/
theorem assignChunks_migrateRequest {n : Nat} (path : List Char) (count chnkId : Nat)
    (destId : Fin n) :
    (assignChunks (migrateRequest path oneChunkBitset count chnkId destId) count).1 =
      [⟨chnkId, count, 0, 0, 0, 0⟩] := by
  have hbit : getBitset (decompressBitset oneChunkBitset) 0 = true := by decide
  have hself : sub64 count count = 0 := by
    rw [sub64, Nat.add_sub_cancel_left]
    decide
  simp only [assignChunks, migrateRequest, Nat.add_sub_cancel_left, range'_one, assignLoop,
    hbit, assignChunk, Nat.lt_irrefl, and_false, if_false, if_true, Nat.lt_one_iff, hself,
    Nat.sub_self, Nat.zero_mul, u64, Nat.zero_mod]

/-- The destination writes the bytes of a forwarded chunk into its chunk file. -/
theorem rpcSrvWrite_migrateRequest {n : Nat} (st : ChunkStorage) (path : List Char)
    (buf : List UInt8) (chnkId : Nat) (destId : Fin n) :
    rpcSrvWrite st (migrateRequest path oneChunkBitset buf.length chnkId destId) buf =
      ((st.writeChunk path chnkId buf 0).1, ⟨0, buf.length⟩) := by
  have hslice : slice buf 0 buf.length = buf := by
    rw [slice, drop_zero, take_length]
  have hsplice : splice (List.replicate buf.length 0) 0 buf = buf := by
    simp [splice]
  have hpull : pullTasks buf [⟨chnkId, buf.length, 0, 0, 0, 0⟩]
      (List.replicate buf.length 0) = some buf := by
    simp only [pullTasks, bulkTransfer, Nat.zero_add, length_replicate, le_refl, and_self,
      if_true, hslice, hsplice]
  have htotal : (migrateRequest path oneChunkBitset buf.length chnkId destId).totalChunkSize =
      buf.length := rfl
  simp only [rpcSrvWrite, assignChunks_migrateRequest, htotal, hpull, writeTasks, hslice]
  have hwait := waitForTasks_ok [buf.length]
  rw [map_singleton, sum_singleton] at hwait
  refine Prod.ext rfl ?_
  exact congrArg (fun r : Nat × Nat => (⟨r.1, r.2⟩ : DataOut)) hwait

/-! ## Requests that are delivered -/

section
variable {n : Nat} (cl : DaemonCluster n) {endpoints : Endpoints (Fin n)} {destId endp : Fin n}
  (hendp : endpoints destId = some endp)

include hendp

/-- A forwarded entry is queued by the daemon of the endpoint. -/
theorem forwardMetadata_delivered (key value : List Char) :
    forwardMetadata cl endpoints key value destId .delivered =
      some (0, update cl endp ((cl endp).putImpl key value)) := by
  rw [forwardMetadata, hendp]
  rfl

/-- A forwarded chunk with its bitmap is written by the daemon of the endpoint. -/
theorem forwardData_delivered (path : List Char) (buf : List UInt8) (chnkId : Nat) :
    forwardData cl endpoints path oneChunkBitset buf chnkId destId .delivered =
      some (0, update cl endp { cl endp with
        storage := ((cl endp).storage.writeChunk path chnkId buf 0).1 }) := by
  rw [forwardData, hendp, Option.map_some, rpcSrvWrite_migrateRequest]
  rfl

end

end GekkoFS
