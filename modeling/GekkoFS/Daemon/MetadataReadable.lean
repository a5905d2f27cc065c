import GekkoFS.Daemon.MetadataHandler

/-!
# Keys stay readable while size updates find their path

`CellOk` describes the cells of a daemon whose size updates are all for existing paths: a cell is
empty, or it holds a stored entry, or its first operand creates one, and every queued operand is one
that the daemon serializes and leads to a size that can be read back. Such a cell can be read, and
folded at any place, and stays such a cell (`CellOk.fold`); and the requests keep it
(`RunInv.request`), so `readable_of_run` follows for whole runs.
-/

namespace GekkoFS

open List MergeOperand MetadataDaemon

/-! ## Cells that can be read -/

section
variable {cfg : MetadataConfig} {md : Metadata} {ops : List MergeOperand} {c : Cell}

/-- The state in which a merge on a stored entry starts. -/
def startOf (cfg : MetadataConfig) (md : Metadata) : MergeState := ⟨md.kept cfg, md.size⟩

/-- Queued operands that fit their types and lead to sizes below `2 ^ 63` only. -/
structure QueueOk (md : Metadata) (ops : List MergeOperand) : Prop where
  entry : md.Storable
  valid : ∀ op ∈ ops, op.Valid
  sizes : ∀ n, (ops.take n).foldl newSize md.size < 2 ^ 63

/-- A cell that is empty, or holds an entry, or starts with the creation of one. -/
inductive CellOk (cfg : MetadataConfig) : Cell → Prop
  | empty : CellOk cfg Cell.empty
  | stored (md : Metadata) (ops : List MergeOperand) : QueueOk md ops →
      CellOk cfg ⟨some (md.serialize cfg), ops.map serialize⟩
  | created (md : Metadata) (ops : List MergeOperand) : QueueOk md ops →
      CellOk cfg ⟨none, (create (md.serialize cfg)).serialize ::
        ops.map serialize⟩

/-- A merge on a stored entry. -/
theorem fullMergeV2_stored (h : QueueOk md ops) :
    (fullMergeV2 cfg (some (md.serialize cfg)) (ops.map serialize)).2 =
      some ((applyAll (startOf cfg md) ops).newValue cfg) := by
  simp only [fullMergeV2, mergeBegin, Metadata.parse_serialize cfg h.entry, Option.map_some]
  exact congrArg (Option.map _) (mergeLoop_serialize h.valid (startOf cfg md))

/-- A merge on the creation of an entry. -/
theorem fullMergeV2_created (h : QueueOk md ops) :
    (fullMergeV2 cfg none ((create (md.serialize cfg)).serialize ::
        ops.map serialize)).2 =
      some ((applyAll (startOf cfg md) ops).newValue cfg) := by
  simp only [fullMergeV2, mergeBegin, getId_serialize, MergeOperand.id, if_true,
    getParams_serialize, serializeParams,
    Metadata.parse_serialize cfg h.entry, Option.map_some]
  exact congrArg (Option.map _) (mergeLoop_serialize h.valid (startOf cfg md))

theorem QueueOk.nil (h : md.Storable) : QueueOk md [] where
  entry := h
  valid := fun _ hop => (not_mem_nil hop).elim
  sizes := fun n => by simpa using h.size

theorem QueueOk.take (h : QueueOk md ops) (n : Nat) : QueueOk md (ops.take n) where
  entry := h.entry
  valid := fun op hop => h.valid op (mem_of_mem_take hop)
  sizes := fun k => by rw [take_take]; exact h.sizes _

/-- The operands after a place, on the entry that those before it lead to. -/
theorem QueueOk.drop (h : QueueOk md ops) (cfg : MetadataConfig) (n : Nat) :
    QueueOk (applyAll (startOf cfg md) (ops.take n)).entry (ops.drop n) where
  entry := by
    have hstart : (startOf cfg md).entry.Storable := h.entry.kept cfg
    exact entry_applyAll hstart (h.take n).valid (h.take n).sizes
  valid := fun op hop => h.valid op (mem_of_mem_drop hop)
  sizes := fun k => by
    have hsize : (applyAll (startOf cfg md) (ops.take n)).entry.size =
        (ops.take n).foldl newSize md.size :=
      applyAll_fsize (startOf cfg md) (ops.take n)
    rw [hsize, ← foldl_append, ← take_add]
    exact h.sizes _

/-- One more operand. -/
theorem QueueOk.concat (h : QueueOk md ops) {op : MergeOperand} (hop : op.Valid)
    (hsize : op.newSize (ops.foldl newSize md.size) < 2 ^ 63) :
    QueueOk md (ops ++ [op]) where
  entry := h.entry
  valid := fun o ho => by
    rcases mem_append.1 ho with ho | ho
    · exact h.valid o ho
    · rw [mem_singleton.1 ho]; exact hop
  sizes := fun n => by
    by_cases hn : n ≤ ops.length
    · rw [take_append_of_le_length hn]; exact h.sizes n
    · rw [take_of_length_le (by rw [length_append, length_singleton]; omega),
        foldl_append]
      exact hsize

/-- Folding any operands of such a cell gives a value, and leaves such a cell. -/
theorem CellOk.fold (h : CellOk cfg c) {n : Nat} (hn : 0 < n)
    (hlen : n ≤ c.operands.length) :
    ∃ value, (fullMergeV2 cfg c.base (c.operands.take n)).2 = some value ∧
      CellOk cfg ⟨some value, c.operands.drop n⟩ := by
  cases h with
  | empty => exact absurd hlen (by rw [show Cell.empty.operands.length = 0 from rfl]; omega)
  | stored md ops hq =>
    simp only [← map_take, ← map_drop]
    exact ⟨_, fullMergeV2_stored (hq.take n), .stored _ _ (hq.drop cfg n)⟩
  | created md ops hq =>
    obtain ⟨k, rfl⟩ : ∃ k, n = k + 1 := ⟨n - 1, by omega⟩
    simp only [take_succ_cons, drop_succ_cons, ← map_take, ← map_drop]
    exact ⟨_, fullMergeV2_created (hq.take k), .stored _ _ (hq.drop cfg k)⟩

/-- The size of such a cell is that of its entry after its operands. -/
theorem mergedSize_stored (h : QueueOk md ops) :
    mergedSize cfg (some (md.serialize cfg)) (ops.map serialize) =
      some (ops.foldl newSize md.size) := by
  simp only [mergedSize, mergeBegin, Metadata.parse_serialize cfg h.entry, Option.map_some,
    Option.bind_some, mergeLoop_serialize h.valid, applyAll_fsize]
  rfl

theorem mergedSize_created (h : QueueOk md ops) :
    mergedSize cfg none ((create (md.serialize cfg)).serialize ::
      ops.map serialize) = some (ops.foldl newSize md.size) := by
  simp only [mergedSize, mergeBegin, getId_serialize, MergeOperand.id, if_true,
    getParams_serialize, serializeParams,
    Metadata.parse_serialize cfg h.entry, Option.map_some, Option.bind_some,
    mergeLoop_serialize h.valid, applyAll_fsize]
  rfl

/-- The size of such a cell is below `2 ^ 63`. -/
theorem CellOk.size_lt (h : CellOk cfg c) {size : Nat}
    (hsize : mergedSize cfg c.base c.operands = some size) : size < 2 ^ 63 := by
  cases h with
  | empty => cases hsize
  | stored md ops hq =>
    rw [mergedSize_stored hq] at hsize
    cases hsize
    simpa using hq.sizes ops.length
  | created md ops hq =>
    rw [mergedSize_created hq] at hsize
    cases hsize
    simpa using hq.sizes ops.length

/-- An operand that is queued for an existing key and leads to a size below `2 ^ 63`. -/
theorem CellOk.merge (h : CellOk cfg c) (hne : c ≠ Cell.empty) {op : MergeOperand}
    (hop : op.Valid)
    (hsize : ∀ size, mergedSize cfg c.base c.operands = some size → op.newSize size < 2 ^ 63) :
    CellOk cfg (c.merge op.serialize) := by
  cases h with
  | empty => exact absurd rfl hne
  | stored md ops hq =>
    have hconcat := hq.concat hop (hsize _ (mergedSize_stored hq))
    simpa [Cell.merge] using @CellOk.stored cfg md _ hconcat
  | created md ops hq =>
    have hconcat := hq.concat hop (hsize _ (mergedSize_created hq))
    simpa [Cell.merge] using @CellOk.created cfg md _ hconcat

/-- A creation that is queued for a key that is not there. -/
theorem CellOk.create (h : md.Storable) :
    CellOk cfg (Cell.empty.merge (create (md.serialize cfg)).serialize) :=
  .created md [] (.nil h)

/-! ## What the requests do to the store -/

variable {st : MetadataDaemon} {path : List Char} {db : DB} {key : List Char} {run : MetadataRun}
  {req : MetadataRequest}

theorem Cell.merge_ne_empty (c : Cell) (op : List Char) : c.merge op ≠ Cell.empty := fun h => by
  have := congrArg (·.operands.length) h
  simp [Cell.merge, Cell.empty] at this

/-- Reading a key that is not there. -/
theorem getImpl_empty (h : st.db.cell path = Cell.empty) :
    getImpl cfg st path = (.error .notFound, st) := by
  rw [getImpl, h]
  rfl

variable (cfg st key) in
@[simp] theorem getImpl_db :
    (getImpl cfg st key).2.db = st.db := rfl

/-- A key that is not found is not there. -/
theorem cell_of_get_notFound {c : Cell} (h : (c.get cfg).2 = .error .notFound) :
    c = Cell.empty := by
  obtain ⟨base, operands⟩ := c
  rw [Cell.get] at h
  split at h
  · next hnil =>
    split at h
    · cases h
    · next hnone =>
      simp only at hnil hnone
      rw [hnil, hnone]
      rfl
  · split at h <;> cases h

theorem cell_ne_of_exists (h : (existsImpl cfg st path).1 = .ok true) :
    st.db.cell path ≠ Cell.empty := fun hempty => by
  rw [existsImpl, getImpl_empty hempty] at h
  cases h

variable (cfg st path) in
/-- A creation succeeds exactly if the path is not there, and changes nothing otherwise. -/
theorem rpcSrvCreate_db (mode : UInt32) (now : Int64) :
    ((rpcSrvCreate cfg st path mode now).1 = 0 ∧ st.db.cell path = Cell.empty ∧
        (rpcSrvCreate cfg st path mode now).2.db = st.db.merge path (create
          ((Metadata.ofMode cfg now.toInt mode.toNat).serialize cfg)).serialize) ∨
      ((rpcSrvCreate cfg st path mode now).1 ≠ 0 ∧
        (rpcSrvCreate cfg st path mode now).2.db = st.db) := by
  have hexist : (EEXIST : Int) ≠ 0 := by decide
  have hother : (-1 : Int) ≠ 0 := by decide
  rw [rpcSrvCreate, putNoExistImpl, existsImpl, getImpl]
  cases hget : ((st.db.cell path).get cfg).2 with
  | ok value => exact .inr ⟨hexist, rfl⟩
  | error e =>
    cases e with
    | notFound => exact .inl ⟨rfl, cell_of_get_notFound hget, rfl⟩
    | «exists» => exact .inr ⟨hexist, rfl⟩
    | other => exact .inr ⟨hother, rfl⟩

variable (cfg st path) in
/-- A removal that succeeds deletes the key, and one that fails changes nothing. -/
theorem rpcSrvRemoveMetadata_db (rmDir : Bool) :
    ((rpcSrvRemoveMetadata cfg st path rmDir).1.err = 0 ∧
        (rpcSrvRemoveMetadata cfg st path rmDir).2.db = st.db.erase path) ∨
      ((rpcSrvRemoveMetadata cfg st path rmDir).1.err ≠ 0 ∧
        (rpcSrvRemoveMetadata cfg st path rmDir).2.db = st.db) := by
  have hbusy : (EBUSY : Int) ≠ 0 := by decide
  have hnoent : (ENOENT : Int) ≠ 0 := by decide
  have hisdir : (EISDIR : Int) ≠ 0 := by decide
  have hnotdir : (ENOTDIR : Int) ≠ 0 := by decide
  rw [rpcSrvRemoveMetadata, getImpl]
  cases ((st.db.cell path).get cfg).2 with
  | ok value =>
    dsimp only
    cases Metadata.parse cfg value with
    | none => exact .inr ⟨hbusy, rfl⟩
    | some md =>
      simp only [removeEntry]
      split
      · exact .inr ⟨hisdir, rfl⟩
      · split
        · exact .inr ⟨hnotdir, rfl⟩
        · exact .inl ⟨rfl, rfl⟩
  | error e =>
    cases e with
    | notFound => exact .inr ⟨hnoent, rfl⟩
    | «exists» => exact .inr ⟨hbusy, rfl⟩
    | other => exact .inr ⟨hbusy, rfl⟩

variable (cfg st path) in
theorem rpcSrvStat_db :
    (rpcSrvStat cfg st path).2.db = st.db := by
  rw [rpcSrvStat, getImpl]
  cases ((st.db.cell path).get cfg).2 with
  | ok value => rfl
  | error e => cases e <;> rfl

variable (cfg st path) in
/-- An append queues its operand, whatever it is answered with. -/
theorem rpcSrvUpdateMetadentrySize_append_db (size offset : UInt64) (mergeId : UInt16)
    (now : Int64) :
    (rpcSrvUpdateMetadentrySize cfg st path size offset true mergeId now).2.db =
      st.db.merge path (appendOperand size.toNat mergeId.toNat) := by
  rw [rpcSrvUpdateMetadentrySize, increaseSizeImpl, if_pos rfl, getImpl]
  cases (((st.db.merge path _).cell path).get cfg).2 with
  | ok value =>
    simp only
    split <;> next heq => split at heq <;> cases heq <;> rfl
  | error e => cases e <;> rfl

variable (cfg st path) in
theorem rpcSrvUpdateMetadentrySize_plain_db (size offset : UInt64) (mergeId : UInt16)
    (now : Int64) :
    (rpcSrvUpdateMetadentrySize cfg st path size offset false mergeId now).2 =
      updateMtime cfg { st with
        db := st.db.merge path
          (increaseSize (offset + size).toNat 0 false).serialize } path now := rfl

/-! ## Runs -/

/-- Every cell of a store can be read. -/
def CellsOk (cfg : MetadataConfig) (db : DB) : Prop := ∀ key, CellOk cfg (db.cell key)

theorem CellsOk.merge (h : CellsOk cfg db) {op : List Char}
    (hc : CellOk cfg ((db.cell key).merge op)) : CellsOk cfg (db.merge key op) := fun k => by
  by_cases hk : k = key
  · rw [hk, DB.cell_merge_self]; exact hc
  · rw [DB.cell_merge_ne hk]; exact h k

/-- An operand is queued for an existing key. -/
theorem CellsOk.mergeOperand (h : CellsOk cfg db)
    (hne : db.cell key ≠ Cell.empty) (op : MergeOperand) (hop : op.Valid)
    (hsize : ∀ size, mergedSize cfg (db.cell key).base (db.cell key).operands = some size →
      op.newSize size < 2 ^ 63) : CellsOk cfg (db.merge key op.serialize) :=
  h.merge ((h key).merge hne hop hsize)

/-- The time update after a size update. -/
theorem CellsOk.updateMtime (h : CellsOk cfg st.db) (hne : st.db.cell path ≠ Cell.empty)
    (now : Int64) : CellsOk cfg (updateMtime cfg st path now).db := by
  rw [MetadataDaemon.updateMtime]
  split
  · exact h.mergeOperand hne (.updateTime now.toInt)
      ⟨Int64.le_toInt now, Int64.toInt_lt now⟩ fun size hsize => (h path).size_lt hsize
  · exact h

theorem cell_updateMtime_ne (h : key ≠ path) (now : Int64) :
    (updateMtime cfg st path now).db.cell key = st.db.cell key := by
  rw [MetadataDaemon.updateMtime]
  split
  · exact DB.cell_merge_ne h ..
  · rfl

/-- What holds of a daemon in a run: every key can be read, and a path that was removed last is not
there. -/
structure RunInv (cfg : MetadataConfig) (run : MetadataRun) : Prop where
  cells : CellsOk cfg run.daemon.db
  removed : ∀ path req, run.lastSuccessful path = some req → req.isRemove →
    run.daemon.db.cell path = Cell.empty

/-- The invariant holds at the start. -/
theorem RunInv.initial (cfg : MetadataConfig) : RunInv cfg MetadataRun.initial where
  cells := fun _ => .empty
  removed := fun _ _ h => by cases h

/-- A request that meets the condition keeps every key readable. -/
theorem RunInv.cells_serve (hi : RunInv cfg run)
    (hok : SizeUpdateOk cfg run (.request req)) :
    CellsOk cfg (req.serve cfg run.daemon).2.db := by
  cases req with
  | create path mode now =>
    have hmd := Metadata.storable_ofMode cfg ⟨Int64.le_toInt now, Int64.toInt_lt now⟩
      mode.toNat_lt
    rcases rpcSrvCreate_db cfg run.daemon path mode now with ⟨-, hempty, hdb⟩ | ⟨-, hdb⟩
    · rw [MetadataRequest.serve, hdb]
      exact hi.cells.merge (by rw [hempty]; exact CellOk.create hmd)
    · rw [MetadataRequest.serve, hdb]; exact hi.cells
  | removeMetadata path rmDir =>
    rcases rpcSrvRemoveMetadata_db cfg run.daemon path rmDir with ⟨-, hdb⟩ | ⟨-, hdb⟩
    · intro key
      simp only [MetadataRequest.serve, hdb]
      by_cases hk : key = path
      · rw [hk, DB.cell_erase_self]; exact .empty
      · rw [DB.cell_erase_ne hk]; exact hi.cells key
    · simp only [MetadataRequest.serve, hdb]; exact hi.cells
  | updateMetadentrySize path size offset append mergeId now =>
    obtain ⟨hexists, hsize⟩ := hok
    have hne := cell_ne_of_exists hexists
    cases append with
    | true =>
      simp only [MetadataRequest.serve, rpcSrvUpdateMetadentrySize_append_db]
      exact hi.cells.mergeOperand hne (.increaseSize size.toNat mergeId.toNat true)
        ⟨size.toNat_lt, mergeId.toNat_lt⟩ hsize
    | false =>
      simp only [MetadataRequest.serve, rpcSrvUpdateMetadentrySize_plain_db]
      refine CellsOk.updateMtime (hi.cells.mergeOperand hne
        (.increaseSize (offset + size).toNat 0 false)
        ⟨UInt64.toNat_lt _, by decide⟩ fun current hcurrent => ?_) ?_ now
      · exact Nat.max_lt.2 ⟨hsize, (hi.cells path).size_lt hcurrent⟩
      · rw [DB.cell_merge_self]; exact Cell.merge_ne_empty _ _
  | decrSize path length now =>
    obtain ⟨hexists, hsize⟩ := hok
    have hne := cell_ne_of_exists hexists
    simp only [MetadataRequest.serve, rpcSrvDecrSize, decreaseSizeImpl]
    refine CellsOk.updateMtime (hi.cells.mergeOperand hne (.decreaseSize length.toNat)
      length.toNat_lt fun _ _ => hsize) ?_ now
    rw [DB.cell_merge_self]; exact Cell.merge_ne_empty _ _
  | stat path =>
    simp only [MetadataRequest.serve, rpcSrvStat_db]; exact hi.cells

/-- A request that meets the condition leaves a path that is not there as it is, unless it creates
it. -/
theorem cell_serve_of_empty
    (hok : SizeUpdateOk cfg run (.request req)) (hempty : run.daemon.db.cell key = Cell.empty)
    (hreq : req.path = key → req.isRemove ∨ (req.serve cfg run.daemon).1 ≠ 0) :
    (req.serve cfg run.daemon).2.db.cell key = Cell.empty := by
  cases req with
  | create path mode now =>
    rcases rpcSrvCreate_db cfg run.daemon path mode now with ⟨herr, -, hdb⟩ | ⟨-, hdb⟩
    · have hne : key ≠ path := fun heq => by
        rcases hreq heq.symm with h | h
        · cases h
        · exact h herr
      rw [MetadataRequest.serve, hdb, DB.cell_merge_ne hne]
      exact hempty
    · rw [MetadataRequest.serve, hdb]; exact hempty
  | removeMetadata path rmDir =>
    rcases rpcSrvRemoveMetadata_db cfg run.daemon path rmDir with ⟨-, hdb⟩ | ⟨-, hdb⟩
    · simp only [MetadataRequest.serve, hdb]
      by_cases hk : key = path
      · rw [hk, DB.cell_erase_self]
      · rw [DB.cell_erase_ne hk]; exact hempty
    · simp only [MetadataRequest.serve, hdb]; exact hempty
  | updateMetadentrySize path size offset append mergeId now =>
    have hne : key ≠ path := fun heq => cell_ne_of_exists hok.1 (by rw [← heq]; exact hempty)
    cases append with
    | true =>
      simp only [MetadataRequest.serve, rpcSrvUpdateMetadentrySize_append_db]
      rw [DB.cell_merge_ne hne]; exact hempty
    | false =>
      simp only [MetadataRequest.serve, rpcSrvUpdateMetadentrySize_plain_db]
      rw [cell_updateMtime_ne hne, DB.cell_merge_ne hne]; exact hempty
  | decrSize path length now =>
    have hne : key ≠ path := fun heq => cell_ne_of_exists hok.1 (by rw [← heq]; exact hempty)
    simp only [MetadataRequest.serve, rpcSrvDecrSize, decreaseSizeImpl]
    rw [cell_updateMtime_ne hne, DB.cell_merge_ne hne]; exact hempty
  | stat path => simp only [MetadataRequest.serve, rpcSrvStat_db]; exact hempty

/-- A successful removal leaves nothing of its path. -/
theorem cell_serve_of_remove (hremove : req.isRemove)
    (hsuccess : (req.serve cfg st).1 = 0) :
    (req.serve cfg st).2.db.cell req.path = Cell.empty := by
  cases req with
  | removeMetadata path rmDir =>
    rcases rpcSrvRemoveMetadata_db cfg st path rmDir with ⟨-, hdb⟩ | ⟨herr, -⟩
    · simp only [MetadataRequest.serve, hdb]
      exact DB.cell_erase_self ..
    · exact absurd hsuccess herr
  | create path mode now => cases hremove
  | updateMetadentrySize path size offset append mergeId now => cases hremove
  | decrSize path length now => cases hremove
  | stat path => cases hremove

/-- The last successful request for a path after one more was served. -/
theorem lastSuccessful_cons {daemon : MetadataDaemon}
    {last : MetadataRequest} {err : Int}
    (h : MetadataRun.lastSuccessful ⟨daemon, (req, err) :: run.served⟩ key = some last) :
    (req.path = key ∧ err = 0 ∧ last = req) ∨
      ((req.path = key → err ≠ 0) ∧ run.lastSuccessful key = some last) := by
  rw [MetadataRun.lastSuccessful, find?_cons] at h
  split at h
  · next hmatch =>
    cases h
    simp only [Bool.and_eq_true, decide_eq_true_eq] at hmatch
    exact .inl ⟨hmatch.1, hmatch.2, rfl⟩
  · next hmatch =>
    refine .inr ⟨fun hpath herr => ?_, h⟩
    simp [hpath, herr] at hmatch

/-- A request keeps the invariant. -/
theorem RunInv.request (hi : RunInv cfg run)
    (hok : SizeUpdateOk cfg run (.request req)) :
    RunInv cfg ⟨(req.serve cfg run.daemon).2,
      (req, (req.serve cfg run.daemon).1) :: run.served⟩ where
  cells := hi.cells_serve hok
  removed := fun key last hlast hremove => by
    rcases lastSuccessful_cons hlast with ⟨rfl, herr, rfl⟩ | ⟨hfail, hlast⟩
    · exact cell_serve_of_remove hremove herr
    · exact cell_serve_of_empty hok (hi.removed key last hlast hremove)
        fun hpath => .inr (hfail hpath)

/-- So does a compaction. -/
theorem RunInv.compact (hi : RunInv cfg run) {count : Nat}
    (hpos : 0 < count) (hlen : count ≤ (run.daemon.db.cell key).operands.length) :
    RunInv cfg (run.compact cfg key count) := by
  obtain ⟨value, hvalue, hcell⟩ := (hi.cells key).fold hpos hlen
  have hcompact : ((run.daemon.db.cell key).compact cfg count).2 =
      ⟨some value, (run.daemon.db.cell key).operands.drop count⟩ := by
    rw [Cell.compact]
    split
    · next heq => rw [heq] at hvalue; cases hvalue; rfl
    · next heq => rw [heq] at hvalue; cases hvalue
  refine ⟨fun k => ?_, fun k last hlast hremove => ?_⟩
  · simp only [MetadataRun.compact, hcompact]
    by_cases hk : k = key
    · rw [hk, DB.cell_insert_self]; exact hcell
    · rw [DB.cell_insert_ne hk]; exact hi.cells k
  · have hempty := hi.removed k last hlast hremove
    have hk : k ≠ key := fun heq => by
      rw [← heq, hempty, show Cell.empty.operands.length = 0 from rfl] at hlen
      omega
    simp only [MetadataRun.compact]
    rw [DB.cell_insert_ne hk]
    exact hempty

/-- Each step that meets the condition keeps the invariant. -/
theorem RunInv.step {run' : MetadataRun} {e : MetadataEvent} (hi : RunInv cfg run)
    (hok : SizeUpdateOk cfg run e) (hstep : run.step cfg e = some run') : RunInv cfg run' := by
  cases e with
  | request req => cases hstep; exact hi.request hok
  | compact key count =>
    rw [MetadataRun.step] at hstep
    split at hstep
    · next hguard => cases hstep; exact hi.compact hguard.1 hguard.2
    · cases hstep

/-- Every key is readable. -/
theorem CellsOk.keysReadable (h : CellsOk cfg db) : KeysReadable cfg db := by
  intro key
  refine ⟨fun n hn hlen => ?_, fun op hop hbase => ?_⟩
  · obtain ⟨value, hvalue, -⟩ := (h key).fold hn hlen
    rw [hvalue]
    exact nofun
  · have hcell := h key
    generalize db.cell key = c at hcell hop hbase
    cases hcell with
    | empty => cases hop
    | stored md ops hq => cases hbase
    | created md ops hq =>
      cases hop
      exact getId_serialize _

/-- What was removed is gone. -/
theorem RunInv.removedGone (hi : RunInv cfg run) : RemovedGone cfg run := by
  intro path req hlast hremove
  have hempty := hi.removed path req hlast hremove
  refine ⟨?_, fun mode now => ?_⟩
  · rw [rpcSrvStat, getImpl_empty hempty]
  · rw [rpcSrvCreate, putNoExistImpl, existsImpl, getImpl_empty hempty]

end

/-- In every run from the empty store in which each size update is for a path that exists and leads
to a size below `2 ^ 63`, every key can be read, and a path that was removed last is reported as not
existing and can be created. -/
theorem readable_of_run (cfg : MetadataConfig) (events : List MetadataEvent) (run : MetadataRun)
    (hok : Transition.AllOk (MetadataRun.step cfg) (SizeUpdateOk cfg) MetadataRun.initial events)
    (hrun : Transition.run (MetadataRun.step cfg) MetadataRun.initial events = some run) :
    KeysReadable cfg run.daemon.db ∧ RemovedGone cfg run := by
  have hi := Transition.run_invariant
    (fun run e run' hi hok hstep => RunInv.step hi hok hstep) (RunInv.initial cfg) hok hrun
  exact ⟨hi.cells.keysReadable, hi.removedGone⟩

/-- A file is created, written to, appended to, folded and removed. -/
def fileLifetime : List MetadataEvent :=
  [.request (.create "/f".toList 33188 0),
    .request (.updateMetadentrySize "/f".toList 10 0 false 0 0),
    .request (.updateMetadentrySize "/f".toList 4 0 true 7 0),
    .compact "/f".toList 2, .request (.decrSize "/f".toList 3 0),
    .request (.removeMetadata "/f".toList false)]

theorem readable_of_run_fileLifetime :
    ∃ run, Transition.run (MetadataRun.step .default) MetadataRun.initial
        fileLifetime = some run ∧
      run.served.map Prod.snd = [0, 0, 0, 0, 0] ∧
      KeysReadable .default run.daemon.db ∧
      RemovedGone .default run := by
  refine ⟨(Transition.run (MetadataRun.step .default) MetadataRun.initial
    fileLifetime).get (by decide), (Option.some_get _).symm, by decide, ?_⟩
  exact readable_of_run _ fileLifetime _ (by decide) (Option.some_get _).symm

/-- A file is created and removed, and then an append for it arrives. -/
def lateAppend : List MetadataEvent :=
  [.request (.create "/f".toList 33188 0), .request (.removeMetadata "/f".toList false),
    .request (.updateMetadentrySize "/f".toList 4 0 true 7 0)]

/-- The append fails, so the last successful request is the removal, but its operand stays queued:
the merge operator throws on the key, and the path is neither reported as missing nor can it be
created. -/
theorem lateAppend_breaks_path :
    ∃ run, Transition.run (MetadataRun.step .default) MetadataRun.initial
        lateAppend = some run ∧
      ¬ KeysReadable .default run.daemon.db ∧
      ¬ RemovedGone .default run ∧
      (rpcSrvStat .default run.daemon "/f".toList).1.1 = EBUSY ∧
      (rpcSrvCreate .default run.daemon "/f".toList 33188 0).1 = -1 := by
  refine ⟨(Transition.run (MetadataRun.step .default) MetadataRun.initial
    lateAppend).get (by decide), (Option.some_get _).symm, fun h => ?_, fun h => ?_, by decide,
    by decide⟩
  · exact absurd ((h "/f".toList).1 1 (by decide) (by decide)) (by decide)
  · exact absurd (h "/f".toList (.removeMetadata "/f".toList false) (by decide) (by decide)).1
      (by decide)

end GekkoFS
