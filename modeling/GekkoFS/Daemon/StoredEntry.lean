import GekkoFS.Daemon.MergeGrouping
import GekkoFS.Daemon.MetadataReadable

/-!
# The entries of a metadata store

`Cell.Holds` says that a cell of the store, a value with queued operands, stands for an entry: its
operands can be merged in any grouping (`PlainOk`) and lead to the entry. `readEntry` is the entry
that a daemon reads for a path, and for each handler there is a lemma that says what it does to the
entries.
-/

namespace GekkoFS

open Function List MergeOperand MetadataDaemon

/-! ## Cells that stand for an entry -/

/-- A cell whose value and queued operands lead to an entry. -/
def Cell.Holds (cfg : MetadataConfig) (c : Cell) (md : Metadata) : Prop :=
  ∃ md₀ ops rest, MergeStart cfg md₀ rest c.base ops ∧ c.operands = ops.map serialize ∧
    PlainOk md₀ rest ∧ rest.foldl plain md₀ = md

section
variable {cfg : MetadataConfig} {md : Metadata} {c : Cell} {op : MergeOperand}

theorem MergeStart.concat {base : Option (List Char)} {ops rest : List MergeOperand}
    (h : MergeStart cfg md rest base ops) (op : MergeOperand) :
    MergeStart cfg md (rest ++ [op]) base (ops ++ [op]) := by
  cases h with
  | stored => exact .stored
  | created => exact .created

theorem PlainOk.concat {ops : List MergeOperand} (h : PlainOk md ops) (hop : op.Valid)
    (hsize : (op.plain (ops.foldl plain md)).size < 2 ^ 63) : PlainOk md (ops ++ [op]) := by
  induction ops generalizing md with
  | nil =>
    exact .cons h.entry hop hsize fun hmd => .nil hmd
  | cons o ops ih => exact .cons h.entry h.head.1 h.head.2 fun _ => ih h.tail hsize

namespace Cell

/-- A stored entry can be stored. -/
theorem Holds.storable (h : c.Holds cfg md) : md.Storable := by
  obtain ⟨md₀, ops, rest, -, -, hok, rfl⟩ := h
  rw [← append_nil rest] at hok
  exact hok.right.entry

/-- A new key. -/
theorem holds_create (hmd : md.Storable) :
    (Cell.empty.merge (MergeOperand.create (md.serialize cfg)).serialize).Holds cfg md :=
  ⟨md, [.create (md.serialize cfg)], [], .created, rfl, .nil hmd, rfl⟩

/-- A key that was written as a whole. -/
theorem holds_put (hmd : md.Storable) : Holds cfg ⟨some (md.serialize cfg), []⟩ md :=
  ⟨md, [], [], .stored, rfl, .nil hmd, rfl⟩

/-- One more operand. -/
theorem Holds.merge (h : c.Holds cfg md) (hop : op.Valid)
    (hsize : (op.plain md).size < 2 ^ 63) :
    (c.merge op.serialize).Holds cfg (op.plain md) := by
  obtain ⟨md₀, ops, rest, hstart, hops, hok, rfl⟩ := h
  refine ⟨md₀, ops ++ [op], rest ++ [op], hstart.concat op, ?_, hok.concat hop hsize, ?_⟩
  · rw [Cell.merge, hops, map_append, map_singleton]
  · rw [foldl_append, foldl_cons, foldl_nil]

theorem Holds.ne_empty (h : c.Holds cfg md) : c ≠ Cell.empty := by
  rintro rfl
  obtain ⟨md₀, ops, rest, hstart, hops, -⟩ := h
  generalize hbase : Cell.empty.base = base at hstart
  cases hstart with
  | stored => cases hbase
  | created => cases hops

/-- Such a cell is read as the text of its entry. -/
theorem Holds.get (h : c.Holds cfg md) : (c.get cfg).2 = .ok (md.serialize cfg) := by
  obtain ⟨md₀, ops, rest, hstart, hops, hok, rfl⟩ := h
  obtain ⟨base, operands⟩ := c
  have hmerge := fullMergeV2_plain hstart hok
  simp only at hstart hops
  subst hops
  cases ops with
  | nil => cases hstart with | stored => rfl
  | cons op ops => rw [map_cons, Cell.get_cons hmerge]

/-- The size of such a cell is that of its entry. -/
theorem Holds.mergedSize (h : c.Holds cfg md) :
    mergedSize cfg c.base c.operands = some md.size := by
  obtain ⟨md₀, ops, rest, hstart, hops, hok, rfl⟩ := h
  rw [hops, mergedSize_plain hstart hok]

/-- Reading such a cell after an append puts the size before the append last. -/
theorem Holds.get_append (h : c.Holds cfg md) {size mergeId : Nat}
    (hop : (MergeOperand.increaseSize size mergeId true).Valid) :
    ∃ reserved val, (c.merge (appendOperand size mergeId)).get cfg =
      (reserved ++ [(mergeId, md.size)], .ok val) := by
  obtain ⟨md₀, ops, rest, hstart, hops, hok, rfl⟩ := h
  obtain ⟨val, hmerge⟩ := fullMergeV2_concat
    (hstart.concat (.increaseSize size mergeId true)) hok hop
  obtain ⟨op, ops', hcons⟩ := exists_cons_of_ne_nil
    (append_ne_nil_of_right_ne_nil ops
      (cons_ne_nil (MergeOperand.increaseSize size mergeId true) []))
  have hcell : c.merge (appendOperand size mergeId) =
      ⟨c.base, op.serialize :: ops'.map serialize⟩ := by
    rw [← map_cons, ← hcons, Cell.merge, hops, map_append]
    rfl
  rw [hcons, map_cons] at hmerge
  refine ⟨offsets md₀ rest, val, ?_⟩
  rw [hcell, Cell.get_cons hmerge, offsets_append]
  rfl

end Cell

end

/-! ## What a daemon reads -/

/-- The entry that a daemon reads for a path. -/
def MetadataDaemon.readEntry (cfg : MetadataConfig) (st : MetadataDaemon) (path : List Char) :
    Option Metadata :=
  match ((st.db.cell path).get cfg).2 with
  | .ok val => Metadata.parse cfg val
  | .error _ => none

section
variable {cfg : MetadataConfig} {st st' : MetadataDaemon} {path : List Char} {md : Metadata}

/-- Nothing is read of a missing entry. -/
theorem readEntry_empty (h : st.db.cell path = Cell.empty) : st.readEntry cfg path = none := by
  rw [readEntry, h]
  rfl

theorem readEntry_eq_some (h : st.readEntry cfg path = some md) :
    ∃ val, ((st.db.cell path).get cfg).2 = .ok val ∧ Metadata.parse cfg val = some md := by
  rw [readEntry] at h
  split at h
  · next val hget => exact ⟨val, hget, h⟩
  · cases h

theorem readEntry_congr {path' : List Char} (h : st'.db.cell path' = st.db.cell path') :
    st'.readEntry cfg path' = st.readEntry cfg path' := by
  rw [readEntry, readEntry, h]

/-- The entry of a cell is read up to the fields that the build does not keep. -/
theorem Cell.Holds.readEntry (h : (st.db.cell path).Holds cfg md) :
    st.readEntry cfg path = some (md.kept cfg) := by
  rw [MetadataDaemon.readEntry, h.get]
  exact Metadata.parse_serialize cfg h.storable

/-- Entries that differ at one path only. -/
theorem readEntry_eq_update {e : Option Metadata} (hpath : st'.readEntry cfg path = e)
    (hother : ∀ path', path' ≠ path → st'.db.cell path' = st.db.cell path') :
    st'.readEntry cfg = update (st.readEntry cfg) path e := by
  funext path'
  by_cases heq : path' = path
  · rw [heq, update_self, hpath]
  · rw [update_of_ne heq, readEntry_congr (hother path' heq)]

theorem readEntry_of_db (h : st'.db = st.db) : st'.readEntry cfg = st.readEntry cfg :=
  funext fun _ => readEntry_congr (by rw [h])

/-- A new entry. -/
theorem holds_ofMode (cfg : MetadataConfig) (mode : UInt32) (now : Int64) :
    (Cell.empty.merge (MergeOperand.create
      ((Metadata.ofMode cfg now.toInt mode.toNat).serialize cfg)).serialize).Holds cfg
      (Metadata.ofMode cfg now.toInt mode.toNat) :=
  Cell.holds_create
    (Metadata.storable_ofMode cfg ⟨Int64.le_toInt now, Int64.toInt_lt now⟩ mode.toNat_lt)

variable (cfg st path) in
/-- A creation that succeeds adds the entry, and one that fails changes nothing. -/
theorem rpcSrvCreate_readEntry (mode : UInt32) (now : Int64) :
    ((rpcSrvCreate cfg st path mode now).1 = 0 ∧ st.readEntry cfg path = none ∧
        (rpcSrvCreate cfg st path mode now).2.readEntry cfg = update (st.readEntry cfg)
          path (some ((Metadata.ofMode cfg now.toInt mode.toNat).kept cfg))) ∨
      ((rpcSrvCreate cfg st path mode now).1 ≠ 0 ∧
        (rpcSrvCreate cfg st path mode now).2.readEntry cfg = st.readEntry cfg) := by
  rcases rpcSrvCreate_db cfg st path mode now with ⟨herr, hempty, hdb⟩ | ⟨herr, hdb⟩
  · refine .inl ⟨herr, readEntry_empty hempty, ?_⟩
    refine readEntry_eq_update ?_ fun path' hne => by rw [hdb, DB.cell_merge_ne hne]
    refine Cell.Holds.readEntry ?_
    rw [hdb, DB.cell_merge_self, hempty]
    exact holds_ofMode cfg mode now
  · exact .inr ⟨herr, readEntry_of_db hdb⟩

variable (cfg st path) in
/-- A creation leaves the chunk files alone. -/
theorem rpcSrvCreate_storage (mode : UInt32) (now : Int64) :
    (rpcSrvCreate cfg st path mode now).2.storage = st.storage := by
  rw [rpcSrvCreate, putNoExistImpl, existsImpl, getImpl]
  cases ((st.db.cell path).get cfg).2 with
  | ok val => rfl
  | error e => cases e <;> rfl

variable (cfg st path) in
theorem rpcSrvStat_storage :
    (rpcSrvStat cfg st path).2.storage = st.storage := by
  rw [rpcSrvStat, getImpl]
  cases ((st.db.cell path).get cfg).2 with
  | ok val => rfl
  | error e => cases e <;> rfl

/-- A path that is not there can be created. -/
theorem rpcSrvCreate_empty (h : st.db.cell path = Cell.empty) (mode : UInt32) (now : Int64) :
    ((rpcSrvCreate cfg st path mode now).2.db.cell path).Holds cfg
      (Metadata.ofMode cfg now.toInt mode.toNat) := by
  rw [rpcSrvCreate, putNoExistImpl, existsImpl, getImpl_empty h]
  change ((st.db.merge path _).cell path).Holds cfg _
  rw [DB.cell_merge_self, h]
  exact holds_ofMode cfg mode now

theorem rpcSrvCreate_empty_fst (h : st.db.cell path = Cell.empty) (mode : UInt32) (now : Int64) :
    (rpcSrvCreate cfg st path mode now).1 = 0 := by
  rw [rpcSrvCreate, putNoExistImpl, existsImpl, getImpl_empty h]

/-- The time update after a size operand changes nothing but the time. -/
theorem Cell.Holds.setMtime (h : (st.db.cell path).Holds cfg md) (now : Int64) :
    ∃ mtime, ((updateMtime cfg st path now).db.cell path).Holds cfg { md with mtime := mtime } := by
  rw [MetadataDaemon.updateMtime]
  split
  · have htime : (MergeOperand.updateTime now.toInt).Valid :=
      ⟨Int64.le_toInt now, Int64.toInt_lt now⟩
    refine ⟨now.toInt, ?_⟩
    rw [DB.cell_merge_self]
    exact h.merge htime h.storable.size
  · exact ⟨md.mtime, h⟩

/-- A size operand and the time update after it, for an entry that is there. -/
theorem Cell.Holds.updateMtime {op : MergeOperand} (h : (st.db.cell path).Holds cfg md)
    (hop : op.Valid) (hsize : (op.plain md).size < 2 ^ 63) (now : Int64) :
    ∃ md', ((updateMtime cfg { st with db := st.db.merge path op.serialize } path
        now).db.cell path).Holds cfg md' ∧ md'.mode = md.mode ∧
      md'.size = (op.plain md).size := by
  have hmode : (op.plain md).mode = md.mode := by
    cases op with
    | increaseSize size mergeId append => cases append <;> rfl
    | decreaseSize size => rfl
    | create val => rfl
    | updateTime mtime => rfl
  have hmerge : (({ st with db := st.db.merge path op.serialize } : MetadataDaemon).db.cell
      path).Holds cfg (op.plain md) := by
    rw [DB.cell_merge_self]
    exact h.merge hop hsize
  obtain ⟨mtime, hholds⟩ := hmerge.setMtime now
  exact ⟨_, hholds, hmode, rfl⟩

/-- An append to an entry that is there gets the size before it, which the merge has put last. -/
theorem increaseSizeImpl_append {key : List Char} (hmd : (st.db.cell key).Holds cfg md)
    (ioSize offset : UInt64) (mergeId : UInt16) (now : Int64) :
    (st.increaseSizeImpl cfg key ioSize offset true mergeId now).1 = .ok (toOff md.size) ∧
      (st.increaseSizeImpl cfg key ioSize offset true mergeId now).2.db =
        st.db.merge key (appendOperand ioSize.toNat mergeId.toNat) := by
  have hop : (MergeOperand.increaseSize ioSize.toNat mergeId.toNat true).Valid :=
    ⟨ioSize.toNat_lt, mergeId.toNat_lt⟩
  obtain ⟨reserved, val, hget⟩ := hmd.get_append hop
  generalize hst : ({ st with
    db := st.db.merge key (appendOperand ioSize.toNat mergeId.toNat) } : MetadataDaemon) = stm
  have hcell : stm.db.cell key =
      (st.db.cell key).merge (appendOperand ioSize.toNat mergeId.toNat) := by
    rw [← hst, DB.cell_merge_self]
  have hread : stm.getImpl cfg key = (.ok val, (stm.getImpl cfg key).2) :=
    Prod.ext (by rw [MetadataDaemon.getImpl, hcell, hget]) rfl
  have htable : (stm.getImpl cfg key).2.reserve mergeId.toNat = some md.size := by
    rw [MetadataDaemon.getImpl, hcell, hget, AppendOffsetReserve.putAll, foldl_append]
    exact update_self ..
  rw [MetadataDaemon.increaseSizeImpl, if_pos rfl, hst, hread]
  simp only [AppendOffsetReserve.getAndErase, htable]
  exact ⟨trivial, by rw [MetadataDaemon.getImpl, ← hst]⟩

/-- A size update leaves the chunk files alone. -/
theorem increaseSizeImpl_storage (cfg : MetadataConfig) (st : MetadataDaemon) (key : List Char)
    (ioSize offset : UInt64) (append : Bool) (mergeId : UInt16) (now : Int64) :
    (st.increaseSizeImpl cfg key ioSize offset append mergeId now).2.storage = st.storage := by
  rw [MetadataDaemon.increaseSizeImpl]
  cases append with
  | true =>
    rw [if_pos rfl, MetadataDaemon.getImpl]
    dsimp only
    cases (((st.db.merge key (appendOperand ioSize.toNat mergeId.toNat)).cell key).get cfg).2 with
    | error e => rfl
    | ok val =>
      dsimp only
      rw [AppendOffsetReserve.getAndErase]
      split
      · next heq => rfl
      · next heq => rfl
  | false =>
    rw [if_neg Bool.false_ne_true, MetadataDaemon.updateMtime]
    split
    · rfl
    · rfl

/-- A removal of a path that has an entry. -/
theorem rpcSrvRemoveMetadata_some (h : st.readEntry cfg path = some md) (rmDir : Bool) :
    rpcSrvRemoveMetadata cfg st path rmDir =
      removeEntry (getImpl cfg st path).2 path rmDir md := by
  rw [readEntry] at h
  rw [rpcSrvRemoveMetadata, getImpl]
  cases hget : ((st.db.cell path).get cfg).2 with
  | error e =>
    rw [hget] at h
    cases h
  | ok val =>
    rw [hget] at h
    dsimp only at h ⊢
    rw [h]

/-- A removal of a path that has none fails. -/
theorem rpcSrvRemoveMetadata_unread (h : st.readEntry cfg path = none) (rmDir : Bool) :
    (rpcSrvRemoveMetadata cfg st path rmDir).1.err ≠ 0 := by
  have hbusy : (EBUSY : Int) ≠ 0 := by decide
  have hnoent : (ENOENT : Int) ≠ 0 := by decide
  rw [readEntry] at h
  rw [rpcSrvRemoveMetadata, getImpl]
  cases hget : ((st.db.cell path).get cfg).2 with
  | error e =>
    cases e with
    | notFound => exact hnoent
    | «exists» => exact hbusy
    | other => exact hbusy
  | ok val =>
    rw [hget] at h
    dsimp only at h ⊢
    rw [h]
    exact hbusy

/-- An entry is removed exactly if it is of the right kind. -/
theorem removeEntry_err (st : MetadataDaemon) (path : List Char) (rmDir : Bool) (md : Metadata) :
    (removeEntry st path rmDir md).1.err = 0 ↔ isDir md.mode = rmDir := by
  have hisdir : EISDIR ≠ 0 := by decide
  have hnotdir : ENOTDIR ≠ 0 := by decide
  rw [removeEntry]
  cases isDir md.mode with
  | false => cases rmDir <;> simp [hnotdir]
  | true => cases rmDir <;> simp [hisdir]

/-- What a removal answers and leaves of the chunk files depends on the mode and the size only. -/
theorem removeEntry_congr {md' : Metadata} (hmode : md'.mode = md.mode) (hsize : md'.size = md.size)
    (hstorage : st'.storage = st.storage) (rmDir : Bool) :
    (removeEntry st' path rmDir md').1 = (removeEntry st path rmDir md).1 ∧
      (removeEntry st' path rmDir md').2.storage = (removeEntry st path rmDir md).2.storage := by
  rw [removeEntry, removeEntry, hmode, hsize]
  split
  · exact ⟨rfl, hstorage⟩
  · split
    · exact ⟨rfl, hstorage⟩
    · exact ⟨rfl, by rw [hstorage]⟩

variable (cfg st path) in
/-- A removal that succeeds was of the right kind of entry, which it removes, and one that fails
changes nothing. -/
theorem rpcSrvRemoveMetadata_readEntry (rmDir : Bool) :
    ((rpcSrvRemoveMetadata cfg st path rmDir).1.err = 0 ∧
        (∃ md, st.readEntry cfg path = some md ∧ isDir md.mode = rmDir) ∧
        (rpcSrvRemoveMetadata cfg st path rmDir).2.readEntry cfg =
          update (st.readEntry cfg) path none) ∨
      ((rpcSrvRemoveMetadata cfg st path rmDir).1.err ≠ 0 ∧
        (rpcSrvRemoveMetadata cfg st path rmDir).2.readEntry cfg = st.readEntry cfg) := by
  rcases rpcSrvRemoveMetadata_db cfg st path rmDir with ⟨herr, hdb⟩ | ⟨herr, hdb⟩
  · refine .inl ⟨herr, ?_, ?_⟩
    · cases hentry : st.readEntry cfg path with
      | none => exact absurd herr (rpcSrvRemoveMetadata_unread hentry rmDir)
      | some md =>
        rw [rpcSrvRemoveMetadata_some hentry, removeEntry_err] at herr
        exact ⟨md, rfl, herr⟩
    · exact readEntry_eq_update (readEntry_empty (by rw [hdb, DB.cell_erase_self]))
        fun path' hne => by rw [hdb, DB.cell_erase_ne hne]
  · exact .inr ⟨herr, readEntry_of_db hdb⟩

end

end GekkoFS
