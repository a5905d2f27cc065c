import GekkoFS.Daemon.MetadataReadable

/-!
# Merging operands in any grouping

RocksDB decides when to call the merge operator and on how many of the queued operands, so the
value it ends up with must not depend on these choices, nor must the append offsets that the calls
put into the daemon's table.

`MergeOperand.plain` is what an operand is for, as an operation on an entry with unbounded
arithmetic, and `MergeOperand.offsets` the sizes before its appends. `fullMergeV2_plain` says that a
call of the merge operator on serialized operands computes just these, and `fullMergeV2_grouping`
that any prefix can be merged first.
-/

namespace GekkoFS

open List

namespace MergeOperand

/-- The operation that an operand stands for. -/
def plain (md : Metadata) : MergeOperand → Metadata
  | .increaseSize size _ true => { md with size := md.size + size }
  | .increaseSize size _ false => { md with size := max size md.size }
  | .decreaseSize size => { md with size := size }
  | .create _ => md
  | .updateTime mtime => { md with mtime := mtime }

/-- The appends among operands by merge id, each with the size before it, oldest first. -/
def offsets : Metadata → List MergeOperand → List (Nat × Nat)
  | _, [] => []
  | md, .increaseSize size mergeId true :: ops =>
    (mergeId, md.size) :: offsets (plain md (.increaseSize size mergeId true)) ops
  | md, op :: ops => offsets (plain md op) ops

end MergeOperand

open MergeOperand

/-- An entry that can be stored, and operands that fit their types and lead to sizes below `2 ^ 63`
only. -/
structure PlainOk (md : Metadata) (ops : List MergeOperand) : Prop where
  entry : md.Storable
  valid : ∀ op ∈ ops, op.Valid
  sizes : ∀ n, ((ops.take n).foldl plain md).size < 2 ^ 63

section
variable {cfg : MetadataConfig} {md : Metadata} {m : MergeState} {op : MergeOperand}
  {ops : List MergeOperand}

theorem Metadata.Storable.plain (h : md.Storable) (hop : op.Valid)
    (hsize : (op.plain md).size < 2 ^ 63) : (op.plain md).Storable := by
  cases op with
  | increaseSize size mergeId append => cases append <;> exact { h with size := hsize }
  | decreaseSize size => exact { h with size := hsize }
  | create metadata => exact h
  | updateTime mtime => exact { h with mtime := hop }

theorem PlainOk.nil (h : md.Storable) : PlainOk md [] where
  entry := h
  valid := fun _ hop => (not_mem_nil hop).elim
  sizes := fun n => by simpa using h.size

theorem PlainOk.cons (hmd : md.Storable) (hop : op.Valid) (hsize : (op.plain md).size < 2 ^ 63)
    (h : (op.plain md).Storable → PlainOk (op.plain md) ops) : PlainOk md (op :: ops) where
  entry := hmd
  valid := forall_mem_cons.2 ⟨hop, (h (hmd.plain hop hsize)).valid⟩
  sizes := fun n => by
    cases n with
    | zero => exact hmd.size
    | succ n => exact (h (hmd.plain hop hsize)).sizes n

theorem PlainOk.head (h : PlainOk md (op :: ops)) : op.Valid ∧ (op.plain md).size < 2 ^ 63 :=
  ⟨h.valid op mem_cons_self, h.sizes 1⟩

/-- The operands behind the first one. -/
theorem PlainOk.tail (h : PlainOk md (op :: ops)) : PlainOk (op.plain md) ops where
  entry := h.entry.plain h.head.1 h.head.2
  valid := fun o ho => h.valid o (mem_cons_of_mem _ ho)
  sizes := fun n => h.sizes (n + 1)

/-- The first operands of a list. -/
theorem PlainOk.left {xs ys : List MergeOperand} (h : PlainOk md (xs ++ ys)) : PlainOk md xs where
  entry := h.entry
  valid := fun op hop => h.valid op (mem_append_left _ hop)
  sizes := fun n => by
    have hn := h.sizes (min n xs.length)
    rwa [take_append_of_le_length (Nat.min_le_right _ _), ← take_eq_take_min] at hn

/-- The operands behind them. -/
theorem PlainOk.right {xs ys : List MergeOperand} (h : PlainOk md (xs ++ ys)) :
    PlainOk (xs.foldl MergeOperand.plain md) ys := by
  induction xs generalizing md with
  | nil => exact h
  | cons x xs ih => exact ih h.tail

/-- The state of a merge that has come to an entry: the size is that of the entry, and the other
fields that the build keeps are those of the entry. -/
structure MergeAt (cfg : MetadataConfig) (md : Metadata) (m : MergeState) : Prop where
  fsize : m.fsize = md.size
  kept : m.entry.kept cfg = md.kept cfg

section
variable (h : MergeAt cfg md m)
include h

/-- The value that a merge stores. -/
theorem MergeAt.newValue : m.newValue cfg = md.serialize cfg := by
  rw [MergeState.newValue, ← Metadata.serialize_kept cfg m.entry, h.kept,
    Metadata.serialize_kept cfg md]

theorem MergeAt.setSize (size : Nat) :
    MergeAt cfg { md with size := size } { m with fsize := size } where
  fsize := rfl
  kept := congrArg (fun k : Metadata => { k with size := size }) h.kept

theorem MergeAt.setMtime (mtime : Int) :
    MergeAt cfg { md with mtime := mtime } { m with md := { m.md with mtime := mtime } } where
  fsize := h.fsize
  kept := congrArg (fun k : Metadata => { k with mtime := if cfg.useMtime then mtime else 0 })
    h.kept

/-- An operand takes a merge to the entry that the plain operation leads to. -/
theorem MergeAt.apply (hsize : (op.plain md).size < 2 ^ 63) :
    MergeAt cfg (op.plain md) (op.apply m) := by
  cases op with
  | increaseSize size mergeId append =>
    cases append with
    | true =>
      have hu64 : u64 (m.fsize + size) = md.size + size := by
        rw [h.fsize]
        exact Nat.mod_eq_of_lt (Nat.lt_trans hsize (by decide))
      rw [MergeOperand.apply, hu64]
      exact h.setSize (md.size + size)
    | false =>
      rw [MergeOperand.apply, h.fsize]
      exact h.setSize (max size md.size)
  | decreaseSize size => exact h.setSize size
  | create metadata => exact h
  | updateTime mtime => exact h.setMtime mtime

/-- An append puts the size of the entry that the merge has come to. -/
theorem MergeAt.offsets_cons (op : MergeOperand)
    (ops : List MergeOperand) :
    offsets md (op :: ops) = (op.reserves m).toList ++ offsets (op.plain md) ops := by
  cases op with
  | increaseSize size mergeId append =>
    cases append with
    | true => simp only [offsets, reserves, h.fsize, Option.toList_some, singleton_append]
    | false => rfl
  | decreaseSize size => rfl
  | create metadata => rfl
  | updateTime mtime => rfl

/-- The loop over serialized operands takes a merge to the entry that the plain operations lead to,
and puts the sizes before the appends. -/
theorem MergeAt.mergeLoop (hok : PlainOk md ops) :
    ∃ m', mergeLoop m (ops.map serialize) = (offsets md ops, some m') ∧
      MergeAt cfg (ops.foldl plain md) m' := by
  induction ops generalizing md m with
  | nil => exact ⟨m, rfl, h⟩
  | cons op ops ih =>
    obtain ⟨m', hloop, hm'⟩ := ih (h.apply hok.head.2) hok.tail
    refine ⟨m', ?_, hm'⟩
    rw [map_cons, GekkoFS.mergeLoop, applyOperand_serialize m op hok.head.1,
      h.offsets_cons op ops]
    simp only [hloop]

/-- The last operand may lead to any size. -/
theorem MergeAt.mergeLoop_concat (hok : PlainOk md ops) (hop : op.Valid) :
    ∃ m', GekkoFS.mergeLoop m ((ops ++ [op]).map serialize) =
      (offsets md (ops ++ [op]), some m') := by
  induction ops generalizing md m with
  | nil =>
    refine ⟨op.apply m, ?_⟩
    rw [nil_append, map_singleton, GekkoFS.mergeLoop, applyOperand_serialize m op hop,
      h.offsets_cons op []]
    rfl
  | cons o ops ih =>
    obtain ⟨m', hloop⟩ := ih (h.apply hok.head.2) hok.tail
    refine ⟨m', ?_⟩
    rw [cons_append, map_cons, GekkoFS.mergeLoop, applyOperand_serialize m o hok.head.1,
      h.offsets_cons o (ops ++ [op])]
    simp only [hloop]

end

end

/-- The operands of a merge: on a stored entry, or without one after the creation of the entry. -/
inductive MergeStart (cfg : MetadataConfig) (md : Metadata) (rest : List MergeOperand) :
    Option (List Char) → List MergeOperand → Prop
  | stored : MergeStart cfg md rest (some (md.serialize cfg)) rest
  | created : MergeStart cfg md rest none (.create (md.serialize cfg) :: rest)

section
variable {cfg : MetadataConfig} {md : Metadata} {base : Option (List Char)}
  {ops rest : List MergeOperand}

/-- Where a merge starts. -/
theorem MergeStart.mergeBegin (h : MergeStart cfg md rest base ops) (hmd : md.Storable) :
    mergeBegin cfg base (ops.map serialize) = some (startOf cfg md, rest.map serialize) := by
  cases h with
  | stored =>
    simp only [GekkoFS.mergeBegin, Metadata.parse_serialize cfg hmd, Option.map_some]
    rfl
  | created =>
    simp only [map_cons, GekkoFS.mergeBegin, getId_serialize, MergeOperand.id, if_true,
      getParams_serialize, serializeParams, Metadata.parse_serialize cfg hmd, Option.map_some]
    rfl

theorem mergeAt_startOf (cfg : MetadataConfig) (md : Metadata) :
    MergeAt cfg md (startOf cfg md) := ⟨rfl, md.kept_kept cfg⟩

/-- A call of the merge operator yields the text of the entry that the plain operations lead to, and
puts the sizes before the appends. -/
theorem fullMergeV2_plain (hstart : MergeStart cfg md rest base ops) (hok : PlainOk md rest) :
    fullMergeV2 cfg base (ops.map serialize) =
      (offsets md rest, some ((rest.foldl plain md).serialize cfg)) := by
  obtain ⟨m', hloop, hm'⟩ := (mergeAt_startOf cfg md).mergeLoop hok
  simp only [fullMergeV2, hstart.mergeBegin hok.entry, hloop, Option.map_some, hm'.newValue]

/-- The last operand may lead to any size. -/
theorem fullMergeV2_concat {op : MergeOperand} (hstart : MergeStart cfg md (rest ++ [op]) base ops)
    (hok : PlainOk md rest) (hop : op.Valid) :
    ∃ value, fullMergeV2 cfg base (ops.map serialize) =
      (offsets md (rest ++ [op]), some value) := by
  obtain ⟨m', hloop⟩ := (mergeAt_startOf cfg md).mergeLoop_concat hok hop
  refine ⟨m'.newValue cfg, ?_⟩
  simp only [fullMergeV2, hstart.mergeBegin hok.entry, hloop, Option.map_some]

/-- The size that a merge leads to is that of the entry. -/
theorem mergedSize_plain (hstart : MergeStart cfg md rest base ops) (hok : PlainOk md rest) :
    mergedSize cfg base (ops.map serialize) = some (rest.foldl plain md).size := by
  obtain ⟨m', hloop, hm'⟩ := (mergeAt_startOf cfg md).mergeLoop hok
  simp only [mergedSize, hstart.mergeBegin hok.entry, Option.bind_some, hloop, Option.map_some,
    hm'.fsize]

/-- A prefix of the operands starts the merge as all of them do. -/
theorem MergeStart.left {xs ys : List MergeOperand}
    (h : MergeStart cfg md rest base (xs ++ ys)) (hxs : base = none → xs ≠ []) :
    ∃ rest', rest = rest' ++ ys ∧ MergeStart cfg md rest' base xs := by
  generalize hops : xs ++ ys = ops at h
  cases h with
  | stored => exact ⟨xs, hops.symm, .stored⟩
  | created =>
    cases xs with
    | nil => exact absurd rfl (hxs rfl)
    | cons x xs =>
      rw [cons_append] at hops
      obtain ⟨rfl, rfl⟩ := List.cons.inj hops
      exact ⟨xs, rfl, .created⟩

end

/-- The offsets of a list in two parts. -/
theorem offsets_append (md : Metadata) (xs ys : List MergeOperand) :
    offsets md (xs ++ ys) = offsets md xs ++ offsets (xs.foldl plain md) ys := by
  induction xs generalizing md with
  | nil => rfl
  | cons x xs ih =>
    have hat : MergeAt MetadataConfig.default md ⟨md, md.size⟩ := ⟨rfl, rfl⟩
    rw [cons_append, hat.offsets_cons x (xs ++ ys), hat.offsets_cons x xs, ih,
      append_assoc, foldl_cons]

/-- The merge operator computes the left-to-right fold of the plain operations, and any prefix of
the operands can be merged first: the value and the append offsets are the same. -/
theorem fullMergeV2_grouping (cfg : MetadataConfig) (md : Metadata) (base : Option (List Char))
    (ops rest : List MergeOperand) (hstart : MergeStart cfg md rest base ops)
    (hok : PlainOk md rest) :
    (fullMergeV2 cfg base (ops.map serialize)).2 =
      some ((rest.foldl plain md).serialize cfg) ∧
    ∀ xs ys, ops = xs ++ ys → (base = none → xs ≠ []) →
      ∃ value, (fullMergeV2 cfg base (xs.map serialize)).2 = some value ∧
        (fullMergeV2 cfg (some value) (ys.map serialize)).2 =
          (fullMergeV2 cfg base (ops.map serialize)).2 ∧
        (fullMergeV2 cfg base (xs.map serialize)).1 ++
            (fullMergeV2 cfg (some value) (ys.map serialize)).1 =
          (fullMergeV2 cfg base (ops.map serialize)).1 := by
  refine ⟨by rw [fullMergeV2_plain hstart hok], ?_⟩
  rintro xs ys rfl hxs
  obtain ⟨rest', rfl, hleft⟩ := hstart.left hxs
  refine ⟨(rest'.foldl plain md).serialize cfg, ?_, ?_, ?_⟩
  · rw [fullMergeV2_plain hleft hok.left]
  · rw [fullMergeV2_plain .stored hok.right, fullMergeV2_plain hstart hok, foldl_append]
  · rw [fullMergeV2_plain hleft hok.left, fullMergeV2_plain .stored hok.right,
      fullMergeV2_plain hstart hok, offsets_append]

/-- The switches of a build that keeps modification times. -/
def mtimeConfig : MetadataConfig := { MetadataConfig.default with useMtime := true }

/-- A new file. -/
def newFile : Metadata := Metadata.ofMode mtimeConfig 0 33188

/-- Updates of a file, of each kind. -/
def fileUpdates : List MergeOperand :=
  [.increaseSize 4 7 true, .updateTime (-3), .increaseSize 9 0 false, .decreaseSize 2,
    .create [], .increaseSize 5 8 true]

theorem plainOk_fileUpdates : PlainOk newFile fileUpdates :=
  .cons (Metadata.storable_ofMode _ (by decide) (by decide)) ⟨by decide, by decide⟩ (by decide)
    fun h => .cons h (show Metadata.IsLong (-3) by decide) (by decide)
    fun h => .cons h ⟨by decide, by decide⟩ (by decide)
    fun h => .cons h (show 2 < 2 ^ 64 by decide) (by decide)
    fun h => .cons h trivial (by decide)
    fun h => .cons h ⟨by decide, by decide⟩ (by decide) fun h => .nil h

theorem fullMergeV2_grouping_fileUpdates :
    (fullMergeV2 mtimeConfig none
        ((.create (newFile.serialize mtimeConfig) :: fileUpdates).map serialize)).2 =
      some "33188|7|-3".toList ∧
    ∃ value, (fullMergeV2 mtimeConfig (some value) ((fileUpdates.drop 1).map serialize)).2 =
      some "33188|7|-3".toList := by
  have h := fullMergeV2_grouping mtimeConfig newFile none _ _ .created plainOk_fileUpdates
  obtain ⟨value, -, hsame, -⟩ := h.2 [_, _] (fileUpdates.drop 1) rfl (by simp)
  exact ⟨h.1, value, hsame.trans h.1⟩

end GekkoFS
