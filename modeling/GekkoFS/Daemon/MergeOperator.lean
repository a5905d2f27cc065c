import GekkoFS.Common.Metadata

/-!
# The merge operator of the metadata store

Size and time updates are not written to the store as values. The daemon queues a serialized merge
operand for the key, and RocksDB calls `MetadataMergeOperator::FullMergeV2` on the stored value and
the queued operands whenever it needs the current value: on a read, and when it compacts. An append
operand has a side effect there: the file size before it is put into a table of the daemon under
the operand's merge id.

`fullMergeV2` is that function, as a start (`mergeBegin`) and a loop (`mergeLoop`) of
`applyOperand`, with the table entries it puts in order. A call can throw after some of its puts,
so its result has both. `applyOperand_serialize` says that a serialized operand does what the
operand means, and `mergedSize_append` how the size that a list of operands leads to is built up,
which is all that the proofs about interleaved calls use.
-/

namespace GekkoFS

open Decimal List Option

/-! ## Operands -/

/-- The kinds of merge operands. Source: `OperandID` (`merge.hpp:45`). -/
inductive OperandID
  | increaseSize
  | decreaseSize
  | create
  | updateTime
  deriving DecidableEq, Repr

/-- The character that stands for a kind. -/
def OperandID.char : OperandID → Char
  | .increaseSize => 'i'
  | .decreaseSize => 'd'
  | .create => 'c'
  | .updateTime => 't'

/-- The kind that a character stands for. -/
def OperandID.ofChar? (c : Char) : Option OperandID :=
  if c = 'i' then some .increaseSize
  else if c = 'd' then some .decreaseSize
  else if c = 'c' then some .create
  else if c = 't' then some .updateTime
  else none

/-- A merge operand. Source: the subclasses of `MergeOperand` (`merge.hpp:84`). -/
inductive MergeOperand
  | increaseSize (size mergeId : Nat) (append : Bool)
  | decreaseSize (size : Nat)
  | create (metadata : List Char)
  | updateTime (mtime : Int)
  deriving DecidableEq, Repr

namespace MergeOperand

/-- The kind of an operand. Source: the overrides of `MergeOperand::id`. -/
def id : MergeOperand → OperandID
  | .increaseSize .. => .increaseSize
  | .decreaseSize _ => .decreaseSize
  | .create _ => .create
  | .updateTime _ => .updateTime

/-- The parameters of an operand as text. Source: the overrides of
`MergeOperand::serialize_params` (`merge.cpp:94`). -/
def serializeParams : MergeOperand → List Char
  | .increaseSize size mergeId append =>
    if append then ofNat size ++ ',' :: (ofNat mergeId ++ ['\x00']) else ofNat size ++ ['\x00']
  | .decreaseSize size => ofNat size
  | .create metadata => metadata
  | .updateTime mtime => ofInt mtime

/-- The text of an operand. Source: `MergeOperand::serialize` (`merge.cpp:46`). -/
def serialize (op : MergeOperand) : List Char := op.id.char :: ':' :: op.serializeParams

/-- The kind of a serialized operand. Source: `MergeOperand::get_id` (`merge.cpp:53`). -/
def getId (serializedOp : List Char) : Option OperandID :=
  OperandID.ofChar? (serializedOp.headD '\x00')

/-- The parameters of a serialized operand. Source: `MergeOperand::get_params`
(`merge.cpp:58`). -/
def getParams (serializedOp : List Char) : List Char := serializedOp.drop 2

end MergeOperand

/-- The size, merge id and append flag of an increase operand. Source:
`IncreaseSizeOperand::IncreaseSizeOperand(const rdb::Slice&)` (`merge.cpp:71`). -/
def parseIncreaseSize (params : List Char) : Option (Nat × Nat × Bool) :=
  (stoul (cstr params)).bind fun r =>
    if r.2 + 1 = params.length ∨ params.getD r.2 '\x00' = '\x00' then some (r.1, 0, false)
    else (stoul (cstr (params.drop (r.2 + 1)))).map fun q => (r.1, q.1 % 2 ^ 16, true)

/-- The size of a decrease operand. Source:
`DecreaseSizeOperand::DecreaseSizeOperand(const rdb::Slice&)` (`merge.cpp:108`). -/
def parseDecreaseSize (params : List Char) : Option Nat := (stoul (cstr params)).map Prod.fst

/-- The time of an update operand, as the signed word of the bits read. Source:
`UpdateTimeOperand::UpdateTimeOperand(const rdb::Slice&)` (`merge.cpp:144`). -/
def parseUpdateTime (params : List Char) : Option Int :=
  (stoul (cstr params)).map fun r => if r.1 < 2 ^ 63 then (r.1 : Int) else (r.1 : Int) - 2 ^ 64

/-! ## FullMergeV2 -/

/-- The local variables of the loop: the entry, whose time an operand may set, and the size, which
is put into the entry at the end. -/
structure MergeState where
  md : Metadata
  fsize : Nat
  deriving DecidableEq, Repr

/-- One operand: the new state, and the offset it reserves under a merge id if it is an append.
It throws on an operand of an unknown kind and on parameters that are no numbers. The assertion
that a decrease leads to a smaller size is not part of a release build.
Source: `MetadataMergeOperator::FullMergeV2` (`merge.cpp:196`). -/
def applyOperand (m : MergeState) (serializedOp : List Char) :
    Option (MergeState × Option (Nat × Nat)) :=
  match MergeOperand.getId serializedOp with
  | some .increaseSize =>
    (parseIncreaseSize (MergeOperand.getParams serializedOp)).map fun op =>
      if op.2.2 then ({ m with fsize := u64 (m.fsize + op.1) }, some (op.2.1, m.fsize))
      else ({ m with fsize := max op.1 m.fsize }, none)
  | some .decreaseSize =>
    (parseDecreaseSize (MergeOperand.getParams serializedOp)).map fun size =>
      ({ m with fsize := size }, none)
  | some .create => some (m, none)
  | some .updateTime =>
    (parseUpdateTime (MergeOperand.getParams serializedOp)).map fun mtime =>
      ({ m with md := { m.md with mtime := mtime } }, none)
  | none => none

/-- The state before the loop, and the operands that the loop goes over: without a stored value the
first operand has to be a creation. Source: `MetadataMergeOperator::FullMergeV2`
(`merge.cpp:176`). -/
def mergeBegin (cfg : MetadataConfig) (existingValue : Option (List Char))
    (operandList : List (List Char)) : Option (MergeState × List (List Char)) :=
  match existingValue with
  | some value => (Metadata.parse cfg value).map fun md => (⟨md, md.size⟩, operandList)
  | none =>
    match operandList with
    | [] => none
    | op :: ops =>
      if MergeOperand.getId op = some .create then
        (Metadata.parse cfg (MergeOperand.getParams op)).map fun md => (⟨md, md.size⟩, ops)
      else none

/-- The loop over the operands: the offsets it reserves, in order, and its final state unless it
throws. -/
def mergeLoop : MergeState → List (List Char) → List (Nat × Nat) × Option MergeState
  | m, [] => ([], some m)
  | m, op :: ops =>
    match applyOperand m op with
    | none => ([], none)
    | some (m', reserved) => (reserved.toList ++ (mergeLoop m' ops).1, (mergeLoop m' ops).2)

/-- The entry that a finished merge yields. -/
def MergeState.entry (m : MergeState) : Metadata := { m.md with size := m.fsize }

/-- The value that a finished merge yields. -/
def MergeState.newValue (cfg : MetadataConfig) (m : MergeState) : List Char :=
  m.entry.serialize cfg

/-- The offsets that a call of the merge operator reserves, and the merged value unless it throws.
Source: `MetadataMergeOperator::FullMergeV2` (`merge.cpp:176`). -/
def fullMergeV2 (cfg : MetadataConfig) (existingValue : Option (List Char))
    (operandList : List (List Char)) : List (Nat × Nat) × Option (List Char) :=
  match mergeBegin cfg existingValue operandList with
  | none => ([], none)
  | some (m, ops) => ((mergeLoop m ops).1, (mergeLoop m ops).2.map (MergeState.newValue cfg))

/-! ## What a serialized operand does -/

namespace MergeOperand

/-- The numbers of an operand fit their types. -/
def Valid : MergeOperand → Prop
  | .increaseSize size mergeId _ => size < 2 ^ 64 ∧ mergeId < 2 ^ 16
  | .decreaseSize size => size < 2 ^ 64
  | .create _ => True
  | .updateTime mtime => Metadata.IsLong mtime

/-- The effect of an operand on the state of a merge. -/
def apply (m : MergeState) : MergeOperand → MergeState
  | .increaseSize size _ true => { m with fsize := u64 (m.fsize + size) }
  | .increaseSize size _ false => { m with fsize := max size m.fsize }
  | .decreaseSize size => { m with fsize := size }
  | .create _ => m
  | .updateTime mtime => { m with md := { m.md with mtime := mtime } }

/-- The offset that an operand reserves. -/
def reserves (m : MergeState) : MergeOperand → Option (Nat × Nat)
  | .increaseSize _ mergeId true => some (mergeId, m.fsize)
  | _ => none

@[simp] theorem getParams_serialize (op : MergeOperand) :
    getParams op.serialize = op.serializeParams := rfl

@[simp] theorem getId_serialize (op : MergeOperand) : getId op.serialize = some op.id := by
  cases op <;> rfl

end MergeOperand

theorem cstr_append_nul {l : List Char} (h : '\x00' ∉ l) : cstr (l ++ ['\x00']) = l := by
  rw [Metadata.cstr_append h]
  exact append_nil l

variable {size : Nat} {m m' : MergeState} {op : List Char} {reserved : Option (Nat × Nat)}
  {cfg : MetadataConfig} {value : Option (List Char)} {ops : List (List Char)}

/-- The parameters of an increase without append are read back. -/
theorem parseIncreaseSize_plain (h : size < 2 ^ 64) :
    parseIncreaseSize (ofNat size ++ ['\x00']) = some (size, 0, false) := by
  have hread := stoul_ofNat size Stops.nil
  rw [append_nil, if_pos h] at hread
  rw [parseIncreaseSize, cstr_append_nul (Metadata.nul_not_mem_ofNat size), hread,
    bind_some, if_pos (.inl (by simp))]

/-- The parameters of an append are read back. -/
theorem parseIncreaseSize_append {mergeId : Nat} (h : size < 2 ^ 64) (hid : mergeId < 2 ^ 16) :
    parseIncreaseSize (ofNat size ++ ',' :: (ofNat mergeId ++ ['\x00'])) =
      some (size, mergeId, true) := by
  have hcstr : cstr (ofNat size ++ ',' :: (ofNat mergeId ++ ['\x00'])) =
      ofNat size ++ ',' :: ofNat mergeId := by
    rw [append_cons, ← append_assoc, cstr_append_nul, ← append_cons]
    simp [Metadata.nul_not_mem_ofNat]
  have hread := @stoul_ofNat size (',' :: ofNat mergeId) (Stops.cons (by decide))
  have hid' := stoul_ofNat mergeId Stops.nil
  rw [append_nil, if_pos (by omega)] at hid'
  rw [parseIncreaseSize, hcstr, hread, if_pos h, bind_some, if_neg]
  · have hdrop : (ofNat size ++ ',' :: (ofNat mergeId ++ ['\x00'])).drop ((ofNat size).length + 1) =
        ofNat mergeId ++ ['\x00'] := by
      rw [append_cons, drop_left']
      simp
    rw [hdrop, cstr_append_nul (Metadata.nul_not_mem_ofNat mergeId), hid', map_some,
      Nat.mod_eq_of_lt hid]
  · have hlen : 0 < (ofNat mergeId).length := Nat.length_toDigits_pos
    rintro (hend | hnul)
    · simp at hend
    · rw [getD_append_right _ _ _ _ (Nat.le_refl _), Nat.sub_self,
        getD_cons_zero] at hnul
      exact absurd hnul (by decide)

theorem parseDecreaseSize_ofNat (h : size < 2 ^ 64) :
    parseDecreaseSize (ofNat size) = some size := by
  have hread := stoul_ofNat size Stops.nil
  rw [append_nil, if_pos h] at hread
  rw [parseDecreaseSize, Metadata.cstr_eq_self (Metadata.nul_not_mem_ofNat size), hread]
  rfl

theorem parseUpdateTime_ofInt {mtime : Int} (h : Metadata.IsLong mtime) :
    parseUpdateTime (ofInt mtime) = some mtime := by
  have hread := stoul_ofInt h.1 h.2 Stops.nil
  rw [append_nil] at hread
  rw [parseUpdateTime, Metadata.cstr_eq_self (Metadata.nul_not_mem_ofInt mtime), hread,
    map_some]
  obtain ⟨hlo, hhi⟩ := h
  congr 1
  split <;> omega

/-- A serialized operand has the effect of the operand. -/
theorem applyOperand_serialize (m : MergeState) (op : MergeOperand) (h : op.Valid) :
    applyOperand m op.serialize = some (op.apply m, op.reserves m) := by
  simp only [applyOperand, MergeOperand.getId_serialize, MergeOperand.getParams_serialize]
  cases op with
  | increaseSize size mergeId append =>
    cases append with
    | false =>
      simp only [MergeOperand.id, MergeOperand.serializeParams, Bool.false_eq_true, if_false,
        parseIncreaseSize_plain h.1, map_some]
      rfl
    | true =>
      simp only [MergeOperand.id, MergeOperand.serializeParams, if_true,
        parseIncreaseSize_append h.1 h.2, map_some]
      rfl
  | decreaseSize size =>
    simp only [MergeOperand.id, MergeOperand.serializeParams, parseDecreaseSize_ofNat h,
      map_some]
    rfl
  | create metadata => rfl
  | updateTime mtime =>
    simp only [MergeOperand.id, MergeOperand.serializeParams, parseUpdateTime_ofInt h,
      map_some]
    rfl

/-- The merge id of a serialized operand that is an append. -/
def appendId (serializedOp : List Char) : Option Nat :=
  match MergeOperand.getId serializedOp with
  | some .increaseSize =>
    (parseIncreaseSize (MergeOperand.getParams serializedOp)).bind fun op =>
      if op.2.2 then some op.2.1 else none
  | _ => none

/-- Only an append operand reserves an offset: the size before it, under its merge id. -/
theorem reserved_of_applyOperand (h : applyOperand m op = some (m', reserved)) :
    reserved = (appendId op).map fun id => (id, m.fsize) := by
  rw [applyOperand] at h
  rw [appendId]
  split at h
  · next hid =>
    obtain ⟨r, hr, heq⟩ := map_eq_some_iff.1 h
    rw [hid]
    simp only [hr, bind_some]
    split at heq <;> · next happ => cases heq; simp [happ]
  · next hid =>
    obtain ⟨r, -, heq⟩ := map_eq_some_iff.1 h
    cases heq
    simp [hid]
  · next hid => cases h; simp [hid]
  · next hid =>
    obtain ⟨r, -, heq⟩ := map_eq_some_iff.1 h
    cases heq
    simp [hid]
  · cases h

/-- What an operand does to the size depends on the size only. -/
theorem applyOperand_congr {n : MergeState} (hmn : m.fsize = n.fsize)
    (h : applyOperand m op = some (m', reserved)) :
    ∃ n', applyOperand n op = some (n', reserved) ∧ n'.fsize = m'.fsize := by
  rw [applyOperand] at h ⊢
  split at h
  · next hid =>
    obtain ⟨r, hr, heq⟩ := map_eq_some_iff.1 h
    simp only [hr, map_some]
    split at heq
    · next happ =>
      cases heq
      rw [if_pos happ, ← hmn]
      exact ⟨_, rfl, rfl⟩
    · next happ =>
      cases heq
      rw [if_neg happ, ← hmn]
      exact ⟨_, rfl, rfl⟩
  · next hid =>
    obtain ⟨r, hr, heq⟩ := map_eq_some_iff.1 h
    cases heq
    simp only [hr, map_some]
    exact ⟨_, rfl, rfl⟩
  · next hid => cases h; exact ⟨_, rfl, hmn.symm⟩
  · next hid =>
    obtain ⟨r, hr, heq⟩ := map_eq_some_iff.1 h
    cases heq
    simp only [hr, map_some]
    exact ⟨_, rfl, hmn.symm⟩
  · cases h

/-! ## Lists of operands -/

namespace MergeOperand

/-- The effect of a list of operands, oldest first. -/
def applyAll (m : MergeState) (ops : List MergeOperand) : MergeState := ops.foldl apply m

/-- The size that an operand leads to. -/
def newSize (fsize : Nat) : MergeOperand → Nat
  | .increaseSize size _ true => u64 (fsize + size)
  | .increaseSize size _ false => max size fsize
  | .decreaseSize size => size
  | .create _ => fsize
  | .updateTime _ => fsize

@[simp] theorem apply_fsize (m : MergeState) (op : MergeOperand) :
    (op.apply m).fsize = op.newSize m.fsize := by
  cases op with
  | increaseSize size mergeId append => cases append <;> rfl
  | decreaseSize size => rfl
  | create metadata => rfl
  | updateTime mtime => rfl

/-- The size that a list of operands leads to depends on the size only. -/
theorem applyAll_fsize (m : MergeState) (ops : List MergeOperand) :
    (applyAll m ops).fsize = ops.foldl newSize m.fsize := by
  induction ops generalizing m with
  | nil => rfl
  | cons op ops ih => exact (ih (op.apply m)).trans (by rw [apply_fsize]; rfl)

/-- An operand keeps an entry storable if the size it leads to is. -/
theorem entry_apply {m : MergeState} {op : MergeOperand} (hm : m.entry.Storable) (hop : op.Valid)
    (hsize : op.newSize m.fsize < 2 ^ 63) : (op.apply m).entry.Storable := by
  cases op with
  | increaseSize size mergeId append => cases append <;> exact { hm with size := hsize }
  | decreaseSize size => exact { hm with size := hsize }
  | create metadata => exact hm
  | updateTime mtime => exact { hm with mtime := hop }

/-- A list of operands keeps an entry storable if each size it leads to is. -/
theorem entry_applyAll {m : MergeState} {ops : List MergeOperand} (hm : m.entry.Storable)
    (hops : ∀ op ∈ ops, op.Valid) (hsize : ∀ n, (ops.take n).foldl newSize m.fsize < 2 ^ 63) :
    (applyAll m ops).entry.Storable := by
  induction ops generalizing m with
  | nil => exact hm
  | cons op ops ih =>
    refine ih (entry_apply hm (hops op mem_cons_self) ?_)
      (fun o ho => hops o (mem_cons_of_mem _ ho)) fun n => ?_
    · simpa using hsize 1
    · rw [apply_fsize]; simpa using hsize (n + 1)

end MergeOperand

/-- The loop over serialized operands has the effect of the operands. -/
theorem mergeLoop_serialize {ops : List MergeOperand} (hops : ∀ op ∈ ops, op.Valid)
    (m : MergeState) :
    (mergeLoop m (ops.map MergeOperand.serialize)).2 = some (MergeOperand.applyAll m ops) := by
  induction ops generalizing m with
  | nil => rfl
  | cons op ops ih =>
    rw [map_cons, mergeLoop, applyOperand_serialize m op (hops op mem_cons_self)]
    exact ih (fun o ho => hops o (mem_cons_of_mem _ ho)) _

/-- The start of a merge does not depend on the operands after the first. -/
theorem mergeBegin_append {ops' : List (List Char)} (h : mergeBegin cfg value ops = some (m, ops'))
    (more : List (List Char)) : mergeBegin cfg value (ops ++ more) = some (m, ops' ++ more) := by
  cases value with
  | some v =>
    obtain ⟨md, hmd, heq⟩ := map_eq_some_iff.1 h
    cases heq
    simp [mergeBegin, hmd]
  | none =>
    cases ops with
    | nil => cases h
    | cons op ops =>
      simp only [mergeBegin, cons_append] at h ⊢
      split at h
      · next hid =>
        obtain ⟨md, hmd, heq⟩ := map_eq_some_iff.1 h
        cases heq
        simp [hid, hmd]
      · cases h

/-- The loop over two lists of operands is the loop over the first and then over the second. -/
theorem mergeLoop_append {xs : List (List Char)}
    (h : (mergeLoop m xs).2 = some m') (ys : List (List Char)) :
    mergeLoop m (xs ++ ys) =
      ((mergeLoop m xs).1 ++ (mergeLoop m' ys).1, (mergeLoop m' ys).2) := by
  induction xs generalizing m with
  | nil => cases h; rfl
  | cons x xs ih =>
    simp only [mergeLoop, cons_append] at h ⊢
    split at h
    · cases h
    · next n reserved hx => rw [ih h, append_assoc]

/-- The size that a value and a list of operands lead to, unless their merge throws. -/
def mergedSize (cfg : MetadataConfig) (value : Option (List Char)) (ops : List (List Char)) :
    Option Nat :=
  (mergeBegin cfg value ops).bind fun r => (mergeLoop r.1 r.2).2.map MergeState.fsize

/-- An operand leads from a 64-bit size to a 64-bit size. -/
theorem fsize_lt_of_applyOperand (hm : m.fsize < 2 ^ 64)
    (h : applyOperand m op = some (m', reserved)) : m'.fsize < 2 ^ 64 := by
  rw [applyOperand] at h
  split at h
  · obtain ⟨⟨size, mergeId, append⟩, hr, heq⟩ := map_eq_some_iff.1 h
    have hsize : size < 2 ^ 64 := by
      obtain ⟨⟨n, read⟩, hn, hcase⟩ := bind_eq_some_iff.1 hr
      split at hcase
      · cases hcase; exact stoul_lt hn
      · obtain ⟨q, -, heq⟩ := map_eq_some_iff.1 hcase
        cases heq; exact stoul_lt hn
    cases append with
    | true => cases heq; exact Nat.mod_lt _ (by decide)
    | false => cases heq; exact Nat.max_lt.2 ⟨hsize, hm⟩
  · obtain ⟨size, hr, heq⟩ := map_eq_some_iff.1 h
    cases heq
    obtain ⟨⟨n, read⟩, hn, rfl⟩ := map_eq_some_iff.1 hr
    exact stoul_lt hn
  · cases h; exact hm
  · obtain ⟨mtime, -, heq⟩ := map_eq_some_iff.1 h
    cases heq; exact hm
  · cases h

theorem fsize_lt_of_mergeLoop
    (hm : m.fsize < 2 ^ 64) (h : (mergeLoop m ops).2 = some m') : m'.fsize < 2 ^ 64 := by
  induction ops generalizing m with
  | nil => cases h; exact hm
  | cons op ops ih =>
    rw [mergeLoop] at h
    split at h
    · cases h
    · next n reserved happ => exact ih (fsize_lt_of_applyOperand hm happ) h

/-- The size that a merge leads to is a 64-bit word. -/
theorem mergedSize_lt (h : mergedSize cfg value ops = some size) :
    size < 2 ^ 64 := by
  obtain ⟨⟨m, rest⟩, hbegin, hloop⟩ := bind_eq_some_iff.1 h
  obtain ⟨m', hm', rfl⟩ := map_eq_some_iff.1 hloop
  refine fsize_lt_of_mergeLoop ?_ hm'
  cases value with
  | some v =>
    obtain ⟨md, hmd, heq⟩ := map_eq_some_iff.1 hbegin
    cases heq; exact Metadata.size_lt_of_parse hmd
  | none =>
    cases ops with
    | nil => cases hbegin
    | cons op ops =>
      simp only [mergeBegin] at hbegin
      split at hbegin
      · obtain ⟨md, hmd, heq⟩ := map_eq_some_iff.1 hbegin
        cases heq; exact Metadata.size_lt_of_parse hmd
      · cases hbegin

/-- One more operand changes the size as it changes the size in any merge. -/
theorem mergedSize_append
    (h : mergedSize cfg value ops = some m.fsize) (hop : applyOperand m op = some (m', reserved)) :
    mergedSize cfg value (ops ++ [op]) = some m'.fsize := by
  obtain ⟨⟨n, ops'⟩, hbegin, hloop⟩ := bind_eq_some_iff.1 h
  obtain ⟨n', hn', hsize⟩ := map_eq_some_iff.1 hloop
  obtain ⟨n'', happ, hsize'⟩ := applyOperand_congr hsize.symm hop
  rw [mergedSize, mergeBegin_append hbegin, bind_some]
  simp only [mergeLoop_append hn', mergeLoop, happ, map_some, hsize']

/-- A loop that gets to the end of a list has got to the end of every prefix. -/
theorem mergeLoop_concat {m'' : MergeState} {xs : List (List Char)}
    (h : (mergeLoop m (xs ++ [op])).2 = some m'') :
    ∃ m' reserved, (mergeLoop m xs).2 = some m' ∧ applyOperand m' op = some (m'', reserved) := by
  induction xs generalizing m with
  | nil =>
    simp only [nil_append, mergeLoop] at h
    split at h
    · cases h
    · next m' reserved happ => cases h; exact ⟨m, reserved, rfl, happ⟩
  | cons x xs ih =>
    simp only [mergeLoop, cons_append] at h ⊢
    split at h
    · cases h
    · next m' reserved happ => exact ih h

/-- Operands that can be merged can be merged without the last one, unless it is the creation that
starts the merge. -/
theorem mergedSize_concat (hop : MergeOperand.getId op ≠ some .create)
    (h : mergedSize cfg value (ops ++ [op]) = some size) :
    ∃ m m' reserved, mergedSize cfg value ops = some m.fsize ∧
      applyOperand m op = some (m', reserved) ∧ m'.fsize = size := by
  obtain ⟨⟨n, rest⟩, hbegin, hloop⟩ := bind_eq_some_iff.1 h
  obtain ⟨n', hn', hsize⟩ := map_eq_some_iff.1 hloop
  -- the operands before the last one start the merge in the same way
  obtain ⟨ops', hbegin', rfl⟩ : ∃ ops', mergeBegin cfg value ops = some (n, ops') ∧
      rest = ops' ++ [op] := by
    cases value with
    | some v =>
      obtain ⟨md, hmd, heq⟩ := map_eq_some_iff.1 hbegin
      cases heq
      exact ⟨ops, by simp [mergeBegin, hmd], rfl⟩
    | none =>
      cases ops with
      | nil => simp [mergeBegin, hop] at hbegin
      | cons o ops =>
        simp only [mergeBegin, cons_append] at hbegin ⊢
        split at hbegin
        · next hid =>
          obtain ⟨md, hmd, heq⟩ := map_eq_some_iff.1 hbegin
          cases heq
          exact ⟨ops, by simp [hid, hmd], rfl⟩
        · cases hbegin
  obtain ⟨m, reserved, hm, happ⟩ := mergeLoop_concat hn'
  refine ⟨m, n', reserved, ?_, happ, hsize⟩
  rw [mergedSize, hbegin', bind_some, hm, map_some]

end GekkoFS
