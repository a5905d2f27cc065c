import GekkoFS.Daemon.AppendOffsets

/-!
# Histories of keys and the table of append offsets

Every call of the merge operator replays the history of its key from some place on: RocksDB's cell
is the history with its first operands folded into the value (`FoldedFrom`), and a call under way
stands at a place of the history with the size the file has there (`CursorAt`). So an append operand
is only ever put into the table with the size before its place in the history.

The table is keyed by the merge id alone. `RequestsOk` says what keeps it apart: an operand that may
still be put under the merge id of an append under way is that append's own operand. Under it, an
append whose operand some call has passed finds its own offset in the table.
-/

namespace GekkoFS

open Function List

/-! ## Replaying the history of a key -/

section
variable {cfg : MetadataConfig} {h c : Cell} {n f : Nat} {m m' : MergeState} {op : List Char}
  {rest : List (List Char)}

/-- A call of the merge operator stands after the first `n` operands of the history `h` of its key,
with `rest` to come. -/
structure CursorAt (cfg : MetadataConfig) (h : Cell) (n : Nat) (m : MergeState)
    (rest : List (List Char)) : Prop where
  bound : n + rest.length ≤ h.operands.length
  rest : (h.operands.drop n).take rest.length = rest
  size : h.sizeAt cfg n = some m.fsize

/-- The cell `c` is the history `h` of its key with the first `f` operands folded. -/
structure FoldedFrom (cfg : MetadataConfig) (h c : Cell) (f : Nat) : Prop where
  bound : f ≤ h.operands.length
  operands : c.operands = h.operands.drop f
  none : c.base = none → f = 0 ∧ h.base = none
  size : ∀ value md, c.base = some value → Metadata.parse cfg value = some md →
    h.sizeAt cfg f = some md.size

/-- More operands do not change the size at an earlier place. -/
theorem Cell.sizeAt_merge (hn : n ≤ h.operands.length) (op : List Char) :
    (h.merge op).sizeAt cfg n = h.sizeAt cfg n := by
  rw [Cell.sizeAt, Cell.merge, take_append_of_le_length hn, Cell.sizeAt]

/-- Nothing is folded at first. -/
theorem FoldedFrom.refl (c : Cell) : FoldedFrom cfg c c 0 where
  bound := Nat.zero_le _
  operands := rfl
  none := fun hnone => ⟨rfl, hnone⟩
  size := fun value md hbase hparse => by
    simp [Cell.sizeAt, mergedSize, mergeBegin, hbase, hparse, mergeLoop]

/-- An operand is added to the history and to the cell. -/
theorem FoldedFrom.merge (hf : FoldedFrom cfg h c f) (op : List Char) :
    FoldedFrom cfg (h.merge op) (c.merge op) f where
  bound := by
    have := hf.bound
    simp only [Cell.merge, length_append]
    omega
  operands := by
    simp only [Cell.merge]
    rw [drop_append_of_le_length hf.bound, hf.operands]
  none := hf.none
  size := fun value md hbase hparse => by
    rw [Cell.sizeAt_merge hf.bound]; exact hf.size value md hbase hparse

/-- A new operand does not move a call. -/
theorem CursorAt.merge (hc : CursorAt cfg h n m rest) (op : List Char) :
    CursorAt cfg (h.merge op) n m rest where
  bound := by
    have := hc.bound
    simp only [Cell.merge, length_append]
    omega
  rest := by
    have hb := hc.bound
    simp only [Cell.merge]
    rw [drop_append_of_le_length (by omega),
      take_append_of_le_length (by rw [length_drop]; omega)]
    exact hc.rest
  size := by
    have := hc.bound
    rw [Cell.sizeAt_merge (by omega)]
    exact hc.size

/-- The operand that a call applies next is the operand at its place of the history. -/
theorem CursorAt.getElem? (hc : CursorAt cfg h n m (op :: rest)) : h.operands[n]? = some op := by
  have hrest := congrArg (·[0]?) hc.rest
  simpa [getElem?_take, getElem?_drop] using hrest

/-- Applying an operand takes a call one place further. -/
theorem CursorAt.step (hc : CursorAt cfg h n m (op :: rest)) {reserved : Option (Nat × Nat)}
    (happ : applyOperand m op = some (m', reserved)) : CursorAt cfg h (n + 1) m' rest where
  bound := by have := hc.bound; simp only [length_cons] at this; omega
  rest := by
    have hrest := congrArg (·.drop 1) hc.rest
    simpa [drop_take, drop_drop, Nat.add_comm] using hrest
  size := by
    have hb := hc.bound
    simp only [length_cons] at hb
    have htake : h.operands.take (n + 1) = h.operands.take n ++ [op] := by
      rw [take_add_one, hc.getElem?, Option.toList_some]
    rw [Cell.sizeAt, htake]
    exact mergedSize_append hc.size happ

/-- A call that starts on the first operands of a cell stands at the place up to which the cell is
folded, or after the creation that starts the history. -/
theorem FoldedFrom.begin (hf : FoldedFrom cfg h c f) {ops : List (List Char)}
    (hops : ops <+: c.operands) (hbegin : mergeBegin cfg c.base ops = some (m, rest)) :
    ∃ n, CursorAt cfg h n m rest ∧ f ≤ n ∧ n + rest.length = f + ops.length ∧
      ∀ i op, f ≤ i → i < n → h.operands[i]? = some op →
        MergeOperand.getId op = some .create := by
  have hlen : f + ops.length ≤ h.operands.length := by
    have hle := hops.length_le
    rw [hf.operands, length_drop] at hle
    have := hf.bound
    omega
  have htake : (h.operands.drop f).take ops.length = ops := by
    rw [← hf.operands]; exact (prefix_iff_eq_take.1 hops).symm
  cases hbase : c.base with
  | some value =>
    rw [hbase] at hbegin
    obtain ⟨md, hmd, heq⟩ := Option.map_eq_some_iff.1 hbegin
    cases heq
    exact ⟨f, ⟨hlen, htake, hf.size value md hbase hmd⟩, Nat.le_refl _, rfl,
      fun i op h₁ h₂ => absurd h₂ (by omega)⟩
  | none =>
    obtain ⟨rfl, hnone⟩ := hf.none hbase
    rw [hbase] at hbegin
    cases ops with
    | nil => cases hbegin
    | cons op ops =>
      simp only [mergeBegin] at hbegin
      split at hbegin
      · next hid =>
        obtain ⟨md, hmd, heq⟩ := Option.map_eq_some_iff.1 hbegin
        cases heq
        simp only [length_cons] at hlen htake
        have hhead : h.operands[0]? = some op := by
          have := congrArg (·[0]?) htake
          simpa [getElem?_take] using this
        refine ⟨1, ⟨by omega, ?_, ?_⟩, by omega, by simp; omega, fun i op' h₁ h₂ hop' => ?_⟩
        · have := congrArg (·.drop 1) htake
          simpa [drop_take] using this
        · rw [Cell.sizeAt, take_add_one, hhead]
          simp [mergedSize, mergeBegin, hnone, hid, hmd, mergeLoop]
        · obtain rfl : i = 0 := by omega
          rw [hhead] at hop'
          cases hop'
          exact hid
      · cases hbegin

/-- A finished compaction folds the operands it was given. -/
theorem FoldedFrom.compact (hf : FoldedFrom cfg h c f) (hc : CursorAt cfg h n m []) {taken : Nat}
    (hn : n = f + taken) :
    FoldedFrom cfg h ⟨some (m.newValue cfg), c.operands.drop taken⟩ n where
  bound := by simpa using hc.bound
  operands := by rw [hf.operands, drop_drop, hn]
  none := fun hnone => by cases hnone
  size := fun value md hbase hparse => by
    cases hbase
    rw [hc.size, (Metadata.sizes_of_parse_serialize hparse).2]
    rfl

end

variable {cfg : MetadataConfig} {c : Cell}

/-- A read that does not merge finds no operand. -/
theorem Cell.operands_of_getStart
    (h : c.getStart cfg = .plain) : c.operands = [] := by
  rw [Cell.getStart] at h
  split at h
  · next hnil => exact hnil
  · split at h <;> cases h

/-- A read that merges starts a merge over all operands of its key. -/
theorem Cell.mergeBegin_of_getStart {m : MergeState}
    {rest : List (List Char)} (h : c.getStart cfg = .merging m rest) :
    mergeBegin cfg c.base c.operands = some (m, rest) := by
  rw [Cell.getStart] at h
  split at h
  · split at h <;> cases h
  · next op ops hops =>
    rw [hops]
    split at h
    · cases h
    · next hb => cases h; exact hb

/-! ## The operands that the machine queues -/

variable {ioSize mergeId : Nat}

theorem appendId_appendOperand (hs : ioSize < 2 ^ 64)
    (hid : mergeId < 2 ^ 16) : appendId (appendOperand ioSize mergeId) = some mergeId := by
  simp only [appendId, appendOperand, MergeOperand.getId_serialize,
    MergeOperand.getParams_serialize, MergeOperand.id, MergeOperand.serializeParams, if_true,
    parseIncreaseSize_append hs hid, Option.bind_some]

theorem applyOperand_appendOperand (m : MergeState) (hs : ioSize < 2 ^ 64)
    (hid : mergeId < 2 ^ 16) : applyOperand m (appendOperand ioSize mergeId) =
      some ({ m with fsize := u64 (m.fsize + ioSize) }, some (mergeId, m.fsize)) :=
  applyOperand_serialize m (.increaseSize ioSize mergeId true) ⟨hs, hid⟩

/-! ## The table of append offsets -/

section
variable {cfg : MetadataConfig} {history : DB} {live live' passed passed' : List Char → Nat → Prop}
  {reserve : AppendOffsetReserve} {requests : List AppendRequest} {q : AppendRequest}
  {key op k : List Char} {n size : Nat} {r : Nat} {p : AppendPhase} {o : List Char}

/-- The table holds the size before the operand of an append under its merge id. -/
def Reserved (cfg : MetadataConfig) (history : DB) (reserve : AppendOffsetReserve)
    (q : AppendRequest) : Prop :=
  ∃ size, (history.cell q.key).sizeAt cfg q.index = some size ∧ reserve q.mergeId = some size

/-- What holds of the appends and of the table, where `live` are the places of the histories whose
operands can still be applied and `passed` are places that some call of the merge operator has
passed. -/
structure RequestsOk (cfg : MetadataConfig) (history : DB) (live passed : List Char → Nat → Prop)
    (reserve : AppendOffsetReserve) (requests : List AppendRequest) : Prop where
  word : ∀ (r : Nat) (q : AppendRequest), requests[r]? = some q →
    q.ioSize < 2 ^ 64 ∧ q.mergeId < 2 ^ 16
  operand : ∀ (r : Nat) (q : AppendRequest), requests[r]? = some q →
    (history.cell q.key).operands[q.index]? = some (appendOperand q.ioSize q.mergeId)
  unique : ∀ (r r' : Nat) (q q' : AppendRequest), requests[r]? = some q →
    requests[r']? = some q' → q.phase.active → q'.phase.active → q.mergeId = q'.mergeId → r = r'
  place : ∀ (r : Nat) (q : AppendRequest), requests[r]? = some q → q.phase.active → ∀ key n op,
    (history.cell key).operands[n]? = some op → live key n → appendId op = some q.mergeId →
    key = q.key ∧ n = q.index
  passed : ∀ (r : Nat) (q : AppendRequest), requests[r]? = some q → q.phase.active →
    passed q.key q.index → Reserved cfg history reserve q
  evaluated : ∀ (r : Nat) (q : AppendRequest), requests[r]? = some q → q.phase = .evaluated →
    Reserved cfg history reserve q
  returned : ∀ (r : Nat) (q : AppendRequest), requests[r]? = some q → ∀ off ∈ q.offset?,
    (history.cell q.key).sizeAt cfg q.index = some off
  grows : ∀ (r : Nat) (q : AppendRequest), requests[r]? = some q → ∀ n size, q.index < n →
    n ≤ (history.cell q.key).operands.length → (history.cell q.key).sizeAt cfg n = some size →
    ∃ before, (history.cell q.key).sizeAt cfg q.index = some before ∧ before + q.ioSize ≤ size
  order : ∀ (r r' : Nat) (q q' : AppendRequest), r < r' → requests[r]? = some q →
    requests[r']? = some q' → q.key = q'.key → q.index < q'.index

/-- An append operand that is put is put for the append it belongs to. -/
theorem Reserved.putAll (hplace : appendId op = some q.mergeId → key = q.key ∧ n = q.index)
    (hsize : (history.cell key).sizeAt cfg n = some size)
    (hq : Reserved cfg history reserve q ∨ appendId op = some q.mergeId) :
    Reserved cfg history
      (AppendOffsetReserve.putAll reserve ((appendId op).map fun id => (id, size)).toList) q := by
  by_cases hid : appendId op = some q.mergeId
  · obtain ⟨rfl, rfl⟩ := hplace hid
    refine ⟨size, hsize, ?_⟩
    simp [hid, AppendOffsetReserve.putAll, AppendOffsetReserve.put]
  · obtain ⟨before, hbefore, htable⟩ := hq.resolve_right hid
    refine ⟨before, hbefore, ?_⟩
    cases happ : appendId op with
    | none => exact htable
    | some id =>
      have hne : q.mergeId ≠ id := fun heq => hid (by rw [happ, heq])
      simp [AppendOffsetReserve.putAll, AppendOffsetReserve.put, update_of_ne hne, htable]

/-- Fewer operands to apply and fewer places passed. -/
theorem RequestsOk.mono (h : RequestsOk cfg history live passed reserve requests)
    (hl : ∀ key n, live' key n → live key n) (hp : ∀ key n, passed' key n → passed key n) :
    RequestsOk cfg history live' passed' reserve requests :=
  { h with
    place := fun r q hq hact key n op hop hlive hid => h.place r q hq hact key n op hop
      (hl key n hlive) hid
    passed := fun r q hq hact hpass => h.passed r q hq hact (hp _ _ hpass) }

/-- A call of the merge operator applies an operand. -/
theorem RequestsOk.put (h : RequestsOk cfg history live passed reserve requests)
    (hop : (history.cell key).operands[n]? = some op)
    (hlive : live key n) (hsize : (history.cell key).sizeAt cfg n = some size) :
    RequestsOk cfg history live (fun k i => passed k i ∨ (k = key ∧ i = n))
      (AppendOffsetReserve.putAll reserve ((appendId op).map fun id => (id, size)).toList)
      requests :=
  { h with
    passed := fun r q hq hact hpass => by
      refine Reserved.putAll (h.place r q hq hact key n op hop hlive) hsize ?_
      rcases hpass with hpass | ⟨hkey, hn⟩
      · exact .inl (h.passed r q hq hact hpass)
      · right
        have hown := h.operand r q hq
        rw [hkey, hn, hop] at hown
        cases hown
        exact appendId_appendOperand (h.word r q hq).1 (h.word r q hq).2
    evaluated := fun r q hq heval => by
      have hact : q.phase.active = true := by rw [heval]; rfl
      exact Reserved.putAll (h.place r q hq hact key n op hop hlive) hsize
        (.inl (h.evaluated r q hq heval)) }

/-- Look a request up after the phase of one was set. -/
theorem getElem?_modify_phase {i : Nat} {q' : AppendRequest}
    (h : (requests.modify r fun q => { q with phase := p })[i]? = some q') :
    ∃ q, requests[i]? = some q ∧
      ((i = r ∧ q' = { q with phase := p }) ∨ (i ≠ r ∧ q' = q)) := by
  rw [getElem?_modify] at h
  obtain ⟨q, hq, heq⟩ := Option.map_eq_some_iff.1 h
  refine ⟨q, hq, ?_⟩
  by_cases hi : r = i
  · rw [if_pos hi] at heq; exact .inl ⟨hi.symm, heq.symm⟩
  · rw [if_neg hi] at heq; exact .inr ⟨Ne.symm hi, heq.symm⟩

/-- An append enters a phase. -/
theorem RequestsOk.setPhase (h : RequestsOk cfg history live passed reserve requests)
    (hq : requests[r]? = some q)
    (hact : p.active → q.phase.active)
    (heval : p = .evaluated → Reserved cfg history reserve q)
    (hret : ∀ off ∈ ({ q with phase := p } : AppendRequest).offset?,
      (history.cell q.key).sizeAt cfg q.index = some off) :
    RequestsOk cfg history live passed reserve
      (requests.modify r fun q => { q with phase := p }) := by
  -- every request keeps all but its phase, and is active only if it was
  have hold : ∀ (i : Nat) (q' : AppendRequest),
      (requests.modify r fun q => { q with phase := p })[i]? = some q' →
      ∃ q₀ : AppendRequest, requests[i]? = some q₀ ∧ q' = { q₀ with phase := q'.phase } ∧
        (q'.phase.active → q₀.phase.active) := by
    intro i q' hq'
    obtain ⟨q₀, hq₀, ⟨rfl, rfl⟩ | ⟨-, rfl⟩⟩ := getElem?_modify_phase hq'
    · rw [hq] at hq₀
      cases hq₀
      exact ⟨q, hq, rfl, hact⟩
    · exact ⟨q', hq₀, rfl, id⟩
  constructor
  case word =>
    intro i q' hq'
    obtain ⟨q₀, hq₀, heq, -⟩ := hold i q' hq'
    rw [heq]; exact h.word i q₀ hq₀
  case operand =>
    intro i q' hq'
    obtain ⟨q₀, hq₀, heq, -⟩ := hold i q' hq'
    rw [heq]; exact h.operand i q₀ hq₀
  case unique =>
    intro i j q₁ q₂ hq₁ hq₂ ha₁ ha₂ hid
    obtain ⟨p₁, hp₁, heq₁, hact₁⟩ := hold i q₁ hq₁
    obtain ⟨p₂, hp₂, heq₂, hact₂⟩ := hold j q₂ hq₂
    rw [heq₁, heq₂] at hid
    exact h.unique i j p₁ p₂ hp₁ hp₂ (hact₁ ha₁) (hact₂ ha₂) hid
  case place =>
    intro i q' hq' ha
    obtain ⟨q₀, hq₀, heq, hact₀⟩ := hold i q' hq'
    rw [heq]; exact h.place i q₀ hq₀ (hact₀ ha)
  case passed =>
    intro i q' hq' ha
    obtain ⟨q₀, hq₀, heq, hact₀⟩ := hold i q' hq'
    rw [heq]; exact h.passed i q₀ hq₀ (hact₀ ha)
  case evaluated =>
    intro i q' hq' he
    obtain ⟨q₀, hq₀, ⟨rfl, rfl⟩ | ⟨-, rfl⟩⟩ := getElem?_modify_phase hq'
    · rw [hq] at hq₀
      cases hq₀
      exact heval he
    · exact h.evaluated i q' hq₀ he
  case returned =>
    intro i q' hq'
    obtain ⟨q₀, hq₀, ⟨rfl, rfl⟩ | ⟨-, rfl⟩⟩ := getElem?_modify_phase hq'
    · rw [hq] at hq₀
      cases hq₀
      exact hret
    · exact h.returned i q' hq₀
  case grows =>
    intro i q' hq'
    obtain ⟨q₀, hq₀, heq, -⟩ := hold i q' hq'
    rw [heq]; exact h.grows i q₀ hq₀
  case order =>
    intro i j q₁ q₂ hij hq₁ hq₂
    obtain ⟨p₁, hp₁, heq₁, -⟩ := hold i q₁ hq₁
    obtain ⟨p₂, hp₂, heq₂, -⟩ := hold j q₂ hq₂
    rw [heq₁, heq₂]; exact h.order i j p₁ p₂ hij hp₁ hp₂

/-- An entry of the table that no append under way needs is erased. -/
theorem RequestsOk.erase (h : RequestsOk cfg history live passed reserve requests) {mergeId : Nat}
    (hid : ∀ (r : Nat) (q : AppendRequest), requests[r]? = some q → q.phase.active →
      q.mergeId ≠ mergeId) :
    RequestsOk cfg history live passed (Function.update reserve mergeId none) requests := by
  have hres : ∀ (r : Nat) (q : AppendRequest), requests[r]? = some q → q.phase.active →
      Reserved cfg history reserve q →
      Reserved cfg history (Function.update reserve mergeId none) q := by
    intro r q hq hact ⟨size, hsize, htable⟩
    exact ⟨size, hsize, by rw [update_of_ne (hid r q hq hact)]; exact htable⟩
  exact { h with
    passed := fun r q hq hact hpass => hres r q hq hact (h.passed r q hq hact hpass)
    evaluated := fun r q hq heval =>
      hres r q hq (by rw [heval]; rfl) (h.evaluated r q hq heval) }

/-- The operand at a place after one was queued. -/
theorem getElem?_operands_merge
    (h : ((history.merge key op).cell k).operands[n]? = some o) :
    (history.cell k).operands[n]? = some o ∨
      (k = key ∧ n = (history.cell key).operands.length ∧ o = op) := by
  by_cases hk : k = key
  · subst hk
    rw [DB.cell_merge_self, Cell.merge, getElem?_append] at h
    split at h
    · exact .inl h
    · next hn =>
      rw [getElem?_singleton] at h
      split at h
      · cases h
        exact .inr ⟨rfl, by omega, rfl⟩
      · cases h
  · rw [DB.cell_merge_ne hk] at h
    exact .inl h

/-- An operand keeps its place when another is queued. -/
theorem getElem?_operands_merge_of_some
    (h : (history.cell k).operands[n]? = some o) :
    ((history.merge key op).cell k).operands[n]? = some o := by
  by_cases hk : k = key
  · subst hk
    have hn := (List.getElem?_eq_some_iff.1 h).1
    rw [DB.cell_merge_self, Cell.merge, getElem?_append_left hn]
    exact h
  · rw [DB.cell_merge_ne hk]; exact h

/-- The size at a place stays when an operand is queued. -/
theorem sizeAt_merge (hn : n ≤ (history.cell k).operands.length) :
    ((history.merge key op).cell k).sizeAt cfg n = (history.cell k).sizeAt cfg n := by
  by_cases hk : k = key
  · subst hk
    rw [DB.cell_merge_self, Cell.sizeAt_merge hn]
  · rw [DB.cell_merge_ne hk]

/-- The size after a queued operand comes from the size before it. -/
theorem sizeAt_merge_last (hop : MergeOperand.getId op ≠ some .create)
    (h : ((history.merge key op).cell key).sizeAt cfg ((history.cell key).operands.length + 1) =
      some size) :
    ∃ m m' reserved,
      (history.cell key).sizeAt cfg (history.cell key).operands.length = some m.fsize ∧
      applyOperand m op = some (m', reserved) ∧ m'.fsize = size := by
  rw [DB.cell_merge_self, Cell.merge, Cell.sizeAt, take_of_length_le (by simp)] at h
  rw [Cell.sizeAt, take_length]
  exact mergedSize_concat hop h

/-- An operand is queued that is no creation, does not shrink its file and carries the merge id of
no append under way. -/
theorem RequestsOk.merge (h : RequestsOk cfg history live passed reserve requests)
    (key op : List Char)
    (hid : ∀ (r : Nat) (q : AppendRequest), requests[r]? = some q → q.phase.active →
      appendId op ≠ some q.mergeId)
    (hop : MergeOperand.getId op ≠ some .create)
    (hgrow : ∀ m m' reserved,
      (history.cell key).sizeAt cfg (history.cell key).operands.length = some m.fsize →
      applyOperand m op = some (m', reserved) → m.fsize ≤ m'.fsize) :
    RequestsOk cfg (history.merge key op) live passed reserve requests := by
  have hindex : ∀ (r : Nat) (q : AppendRequest), requests[r]? = some q →
      q.index < (history.cell q.key).operands.length := fun r q hq =>
    (List.getElem?_eq_some_iff.1 (h.operand r q hq)).1
  have hsize : ∀ (r : Nat) (q : AppendRequest), requests[r]? = some q →
      ((history.merge key op).cell q.key).sizeAt cfg q.index =
        (history.cell q.key).sizeAt cfg q.index := fun r q hq =>
    sizeAt_merge (Nat.le_of_lt (hindex r q hq))
  have hres : ∀ (r : Nat) (q : AppendRequest), requests[r]? = some q →
      Reserved cfg history reserve q → Reserved cfg (history.merge key op) reserve q := by
    intro r q hq ⟨size, hsz, htable⟩
    exact ⟨size, by rw [hsize r q hq]; exact hsz, htable⟩
  exact { h with
    operand := fun r q hq => getElem?_operands_merge_of_some (h.operand r q hq)
    place := fun r q hq hact k n o ho hl happ => by
      rcases getElem?_operands_merge ho with ho' | ⟨-, -, rfl⟩
      · exact h.place r q hq hact k n o ho' hl happ
      · exact absurd happ (hid r q hq hact)
    passed := fun r q hq hact hpass => hres r q hq (h.passed r q hq hact hpass)
    evaluated := fun r q hq heval => hres r q hq (h.evaluated r q hq heval)
    returned := fun r q hq off hoff => by rw [hsize r q hq]; exact h.returned r q hq off hoff
    grows := fun r q hq n size hn hlen hsz => by
      rw [hsize r q hq]
      by_cases hold : n ≤ (history.cell q.key).operands.length
      · rw [sizeAt_merge hold] at hsz
        exact h.grows r q hq n size hn hold hsz
      · -- the new operand, which comes after the last of the old ones
        have hkey : q.key = key := by
          by_contra hne
          rw [DB.cell_merge_ne hne] at hlen
          exact hold hlen
        rw [hkey] at hlen hsz hold
        obtain rfl : n = (history.cell key).operands.length + 1 := by
          rw [DB.cell_merge_self, Cell.merge, length_append, length_singleton] at hlen
          omega
        obtain ⟨m, m', reserved, hm, happ, rfl⟩ := sizeAt_merge_last hop hsz
        obtain ⟨before, hbefore, hle⟩ := h.grows r q hq _ _ (hindex r q hq) (Nat.le_refl _)
          (by rw [hkey]; exact hm)
        exact ⟨before, hbefore, Nat.le_trans hle (hgrow m m' reserved hm happ)⟩ }

/-- An append is accepted whose operand is the last of its key and whose merge id is carried by no
other operand that can still be applied. -/
theorem RequestsOk.snoc (h : RequestsOk cfg history live passed reserve requests)
    (hphase : q.phase = .merged)
    (hword : q.ioSize < 2 ^ 64 ∧ q.mergeId < 2 ^ 16)
    (hoperand : (history.cell q.key).operands[q.index]? =
      some (appendOperand q.ioSize q.mergeId))
    (hlast : (history.cell q.key).operands.length = q.index + 1)
    (hunique : ∀ (r : Nat) (q' : AppendRequest), requests[r]? = some q' → q'.phase.active →
      q'.mergeId ≠ q.mergeId)
    (hplace : ∀ key n op, (history.cell key).operands[n]? = some op → live key n →
      appendId op = some q.mergeId → key = q.key ∧ n = q.index)
    (hpassed : ¬ passed q.key q.index)
    (hgrow : ∀ size, (history.cell q.key).sizeAt cfg (q.index + 1) = some size →
      ∃ before, (history.cell q.key).sizeAt cfg q.index = some before ∧
        before + q.ioSize ≤ size)
    (horder : ∀ (r : Nat) (q' : AppendRequest), requests[r]? = some q' → q'.key = q.key →
      q'.index < q.index) :
    RequestsOk cfg history live passed reserve (requests ++ [q]) := by
  have hcases : ∀ (r : Nat) (q' : AppendRequest), (requests ++ [q])[r]? = some q' →
      requests[r]? = some q' ∨ (r = requests.length ∧ q' = q) := by
    intro r q' hq'
    rw [getElem?_append] at hq'
    split at hq'
    · exact .inl hq'
    · next hr =>
      rw [getElem?_singleton] at hq'
      split at hq'
      · cases hq'
        exact .inr ⟨by omega, rfl⟩
      · cases hq'
  have hlt : ∀ (r : Nat) (q' : AppendRequest), requests[r]? = some q' → r < requests.length :=
    fun r q' hq' => (List.getElem?_eq_some_iff.1 hq').1
  constructor
  case word =>
    intro r q' hq'
    rcases hcases r q' hq' with hq' | ⟨-, rfl⟩
    · exact h.word r q' hq'
    · exact hword
  case operand =>
    intro r q' hq'
    rcases hcases r q' hq' with hq' | ⟨-, rfl⟩
    · exact h.operand r q' hq'
    · exact hoperand
  case unique =>
    intro r r' q₁ q₂ h₁ h₂ ha₁ ha₂ heq
    rcases hcases r q₁ h₁ with hold₁ | ⟨rfl, rfl⟩
    · rcases hcases r' q₂ h₂ with hold₂ | ⟨rfl, rfl⟩
      · exact h.unique r r' q₁ q₂ hold₁ hold₂ ha₁ ha₂ heq
      · exact absurd heq (hunique r q₁ hold₁ ha₁)
    · rcases hcases r' q₂ h₂ with hold₂ | ⟨rfl, -⟩
      · exact absurd heq.symm (hunique r' q₂ hold₂ ha₂)
      · rfl
  case place =>
    intro r q' hq' hact
    rcases hcases r q' hq' with hq' | ⟨-, rfl⟩
    · exact h.place r q' hq' hact
    · exact hplace
  case passed =>
    intro r q' hq' hact hpass
    rcases hcases r q' hq' with hq' | ⟨-, rfl⟩
    · exact h.passed r q' hq' hact hpass
    · exact absurd hpass hpassed
  case evaluated =>
    intro r q' hq' heval
    rcases hcases r q' hq' with hq' | ⟨-, rfl⟩
    · exact h.evaluated r q' hq' heval
    · rw [hphase] at heval; cases heval
  case returned =>
    intro r q' hq' off hoff
    rcases hcases r q' hq' with hq' | ⟨-, rfl⟩
    · exact h.returned r q' hq' off hoff
    · rw [AppendRequest.offset?, hphase] at hoff; cases hoff
  case grows =>
    intro r q' hq' n size hn hlen hsize
    rcases hcases r q' hq' with hq' | ⟨-, rfl⟩
    · exact h.grows r q' hq' n size hn hlen hsize
    · obtain rfl : n = q'.index + 1 := by omega
      exact hgrow size hsize
  case order =>
    intro r r' q₁ q₂ hrr h₁ h₂ hkey
    rcases hcases r' q₂ h₂ with hold₂ | ⟨rfl, rfl⟩
    · have := hlt r' q₂ hold₂
      rcases hcases r q₁ h₁ with hold₁ | ⟨rfl, -⟩
      · exact h.order r r' q₁ q₂ hrr hold₁ hold₂ hkey
      · omega
    · rcases hcases r q₁ h₁ with hold₁ | ⟨rfl, -⟩
      · exact horder r q₁ hold₁ hkey
      · omega

end

end GekkoFS
