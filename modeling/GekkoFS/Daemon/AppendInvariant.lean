import GekkoFS.Daemon.AppendTable

/-!
# The invariant of the append machine

A state of the machine is right if every cell is a folded history, every call of the merge operator
stands at a place of its history, and the appends and the table agree (`StoreInvAt`). Here are the
steps that keep it one by one: an operand is queued, a call of the merge operator starts, applies an
operand, ends or is given up, and an append takes its offset.
-/

namespace GekkoFS

open Function List

/-! ## The invariant of the machine -/

section
variable {cfg : MetadataConfig} {s : StoreState} {folded : List Char → Nat} {pos : Evaluator → Nat}
  {key op : List Char} {n r : Nat} {who : Evaluator} {ev : Evaluation}
  {evals : AList fun _ : Evaluator => Evaluation} {q : AppendRequest}

/-- The operand at a place can still be applied: it is queued, or a call is still to apply it. -/
def Live (evals : AList fun _ : Evaluator => Evaluation) (folded : List Char → Nat)
    (pos : Evaluator → Nat) (key : List Char) (n : Nat) : Prop :=
  folded key ≤ n ∨ ∃ who ev, evals.lookup who = some ev ∧ ev.key = key ∧ pos who ≤ n ∧
    n < pos who + ev.rest.length

/-- Some call, or a compaction that has finished, has passed a place. -/
def Passed (evals : AList fun _ : Evaluator => Evaluation) (folded : List Char → Nat)
    (pos : Evaluator → Nat) (key : List Char) (n : Nat) : Prop :=
  n < folded key ∨ ∃ who ev, evals.lookup who = some ev ∧ ev.key = key ∧ n < pos who

/-- The invariant of the machine, where `folded` says for each key how many operands of its history
its cell has folded, and `pos` for each call at which place of the history it stands. -/
structure StoreInvAt (cfg : MetadataConfig) (s : StoreState) (folded : List Char → Nat)
    (pos : Evaluator → Nat) : Prop where
  cell : ∀ key, FoldedFrom cfg (s.history.cell key) (s.db.cell key) (folded key)
  cursor : ∀ who ev, s.evals.lookup who = some ev →
    CursorAt cfg (s.history.cell ev.key) (pos who) ev.state ev.rest
  compact : ∀ key ev, s.evals.lookup (.compact key) = some ev →
    ev.key = key ∧ pos (.compact key) + ev.rest.length = folded key + ev.taken
  get : ∀ r ev, s.evals.lookup (.get r) = some ev → ∃ q, s.requests[r]? = some q ∧
    q.phase = .reading ∧ q.key = ev.key ∧ q.index < pos (.get r) + ev.rest.length
  requests : RequestsOk cfg s.history (Live s.evals folded pos) (Passed s.evals folded pos)
    s.reserve s.requests

/-- The invariant of the machine. -/
def StoreInv (cfg : MetadataConfig) (s : StoreState) : Prop :=
  ∃ folded pos, StoreInvAt cfg s folded pos

/-- The invariant holds at the start. -/
theorem StoreInv.initial (cfg : MetadataConfig) (db : DB) :
    StoreInv cfg (StoreState.initial db) := by
  refine ⟨fun _ => 0, fun _ => 0, fun key => FoldedFrom.refl _, ?_, ?_, ?_, ?_⟩
  · intro who ev hev; cases hev
  · intro key ev hev; cases hev
  · intro r ev hev; cases hev
  · constructor <;> intros <;> simp_all [StoreState.initial]

/-! ### Operands are queued -/

section
variable (hi : StoreInvAt cfg s folded pos)
include hi

/-- An operand that can still be applied is queued, or a call is still to apply it. -/
theorem StoreInvAt.mem_of_live
    (hlive : Live s.evals folded pos key n) (hop : (s.history.cell key).operands[n]? = some op) :
    op ∈ (s.db.cell key).operands ∨
      ∃ who ev, s.evals.lookup who = some ev ∧ op ∈ ev.rest := by
  rcases hlive with hle | ⟨who, ev, hev, rfl, hlo, hhi⟩
  · left
    rw [(hi.cell key).operands]
    refine mem_of_getElem? (i := n - folded key) ?_
    rw [getElem?_drop, Nat.add_sub_cancel' hle]
    exact hop
  · right
    refine ⟨who, ev, hev, ?_⟩
    rw [← (hi.cursor who ev hev).rest]
    refine mem_of_getElem? (i := n - pos who) ?_
    rw [getElem?_take_of_lt (by omega), getElem?_drop, Nat.add_sub_cancel' hlo]
    exact hop

/-- The parts of the invariant that do not concern the appends survive a queued operand. -/
theorem StoreInvAt.merge_of_requests (key op : List Char)
    (requests : List AppendRequest)
    (hget : ∀ (r : Nat) (q : AppendRequest), s.requests[r]? = some q → requests[r]? = some q)
    (hreq : RequestsOk cfg (s.history.merge key op) (Live s.evals folded pos)
      (Passed s.evals folded pos) s.reserve requests) :
    StoreInvAt cfg { s.merge key op with requests } folded pos where
  cell := fun k => by
    by_cases hk : k = key
    · subst hk
      show FoldedFrom cfg ((s.history.merge k op).cell k) ((s.db.merge k op).cell k) (folded k)
      rw [DB.cell_merge_self, DB.cell_merge_self]
      exact (hi.cell k).merge op
    · show FoldedFrom cfg ((s.history.merge key op).cell k) ((s.db.merge key op).cell k) (folded k)
      rw [DB.cell_merge_ne hk, DB.cell_merge_ne hk]
      exact hi.cell k
  cursor := fun who ev hev => by
    have hc := hi.cursor who ev hev
    show CursorAt cfg ((s.history.merge key op).cell ev.key) (pos who) ev.state ev.rest
    by_cases hk : ev.key = key
    · rw [hk, DB.cell_merge_self]; rw [hk] at hc; exact hc.merge op
    · rw [DB.cell_merge_ne hk]; exact hc
  compact := hi.compact
  get := fun r ev hev => by
    obtain ⟨q, hq, hrest⟩ := hi.get r ev hev
    exact ⟨q, hget r q hq, hrest⟩
  requests := hreq

/-- A size or time update that is no append is queued. -/
theorem StoreInvAt.update (key : List Char)
    (hid : appendId op = none) (hop : MergeOperand.getId op ≠ some .create)
    (hgrow : ∀ m m' reserved, applyOperand m op = some (m', reserved) → m.fsize ≤ m'.fsize) :
    StoreInvAt cfg (s.merge key op) folded pos := by
  refine hi.merge_of_requests key op s.requests (fun _ _ h => h) ?_
  exact hi.requests.merge key op (fun r q _ _ => by rw [hid]; exact nofun) hop
    fun m m' reserved _ happ => hgrow m m' reserved happ

/-- A write that is no append is accepted. -/
theorem StoreInvAt.increase (key : List Char) (size : UInt64) :
    StoreInvAt cfg (s.merge key (MergeOperand.increaseSize size.toNat 0 false).serialize) folded
      pos := by
  refine hi.update key ?_ ?_ fun m m' reserved happ => ?_
  · simp only [appendId, MergeOperand.getId_serialize, MergeOperand.getParams_serialize,
      MergeOperand.id, MergeOperand.serializeParams, Bool.false_eq_true, if_false,
      parseIncreaseSize_plain (UInt64.toNat_lt _), Option.bind_some]
  · rw [MergeOperand.getId_serialize]
    exact fun h => by cases h
  · rw [applyOperand_serialize m (.increaseSize _ 0 false)
      ⟨UInt64.toNat_lt _, by decide⟩] at happ
    cases happ
    exact Nat.le_max_right ..

/-- A time update is queued. -/
theorem StoreInvAt.updateTime (key : List Char) (now : Int64) :
    StoreInvAt cfg (s.merge key (MergeOperand.updateTime now.toInt).serialize) folded pos := by
  refine hi.update key ?_ ?_ fun m m' reserved happ => ?_
  · simp only [appendId, MergeOperand.getId_serialize, MergeOperand.id]
  · rw [MergeOperand.getId_serialize]
    exact fun h => by cases h
  · rw [applyOperand_serialize m (.updateTime now.toInt)
      ⟨Int64.le_toInt now, Int64.toInt_lt now⟩] at happ
    cases happ
    exact Nat.le_refl _

/-- An append with a fresh merge id is accepted. -/
theorem StoreInvAt.append (key : List Char)
    {ioSize mergeId : Nat} (hsize : ioSize < 2 ^ 64) (hword : mergeId < 2 ^ 16)
    (hfresh : ¬ s.IdInUse mergeId)
    (hsum : ∀ size ∈ (s.history.cell key).sizeAt cfg (s.history.cell key).operands.length,
      size + ioSize < 2 ^ 64) :
    StoreInvAt cfg { s.merge key (appendOperand ioSize mergeId) with
      requests := s.requests ++
        [⟨key, ioSize, mergeId, (s.history.cell key).operands.length, .merged⟩] } folded pos := by
  obtain ⟨hreqs, hcells, hevals⟩ := not_or.1 hfresh |>.imp_right not_or.1
  have hid := appendId_appendOperand hsize hword
  have hrequest : ∀ (r : Nat) (q : AppendRequest), s.requests[r]? = some q → q.phase.active →
      q.mergeId ≠ mergeId := fun r q hq hact heq =>
    hreqs ⟨q, mem_of_getElem? hq, hact, heq⟩
  have hqueued : ∀ k, ∀ op ∈ (s.db.cell k).operands, appendId op ≠ some mergeId := by
    intro k op hop happ
    rw [DB.cell] at hop
    cases hc : s.db.lookup k with
    | none => rw [hc] at hop; cases hop
    | some c =>
      rw [hc] at hop
      exact hcells ⟨⟨k, c⟩, AList.mem_lookup_iff.1 hc, op, hop, happ⟩
  have hrest : ∀ who ev, s.evals.lookup who = some ev → ∀ op ∈ ev.rest,
      appendId op ≠ some mergeId := fun who ev hev op hop happ =>
    hevals ⟨⟨who, ev⟩, AList.mem_lookup_iff.1 hev, op, hop, happ⟩
  -- the size after the operand is the size before it and the bytes appended
  have happly : ∀ m m' reserved,
      (s.history.cell key).sizeAt cfg (s.history.cell key).operands.length = some m.fsize →
      applyOperand m (appendOperand ioSize mergeId) = some (m', reserved) →
      m'.fsize = m.fsize + ioSize := by
    intro m m' reserved hm happ
    rw [applyOperand_appendOperand m hsize hword] at happ
    cases happ
    exact Nat.mod_eq_of_lt (hsum _ hm)
  have hcreate : MergeOperand.getId (appendOperand ioSize mergeId) ≠ some .create := by
    rw [appendOperand, MergeOperand.getId_serialize]
    exact fun h => by cases h
  have hmerge := hi.requests.merge key (appendOperand ioSize mergeId)
    (fun r q hq hact heq => hrequest r q hq hact (by rw [hid] at heq; cases heq; rfl)) hcreate
    (fun m m' reserved hm happ => by rw [happly m m' reserved hm happ]; omega)
  have hlast : ((s.history.merge key (appendOperand ioSize mergeId)).cell key).operands =
      (s.history.cell key).operands ++ [appendOperand ioSize mergeId] := by
    rw [DB.cell_merge_self, Cell.merge]
  refine hi.merge_of_requests key _ _ (fun r q hq => ?_) (hmerge.snoc rfl ⟨hsize, hword⟩ ?_ ?_
    hrequest ?_ ?_ ?_ ?_)
  · rw [getElem?_append_left (List.getElem?_eq_some_iff.1 hq).1]; exact hq
  · show ((s.history.merge key _).cell key).operands[(s.history.cell key).operands.length]? = _
    rw [hlast, getElem?_concat_length]
  · show ((s.history.merge key _).cell key).operands.length = _
    rw [hlast, length_append, length_singleton]
  · -- an operand that carries the merge id is the new one, since the others are in use
    intro k n op hop hlive happ
    rcases getElem?_operands_merge hop with hop | ⟨rfl, rfl, -⟩
    · rcases hi.mem_of_live hlive hop with hmem | ⟨who, ev, hev, hmem⟩
      · exact absurd happ (hqueued k op hmem)
      · exact absurd happ (hrest who ev hev op hmem)
    · exact ⟨rfl, rfl⟩
  · rintro (hlt | ⟨who, ev, hev, hkey, hlt⟩)
    · exact absurd (hi.cell key).bound (Nat.not_le.2 hlt)
    · have hbound := (hi.cursor who ev hev).bound
      rw [show ev.key = key from hkey] at hbound
      have : (s.history.cell key).operands.length < pos who := hlt
      omega
  · intro size hsz
    obtain ⟨m, m', reserved, hm, happ, rfl⟩ := sizeAt_merge_last hcreate hsz
    exact ⟨m.fsize, by rw [← hm]; exact sizeAt_merge (Nat.le_refl _),
      Nat.le_of_eq (happly m m' reserved hm happ).symm⟩
  · intro r q hq hkey
    have hlt := (List.getElem?_eq_some_iff.1 (hi.requests.operand r q hq)).1
    rw [hkey] at hlt
    exact hlt

/-! ### Calls of the merge operator -/

/-- A call is under way that stands at a place of its key's history: a new one, or one that has
moved on. What can be applied and what was passed is as before but for that call. -/
theorem StoreInvAt.insertEval {reserve : AppendOffsetReserve}
    (hcursor : CursorAt cfg (s.history.cell ev.key) n ev.state ev.rest)
    (hcompact : ∀ key, who = .compact key → ev.key = key ∧
      n + ev.rest.length = folded key + ev.taken)
    (hget : ∀ r, who = .get r → ∃ q, s.requests[r]? = some q ∧ q.phase = .reading ∧
      q.key = ev.key ∧ q.index < n + ev.rest.length)
    (hreq : RequestsOk cfg s.history
      (fun key i => Live s.evals folded pos key i ∨
        (ev.key = key ∧ n ≤ i ∧ i < n + ev.rest.length))
      (fun key i => Passed s.evals folded pos key i ∨ (ev.key = key ∧ i < n)) reserve
      s.requests) :
    StoreInvAt cfg { s with evals := s.evals.insert who ev, reserve } folded
      (Function.update pos who n) := by
  have hlookup : ∀ who' ev', (s.evals.insert who ev).lookup who' = some ev' →
      (who' = who ∧ ev' = ev ∧ Function.update pos who n who' = n) ∨
        (who' ≠ who ∧ s.evals.lookup who' = some ev' ∧
          Function.update pos who n who' = pos who') := by
    intro who' ev' hev'
    by_cases hw : who' = who
    · subst hw
      rw [AList.lookup_insert] at hev'
      cases hev'
      exact .inl ⟨rfl, rfl, update_self ..⟩
    · rw [AList.lookup_insert_ne hw] at hev'
      exact .inr ⟨hw, hev', update_of_ne hw ..⟩
  constructor
  case cell => exact hi.cell
  case cursor =>
    intro who' ev' hev'
    rcases hlookup who' ev' hev' with ⟨rfl, rfl, hpos⟩ | ⟨-, hev', hpos⟩
    · rw [hpos]; exact hcursor
    · rw [hpos]; exact hi.cursor who' ev' hev'
  case compact =>
    intro key ev' hev'
    rcases hlookup _ ev' hev' with ⟨hw, rfl, hpos⟩ | ⟨-, hev', hpos⟩
    · rw [hpos]; exact hcompact key hw.symm
    · rw [hpos]; exact hi.compact key ev' hev'
  case get =>
    intro r ev' hev'
    rcases hlookup _ ev' hev' with ⟨hw, rfl, hpos⟩ | ⟨-, hev', hpos⟩
    · rw [hpos]; exact hget r hw.symm
    · rw [hpos]; exact hi.get r ev' hev'
  case requests =>
    refine hreq.mono (fun key i hl => ?_) (fun key i hp => ?_)
    · rcases hl with hle | ⟨who', ev', hev', hkey, hlo, hhi⟩
      · exact .inl (.inl hle)
      · rcases hlookup who' ev' hev' with ⟨-, rfl, hpos⟩ | ⟨-, hev', hpos⟩
        · rw [hpos] at hlo hhi; exact .inr ⟨hkey, hlo, hhi⟩
        · rw [hpos] at hlo hhi; exact .inl (.inr ⟨who', ev', hev', hkey, hlo, hhi⟩)
    · rcases hp with hlt | ⟨who', ev', hev', hkey, hlt⟩
      · exact .inl (.inl hlt)
      · rcases hlookup who' ev' hev' with ⟨-, rfl, hpos⟩ | ⟨-, hev', hpos⟩
        · rw [hpos] at hlt; exact .inr ⟨hkey, hlt⟩
        · rw [hpos] at hlt; exact .inl (.inr ⟨who', ev', hev', hkey, hlt⟩)

/-- A call starts on the first operands of a cell. -/
theorem StoreInvAt.begin {m : MergeState} {ops rest : List (List Char)} {taken : Nat}
    (hops : ops <+: (s.db.cell key).operands)
    (hbegin : mergeBegin cfg (s.db.cell key).base ops = some (m, rest))
    (hcompact : ∀ k, who = .compact k → key = k ∧ ops.length = taken)
    (hget : ∀ r, who = .get r → ops = (s.db.cell key).operands ∧ ∃ q, s.requests[r]? = some q ∧
      q.phase = .reading ∧ q.key = key) :
    StoreInv cfg { s with evals := s.evals.insert who ⟨key, m, rest, taken⟩ } := by
  obtain ⟨n, hcursor, hle, hlen, hcreate⟩ := (hi.cell key).begin hops hbegin
  refine ⟨folded, Function.update pos who n, hi.insertEval hcursor ?_ ?_ ?_⟩
  · intro k hk
    obtain ⟨rfl, rfl⟩ := hcompact k hk
    exact ⟨rfl, hlen⟩
  · intro r hr
    obtain ⟨rfl, q, hq, hphase, hkey⟩ := hget r hr
    refine ⟨q, hq, hphase, hkey, ?_⟩
    have hidx := (List.getElem?_eq_some_iff.1 (hi.requests.operand r q hq)).1
    have hbound := (hi.cell key).bound
    show q.index < n + rest.length
    rw [hlen, (hi.cell key).operands, length_drop]
    rw [hkey] at hidx
    omega
  · -- the call can only apply what is queued, and it has passed nothing but a creation
    exact { hi.requests with
      place := fun r q hq hact k i op hop hlive happ => by
        refine hi.requests.place r q hq hact k i op hop ?_ happ
        rcases hlive with hlive | ⟨rfl, hlo, -⟩
        · exact hlive
        · exact .inl (Nat.le_trans hle hlo)
      passed := fun r q hq hact hpass => by
        refine hi.requests.passed r q hq hact ?_
        rcases hpass with hpass | ⟨hkey, hlt⟩
        · exact hpass
        · left
          by_contra hge
          have hkey : key = q.key := hkey
          subst hkey
          have hid := hcreate q.index _ (Nat.not_lt.1 hge) hlt (hi.requests.operand r q hq)
          rw [appendOperand, MergeOperand.getId_serialize] at hid
          cases hid }

/-- A call applies its next operand. -/
theorem StoreInvAt.apply {rest : List (List Char)} {m : MergeState} {reserved : Option (Nat × Nat)}
    (hev : s.evals.lookup who = some ev) (hrest : ev.rest = op :: rest)
    (happ : applyOperand ev.state op = some (m, reserved)) :
    StoreInv cfg { s with
      reserve := AppendOffsetReserve.putAll s.reserve reserved.toList
      evals := s.evals.insert who { ev with state := m, rest := rest } } := by
  have hcursor := hi.cursor who ev hev
  rw [hrest] at hcursor
  have hop := hcursor.getElem?
  have hlive : Live s.evals folded pos ev.key (pos who) :=
    .inr ⟨who, ev, hev, rfl, Nat.le_refl _, by rw [hrest, length_cons]; omega⟩
  rw [reserved_of_applyOperand happ]
  refine ⟨folded, Function.update pos who (pos who + 1),
    hi.insertEval (hcursor.step happ) ?_ ?_ ?_⟩
  · rintro key rfl
    obtain ⟨hkey, hsum⟩ := hi.compact key ev hev
    rw [hrest, length_cons] at hsum
    refine ⟨hkey, ?_⟩
    show pos (.compact key) + 1 + rest.length = folded key + ev.taken
    omega
  · rintro r rfl
    obtain ⟨q, hq, hphase, hkey, hlt⟩ := hi.get r ev hev
    rw [hrest, length_cons] at hlt
    exact ⟨q, hq, hphase, hkey, by show _ < _ + 1 + rest.length; omega⟩
  · refine (hi.requests.put hop hlive hcursor.size).mono (fun key i hl => ?_) (fun key i hp => ?_)
    · rcases hl with hl | ⟨hkey, hlo, hhi⟩
      · exact hl
      · have hhi : i < pos who + 1 + rest.length := hhi
        exact .inr ⟨who, ev, hev, hkey, by omega, by rw [hrest, length_cons]; omega⟩
    · rcases hp with hp | ⟨hkey, hlt⟩
      · exact .inl hp
      · have hkey : ev.key = key := hkey
        by_cases hi' : i = pos who
        · exact .inr ⟨hkey.symm, hi'⟩
        · exact .inl (.inr ⟨who, ev, hev, hkey, by omega⟩)

end

theorem lookup_of_erase {who' : Evaluator}
    (h : (evals.erase who).lookup who' = some ev) :
    evals.lookup who' = some ev := by
  by_cases hw : who' = who
  · rw [hw, AList.lookup_erase] at h; cases h
  · rw [AList.lookup_erase_ne hw] at h; exact h

theorem Live.of_erase (h : Live (evals.erase who) folded pos key n) :
    Live evals folded pos key n := by
  rcases h with hle | ⟨who', ev, hev, hrest⟩
  · exact .inl hle
  · exact .inr ⟨who', ev, lookup_of_erase hev, hrest⟩

theorem Passed.of_erase (h : Passed (evals.erase who) folded pos key n) :
    Passed evals folded pos key n := by
  rcases h with hlt | ⟨who', ev, hev, hrest⟩
  · exact .inl hlt
  · exact .inr ⟨who', ev, lookup_of_erase hev, hrest⟩

section
variable (hi : StoreInvAt cfg s folded pos)
include hi

/-- A call ends. -/
theorem StoreInvAt.eraseEval (who : Evaluator) :
    StoreInvAt cfg { s with evals := s.evals.erase who } folded pos where
  cell := hi.cell
  cursor := fun who' ev hev => hi.cursor who' ev (lookup_of_erase hev)
  compact := fun key ev hev => hi.compact key ev (lookup_of_erase hev)
  get := fun r ev hev => hi.get r ev (lookup_of_erase hev)
  requests := hi.requests.mono (fun _ _ h => h.of_erase) (fun _ _ h => h.of_erase)

/-- Only an append that is reading has a call under way. -/
theorem StoreInvAt.lookup_get_eq_none (hq : s.requests[r]? = some q) (hphase : q.phase ≠ .reading) :
    s.evals.lookup (.get r) = none := by
  cases hev : s.evals.lookup (.get r) with
  | none => rfl
  | some ev =>
    obtain ⟨q', hq', hreading, -⟩ := hi.get r ev hev
    rw [hq] at hq'
    cases hq'
    exact absurd hreading hphase

/-- An append without a call under way enters a phase. -/
theorem StoreInvAt.setPhase
    (hq : s.requests[r]? = some q) {p : AppendPhase} (hact : p.active → q.phase.active)
    (heval : p = .evaluated → Reserved cfg s.history s.reserve q)
    (hret : ∀ off ∈ ({ q with phase := p } : AppendRequest).offset?,
      (s.history.cell q.key).sizeAt cfg q.index = some off)
    (hnone : s.evals.lookup (.get r) = none) :
    StoreInvAt cfg (s.setPhase r p) folded pos where
  cell := hi.cell
  cursor := hi.cursor
  compact := hi.compact
  get := fun i ev hev => by
    obtain ⟨q', hq', hrest⟩ := hi.get i ev hev
    refine ⟨q', ?_, hrest⟩
    have hne : r ≠ i := fun heq => by
      subst heq
      have hev' : s.evals.lookup (.get r) = some ev := hev
      rw [hnone] at hev'
      cases hev'
    show (s.requests.modify r _)[i]? = some q'
    rw [getElem?_modify, hq']
    simp [hne]
  requests := hi.requests.setPhase hq hact heval hret

/-- The call of an append throws. -/
theorem StoreInvAt.abort
    (hev : s.evals.lookup who = some ev) : StoreInvAt cfg (s.abort who) folded pos := by
  cases who with
  | get r =>
    obtain ⟨q, hq, hphase, -⟩ := hi.get r ev hev
    exact (hi.eraseEval (.get r)).setPhase hq nofun nofun nofun (AList.lookup_erase ..)
  | read reader => exact hi.eraseEval (.read reader)
  | compact key => exact hi.eraseEval (.compact key)

/-- A compaction ends: its operands are folded. -/
theorem StoreInvAt.finishCompact
    (hev : s.evals.lookup (.compact key) = some ev) (hrest : ev.rest = []) :
    StoreInv cfg (s.finishCall cfg ev (.compact key)) := by
  obtain ⟨rfl, hsum⟩ := hi.compact key ev hev
  have hcursor := hi.cursor _ ev hev
  rw [hrest] at hcursor hsum
  have hcell := (hi.cell ev.key).compact hcursor hsum
  have herase := hi.eraseEval (.compact ev.key)
  refine ⟨Function.update folded ev.key (pos (.compact ev.key)), pos, ?_, herase.cursor, ?_,
    herase.get, ?_⟩
  · intro k
    show FoldedFrom cfg (s.history.cell k) (DB.cell (s.db.insert ev.key _) k) _
    by_cases hk : k = ev.key
    · rw [hk, DB.cell_insert_self, update_self]; exact hcell
    · rw [DB.cell_insert_ne hk, update_of_ne hk]; exact hi.cell k
  · intro k ev' hev'
    have hne : k ≠ ev.key := fun heq => by
      have hev' : (s.evals.erase (.compact ev.key)).lookup (.compact k) = some ev' := hev'
      rw [heq, AList.lookup_erase] at hev'
      cases hev'
    rw [update_of_ne hne]
    exact herase.compact k ev' hev'
  · -- what the compaction has folded it has passed before, and it is not queued any more
    have hle : folded ev.key ≤ pos (.compact ev.key) := by
      rw [length_nil] at hsum; omega
    refine hi.requests.mono (fun k i hl => ?_) (fun k i hp => ?_)
    · rcases hl with hge | hcall
      · left
        by_cases hk : k = ev.key
        · rw [hk, update_self] at hge; rw [hk]; omega
        · rw [update_of_ne hk] at hge; exact hge
      · exact Live.of_erase (show Live (s.evals.erase (.compact ev.key)) _ _ _ _ from .inr hcall)
    · rcases hp with hlt | hcall
      · by_cases hk : k = ev.key
        · rw [hk, update_self] at hlt
          exact .inr ⟨.compact ev.key, ev, hev, hk.symm, hlt⟩
        · rw [update_of_ne hk] at hlt; exact .inl hlt
      · exact Passed.of_erase
          (show Passed (s.evals.erase (.compact ev.key)) _ _ _ _ from .inr hcall)

/-- A call ends. -/
theorem StoreInvAt.finish (hev : s.evals.lookup who = some ev) (hrest : ev.rest = []) :
    StoreInv cfg (s.finishCall cfg ev who) := by
  cases who with
  | get r =>
    obtain ⟨q, hq, hphase, hkey, hlt⟩ := hi.get r ev hev
    have hact : q.phase.active = true := by rw [hphase]; rfl
    -- the call has passed the operand of the append, so the table has its offset
    have hres : Reserved cfg s.history s.reserve q := by
      refine hi.requests.passed r q hq hact (.inr ⟨.get r, ev, hev, hkey.symm, ?_⟩)
      rw [hrest, length_nil] at hlt
      exact hlt
    exact ⟨folded, pos, (hi.eraseEval (.get r)).setPhase hq (fun _ => hact) (fun _ => hres) nofun
      (AList.lookup_erase ..)⟩
  | read reader => exact ⟨folded, pos, hi.eraseEval (.read reader)⟩
  | compact key => exact hi.finishCompact hev hrest

end

/-! ### The offset of an append -/

theorem toNat_toOff (h : 0 ≤ toOff n) (hn : n < 2 ^ 64) : (toOff n).toNat = n := by
  rw [toOff] at h ⊢
  split at h
  · next hlt => rw [if_pos hlt]; omega
  · omega

/-- An append takes its offset. -/
theorem StoreInvAt.take (hi : StoreInvAt cfg s folded pos)
    (hq : s.requests[r]? = some q) (hphase : q.phase = .evaluated) :
    StoreInvAt cfg (s.takeOffset r q.mergeId) folded pos := by
  obtain ⟨size, hsize, htable⟩ := hi.requests.evaluated r q hq hphase
  have hnone := hi.lookup_get_eq_none hq (by rw [hphase]; exact nofun)
  have htake : s.takeOffset r q.mergeId =
      { s.setPhase r (.returned (toOff size)) with
        reserve := Function.update s.reserve q.mergeId none } := by
    simp only [StoreState.takeOffset, AppendOffsetReserve.getAndErase, htable]
  rw [htake]
  have hset := hi.setPhase (p := .returned (toOff size)) hq nofun nofun (fun off hoff => ?_) hnone
  · refine { hset with requests := hset.requests.erase fun i q' hq' hact hid => ?_ }
    -- another append under way has another merge id
    obtain ⟨q₀, hq₀, ⟨rfl, rfl⟩ | ⟨hne, rfl⟩⟩ := getElem?_modify_phase hq'
    · cases hact
    · exact hne (hi.requests.unique i r q' q hq₀ hq hact (by rw [hphase]; rfl) hid)
  · simp only [AppendRequest.offset?] at hoff
    split at hoff
    · next hle =>
      cases hoff
      rw [toNat_toOff hle (mergedSize_lt hsize)]
      exact hsize
    · cases hoff

end

end GekkoFS
