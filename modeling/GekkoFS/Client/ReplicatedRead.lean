import Mathlib.Data.Finset.Card
import Mathlib.Data.Fintype.Card
import GekkoFS.Client.ForwardData
import GekkoFS.Lib.Traverse

/-!
# Reading from replicas

With replication a read that loses the answer of a daemon records the daemon as failed and is
repeated, and the loop of `forward_read` draws another copy of a chunk at random as long as it has
one on a daemon that is recorded. `ReplicatedReadOk` says what should hold for a set of recorded
daemons: a chunk with a copy elsewhere can be read from there, no other daemon is passed over, and
an attempt that is repeated has recorded a daemon.

The copies are drawn from `0 .. num_copies - 1`, so the last one is never found; the set holds 8 bit
integers, so a daemon is taken for another one whose id differs by a multiple of 256; and a daemon
that itself answers with `EIO` makes the read repeat without being recorded. `replicatedReadOk_iff`
says that these are the only ways in which it fails, and `gkfsDoRead_bound` that the read is
repeated at most once for each daemon otherwise.
-/

namespace GekkoFS

open Function List

/-- What becomes of a read request: it cannot be posted, the answer does not arrive, or the daemon
answers. -/
inductive ReadReply
  | notPosted
  | lost
  | answered (out : DataOut)
  deriving DecidableEq, Repr

/-- The entry for a request in the list of replies, if it was posted. -/
def ReadReply.out : ReadReply → Option (Option DataOut)
  | notPosted => none
  | lost => some none
  | answered out => some (some out)

section
variable {n : Nat}

/-- The set that `forward_read` has after these daemons were recorded as failed. Source: `failed`
(`client/rpc/forward_data.cpp:304`), a `std::set<int8_t>`. -/
def recorded (hosts : Finset (Fin n)) : Finset Int := hosts.image fun host : Fin n => int8 host

/-- One call of `forward_read`: its error code and size, and the failed daemons afterwards. It does
not return if the selection of a copy does not end with the values drawn. What the daemons reply is
a parameter here. Source: `forward_read` (`client/rpc/forward_data.cpp:301`). -/
def readAttempt (d : Distributor n) (path : List Char) (offset size numCopies : Nat)
    (failed : Finset Int) (draws : Nat → List Nat) (reply : Fin n → ReadReply) :
    Option ((Nat × Nat) × Finset Int) :=
  ((chunkIds offset size).mapM fun chnkId =>
    (readTarget d path numCopies failed draws chnkId).map (chnkId, ·)).map fun selected =>
      let targets := (planRead offset size selected).targets
      readResult targets failed (targets.mapM fun target => (reply target).out)

/-- The values drawn and the replies of one attempt. -/
structure ReadRound (n : Nat) where
  draws : Nat → List Nat
  reply : Fin n → ReadReply

/-- How far a read has got: it has returned, it is about to be repeated, or it still draws
copies. -/
inductive ReadOutcome
  | returned (ret : Nat × Nat)
  | retrying (failed : Finset Int)
  | selecting
  deriving DecidableEq

/-- What follows an attempt: the read is repeated after an `EIO`, and returns otherwise. -/
def ReadOutcome.after (repeated : Finset Int → ReadOutcome) :
    Option ((Nat × Nat) × Finset Int) → ReadOutcome
  | none => .selecting
  | some (ret, failed) => if ret.1 = EIO then repeated failed else .returned ret

/-- The loop that repeats a read. Source: `gkfs_do_read` (`gkfs_functions.cpp:1178`). -/
def retryLoop (d : Distributor n) (path : List Char) (offset count numCopies : Nat) :
    List (ReadRound n) → Finset Int → ReadOutcome
  | [], failed => .retrying failed
  | round :: rounds, failed =>
    .after (retryLoop d path offset count numCopies rounds)
      (readAttempt d path offset count numCopies failed round.draws round.reply)

/-- The number of copies is narrowed to an `int8_t`, which is not positive for some numbers, and
then no copy is drawn. Source: `gkfs_do_read` (`gkfs_functions.cpp:1152`). -/
def gkfsDoRead (d : Distributor n) (path : List Char) (offset count replicas : Nat)
    (rounds : List (ReadRound n)) : ReadOutcome :=
  if replicas ≠ 0 then retryLoop d path offset count (int8 replicas).toNat rounds ∅
  else
    match rounds with
    | [] => .retrying ∅
    | round :: _ =>
      ((readAttempt d path offset count 0 ∅ round.draws round.reply).map fun r =>
        ReadOutcome.returned r.1).getD .selecting

/-! ## What should hold -/

/-- A chunk that a file of an `off64_t` size can have. -/
def IsChunk (chnkId : Nat) : Prop := chnkId * chunksize < 2 ^ 63

instance (chnkId : Nat) : Decidable (IsChunk chnkId) :=
  inferInstanceAs (Decidable (chnkId * chunksize < 2 ^ 63))

/-- What should hold of the reads of a path after daemons were recorded as failed: a chunk that has
a copy on another daemon is read from such a daemon for some value of `rand`; a daemon of a copy
that is passed over was recorded; and an attempt that is repeated records one more. -/
structure ReplicatedReadOk (d : Distributor n) (path : List Char) (numCopies : Nat)
    (hosts : Finset (Fin n)) (reply : Fin n → ReadReply) : Prop where
  finds : ∀ chnkId, IsChunk chnkId →
    (∃ copy ≤ numCopies, d.locateData path chnkId copy ∉ hosts) →
    ∃ draw < 2 ^ 31, ∃ target, reselect d path chnkId numCopies (recorded hosts) [draw]
      (d.locateData path chnkId 0) = some target ∧ target ∉ hosts
  skips : ∀ chnkId, IsChunk chnkId → ∀ copy ≤ numCopies,
    int8 (d.locateData path chnkId copy) ∈ recorded hosts → d.locateData path chnkId copy ∈ hosts
  records : ∀ offset size draws outSize failed, 0 < size → offset + size ≤ 2 ^ 63 →
    readAttempt d path offset size numCopies (recorded hosts) draws reply =
      some (( EIO, outSize), failed) → recorded hosts ⊂ failed

/-- The last copy of a chunk is not the only one left; the id of a daemon with a copy that was not
recorded does not differ by a multiple of 256 from one that was; and no daemon that a chunk may be
read from answers with `EIO`. -/
structure CopiesReachable (d : Distributor n) (path : List Char) (numCopies : Nat)
    (hosts : Finset (Fin n)) (reply : Fin n → ReadReply) : Prop where
  notLast : ∀ chnkId, IsChunk chnkId →
    (∃ copy ≤ numCopies, d.locateData path chnkId copy ∉ hosts) →
    ∃ copy < numCopies, d.locateData path chnkId copy ∉ hosts
  apart : ∀ chnkId, IsChunk chnkId → ∀ copy ≤ numCopies, ∀ host ∈ hosts,
    (host : Nat) % 256 = d.locateData path chnkId copy % 256 → d.locateData path chnkId copy ∈ hosts
  answers : ∀ chnkId, IsChunk chnkId → ∀ copy < numCopies, d.locateData path chnkId copy ∉ hosts →
    (copy = 0 ∨ d.locateData path chnkId 0 ∈ hosts) →
    ∀ out, reply (d.locateData path chnkId copy) = .answered out → out.err ≠ EIO

variable {d : Distributor n} {path : List Char} {numCopies chnkId : Nat} {hosts : Finset (Fin n)}
  {failed : Finset Int} {reply : Fin n → ReadReply} {host target start : Fin n} {draws : List Nat}
  {copy outSize offset size : Nat}

/-! ## The set of failed daemons -/

/-- Two daemon ids are the same as an `int8_t` if they agree in their low 8 bits. -/
theorem int8_eq_iff {a b : Nat} : int8 a = int8 b ↔ a % 256 = b % 256 := by
  have ha := Nat.mod_lt a (show 0 < 256 by decide)
  have hb := Nat.mod_lt b (show 0 < 256 by decide)
  rw [int8, int8]
  split <;> split <;> omega

/-- A recorded id stands for all that agree modulo 256. -/
theorem int8_mem_recorded :
    int8 host ∈ recorded hosts ↔ ∃ other ∈ hosts, (other : Nat) % 256 = host % 256 := by
  rw [recorded, Finset.mem_image]
  exact exists_congr fun other => and_congr_right fun _ => int8_eq_iff

theorem not_mem_of_not_recorded (h : int8 host ∉ recorded hosts) : host ∉ hosts :=
  fun hmem => h (int8_mem_recorded.2 ⟨host, hmem, rfl⟩)

/-! ## The selection of a copy -/

/-- A copy that is selected is the first one, or one that was drawn because the daemon of the first
one was found among the failed ones. Its own daemon was not. -/
theorem reselect_some (hpos : 0 < numCopies)
    (h : reselect d path chnkId numCopies failed draws start = some target) :
    int8 target ∉ failed ∧ (target = start ∨
      (int8 start ∈ failed ∧ ∃ copy < numCopies, target = d.locateData path chnkId copy)) := by
  induction draws generalizing start with
  | nil =>
    rw [reselect] at h
    split at h
    · cases h
    · next hstart =>
      cases h
      exact ⟨hstart, .inl rfl⟩
  | cons draw draws ih =>
    rw [reselect] at h
    split at h
    · next hstart =>
      obtain ⟨htarget, hcopy⟩ := ih h
      refine ⟨htarget, .inr ⟨hstart, ?_⟩⟩
      rcases hcopy with heq | ⟨-, hcopy⟩
      · exact ⟨draw % numCopies, Nat.mod_lt _ hpos, heq⟩
      · exact hcopy
    · next hstart =>
      cases h
      exact ⟨hstart, .inl rfl⟩

/-- The daemon of the first copy is taken if it is not among the failed ones. -/
theorem reselect_start (h : int8 start ∉ failed) :
    reselect d path chnkId numCopies failed draws start = some start := by
  cases draws with
  | nil => rw [reselect, if_neg h]
  | cons draw draws => rw [reselect, if_neg h]

/-- A copy whose daemon is not among the failed ones is found if it is drawn. -/
theorem reselect_draw (hcopy : copy < numCopies)
    (hstart : int8 start ∈ failed) (h : int8 (d.locateData path chnkId copy) ∉ failed) :
    reselect d path chnkId numCopies failed [copy] start =
      some (d.locateData path chnkId copy) := by
  rw [reselect, if_pos hstart, Nat.mod_eq_of_lt hcopy]
  exact reselect_start h

/-- What a read of a chunk takes into account. -/
theorem readTarget_some {draws : Nat → List Nat} (hpos : 0 < numCopies)
    (h : readTarget d path numCopies failed draws chnkId = some target) :
    int8 target ∉ failed ∧ ∃ copy < numCopies, target = d.locateData path chnkId copy ∧
      (copy = 0 ∨ int8 (d.locateData path chnkId 0) ∈ failed) := by
  rw [readTarget, if_pos hpos] at h
  obtain ⟨htarget, heq | ⟨hstart, copy, hcopy, heq⟩⟩ := reselect_some hpos h
  · exact ⟨htarget, 0, hpos, heq, .inl rfl⟩
  · exact ⟨htarget, copy, hcopy, heq, .inr hstart⟩

/-! ## The replies -/

/-- The daemons listed in the tables of a request have been entered with a chunk of `pairs`, each of
them once. -/
structure DataPlan.Lists (plan : DataPlan n) (pairs : List (Nat × Fin n)) : Prop where
  targetChnks : ∀ target ∈ plan.targets, plan.targetChnks target ≠ []
  nodup : plan.targets.Nodup
  entered : ∀ target ∈ plan.targets, ∃ p ∈ pairs, p.2 = target

theorem DataPlan.Lists.add {plan : DataPlan n} {pairs : List (Nat × Fin n)} (h : plan.Lists pairs)
    (setBit : List UInt8 → Nat → List UInt8) (mark : Finset (Fin n) → Fin n → Finset (Fin n))
    (first last : Nat) (p : Nat × Fin n) :
    (plan.add setBit mark first last p.1 p.2).Lists (pairs ++ [p]) := by
  have htargets : ∀ target, target ∈ (plan.add setBit mark first last p.1 p.2).targets →
      target ∈ plan.targets ∨ target = p.2 := by
    intro target htarget
    rw [DataPlan.add] at htarget
    dsimp only at htarget
    split at htarget
    · rw [mem_append, mem_singleton] at htarget
      exact htarget
    · exact .inl htarget
  refine ⟨fun target htarget => ?_, ?_, fun target htarget => ?_⟩
  · rw [DataPlan.add]
    dsimp only
    by_cases heq : target = p.2
    · rw [heq, update_self]
      exact append_ne_nil_of_right_ne_nil _ (cons_ne_nil p.1 [])
    · rw [update_of_ne heq]
      exact h.targetChnks target ((htargets target htarget).resolve_right heq)
  · rw [DataPlan.add]
    dsimp only
    split
    · next hnil =>
      rw [← concat_eq_append]
      exact h.nodup.concat fun hmem => h.targetChnks p.2 hmem hnil
    · exact h.nodup
  · rcases htargets target htarget with hmem | rfl
    · obtain ⟨q, hq, heq⟩ := h.entered target hmem
      exact ⟨q, mem_append_left _ hq, heq⟩
    · exact ⟨p, mem_append_right _ mem_cons_self, rfl⟩

theorem planRead_lists (offset size : Nat) (selected : List (Nat × Fin n)) :
    (planRead offset size selected).Lists selected := by
  have hempty : (DataPlan.empty : DataPlan n).Lists [] :=
    ⟨fun _ h => absurd h not_mem_nil, nodup_nil, fun _ h => absurd h not_mem_nil⟩
  -- the chunks of a prefix have been entered
  induction selected using List.reverseRecOn with
  | nil => exact hempty
  | append_singleton selected p ih =>
    rw [planRead, foldl_append, foldl_cons, foldl_nil]
    exact ih.add _ _ _ _ p

/-- The loop over the replies only adds failed daemons. -/
theorem subset_collectReads (targets : List (Fin n)) (outs : List (Option DataOut))
    (err outSize : Nat) (failed : Finset Int) :
    failed ⊆ (collectReads targets outs err outSize failed).2.2 := by
  induction targets generalizing outs err outSize failed with
  | nil => cases outs <;> exact Finset.Subset.refl failed
  | cons target targets ih =>
    cases outs with
    | nil => exact Finset.Subset.refl failed
    | cons out outs =>
      cases out with
      | none => exact (Finset.subset_insert _ _).trans (ih outs _ _ _)
      | some out => exact ih outs _ _ _

/-- If no daemon answers with `EIO`, the loop ends with it only after it has added a daemon. -/
theorem collectReads_lost {targets : List (Fin n)} {outs : List (Option DataOut)}
    (hreply : targets.mapM (fun target => (reply target).out) = some outs)
    (hno : ∀ target ∈ targets, ∀ out, reply target = .answered out → out.err ≠ EIO)
    {err : Nat} (h : (collectReads targets outs err outSize failed).1 = EIO) :
    err = EIO ∨ ∃ target ∈ targets,
      int8 target ∈ (collectReads targets outs err outSize failed).2.2 := by
  rw [Traverse.mapM_eq_some_iff] at hreply
  induction hreply generalizing err outSize failed with
  | nil => exact .inl h
  | @cons target out targets outs hout hrest ih =>
    have hno' : ∀ t ∈ targets, ∀ o, reply t = .answered o → o.err ≠ EIO := fun t ht =>
      hno t (mem_cons_of_mem target ht)
    cases hr : reply target with
    | notPosted =>
      rw [hr] at hout
      cases hout
    | lost =>
      rw [hr] at hout
      cases hout
      exact .inr ⟨target, mem_cons_self,
        subset_collectReads targets outs _ _ _ (Finset.mem_insert_self _ _)⟩
    | answered o =>
      rw [hr] at hout
      cases hout
      rw [collectReads] at h ⊢
      rcases ih hno' h with herr | ⟨t, ht, hmem⟩
      · split at herr
        · exact absurd herr (hno target mem_cons_self o hr)
        · exact .inl herr
      · exact .inr ⟨t, mem_cons_of_mem target ht, hmem⟩

/-- An attempt that is repeated has recorded a daemon, unless one that was read from answered with
`EIO` itself. -/
theorem readAttempt_records (hpos : 0 < numCopies)
    {draws : Nat → List Nat} {failed' : Finset Int}
    (hno : ∀ chnkId ∈ chunkIds offset size, ∀ target,
      readTarget d path numCopies failed draws chnkId = some target →
      ∀ out, reply target = .answered out → out.err ≠ EIO)
    (h : readAttempt d path offset size numCopies failed draws reply =
      some (( EIO, outSize), failed')) : failed ⊂ failed' := by
  have hbusy : EBUSY ≠ EIO := by decide
  have hzero : 0 ≠ EIO := by decide
  obtain ⟨selected, hselected, hresult⟩ := Option.map_eq_some_iff.1 h
  have hlists := planRead_lists offset size selected
  dsimp only at hresult
  generalize planRead offset size selected = plan at hresult hlists
  -- a daemon that is asked was selected for some chunk
  have hasked : ∀ target ∈ plan.targets, ∃ chnkId ∈ chunkIds offset size,
      readTarget d path numCopies failed draws chnkId = some target := by
    intro target htarget
    obtain ⟨p, hp, rfl⟩ := hlists.entered target htarget
    obtain ⟨chnkId, hchnk, hsome⟩ := Traverse.exists_of_mapM hselected hp
    obtain ⟨target, hread, rfl⟩ := Option.map_eq_some_iff.1 hsome
    exact ⟨chnkId, hchnk, hread⟩
  cases houts : plan.targets.mapM fun target => (reply target).out with
  | none =>
    rw [houts, readResult, Prod.mk.injEq, Prod.mk.injEq] at hresult
    exact absurd hresult.1.1 hbusy
  | some outs =>
    rw [houts, readResult] at hresult
    split at hresult
    · rw [Prod.mk.injEq, Prod.mk.injEq] at hresult
      obtain ⟨⟨herr, -⟩, hfailed⟩ := hresult
      have hlost := collectReads_lost houts (fun target htarget => by
        obtain ⟨chnkId, hchnk, hread⟩ := hasked target htarget
        exact hno chnkId hchnk target hread) herr
      rcases hlost with hfalse | ⟨target, htarget, hmem⟩
      · exact absurd hfalse hzero
      · obtain ⟨chnkId, -, hread⟩ := hasked target htarget
        rw [hfailed] at hmem
        refine ⟨?_, fun hsub => (readTarget_some hpos hread).1 (hsub hmem)⟩
        rw [← hfailed]
        exact subset_collectReads _ _ _ _ _
    · rw [Prod.mk.injEq, Prod.mk.injEq] at hresult
      exact absurd hresult.1.1 hzero

/-- The chunks of a read are chunks of a file. -/
theorem isChunk_of_mem (hsize : 0 < size) (hend : offset + size ≤ 2 ^ 63)
    (h : chnkId ∈ chunkIds offset size) : IsChunk chnkId := by
  have hlast : chnkEnd offset size = (offset + size - 1) / chunksize := by
    rw [chnkEnd, u64_of_lt (by omega), sub64_of_le (by omega) (by omega),
      blockIndex_chunksize (by omega)]
  rw [chunkIds, mem_range'_1, hlast] at h
  have hle : chnkId ≤ (offset + size - 1) / chunksize := by omega
  have := (Nat.le_div_iff_mul_le chunksize_pos).1 hle
  rw [IsChunk]
  omega

/-- The read of one byte at the start of a chunk. -/
theorem chunkIds_single (h : IsChunk chnkId) : chunkIds (chnkId * chunksize) 1 = [chnkId] := by
  rw [IsChunk] at h
  have hfirst : chnkStart (chnkId * chunksize) = chnkId := by
    rw [chnkStart_eq h, Nat.mul_div_cancel _ chunksize_pos]
  have hlast : chnkEnd (chnkId * chunksize) 1 = chnkId := by
    rw [chnkEnd, u64_of_lt (by omega), sub64_of_le (by omega) (by omega), Nat.add_sub_cancel,
      blockIndex_chunksize (by omega), Nat.mul_div_cancel _ chunksize_pos]
  rw [chunkIds, hfirst, hlast, Nat.add_sub_cancel_left]
  rfl

/-- A chunk is read in one attempt from a daemon that answers with `EIO`. -/
theorem readAttempt_answered {out : DataOut} (hchnk : IsChunk chnkId)
    (hcopy : copy < numCopies) (hmem : int8 (d.locateData path chnkId copy) ∉ failed)
    (hfirst : copy = 0 ∨ int8 (d.locateData path chnkId 0) ∈ failed)
    (hreply : reply (d.locateData path chnkId copy) = .answered out) (herr : out.err = EIO) :
    readAttempt d path (chnkId * chunksize) 1 numCopies failed (fun _ => [copy]) reply =
      some (( EIO, 0), failed) := by
  have hread : readTarget d path numCopies failed (fun _ => [copy]) chnkId =
      some (d.locateData path chnkId copy) := by
    rw [readTarget, if_pos (Nat.zero_lt_of_lt hcopy)]
    rcases hfirst with rfl | hstart
    · exact reselect_start hmem
    · exact reselect_draw hcopy hstart hmem
  have hio : EIO ≠ 0 := by decide
  have hplan : (planRead (chnkId * chunksize) 1
      [(chnkId, d.locateData path chnkId copy)]).targets = [d.locateData path chnkId copy] := rfl
  rw [readAttempt, chunkIds_single hchnk, mapM_cons, hread, mapM_nil]
  simp only [Option.map_some, Option.bind_eq_bind, Option.bind_some, Option.pure_def, hplan,
    mapM_cons, mapM_nil, hreply, ReadReply.out, readResult, collectReads, herr, ne_eq,
    hio, not_false_eq_true, if_true]

/-! ## When replicated reads work -/

/-- The reads of a path work for every number of copies, every placement and every set of recorded
daemons exactly if its copies are reachable. The number of copies is an `int8_t`. -/
theorem replicatedReadOk_iff (d : Distributor n) (path : List Char) (numCopies : Nat)
    (hpos : 0 < numCopies) (hcopies : numCopies < 128) (hosts : Finset (Fin n))
    (reply : Fin n → ReadReply) :
    ReplicatedReadOk d path numCopies hosts reply ↔
      CopiesReachable d path numCopies hosts reply := by
  constructor
  · intro h
    refine ⟨fun chnkId hchnk hleft => ?_, fun chnkId hchnk copy hcopy host hhost hmod => ?_,
      fun chnkId hchnk copy hcopy hleft hfirst out hout herr => ?_⟩
    · obtain ⟨draw, -, target, hselect, hnot⟩ := h.finds chnkId hchnk hleft
      obtain ⟨-, heq | ⟨-, copy, hcopy, heq⟩⟩ := reselect_some hpos hselect
      · exact ⟨0, hpos, heq ▸ hnot⟩
      · exact ⟨copy, hcopy, heq ▸ hnot⟩
    · exact h.skips chnkId hchnk copy hcopy (int8_mem_recorded.2 ⟨host, hhost, hmod⟩)
    · have hskip : int8 (d.locateData path chnkId copy) ∉ recorded hosts := fun hmem =>
        hleft (h.skips chnkId hchnk copy (Nat.le_of_lt hcopy) hmem)
      have hattempt := readAttempt_answered hchnk hcopy hskip
        (hfirst.imp_right fun hmem => int8_mem_recorded.2 ⟨_, hmem, rfl⟩) hout herr
      rw [IsChunk] at hchnk
      exact (h.records _ 1 _ 0 _ (by decide) (by omega) hattempt).ne rfl
  · intro h
    -- a daemon of a copy is taken for failed only if it was recorded
    have hskips : ∀ chnkId, IsChunk chnkId → ∀ copy ≤ numCopies,
        int8 (d.locateData path chnkId copy) ∈ recorded hosts →
          d.locateData path chnkId copy ∈ hosts := by
      intro chnkId hchnk copy hcopy hmem
      obtain ⟨host, hhost, hmod⟩ := int8_mem_recorded.1 hmem
      exact h.apart chnkId hchnk copy hcopy host hhost hmod
    refine ⟨fun chnkId hchnk hleft => ?_, hskips,
      fun offset size draws outSize failed hsize hend hattempt => ?_⟩
    · obtain ⟨copy, hcopy, hnot⟩ := h.notLast chnkId hchnk hleft
      refine ⟨copy, by omega, ?_⟩
      by_cases hstart : int8 (d.locateData path chnkId 0) ∈ recorded hosts
      · exact ⟨_, reselect_draw hcopy hstart fun hmem =>
          hnot (hskips chnkId hchnk copy (Nat.le_of_lt hcopy) hmem), hnot⟩
      · exact ⟨_, reselect_start hstart, not_mem_of_not_recorded hstart⟩
    · refine readAttempt_records hpos (fun chnkId hmem target hread => ?_) hattempt
      have hchnk := isChunk_of_mem hsize hend hmem
      obtain ⟨htarget, copy, hcopy, rfl, hfirst⟩ := readTarget_some hpos hread
      exact h.answers chnkId hchnk copy hcopy (not_mem_of_not_recorded htarget)
        (hfirst.imp_right (hskips chnkId hchnk 0 (Nat.zero_le _)))

end

/-- Every chunk has its copies on the daemons from the first one on. -/
def copiesFromFirst (n : Nat) (hn : 0 < n) : Distributor n :=
  simpleHashDistributor (fun _ => 0) n hn

theorem val_copiesFromFirst {n : Nat} {hn : 0 < n} {path : List Char} {chnkId copy : Nat}
    (hcopy : copy < n) (hword : n ≤ 2 ^ 64) :
    ((copiesFromFirst n hn).locateData path chnkId copy : Nat) = copy := by
  change u64 (0 + copy) % n = copy
  rw [Nat.zero_add, u64_of_lt (by omega), Nat.mod_eq_of_lt hcopy]

/-- With two replicas on three daemons the first of which has failed, reads work. -/
theorem replicatedReadOk_iff_three :
    CopiesReachable (copiesFromFirst 3 (by decide)) [] 2
        {(copiesFromFirst 3 (by decide)).locateData [] 0 0} (fun _ => .answered ⟨0, 1⟩) ∧
      ReplicatedReadOk (copiesFromFirst 3 (by decide)) [] 2
        {(copiesFromFirst 3 (by decide)).locateData [] 0 0} (fun _ => .answered ⟨0, 1⟩) := by
  have hval : ∀ copy ≤ 2, ∀ chnkId,
      ((copiesFromFirst 3 (by decide)).locateData [] chnkId copy : Nat) = copy :=
    fun copy hcopy chnkId => val_copiesFromFirst (Nat.lt_succ_of_le hcopy) (by decide)
  have hreach : CopiesReachable (copiesFromFirst 3 (by decide)) [] 2
      {(copiesFromFirst 3 (by decide)).locateData [] 0 0} (fun _ => .answered ⟨0, 1⟩) := by
    refine ⟨fun chnkId _ _ => ⟨1, by decide, ?_⟩, fun chnkId _ copy hcopy host hhost hmod => ?_,
      fun chnkId _ copy _ _ _ out hout => ?_⟩
    · rw [Finset.mem_singleton, Fin.ext_iff, hval 1 (by decide), hval 0 (by decide)]
      decide
    · rw [Finset.mem_singleton] at hhost ⊢
      rw [hhost, hval 0 (by decide), hval copy hcopy] at hmod
      rw [Fin.ext_iff, hval copy hcopy, hval 0 (by decide)]
      omega
    · cases hout
      decide
  exact ⟨hreach, (replicatedReadOk_iff _ [] 2 (by decide) (by decide) _ _).2 hreach⟩

/-- With one replica the first daemon has failed and the loop that looks for another copy never
ends, although the replica is there; the first daemon is passed over because the one with id 256 has
failed; and a read from a daemon that answers with `EIO` is repeated with nothing recorded. -/
theorem replicated_read_misses_copy :
    (¬ ReplicatedReadOk (copiesFromFirst 2 (by decide)) [] 1
        {(copiesFromFirst 2 (by decide)).locateData [] 0 0} (fun _ => .answered ⟨0, 1⟩) ∧
      ∀ draws, reselect (copiesFromFirst 2 (by decide)) [] 0 1
        (recorded {(copiesFromFirst 2 (by decide)).locateData [] 0 0}) draws
        ((copiesFromFirst 2 (by decide)).locateData [] 0 0) = none) ∧
    ¬ ReplicatedReadOk (copiesFromFirst 258 (by decide)) [] 1 {⟨256, by decide⟩}
        (fun _ => .answered ⟨0, 1⟩) ∧
    ¬ ReplicatedReadOk (copiesFromFirst 2 (by decide)) [] 1 ∅ (fun _ => .answered ⟨ EIO, 0⟩) := by
  have hfirst : ((copiesFromFirst 258 (by decide)).locateData [] 0 0 : Nat) = 0 :=
    val_copiesFromFirst (by decide) (by decide)
  -- the only copy that is drawn is the first one
  have hstuck : ∀ draws, reselect (copiesFromFirst 2 (by decide)) [] 0 1
      (recorded {(copiesFromFirst 2 (by decide)).locateData [] 0 0}) draws
      ((copiesFromFirst 2 (by decide)).locateData [] 0 0) = none := by
    intro draws
    rw [Option.eq_none_iff_forall_ne_some]
    intro target hsome
    obtain ⟨hnot, hcopy⟩ := reselect_some (by decide) hsome
    have hfailed : target = (copiesFromFirst 2 (by decide)).locateData [] 0 0 := by
      rcases hcopy with heq | ⟨-, copy, hlt, heq⟩
      · exact heq
      · rw [heq, Nat.lt_one_iff.1 hlt]
    exact hnot (int8_mem_recorded.2 ⟨target, Finset.mem_singleton.2 hfailed, rfl⟩)
  refine ⟨⟨fun h => ?_, hstuck⟩, fun h => ?_, fun h => ?_⟩
  · obtain ⟨draw, -, target, hselect, -⟩ := h.finds 0 (by decide) ⟨1, by decide, by decide⟩
    rw [hstuck] at hselect
    cases hselect
  · have hmem := h.skips 0 (by decide) 0 (by decide) (int8_mem_recorded.2
      ⟨⟨256, by decide⟩, Finset.mem_singleton_self _, by rw [hfirst]; rfl⟩)
    rw [Finset.mem_singleton, Fin.ext_iff, hfirst] at hmem
    exact absurd hmem (by decide)
  · have hattempt : readAttempt (copiesFromFirst 2 (by decide)) [] (0 * chunksize) 1 1
        (recorded (∅ : Finset (Fin 2))) (fun _ => [0]) (fun _ => .answered ⟨ EIO, 0⟩) =
          some (( EIO, 0), recorded (∅ : Finset (Fin 2))) :=
      readAttempt_answered (by decide) (by decide) (Finset.notMem_empty _) (.inl rfl) rfl rfl
    exact (h.records _ 1 _ 0 _ (by decide) (by decide) hattempt).ne rfl

section
variable {n : Nat} {d : Distributor n} {path : List Char} {numCopies : Nat} {failed : Finset Int}
  {reply : Fin n → ReadReply} {offset count : Nat} {draws : Nat → List Nat} {failed' : Finset Int}
  {rounds : List (ReadRound n)} {targets : List (Fin n)}

/-! ## How often a read is repeated -/

/-- The loop over the replies records daemons only. -/
theorem collectReads_subset (targets : List (Fin n)) (outs : List (Option DataOut))
    (err outSize : Nat) (h : failed ⊆ recorded (Finset.univ : Finset (Fin n))) :
    (collectReads targets outs err outSize failed).2.2 ⊆
      recorded (Finset.univ : Finset (Fin n)) := by
  induction targets generalizing outs err outSize failed with
  | nil => cases outs <;> exact h
  | cons target targets ih =>
    cases outs with
    | nil => exact h
    | cons out outs =>
      cases out with
      | none =>
        refine ih outs _ _ (Finset.insert_subset ?_ h)
        exact int8_mem_recorded.2 ⟨target, Finset.mem_univ target, rfl⟩
      | some out => exact ih outs _ _ h

theorem readAttempt_subset {size : Nat} {ret : Nat × Nat}
    (h : readAttempt d path offset size numCopies failed draws reply = some (ret, failed'))
    (hfailed : failed ⊆ recorded (Finset.univ : Finset (Fin n))) :
    failed' ⊆ recorded (Finset.univ : Finset (Fin n)) := by
  obtain ⟨selected, -, hresult⟩ := Option.map_eq_some_iff.1 h
  have hsnd := congrArg Prod.snd hresult
  dsimp only at hsnd
  rw [← hsnd]
  cases (planRead offset size selected).targets.mapM fun target => (reply target).out with
  | none => exact hfailed
  | some outs => exact collectReads_subset _ outs 0 0 hfailed

/-- If no daemon answers with `EIO`, every repetition of a read adds to the failed daemons. -/
theorem retryLoop_card (hpos : 0 < numCopies)
    (hfailed : failed ⊆ recorded (Finset.univ : Finset (Fin n)))
    (hno : ∀ round ∈ rounds, ∀ target out, round.reply target = .answered out → out.err ≠ EIO)
    (h : retryLoop d path offset count numCopies rounds failed = .retrying failed') :
    failed.card + rounds.length ≤ failed'.card ∧
      failed' ⊆ recorded (Finset.univ : Finset (Fin n)) := by
  induction rounds generalizing failed with
  | nil =>
    cases h
    exact ⟨Nat.le_refl _, hfailed⟩
  | cons round rounds ih =>
    rw [retryLoop] at h
    generalize hattempt :
      readAttempt d path offset count numCopies failed round.draws round.reply = r at h
    cases r with
    | none => cases h
    | some r =>
      obtain ⟨⟨err, outSize⟩, failed₁⟩ := r
      rw [ReadOutcome.after] at h
      split at h
      · next herr =>
        dsimp only at herr
        subst herr
        have hgrow := Finset.card_lt_card (readAttempt_records hpos
          (fun _ _ target _ => hno round mem_cons_self target) hattempt)
        obtain ⟨hcard, hsub⟩ := ih (readAttempt_subset hattempt hfailed)
          (fun r hr => hno r (mem_cons_of_mem round hr)) h
        refine ⟨?_, hsub⟩
        rw [length_cons]
        omega
      · cases h

/-- A read with replication is repeated at most once for each daemon, unless a daemon answers with
`EIO` itself: after more attempts it has returned, or it looks for a copy. -/
theorem gkfsDoRead_bound {replicas : Nat} (hreplicas : 0 < (int8 replicas).toNat)
    (hno : ∀ round ∈ rounds, ∀ target out, round.reply target = .answered out → out.err ≠ EIO)
    (h : gkfsDoRead d path offset count replicas rounds = .retrying failed) :
    rounds.length ≤ n := by
  have hne : replicas ≠ 0 := by
    rintro rfl
    exact absurd hreplicas (by decide)
  unfold gkfsDoRead at h
  rw [if_pos hne] at h
  obtain ⟨hcard, hsub⟩ := retryLoop_card hreplicas (Finset.empty_subset _) hno h
  have huniv : failed.card ≤ n := calc
    failed.card ≤ (recorded (Finset.univ : Finset (Fin n))).card := Finset.card_le_card hsub
    _ ≤ (Finset.univ : Finset (Fin n)).card := Finset.card_image_le
    _ = n := Finset.card_fin n
  rw [Finset.card_empty] at hcard
  omega

/-! ## Reads of stored chunks -/

theorem mapM_update_reply {target : Fin n} (h : target ∉ targets)
    (reply : Fin n → ReadReply) (r : ReadReply) :
    (target :: targets).mapM (fun t => (update reply target r t).out) =
      r.out.bind fun out => (targets.mapM fun t => (reply t).out).map (out :: ·) := by
  have hrest : (targets.mapM fun t => (update reply target r t).out) =
      targets.mapM fun t => (reply t).out :=
    Traverse.mapM_congr fun t ht => by
      rw [update_of_ne fun heq : t = target => h (heq ▸ ht)]
  rw [mapM_cons, hrest, update_self]
  cases r.out with
  | none => rfl
  | some out => cases targets.mapM fun t => (reply t).out <;> rfl

/-- What becomes of the requests of a read is a reply of each daemon. -/
theorem postReads_replies (net : Fin n → Delivery) (cl : Cluster n) (request : Fin n → DataIn)
    (hnodup : targets.Nodup) (buf : List UInt8) :
    ∃ reply : Fin n → ReadReply, (postReads net cl request targets buf).1 =
      targets.mapM fun target => (reply target).out := by
  induction targets generalizing buf with
  | nil => exact ⟨fun _ => .lost, rfl⟩
  | cons target targets ih =>
    rw [nodup_cons] at hnodup
    rw [postReads]
    generalize rpcSrvRead (cl target) (request target) buf = w
    obtain ⟨out, buf'⟩ := w
    obtain ⟨reply, hrest⟩ := ih hnodup.2 buf'
    dsimp only
    generalize postReads net cl request targets buf' = posted at hrest ⊢
    cases net target with
    | notPosted =>
      refine ⟨update reply target .notPosted, ?_⟩
      rw [mapM_update_reply hnodup.1]
      rfl
    | delivered =>
      cases out with
      | none =>
        refine ⟨update reply target .lost, ?_⟩
        rw [mapM_update_reply hnodup.1, ← hrest]
        rfl
      | some out =>
        refine ⟨update reply target (.answered out), ?_⟩
        rw [mapM_update_reply hnodup.1, ← hrest]
        rfl
    | replyLost =>
      refine ⟨update reply target .lost, ?_⟩
      rw [mapM_update_reply hnodup.1, ← hrest]
      rfl

/-- Every read of stored chunks is an attempt with some replies of the daemons. -/
theorem forwardRead_attempt {net : Fin n → Delivery} {cl : Cluster n} {buf : List UInt8}
    {r : ReadResult}
    (h : forwardRead d net cl path buf offset numCopies failed draws = some r) :
    ∃ reply, readAttempt d path offset buf.length numCopies failed draws reply =
      some (r.result, r.failed) := by
  obtain ⟨selected, hselected, rfl⟩ := Option.map_eq_some_iff.1 h
  have hnodup := (planRead_lists offset buf.length selected).nodup
  obtain ⟨reply, hreply⟩ := postReads_replies net cl
    ((planRead offset buf.length selected).request path offset buf.length) hnodup buf
  refine ⟨reply, ?_⟩
  rw [readAttempt, hselected, Option.map_some, readSelected]
  dsimp only
  rw [← hreply]

end

end GekkoFS
