import GekkoFS.Daemon.AppendInvariant

/-!
# Appends get disjoint ranges while merge ids are fresh

A step of the machine keeps its invariant if the merge id of each new append is not in use
(`StoreInv.step`). By induction on the run, each append gets the size of its file just before its
operand, and no two appends to a file get ranges that meet (`offsetsOk_of_run`). With one merge id
for two appends under way both get the same offset (`twoAppends_same_offset`).
-/

namespace GekkoFS

open List Transition

/-! ## Steps -/

section
variable {cfg : MetadataConfig} {s : StoreState} {folded : List Char → Nat} {pos : Evaluator → Nat}
  {key op : List Char} {n r : Nat} {who : Evaluator} {ev : Evaluation}
  {evals : AList fun _ : Evaluator => Evaluation} {q : AppendRequest}

/-- The `Get` of an append starts. -/
theorem StoreInvAt.beginGet (hi : StoreInvAt cfg s folded pos)
    (hq : s.requests[r]? = some q) (hphase : q.phase = .merged) :
    StoreInv cfg (s.beginGet cfg r q.key) := by
  have hact : q.phase.active = true := by rw [hphase]; rfl
  have hnone := hi.lookup_get_eq_none hq (by rw [hphase]; exact nofun)
  have hcell := hi.cell q.key
  rw [StoreState.beginGet]
  split
  · exact ⟨folded, pos, hi.setPhase hq nofun nofun nofun hnone⟩
  · next hplain =>
    -- nothing is queued, so the operand of the append is folded
    have hnil := Cell.operands_of_getStart hplain
    have hidx := (List.getElem?_eq_some_iff.1 (hi.requests.operand r q hq)).1
    have hle : (s.history.cell q.key).operands.length ≤ folded q.key := by
      rw [hcell.operands] at hnil
      exact drop_eq_nil_iff.1 hnil
    have hres := hi.requests.passed r q hq hact (.inl (by omega))
    exact ⟨folded, pos, hi.setPhase hq (fun _ => hact) (fun _ => hres) nofun hnone⟩
  · next m rest hmerging =>
    have hset := hi.setPhase (p := .reading) hq (fun _ => hact) nofun nofun hnone
    refine hset.begin (prefix_refl _) (Cell.mergeBegin_of_getStart hmerging) nofun
      fun i hget => ?_
    cases hget
    refine ⟨rfl, { q with phase := .reading }, ?_, rfl, rfl⟩
    show (s.requests.modify r _)[r]? = _
    rw [getElem?_modify, hq]
    simp

/-- The `Get` of a reader starts. -/
theorem StoreInvAt.beginRead (hi : StoreInvAt cfg s folded pos) (reader : Nat) (key : List Char) :
    StoreInv cfg (s.beginRead cfg reader key) := by
  rw [StoreState.beginRead]
  split
  · exact ⟨folded, pos, hi⟩
  · exact ⟨folded, pos, hi⟩
  · next m rest hmerging =>
    exact hi.begin (prefix_refl _) (Cell.mergeBegin_of_getStart hmerging)
      (fun _ hk => by cases hk) fun _ hr => by cases hr

/-- A compaction of the first operands of a key starts. -/
theorem StoreInvAt.beginCompact (hi : StoreInvAt cfg s folded pos) {count : Nat}
    (hle : count ≤ (s.db.cell key).operands.length) :
    StoreInv cfg (s.beginCompact cfg key count) := by
  rw [StoreState.beginCompact]
  split
  · exact ⟨folded, pos, hi⟩
  · next m rest hbegin =>
    refine hi.begin (List.take_prefix ..) hbegin (fun k hk => ?_) fun _ hr => by cases hr
    cases hk
    refine ⟨rfl, ?_⟩
    rw [length_take]
    omega

/-- Each step whose merge id is fresh keeps the invariant. -/
theorem StoreInv.step {s' : StoreState} {e : StoreEvent} (hi : StoreInv cfg s)
    (hok : AppendFresh cfg s e) (hstep : s.step cfg e = some s') : StoreInv cfg s' := by
  obtain ⟨folded, pos, hi⟩ := hi
  cases e with
  | append key ioSize mergeId =>
    cases hstep
    exact ⟨folded, pos, hi.append key ioSize.toNat_lt mergeId.toNat_lt hok.1 hok.2⟩
  | increase key ioSize offset =>
    cases hstep
    exact ⟨folded, pos, hi.increase key (offset + ioSize)⟩
  | updateTime key now =>
    rw [StoreState.step] at hstep
    split at hstep
    · cases hstep
      exact ⟨folded, pos, hi.updateTime key now⟩
    · cases hstep
  | beginGet r =>
    rw [StoreState.step] at hstep
    split at hstep
    · next q hq =>
      split at hstep
      · next hphase => cases hstep; exact hi.beginGet hq hphase
      · cases hstep
    · cases hstep
  | beginRead reader key =>
    rw [StoreState.step] at hstep
    split at hstep
    · cases hstep
    · cases hstep
      exact hi.beginRead reader key
  | beginCompact key count =>
    rw [StoreState.step] at hstep
    split at hstep
    · cases hstep
    · next hguard =>
      cases hstep
      rw [not_or, not_or, Nat.not_lt] at hguard
      exact hi.beginCompact hguard.2.2
  | apply who =>
    rw [StoreState.step] at hstep
    split at hstep
    · next ev hev =>
      split at hstep
      · next op rest hrest =>
        cases hstep
        rw [StoreState.applyNext]
        split
        · exact ⟨folded, pos, hi.abort hev⟩
        · next m reserved happ => exact hi.apply hev hrest happ
      · cases hstep
    · cases hstep
  | finish who =>
    rw [StoreState.step] at hstep
    split at hstep
    · next ev hev =>
      split at hstep
      · next hrest => cases hstep; exact hi.finish hev hrest
      · cases hstep
    · cases hstep
  | take r =>
    rw [StoreState.step] at hstep
    split at hstep
    · next q hq =>
      split at hstep
      · next hphase => cases hstep; exact ⟨folded, pos, hi.take hq hphase⟩
      · cases hstep
    · cases hstep

/-- The invariant says what the appends returned. -/
theorem StoreInvAt.offsetsOk (hi : StoreInvAt cfg s folded pos) : OffsetsOk cfg s := by
  refine ⟨fun q hq off hoff => ?_, pairwise_iff_getElem.2 fun r r' hr hr' hlt hkey => ?_⟩
  · obtain ⟨r, hr⟩ := getElem?_of_mem hq
    exact hi.requests.returned r q hr off hoff
  · -- of two appends to one file, the later one starts where the earlier one ends or after it
    have hq := getElem?_eq_getElem hr
    have hq' := getElem?_eq_getElem hr'
    intro off hoff off' hoff'
    have hsize := hi.requests.returned r _ hq off hoff
    have hsize' := hi.requests.returned r' _ hq' off' hoff'
    have horder := hi.requests.order r r' _ _ hlt hq hq' hkey
    have hlen := (List.getElem?_eq_some_iff.1 (hi.requests.operand r' _ hq')).1
    rw [← hkey] at hsize' hlen
    obtain ⟨before, hbefore, hle⟩ :=
      hi.requests.grows r _ hq _ off' horder (Nat.le_of_lt hlen) hsize'
    rw [hsize] at hbefore
    cases hbefore
    exact .inl hle

end

/-! ## Runs -/

/-- A store with one empty file. -/
def oneFile : DB := AList.insert "/f".toList ⟨some "33188|0".toList, []⟩ ∅

/-- Two appends of four bytes to that file with given merge ids, where both operands are queued
before either append reads the key. -/
def twoAppends (mergeId mergeId' : UInt16) : List StoreEvent :=
  [.append "/f".toList 4 mergeId, .append "/f".toList 4 mergeId',
    .beginGet 0, .apply (.get 0), .apply (.get 0), .finish (.get 0), .take 0,
    .beginGet 1, .apply (.get 1), .apply (.get 1), .finish (.get 1), .take 1]

/-- In every run of the machine from a store with nothing under way in which each new append gets a
merge id that is not in use and does not overflow the file size, each append that returned an offset
got the size of its file just before its operand, and no two appends to one file got ranges that
meet. -/
theorem offsetsOk_of_run (cfg : MetadataConfig) (db : DB) (events : List StoreEvent)
    (s : StoreState)
    (hok : Transition.AllOk (StoreState.step cfg) (AppendFresh cfg) (StoreState.initial db) events)
    (hrun : run (StoreState.step cfg) (StoreState.initial db) events = some s) :
    OffsetsOk cfg s := by
  obtain ⟨folded, pos, hi⟩ := run_invariant
    (fun s e s' hi hok hstep => StoreInv.step hi hok hstep) (StoreInv.initial cfg db) hok hrun
  exact hi.offsetsOk

/-- With two different merge ids the second append starts where the first ends. -/
theorem offsetsOk_of_run_twoAppends :
    ∃ s, run (StoreState.step .default) (StoreState.initial oneFile)
        (twoAppends 7 8) = some s ∧
      s.requests.map AppendRequest.offset? = [some 0, some 4] ∧
      OffsetsOk .default s := by
  refine ⟨(run (StoreState.step .default) (StoreState.initial oneFile)
    (twoAppends 7 8)).get (by decide), Option.some_get _ |>.symm, by decide, ?_⟩
  exact offsetsOk_of_run _ oneFile (twoAppends 7 8) _ (by decide) (Option.some_get _).symm

/-- With one merge id for both, the first read of the key leaves the offset of the second append in
the table and the first append takes it; the second append then gets the same one. -/
theorem twoAppends_same_offset :
    ∃ s, run (StoreState.step .default) (StoreState.initial oneFile)
        (twoAppends 7 7) = some s ∧
      s.requests.map AppendRequest.offset? = [some 4, some 4] ∧
      ¬ OffsetsOk .default s := by
  refine ⟨(run (StoreState.step .default) (StoreState.initial oneFile)
    (twoAppends 7 7)).get (by decide), Option.some_get _ |>.symm, by decide, by decide⟩

end GekkoFS
