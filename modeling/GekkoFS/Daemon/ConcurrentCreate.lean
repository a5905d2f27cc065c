import GekkoFS.Daemon.MetadataReadable

/-!
# Concurrent creations of one path

The handlers of a daemon run on several threads, and `put_no_exist` looks for the key and puts the
value in two calls of the store without a lock. `CreateState.step` lets any number of create
requests for one path take these two calls in any order; a request that takes them without another
one in between does what the sequential handler does (`exists_run_rpcSrvCreate`).

`CreateExclusive` says that one creation wins. Two requests that both look before either puts are
both answered with success (`create_succeeds_twice`); it holds in every run in which no request
looks while another one is between its look and its put (`createExclusive_of_run`).
-/

namespace GekkoFS

open MetadataDaemon Transition

/-! ## The machine -/

/-- Where a create request is: not begun, between its existence check and its put, or answered. -/
inductive CreatePhase
  | waiting
  | checked
  | answered (err : Int)
  deriving DecidableEq, Repr

/-- The mode of a create request, and the time that the daemon reads for it. -/
structure CreateRequest where
  mode : UInt32
  now : Int64

/-- The text that a create request puts. Source: `create` (`metadentry.cpp:64`). -/
def CreateRequest.text (cfg : MetadataConfig) (req : CreateRequest) : List Char :=
  (Metadata.ofMode cfg req.now.toInt req.mode.toNat).serialize cfg

/-- The error code for an exception. Source: the handlers of `rpc_srv_create`
(`srv_metadata.cpp:82`). -/
def createError : DBException → Int
  | .exists => EEXIST
  | _ => -1

/-- The store, and where each of `n` create requests is. -/
structure CreateState (n : Nat) where
  daemon : MetadataDaemon
  phase : Fin n → CreatePhase

/-- A request makes its existence check, or its put. -/
inductive CreateEvent (n : Nat)
  | check (r : Fin n)
  | put (r : Fin n)
  deriving DecidableEq

namespace CreateState

variable {n : Nat}

/-- No request has begun. -/
def start (st : MetadataDaemon) : CreateState n := ⟨st, fun _ => .waiting⟩

/-- The store after a call of a request, and the phase that the request is in. -/
def set (s : CreateState n) (r : Fin n) (st : MetadataDaemon) (phase : CreatePhase) :
    CreateState n := ⟨st, Function.update s.phase r phase⟩

@[simp] theorem set_phase_self (s : CreateState n) (r : Fin n) (st : MetadataDaemon)
    (phase : CreatePhase) : (s.set r st phase).phase r = phase := Function.update_self ..

theorem set_phase_ne (s : CreateState n) {r q : Fin n} (h : q ≠ r) (st : MetadataDaemon)
    (phase : CreatePhase) : (s.set r st phase).phase q = s.phase q := Function.update_of_ne h ..

/-- One call of the store. Source: `put_no_exist_impl` (`rocksdb_backend.cpp:131`) in
`rpc_srv_create` (`srv_metadata.cpp:65`). -/
def step (cfg : MetadataConfig) (path : List Char) (reqs : Fin n → CreateRequest)
    (s : CreateState n) : CreateEvent n → Option (CreateState n)
  | .check r =>
    if s.phase r = .waiting then
      match existsImpl cfg s.daemon path with
      | (.ok true, st) => some (s.set r st (.answered (createError .exists)))
      | (.ok false, st) => some (s.set r st .checked)
      | (.error e, st) => some (s.set r st (.answered (createError e)))
    else none
  | .put r =>
    if s.phase r = .checked then
      some (s.set r (putImpl s.daemon path ((reqs r).text cfg)) (.answered 0))
    else none

end CreateState

/-- One creation wins: at most one request is answered with success, the entry then has the mode of
that request, and every other answer is `EEXIST`. -/
structure CreateExclusive {n : Nat} (cfg : MetadataConfig) (path : List Char)
    (reqs : Fin n → CreateRequest) (s : CreateState n) : Prop where
  unique : ∀ r r', s.phase r = .answered 0 → s.phase r' = .answered 0 → r = r'
  mode : ∀ r, s.phase r = .answered 0 → ∃ val md, (getImpl cfg s.daemon path).1 = .ok val ∧
    Metadata.parse cfg val = some md ∧ md.mode = (reqs r).mode.toNat
  others : ∀ r err, s.phase r = .answered err → err = 0 ∨ err = EEXIST

/-- The condition on a step: a request that makes its check finds no other request between its
check and its put. -/
def CreateAlone {n : Nat} (s : CreateState n) : CreateEvent n → Prop
  | .check _ => ∀ r, s.phase r ≠ .checked
  | .put _ => True

instance {n : Nat} (s : CreateState n) : ∀ e, Decidable (CreateAlone s e)
  | .check _ => inferInstanceAs (Decidable (∀ r, s.phase r ≠ .checked))
  | .put _ => isTrue trivial

section
variable {n : Nat} {cfg : MetadataConfig} {path : List Char} {reqs : Fin n → CreateRequest}
  {s s' : CreateState n} {r : Fin n} {req : CreateRequest} {st : MetadataDaemon}

/-- A request whose two calls follow each other does what the handler does. -/
theorem exists_run_rpcSrvCreate (hr : s.phase r = .waiting) :
    ∃ events, run (CreateState.step cfg path reqs) s events =
      some (s.set r (rpcSrvCreate cfg s.daemon path (reqs r).mode (reqs r).now).2
        (.answered (rpcSrvCreate cfg s.daemon path (reqs r).mode (reqs r).now).1)) := by
  rw [rpcSrvCreate, putNoExistImpl]
  rcases hexists : existsImpl cfg s.daemon path with ⟨result, st⟩
  cases result with
  | ok found =>
    cases found with
    | true => exact ⟨[.check r], by simp [CreateState.step, hr, hexists, createError]⟩
    | false =>
      refine ⟨[.check r, .put r], ?_⟩
      simp [CreateState.step, hr, hexists, CreateState.set, CreateRequest.text]
  | error e =>
    refine ⟨[.check r], ?_⟩
    cases e <;> simp [CreateState.step, hr, hexists, createError]

/-! ## One creation wins when no check falls between a check and a put -/

/-- The entry of a request is storable. -/
theorem CreateRequest.storable (cfg : MetadataConfig) (req : CreateRequest) :
    (Metadata.ofMode cfg req.now.toInt req.mode.toNat).Storable :=
  Metadata.storable_ofMode cfg ⟨Int64.le_toInt _, Int64.toInt_lt _⟩ (UInt32.toNat_lt _)

/-- The key holds the creation of a request and nothing else. -/
def Created (cfg : MetadataConfig) (path : List Char) (req : CreateRequest)
    (st : MetadataDaemon) : Prop :=
  st.db.cell path = Cell.empty.merge (MergeOperand.create (req.text cfg)).serialize

/-- A created key can be read, and has the mode of its request. -/
theorem Created.get (h : Created cfg path req st) :
    ∃ val md, (getImpl cfg st path).1 = .ok val ∧ Metadata.parse cfg val = some md ∧
      md.mode = req.mode.toNat := by
  refine ⟨_, _, ?_, Metadata.parse_serialize cfg ((req.storable cfg).kept cfg), rfl⟩
  rw [getImpl, h]
  exact congrArg Prod.snd
    (Cell.get_cons (Prod.ext rfl (fullMergeV2_created (QueueOk.nil (req.storable cfg)))))

theorem Created.exists (h : Created cfg path req st) :
    ∃ st', existsImpl cfg st path = (.ok true, st') ∧ Created cfg path req st' := by
  obtain ⟨val, -, hval, -⟩ := h.get
  refine ⟨(getImpl cfg st path).2, ?_, h⟩
  rw [existsImpl, show getImpl cfg st path = (.ok val, (getImpl cfg st path).2) from
    Prod.ext hval rfl]

/-- What the requests have done so far: nobody has put and at most one request is about to, or one
request has put and every other one that is not waiting has been turned away. -/
inductive CreateInv (cfg : MetadataConfig) (path : List Char) (reqs : Fin n → CreateRequest)
    (s : CreateState n) : Prop
  | missing : s.daemon.db.cell path = Cell.empty →
      (∀ r, s.phase r = .waiting ∨ s.phase r = .checked) →
      (∀ r r', s.phase r = .checked → s.phase r' = .checked → r = r') → CreateInv cfg path reqs s
  | created (winner : Fin n) : Created cfg path (reqs winner) s.daemon →
      s.phase winner = .answered 0 →
      (∀ r, r ≠ winner → s.phase r = .waiting ∨ s.phase r = .answered EEXIST) →
      CreateInv cfg path reqs s

/-- The check of a request keeps the invariant. -/
theorem CreateInv.check (h : CreateInv cfg path reqs s)
    (hok : ∀ r, s.phase r ≠ .checked)
    (hstep : CreateState.step cfg path reqs s (.check r) = some s') :
    CreateInv cfg path reqs s' := by
  rw [CreateState.step] at hstep
  split at hstep
  · next hr =>
    cases h with
    | missing hcell hphase hone =>
      rw [existsImpl, getImpl_empty hcell] at hstep
      cases hstep
      refine .missing hcell (fun q => ?_) fun q q' hq hq' => ?_
      · by_cases heq : q = r
        · exact .inr (by rw [heq, CreateState.set_phase_self])
        · rw [s.set_phase_ne heq]
          exact hphase q
      · -- nobody else was between check and put
        have hself : ∀ q, (s.set r s.daemon .checked).phase q = .checked → q = r := fun q hq => by
          by_contra heq
          rw [s.set_phase_ne heq] at hq
          exact hok q hq
        rw [hself q hq, hself q' hq']
    | created winner hcreated hwinner hothers =>
      obtain ⟨st, hexists, hcreated'⟩ := hcreated.exists
      rw [hexists] at hstep
      cases hstep
      have hne : winner ≠ r := fun heq => by rw [heq, hr] at hwinner; cases hwinner
      refine .created winner hcreated' ?_ fun q hq => ?_
      · rw [s.set_phase_ne hne, hwinner]
      · by_cases heq : q = r
        · exact .inr (by rw [heq, CreateState.set_phase_self]; rfl)
        · rw [s.set_phase_ne heq]
          exact hothers q hq
  · cases hstep

/-- So does its store. -/
theorem CreateInv.put (h : CreateInv cfg path reqs s)
    (hstep : CreateState.step cfg path reqs s (.put r) = some s') :
    CreateInv cfg path reqs s' := by
  rw [CreateState.step] at hstep
  split at hstep
  · next hr =>
    cases hstep
    cases h with
    | missing hcell hphase hone =>
      refine .created r ?_ (s.set_phase_self ..) fun q hq => .inl ?_
      · rw [Created, CreateState.set, putImpl, DB.cell_merge_self, hcell]
      · rw [s.set_phase_ne hq]
        exact (hphase q).resolve_right fun hchecked => hq (hone q r hchecked hr)
    | created winner hcreated hwinner hothers =>
      -- the winner is answered, and the others are waiting or turned away
      by_cases heq : r = winner
      · rw [heq, hwinner] at hr; cases hr
      · rcases hothers r heq with hq | hq <;> rw [hq] at hr <;> cases hr
  · cases hstep

/-- Every step keeps the invariant. -/
theorem CreateInv.step (h : CreateInv cfg path reqs s) {e : CreateEvent n} (hok : CreateAlone s e)
    (hstep : CreateState.step cfg path reqs s e = some s') : CreateInv cfg path reqs s' := by
  cases e with
  | check r => exact h.check hok hstep
  | put r => exact h.put hstep

/-- Under the invariant one creation succeeds. -/
theorem CreateInv.exclusive (h : CreateInv cfg path reqs s) : CreateExclusive cfg path reqs s := by
  cases h with
  | missing hcell hphase hone =>
    have hno : ∀ r err, s.phase r ≠ .answered err := fun r err hr => by
      rcases hphase r with hq | hq <;> rw [hq] at hr <;> cases hr
    exact ⟨fun r _ hr => absurd hr (hno r 0), fun r hr => absurd hr (hno r 0),
      fun r err hr => absurd hr (hno r err)⟩
  | created winner hcreated hwinner hothers =>
    have hself : ∀ r, s.phase r = .answered 0 → r = winner := fun r hr => by
      by_contra heq
      rcases hothers r heq with hq | hq <;> rw [hq] at hr <;> cases hr
    refine ⟨fun r r' hr hr' => by rw [hself r hr, hself r' hr'], fun r hr => ?_, fun r err hr => ?_⟩
    · rw [hself r hr]
      exact hcreated.get
    · by_cases heq : r = winner
      · rw [heq, hwinner] at hr
        cases hr
        exact .inl rfl
      · rcases hothers r heq with hq | hq <;> rw [hq] at hr <;> cases hr
        exact .inr rfl

end

/-- For any number of create requests for a path that is not there, in every run in which no request
makes its existence check while another one is between its check and its put, at most one request
is answered with success, the entry has its mode, and every other answer is `EEXIST`. -/
theorem createExclusive_of_run {n : Nat} (cfg : MetadataConfig) (path : List Char)
    (reqs : Fin n → CreateRequest) (st : MetadataDaemon) (hst : st.db.cell path = Cell.empty)
    (events : List (CreateEvent n)) (s : CreateState n)
    (hok : Transition.AllOk (CreateState.step cfg path reqs) CreateAlone (.start st) events)
    (hrun : run (CreateState.step cfg path reqs) (.start st) events = some s) :
    CreateExclusive cfg path reqs s := by
  have hstart : CreateInv cfg path reqs (.start st) :=
    .missing hst (fun _ => .inl rfl) fun _ _ hr => by cases hr
  exact (run_invariant (fun _ _ _ hi hok hstep => hi.step hok hstep) hstart hok
    hrun).exclusive

/-- Two requests with different modes. -/
def twoCreates : Fin 2 → CreateRequest
  | 0 => ⟨33188, 0⟩
  | 1 => ⟨33152, 0⟩

/-- One after the other, the first request wins. -/
theorem createExclusive_of_run_inTurn :
    ∃ s, run (CreateState.step .default "/f".toList twoCreates)
        (.start MetadataRun.initial.daemon) [.check 0, .put 0, .check 1] = some s ∧
      s.phase 0 = .answered 0 ∧ s.phase 1 = .answered EEXIST ∧
      CreateExclusive .default "/f".toList twoCreates s := by
  refine ⟨(run (CreateState.step .default "/f".toList twoCreates)
    (.start MetadataRun.initial.daemon) [.check 0, .put 0, .check 1]).get (by decide),
    (Option.some_get _).symm, by decide, by decide, ?_⟩
  exact createExclusive_of_run _ _ _ _ (by decide) [.check 0, .put 0, .check 1] _ (by decide)
    (Option.some_get _).symm

/-- Both requests look before either puts: both are answered with success, and the entry does not
have the mode of the second. -/
theorem create_succeeds_twice :
    ∃ s, run (CreateState.step .default "/f".toList twoCreates)
        (.start MetadataRun.initial.daemon) [.check 0, .check 1, .put 0, .put 1] = some s ∧
      s.phase 0 = .answered 0 ∧ s.phase 1 = .answered 0 ∧
      (getImpl .default s.daemon "/f".toList).1 = .ok "33188|0".toList ∧
      ¬ CreateExclusive .default "/f".toList twoCreates s := by
  refine ⟨(run (CreateState.step .default "/f".toList twoCreates)
    (.start MetadataRun.initial.daemon) [.check 0, .check 1, .put 0, .put 1]).get (by decide),
    (Option.some_get _).symm, by decide, by decide, by decide, fun h => ?_⟩
  exact absurd (h.unique 0 1 (by decide) (by decide)) (by decide)

end GekkoFS
