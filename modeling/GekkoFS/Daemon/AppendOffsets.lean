import GekkoFS.Daemon.MetadataDB
import GekkoFS.Lib.Transition

/-!
# Concurrent appends on one daemon

An append reserves its range of the file in three steps (`RocksDBBackend::increase_size_impl`): it
queues an append operand with a 16-bit merge id, it reads the key so that the merge operator runs
over the operand, and it takes the offset that the operator has put into the daemon's table under
the merge id. Between these steps other requests take theirs, and the merge operator also runs for
reads of other requests and for compactions, one operand after another, each put into the table
being an atomic step.

`step` is this machine: its events are the steps of the appends, the size updates that are no
appends, and the steps of every call of the merge operator. The `history` of a state holds for each
key the value it started with and all operands queued since, in RocksDB's order and never folded;
no step reads it. It says what the size of a file is at each place of that order (`sizeBefore`),
and so what the machine should return (`OffsetsOk`).
-/

namespace GekkoFS

/-- A call of the merge operator that is under way: the state of its loop and the operands that are
left, of those it was given. -/
structure Evaluation where
  key : List Char
  state : MergeState
  rest : List (List Char)
  taken : Nat
  deriving DecidableEq, Repr

/-- Who called the merge operator: the `Get` of an append, a read of another request, or the
compaction of a key. -/
inductive Evaluator
  | get (request : Nat)
  | read (reader : Nat)
  | compact (key : List Char)
  deriving DecidableEq, Repr

/-- How far an append is: its operand is queued, its `Get` runs the merge operator, its `Get` has
returned, it has returned an offset, or it has thrown. -/
inductive AppendPhase
  | merged
  | reading
  | evaluated
  | returned (offset : Int)
  | failed
  deriving DecidableEq, Repr

/-- Whether an append still has steps to take. -/
def AppendPhase.active : AppendPhase → Bool
  | .merged | .reading | .evaluated => true
  | .returned _ | .failed => false

/-- A size update with append. `index` is the place of its operand among those of its key. -/
structure AppendRequest where
  key : List Char
  ioSize : Nat
  mergeId : Nat
  index : Nat
  phase : AppendPhase
  deriving DecidableEq, Repr

/-- The metadata store of a daemon with the requests and calls that work on it. -/
structure StoreState where
  db : DB
  history : DB
  reserve : AppendOffsetReserve
  evals : AList fun _ : Evaluator => Evaluation
  requests : List AppendRequest

/-- The steps that the machine can take. The arguments are those of the source's calls; `count` is
the number of operands that a compaction folds. -/
inductive StoreEvent
  | append (key : List Char) (ioSize : UInt64) (mergeId : UInt16)
  | increase (key : List Char) (ioSize offset : UInt64)
  | updateTime (key : List Char) (now : Int64)
  | beginGet (request : Nat)
  | beginRead (reader : Nat) (key : List Char)
  | beginCompact (key : List Char) (count : Nat)
  | apply (who : Evaluator)
  | finish (who : Evaluator)
  | take (request : Nat)
  deriving DecidableEq

/-- How a read of a key starts: it throws, it returns without a merge, or it runs the merge operator
over a list of operands. -/
inductive GetStart
  | throws
  | plain
  | merging (m : MergeState) (ops : List (List Char))

/-- The start of `rocksdb::DB::Get`. -/
def Cell.getStart (cfg : MetadataConfig) (c : Cell) : GetStart :=
  match c.operands with
  | [] => if c.base.isSome then .plain else .throws
  | op :: ops =>
    match mergeBegin cfg c.base (op :: ops) with
    | none => .throws
    | some (m, rest) => .merging m rest

namespace StoreState

/-- A daemon with a store and nothing under way. -/
def initial (db : DB) : StoreState := ⟨db, db, fun _ => none, ∅, []⟩

/-- Queue an operand. -/
def merge (s : StoreState) (key op : List Char) : StoreState :=
  { s with db := s.db.merge key op, history := s.history.merge key op }

/-- Set the phase of an append. -/
def setPhase (s : StoreState) (request : Nat) (phase : AppendPhase) : StoreState :=
  { s with requests := s.requests.modify request fun q => { q with phase := phase } }

/-- The `Get` of an append starts. Source: `increase_size_impl` (`rocksdb_backend.cpp:226`). -/
def beginGet (cfg : MetadataConfig) (s : StoreState) (request : Nat) (key : List Char) :
    StoreState :=
  match (s.db.cell key).getStart cfg with
  | .throws => s.setPhase request .failed
  | .plain => s.setPhase request .evaluated
  | .merging m rest =>
    { s.setPhase request .reading with
      evals := s.evals.insert (.get request) ⟨key, m, rest, (s.db.cell key).operands.length⟩ }

/-- A read of another request starts. -/
def beginRead (cfg : MetadataConfig) (s : StoreState) (reader : Nat) (key : List Char) :
    StoreState :=
  match (s.db.cell key).getStart cfg with
  | .throws | .plain => s
  | .merging m rest =>
    { s with
      evals := s.evals.insert (.read reader) ⟨key, m, rest, (s.db.cell key).operands.length⟩ }

/-- A compaction of the first `count` operands of a key starts. -/
def beginCompact (cfg : MetadataConfig) (s : StoreState) (key : List Char) (count : Nat) :
    StoreState :=
  match mergeBegin cfg (s.db.cell key).base ((s.db.cell key).operands.take count) with
  | none => s
  | some (m, rest) =>
    { s with evals := s.evals.insert (.compact key) ⟨key, m, rest, count⟩ }

/-- A call of the merge operator throws: the read or the compaction ends, and the append whose
`Get` it was fails. -/
def abort (s : StoreState) : Evaluator → StoreState
  | .get request => { s.setPhase request .failed with evals := s.evals.erase (.get request) }
  | .read reader => { s with evals := s.evals.erase (.read reader) }
  | .compact key => { s with evals := s.evals.erase (.compact key) }

/-- A call of the merge operator applies its next operand. -/
def applyNext (s : StoreState) (who : Evaluator) (ev : Evaluation) (op : List Char)
    (rest : List (List Char)) : StoreState :=
  match applyOperand ev.state op with
  | none => s.abort who
  | some (m, reserved) =>
    { s with
      reserve := AppendOffsetReserve.putAll s.reserve reserved.toList
      evals := s.evals.insert who { ev with state := m, rest := rest } }

/-- A call of the merge operator returns: the `Get` of an append is done, and a compaction replaces
the value and the operands it has folded. -/
def finishCall (cfg : MetadataConfig) (s : StoreState) (ev : Evaluation) :
    Evaluator → StoreState
  | .get request => { s.setPhase request .evaluated with evals := s.evals.erase (.get request) }
  | .read reader => { s with evals := s.evals.erase (.read reader) }
  | .compact key =>
    { s with
      db := s.db.insert key
        ⟨some (ev.state.newValue cfg), (s.db.cell key).operands.drop ev.taken⟩
      evals := s.evals.erase (.compact key) }

/-- An append takes its offset from the table; the handler returns -1 if there is none. Source:
`increase_size_impl` (`rocksdb_backend.cpp:228`). -/
def takeOffset (s : StoreState) (request mergeId : Nat) : StoreState :=
  match AppendOffsetReserve.getAndErase s.reserve mergeId with
  | (some offset, reserve) => { s.setPhase request (.returned (toOff offset)) with reserve }
  | (none, _) => s.setPhase request (.returned (-1))

end StoreState

/-- One step of the daemon's metadata store. Source: `increase_size_impl`
(`rocksdb_backend.cpp:215`). -/
def StoreState.step (cfg : MetadataConfig) (s : StoreState) : StoreEvent → Option StoreState
  | .append key ioSize mergeId =>
    some { s.merge key (appendOperand ioSize.toNat mergeId.toNat) with
      requests := s.requests ++
        [⟨key, ioSize.toNat, mergeId.toNat, (s.history.cell key).operands.length, .merged⟩] }
  | .increase key ioSize offset =>
    some (s.merge key (MergeOperand.increaseSize (offset + ioSize).toNat 0 false).serialize)
  | .updateTime key now =>
    if cfg.useMtime then some (s.merge key (MergeOperand.updateTime now.toInt).serialize) else none
  | .beginGet request =>
    match s.requests[request]? with
    | some q => if q.phase = .merged then some (s.beginGet cfg request q.key) else none
    | none => none
  | .beginRead reader key =>
    if Evaluator.read reader ∈ s.evals then none else some (s.beginRead cfg reader key)
  | .beginCompact key count =>
    if Evaluator.compact key ∈ s.evals ∨ count = 0 ∨ (s.db.cell key).operands.length < count then
      none
    else some (s.beginCompact cfg key count)
  | .apply who =>
    match s.evals.lookup who with
    | some ev =>
      match ev.rest with
      | op :: rest => some (s.applyNext who ev op rest)
      | [] => none
    | none => none
  | .finish who =>
    match s.evals.lookup who with
    | some ev => if ev.rest = [] then some (s.finishCall cfg ev who) else none
    | none => none
  | .take request =>
    match s.requests[request]? with
    | some q => if q.phase = .evaluated then some (s.takeOffset request q.mergeId) else none
    | none => none

/-! ## What appends should return -/

/-- The size that a file has after the first `n` operands queued for its key. -/
def Cell.sizeAt (cfg : MetadataConfig) (c : Cell) (n : Nat) : Option Nat :=
  mergedSize cfg c.base (c.operands.take n)

/-- The size of its own file just before the operand of an append is applied. -/
def sizeBefore (cfg : MetadataConfig) (s : StoreState) (q : AppendRequest) : Option Nat :=
  (s.history.cell q.key).sizeAt cfg q.index

/-- The offset that an append returned, if it returned one that is not negative. -/
def AppendRequest.offset? (q : AppendRequest) : Option Nat :=
  match q.phase with
  | .returned offset => if 0 ≤ offset then some offset.toNat else none
  | _ => none

/-- The ranges of two appends do not meet. -/
def RangesApart (q q' : AppendRequest) : Prop :=
  ∀ off ∈ q.offset?, ∀ off' ∈ q'.offset?, off + q.ioSize ≤ off' ∨ off' + q'.ioSize ≤ off

/-- Each append that returned an offset got the size of its file just before its operand, and the
ranges of two appends to one file do not meet. -/
def OffsetsOk (cfg : MetadataConfig) (s : StoreState) : Prop :=
  (∀ q ∈ s.requests, ∀ off ∈ q.offset?, sizeBefore cfg s q = some off) ∧
    s.requests.Pairwise fun q q' => q.key = q'.key → RangesApart q q'

instance (q q' : AppendRequest) : Decidable (RangesApart q q') :=
  inferInstanceAs (Decidable (∀ off ∈ _, ∀ off' ∈ _, _))

instance (cfg : MetadataConfig) (s : StoreState) : Decidable (OffsetsOk cfg s) :=
  inferInstanceAs (Decidable (_ ∧ _))

/-- A merge id is in use: by an append that is under way, by a queued operand, or by an operand that
a call of the merge operator is still to apply. -/
def StoreState.IdInUse (s : StoreState) (mergeId : Nat) : Prop :=
  (∃ q ∈ s.requests, q.phase.active ∧ q.mergeId = mergeId) ∨
  (∃ c ∈ s.db.entries, ∃ op ∈ c.2.operands, appendId op = some mergeId) ∨
  ∃ e ∈ s.evals.entries, ∃ op ∈ e.2.rest, appendId op = some mergeId

/-- The condition on a step: the merge id of an append is not in use, and the size of its file with
the appended bytes is a 64-bit word. -/
def AppendFresh (cfg : MetadataConfig) (s : StoreState) : StoreEvent → Prop
  | .append key ioSize mergeId =>
    ¬ s.IdInUse mergeId.toNat ∧
      ∀ size ∈ (s.history.cell key).sizeAt cfg (s.history.cell key).operands.length,
        size + ioSize.toNat < 2 ^ 64
  | _ => True

instance (s : StoreState) (mergeId : Nat) : Decidable (s.IdInUse mergeId) :=
  inferInstanceAs (Decidable (_ ∨ _))

instance (cfg : MetadataConfig) (s : StoreState) :
    ∀ e : StoreEvent, Decidable (AppendFresh cfg s e)
  | .append .. => inferInstanceAs (Decidable (¬ _ ∧ ∀ size ∈ _, _))
  | .increase .. => isTrue trivial
  | .updateTime .. => isTrue trivial
  | .beginGet _ => isTrue trivial
  | .beginRead .. => isTrue trivial
  | .beginCompact .. => isTrue trivial
  | .apply _ => isTrue trivial
  | .finish _ => isTrue trivial
  | .take _ => isTrue trivial

end GekkoFS
