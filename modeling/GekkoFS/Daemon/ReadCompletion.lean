import Mathlib.Algebra.BigOperators.Fin
import GekkoFS.Daemon.ChunkOperation
import GekkoFS.Lib.Sweep

/-!
# The two ways to wait for the tasks of a read

`wait_for_tasks_and_push_back` has two variants. With `spin_lock_read` it goes over the tasks again
and again, tests the eventual of each task that is not done, and ends when it has counted as many
tasks as there are; without, it waits for one eventual after another. Both push the bytes of a task
that is ready to the client. They are translated here with the outcome of each task and the time at
which it is done as inputs. What one test takes is one unit of time, so the tasks may become ready
in any order and between any two tests.

Both variants end, not before all tasks are done, release each eventual once, counting the
destructor, and agree on their results, if and only if no operation on an eventual fails
(`completionOk_iff`). The polling variant sets its counter to the number of tasks when the test of
one eventual fails, so it may return while others are running (`polling_returns_early`). A failed
push leaves the eventual to the next round of the one variant, and to the destructor in the other.
-/

namespace GekkoFS

open Finset (univ mem_univ mem_insert notMem_empty)
open Function List

/-! ## Tasks and the state of a request -/

/-- The outcome of a task: an operation on its eventual fails, or the eventual has the size that the
task has read, a negated error code if it failed, and the push of the data works or not. -/
inductive TaskOutcome
  | eventualFailed
  | finished (taskSize : Int) (pushed : Bool)
  deriving DecidableEq

/-- The variables of `wait_for_tasks_and_push_back` for a request of `n` tasks, with the sizes of
the transfers it has made and the time. -/
structure ReadWait (n : Nat) where
  ioErr : Int
  totalRead : Int
  /-- The sizes of the transfers that worked. -/
  pushes : List Int
  /-- Whether an eventual has not been released. -/
  eventual : Fin n → Bool
  /-- How often an eventual has been released. -/
  releases : Fin n → Nat
  bulkTransferDone : Fin n → Bool
  bulkTransferCnt : Nat
  clock : Nat

namespace ReadWait

variable {n : Nat}

/-- The state at the start. -/
def start (n : Nat) : ReadWait n :=
  ⟨0, 0, [], fun _ => true, fun _ => 0, fun _ => false, 0, 0⟩

/-- `ABT_eventual_free`, which sets the handle to null and fails if it is. -/
def free (s : ReadWait n) (idx : Fin n) : ReadWait n :=
  if s.eventual idx then
    { s with
      eventual := update s.eventual idx false
      releases := update s.releases idx (s.releases idx + 1) }
  else s

/-- Take the result of a task that is ready. The second value says whether the task is through with
it, which it is unless the push fails. Source: `wait_for_tasks_and_push_back`
(`ops/data.cpp:434`, `ops/data.cpp:500`). -/
def takeResult (s : ReadWait n) (taskSize : Int) (pushed : Bool) : ReadWait n × Bool :=
  if s.ioErr ≠ 0 then (s, true)
  else if taskSize < 0 then
    if -taskSize = ENOENT then (s, true) else ({ s with ioErr := -taskSize }, true)
  else if taskSize = 0 then (s, true)
  else if pushed then
    ({ s with totalRead := s.totalRead + taskSize, pushes := taskSize :: s.pushes }, true)
  else ({ s with ioErr := EBUSY }, false)

/-- The error and the size that are returned. Source: `ops/data.cpp:546`. -/
def result (s : ReadWait n) : Int × Int :=
  (s.ioErr, if s.ioErr ≠ 0 then 0 else s.totalRead)

/-- Release the eventuals that are left. Source: `cancel_all_tasks` (`ops/data.hpp:159`), which the
destructor calls. -/
def cancelAllTasks (s : ReadWait n) : ReadWait n := (List.finRange n).foldl free s

/-! ## Polling -/

section
variable (outcome : Fin n → TaskOutcome) (doneAt : Fin n → Nat)

/-- Mark a task, count it and release its eventual. -/
def complete (s : ReadWait n) (idx : Fin n) : ReadWait n :=
  free { s with
    bulkTransferDone := update s.bulkTransferDone idx true
    bulkTransferCnt := s.bulkTransferCnt + 1 } idx

/-- Look at a task, at the time of the clock. Source: `wait_for_tasks_and_push_back`
(`ops/data.cpp:415`). -/
def look (s : ReadWait n) (idx : Fin n) : ReadWait n :=
  if s.bulkTransferDone idx then s
  else
    match outcome idx with
    | .eventualFailed => free { s with ioErr := EIO, bulkTransferCnt := n } idx
    | .finished taskSize pushed =>
      if s.clock < doneAt idx then s
      else
        match s.takeResult taskSize pushed with
        | (s, true) => s.complete idx
        | (s, false) => s

/-- One round of the inner loop. -/
def poll (s : ReadWait n) (idx : Fin n) : ReadWait n :=
  { s.look outcome doneAt idx with clock := s.clock + 1 }

/-- The polling variant; `none` if it has not returned after the given number of rounds. Source:
`wait_for_tasks_and_push_back` (`ops/data.cpp:412`). -/
def polling (rounds : Nat) : Option (ReadWait n) :=
  Sweep.sweepUntil (poll outcome doneAt) (List.finRange n) (fun s => s.bulkTransferCnt = n) rounds
    (start n)

/-! ## Waiting -/

/-- Wait for a task. Source: `wait_for_tasks_and_push_back` (`ops/data.cpp:490`). -/
def wait (s : ReadWait n) (idx : Fin n) : ReadWait n :=
  match outcome idx with
  | .eventualFailed => free { s with ioErr := EIO } idx
  | .finished taskSize pushed =>
    match takeResult { s with clock := max s.clock (doneAt idx) } taskSize pushed with
    | (s, true) => s.free idx
    | (s, false) => s

/-- The waiting variant. Source: `wait_for_tasks_and_push_back` (`ops/data.cpp:489`). -/
def waiting : ReadWait n := (List.finRange n).foldl (wait outcome doneAt) (start n)

end

end ReadWait

/-! ## What the variants should do -/

/-- A state in which a variant returns: no task is running, and with the destructor every eventual
is released exactly once. -/
structure Completed {n : Nat} (doneAt : Fin n → Nat) (s : ReadWait n) : Prop where
  notRunning : ∀ idx, doneAt idx ≤ s.clock
  released : ∀ idx, s.cancelAllTasks.releases idx = 1

/-- For all times at which the tasks are done, both variants return when the tasks are done, report
an error in the same cases, and otherwise return the same size, which is what they have pushed. -/
def CompletionOk {n : Nat} (outcome : Fin n → TaskOutcome) : Prop :=
  ∀ doneAt : Fin n → Nat, ∃ rounds p, ReadWait.polling outcome doneAt rounds = some p ∧
    Completed doneAt p ∧ Completed doneAt (ReadWait.waiting outcome doneAt) ∧
    (p.result.1 ≠ 0 ↔ (ReadWait.waiting outcome doneAt).result.1 ≠ 0) ∧
    (p.result.1 = 0 → p.result.2 = (ReadWait.waiting outcome doneAt).result.2 ∧
      p.result.2 = p.pushes.sum ∧
      (ReadWait.waiting outcome doneAt).result.2 = (ReadWait.waiting outcome doneAt).pushes.sum)

/-! ## Results -/

namespace TaskOutcome

/-- The outcome is an error of the request. -/
def Fails : TaskOutcome → Prop
  | eventualFailed => True
  | finished taskSize pushed =>
    (taskSize < 0 ∧ -taskSize ≠ ENOENT) ∨ (0 < taskSize ∧ pushed = false)

/-- The bytes that a task has for the client. -/
def size : TaskOutcome → Int
  | eventualFailed => 0
  | finished taskSize _ => max taskSize 0

end TaskOutcome

namespace ReadWait

variable {n : Nat} {outcome : Fin n → TaskOutcome} {doneAt : Fin n → Nat} {s s' : ReadWait n}
  {idx : Fin n} {taskSize : Int} {pushed : Bool} {seen : Finset (Fin n)}

/-- Two states differ in the error, the size and the transfers at most. -/
structure SameTasks (s s' : ReadWait n) : Prop where
  eventual : s'.eventual = s.eventual
  releases : s'.releases = s.releases
  done : s'.bulkTransferDone = s.bulkTransferDone
  count : s'.bulkTransferCnt = s.bulkTransferCnt
  clock : s'.clock = s.clock

theorem sameTasks_takeResult (s : ReadWait n) (taskSize : Int) (pushed : Bool) :
    SameTasks s (s.takeResult taskSize pushed).1 := by
  rw [takeResult]
  split_ifs <;> exact ⟨rfl, rfl, rfl, rfl, rfl⟩

/-- After an error nothing more is taken. -/
theorem takeResult_of_error (h : s.ioErr ≠ 0) (taskSize : Int) (pushed : Bool) :
    s.takeResult taskSize pushed = (s, true) := if_pos h

/-- A task that fails leaves an error. -/
theorem takeResult_of_fails (h : s.ioErr = 0)
    (hfails : (TaskOutcome.finished taskSize pushed).Fails) :
    (s.takeResult taskSize pushed).1.ioErr ≠ 0 ∧
      (s.takeResult taskSize pushed).1.totalRead = s.totalRead ∧
      (s.takeResult taskSize pushed).1.pushes = s.pushes := by
  rw [takeResult, if_neg (not_not.2 h)]
  rcases hfails with ⟨hneg, hne⟩ | ⟨hpos, hpushed⟩
  · rw [if_pos hneg, if_neg hne]
    exact ⟨by dsimp only; omega, rfl, rfl⟩
  · rw [if_neg (by omega), if_neg (by omega), hpushed, if_neg Bool.false_ne_true]
    exact ⟨show ( EBUSY : Int) ≠ 0 by decide, rfl, rfl⟩

/-- A task that does not fail is through, and its bytes are pushed. -/
theorem takeResult_of_not_fails (h : s.ioErr = 0)
    (hok : ¬ (TaskOutcome.finished taskSize pushed).Fails) :
    (s.takeResult taskSize pushed).2 = true ∧ (s.takeResult taskSize pushed).1.ioErr = 0 ∧
      (s.takeResult taskSize pushed).1.totalRead =
        s.totalRead + (TaskOutcome.finished taskSize pushed).size ∧
      (s.takeResult taskSize pushed).1.pushes.sum =
        s.pushes.sum + (TaskOutcome.finished taskSize pushed).size := by
  rw [TaskOutcome.Fails, not_or, not_and, not_not, not_and] at hok
  rw [takeResult, if_neg (not_not.2 h), TaskOutcome.size]
  rcases lt_trichotomy taskSize 0 with hneg | rfl | hpos
  · rw [if_pos hneg, if_pos (hok.1 hneg), max_eq_right hneg.le]
    exact ⟨rfl, h, (add_zero _).symm, (add_zero _).symm⟩
  · rw [if_neg (lt_irrefl 0), if_pos rfl]
    exact ⟨rfl, h, (add_zero _).symm, (add_zero _).symm⟩
  · rw [if_neg (by omega), if_neg (by omega), if_pos (Bool.not_eq_false _ ▸ hok.2 hpos),
      max_eq_left hpos.le]
    exact ⟨rfl, h, rfl, by rw [sum_cons, add_comm]⟩

/-- What the error and the size say about the tasks that a variant has seen: without an error none
of them fails and the size is theirs. -/
structure Accounts (outcome : Fin n → TaskOutcome) (seen : Finset (Fin n)) (s : ReadWait n) :
    Prop where
  pushed : s.totalRead = s.pushes.sum
  error : s.ioErr ≠ 0 → ∃ idx, (outcome idx).Fails
  passed : s.ioErr = 0 → ∀ idx ∈ seen, ¬ (outcome idx).Fails
  total : s.ioErr = 0 → s.totalRead = ∑ idx ∈ seen, (outcome idx).size

/-- Taking the result of a task that has not been seen. A task that is not through is followed by an
error, so it may count as seen or not. -/
theorem Accounts.takeResult (h : Accounts outcome seen s)
    (hidx : idx ∉ seen)
    (houtcome : outcome idx = .finished taskSize pushed) :
    Accounts outcome (insert idx seen) (s.takeResult taskSize pushed).1 ∧
      ((s.takeResult taskSize pushed).2 = false →
        s.ioErr = 0 ∧ (s.takeResult taskSize pushed).1.ioErr ≠ 0) := by
  by_cases herr : s.ioErr = 0
  · by_cases hfails : (outcome idx).Fails
    · obtain ⟨hne, htotal, hpushes⟩ := takeResult_of_fails herr (houtcome ▸ hfails)
      refine ⟨⟨?_, fun _ => ⟨idx, hfails⟩, fun hz => absurd hz hne, fun hz => absurd hz hne⟩,
        fun _ => ⟨herr, hne⟩⟩
      rw [htotal, hpushes, h.pushed]
    · obtain ⟨hthrough, hzero, htotal, hpushes⟩ := takeResult_of_not_fails herr (houtcome ▸ hfails)
      refine ⟨⟨?_, fun hne => absurd hzero hne, fun _ => ?_, fun _ => ?_⟩, fun hfalse => ?_⟩
      · rw [htotal, hpushes, h.pushed]
      · intro i hi
        rcases Finset.mem_insert.1 hi with rfl | hi
        · exact hfails
        · exact h.passed herr i hi
      · rw [htotal, h.total herr, Finset.sum_insert hidx, houtcome, add_comm]
      · exact absurd (hthrough.symm.trans hfalse) (by decide)
  · rw [takeResult_of_error herr]
    exact ⟨⟨h.pushed, h.error, fun hz => absurd hz herr, fun hz => absurd hz herr⟩,
      fun hfalse => Bool.noConfusion hfalse⟩

/-! ## Eventuals -/

section
variable (s : ReadWait n) (idx : Fin n)

@[simp] theorem free_ioErr : (s.free idx).ioErr = s.ioErr := by rw [free]; split <;> rfl

@[simp] theorem free_totalRead : (s.free idx).totalRead = s.totalRead := by
  rw [free]; split <;> rfl

@[simp] theorem free_pushes : (s.free idx).pushes = s.pushes := by rw [free]; split <;> rfl

@[simp] theorem free_bulkTransferDone :
    (s.free idx).bulkTransferDone = s.bulkTransferDone := by rw [free]; split <;> rfl

@[simp] theorem free_bulkTransferCnt :
    (s.free idx).bulkTransferCnt = s.bulkTransferCnt := by rw [free]; split <;> rfl

@[simp] theorem free_clock : (s.free idx).clock = s.clock := by rw [free]; split <;> rfl

theorem free_eventual : (s.free idx).eventual = update s.eventual idx false := by
  rw [free]
  split
  · rfl
  · next h => rw [update_eq_self_iff.2 (Bool.eq_false_of_not_eq_true h).symm]

end

/-- An eventual has been released once if and only if its handle is null. -/
def ReleasedOnce (s : ReadWait n) : Prop :=
  ∀ idx, s.releases idx = if s.eventual idx then 0 else 1

/-- A release is counted once. -/
theorem ReleasedOnce.free (h : s.ReleasedOnce) (idx : Fin n) : (s.free idx).ReleasedOnce := by
  intro i
  rw [ReadWait.free]
  split
  · next hidx =>
    by_cases hi : i = idx
    · subst hi
      simp [h i, hidx]
    · simp [hi, h i]
  · exact h i

theorem ReleasedOnce.complete (h : s.ReleasedOnce) (idx : Fin n) : (s.complete idx).ReleasedOnce :=
  have hmarked : ReleasedOnce { s with
      bulkTransferDone := update s.bulkTransferDone idx true
      bulkTransferCnt := s.bulkTransferCnt + 1 } := h
  hmarked.free idx

theorem ReleasedOnce.of_sameTasks (h : s.ReleasedOnce) (hsame : SameTasks s s') :
    s'.ReleasedOnce := by
  intro idx
  rw [hsame.releases, hsame.eventual, h idx]

/-- The destructor releases what is left. -/
theorem ReleasedOnce.cancelAllTasks (h : s.ReleasedOnce) (idx : Fin n) :
    s.cancelAllTasks.releases idx = 1 := by
  have hnull : ∀ (items : List (Fin n)) (s : ReadWait n), (idx ∈ items ∨ s.eventual idx = false) →
      (items.foldl ReadWait.free s).eventual idx = false := by
    intro items
    induction items with
    | nil => exact fun s hs => hs.resolve_left not_mem_nil
    | cons i items ih =>
      intro s hs
      refine ih (s.free i) ?_
      rw [free_eventual]
      by_cases hi : idx = i
      · exact .inr (hi ▸ update_self ..)
      · rw [update_of_ne hi]
        exact hs.imp_left fun hmem => (mem_cons.1 hmem).resolve_left hi
  have hend : s.cancelAllTasks.ReleasedOnce :=
    List.foldlRecOn (List.finRange n) _ h fun _ hs i _ => hs.free i
  rw [hend idx, ReadWait.cancelAllTasks, hnull _ s (.inl (mem_finRange idx))]
  rfl

/-! ## The polling variant -/

/-- The tasks that are marked. -/
def marked (s : ReadWait n) : Finset (Fin n) := {idx | s.bulkTransferDone idx = true}

theorem mem_marked : idx ∈ s.marked ↔ s.bulkTransferDone idx = true := by
  rw [marked, Finset.mem_filter]
  exact and_iff_right (mem_univ idx)

/-- What a polling variant keeps if no eventual fails: the marked tasks are counted, were ready, and
are accounted for. -/
structure PollInv (outcome : Fin n → TaskOutcome) (doneAt : Fin n → Nat) (s : ReadWait n) :
    Prop where
  accounts : Accounts outcome s.marked s
  released : s.ReleasedOnce
  count : s.bulkTransferCnt = s.marked.card
  ready : ∀ idx ∈ s.marked, doneAt idx ≤ s.clock

/-- The invariant holds at the start. -/
theorem pollInv_start : PollInv outcome doneAt (start n) := by
  have hmarked : (start n).marked = ∅ := Finset.filter_eq_empty_iff.2 fun _ _ h => nomatch h
  constructor
  · exact ⟨rfl, fun h => absurd rfl h, fun _ idx h => (by rw [hmarked] at h; simp at h),
      fun _ => by rw [hmarked]; rfl⟩
  · exact fun _ => rfl
  · rw [hmarked]
    rfl
  · intro idx h
    rw [hmarked] at h
    exact absurd h (notMem_empty idx)

variable (doneAt) in
/-- What a look at a task comes to, if its eventual does not fail. -/
theorem look_cases (houtcome : outcome idx = .finished taskSize pushed) :
    ((idx ∈ s.marked ∨ s.clock < doneAt idx) ∧ s.look outcome doneAt idx = s) ∨
      (idx ∉ s.marked ∧ doneAt idx ≤ s.clock ∧
        (((s.takeResult taskSize pushed).2 = true ∧
            s.look outcome doneAt idx = (s.takeResult taskSize pushed).1.complete idx) ∨
          ((s.takeResult taskSize pushed).2 = false ∧
            s.look outcome doneAt idx = (s.takeResult taskSize pushed).1))) := by
  rw [mem_marked, look]
  split
  · next hdone => exact .inl ⟨.inl hdone, rfl⟩
  · next hdone =>
    rw [houtcome]
    dsimp only
    split
    · next hready => exact .inl ⟨.inr hready, rfl⟩
    · next hready =>
      refine .inr ⟨hdone, Nat.le_of_not_lt hready, ?_⟩
      generalize s.takeResult taskSize pushed = r
      obtain ⟨s', through⟩ := r
      cases through with
      | true => exact .inl ⟨rfl, rfl⟩
      | false => exact .inr ⟨rfl, rfl⟩

/-- A task that ends is marked. -/
theorem marked_complete (s : ReadWait n) (idx : Fin n) :
    (s.complete idx).marked = insert idx s.marked := by
  ext i
  rw [mem_marked, complete, free_bulkTransferDone, mem_insert, mem_marked]
  dsimp only
  by_cases hi : i = idx
  · rw [hi, update_self]
    exact iff_of_true rfl (.inl rfl)
  · rw [update_of_ne hi]
    exact (or_iff_right hi).symm

theorem SameTasks.marked (h : SameTasks s s') : s'.marked = s.marked := by
  rw [ReadWait.marked, ReadWait.marked, h.done]

/-- A release changes no account. -/
theorem Accounts.free (h : Accounts outcome seen s) (idx : Fin n) :
    Accounts outcome seen (s.free idx) := by
  constructor
  · rw [free_totalRead, free_pushes, h.pushed]
  · rw [free_ioErr]
    exact h.error
  · rw [free_ioErr]
    exact h.passed
  · rw [free_ioErr, free_totalRead]
    exact h.total

/-- Nor does the end of a task. -/
theorem Accounts.complete (h : Accounts outcome seen s) (idx : Fin n) :
    Accounts outcome seen (s.complete idx) :=
  have hmarked : Accounts outcome seen { s with
      bulkTransferDone := update s.bulkTransferDone idx true
      bulkTransferCnt := s.bulkTransferCnt + 1 } := ⟨h.pushed, h.error, h.passed, h.total⟩
  hmarked.free idx

/-- With an error it does not matter which tasks have been seen. -/
theorem Accounts.of_error (h : Accounts outcome seen s) (herr : s.ioErr ≠ 0)
    (seen' : Finset (Fin n)) : Accounts outcome seen' s :=
  ⟨h.pushed, h.error, fun hz => absurd hz herr, fun hz => absurd hz herr⟩

section
variable (hok : ∀ idx, outcome idx ≠ .eventualFailed)

include hok

theorem exists_finished (idx : Fin n) :
    ∃ taskSize pushed, outcome idx = .finished taskSize pushed := by
  cases houtcome : outcome idx with
  | eventualFailed => exact absurd houtcome (hok idx)
  | finished taskSize pushed => exact ⟨taskSize, pushed, rfl⟩

variable (doneAt) in
theorem look_clock (s : ReadWait n) (idx : Fin n) :
    (s.look outcome doneAt idx).clock = s.clock := by
  obtain ⟨taskSize, pushed, houtcome⟩ := exists_finished hok idx
  have hsame := sameTasks_takeResult s taskSize pushed
  rcases look_cases doneAt (s := s) houtcome with
    ⟨-, heq⟩ | ⟨-, -, ⟨-, heq⟩ | ⟨-, heq⟩⟩
  · rw [heq]
  · rw [heq]
    exact (free_clock ..).trans hsame.clock
  · rw [heq, hsame.clock]

/-- A look at a task keeps the invariant. -/
theorem PollInv.look (h : PollInv outcome doneAt s) (idx : Fin n) :
    PollInv outcome doneAt (s.look outcome doneAt idx) := by
  obtain ⟨taskSize, pushed, houtcome⟩ := exists_finished hok idx
  have hsame := sameTasks_takeResult s taskSize pushed
  rcases look_cases doneAt (s := s) houtcome with
    ⟨-, heq⟩ | ⟨hidx, hready, ⟨-, heq⟩ | ⟨hthrough, heq⟩⟩
  · rw [heq]
    exact h
  · -- the task is marked and its result taken
    obtain ⟨haccounts, -⟩ := h.accounts.takeResult hidx houtcome
    have hmarked := marked_complete (s.takeResult taskSize pushed).1 idx
    rw [hsame.marked] at hmarked
    rw [heq]
    constructor
    · rw [hmarked]
      exact haccounts.complete idx
    · exact (h.released.of_sameTasks hsame).complete idx
    · rw [hmarked, Finset.card_insert_of_notMem hidx, ← h.count, ← hsame.count]
      exact free_bulkTransferCnt ..
    · intro i hi
      have hclock : ((s.takeResult taskSize pushed).1.complete idx).clock = s.clock :=
        (free_clock ..).trans hsame.clock
      rw [hmarked] at hi
      rw [hclock]
      rcases Finset.mem_insert.1 hi with rfl | hi
      · exact hready
      · exact h.ready i hi
  · -- the push has failed, and the task stays as it is
    obtain ⟨haccounts, herr⟩ := h.accounts.takeResult hidx houtcome
    rw [heq]
    constructor
    · rw [hsame.marked]
      exact haccounts.of_error (herr hthrough).2 s.marked
    · exact h.released.of_sameTasks hsame
    · rw [hsame.count, hsame.marked, h.count]
    · rw [hsame.marked, hsame.clock]
      exact h.ready

/-- A round keeps the invariant. -/
theorem PollInv.poll (h : PollInv outcome doneAt s) (idx : Fin n) :
    PollInv outcome doneAt (s.poll outcome doneAt idx) := by
  obtain ⟨haccounts, hreleased, hcount, hready⟩ := h.look hok idx
  have hclock := look_clock doneAt hok s idx
  refine ⟨⟨haccounts.pushed, haccounts.error, haccounts.passed, haccounts.total⟩, hreleased, hcount,
    fun i hi => ?_⟩
  have hle := hready i hi
  rw [hclock] at hle
  exact Nat.le_succ_of_le hle

/-! ### The polling variant returns -/

/-- What is left to do: the time until all tasks are done, the tasks that are not counted, and the
first error. -/
def toDo (bound : Nat) (s : ReadWait n) : Nat :=
  (bound - s.clock) + (n - s.bulkTransferCnt) + (if s.ioErr = 0 then 1 else 0)

/-- A look at a task counts at most this one, and leaves an error that there is. With the task not
marked and ready, it counts the task or leaves the first error. -/
theorem PollInv.look_progress (h : PollInv outcome doneAt s) (idx : Fin n) :
    ((s.look outcome doneAt idx).marked = s.marked ∧ (s.look outcome doneAt idx).ioErr = s.ioErr ∧
        (idx ∈ s.marked ∨ s.clock < doneAt idx)) ∨
      ((s.look outcome doneAt idx).marked = insert idx s.marked ∧ idx ∉ s.marked ∧
        (s.ioErr ≠ 0 → (s.look outcome doneAt idx).ioErr ≠ 0)) ∨
      ((s.look outcome doneAt idx).marked = s.marked ∧ s.ioErr = 0 ∧
        (s.look outcome doneAt idx).ioErr ≠ 0) := by
  obtain ⟨taskSize, pushed, houtcome⟩ := exists_finished hok idx
  have hsame := sameTasks_takeResult s taskSize pushed
  rcases look_cases doneAt (s := s) houtcome with
    ⟨hskip, heq⟩ | ⟨hidx, -, ⟨-, heq⟩ | ⟨hthrough, heq⟩⟩
  · rw [heq]
    exact .inl ⟨rfl, rfl, hskip⟩
  · refine .inr (.inl ⟨?_, hidx, fun herr => ?_⟩)
    · rw [heq, marked_complete, hsame.marked]
    · rw [heq, complete, free_ioErr, takeResult_of_error herr]
      exact herr
  · obtain ⟨hzero, hne⟩ := (h.accounts.takeResult hidx houtcome).2 hthrough
    rw [heq]
    exact .inr (.inr ⟨hsame.marked, hzero, hne⟩)

/-- No step makes more to do, and a step at a task that is not marked makes less. -/
theorem PollInv.toDo_poll {bound : Nat} (hbound : ∀ idx, doneAt idx ≤ bound)
    (h : PollInv outcome doneAt s) (idx : Fin n) :
    toDo bound (s.poll outcome doneAt idx) ≤ toDo bound s ∧
      (idx ∉ s.marked → toDo bound (s.poll outcome doneAt idx) < toDo bound s) := by
  have hcount := (h.look hok idx).count
  have hle : (s.look outcome doneAt idx).marked.card ≤ n :=
    (Finset.card_le_univ _).trans_eq (Fintype.card_fin n)
  have hpoll : toDo bound (s.poll outcome doneAt idx) = (bound - (s.clock + 1)) +
      (n - (s.look outcome doneAt idx).marked.card) +
      (if (s.look outcome doneAt idx).ioErr = 0 then 1 else 0) := by
    rw [toDo, ReadWait.poll]
    dsimp only
    rw [hcount]
  rw [hpoll, toDo, h.count]
  have hidx := hbound idx
  rcases h.look_progress hok idx with ⟨hmarked, herr, hskip⟩ | ⟨hmarked, hnew, herr⟩ |
    ⟨hmarked, hzero, hne⟩
  · rw [hmarked, herr]
    refine ⟨by omega, fun hnot => ?_⟩
    have hlt := hskip.resolve_left hnot
    omega
  · rw [hmarked, Finset.card_insert_of_notMem hnew] at hle ⊢
    have hite : (if (s.look outcome doneAt idx).ioErr = 0 then 1 else 0) ≤
        if s.ioErr = 0 then 1 else 0 := by
      by_cases hzero : s.ioErr = 0
      · rw [if_pos hzero]
        split <;> omega
      · rw [if_neg (herr hzero), if_neg hzero]
    exact ⟨by omega, fun _ => by omega⟩
  · rw [hmarked, if_neg hne, if_pos hzero]
    exact ⟨by omega, fun _ => by omega⟩

/-- A task that is marked stays so. -/
theorem marked_poll (s : ReadWait n) (idx : Fin n) :
    s.marked ⊆ (s.poll outcome doneAt idx).marked := by
  obtain ⟨taskSize, pushed, houtcome⟩ := exists_finished hok idx
  have hsame := sameTasks_takeResult s taskSize pushed
  have hpoll : (s.poll outcome doneAt idx).marked = (s.look outcome doneAt idx).marked := rfl
  rw [hpoll]
  rcases look_cases doneAt (s := s) houtcome with
    ⟨-, heq⟩ | ⟨-, -, ⟨-, heq⟩ | ⟨-, heq⟩⟩
  · rw [heq]
  · rw [heq, marked_complete, hsame.marked]
    exact Finset.subset_insert idx s.marked
  · rw [heq, hsame.marked]

omit hok in
theorem PollInv.exists_left (h : PollInv outcome doneAt s) (hgo : ¬ s.bulkTransferCnt = n) :
    ∃ idx, idx ∉ s.marked := by
  by_contra hall
  have huniv : s.marked = univ :=
    Finset.eq_univ_iff_forall.2 fun idx => not_not.1 fun hidx => hall ⟨idx, hidx⟩
  refine hgo ?_
  rw [h.count, huniv, Finset.card_univ, Fintype.card_fin]

variable (doneAt) in
/-- The polling variant ends. -/
theorem exists_polling : ∃ rounds p, polling outcome doneAt rounds = some p := by
  obtain ⟨bound, hbound⟩ : ∃ bound, ∀ idx, doneAt idx ≤ bound :=
    ⟨Finset.univ.sup doneAt, fun idx => Finset.le_sup (mem_univ idx)⟩
  have hlt : ∀ (s : ReadWait n) (idx : Fin n), PollInv outcome doneAt s → idx ∉ s.marked →
      toDo bound (s.poll outcome doneAt idx) < toDo bound s :=
    fun _ idx h hleft => (h.toDo_poll hok hbound idx).2 hleft
  refine Sweep.exists_sweepUntil (I := PollInv outcome doneAt) (fun _ idx h => h.poll hok idx)
    (fun _ idx h => (h.toDo_poll hok hbound idx).1) hlt
    (fun s idx _ hi hmem => hi (marked_poll hok s idx hmem)) ?_ pollInv_start
  intro s h hgo
  obtain ⟨idx, hidx⟩ := h.exists_left hgo
  exact ⟨idx, mem_finRange idx, hidx⟩

/-! ## The waiting variant -/

/-- What the waiting variant keeps if no eventual fails, with the tasks it has waited for. -/
structure WaitInv (outcome : Fin n → TaskOutcome) (doneAt : Fin n → Nat) (waited : Finset (Fin n))
    (s : ReadWait n) : Prop where
  accounts : Accounts outcome waited s
  released : s.ReleasedOnce
  ready : ∀ idx ∈ waited, doneAt idx ≤ s.clock

/-- Waiting for a task keeps the invariant. -/
theorem WaitInv.wait {waited : Finset (Fin n)} (h : WaitInv outcome doneAt waited s)
    (hidx : idx ∉ waited) :
    WaitInv outcome doneAt (insert idx waited) (s.wait outcome doneAt idx) := by
  obtain ⟨taskSize, pushed, houtcome⟩ := exists_finished hok idx
  have hs : Accounts outcome waited { s with clock := max s.clock (doneAt idx) } :=
    ⟨h.accounts.pushed, h.accounts.error, h.accounts.passed, h.accounts.total⟩
  obtain ⟨haccounts, -⟩ := hs.takeResult hidx houtcome
  have hsame := sameTasks_takeResult { s with clock := max s.clock (doneAt idx) } taskSize pushed
  have hreleased : ReleasedOnce { s with clock := max s.clock (doneAt idx) } := h.released
  rw [ReadWait.wait, houtcome]
  dsimp only
  generalize takeResult { s with clock := max s.clock (doneAt idx) } taskSize pushed = r at *
  obtain ⟨s', through⟩ := r
  have hclock : s'.clock = max s.clock (doneAt idx) := hsame.clock
  have hready : ∀ i ∈ insert idx waited, doneAt i ≤ s'.clock := by
    intro i hi
    rw [hclock]
    rcases Finset.mem_insert.1 hi with rfl | hi
    · exact le_max_right _ _
    · exact (h.ready i hi).trans (le_max_left _ _)
  cases through with
  | true =>
    exact ⟨haccounts.free idx, (hreleased.of_sameTasks hsame).free idx,
      fun i hi => by rw [free_clock]; exact hready i hi⟩
  | false => exact ⟨haccounts, hreleased.of_sameTasks hsame, hready⟩

variable (doneAt) in
/-- The waiting variant waits for every task. -/
theorem waitInv_waiting : WaitInv outcome doneAt univ (waiting outcome doneAt) := by
  have hfold : ∀ (items : List (Fin n)) (waited : Finset (Fin n)) (s : ReadWait n), items.Nodup →
      (∀ idx ∈ items, idx ∉ waited) → WaitInv outcome doneAt waited s →
      WaitInv outcome doneAt (waited ∪ items.toFinset)
        (items.foldl (ReadWait.wait outcome doneAt) s) := by
    intro items
    induction items with
    | nil =>
      intro waited s _ _ hs
      rw [toFinset_nil, Finset.union_empty]
      exact hs
    | cons idx items ih =>
      intro waited s hnodup hnew hs
      obtain ⟨hidx, hnodup⟩ := nodup_cons.1 hnodup
      have hrest := ih (insert idx waited) (s.wait outcome doneAt idx) hnodup
        (fun i hi hmem => (Finset.mem_insert.1 hmem).elim (fun heq => hidx (heq ▸ hi))
          (hnew i (mem_cons_of_mem idx hi)))
        (hs.wait hok (hnew idx mem_cons_self))
      rw [toFinset_cons, Finset.union_insert, ← Finset.insert_union]
      exact hrest
  have hstart : WaitInv outcome doneAt ∅ (start n) :=
    ⟨⟨rfl, fun h => absurd rfl h, fun _ idx h => absurd h (notMem_empty idx), fun _ => rfl⟩,
      fun _ => rfl, fun idx h => absurd h (notMem_empty idx)⟩
  have hend := hfold (List.finRange n) ∅ (start n) (nodup_finRange n)
    (fun idx _ => notMem_empty idx) hstart
  rwa [Finset.empty_union, show (List.finRange n).toFinset = univ from
    Finset.eq_univ_iff_forall.2 fun idx => mem_toFinset.2 (mem_finRange idx)] at hend

end

/-! ## Both variants -/

/-- A variant that has seen all tasks reports an error if and only if one of them fails. -/
theorem Accounts.error_iff (h : Accounts outcome univ s) :
    s.result.1 ≠ 0 ↔ ∃ idx, (outcome idx).Fails := by
  refine ⟨h.error, ?_⟩
  rintro ⟨idx, hfails⟩ hzero
  exact h.passed hzero idx (mem_univ idx) hfails

/-- Otherwise it returns the size of all tasks, which it has pushed. -/
theorem Accounts.result_total (h : Accounts outcome univ s) (hzero : s.result.1 = 0) :
    s.result.2 = ∑ idx, (outcome idx).size ∧ s.result.2 = s.pushes.sum := by
  have htotal : s.result.2 = s.totalRead := if_neg (not_not.2 hzero)
  rw [htotal]
  exact ⟨h.total hzero, h.pushed⟩

/-- The polling variant returns when all tasks are marked. -/
theorem PollInv.marked_eq (h : PollInv outcome doneAt s) (hstop : s.bulkTransferCnt = n) :
    s.marked = univ := by
  refine Finset.eq_univ_of_card s.marked ?_
  rw [← h.count, hstop, Fintype.card_fin]

/-- The waiting variant does not wait for a task whose eventual fails. -/
theorem waiting_clock (h : ∀ idx, outcome idx ≠ .eventualFailed → doneAt idx = 0) :
    (waiting outcome doneAt).clock = 0 := by
  have hstep : ∀ (s : ReadWait n) (idx : Fin n), s.clock = 0 →
      (s.wait outcome doneAt idx).clock = 0 := by
    intro s idx hs
    rw [wait]
    cases houtcome : outcome idx with
    | eventualFailed => exact (free_clock ..).trans hs
    | finished taskSize pushed =>
      have hzero : max s.clock (doneAt idx) = 0 := by
        rw [hs, h idx (by rw [houtcome]; exact fun hne => nomatch hne), max_self]
      have hsame := sameTasks_takeResult { s with clock := max s.clock (doneAt idx) } taskSize
        pushed
      dsimp only
      generalize takeResult { s with clock := max s.clock (doneAt idx) } taskSize pushed = r at *
      obtain ⟨s', through⟩ := r
      have hclock : s'.clock = 0 := hsame.clock.trans hzero
      cases through with
      | true => exact (free_clock ..).trans hclock
      | false => exact hclock
  refine List.foldlRecOn (motive := fun s => s.clock = 0) (List.finRange n) _ ?_
    fun s hs i _ => hstep s i hs
  rfl

end ReadWait

open ReadWait in
/-- Whatever the order in which the tasks of a read become ready, both variants return, not while a
task is running, release every eventual once and agree, if and only if no operation on an eventual
fails. -/
theorem completionOk_iff {n : Nat} (outcome : Fin n → TaskOutcome) :
    CompletionOk outcome ↔ ∀ idx, outcome idx ≠ .eventualFailed := by
  constructor
  · intro h idx hfailed
    obtain ⟨-, -, -, -, hwaiting, -⟩ := h fun i => if i = idx then 1 else 0
    have hclock := hwaiting.notRunning idx
    rw [waiting_clock fun i hi => if_neg fun heq => hi (heq ▸ hfailed), if_pos rfl] at hclock
    omega
  · intro hok doneAt
    obtain ⟨rounds, p, hp⟩ := exists_polling doneAt hok
    obtain ⟨hinv, hstop⟩ := Sweep.sweepUntil_invariant (I := PollInv outcome doneAt)
      (fun _ idx h => h.poll hok idx) pollInv_start hp
    have hmarked := hinv.marked_eq hstop
    have haccounts : Accounts outcome univ p := hmarked ▸ hinv.accounts
    have hwait := waitInv_waiting doneAt hok
    refine ⟨rounds, p, hp, ⟨fun idx => ?_, hinv.released.cancelAllTasks⟩,
      ⟨fun idx => hwait.ready idx (mem_univ idx), hwait.released.cancelAllTasks⟩, ?_, ?_⟩
    · exact hinv.ready idx (hmarked ▸ mem_univ idx)
    · rw [haccounts.error_iff, hwait.accounts.error_iff]
    · intro hzero
      have hzero' : (waiting outcome doneAt).result.1 = 0 := by
        by_contra hne
        exact haccounts.error_iff.2 (hwait.accounts.error_iff.1 hne) hzero
      obtain ⟨htotal, hpushed⟩ := haccounts.result_total hzero
      obtain ⟨htotal', hpushed'⟩ := hwait.accounts.result_total hzero'
      exact ⟨htotal.trans htotal'.symm, hpushed, hpushed'⟩

/-- The test of the first of two eventuals fails while the second task runs until time 7: the
polling variant returns after one round, at time 2, and the waiting variant waits for it. -/
theorem polling_returns_early :
    ((ReadWait.polling (fun idx : Fin 2 => if idx.val = 0 then .eventualFailed
        else .finished 5 true) (fun idx => if idx.val = 0 then 0 else 7) 1).map
          fun p => (p.clock, p.result)) = some (2, (( EIO : Int), 0)) ∧
      (ReadWait.waiting (fun idx : Fin 2 => if idx.val = 0 then .eventualFailed
        else .finished 5 true) (fun idx => if idx.val = 0 then 0 else 7)).clock = 7 ∧
      ¬ CompletionOk (fun idx : Fin 2 => if idx.val = 0 then .eventualFailed
        else .finished 5 true) := by
  refine ⟨by decide, by decide, fun h => ?_⟩
  obtain ⟨rounds, p, hp, hpolling, -⟩ := h fun idx => if idx.val = 0 then 0 else 7
  cases rounds with
  | zero => exact nomatch hp
  | succ rounds =>
    rw [ReadWait.polling, Sweep.sweepUntil, if_pos (by decide)] at hp
    have hclock : p.clock = 2 := by
      rw [← Option.some.inj hp]
      decide
    have hrunning := hpolling.notRunning ⟨1, by decide⟩
    rw [hclock, if_neg (by decide)] at hrunning
    omega

end GekkoFS
