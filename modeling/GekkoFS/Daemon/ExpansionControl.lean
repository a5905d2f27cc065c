import GekkoFS.Lib.Transition
import Mathlib.Data.List.Basic

/-!
# The control of an expansion

The requests that start, watch and end an expansion share two flags of a daemon. Maintenance mode is
guarded by a mutex, and the flag that `expand_status` reports is set and cleared by the thread that
migrates. A daemon serves requests at the same time, so a run is a list of events of the requests
and the threads in any order (`ControlState.step`).

`maintenance_mode(true)` throws while it holds the mutex, so a refused `expand_start` waits for
itself in its error handler, and every later request that takes the mutex waits with it
(`not_canFinish_of_locked`). The thread sets its flag only once it is scheduled, and clears it also
if another thread is migrating. `controlOk_of_run` says that these are the only ways in which the
control can fail.
-/

namespace GekkoFS

open List Transition

/-! ## The daemon -/

/-- Where a request stands: before the call of `maintenance_mode(true)`, in
`MalleableManager::expand_start`, in the error handler before the call of `maintenance_mode(false)`,
where `refused` says that maintenance mode was on, before the call of `maintenance_mode(false)` of
`expand_finalize`, before the flag is read, or answered. -/
inductive ControlRequest
  | start
  | expanding
  | undo (refused : Bool)
  | finalize
  | status
  | answered (err : Int)
  deriving DecidableEq, Repr

/-- Where a migration thread stands: it has not set `redist_running_` yet, it has, or it has cleared
it again. -/
inductive Migration
  | created
  | running
  | ended
  deriving DecidableEq, Repr

/-- The flags of a daemon, its requests and the threads it has created, in the order they came.
`refusals` has maintenance mode as each refused request left it, and `statuses` has the answers of
`expand_status` with whether a migration had not ended. -/
structure ControlState where
  maintenanceMode : Bool
  locked : Bool
  redistRunning : Bool
  requests : List ControlRequest
  migrations : List Migration
  refusals : List Bool
  statuses : List (Bool × Int)
  deriving DecidableEq, Repr

/-- A request arrives, a request goes on, or a thread goes on. `ok` says whether
`MalleableManager::expand_start` succeeds, if the request is there. -/
inductive ControlEvent
  | expandStart
  | expandStatus
  | expandFinalize
  | proceed (i : Nat) (ok : Bool)
  | migrate (j : Nat)
  deriving DecidableEq, Repr

namespace ControlState

/-- A daemon that has just been started. -/
def init : ControlState := ⟨false, false, false, [], [], [], []⟩

variable (s : ControlState)

/-- A request is at another position. -/
def setRequest (i : Nat) (r : ControlRequest) : ControlState :=
  { s with requests := s.requests.set i r }

/-- Whether a migration has not ended. -/
def busy : Bool := s.migrations.any (· ≠ .ended)

/-- The next step of a request. The body of `maintenance_mode` is one step, which waits for the
mutex; where it throws the mutex stays locked. Source: `rpc_srv_expand_start`,
`rpc_srv_expand_status`, `rpc_srv_expand_finalize` (`srv_malleability.cpp:46`) and
`FsData::maintenance_mode` (`fs_data.cpp:331`). -/
def proceed (i : Nat) (ok : Bool) : Option ControlState :=
  match s.requests[i]? with
  | some .start =>
    if s.locked then none
    else if s.maintenanceMode then some ({ s with locked := true }.setRequest i (.undo true))
    else some ({ s with maintenanceMode := true }.setRequest i .expanding)
  | some .expanding =>
    if ok then
      some ({ s with migrations := s.migrations ++ [Migration.created] }.setRequest i (.answered 0))
    else some (s.setRequest i (.undo false))
  | some (.undo refused) =>
    if s.locked then none
    else
      some ({ s with
        maintenanceMode := false
        refusals := if refused then s.refusals ++ [false] else s.refusals }.setRequest i
          (.answered (-1)))
  | some .finalize =>
    if s.locked then none
    else some ({ s with maintenanceMode := false }.setRequest i (.answered 0))
  | some .status =>
    let err : Int := if s.redistRunning then 1 else 0
    some ({ s with statuses := s.statuses ++ [(s.busy, err)] }.setRequest i (.answered err))
  | _ => none

/-- The next step of a thread. Source: `expand_abt` (`malleable_manager.cpp:320`). -/
def migrate (j : Nat) : Option ControlState :=
  match s.migrations[j]? with
  | some .created =>
    some { s with redistRunning := true, migrations := s.migrations.set j .running }
  | some .running =>
    some { s with redistRunning := false, migrations := s.migrations.set j .ended }
  | _ => none

/-- One event, if it can happen. -/
def step : ControlEvent → Option ControlState
  | .expandStart => some { s with requests := s.requests ++ [.start] }
  | .expandStatus => some { s with requests := s.requests ++ [.status] }
  | .expandFinalize => some { s with requests := s.requests ++ [.finalize] }
  | .proceed i ok => s.proceed i ok
  | .migrate j => s.migrate j

/-! ## What should hold -/

/-- A request can be answered. -/
def CanFinish (i : Nat) : Prop :=
  ∃ es s' err, run step s es = some s' ∧ s'.requests[i]? = some (.answered err)

/-- The control is consistent: nothing holds the mutex, every request can be answered, every refused
request has left maintenance mode on, and `expand_status` has reported every migration that had not
ended. -/
structure ControlOk : Prop where
  unlocked : s.locked = false
  canFinish : ∀ i < s.requests.length, s.CanFinish i
  refusals : ∀ mode ∈ s.refusals, mode = true
  statuses : ∀ answer ∈ s.statuses, answer.1 = true → answer.2 = 1

/-- No `expand_start` is refused, no expansion starts before an earlier one has migrated, and no
status is read while a thread has not been scheduled yet. -/
def StepOk : ControlEvent → Prop
  | .proceed i _ =>
    (s.requests[i]? = some .start → s.maintenanceMode = false) ∧
      (s.requests[i]? = some .expanding → ∀ m ∈ s.migrations, m = .ended) ∧
      (s.requests[i]? = some .status → ∀ m ∈ s.migrations, m ≠ .created)
  | _ => True

instance (e : ControlEvent) : Decidable (s.StepOk e) :=
  match e with
  | .proceed _ _ => inferInstanceAs (Decidable (_ ∧ _ ∧ _))
  | .expandStart | .expandStatus | .expandFinalize | .migrate _ => isTrue trivial

/-! ## Requests that wait -/

section
variable {s} {e : ControlEvent} {s' : ControlState} {i : Nat} {r : ControlRequest}

/-- The request takes the mutex next. -/
def TakesMutex (r : ControlRequest) : Prop := r = .start ∨ (∃ b, r = .undo b) ∨ r = .finalize

/-- While the mutex is locked, a request that takes it does not move, and no other request unlocks
it. -/
theorem step_of_locked
    (hr : TakesMutex r) (h : s.locked = true ∧ s.requests[i]? = some r) (hs : s.step e = some s') :
    s'.locked = true ∧ s'.requests[i]? = some r := by
  obtain ⟨hlocked, hi⟩ := h
  have hlt : i < s.requests.length := (List.getElem?_eq_some_iff.1 hi).1
  cases e with
  | expandStart | expandStatus | expandFinalize =>
    cases hs
    exact ⟨hlocked, (getElem?_append_left hlt).trans hi⟩
  | migrate j =>
    rw [step, migrate] at hs
    split at hs
    · cases hs; exact ⟨hlocked, hi⟩
    · cases hs; exact ⟨hlocked, hi⟩
    · cases hs
  | proceed k ok =>
    have hne : ∀ {x}, s.requests[k]? = some x → ¬ TakesMutex x → k ≠ i := by
      rintro x hx hnot rfl
      rw [hi] at hx
      cases hx
      exact hnot hr
    rw [step, proceed] at hs
    simp only [hlocked, if_true] at hs
    split at hs
    · cases hs
    · next hk =>
      have hki := hne hk (by simp [TakesMutex])
      split at hs
      · cases hs; exact ⟨rfl, (getElem?_set_ne hki).trans hi⟩
      · cases hs; exact ⟨hlocked, (getElem?_set_ne hki).trans hi⟩
    · cases hs
    · cases hs
    · next hk =>
      have hki := hne hk (by simp [TakesMutex])
      cases hs
      exact ⟨rfl, (getElem?_set_ne hki).trans hi⟩
    · cases hs

/-- A request that takes the mutex is never answered once the mutex is locked. -/
theorem not_canFinish_of_locked (hr : TakesMutex r)
    (hlocked : s.locked = true) (hi : s.requests[i]? = some r) : ¬ s.CanFinish i := by
  rintro ⟨es, s', err, hrun, hanswer⟩
  have hok : Transition.AllOk step (fun _ _ => True) s es :=
    allOk_of_forall fun _ _ _ => trivial
  have hinv : s'.locked = true ∧ s'.requests[i]? = some r :=
    run_invariant (I := fun s => s.locked = true ∧ s.requests[i]? = some r)
      (fun _ _ _ h _ hs => step_of_locked hr h hs) ⟨hlocked, hi⟩ hok hrun
  rw [hinv.2] at hanswer
  cases hanswer
  simp [TakesMutex] at hr

/-! ## Requests that can be answered -/

theorem CanFinish.of_step (hs : s.step e = some s') (h : s'.CanFinish i) : s.CanFinish i := by
  obtain ⟨es, s'', err, hrun, hanswer⟩ := h
  refine ⟨e :: es, s'', err, ?_, hanswer⟩
  rw [run_cons, hs]
  exact hrun

/-- A request that is answered in its next step. -/
theorem CanFinish.of_answered {err : Int}
    (hs : s.step e = some (s'.setRequest i (.answered err))) (hi : i < s'.requests.length) :
    s.CanFinish i :=
  .of_step hs ⟨[], _, err, rfl, getElem?_set_self hi⟩

theorem lt_of_getElem? (h : s.requests[i]? = some r) :
    i < s.requests.length := (List.getElem?_eq_some_iff.1 h).1

theorem canFinish_expanding (h : s.requests[i]? = some .expanding) : s.CanFinish i := by
  have hs : s.step (.proceed i true) = some ({ s with
      migrations := s.migrations ++ [Migration.created] }.setRequest i (.answered 0)) := by
    rw [step, proceed, h]
    rfl
  exact .of_answered hs (lt_of_getElem? h)

/-- An `expand_start` goes on if it is not refused. -/
theorem canFinish_start (h : s.requests[i]? = some .start) (hlocked : s.locked = false)
    (hmode : s.maintenanceMode = false) : s.CanFinish i := by
  have hs : s.step (.proceed i true) =
      some ({ s with maintenanceMode := true }.setRequest i .expanding) := by
    rw [step, proceed, h]
    simp only [hlocked, hmode, Bool.false_eq_true, if_false]
  exact .of_step hs (canFinish_expanding (getElem?_set_self (lt_of_getElem? h)))

theorem step_finalize (h : s.requests[i]? = some .finalize) (hlocked : s.locked = false) :
    s.step (.proceed i true) =
      some ({ s with maintenanceMode := false }.setRequest i (.answered 0)) := by
  rw [step, proceed, h]
  simp only [hlocked, Bool.false_eq_true, if_false]

/-- As long as the mutex is not locked, every request can be answered: an `expand_start` after an
`expand_finalize`, if maintenance mode is on. -/
theorem canFinish_of_unlocked (hlocked : s.locked = false)
    (hi : i < s.requests.length) : s.CanFinish i := by
  cases hr : s.requests[i] with
  | answered err => exact ⟨[], s, err, rfl, hr ▸ getElem?_eq_getElem hi⟩
  | expanding => exact canFinish_expanding (hr ▸ getElem?_eq_getElem hi)
  | status =>
    have hget : s.requests[i]? = some .status := hr ▸ getElem?_eq_getElem hi
    have hs : s.step (.proceed i true) = some ({ s with
        statuses := s.statuses ++ [(s.busy, if s.redistRunning then 1 else 0)] }.setRequest i
          (.answered (if s.redistRunning then 1 else 0))) := by
      rw [step, proceed, hget]
    exact .of_answered hs hi
  | finalize => exact .of_answered (step_finalize (hr ▸ getElem?_eq_getElem hi) hlocked) hi
  | undo refused =>
    have hget : s.requests[i]? = some (.undo refused) := hr ▸ getElem?_eq_getElem hi
    have hs : s.step (.proceed i true) = some ({ s with
        maintenanceMode := false
        refusals := if refused then s.refusals ++ [false] else s.refusals }.setRequest i
          (.answered (-1))) := by
      rw [step, proceed, hget]
      simp only [hlocked, Bool.false_eq_true, if_false]
    exact .of_answered hs hi
  | start =>
    have hget : s.requests[i]? = some .start := hr ▸ getElem?_eq_getElem hi
    -- an `expand_finalize` comes first and turns maintenance mode off
    have harrive : s.step .expandFinalize =
        some { s with requests := s.requests ++ [.finalize] } := rfl
    refine .of_step harrive (.of_step (step_finalize getElem?_concat_length hlocked)
      (canFinish_start ?_ hlocked rfl))
    exact (getElem?_set_ne (Nat.ne_of_gt hi)).trans
      ((getElem?_append_left hi).trans hget)

/-! ## The invariant -/

/-- At most the last thread has not ended, and `redist_running_` says whether it has set it. -/
def Threads (migrations : List Migration) (redistRunning : Bool) : Prop :=
  ((∀ m ∈ migrations, m = .ended) ∧ redistRunning = false) ∨
    ∃ ended m, migrations = ended ++ [m] ∧ (∀ m ∈ ended, m = .ended) ∧ m ≠ .ended ∧
      redistRunning = decide (m = .running)

/-- What the requests and the threads keep, as long as their steps meet the condition. -/
structure Inv (s : ControlState) : Prop where
  unlocked : s.locked = false
  undo : ∀ r ∈ s.requests, r ≠ .undo true
  refusals : s.refusals = []
  threads : Threads s.migrations s.redistRunning
  statuses : ∀ answer ∈ s.statuses, answer.1 = true → answer.2 = 1

/-- Only the last thread can go on. -/
theorem Threads.migrate {ms : List Migration} {running : Bool} (h : Threads ms running) {j : Nat}
    {m : Migration} (hm : ms[j]? = some m) (hne : m ≠ .ended) :
    ∃ ended, ms = ended ++ [m] ∧ (∀ m ∈ ended, m = .ended) ∧ j = ended.length := by
  rcases h with ⟨hall, -⟩ | ⟨ended, m', rfl, hall, -, -⟩
  · exact absurd (hall m (mem_of_getElem? hm)) hne
  · rcases Nat.lt_trichotomy j ended.length with hlt | rfl | hgt
    · rw [getElem?_append_left hlt] at hm
      exact absurd (hall m (mem_of_getElem? hm)) hne
    · rw [getElem?_concat_length] at hm
      cases hm
      exact ⟨ended, rfl, hall, rfl⟩
    · rw [getElem?_eq_none (by simp; omega)] at hm
      cases hm

/-- If no thread waits to be scheduled, the flag says whether one has not ended. -/
theorem Threads.running_of_busy {s : ControlState} (h : Threads s.migrations s.redistRunning)
    (hcreated : ∀ m ∈ s.migrations, m ≠ .created) (hbusy : s.busy = true) :
    s.redistRunning = true := by
  rcases h with ⟨hall, -⟩ | ⟨ended, m, hms, -, hne, hrunning⟩
  · obtain ⟨m, hm, hne⟩ := any_eq_true.1 hbusy
    exact absurd (hall m hm) (of_decide_eq_true hne)
  · have hlast : m ≠ .created := hcreated m (hms ▸ mem_append_right _ mem_cons_self)
    rw [hrunning]
    cases m with
    | created => exact absurd rfl hlast
    | running => rfl
    | ended => exact absurd rfl hne

theorem Inv.init : Inv init :=
  ⟨rfl, fun _ h => absurd h not_mem_nil, rfl, .inl ⟨fun _ h => absurd h not_mem_nil, rfl⟩,
    fun _ h => absurd h not_mem_nil⟩

/-- A request arrives. -/
theorem Inv.arrive (h : Inv s) (hr : r ≠ .undo true) :
    Inv { s with requests := s.requests ++ [r] } := by
  refine ⟨h.unlocked, fun r' hr' => ?_, h.refusals, h.threads, h.statuses⟩
  rcases mem_append.1 hr' with hr' | hr'
  · exact h.undo r' hr'
  · rw [mem_singleton.1 hr']
    exact hr

/-- A request goes on to a position where it has not been refused. -/
theorem Inv.setRequest (h : Inv s) (i : Nat) (hr : r ≠ .undo true) :
    Inv (s.setRequest i r) := by
  refine ⟨h.unlocked, fun r' hr' => ?_, h.refusals, h.threads, h.statuses⟩
  rcases mem_or_eq_of_mem_set hr' with hr' | rfl
  · exact h.undo r' hr'
  · exact hr

/-- A request that goes on keeps the invariant. -/
theorem Inv.proceed (h : Inv s) {ok : Bool} (hok : s.StepOk (.proceed i ok))
    (hs : s.proceed i ok = some s') : Inv s' := by
  obtain ⟨hstart, hexpanding, hstatus⟩ := hok
  rw [ControlState.proceed] at hs
  split at hs
  · next hi =>
    simp only [h.unlocked, hstart hi, Bool.false_eq_true, if_false] at hs
    cases hs
    have h' : Inv { s with maintenanceMode := true, locked := false } :=
      ⟨rfl, h.undo, h.refusals, h.threads, h.statuses⟩
    exact h'.setRequest i (by decide)
  · next hi =>
    split at hs
    · cases hs
      have hthreads : Threads (s.migrations ++ [.created]) s.redistRunning := by
        rcases h.threads with ⟨hall, hrunning⟩ | ⟨ended, m, hms, -, hne, -⟩
        · exact .inr ⟨s.migrations, .created, rfl, hall, by decide, hrunning⟩
        · exact absurd (hexpanding hi m (hms ▸ mem_append_right _ mem_cons_self)) hne
      have h' : Inv { s with migrations := s.migrations ++ [Migration.created] } :=
        ⟨h.unlocked, h.undo, h.refusals, hthreads, h.statuses⟩
      exact h'.setRequest i (by decide)
    · cases hs
      exact h.setRequest i (by decide)
  · next refused hi =>
    simp only [h.unlocked, Bool.false_eq_true, if_false] at hs
    cases hs
    have hrefused : refused = false := by
      cases refused with
      | false => rfl
      | true => exact absurd rfl (h.undo _ (mem_of_getElem? hi))
    rw [hrefused]
    have h' : Inv { s with maintenanceMode := false, locked := false } :=
      ⟨rfl, h.undo, h.refusals, h.threads, h.statuses⟩
    exact h'.setRequest i (by decide)
  · simp only [h.unlocked, Bool.false_eq_true, if_false] at hs
    cases hs
    have h' : Inv { s with maintenanceMode := false, locked := false } :=
      ⟨rfl, h.undo, h.refusals, h.threads, h.statuses⟩
    exact h'.setRequest i (by decide)
  · next hi =>
    cases hs
    have h' : Inv { s with
        statuses := s.statuses ++ [(s.busy, if s.redistRunning then 1 else 0)] } := by
      refine ⟨h.unlocked, h.undo, h.refusals, h.threads, fun answer ha => ?_⟩
      rcases mem_append.1 ha with ha | ha
      · exact h.statuses answer ha
      · rw [mem_singleton.1 ha]
        intro hbusy
        exact if_pos (h.threads.running_of_busy (hstatus hi) hbusy)
    exact h'.setRequest i (by simp)
  · cases hs

/-- So does a migration that ends. -/
theorem Inv.migrate (h : Inv s) {j : Nat} (hs : s.migrate j = some s') :
    Inv s' := by
  rw [ControlState.migrate] at hs
  split at hs
  · next hj =>
    cases hs
    obtain ⟨ended, hms, hall, rfl⟩ := h.threads.migrate hj (by decide)
    refine ⟨h.unlocked, h.undo, h.refusals, .inr ⟨ended, .running, ?_, hall, by decide, rfl⟩,
      h.statuses⟩
    rw [hms, set_append_right _ _ (Nat.le_refl _), Nat.sub_self, set_cons_zero]
  · next hj =>
    cases hs
    obtain ⟨ended, hms, hall, rfl⟩ := h.threads.migrate hj (by decide)
    refine ⟨h.unlocked, h.undo, h.refusals, .inl ⟨fun m hm => ?_, rfl⟩, h.statuses⟩
    rw [hms, set_append_right _ _ (Nat.le_refl _), Nat.sub_self, set_cons_zero] at hm
    rcases mem_append.1 hm with hm | hm
    · exact hall m hm
    · exact mem_singleton.1 hm
  · cases hs

/-- Every event that meets the condition keeps the invariant. -/
theorem Inv.step (h : Inv s) (hok : s.StepOk e)
    (hs : s.step e = some s') : Inv s' := by
  cases e with
  | expandStart | expandStatus | expandFinalize =>
    cases hs
    exact h.arrive (by decide)
  | proceed i ok => exact h.proceed hok hs
  | migrate j => exact h.migrate hs

end

/-- In every run whose steps meet the condition the control is consistent. -/
theorem controlOk_of_run {es : List ControlEvent} {s : ControlState}
    (hok : Transition.AllOk step StepOk init es) (hrun : run step init es = some s) :
    ControlOk s := by
  have h : Inv s :=
    run_invariant (fun _ _ _ h hok hs => h.step hok hs) Inv.init hok hrun
  refine ⟨h.unlocked, fun _ hi => canFinish_of_unlocked h.unlocked hi, fun mode hm => ?_,
    h.statuses⟩
  rw [h.refusals] at hm
  exact absurd hm not_mem_nil

/-- An expansion that is watched and ended, and another one after it. -/
def expandTwice : List ControlEvent :=
  [.expandStart, .proceed 0 true, .proceed 0 true, .migrate 0, .expandStatus, .proceed 1 true,
    .migrate 0, .expandStatus, .proceed 2 true, .expandFinalize, .proceed 3 true, .expandStart,
    .proceed 4 true, .proceed 4 true]

theorem controlOk_of_run_twice : Transition.AllOk step StepOk init expandTwice ∧
    ∃ s, run step init expandTwice = some s ∧
      s.statuses = [(true, 1), (false, 0)] ∧ ControlOk s := by
  have hok : Transition.AllOk step StepOk init expandTwice := by decide
  refine ⟨hok, (run step init expandTwice).get (by decide), (Option.some_get _).symm,
    by decide, ?_⟩
  exact controlOk_of_run hok (Option.some_get _).symm

/-- An expansion whose status is read before its thread is scheduled, a second `expand_start` and an
`expand_finalize`. -/
def expandRefused : List ControlEvent :=
  [.expandStart, .proceed 0 true, .proceed 0 true, .expandStatus, .proceed 1 true, .expandStart,
    .proceed 2 true, .expandFinalize]

/-- The status is 0 although the expansion has been accepted and has not migrated; the refused
request has locked the mutex, and neither it nor the later `expand_finalize` is ever answered. -/
theorem control_fails : ∃ s, run step init expandRefused = some s ∧
    s.statuses = [(true, 0)] ∧ s.locked = true ∧ ¬ s.CanFinish 2 ∧ ¬ s.CanFinish 3 ∧
      ¬ ControlOk s := by
  refine ⟨(run step init expandRefused).get (by decide), (Option.some_get _).symm,
    by decide, by decide, ?_, ?_, fun h => ?_⟩
  · exact not_canFinish_of_locked (.inr (.inl ⟨true, rfl⟩)) (by decide) (by decide)
  · exact not_canFinish_of_locked (.inr (.inr rfl)) (by decide) (by decide)
  · exact absurd h.unlocked (by decide)

end ControlState

end GekkoFS
