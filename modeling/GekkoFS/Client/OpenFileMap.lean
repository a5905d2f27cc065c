import Mathlib.Algebra.Order.Ring.Int
import Mathlib.Data.Int.Interval
import Mathlib.Data.List.AList
import GekkoFS.Common.Rpc
import GekkoFS.Lib.Transition

/-!
# The file descriptors of a client

The client hands out its own file descriptors, from a counter that starts far above those of the
operating system and goes back to 100000 at the largest `int`. From then on, and after a `dup2` to a
descriptor that the counter has not reached, the map is asked whether a descriptor is still in use
before it is handed out (`fdValidationNeeded`), until it is empty again.

What the map is for is said by `TableStep`: an abstract table of descriptors, in which `add` and
`dup` take any descriptor that is free. As long as no `dup2` takes exactly the descriptor that the
counter hands out next, every call of the map is a step of the table, and the search for a
descriptor ends (`tableStep_of_run`).
-/

namespace GekkoFS

open Function Transition

/-- The largest `int`. -/
def intMax : Int := 2147483647

/-- The open files of a client. A file is what the shared pointer points to.
Source: `OpenFileMap` (`open_file_map.hpp:102`). -/
structure OpenFileMap (φ : Type*) where
  files : AList fun _ : Int => φ
  fdIdx : Int
  fdValidationNeeded : Bool

namespace OpenFileMap

variable {φ : Type*}

/-- The map of a new client. Source: `OpenFileMap` (`open_file_map.cpp:63`). -/
def start : OpenFileMap φ := ⟨∅, 10000, false⟩

/-- The file of a descriptor. Source: `get` (`open_file_map.cpp:107`). -/
def get (m : OpenFileMap φ) (fd : Int) : Option φ := m.files.lookup fd

/-- Whether a descriptor is in use. Source: `exist` (`open_file_map.cpp:127`). -/
def exist (m : OpenFileMap φ) (fd : Int) : Bool := (m.files.lookup fd).isSome

/-- `std::map::insert`, which leaves a key that exists as it is. -/
def insertNew (m : OpenFileMap φ) (fd : Int) (file : φ) : OpenFileMap φ :=
  if m.exist fd then m else { m with files := m.files.insert fd file }

/-- The next value of the counter. Source: `generate_fd_idx` (`open_file_map.cpp:218`). -/
def generateFdIdx (m : OpenFileMap φ) : Int × OpenFileMap φ :=
  if m.fdIdx = intMax then (100000, { m with fdIdx := 100001, fdValidationNeeded := true })
  else (m.fdIdx, { m with fdIdx := m.fdIdx + 1 })

/-- The loop that looks for a descriptor that is not in use, for at most as many rounds as given.
Source: `safe_generate_fd_idx_` (`open_file_map.cpp:148`). -/
def generateLoop : Nat → OpenFileMap φ → Int → Option (Int × OpenFileMap φ)
  | 0, _, _ => none
  | rounds + 1, m, fd =>
    if m.exist fd then generateLoop rounds m.generateFdIdx.2 m.generateFdIdx.1 else some (fd, m)

/-- The next descriptor; `none` if the loop has gone on for as many rounds as an `int` has values.
Source: `safe_generate_fd_idx_` (`open_file_map.cpp:134`). -/
def safeGenerateFdIdx (m : OpenFileMap φ) : Option (Int × OpenFileMap φ) :=
  if m.generateFdIdx.2.fdValidationNeeded then
    generateLoop (2 ^ 32) m.generateFdIdx.2 m.generateFdIdx.1
  else some m.generateFdIdx

/-- Open a file. Source: `add` (`open_file_map.cpp:156`). -/
def add (m : OpenFileMap φ) (openFile : φ) : Option (Int × OpenFileMap φ) :=
  m.safeGenerateFdIdx.map fun r => (r.1, r.2.insertNew r.1 openFile)

/-- Close a descriptor. Source: `remove` (`open_file_map.cpp:164`). -/
def remove (m : OpenFileMap φ) (fd : Int) : Bool × OpenFileMap φ :=
  if m.exist fd then
    let files := m.files.erase fd
    (true, { m with
      files := files
      fdValidationNeeded := m.fdValidationNeeded && !files.entries.isEmpty })
  else (false, m)

/-- A second descriptor for the file of a descriptor. Source: `dup` (`open_file_map.cpp:179`). -/
def dup (m : OpenFileMap φ) (oldfd : Int) : Option (Except Nat Int × OpenFileMap φ) :=
  match m.get oldfd with
  | none => some (.error EBADF, m)
  | some openFile => m.safeGenerateFdIdx.map fun r => (.ok r.1, r.2.insertNew r.1 openFile)

/-- Make a descriptor stand for the file of another one. Source: `dup2`
(`open_file_map.cpp:192`). -/
def dup2 (m : OpenFileMap φ) (oldfd newfd : Int) : Except Nat Int × OpenFileMap φ :=
  match m.get oldfd with
  | none => (.error EBADF, m)
  | some openFile =>
    if oldfd = newfd then (.ok newfd, m)
    else
      let m := if m.exist newfd then (m.remove newfd).2 else m
      let m :=
        if m.fdIdx < newfd ∧ newfd ≠ 0 ∧ newfd ≠ 1 ∧ newfd ≠ 2 then
          { m with fdValidationNeeded := true }
        else m
      (.ok newfd, m.insertNew newfd openFile)

end OpenFileMap

/-! ## Calls -/

/-- A call of the map. -/
inductive FdCall (φ : Type*) where
  | add (openFile : φ)
  | dup (oldfd : Int)
  | dup2 (oldfd newfd : Int)
  | remove (fd : Int)

/-- What a call returns. -/
inductive FdAnswer where
  | descriptor (answer : Except Nat Int)
  | removed (answer : Bool)

variable {φ : Type*}

/-- A call of the map; `none` if it does not return. -/
def serveFd (m : OpenFileMap φ) : FdCall φ → Option (FdAnswer × OpenFileMap φ)
  | .add openFile => (m.add openFile).map fun r => (.descriptor (.ok r.1), r.2)
  | .dup oldfd => (m.dup oldfd).map fun r => (.descriptor r.1, r.2)
  | .dup2 oldfd newfd => some (.descriptor (m.dup2 oldfd newfd).1, (m.dup2 oldfd newfd).2)
  | .remove fd => some (.removed (m.remove fd).1, (m.remove fd).2)

/-- The map after a call. -/
def fdStep (m : OpenFileMap φ) (call : FdCall φ) : Option (OpenFileMap φ) :=
  (serveFd m call).map Prod.snd

/-! ## The table of descriptors -/

/-- What a call does to a table of descriptors. -/
inductive TableStep : (Int → Option φ) → FdCall φ → FdAnswer → (Int → Option φ) → Prop
  | add {table : Int → Option φ} {fd : Int} (hfree : table fd = none) (openFile : φ) :
      TableStep table (.add openFile) (.descriptor (.ok fd))
        (update table fd (some openFile))
  | dup {table : Int → Option φ} {oldfd fd : Int} {openFile : φ}
      (hold : table oldfd = some openFile) (hfree : table fd = none) :
      TableStep table (.dup oldfd) (.descriptor (.ok fd))
        (update table fd (some openFile))
  | dupBad {table : Int → Option φ} {oldfd : Int} (hold : table oldfd = none) :
      TableStep table (.dup oldfd) (.descriptor (.error EBADF)) table
  | dup2 {table : Int → Option φ} {oldfd : Int} {openFile : φ}
      (hold : table oldfd = some openFile) (newfd : Int) :
      TableStep table (.dup2 oldfd newfd) (.descriptor (.ok newfd))
        (update table newfd (some openFile))
  | dup2Bad {table : Int → Option φ} {oldfd : Int} (hold : table oldfd = none) (newfd : Int) :
      TableStep table (.dup2 oldfd newfd) (.descriptor (.error EBADF)) table
  | remove (table : Int → Option φ) (fd : Int) :
      TableStep table (.remove fd) (.removed (table fd).isSome) (update table fd none)

/-- The table has the descriptor of a new file free before the call. -/
theorem TableStep.free {table table' : Int → Option φ} {file : φ} {fd : Int}
    (h : TableStep table (.add file) (.descriptor (.ok fd)) table') : table fd = none := by
  cases h with
  | add hfree => exact hfree

/-! ## The table of a map -/

namespace OpenFileMap

variable {m : OpenFileMap φ} {fd : Int} {file : φ} {m' : OpenFileMap φ}

theorem exist_eq_false_iff : m.exist fd = false ↔ m.get fd = none :=
  Option.isSome_eq_false_iff.trans Option.isNone_iff_eq_none

/-- A free descriptor is entered. -/
theorem get_insertNew (h : m.get fd = none) (file : φ) :
    (m.insertNew fd file).get = update m.get fd (some file) := by
  rw [insertNew, if_neg (by rw [exist_eq_false_iff.2 h]; exact Bool.false_ne_true)]
  funext fd'
  by_cases hfd : fd' = fd
  · subst hfd
    rw [update_self]
    exact AList.lookup_insert m.files
  · rw [update_of_ne hfd]
    exact AList.lookup_insert_ne hfd

theorem insertNew_of_get {other : φ} (h : m.get fd = some other) :
    m.insertNew fd file = m := by
  rw [insertNew, exist, ← get, h]
  rfl

/-- A removal frees one descriptor. -/
theorem get_remove (m : OpenFileMap φ) (fd : Int) :
    (m.remove fd).2.get = update m.get fd none := by
  rw [remove]
  split
  · funext fd'
    by_cases hfd : fd' = fd
    · subst hfd
      rw [update_self]
      exact AList.lookup_erase fd' m.files
    · rw [update_of_ne hfd]
      exact AList.lookup_erase_ne hfd
  · next hexist =>
    rw [Bool.not_eq_true, exist_eq_false_iff] at hexist
    rw [← hexist, update_eq_self]

/-! ## The open files after a search -/

theorem generateFdIdx_files (m : OpenFileMap φ) : m.generateFdIdx.2.files = m.files := by
  rw [generateFdIdx]
  split
  · rfl
  · rfl

theorem generateLoop_files {rounds : Nat} {fd' : Int}
    (h : generateLoop rounds m fd = some (fd', m')) : m'.files = m.files := by
  induction rounds generalizing m fd with
  | zero => exact nomatch h
  | succ rounds ih =>
    rw [generateLoop] at h
    split at h
    · rw [ih h, generateFdIdx_files]
    · cases h
      rfl

/-- The search for a descriptor leaves the open files of any map as they are. -/
theorem safeGenerateFdIdx_get (h : m.safeGenerateFdIdx = some (fd, m')) :
    m'.get = m.get := by
  have hfiles : m'.files = m.files := by
    rw [safeGenerateFdIdx] at h
    split at h
    · rw [generateLoop_files h, generateFdIdx_files]
    · have hm : m.generateFdIdx.2 = m' := congrArg Prod.snd (Option.some.inj h)
      rw [← hm, generateFdIdx_files]
  funext fd'
  rw [get, get, hfiles]

/-- A map is as the functions of this file leave it: the counter is in its range, and without the
check every open descriptor is below it. -/
structure Valid (m : OpenFileMap φ) : Prop where
  low : 10000 ≤ m.fdIdx
  high : m.fdIdx ≤ intMax
  below : m.fdValidationNeeded = false → ∀ fd, m.get fd ≠ none → fd < m.fdIdx

theorem valid_start : Valid (start : OpenFileMap φ) where
  low := Int.le_refl 10000
  high := show (10000 : Int) ≤ intMax by decide
  below _ fd hfd := absurd (AList.lookup_empty fd) hfd

/-! ## The next descriptor -/

/-- A map after its counter has handed out `fd`, with or without looking further. -/
structure Counted (m : OpenFileMap φ) (fd : Int) (m' : OpenFileMap φ) : Prop where
  files : m'.files = m.files
  low : 10000 ≤ fd
  high : fd < intMax
  next : m'.fdIdx = fd + 1
  below : m'.fdValidationNeeded = false → ∀ fd', m.get fd' ≠ none → fd' < fd

/-- The counter gives its value and goes on. -/
theorem Valid.generateFdIdx (h : m.Valid) : Counted m m.generateFdIdx.1 m.generateFdIdx.2 := by
  rw [OpenFileMap.generateFdIdx]
  split
  · exact ⟨rfl, show (10000 : Int) ≤ 100000 by decide, show 100000 < intMax by decide, rfl,
      fun hfalse => absurd hfalse.symm Bool.false_ne_true⟩
  · next hmax =>
    exact ⟨rfl, h.low, lt_of_le_of_ne h.high hmax, rfl, h.below⟩

theorem Counted.get (h : Counted m fd m') : m'.get = m.get := by
  funext fd'
  rw [OpenFileMap.get, OpenFileMap.get, h.files]

/-- The table stays valid when the counter goes on. -/
theorem Counted.valid (h : Counted m fd m') : m'.Valid where
  low := by
    rw [h.next]
    exact Int.le_trans h.low (Int.le_of_lt (Int.lt_succ fd))
  high := by
    rw [h.next]
    exact h.high
  below hfalse fd' hfd' := by
    rw [h.get] at hfd'
    rw [h.next]
    exact Int.lt_trans (h.below hfalse fd' hfd') (Int.lt_succ fd)

theorem generateFdIdx_needed (h : m.fdValidationNeeded = true) :
    m.generateFdIdx.2.fdValidationNeeded = true := by
  rw [generateFdIdx]
  split
  · rfl
  · exact h

/-- With the check on, the counter goes on by one, or back to 100000. -/
theorem Counted.again (h : Counted m fd m')
    (hneeded : m'.fdValidationNeeded = true) :
    Counted m m'.generateFdIdx.1 m'.generateFdIdx.2 ∧
      m'.generateFdIdx.1 = if fd + 1 = intMax then 100000 else fd + 1 := by
  have hnext := h.valid.generateFdIdx
  refine ⟨⟨hnext.files.trans h.files, hnext.low, hnext.high, hnext.next, fun hfalse => ?_⟩, ?_⟩
  · rw [generateFdIdx_needed hneeded] at hfalse
    exact absurd hfalse.symm Bool.false_ne_true
  · rw [generateFdIdx, h.next]
    split
    · rfl
    · rfl

/-- How far the counter at `fd` has to go to reach `goal`. -/
def toGo (fd goal : Int) : Int :=
  if fd ≤ goal then goal - fd else (intMax - fd) + (goal - 100000)

/-- Each round brings the counter nearer to a descriptor it has not reached. -/
theorem toGo_again {goal : Int} (hlow : 100000 ≤ goal) (hhigh : goal < intMax) (hne : fd ≠ goal) :
    toGo (if fd + 1 = intMax then 100000 else fd + 1) goal = toGo fd goal - 1 := by
  rw [toGo, toGo]
  split_ifs <;> omega

/-- The loop ends if a descriptor that the counter can reach is free. -/
theorem Counted.exists_generateLoop {goal : Int} (hfree : m.get goal = none)
    (hlow : 100000 ≤ goal) (hhigh : goal < intMax) {rounds : Nat}
    (h : Counted m fd m') (hneeded : m'.fdValidationNeeded = true)
    (hrounds : toGo fd goal < rounds) :
    ∃ fd' m'', generateLoop rounds m' fd = some (fd', m'') ∧ Counted m fd' m'' ∧
      m.get fd' = none := by
  induction rounds generalizing m' fd with
  | zero =>
    -- the distance to a descriptor is never negative
    have hhigh' := h.high
    rw [toGo] at hrounds
    split at hrounds <;> omega
  | succ rounds ih =>
    rw [generateLoop]
    split
    · next hexist =>
      have hne : fd ≠ goal := by
        rintro rfl
        rw [← h.get, ← exist_eq_false_iff, hexist] at hfree
        exact absurd hfree.symm Bool.false_ne_true
      obtain ⟨hagain, hfd⟩ := h.again hneeded
      refine ih hagain (generateFdIdx_needed hneeded) ?_
      rw [hfd, toGo_again hlow hhigh hne]
      omega
    · next hexist =>
      rw [Bool.not_eq_true, exist_eq_false_iff, h.get] at hexist
      exact ⟨fd, m', rfl, h, hexist⟩

/-- The largest number of descriptors that may be open at once: those between 100000 and the largest
`int`, which is never handed out. -/
def openLimit : Nat := 2 ^ 31 - 100001

/-- With fewer descriptors open than the counter runs through, one of these is free. -/
theorem exists_free (h : m.files.keys.length < openLimit) :
    ∃ goal, 100000 ≤ goal ∧ goal < intMax ∧ m.get goal = none := by
  have hcard : m.files.keys.toFinset.card < (Finset.Ico 100000 intMax).card := by
    refine Nat.lt_of_le_of_lt (List.toFinset_card_le m.files.keys) ?_
    rw [Int.card_Ico]
    exact h
  obtain ⟨goal, hmem, hfree⟩ := Finset.exists_mem_notMem_of_card_lt_card hcard
  rw [Finset.mem_Ico] at hmem
  refine ⟨goal, hmem.1, hmem.2, AList.lookup_eq_none.2 fun hgoal => hfree ?_⟩
  exact List.mem_toFinset.2 (AList.mem_keys.1 hgoal)

/-- A new descriptor is found, and it is not in use. -/
theorem Valid.exists_safeGenerateFdIdx (h : m.Valid) (hopen : m.files.keys.length < openLimit) :
    ∃ fd m', m.safeGenerateFdIdx = some (fd, m') ∧ Counted m fd m' ∧ m.get fd = none := by
  have hcounted := h.generateFdIdx
  rw [safeGenerateFdIdx]
  split
  · next hneeded =>
    obtain ⟨goal, hlow, hhigh, hfree⟩ := exists_free hopen
    refine hcounted.exists_generateLoop hfree hlow hhigh hneeded ?_
    have hfd := hcounted.low
    rw [toGo]
    rw [intMax] at hhigh ⊢
    split <;> omega
  · next hneeded =>
    rw [Bool.not_eq_true] at hneeded
    refine ⟨_, _, rfl, hcounted, ?_⟩
    -- every open descriptor is below the one that was handed out
    by_contra hne
    exact absurd (hcounted.below hneeded _ hne) (Int.lt_irrefl _)

/-! ## The calls keep the map valid -/

theorem remove_fdIdx (m : OpenFileMap φ) (fd : Int) : (m.remove fd).2.fdIdx = m.fdIdx := by
  rw [remove]
  split
  · rfl
  · rfl

theorem remove_fst (m : OpenFileMap φ) (fd : Int) : (m.remove fd).1 = (m.get fd).isSome := by
  rw [remove]
  split
  · next hexist => exact hexist.symm
  · next hexist => exact (Bool.eq_false_of_not_eq_true hexist).symm

/-- The check is switched off only when nothing is open any more. -/
theorem remove_unneeded (h : (m.remove fd).2.fdValidationNeeded = false) :
    m.fdValidationNeeded = false ∨ ∀ fd', (m.remove fd).2.get fd' = none := by
  rw [remove] at h ⊢
  split at h
  · next hexist =>
    rw [if_pos hexist]
    refine (Bool.and_eq_false_iff.1 h).imp_right fun hempty fd' => ?_
    rw [Bool.not_eq_false', List.isEmpty_iff] at hempty
    refine AList.lookup_eq_none.2 fun hmem => ?_
    have hkeys : fd' ∈ (m.files.erase fd).keys := AList.mem_keys.1 hmem
    rw [AList.keys, hempty] at hkeys
    exact List.not_mem_nil hkeys
  · exact .inl h

/-- The table stays valid after a removal. -/
theorem Valid.remove (h : m.Valid) (fd : Int) : (m.remove fd).2.Valid := by
  refine ⟨?_, ?_, fun hfalse fd' hfd' => ?_⟩
  · rw [remove_fdIdx]
    exact h.low
  · rw [remove_fdIdx]
    exact h.high
  · rw [remove_fdIdx]
    rcases remove_unneeded hfalse with hneeded | hempty
    · refine h.below hneeded fd' fun hnone => hfd' ?_
      rw [get_remove, update_apply]
      split
      · rfl
      · exact hnone
    · exact absurd (hempty fd') hfd'

/-- What a `dup2` leaves of the map before it enters the new descriptor. -/
structure Cleared (m : OpenFileMap φ) (newfd : Int) (m' : OpenFileMap φ) : Prop where
  valid : m'.Valid
  get : m'.get = update m.get newfd none
  fdIdx : m'.fdIdx = m.fdIdx
  needed : m'.fdValidationNeeded = false → m.fdValidationNeeded = false

/-- The target of a copy is free when it is made. -/
theorem Valid.cleared (h : m.Valid) {oldfd newfd : Int} (hold : m.get oldfd = some file)
    (hne : oldfd ≠ newfd) : Cleared m newfd (if m.exist newfd then (m.remove newfd).2 else m) := by
  split
  · refine ⟨h.remove newfd, get_remove m newfd, remove_fdIdx m newfd, fun hfalse => ?_⟩
    refine (remove_unneeded hfalse).resolve_right fun hempty => ?_
    -- the old descriptor is still open
    have hnone := hempty oldfd
    rw [get_remove, update_of_ne hne, hold] at hnone
    exact Option.some_ne_none file hnone
  · next hexist =>
    rw [Bool.not_eq_true, exist_eq_false_iff] at hexist
    exact ⟨h, by rw [← hexist, update_eq_self], rfl, id⟩

/-- A descriptor that the counter will not hand out without a check may be entered. -/
theorem Valid.insertNew (h : m.Valid) (hfree : m.get fd = none)
    (hfd : m.fdValidationNeeded = false → fd < m.fdIdx) (file : φ) :
    (m.insertNew fd file).Valid := by
  have hget := get_insertNew hfree file
  have hsame : (m.insertNew fd file).fdIdx = m.fdIdx ∧
      (m.insertNew fd file).fdValidationNeeded = m.fdValidationNeeded := by
    rw [OpenFileMap.insertNew]
    split
    · exact ⟨rfl, rfl⟩
    · exact ⟨rfl, rfl⟩
  refine ⟨hsame.1 ▸ h.low, hsame.1 ▸ h.high, fun hfalse fd' hfd' => ?_⟩
  rw [hsame.2] at hfalse
  rw [hsame.1]
  rw [hget] at hfd'
  by_cases heq : fd' = fd
  · rw [heq]
    exact hfd hfalse
  · rw [update_of_ne heq] at hfd'
    exact h.below hfalse fd' hfd'

/-- A copy to a given descriptor. -/
theorem Valid.dup2 (h : m.Valid) {oldfd newfd : Int} (hold : m.get oldfd = some file)
    (hnext : newfd = m.fdIdx → m.fdValidationNeeded = true) :
    (m.dup2 oldfd newfd).1 = .ok newfd ∧ (m.dup2 oldfd newfd).2.Valid ∧
      (m.dup2 oldfd newfd).2.get = update m.get newfd (some file) := by
  rw [OpenFileMap.dup2, hold]
  dsimp only
  split
  · next heq =>
    rw [← heq, ← hold, update_eq_self]
    exact ⟨rfl, h, rfl⟩
  · next hne =>
    have hcleared := h.cleared hold hne
    generalize (if m.exist newfd then (m.remove newfd).2 else m) = m' at hcleared ⊢
    have hfree : m'.get newfd = none := by rw [hcleared.get, update_self]
    have hget : update m'.get newfd (some file) =
        update m.get newfd (some file) := by
      rw [hcleared.get, update_idem]
    split
    · have hvalid : ({ m' with fdValidationNeeded := true } : OpenFileMap φ).Valid :=
        ⟨hcleared.valid.low, hcleared.valid.high,
          fun hfalse => absurd hfalse.symm Bool.false_ne_true⟩
      have hfree' : ({ m' with fdValidationNeeded := true } : OpenFileMap φ).get newfd = none :=
        hfree
      exact ⟨rfl, hvalid.insertNew hfree (fun hfalse => absurd hfalse.symm Bool.false_ne_true) file,
        (get_insertNew hfree' file).trans hget⟩
    · next hbelow =>
      refine ⟨rfl, hcleared.valid.insertNew hfree (fun hfalse => ?_) file,
        (get_insertNew hfree file).trans hget⟩
      have hne' : newfd ≠ m'.fdIdx := by
        intro heq
        rw [hcleared.fdIdx] at heq
        have hneeded := hnext heq
        rw [hcleared.needed hfalse] at hneeded
        exact Bool.false_ne_true hneeded
      have hlow := hcleared.valid.low
      omega

/-- A new descriptor is found and may be entered. -/
theorem Valid.exists_insertNew (h : m.Valid) (hopen : m.files.keys.length < openLimit) (file : φ) :
    ∃ fd m', m.safeGenerateFdIdx = some (fd, m') ∧ m.get fd = none ∧
      (m'.insertNew fd file).Valid ∧
      (m'.insertNew fd file).get = update m.get fd (some file) := by
  obtain ⟨fd, m', hgenerate, hcounted, hfree⟩ := h.exists_safeGenerateFdIdx hopen
  have hfree' : m'.get fd = none := by rw [hcounted.get, hfree]
  refine ⟨fd, m', hgenerate, hfree, hcounted.valid.insertNew hfree' (fun _ => ?_) file, ?_⟩
  · rw [hcounted.next]
    exact Int.lt_succ fd
  · rw [get_insertNew hfree', hcounted.get]

end OpenFileMap

/-! ## Runs -/

/-- The number of open descriptors is within its limit after a call. -/
def WithinLimit (m : OpenFileMap φ) : FdCall φ → Prop
  | .add _ | .dup _ => m.files.keys.length < OpenFileMap.openLimit
  | .dup2 _ _ | .remove _ => True

instance (m : OpenFileMap φ) : ∀ call : FdCall φ, Decidable (WithinLimit m call)
  | .add _ | .dup _ => inferInstanceAs (Decidable (_ < _))
  | .dup2 _ _ | .remove _ => inferInstanceAs (Decidable True)

/-- The call is not a `dup2` that takes the descriptor the counter hands out next without a
check. -/
def AvoidsNext (m : OpenFileMap φ) : FdCall φ → Prop
  | .dup2 oldfd newfd => m.exist oldfd = true → newfd = m.fdIdx → m.fdValidationNeeded = true
  | .add _ | .dup _ | .remove _ => True

instance (m : OpenFileMap φ) : ∀ call : FdCall φ, Decidable (AvoidsNext m call)
  | .dup2 _ _ => inferInstanceAs (Decidable (_ → _ → _))
  | .add _ | .dup _ | .remove _ => inferInstanceAs (Decidable True)

/-- A call within the limit that avoids the next descriptor. -/
def FdCallOk (m : OpenFileMap φ) (call : FdCall φ) : Prop := WithinLimit m call ∧ AvoidsNext m call

instance (m : OpenFileMap φ) (call : FdCall φ) : Decidable (FdCallOk m call) :=
  inferInstanceAs (Decidable (_ ∧ _))

/-- Every call returns, and does what the table says. -/
theorem OpenFileMap.Valid.exists_serveFd {m : OpenFileMap φ} (h : m.Valid) {call : FdCall φ}
    (hok : FdCallOk m call) :
    ∃ answer m', serveFd m call = some (answer, m') ∧ m'.Valid ∧
      TableStep m.get call answer m'.get := by
  obtain ⟨hlimit, havoids⟩ := hok
  cases call with
  | add file =>
    obtain ⟨fd, m', hgenerate, hfree, hvalid, hget⟩ := h.exists_insertNew hlimit file
    refine ⟨.descriptor (.ok fd), m'.insertNew fd file, ?_, hvalid, ?_⟩
    · rw [serveFd, OpenFileMap.add, hgenerate]
      rfl
    · rw [hget]
      exact .add hfree file
  | dup oldfd =>
    cases hold : m.get oldfd with
    | none =>
      refine ⟨.descriptor (.error EBADF), m, ?_, h, .dupBad hold⟩
      rw [serveFd, OpenFileMap.dup, hold]
      rfl
    | some file =>
      obtain ⟨fd, m', hgenerate, hfree, hvalid, hget⟩ := h.exists_insertNew hlimit file
      refine ⟨.descriptor (.ok fd), m'.insertNew fd file, ?_, hvalid, ?_⟩
      · rw [serveFd, OpenFileMap.dup, hold, hgenerate]
        rfl
      · rw [hget]
        exact .dup hold hfree
  | dup2 oldfd newfd =>
    refine ⟨_, _, rfl, ?_⟩
    cases hold : m.get oldfd with
    | none =>
      rw [OpenFileMap.dup2, hold]
      exact ⟨h, .dup2Bad hold newfd⟩
    | some file =>
      have hexist : m.exist oldfd = true := Option.isSome_iff_exists.2 ⟨file, hold⟩
      obtain ⟨hanswer, hvalid, hget⟩ := h.dup2 hold (havoids hexist)
      rw [hanswer, hget]
      exact ⟨hvalid, .dup2 hold newfd⟩
  | remove fd =>
    refine ⟨_, _, rfl, h.remove fd, ?_⟩
    rw [OpenFileMap.remove_fst, OpenFileMap.get_remove]
    exact .remove m.get fd

/-- In a run in which the calls are within the limit and avoid the next descriptor, every call
returns and does what the table says. -/
theorem tableStep_of_run {calls : List (FdCall φ)}
    (hok : Transition.AllOk fdStep FdCallOk OpenFileMap.start calls) :
    ∃ m, run fdStep OpenFileMap.start calls = some m ∧
      ∀ call, FdCallOk m call →
        ∃ answer m', serveFd m call = some (answer, m') ∧ TableStep m.get call answer m'.get := by
  have hstep : ∀ (m : OpenFileMap φ) call, m.Valid → FdCallOk m call →
      ∃ m', fdStep m call = some m' ∧ m'.Valid := by
    intro m call hvalid hcall
    obtain ⟨answer, m', hserve, hvalid', -⟩ := hvalid.exists_serveFd hcall
    exact ⟨m', by rw [fdStep, hserve]; rfl, hvalid'⟩
  obtain ⟨m, hrun, hvalid⟩ := run_total hstep OpenFileMap.valid_start hok
  refine ⟨m, hrun, fun call hcall => ?_⟩
  obtain ⟨answer, m', hserve, -, htable⟩ := hvalid.exists_serveFd hcall
  exact ⟨answer, m', hserve, htable⟩

/-- Calls that take a descriptor far ahead of the counter, which is then checked. -/
def fdCalls : List (FdCall Nat) :=
  [.add 1, .dup2 10000 10002, .dup 10000, .add 2, .remove 10001, .dup2 10003 0]

example : (run fdStep OpenFileMap.start fdCalls).map (fun m => m.files.keys) =
    some [0, 10003, 10002, 10000] := by decide

/-- Both files are still open after these calls, and one of them can be duplicated. -/
theorem tableStep_of_run_fdCalls :
    ∃ m, run fdStep OpenFileMap.start fdCalls = some m ∧
      ∃ answer m', serveFd m (.dup 10002) = some (answer, m') ∧
        TableStep m.get (.dup 10002) answer m'.get := by
  obtain ⟨m, hrun, hcall⟩ := tableStep_of_run (show Transition.AllOk fdStep FdCallOk
    OpenFileMap.start fdCalls by decide)
  have hlimit : (run fdStep OpenFileMap.start fdCalls).all
      (fun m => decide (FdCallOk m (.dup 10002))) = true := by decide
  rw [hrun] at hlimit
  exact ⟨m, hrun, hcall _ (of_decide_eq_true hlimit)⟩

/-- A `dup2` that takes the descriptor the counter hands out next. -/
def takenCalls : List (FdCall Nat) := [.add 1, .dup2 10000 10001]

/-- The file that is then opened gets the descriptor of the first file, which it does not stand
for. -/
theorem add_returns_open_descriptor :
    ∃ m m', Transition.AllOk fdStep WithinLimit OpenFileMap.start takenCalls ∧
      run fdStep OpenFileMap.start takenCalls = some m ∧ WithinLimit m (.add 2) ∧
      serveFd m (.add 2) = some (.descriptor (.ok 10001), m') ∧ m'.get 10001 = some 1 ∧
      ¬ TableStep m.get (.add 2) (.descriptor (.ok 10001)) m'.get := by
  let m : OpenFileMap Nat :=
    (run fdStep OpenFileMap.start takenCalls).get (by decide)
  refine ⟨m, (m.insertNew 10001 2).generateFdIdx.2, by decide, (Option.some_get _).symm, by decide,
    ?_, by decide, ?_⟩
  · rfl
  · intro h
    have hfree := h.free
    revert hfree
    decide

end GekkoFS
