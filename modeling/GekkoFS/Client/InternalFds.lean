import GekkoFS.Common.Rpc
import GekkoFS.Lib.Simulation
import Mathlib.Data.Finset.Basic
import Mathlib.Data.List.Find

/-!
# Descriptors of the library

The library and the application are one process with one table of descriptors, in which the kernel
always takes the lowest free number. Descriptors that calls of the library return are moved to a
private range above those of the application; while the library starts, the range of the application
is filled up instead. With the limits of the two ranges kept, both get the answers that two separate
tables give (`Descriptors.answers_eq_separate`), so neither sees that the other is there.
-/

namespace GekkoFS

open Function List Simulation

def EMFILE : Nat := 24

/-- The numbers below `minInternalFd` are for the application, and the `maxInternalFds` numbers from
there on for the library. Source: `preload_context.hpp:92`. -/
structure FdRanges where
  minInternalFd : Nat
  maxInternalFds : Nat

/-- What a descriptor stands for. -/
inductive FdOwner where
  | application
  | library
  /-- A copy of `/dev/null` that fills the range of the application. -/
  | null
  deriving DecidableEq

/-- The descriptors of a process, and what the library keeps of them. Source: `PreloadContext`
(`preload_context.hpp:125`). -/
structure Descriptors where
  table : Nat → Option FdOwner
  /-- A set bit is a free position in the private range. -/
  internalFds : Nat → Bool
  mustRelocate : Bool
  protectedFds : Nat → Bool

/-- A call of the application or of the library. -/
inductive DescriptorCall where
  | appOpen
  | appClose (fd : Nat)
  /-- `fromOpen`: the call is one of those that take 0 for a failure. -/
  | libraryOpen (fromOpen : Bool)
  | libraryClose (fd : Nat)
  | protect
  | unprotect

namespace Descriptors

variable (r : FdRanges) (s : Descriptors)

/-- The application before the library is loaded. Source: `PreloadContext`
(`preload_context.cpp:68`). -/
def start (app : Finset Nat) : Descriptors where
  table fd := if fd ∈ app then some .application else none
  internalFds _ := true
  mustRelocate := true
  protectedFds _ := false

/-- The number that the kernel takes for a new descriptor. -/
def lowest : Option Nat :=
  (List.range (r.minInternalFd + r.maxInternalFds)).find? fun fd => s.table fd = none

/-- The number that is returned, or `none` for an exception. `dup3` fails for two equal numbers.
Source: `register_internal_fd` (`preload_context.cpp:473`). -/
def registerInternalFd (fd : Nat) : Option Int × Descriptors :=
  if s.mustRelocate then
    match (List.range r.maxInternalFds).find? s.internalFds with
    | none => (none, s)
    | some pos =>
      let ifd := r.minInternalFd + pos
      let moved := if ifd = fd then s.table else update s.table ifd (s.table fd)
      (some (if ifd = fd then -EINVAL else ifd), { s with
        internalFds := update s.internalFds pos false
        table := update moved fd none })
  else if r.minInternalFd ≤ fd ∧ fd < r.minInternalFd + r.maxInternalFds then
    (some fd, { s with
      internalFds := update s.internalFds (fd - r.minInternalFd) false })
  else (none, s)

/-- An exception is `none`. Source: `is_internal_fd` (`preload_context.cpp:555`). -/
def isInternalFd (fd : Nat) : Option Bool :=
  if fd < r.minInternalFd then some false
  else if r.minInternalFd + r.maxInternalFds ≤ fd then none
  else some !s.internalFds (fd - r.minInternalFd)

/-- One round of `protect_user_fds`. -/
def protectFd (s : Descriptors) (fd : Nat) : Descriptors :=
  if s.table fd ≠ none then s
  else { s with
    table := update s.table fd (some .null)
    protectedFds := update s.protectedFds fd true }

/-- The first free number gets the descriptor that the others are copies of; it throws if this is
not one of the application. Source: `protect_user_fds` (`preload_context.cpp:568`). -/
def protectUserFds : Option Int × Descriptors :=
  match s.lowest r with
  | none => (none, s)
  | some nullfd =>
    if r.minInternalFd ≤ nullfd then
      (none, { s with table := update s.table nullfd (some .null) })
    else (some 0, { (nullfd :: List.range r.minInternalFd).foldl protectFd s with
      mustRelocate := false })

/-- One round of `unprotect_user_fds`. -/
def unprotectFd (s : Descriptors) (fd : Nat) : Descriptors :=
  if s.protectedFds fd then { s with table := update s.table fd none } else s

/-- Source: `unprotect_user_fds` (`preload_context.cpp:598`). -/
def unprotectUserFds : Descriptors :=
  { (List.range r.minInternalFd).foldl unprotectFd s with mustRelocate := true }

/-- The answer to a call, a number or the negative of an error code or `none` for an exception, and
the descriptors after it. Source: `hook_internal` (`intercept.cpp:97`), `hook_close`
(`hooks.cpp:90`) and `gkfs_close` (`gkfs_functions.cpp:1616`). -/
def serve : DescriptorCall → Option Int × Descriptors
  | .appOpen =>
    match s.lowest r with
    | none => (some (-EMFILE), s)
    | some fd => (some fd, { s with table := update s.table fd (some .application) })
  | .appClose fd =>
    match s.isInternalFd r fd with
    | none => (none, s)
    | some true => (some 0, s)
    | some false =>
      if s.table fd = none then (some (-EBADF), s)
      else (some 0, { s with table := update s.table fd none })
  | .libraryOpen fromOpen =>
    match s.lowest r with
    | none => (some (-EMFILE), s)
    | some fd =>
      let opened := { s with table := update s.table fd (some .library) }
      if fromOpen ∧ fd = 0 then (some 0, opened) else opened.registerInternalFd r fd
  | .libraryClose fd =>
    let closed := { s with table := update s.table fd none }
    if s.table fd = none then (some (-EBADF), s)
    else if r.minInternalFd ≤ fd ∧ fd < r.minInternalFd + r.maxInternalFds then
      (some 0, { closed with
        internalFds := update s.internalFds (fd - r.minInternalFd) true })
    else (none, closed)
  | .protect => s.protectUserFds r
  | .unprotect => (some 0, s.unprotectUserFds r)

end Descriptors

/-! ## Two tables -/

/-- A table of the application, and one of the positions in the private range. -/
structure SeparateFds where
  app : Finset Nat
  lib : Finset Nat

namespace SeparateFds

variable (r : FdRanges) (t : SeparateFds)

/-- Each side takes the lowest free number of its own range, and the library closes its own. The
application cannot close what is the library's. -/
def serve : DescriptorCall → Option Int × SeparateFds
  | .appOpen =>
    match (List.range r.minInternalFd).find? (· ∉ t.app) with
    | none => (some (-EMFILE), t)
    | some fd => (some fd, { t with app := insert fd t.app })
  | .appClose fd =>
    if fd ∈ t.app then (some 0, { t with app := t.app.erase fd })
    else if r.minInternalFd ≤ fd ∧ fd - r.minInternalFd ∈ t.lib then (some 0, t)
    else (some (-EBADF), t)
  | .libraryOpen _ =>
    match (List.range r.maxInternalFds).find? (· ∉ t.lib) with
    | none => (some (-EMFILE), t)
    | some pos => (some (r.minInternalFd + pos : Nat), { t with lib := insert pos t.lib })
  | .libraryClose fd => (some 0, { t with lib := t.lib.erase (fd - r.minInternalFd) })
  | .protect | .unprotect => (some 0, t)

/-- The two tables as one, where the range of the application may be filled up. -/
def table (filled : Bool) (fd : Nat) : Option FdOwner :=
  if fd < r.minInternalFd then
    if fd ∈ t.app then some .application else if filled then some .null else none
  else if fd - r.minInternalFd ∈ t.lib then some .library else none

end SeparateFds

namespace Descriptors

/-- Both ranges have room for a call, the application makes its calls while its range is not filled
up, the library closes what is its own, and the range is filled up once. -/
def CallOk (r : FdRanges) (s : Descriptors) : DescriptorCall → Prop
  | .appOpen => s.mustRelocate = true ∧ ∃ fd < r.minInternalFd, s.table fd = none
  | .appClose fd => s.mustRelocate = true ∧ fd < r.minInternalFd + r.maxInternalFds
  | .libraryOpen fromOpen =>
    (∃ pos < r.maxInternalFds, s.internalFds pos = true) ∧
      (s.mustRelocate = true → ∃ fd < r.minInternalFd, s.table fd = none) ∧
      (fromOpen = true → s.table 0 ≠ none)
  | .libraryClose fd => s.table fd = some .library
  | .protect => s.mustRelocate = true ∧ (∃ fd < r.minInternalFd, s.table fd = none) ∧
      ∀ fd < r.minInternalFd, s.protectedFds fd = false
  | .unprotect => s.mustRelocate = false

instance (r : FdRanges) (s : Descriptors) : ∀ call, Decidable (CallOk r s call)
  | .appOpen | .appClose _ | .libraryOpen _ | .protect => inferInstanceAs (Decidable (_ ∧ _))
  | .libraryClose _ | .unprotect => inferInstanceAs (Decidable (_ = _))

/-- The one table holds the two. -/
structure Separates (r : FdRanges) (s : Descriptors) (t : SeparateFds) : Prop where
  table : s.table = t.table r !s.mustRelocate
  bits : s.internalFds = fun pos => decide (pos ∉ t.lib)
  app : ∀ fd ∈ t.app, fd < r.minInternalFd
  room : ∀ pos ∈ t.lib, pos < r.maxInternalFds
  filled : s.mustRelocate = false → ∀ fd < r.minInternalFd,
    s.protectedFds fd = decide (fd ∉ t.app)

/-! ## The next number -/

/-- A search finds a number if there is one. -/
theorem exists_find {p : Nat → Bool} {n : Nat} (h : ∃ k < n, p k = true) :
    ∃ k < n, (List.range n).find? p = some k ∧ p k = true := by
  obtain ⟨k, hk, hp⟩ := h
  obtain ⟨k', hfind⟩ := Option.isSome_iff_exists.1
    (find?_isSome.2 ⟨k, mem_range.2 hk, hp⟩)
  exact ⟨k', mem_range.1 (mem_of_find?_eq_some hfind), hfind, find?_some hfind⟩

section
variable {r : FdRanges} {s : Descriptors} {t : SeparateFds}

/-- The numbers that are free in the shared table. -/
theorem table_eq_none_iff {filled : Bool} {fd : Nat} : t.table r filled fd = none ↔
    if fd < r.minInternalFd then fd ∉ t.app ∧ filled = false else fd - r.minInternalFd ∉ t.lib := by
  rw [SeparateFds.table]
  grind

/-- The kernel takes a number of the application, unless these are filled up. -/
theorem Separates.lowest_eq (h : Separates r s t) : s.lowest r =
    ((List.range r.minInternalFd).find? fun fd => fd ∉ t.app ∧ s.mustRelocate = true).or
      (((List.range r.maxInternalFds).find? (· ∉ t.lib)).map (r.minInternalFd + ·)) := by
  rw [lowest, range_add, find?_append, find?_map]
  refine congrArg₂ _ (find?_congr fun fd hfd => ?_)
    (congrArg _ (find?_congr fun pos _ => ?_))
  · simp [h.table, table_eq_none_iff, mem_range.1 hfd]
  · simp [h.table, table_eq_none_iff]

/-- The lowest free number is that of the application alone. -/
theorem Separates.exists_lowest (h : Separates r s t) (hr : s.mustRelocate = true)
    (hfree : ∃ fd < r.minInternalFd, s.table fd = none) :
    ∃ fd < r.minInternalFd, s.lowest r = some fd ∧ s.table fd = none ∧
      (List.range r.minInternalFd).find? (· ∉ t.app) = some fd := by
  have hiff : ∀ fd < r.minInternalFd, s.table fd = none ↔ fd ∉ t.app := fun fd hfd => by
    simp [h.table, hr, table_eq_none_iff, hfd]
  obtain ⟨fd, hfd, hnone⟩ := hfree
  obtain ⟨fd, hfd, hfind, hnew⟩ := exists_find (p := fun fd => decide (fd ∉ t.app))
    ⟨fd, hfd, decide_eq_true ((hiff fd hfd).1 hnone)⟩
  refine ⟨fd, hfd, ?_, (hiff fd hfd).2 (of_decide_eq_true hnew), hfind⟩
  simp only [h.lowest_eq, hr, and_true, hfind, Option.some_or]

/-! ## Filling up -/

/-- What the rounds of `protect_user_fds` leave. -/
theorem foldl_protectFd (fds : List Nat) (s : Descriptors) :
    fds.foldl protectFd s = { s with
      table := fun fd => if fd ∈ fds then (s.table fd).or (some .null) else s.table fd
      protectedFds := fun fd =>
        s.protectedFds fd || (decide (fd ∈ fds) && decide (s.table fd = none)) } := by
  induction fds generalizing s with
  | nil => simp
  | cons fd fds ih =>
    rw [foldl_cons, ih, protectFd]
    split
    · congr <;> funext fd' <;> by_cases hfd : fd' = fd <;> simp_all
      cases hs : s.table fd <;> simp_all
    · congr <;> funext fd' <;> by_cases hfd : fd' = fd <;> simp_all

/-- What the rounds of `unprotect_user_fds` leave. -/
theorem foldl_unprotectFd (fds : List Nat) (s : Descriptors) :
    fds.foldl unprotectFd s = { s with
      table := fun fd => if fd ∈ fds ∧ s.protectedFds fd = true then none else s.table fd } := by
  induction fds generalizing s with
  | nil => simp
  | cons fd fds ih =>
    rw [foldl_cons, ih, unprotectFd]
    split <;> congr <;> funext fd' <;> by_cases hfd : fd' = fd <;> simp_all

/-! ## Calls -/

/-- A call gets the answer that two tables give, and the one table holds the two after it. -/
def ServedAs (r : FdRanges) (s : Descriptors) (t : SeparateFds) (call : DescriptorCall) : Prop :=
  (s.serve r call).1 = (t.serve r call).1 ∧ Separates r (s.serve r call).2 (t.serve r call).2

/-- An application opens a file as if it were alone. -/
theorem Separates.appOpen (h : Separates r s t) (hok : CallOk r s .appOpen) :
    ServedAs r s t .appOpen := by
  obtain ⟨fd, hfd, hlow, -, hfind⟩ := h.exists_lowest hok.1 hok.2
  rw [ServedAs, serve, SeparateFds.serve, hlow, hfind]
  refine ⟨rfl, ?_, h.bits, Finset.forall_mem_insert .. |>.2 ⟨hfd, h.app⟩, h.room, by simp [hok.1]⟩
  funext fd'
  simp only [h.table, SeparateFds.table, update_apply]
  grind

/-- It closes its descriptors only. -/
theorem Separates.appClose (h : Separates r s t) {fd : Nat}
    (hok : CallOk r s (.appClose fd)) : ServedAs r s t (.appClose fd) := by
  obtain ⟨hr, hlt⟩ := hok
  have happ := h.app fd
  have hnone : s.table fd = none ↔ if fd < r.minInternalFd then fd ∉ t.app
      else fd - r.minInternalFd ∉ t.lib := by simp [h.table, hr, table_eq_none_iff]
  rw [ServedAs, serve, SeparateFds.serve, isInternalFd, h.bits]
  by_cases hfd : fd < r.minInternalFd
  · by_cases hmem : fd ∈ t.app
    · simp only [hfd, hmem, hnone, if_true, if_false, not_true_eq_false]
      refine ⟨trivial, ?_, rfl, fun k hk => h.app k (Finset.mem_of_mem_erase hk), h.room,
        by simp [hr]⟩
      funext fd'
      simp only [h.table, hr, SeparateFds.table, update_apply]
      grind
    · simp [hfd, hmem, hnone, h, Nat.not_le.2 hfd]
  · by_cases hlib : fd - r.minInternalFd ∈ t.lib
    · simp [hfd, Nat.not_le.2 hlt, hlib, h, mt happ hfd, Nat.le_of_not_lt hfd]
    · simp [hfd, Nat.not_le.2 hlt, hlib, h, mt happ hfd, hnone]

/-- The library gets a number of its own range. -/
theorem Separates.libraryOpen (h : Separates r s t) {fromOpen : Bool}
    (hok : CallOk r s (.libraryOpen fromOpen)) : ServedAs r s t (.libraryOpen fromOpen) := by
  obtain ⟨hroom, happ, hzero⟩ := hok
  obtain ⟨pos, hpos, hfind', hfree⟩ := exists_find hroom
  have hfind := hfind'
  rw [h.bits] at hfind
  have h' : Separates r { s with
      table := update s.table (r.minInternalFd + pos) (some .library)
      internalFds := update s.internalFds pos false }
      { t with lib := insert pos t.lib } := by
    refine ⟨funext fun k => ?_, funext fun k => ?_, h.app,
      Finset.forall_mem_insert .. |>.2 ⟨hpos, h.room⟩, h.filled⟩
    · simp only [h.table, SeparateFds.table, update_apply]
      grind
    · by_cases hk : k = pos <;> simp [hk, h.bits]
  have hskip : ∀ fd, s.table fd = none → ¬ (fromOpen = true ∧ fd = 0) := fun fd hnone hz =>
    hzero hz.1 (hz.2 ▸ hnone)
  rw [ServedAs, SeparateFds.serve, hfind, serve]
  by_cases hr : s.mustRelocate = true
  · obtain ⟨fd, hfd, hlow, hnone, -⟩ := h.exists_lowest hr (happ hr)
    have hne : r.minInternalFd + pos ≠ fd := by omega
    have hmoved : update (update (update s.table fd (some .library))
        (r.minInternalFd + pos) (some .library)) fd none =
          update s.table (r.minInternalFd + pos) (some .library) := by
      rw [update_comm hne, update_idem, ← hnone, update_eq_self]
    rw [hlow]
    dsimp only
    rw [if_neg (hskip fd hnone), registerInternalFd, if_pos hr, hfind']
    dsimp only
    rw [if_neg hne, if_neg hne, update_self, hmoved]
    exact ⟨rfl, h'⟩
  · have hnone : s.table (r.minInternalFd + pos) = none := by
      rw [h.table, table_eq_none_iff, if_neg (by omega), Nat.add_sub_cancel_left]
      simpa [h.bits] using hfree
    have hnot : ∀ fd ∈ List.range r.minInternalFd,
        ¬ decide (fd ∉ t.app ∧ s.mustRelocate = true) = true := by simp [hr]
    have hlow : s.lowest r = some (r.minInternalFd + pos) := by
      rw [h.lowest_eq, find?_eq_none.2 hnot, hfind, Option.none_or, Option.map_some]
    rw [hlow]
    dsimp only
    rw [if_neg (hskip _ hnone), registerInternalFd, if_neg hr, if_pos (by omega),
      Nat.add_sub_cancel_left]
    exact ⟨rfl, h'⟩

/-- The library frees a number of its own range. -/
theorem Separates.libraryClose (h : Separates r s t) {fd : Nat}
    (hok : CallOk r s (.libraryClose fd)) : ServedAs r s t (.libraryClose fd) := by
  have hfd : s.table fd = some .library := hok
  have hlib : r.minInternalFd ≤ fd ∧ fd - r.minInternalFd ∈ t.lib := by
    rw [h.table, SeparateFds.table] at hfd
    grind
  have hroom := h.room _ hlib.2
  rw [ServedAs, serve, SeparateFds.serve, if_neg (by simp [hfd]),
    if_pos ⟨hlib.1, by omega⟩]
  refine ⟨rfl, funext fun k => ?_, funext fun k => ?_, h.app,
    fun k hk => h.room k (Finset.mem_of_mem_erase hk), h.filled⟩
  · simp only [h.table, SeparateFds.table, update_apply]
    grind
  · by_cases hk : k = fd - r.minInternalFd <;> simp [hk, h.bits]

/-- Filling the range of the application hides nothing from it. -/
theorem Separates.protect (h : Separates r s t) (hok : CallOk r s .protect) :
    ServedAs r s t .protect := by
  obtain ⟨hr, hfree, hnever⟩ := hok
  obtain ⟨fd, hfd, hlow, -⟩ := h.exists_lowest hr hfree
  rw [ServedAs, serve, SeparateFds.serve, protectUserFds, hlow]
  dsimp only
  rw [if_neg (Nat.not_le.2 hfd), foldl_protectFd]
  refine ⟨rfl, funext fun k => ?_, h.bits, h.app, h.room, fun _ k hk => ?_⟩
  · simp only [h.table, hr, SeparateFds.table, mem_cons, mem_range]
    grind
  · simp [hnever k hk, h.table, hr, table_eq_none_iff, hk]

/-- Taking the copies away leaves what was there. -/
theorem Separates.unprotect (h : Separates r s t) (hok : CallOk r s .unprotect) :
    ServedAs r s t .unprotect := by
  have hr : s.mustRelocate = false := hok
  rw [ServedAs, serve, SeparateFds.serve, unprotectUserFds,
    foldl_unprotectFd]
  refine ⟨rfl, funext fun k => ?_, h.bits, h.app, h.room, by simp⟩
  have hfilled := h.filled hr k
  simp only [h.table, hr, SeparateFds.table, mem_range]
  grind

end

/-- Over every list of calls that meet the condition, the application and the library get the
answers that two separate tables give. -/
theorem answers_eq_separate (r : FdRanges) (app : Finset Nat)
    (happ : ∀ fd ∈ app, fd < r.minInternalFd) {calls : List DescriptorCall}
    (hok : Simulation.CallsOk (serve r) (CallOk r) (.start app) calls) :
    answers (serve r) (.start app) calls =
      answers (SeparateFds.serve r) ⟨app, ∅⟩ calls := by
  have hstart : Separates r (.start app) ⟨app, ∅⟩ := by
    refine ⟨funext fun fd => ?_, by simp [start], happ, by simp, by simp [start]⟩
    simp only [start, SeparateFds.table]
    grind
  have hserved : ∀ s t call, Separates r s t → CallOk r s call → ServedAs r s t call := by
    intro s t call h hcall
    cases call with
    | appOpen => exact h.appOpen hcall
    | appClose fd => exact h.appClose hcall
    | libraryOpen fromOpen => exact h.libraryOpen hcall
    | libraryClose fd => exact h.libraryClose hcall
    | protect => exact h.protect hcall
    | unprotect => exact h.unprotect hcall
  exact answers_eq ⟨fun s t c h hc => (hserved s t c h hc).1,
    fun s t c h hc => (hserved s t c h hc).2⟩ hstart hok

/-- The library opens four descriptors, two of them while it starts, and closes one; the application
opens two and tries to close one that is not its own. -/
theorem answers_eq_separate_session :
    answers (serve ⟨5, 3⟩) (.start {0, 2})
        [.libraryOpen true, .protect, .libraryOpen false, .unprotect, .appOpen, .appClose 6,
          .libraryClose 5, .libraryOpen true, .appClose 2, .appOpen] =
      [some 5, some 0, some 6, some 0, some 1, some 0, some 0, some 5, some 0, some 2] :=
  (answers_eq_separate ⟨5, 3⟩ {0, 2} (by decide) (by decide)).trans (by decide)

end Descriptors

end GekkoFS
