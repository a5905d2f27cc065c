import GekkoFS.Client.ResolvePath

/-!
# The legacy path resolver

With `GKFS_USE_LEGACY_PATH_RESOLVE` the client resolves paths by their components. It walks over the
path, appends each component to `resolved` and counts the components that are resolved and those
that match the mount directory; two dots take the last component back, in the text and in both
counters. Outside of the mount directory each component is looked up in the file system of the host,
and links are followed. The loop ends on every path and host (`legacyWalk_isSome`).
-/

namespace GekkoFS

open List

/-! ## The host and the state of the walk -/

/-- What `lstat` finds. -/
inductive HostEntry
  | directory
  | link
  | other
  deriving DecidableEq

/-- `PATH_MAX`: no call of the host takes a path of as many characters. -/
def pathMax : Nat := 4096

/-- The file system of the host: what `lstat` finds for a path, and `realpath`. -/
structure HostFs where
  lstat : List Char → Option HostEntry
  realpath : List Char → Option (List Char)
  lstat_tooLong : ∀ text, pathMax ≤ text.length → lstat text = none

/-- The variables of the resolver at the head of its loop. -/
structure LegacyState where
  /-- The path behind the last separator that was processed, that is from `end + 1` on. -/
  rest : List Char
  resolved : List Char
  /-- The index of the last slash in `resolved`; `none` is `npos`. -/
  lastSlashPos : Option Nat
  matchedComponents : UInt32
  resolvedComponents : UInt32

/-- How the loop is left: at its end, by a return with `false`, or by an exception. -/
inductive LegacyExit
  | finished (s : LegacyState)
  | external (resolved : List Char)
  | threw

/-! ## Splitting and matching -/

/-- The loop of `split_path`, at most as many times as given. -/
def splitPathLoop : Nat → List Char → List (List Char)
  | 0, _ => []
  | fuel + 1, rest =>
    if rest = [] then []
    else
      rest.takeWhile (· ≠ '/') ::
        match rest.dropWhile (· ≠ '/') with
        | [] => []
        | _ :: rest => splitPathLoop fuel rest

/-- The components of a path. Source: `split_path` (`path_util.cpp:92`). -/
def splitPath (path : List Char) : List (List Char) :=
  splitPathLoop path.length (if path.head? = some '/' then path.drop 1 else path)

/-- The loop of `match_components`, at most as many times as given; `none` if `at` throws. -/
def matchLoop (components : List (List Char)) :
    Nat → List Char → UInt32 → UInt32 → Option (UInt32 × UInt32)
  | 0, _, matched, processed => some (matched, processed)
  | fuel + 1, rest, matched, processed =>
    if rest = [] then some (matched, processed)
    else
      let next := (rest.dropWhile (· ≠ '/')).drop 1
      if matched = processed then
        match components[matched.toNat]? with
        | none => none
        | some component =>
          matchLoop components fuel next
            (if rest.takeWhile (· ≠ '/') = component then matched + 1 else matched) (processed + 1)
      else matchLoop components fuel next matched (processed + 1)

/-- The number of components of a path that match, and of all. Source: `match_components`
(`path.cpp:75`). -/
def matchComponents (path : List Char) (components : List (List Char)) :
    Option (UInt32 × UInt32) :=
  matchLoop components path.length (path.drop 1) 0 0

/-- `find_last_of` for the separator. -/
def findLastSlash (text : List Char) : Option Nat :=
  if '/' ∈ text then some (text.length - 1 - text.reverse.idxOf '/') else none

/-! ## The loop -/

section
variable (host : HostFs) (mntComponents : List (List Char)) (resolveLastLink : Bool)

/-- Two dots; `erase` throws if there is no slash. Source: `resolve` (`path.cpp:268`). -/
def legacyBack (s : LegacyState) : Except LegacyExit LegacyState :=
  let matched :=
    if 0 < s.resolvedComponents ∧ s.matchedComponents = s.resolvedComponents then
      s.matchedComponents - 1
    else s.matchedComponents
  let resolvedComponents :=
    if 0 < s.resolvedComponents then s.resolvedComponents - 1 else s.resolvedComponents
  if s.resolved = [] then .ok ⟨s.rest, [], s.lastSlashPos, matched, resolvedComponents⟩
  else
    match s.lastSlashPos with
    | none => .error .threw
    | some pos =>
      .ok ⟨s.rest, s.resolved.take pos, findLastSlash (s.resolved.take pos), matched,
        resolvedComponents⟩

/-- A component outside of the mount directory, which has been appended; `after` is the path from
the separator behind it on. Source: `resolve` (`path.cpp:292`). -/
def legacyOutside (s : LegacyState) (comp after : List Char) : Except LegacyExit LegacyState :=
  let matched :=
    if s.matchedComponents = s.resolvedComponents ∧
      mntComponents[s.matchedComponents.toNat]? = some comp then s.matchedComponents + 1
    else s.matchedComponents
  let s := { s with matchedComponents := matched }
  match host.lstat s.resolved with
  | none => .error (.external (s.resolved ++ after))
  | some .link =>
    if resolveLastLink = false ∧ after = [] then .ok s
    else
      match host.realpath s.resolved with
      | none => .error (.external (s.resolved ++ after))
      | some linkResolved =>
        match matchComponents linkResolved mntComponents with
        | none => .error .threw
        | some (matched, resolvedComponents) =>
          .ok ⟨s.rest, linkResolved, findLastSlash linkResolved, matched, resolvedComponents⟩
  | some .directory => .ok { s with resolvedComponents := s.resolvedComponents + 1 }
  | some .other =>
    if after ≠ [] then .error (.external (s.resolved ++ after))
    else .ok { s with resolvedComponents := s.resolvedComponents + 1 }

/-- Any other component. Source: `resolve` (`path.cpp:287`). -/
def legacyAppend (s : LegacyState) (comp after : List Char) : Except LegacyExit LegacyState :=
  let s := { s with resolved := s.resolved ++ '/' :: comp, lastSlashPos := some s.resolved.length }
  if s.matchedComponents.toNat < mntComponents.length then
    legacyOutside host mntComponents resolveLastLink s comp after
  else .ok { s with
    matchedComponents := s.matchedComponents + 1
    resolvedComponents := s.resolvedComponents + 1 }

/-- One round of the loop. Source: `resolve` (`path.cpp:248`). -/
def legacyStep (s : LegacyState) : Except LegacyExit LegacyState :=
  if s.rest = [] then .error (.finished s)
  else
    -- skip separators, and find the next component
    let start := s.rest.dropWhile (· = '/')
    let comp := start.takeWhile (· ≠ '/')
    let after := start.dropWhile (· ≠ '/')
    let s' := { s with rest := after.drop 1 }
    if comp = [] then .error (.finished s)
    else if comp = ['.'] then .ok s'
    else if comp = ['.', '.'] then legacyBack s'
    else legacyAppend host mntComponents resolveLastLink s' comp after

/-- The loop: the states at its head, and how it is left; `none` if it has not been left after the
given number of rounds. -/
def legacyLoop : Nat → LegacyState → Option (List LegacyState × LegacyExit)
  | 0, _ => none
  | fuel + 1, s =>
    match legacyStep host mntComponents resolveLastLink s with
    | .ok s' => (legacyLoop fuel s').map fun r => (s :: r.1, r.2)
    | .error exit => some ([s], exit)

end

/-- `excluded_paths`. Source: `path.cpp:57`. -/
def excludedPaths : List (List Char) := ["sys/".toList, "proc/".toList]

/-- The path has an excluded directory behind its first slash. Source: `resolve`
(`path.cpp:223`). -/
def Excluded (path : List Char) : Prop :=
  ∃ exclPath ∈ excludedPaths, (path.drop 1).take exclPath.length = exclPath

instance (path : List Char) : Decidable (Excluded path) :=
  inferInstanceAs (Decidable (∃ exclPath ∈ excludedPaths, _))

/-- The variables before the loop. -/
def legacyStart (path : List Char) : LegacyState := ⟨path.drop 1, [], some 0, 0, 0⟩

/-- The states at the head of the loop, and how it is left. -/
def legacyWalk (host : HostFs) (mountdir : List Char) (resolveLastLink : Bool) (path : List Char) :
    Option (List LegacyState × LegacyExit) :=
  legacyLoop host (splitPath mountdir) resolveLastLink (path.length + 1) (legacyStart path)

/-- Resolve a path: whether it is internal, and `resolved`. `none` if the function throws. Source:
`resolve` (`path.cpp:215`). -/
def legacyResolve (host : HostFs) (mountdir : List Char) (resolveLastLink : Bool)
    (path : List Char) : Option (Bool × List Char) :=
  if Excluded path then some (false, path)
  else
    match legacyWalk host mountdir resolveLastLink path with
    | none | some (_, .threw) => none
    | some (_, .external resolved) => some (false, resolved)
    | some (_, .finished s) =>
      if (splitPath mountdir).length ≤ s.matchedComponents.toNat then
        -- `erase` throws behind the end
        if s.resolved = [] then none
        else some (true, s.resolved.take 1 ++ s.resolved.drop (1 + mountdir.length))
      else some (false, if s.resolved = [] then ['/'] else s.resolved)

/-! ## The loop ends -/

/-- Two dots leave what is ahead. -/
theorem legacyBack_rest {s s' : LegacyState} (h : legacyBack s = .ok s') : s'.rest = s.rest := by
  rw [legacyBack] at h
  split at h
  · cases h
    rfl
  · split at h
    · exact nomatch h
    · cases h
      rfl

section
variable {host : HostFs} {mntComponents : List (List Char)} {resolveLastLink : Bool}
  {s s' : LegacyState}

/-- A lookup leaves what is ahead. -/
theorem legacyOutside_rest {comp after : List Char}
    (h : legacyOutside host mntComponents resolveLastLink s comp after = .ok s') :
    s'.rest = s.rest := by
  rw [legacyOutside] at h
  dsimp only at h
  split at h
  · exact nomatch h
  · split at h
    · cases h
      rfl
    · split at h
      · exact nomatch h
      · split at h
        · exact nomatch h
        · cases h
          rfl
  · cases h
    rfl
  · split at h
    · exact nomatch h
    · cases h
      rfl

/-- Any other component leaves what is ahead. -/
theorem legacyAppend_rest {comp after : List Char}
    (h : legacyAppend host mntComponents resolveLastLink s comp after = .ok s') :
    s'.rest = s.rest := by
  rw [legacyAppend] at h
  dsimp only at h
  split at h
  · exact (legacyOutside_rest h).trans rfl
  · cases h
    rfl

/-- What is behind a component is shorter. -/
theorem length_behind_lt {rest : List Char}
    (h : (rest.dropWhile (· = '/')).takeWhile (· ≠ '/') ≠ []) :
    (((rest.dropWhile (· = '/')).dropWhile (· ≠ '/')).drop 1).length < rest.length := by
  have hle : (rest.dropWhile (· = '/')).length ≤ rest.length :=
    (dropWhile_suffix _).length_le
  have hsplit := congrArg List.length
    (takeWhile_append_dropWhile (p := (· ≠ '/')) (l := rest.dropWhile (· = '/')))
  have hpos := length_pos_iff.2 h
  rw [length_append] at hsplit
  rw [length_drop]
  omega

/-- Every round that goes on shortens what is ahead. -/
theorem legacyStep_length_lt (h : legacyStep host mntComponents resolveLastLink s = .ok s') :
    s'.rest.length < s.rest.length := by
  rw [legacyStep] at h
  split at h
  · exact nomatch h
  · dsimp only at h
    split at h
    · exact nomatch h
    · next hcomp =>
      have hlength := length_behind_lt hcomp
      split at h
      · cases h
        exact hlength
      · split at h
        · exact (congrArg List.length (legacyBack_rest h)).trans_lt hlength
        · exact (congrArg List.length (legacyAppend_rest h)).trans_lt hlength

/-- The loop is left within as many rounds as there are characters ahead, and one. -/
theorem legacyLoop_isSome {fuel : Nat} (hfuel : s.rest.length < fuel) :
    (legacyLoop host mntComponents resolveLastLink fuel s).isSome := by
  induction fuel generalizing s with
  | zero => exact absurd hfuel (Nat.not_lt_zero _)
  | succ fuel ih =>
    rw [legacyLoop]
    split
    · next s' hstep =>
      rw [Option.isSome_map]
      exact ih (Nat.lt_of_lt_of_le (legacyStep_length_lt hstep) (Nat.le_of_lt_succ hfuel))
    · rfl

end

/-- The number of rounds given to the loop is enough for every path. -/
theorem legacyWalk_isSome (host : HostFs) (mountdir : List Char) (resolveLastLink : Bool)
    (path : List Char) : (legacyWalk host mountdir resolveLastLink path).isSome := by
  refine legacyLoop_isSome ?_
  rw [legacyStart, length_drop]
  omega

end GekkoFS
