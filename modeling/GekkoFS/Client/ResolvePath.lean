import GekkoFS.Common.CanonicalPath

/-!
# Resolving paths in the client

The client decides for every path it is given whether it lies below the mount directory, and turns
it into the path inside GekkoFS if it does. `resolve_new` walks over the characters of the absolute
path, appends each name to `resolved`, and keeps the positions of the names on a stack, to which the
two dots go back.

The walk arrives at the canonical form of the absolute path (`resolveLoop_eq_render`), which is what
is left of the components of the path on a stack (`exactlyCanonical_resolveLoop`). The test that
follows compares characters, so the path of a directory next to the mount directory whose name only
starts with its name is taken for a path below it; this is the only case in which a path is not
resolved as it should be (`resolvesUnder_resolveNew_iff`).
-/

namespace GekkoFS

open CanonicalPath List Separated

/-! ## The walk -/

/-- The loop over the characters of the absolute path. After a name has been appended, `start = end`
passes over its other characters and the separator behind it; `skip` counts those still ahead. The
stack of positions has its top first. Source: `resolve_new` (`path.cpp:152`). -/
def resolveLoop : List Char → Nat → List Char → List Nat → List Char
  | [], _, resolved, _ => resolved
  | _ :: rest, skip + 1, resolved, lastComponentPos =>
    resolveLoop rest skip resolved lastComponentPos
  | c :: rest, 0, resolved, lastComponentPos =>
    let comp := (c :: rest).takeWhile (· ≠ '/')
    if comp.length = 0 ∧ c = '/' then resolveLoop rest 0 resolved lastComponentPos
    else if comp.length = 1 ∧ c = '.' then resolveLoop rest 0 resolved lastComponentPos
    else if comp.length = 2 ∧ c = '.' ∧ rest.head? = some '.' then
      -- the second dot is then passed over as a name of its own
      match lastComponentPos with
      | [] => resolveLoop rest 0 [] []
      | pos :: lastComponentPos => resolveLoop rest 0 (resolved.take pos) lastComponentPos
    else
      resolveLoop rest comp.length (resolved ++ '/' :: comp) (resolved.length :: lastComponentPos)

/-- The absolute path of a path. Source: `resolve_new` (`path.cpp:148`). -/
def absolutePath (cwd path : List Char) : List Char :=
  if path.head? = some '/' then path else cwd ++ '/' :: path

/-- Resolve a path: whether it is internal, and the path inside GekkoFS or the absolute path. This
is the function without `GKFS_FOLLOW_EXTERNAL_SYMLINKS`. Source: `resolve_new` (`path.cpp:139`). -/
def resolveNew (mountdir cwd path : List Char) : Bool × List Char :=
  if path = [] then (false, ['/'])
  else
    let resolved := resolveLoop (absolutePath cwd path) 0 [] []
    if resolved.take mountdir.length = mountdir then
      (true, resolved.take 1 ++ resolved.drop (1 + mountdir.length))
    else (false, if resolved = [] then ['/'] else resolved)

/-! ## The walk arrives at the canonical form -/

/-- The text and the stack after some names, which are given with the last one first. -/
inductive Walked : List Char → List Nat → List (List Char) → Prop
  | start : Walked [] [] []
  | name {resolved : List Char} {stack : List Nat} {names : List (List Char)}
      (h : Walked resolved stack names) (name : List Char) :
      Walked (resolved ++ '/' :: name) (resolved.length :: stack) (name :: names)

variable {resolved : List Char} {stack : List Nat} {names : List (List Char)}

theorem Walked.resolved_eq
    (h : Walked resolved stack names) : resolved = render '/' names.reverse := by
  induction h with
  | start => rfl
  | name h name ih => simp [ih]

/-- Going back to the position on top of the stack takes the last name away. -/
theorem Walked.back (h : Walked resolved stack names) :
    Walked (resolved.take (stack.headD 0)) stack.tail names.tail := by
  cases h with
  | start => exact .start
  | name h name =>
    rw [headD_cons, take_left]
    exact h

theorem resolveLoop_skip (rest : List Char) (skip : Nat) (resolved : List Char)
    (stack : List Nat) :
    resolveLoop rest skip resolved stack = resolveLoop (rest.drop skip) 0 resolved stack := by
  induction rest generalizing skip with
  | nil => simp [resolveLoop]
  | cons c rest ih =>
    cases skip with
    | zero => rfl
    | succ skip => rw [resolveLoop, ih, drop_succ_cons]

/-- What the loop does at the first character of a name. -/
theorem resolveLoop_cons {c : Char} {rest comp : List Char}
    (hcomp : (c :: rest).takeWhile (· ≠ '/') = comp) (resolved : List Char) (stack : List Nat) :
    resolveLoop (c :: rest) 0 resolved stack =
      if comp.length = 0 ∧ c = '/' then resolveLoop rest 0 resolved stack
      else if comp.length = 1 ∧ c = '.' then resolveLoop rest 0 resolved stack
      else if comp.length = 2 ∧ c = '.' ∧ rest.head? = some '.' then
        resolveLoop rest 0 (resolved.take (stack.headD 0)) stack.tail
      else resolveLoop rest comp.length (resolved ++ '/' :: comp) (resolved.length :: stack) := by
  subst hcomp
  cases stack with
  | nil => rfl
  | cons pos stack => rfl

section
variable {tail : List Char} (htail : tail = [] ∨ ∃ rest, tail = '/' :: rest) {name : List Char}

include htail

/-- The loop passes over a separator. -/
theorem resolveLoop_separator (resolved : List Char) (stack : List Nat) :
    resolveLoop tail 0 resolved stack = resolveLoop tail.tail 0 resolved stack := by
  rcases htail with rfl | ⟨rest, rfl⟩
  · rfl
  · simp [resolveLoop]

/-- The characters up to the next separator. -/
theorem takeWhile_name (hname : '/' ∉ name) :
    (name ++ tail).takeWhile (· ≠ '/') = name := by
  have hall : ∀ c ∈ name, decide (c ≠ '/') = true := fun c hc =>
    decide_eq_true fun heq : c = '/' => hname (heq ▸ hc)
  rw [takeWhile_append_of_pos hall]
  rcases htail with rfl | ⟨rest, rfl⟩
  · simp
  · simp

/-- One dot is passed over. -/
theorem resolveLoop_dot (resolved : List Char) (stack : List Nat) :
    resolveLoop ('.' :: tail) 0 resolved stack = resolveLoop tail.tail 0 resolved stack := by
  have hcomp : ('.' :: tail).takeWhile (· ≠ '/') = ['.'] :=
    takeWhile_name htail (show '/' ∉ ['.'] by decide)
  rw [resolveLoop_cons hcomp]
  simp [resolveLoop_separator htail]

/-- Two dots take the last name away. -/
theorem resolveLoop_dots (resolved : List Char) (stack : List Nat) :
    resolveLoop ('.' :: '.' :: tail) 0 resolved stack =
      resolveLoop tail.tail 0 (resolved.take (stack.headD 0)) stack.tail := by
  have hcomp : ('.' :: '.' :: tail).takeWhile (· ≠ '/') = ['.', '.'] :=
    takeWhile_name htail (show '/' ∉ ['.', '.'] by decide)
  rw [resolveLoop_cons hcomp]
  simp [resolveLoop_dot htail]

/-- Any other name is appended. -/
theorem resolveLoop_name (hname : IsName name) (resolved : List Char)
    (stack : List Nat) :
    resolveLoop (name ++ tail) 0 resolved stack =
      resolveLoop tail.tail 0 (resolved ++ '/' :: name) (resolved.length :: stack) := by
  obtain ⟨hne, hslash, hdot, hdots⟩ := hname
  cases name with
  | nil => exact absurd rfl hne
  | cons c name =>
    have hcomp : (c :: (name ++ tail)).takeWhile (· ≠ '/') = c :: name :=
      takeWhile_name htail hslash
    rw [cons_append, resolveLoop_cons hcomp, if_neg, if_neg, if_neg, resolveLoop_skip]
    · rw [length_cons, ← drop_drop, drop_left, drop_one]
    · rintro ⟨hlength, rfl, hhead⟩
      obtain ⟨d, rfl⟩ := length_eq_one_iff.1 (Nat.succ.inj hlength)
      rw [singleton_append, head?_cons, Option.some.injEq] at hhead
      exact hdots (by rw [hhead])
    · rintro ⟨hlength, rfl⟩
      rw [length_cons, Nat.add_eq_right, length_eq_zero_iff] at hlength
      exact hdot (by rw [hlength])
    · rintro ⟨hlength, -⟩
      exact absurd hlength (Nat.succ_ne_zero _)

/-- The loop enters the next name. -/
theorem resolveLoop_enter {p : CanonicalPath} {resolved : List Char} {stack : List Nat}
    (hname : '/' ∉ name) (h : Walked resolved stack p.names.reverse) :
    ∃ resolved' stack', Walked resolved' stack' (p.enter name).names.reverse ∧
      resolveLoop (name ++ tail) 0 resolved stack = resolveLoop tail.tail 0 resolved' stack' := by
  rw [enter]
  split
  · next hisName =>
    refine ⟨_, _, ?_, resolveLoop_name htail hisName resolved stack⟩
    rw [child, reverse_append, reverse_singleton, singleton_append]
    exact h.name name
  · next hisName =>
    split
    · next hdots =>
      subst hdots
      refine ⟨_, _, ?_, resolveLoop_dots htail resolved stack⟩
      rw [parent, ← tail_reverse]
      exact h.back
    · next hdots =>
      refine ⟨resolved, stack, h, ?_⟩
      by_cases hdot : name = ['.']
      · rw [hdot]
        exact resolveLoop_dot htail resolved stack
      · have hempty : name = [] := by
          by_contra hne
          exact hisName ⟨hne, hname, hdot, hdots⟩
        rw [hempty]
        exact resolveLoop_separator htail resolved stack

end

/-- The loop enters the names of a text one after another. -/
theorem resolveLoop_intercalate {p : CanonicalPath}
    (h : Walked resolved stack p.names.reverse) (hne : names ≠ [])
    (hnames : ∀ name ∈ names, '/' ∉ name) :
    resolveLoop (['/'].intercalate names) 0 resolved stack =
      render '/' (names.foldl enter p).names := by
  induction names generalizing p resolved stack with
  | nil => exact absurd rfl hne
  | cons name names ih =>
    have hname : '/' ∉ name := hnames name mem_cons_self
    cases names with
    | nil =>
      obtain ⟨resolved', stack', hwalked, heq⟩ := resolveLoop_enter (.inl rfl) hname h
      rw [intercalate_singleton, ← append_nil name, heq, append_nil,
        foldl_cons, foldl_nil, tail_nil, resolveLoop, hwalked.resolved_eq,
        reverse_reverse]
    | cons next names =>
      obtain ⟨resolved', stack', hwalked, heq⟩ :=
        resolveLoop_enter (.inr ⟨['/'].intercalate (next :: names), rfl⟩) hname h
      rw [intercalate_cons_cons, append_assoc, singleton_append, heq,
        foldl_cons, tail_cons]
      exact ih hwalked (cons_ne_nil next names) fun name' hmem =>
        hnames name' (mem_cons_of_mem name hmem)

/-- The loop arrives at the canonical form. -/
theorem resolveLoop_eq_render (path : List Char) :
    resolveLoop path 0 [] [] = render '/' (canonicalForm path).names := by
  rw [canonicalForm, ← resolveLoop_intercalate (p := root) .start
    (splitOn_ne_nil '/' path) fun name hmem => not_mem_of_mem_splitOn hmem,
    intercalate_splitOn]

/-! ## The stack of components -/

/-- Put a component of a path on the stack of those before it: an empty one and a dot are dropped,
two dots take the last one away if there is one. -/
def pushComponent (stack : List (List Char)) (component : List Char) : List (List Char) :=
  if component = [] ∨ component = ['.'] then stack
  else if component = ['.', '.'] then stack.dropLast
  else stack ++ [component]

/-- The components of a path, put on the stack from left to right. -/
def stackComponents (absolutePath : List Char) : List (List Char) :=
  (absolutePath.splitOn '/').foldl pushComponent []

/-- Entering a name does to the names of a path what the stack does. -/
theorem CanonicalPath.enter_names_eq (p : CanonicalPath) {name : List Char} (hname : '/' ∉ name) :
    (p.enter name).names = pushComponent p.names name := by
  rw [enter, pushComponent]
  split
  · next h =>
    rw [if_neg (not_or.2 ⟨h.1, h.2.2.1⟩), if_neg h.2.2.2]
    rfl
  · next h =>
    by_cases hdots : name = ['.', '.']
    · rw [if_pos hdots, if_neg (by rw [hdots]; decide), if_pos hdots, parent]
    · rw [if_neg hdots, if_pos]
      by_contra hnot
      exact h ⟨fun hnil => hnot (.inl hnil), hname, fun hdot => hnot (.inr hdot), hdots⟩

/-- The names of the canonical form are what is left on the stack. -/
theorem canonicalForm_names (absolutePath : List Char) :
    (canonicalForm absolutePath).names = stackComponents absolutePath := by
  have hfold : ∀ (names : List (List Char)) (p : CanonicalPath), (∀ name ∈ names, '/' ∉ name) →
      (names.foldl enter p).names = names.foldl pushComponent p.names := by
    intro names
    induction names with
    | nil => exact fun _ _ => rfl
    | cons name names ih =>
      intro p hnames
      rw [foldl_cons, foldl_cons,
        ih _ fun name' hmem => hnames name' (mem_cons_of_mem name hmem),
        p.enter_names_eq (hnames name mem_cons_self)]
  exact hfold _ root fun name hmem => not_mem_of_mem_splitOn hmem

/-- The walk over an absolute path leaves its canonical text: the components left on the stack,
each of them a name, and walking over the text again leaves it as it is. -/
structure ExactlyCanonical (absolute resolved : List Char) : Prop where
  text : resolved =
    if stackComponents absolute = [] then [] else pathOf (stackComponents absolute)
  components : ∀ component ∈ (resolved.splitOn '/').tail,
    component ≠ [] ∧ component ≠ ['.'] ∧ component ≠ ['.', '.']
  absolute : resolved ≠ [] → ∀ cwd, absolutePath cwd resolved = resolved
  again : resolveLoop resolved 0 [] [] = resolved

/-- The walk of `resolve_new` is exact canonicalisation. -/
theorem exactlyCanonical_resolveLoop (cwd path : List Char) :
    ExactlyCanonical (absolutePath cwd path) (resolveLoop (absolutePath cwd path) 0 [] []) := by
  obtain ⟨p, hp⟩ : ∃ p, canonicalForm (absolutePath cwd path) = p := ⟨_, rfl⟩
  have hstack : stackComponents (absolutePath cwd path) = p.names := by
    rw [← canonicalForm_names, hp]
  rw [resolveLoop_eq_render, hp]
  refine ⟨?_, ?_, ?_, ?_⟩
  · rw [hstack]
    split
    · next hnil => rw [hnil, render_nil]
    · next hne =>
      obtain ⟨name, names, hcons⟩ := exists_cons_of_ne_nil hne
      rw [hcons, pathOf_cons]
  · rw [splitOn_render p.not_slash_mem, tail_cons]
    intro component hmem
    obtain ⟨hne, -, hdot, hdots⟩ := p.isName component hmem
    exact ⟨hne, hdot, hdots⟩
  · intro hne cwd'
    cases hnames : p.names with
    | nil => exact absurd (by rw [hnames, render_nil]) hne
    | cons name names => rw [absolutePath, if_pos (by simp)]
  · by_cases hroot : p = root
    · rw [hroot]
      rfl
    · rw [← text_eq_render hroot, resolveLoop_eq_render, canonicalForm_text,
        text_eq_render hroot]

/-! ## Paths below the mount directory -/

/-- A path is resolved as it should be: it is internal if its first names are those of the mount
directory, and then becomes the path of the remaining names. -/
structure ResolvesUnder (mountdir absolute : CanonicalPath) (resolved : Bool × List Char) :
    Prop where
  flag : resolved.1 = true ↔ mountdir.names <+: absolute.names
  internal : mountdir.names <+: absolute.names →
    resolved.2 = pathOf (absolute.names.drop mountdir.names.length)
  external : ¬ mountdir.names <+: absolute.names → resolved.2 = absolute.text

/-- A path goes through a directory next to the mount directory, whose name starts with the name of
the mount directory and is longer. -/
def ThroughSibling (mountdir absolute : CanonicalPath) : Prop :=
  Separated.LastExtended mountdir.names absolute.names

/-- The text of the walk, with a slash for the root. -/
theorem render_or_slash (p : CanonicalPath) :
    (if render '/' p.names = [] then ['/'] else render '/' p.names) =
      p.text := by
  by_cases hroot : p = root
  · rw [hroot]
    rfl
  · rw [text_eq_render hroot, if_neg]
    intro hnil
    exact hroot (CanonicalPath.ext (render_eq_nil_iff.1 hnil))

/-- Erasing the characters of the mount directory behind the first slash leaves the path of the
remaining names. -/
theorem erase_mountdir (hne : names ≠ []) (rest : List (List Char)) :
    (render '/' (names ++ rest)).take 1 ++
      (render '/' (names ++ rest)).drop (1 + (render '/' names).length) =
      pathOf rest := by
  have hdrop : (render '/' (names ++ rest)).drop
      (1 + (render '/' names).length) = (render '/' rest).drop 1 := by
    rw [Nat.add_comm, ← drop_drop, render_append, drop_left]
  rw [hdrop]
  cases names with
  | nil => exact absurd rfl hne
  | cons name names =>
    cases rest with
    | nil => simp
    | cons next rest => simp [pathOf_cons]

section
variable {mountdir : CanonicalPath} (hmountdir : mountdir ≠ root)
  {path : List Char} (hpath : path ≠ []) (cwd : List Char)

include hmountdir hpath

/-- The test compares the texts of the mount directory and of the canonical form. -/
theorem resolveNew_eq {absolute : CanonicalPath}
    (habsolute : canonicalForm (absolutePath cwd path) = absolute) :
    resolveNew mountdir.text cwd path =
      if render '/' mountdir.names <+: render '/' absolute.names then
        (true, (render '/' absolute.names).take 1 ++
          (render '/' absolute.names).drop
            (1 + (render '/' mountdir.names).length))
      else (false, absolute.text) := by
  rw [resolveNew, if_neg hpath, resolveLoop_eq_render, text_eq_render hmountdir,
    habsolute, ← render_or_slash]
  simp only [prefix_iff_eq_take, eq_comm]

/-- A path that goes neither through the mount directory nor through such a sibling of it is
external. -/
theorem resolveNew_external (h : ¬ mountdir.names <+: (canonicalForm (absolutePath cwd path)).names)
    (hsibling : ¬ ThroughSibling mountdir (canonicalForm (absolutePath cwd path))) :
    resolveNew mountdir.text cwd path =
      (false, (canonicalForm (absolutePath cwd path)).text) := by
  rw [resolveNew_eq hmountdir hpath cwd rfl, if_neg]
  rw [render_prefix_iff mountdir.not_slash_mem (not_slash_mem _)]
  exact not_or.2 ⟨h, hsibling⟩

/-- A path through such a sibling is taken for an internal one. -/
theorem resolveNew_sibling (h : ThroughSibling mountdir (canonicalForm (absolutePath cwd path))) :
    (resolveNew mountdir.text cwd path).1 = true := by
  rw [resolveNew_eq hmountdir hpath cwd rfl, if_pos h.render_prefix]

/-- A path below the mount directory becomes the path of its remaining names. -/
theorem resolveNew_below {rest : List (List Char)}
    (h : (canonicalForm (absolutePath cwd path)).names = mountdir.names ++ rest) :
    resolveNew mountdir.text cwd path = (true, pathOf rest) := by
  have hne : mountdir.names ≠ [] := fun hnil => hmountdir (CanonicalPath.ext hnil)
  rw [resolveNew_eq hmountdir hpath cwd rfl, h, erase_mountdir hne rest,
    if_pos (render_prefix_render (prefix_append _ rest))]

/-- When a path is resolved as it should be. -/
theorem resolvesUnder_resolveNew_iff :
    ResolvesUnder mountdir (canonicalForm (absolutePath cwd path))
        (resolveNew mountdir.text cwd path) ↔
      ¬ ThroughSibling mountdir (canonicalForm (absolutePath cwd path)) := by
  constructor
  · intro h hsibling
    exact hsibling.not_prefix (h.flag.1 (resolveNew_sibling hmountdir hpath cwd hsibling))
  · intro hsibling
    by_cases hprefix : mountdir.names <+: (canonicalForm (absolutePath cwd path)).names
    · obtain ⟨rest, hrest⟩ := hprefix
      have hbelow := resolveNew_below hmountdir hpath cwd hrest.symm
      have hprefix : mountdir.names <+: (canonicalForm (absolutePath cwd path)).names :=
        ⟨rest, hrest⟩
      refine ⟨?_, fun _ => ?_, fun hnot => absurd hprefix hnot⟩
      · rw [hbelow]
        exact ⟨fun _ => hprefix, fun _ => rfl⟩
      · rw [hbelow, ← hrest, drop_left]
    · have hexternal := resolveNew_external hmountdir hpath cwd hprefix hsibling
      refine ⟨?_, fun h => absurd h hprefix, fun _ => ?_⟩
      · rw [hexternal]
        exact ⟨fun h => absurd h Bool.false_ne_true, fun h => absurd h hprefix⟩
      · rw [hexternal]

end

/-- A mount directory. -/
def gkfsMountdir : CanonicalPath := canonicalForm "/mnt/gkfs".toList

/-- A relative path that leaves the working directory for the mount directory is internal. -/
theorem resolvesUnder_resolveNew_iff_dots :
    ResolvesUnder gkfsMountdir (canonicalForm "/home/../mnt/./gkfs/dir/a".toList)
      (resolveNew gkfsMountdir.text "/home".toList "../mnt/./gkfs/dir/a".toList) := by
  refine (resolvesUnder_resolveNew_iff (show gkfsMountdir ≠ root by decide)
    (show "../mnt/./gkfs/dir/a".toList ≠ [] by decide) "/home".toList).2 ?_
  intro h
  exact h.not_prefix (by decide)

/-- A path of a directory next to the mount directory, `/mnt/gkfs2/a`, is taken for the internal
path `//a`. -/
theorem resolveNew_gkfs2 :
    resolveNew gkfsMountdir.text "/".toList "/mnt/gkfs2/a".toList = (true, "//a".toList) ∧
      ¬ ResolvesUnder gkfsMountdir
        (canonicalForm (absolutePath "/".toList "/mnt/gkfs2/a".toList))
        (resolveNew gkfsMountdir.text "/".toList "/mnt/gkfs2/a".toList) := by
  refine ⟨by decide, fun h => ?_⟩
  exact absurd (h.flag.1 (by decide)) (by decide)

end GekkoFS
