import GekkoFS.Client.LegacyCounters

/-!
# When the legacy resolver is right

The rounds of `LegacyCounters` make a walk. Where the host can look up all that the walk goes
through, the resolver is right exactly for the paths that never go `2 ^ 32` components deep, as its
counters have 32 bits (`legacyOk_iff`).
-/

namespace GekkoFS

open CanonicalPath List Separated

/-! ## Whole walks -/

section
variable {host : HostFs} {mountdir : CanonicalPath} (hhost : DirectoriesOutside host mountdir)
  (resolveLastLink : Bool) {s : LegacyState} {p : CanonicalPath} {fuel : Nat}

include hhost

/-- A walk that never goes too deep arrives where the components lead to, with the right counters
on its way. -/
theorem legacyLoop_finished (hwalks : Walks s p)
    (hcounts : Counts mountdir s p)
    (hlookups : LookupsFit mountdir p (Separated.pieces '/' s.rest))
    (hfits : DepthFits p (Separated.pieces '/' s.rest))
    (hfuel : s.rest.length < fuel) :
    ∃ heads s', legacyLoop host mountdir.names resolveLastLink fuel s =
        some (heads, .finished s') ∧
      (∀ t ∈ heads, HeadOk mountdir t) ∧
      Walks s' ((Separated.pieces '/' s.rest).foldl enter p) ∧
      Counts mountdir s' ((Separated.pieces '/' s.rest).foldl enter p) := by
  induction fuel generalizing s p with
  | zero => exact absurd hfuel (Nat.not_lt_zero _)
  | succ fuel ih =>
    have hhead : HeadOk mountdir s := hwalks.headOk_iff.2 hcounts
    rw [legacyLoop]
    cases hpieces : Separated.pieces '/' s.rest with
    | nil =>
      rw [legacyStep_finished host mountdir.names resolveLastLink hpieces]
      refine ⟨[s], s, rfl, ?_, hwalks, hcounts⟩
      intro t ht
      rw [mem_singleton.1 ht]
      exact hhead
    | cons component components =>
      rw [hpieces, DepthFits, onTheWay_cons_iff] at hfits
      rw [hpieces, LookupsFit, onTheWay_cons_iff] at hlookups
      obtain ⟨s', hstep, hpieces', hwalks', hcounts'⟩ :=
        legacyStep_component hhost resolveLastLink hwalks hcounts hpieces hlookups.2.here
      rw [← hpieces'] at hfits hlookups
      obtain ⟨heads, s'', hloop, hheads, hwalks'', hcounts''⟩ :=
        ih hwalks' (hcounts' hfits.2.here) hlookups.2 hfits.2
          (Nat.lt_of_lt_of_le (legacyStep_length_lt hstep) (Nat.le_of_lt_succ hfuel))
      rw [hstep, foldl_cons, ← hpieces']
      dsimp only
      rw [hloop]
      refine ⟨s :: heads, s'', rfl, ?_, hwalks'', hcounts''⟩
      intro t ht
      rcases mem_cons.1 ht with rfl | ht
      · exact hhead
      · exact hheads t ht

/-- A walk with the right counters on its way never goes too deep. -/
theorem depthFits_of_heads (hwalks : Walks s p)
    (hlookups : LookupsFit mountdir p (Separated.pieces '/' s.rest))
    {heads : List LegacyState} {exit : LegacyExit}
    (hloop : legacyLoop host mountdir.names resolveLastLink fuel s = some (heads, exit))
    (hheads : ∀ t ∈ heads, HeadOk mountdir t) : DepthFits p (Separated.pieces '/' s.rest) := by
  induction fuel generalizing s p heads exit with
  | zero => exact nomatch hloop
  | succ fuel ih =>
    have hmem : s ∈ heads := by
      rw [legacyLoop] at hloop
      split at hloop
      · obtain ⟨r, -, heq⟩ := Option.map_eq_some_iff.1 hloop
        rw [← (Prod.mk.inj heq).1]
        exact mem_cons_self
      · rw [← (Prod.mk.inj (Option.some.inj hloop)).1]
        exact mem_cons_self
    have hcounts := hwalks.headOk_iff.1 (hheads s hmem)
    have hlength : p.names.length < UInt32.size := hcounts.resolved ▸ UInt32.toNat_lt_size _
    cases hpieces : Separated.pieces '/' s.rest with
    | nil => exact onTheWay_nil_iff.2 hlength
    | cons component components =>
      rw [hpieces, LookupsFit, onTheWay_cons_iff] at hlookups
      obtain ⟨s', hstep, hpieces', hwalks', -⟩ :=
        legacyStep_component hhost resolveLastLink hwalks hcounts hpieces hlookups.2.here
      rw [legacyLoop, hstep] at hloop
      obtain ⟨⟨heads', exit'⟩, hrest, heq⟩ := Option.map_eq_some_iff.1 hloop
      rw [← (Prod.mk.inj heq).1] at hheads
      rw [← hpieces'] at hlookups ⊢
      rw [DepthFits, onTheWay_cons_iff]
      exact ⟨hlength, ih hwalks' hlookups.2 hrest fun t ht =>
        hheads t (mem_cons_of_mem s ht)⟩

end

/-- The resolver starts at the root. -/
theorem walks_legacyStart (path : List Char) : Walks (legacyStart path) root :=
  ⟨rfl, fun hne => absurd rfl hne⟩

/-- Nothing is counted there. -/
theorem counts_legacyStart (mountdir : CanonicalPath) (path : List Char) :
    Counts mountdir (legacyStart path) root :=
  ⟨rfl, (Nat.le_zero.1 (matchedCount_le mountdir.names [])).symm⟩

/-- The canonical form is where the components that are not empty lead to. -/
theorem foldl_enter_pieces (path : List Char) :
    (Separated.pieces '/' path).foldl enter root =
      canonicalForm path := by
  rw [Separated.pieces, foldl_filter, canonicalForm]
  congr 1
  funext p name
  split
  · rfl
  · next hempty =>
    rw [show name = [] by simpa using hempty]
    rfl

/-! ## The components of the mount directory -/

variable {name : List Char}

/-- A name is read up to the separator behind it. -/
theorem dropWhile_name {tail : List Char} (htail : tail = [] ∨ ∃ rest, tail = '/' :: rest)
    (hname : '/' ∉ name) : (name ++ tail).dropWhile (· ≠ '/') = tail := by
  have hsplit := takeWhile_append_dropWhile (p := (· ≠ '/')) (l := name ++ tail)
  rw [takeWhile_name htail hname] at hsplit
  exact append_cancel_left hsplit

/-- The loop of `split_path` reads names off from left to right. -/
theorem splitPathLoop_render {names : List (List Char)}
    (hnames : ∀ name' ∈ name :: names, IsName name') {fuel : Nat}
    (hfuel : (name ++ render '/' names).length ≤ fuel) :
    splitPathLoop fuel (name ++ render '/' names) = name :: names := by
  induction names generalizing name fuel with
  | nil =>
    obtain ⟨hne, hslash, -⟩ := hnames name mem_cons_self
    rw [render_nil, append_nil] at hfuel ⊢
    obtain ⟨fuel, rfl⟩ : ∃ k, fuel = k + 1 :=
      Nat.exists_eq_add_one.2 (Nat.lt_of_lt_of_le (length_pos_iff.2 hne) hfuel)
    have htake := takeWhile_name (.inl rfl) hslash
    have hdrop := dropWhile_name (.inl rfl) hslash
    rw [append_nil] at htake hdrop
    rw [splitPathLoop, if_neg hne, htake, hdrop]
  | cons next names ih =>
    obtain ⟨hne, hslash, -⟩ := hnames name mem_cons_self
    rw [render_cons, cons_append] at hfuel ⊢
    have htail : '/' :: (next ++ render '/' names) = [] ∨
        ∃ rest, '/' :: (next ++ render '/' names) = '/' :: rest := .inr ⟨_, rfl⟩
    rw [length_append, length_cons] at hfuel
    obtain ⟨fuel, rfl⟩ : ∃ k, fuel = k + 1 := Nat.exists_eq_add_one.2 (by omega)
    rw [splitPathLoop, if_neg (append_ne_nil_of_left_ne_nil hne _),
      takeWhile_name htail hslash, dropWhile_name htail hslash]
    dsimp only
    rw [ih (fun name' hmem => hnames name' (mem_cons_of_mem name hmem)) (by omega)]

/-- The components of a canonical path are its names. -/
theorem splitPath_text (p : CanonicalPath) : splitPath p.text = p.names := by
  obtain ⟨names, hnames⟩ := p
  cases names with
  | nil => rfl
  | cons name names =>
    have htext : text ⟨name :: names, hnames⟩ =
        '/' :: (name ++ render '/' names) := by
      rw [text, pathOf_cons, render_cons, cons_append]
    rw [htext, splitPath, head?_cons, if_pos rfl, drop_one, tail_cons]
    exact splitPathLoop_render hnames (Nat.le_succ _)

/-! ## When the resolver is right -/

section
variable {host : HostFs} {mountdir : CanonicalPath} (hhost : DirectoriesOutside host mountdir)
  (hmountdir : mountdir ≠ root) (resolveLastLink : Bool) {path : List Char}
  (habsolute : path.head? = some '/') (hexcluded : ¬ Excluded path)
  (hlookups : LookupsFit mountdir root (Separated.pieces '/' path))

/-- The components ahead at the start are those of the path. -/
theorem pieces_legacyStart (habsolute : path.head? = some '/') :
    Separated.pieces '/' (legacyStart path).rest = Separated.pieces '/' path := by
  obtain ⟨rest, rfl⟩ : ∃ rest, path = '/' :: rest := head?_eq_some_iff.1 habsolute
  rw [pieces_cons_separator]
  rfl

include hhost habsolute hlookups

/-- The walk over a path that never goes too deep. -/
theorem legacyWalk_finished (hfits : DepthFits root (Separated.pieces '/' path)) :
    ∃ heads s, legacyWalk host mountdir.text resolveLastLink path = some (heads, .finished s) ∧
      (∀ t ∈ heads, HeadOk mountdir t) ∧ Walks s (canonicalForm path) ∧
      Counts mountdir s (canonicalForm path) := by
  rw [← pieces_legacyStart habsolute] at hfits hlookups
  have hfuel : (legacyStart path).rest.length < path.length + 1 := by
    rw [legacyStart, length_drop]
    omega
  have h := legacyLoop_finished hhost resolveLastLink (walks_legacyStart path)
    (counts_legacyStart mountdir path) hlookups hfits hfuel
  rw [pieces_legacyStart habsolute, foldl_enter_pieces] at h
  rw [legacyWalk, splitPath_text]
  exact h

include hmountdir hexcluded

/-- A path that never goes too deep is resolved by whole components. -/
theorem resolvesUnder_legacyResolve (hfits : DepthFits root (Separated.pieces '/' path)) :
    ∃ resolved, legacyResolve host mountdir.text resolveLastLink path = some resolved ∧
      ResolvesUnder mountdir (canonicalForm path) resolved := by
  obtain ⟨heads, s, hwalk, -, hwalks, hcounts⟩ :=
    legacyWalk_finished hhost resolveLastLink habsolute hlookups hfits
  generalize canonicalForm path = absolute at hwalks hcounts ⊢
  have hnames : mountdir.names ≠ [] := fun hnil => hmountdir (CanonicalPath.ext hnil)
  rw [legacyResolve, if_neg hexcluded, hwalk, splitPath_text]
  dsimp only
  by_cases hbelow : mountdir.names <+: absolute.names
  · obtain ⟨rest, hrest⟩ := hbelow
    have hbelow : mountdir.names <+: absolute.names := ⟨rest, hrest⟩
    have hresolved : s.resolved ≠ [] := by
      rw [hwalks.resolved, Ne, render_eq_nil_iff, ← hrest]
      exact append_ne_nil_of_left_ne_nil hnames rest
    rw [if_pos (hcounts.matched ▸ le_matchedCount_iff.2 hbelow), if_neg hresolved,
      hwalks.resolved, text_eq_render hmountdir, ← hrest,
      erase_mountdir hnames rest]
    refine ⟨_, rfl, iff_of_true rfl hbelow, fun _ => ?_, fun hnot => absurd hbelow hnot⟩
    rw [← hrest, drop_left]
  · rw [if_neg (hcounts.matched ▸ fun hle => hbelow (le_matchedCount_iff.1 hle)),
      hwalks.resolved, render_or_slash]
    exact ⟨_, rfl, iff_of_false Bool.false_ne_true hbelow, fun h => absurd h hbelow, fun _ => rfl⟩

omit hmountdir hexcluded

/-- With the right counters at every head, a path never goes too deep. -/
theorem LegacyOk.depthFits (h : LegacyOk host mountdir resolveLastLink path) :
    DepthFits root (Separated.pieces '/' path) := by
  obtain ⟨heads, exit, hwalk, hheads⟩ := h.heads
  rw [legacyWalk, splitPath_text] at hwalk
  rw [← pieces_legacyStart habsolute] at hlookups ⊢
  exact depthFits_of_heads hhost resolveLastLink (walks_legacyStart path) hlookups hwalk hheads

include hmountdir hexcluded

/-- Where the host can look up what the walk goes through, the resolver is right exactly for the
paths that never go too deep for its counters. -/
theorem legacyOk_iff :
    LegacyOk host mountdir resolveLastLink path ↔
      DepthFits root (Separated.pieces '/' path) := by
  constructor
  · exact LegacyOk.depthFits hhost resolveLastLink habsolute hlookups
  · intro hfits
    refine ⟨resolvesUnder_legacyResolve hhost hmountdir resolveLastLink habsolute hexcluded hlookups
      hfits, ?_⟩
    obtain ⟨heads, s, hwalk, hheads, -, -⟩ :=
      legacyWalk_finished hhost resolveLastLink habsolute hlookups hfits
    exact ⟨heads, .finished s, hwalk, hheads⟩

end

/-- A host on which there is nothing below the mount directory. -/
def emptyMountHost (mountdir : CanonicalPath) : HostFs where
  lstat text :=
    if mountdir.names <+: (canonicalForm text).names ∧ canonicalForm text ≠ mountdir ∨
      pathMax ≤ text.length then none
    else some .directory
  realpath _ := none
  lstat_tooLong _ h := if_pos (.inr h)

theorem directoriesOutside_emptyMountHost (mountdir : CanonicalPath) :
    DirectoriesOutside (emptyMountHost mountdir) mountdir := by
  intro p hp hlength
  rw [emptyMountHost]
  dsimp only
  rw [canonicalForm_text, if_neg (not_or.2 ⟨hp, Nat.not_le.2 hlength⟩)]

/-- Entering a component goes at most one name deeper. -/
theorem length_enter_le (p : CanonicalPath) (component : List Char) :
    (p.enter component).names.length ≤ p.names.length + 1 := by
  rw [enter]
  split
  · rw [child, length_append, length_singleton]
  · split
    · rw [parent, length_dropLast]
      omega
    · exact Nat.le_succ _

/-- A path with few components does not go too deep. -/
theorem depthFits_of_length {p : CanonicalPath} {components : List (List Char)}
    (h : p.names.length + components.length < UInt32.size) : DepthFits p components := by
  induction components generalizing p with
  | nil => exact onTheWay_nil_iff.2 h
  | cons component components ih =>
    have hle := length_enter_le p component
    rw [length_cons] at h
    exact onTheWay_cons_iff.2 ⟨by omega, ih (by omega)⟩

/-- A path that leaves the mount directory and enters it again is resolved, though nothing below it
is on the host. -/
theorem legacyOk_iff_reentered :
    LegacyOk (emptyMountHost gkfsMountdir) gkfsMountdir false
      "/mnt//gkfs/../../mnt/./gkfs/dir/a/".toList := by
  have hlookups : ∀ init ∈ (Separated.pieces '/' "/mnt//gkfs/../../mnt/./gkfs/dir/a/".toList).inits,
      LookupFits gkfsMountdir (init.foldl enter root) := by
    decide +kernel
  refine (legacyOk_iff (directoriesOutside_emptyMountHost gkfsMountdir) (by decide) false
    (by decide) (by decide) fun init hinit => hlookups init ((mem_inits ..).2 hinit)).2
    (depthFits_of_length ?_)
  decide

/-- A path with as many components as given below the mount directory. -/
def deepPath (depth : Nat) : List Char :=
  render '/' (gkfsMountdir.names ++ List.replicate depth ['x'])

variable {depth : Nat}

theorem isName_of_mem_deep :
    ∀ name ∈ gkfsMountdir.names ++ List.replicate depth ['x'], IsName name := by
  intro name hmem
  rcases mem_append.1 hmem with hmem | hmem
  · exact gkfsMountdir.isName name hmem
  · rw [eq_of_mem_replicate hmem]
    decide

theorem pieces_deepPath (depth : Nat) :
    Separated.pieces '/' (deepPath depth) = gkfsMountdir.names ++ List.replicate depth ['x'] :=
  pieces_render fun name hmem =>
    ⟨(isName_of_mem_deep name hmem).1, (isName_of_mem_deep name hmem).2.1⟩

/-- The walk over such a path is at the names it has entered. -/
theorem names_deepPath {init : List (List Char)}
    (hinit : init <+: Separated.pieces '/' (deepPath depth)) :
    (init.foldl enter root).names = init := by
  rw [pieces_deepPath] at hinit
  rw [foldl_enter fun name hmem => isName_of_mem_deep name (hinit.subset hmem)]
  rfl

theorem not_excluded_deepPath (depth : Nat) : ¬ Excluded (deepPath depth) := by
  have hne : ∀ exclPath ∈ excludedPaths, exclPath.head? ≠ some 'm' ∧ exclPath ≠ [] := by decide
  rintro ⟨exclPath, hmem, htake⟩
  obtain ⟨hm, hnil⟩ := hne exclPath hmem
  refine hm ?_
  rw [← htake, head?_take, if_neg (mt length_eq_zero_iff.1 hnil)]
  rfl

/-- The host looks up the mount directory and what is above it. -/
theorem lookupsFit_deepPath (depth : Nat) :
    LookupsFit gkfsMountdir root (Separated.pieces '/' (deepPath depth)) := by
  intro init hinit
  have hnames := names_deepPath hinit
  rw [pieces_deepPath] at hinit
  rw [LookupFits, text, hnames]
  rcases List.prefix_or_prefix_of_prefix hinit (prefix_append _ _) with habove | hbelow
  · have hshort : ∀ above ∈ gkfsMountdir.names.inits, (pathOf above).length < pathMax := by decide
    exact .inr (hshort init ((mem_inits ..).2 habove))
  · by_cases heq : init.foldl enter root = gkfsMountdir
    · rw [← hnames, heq]
      exact .inr (by decide)
    · exact .inl ⟨hbelow, heq⟩

/-- The counters are zero again after `2 ^ 32` components, two of them of the mount directory. -/
theorem legacyResolve_wraps :
    DirectoriesOutside (emptyMountHost gkfsMountdir) gkfsMountdir ∧
      gkfsMountdir ≠ root ∧ (deepPath (UInt32.size - 2)).head? = some '/' ∧
      ¬ Excluded (deepPath (UInt32.size - 2)) ∧
      LookupsFit gkfsMountdir root
        (Separated.pieces '/' (deepPath (UInt32.size - 2))) ∧
      ¬ LegacyOk (emptyMountHost gkfsMountdir) gkfsMountdir true (deepPath (UInt32.size - 2)) := by
  have hhost := directoriesOutside_emptyMountHost gkfsMountdir
  have hlookups := lookupsFit_deepPath (UInt32.size - 2)
  have habsolute : (deepPath (UInt32.size - 2)).head? = some '/' := rfl
  refine ⟨hhost, by decide, habsolute, not_excluded_deepPath _, hlookups, fun h => ?_⟩
  have hall := h.depthFits hhost true habsolute hlookups _ (prefix_refl _)
  dsimp only at hall
  rw [names_deepPath (prefix_refl _), pieces_deepPath, length_append,
    length_replicate] at hall
  exact Nat.lt_irrefl _ hall

end GekkoFS
