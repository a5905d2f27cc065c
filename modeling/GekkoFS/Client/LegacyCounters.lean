import GekkoFS.Client.LegacyResolve
import GekkoFS.Lib.CommonPrefix

/-!
# The counters of the legacy resolver

For a host on which all that is not below the mount directory are directories, the text of the
resolver is always that of the components on the stack (`Walks`), and as long as the counters can
hold them they are the number of components and the length of the part that matches (`Counts`). This
module has what the resolver should do, and what one round does (`legacyStep_component`).
-/

namespace GekkoFS

open CanonicalPath CommonPrefix List Separated

/-! ## What the resolver should do -/

/-- How many components count as matched: all, if those of the mount directory are the first of
them, and otherwise as many as agree with it. -/
def matchedCount (mountdir names : List (List Char)) : Nat :=
  if mountdir <+: names then names.length else commonLength names mountdir

/-- The counters at the head of the loop are right for the text. -/
structure HeadOk (mountdir : CanonicalPath) (s : LegacyState) : Prop where
  resolved : s.resolvedComponents.toNat = (Separated.pieces '/' s.resolved).length
  matched :
    s.matchedComponents.toNat = matchedCount mountdir.names (Separated.pieces '/' s.resolved)

/-- On the host, all that is not strictly below the mount directory are directories, as far as the
host can look them up. -/
def DirectoriesOutside (host : HostFs) (mountdir : CanonicalPath) : Prop :=
  ∀ p : CanonicalPath, ¬ (mountdir.names <+: p.names ∧ p ≠ mountdir) → p.text.length < pathMax →
    host.lstat p.text = some .directory

/-- A path is resolved by whole components, and the counters are right at every head of the
loop. -/
structure LegacyOk (host : HostFs) (mountdir : CanonicalPath) (resolveLastLink : Bool)
    (path : List Char) : Prop where
  result : ∃ resolved, legacyResolve host mountdir.text resolveLastLink path = some resolved ∧
    ResolvesUnder mountdir (canonicalForm path) resolved
  heads : ∃ heads exit,
    legacyWalk host mountdir.text resolveLastLink path = some (heads, exit) ∧
      ∀ s ∈ heads, HeadOk mountdir s

/-- On the way from a path through some components, a property holds of every path. -/
def OnTheWay (P : CanonicalPath → Prop) (p : CanonicalPath) (components : List (List Char)) :
    Prop :=
  ∀ init, init <+: components → P (init.foldl enter p)

/-- The counters can hold the number of names on the way. -/
def DepthFits (p : CanonicalPath) (components : List (List Char)) : Prop :=
  OnTheWay (fun q => q.names.length < UInt32.size) p components

/-- The host can look the path up, unless it is strictly below the mount directory. -/
def LookupFits (mountdir p : CanonicalPath) : Prop :=
  mountdir.names <+: p.names ∧ p ≠ mountdir ∨ p.text.length < pathMax

instance (mountdir p : CanonicalPath) : Decidable (LookupFits mountdir p) :=
  inferInstanceAs (Decidable (_ ∨ _))

/-- The host can look up all paths on the way that are not strictly below the mount directory. -/
def LookupsFit (mountdir p : CanonicalPath) (components : List (List Char)) : Prop :=
  OnTheWay (LookupFits mountdir) p components

section
variable {P : CanonicalPath → Prop} {p : CanonicalPath} {components : List (List Char)}

/-- The way begins where it starts. -/
theorem OnTheWay.here (h : OnTheWay P p components) : P p :=
  h [] List.nil_prefix

theorem onTheWay_nil_iff : OnTheWay P p [] ↔ P p := by
  refine ⟨OnTheWay.here, fun h init hinit => ?_⟩
  rw [prefix_nil.1 hinit]
  exact h

/-- The way through a first component and the rest. -/
theorem onTheWay_cons_iff {component : List Char} :
    OnTheWay P p (component :: components) ↔ P p ∧ OnTheWay P (p.enter component) components := by
  constructor
  · intro h
    refine ⟨h.here, fun init hinit => ?_⟩
    exact h (component :: init) (cons_prefix_cons.2 ⟨rfl, hinit⟩)
  · rintro ⟨hp, h⟩ init hinit
    cases init with
    | nil => exact hp
    | cons c init =>
      obtain ⟨rfl, htail⟩ := cons_prefix_cons.1 hinit
      exact h init htail

/-! ## Matching -/

variable {mountdir names : List (List Char)}

theorem matchedCount_of_below (h : mountdir <+: names) :
    matchedCount mountdir names = names.length := if_pos h

theorem matchedCount_of_not_below (h : ¬ mountdir <+: names) :
    matchedCount mountdir names = commonLength names mountdir := if_neg h

theorem matchedCount_of_agree (h : commonLength names mountdir = names.length) :
    matchedCount mountdir names = names.length := by
  rw [matchedCount]
  split
  · rfl
  · exact h

theorem matchedCount_le (mountdir names : List (List Char)) :
    matchedCount mountdir names ≤ names.length := by
  rw [matchedCount]
  split
  · exact Nat.le_refl _
  · exact commonLength_le_left names mountdir

/-- All components of the mount directory are matched exactly below it. -/
theorem le_matchedCount_iff :
    mountdir.length ≤ matchedCount mountdir names ↔ mountdir <+: names := by
  by_cases h : mountdir <+: names
  · rw [matchedCount_of_below h]
    exact iff_of_true h.length_le h
  · rw [matchedCount_of_not_below h]
    exact iff_of_false (Nat.not_le.2 (commonLength_lt_right h)) h

/-- The next component is matched if all before it are and it is the next one of the mount
directory, or behind it. -/
theorem matchedCount_concat (names : List (List Char)) (name : List Char) :
    matchedCount mountdir (names ++ [name]) =
      if matchedCount mountdir names < mountdir.length then
        if matchedCount mountdir names = names.length ∧
          mountdir[matchedCount mountdir names]? = some name then matchedCount mountdir names + 1
        else matchedCount mountdir names
      else matchedCount mountdir names + 1 := by
  by_cases h : mountdir <+: names
  · rw [if_neg (Nat.not_lt.2 (le_matchedCount_iff.2 h)), matchedCount_of_below h,
      matchedCount_of_below (h.trans (prefix_append names [name])), length_append,
      length_singleton]
  · have hlt := commonLength_lt_right h
    have hconcat := commonLength_concat names mountdir name
    rw [matchedCount_of_not_below h, if_pos hlt]
    split
    · next hnext =>
      rw [if_pos ⟨hnext.1, hnext.1 ▸ hnext.2⟩] at hconcat
      rw [matchedCount_of_agree (by rw [hconcat, length_append, length_singleton]),
        length_append, length_singleton, hnext.1]
    · next hnext =>
      rw [if_neg] at hconcat
      · rw [matchedCount_of_not_below, hconcat]
        rw [← commonLength_eq_right_iff, hconcat]
        exact Nat.ne_of_lt hlt
      · rintro ⟨hall, hname⟩
        exact hnext ⟨hall, hall.symm ▸ hname⟩

/-- Without the last component, it is no longer matched. -/
theorem matchedCount_dropLast (hne : names ≠ []) :
    matchedCount mountdir names.dropLast =
      if matchedCount mountdir names = names.length then matchedCount mountdir names - 1
      else matchedCount mountdir names := by
  have hlength : 0 < names.length := length_pos_iff.2 hne
  by_cases hinit : mountdir <+: names.dropLast
  · rw [matchedCount_of_below hinit,
      matchedCount_of_below (hinit.trans (List.dropLast_prefix names)), if_pos rfl,
      length_dropLast]
  · rw [matchedCount_of_not_below hinit, dropLast_eq_take, commonLength_take]
    by_cases h : mountdir <+: names
    · -- the mount directory itself
      have heq : mountdir = names := by
        rw [← dropLast_concat_getLast hne, prefix_concat_iff] at h
        exact (h.resolve_right hinit).trans (dropLast_concat_getLast hne)
      rw [matchedCount_of_below h, if_pos rfl, commonLength_eq_right_iff.2 h, heq]
      omega
    · rw [matchedCount_of_not_below h]
      have hle := commonLength_le_left names mountdir
      split <;> omega

end

/-! ## One round -/

variable {x : UInt32}

/-- The counters do not wrap around. -/
theorem toNat_succ_of_lt (h : x.toNat + 1 < UInt32.size) :
    (x + 1).toNat = x.toNat + 1 := by
  rw [UInt32.toNat_add]
  exact Nat.mod_eq_of_lt h

theorem toNat_pred_of_pos (h : 0 < x.toNat) : (x - 1).toNat = x.toNat - 1 :=
  UInt32.toNat_sub_of_le x 1 (UInt32.le_iff_toNat_le.2 h)

/-- The last slash of a text with a name at its end. -/
theorem findLastSlash_append (text : List Char) {name : List Char} (hname : '/' ∉ name) :
    findLastSlash (text ++ '/' :: name) = some text.length := by
  have hindex : (text ++ '/' :: name).reverse.idxOf '/' = name.length := by
    rw [reverse_append, reverse_cons, append_assoc,
      idxOf_append_of_notMem (by simpa using hname)]
    simp
  rw [findLastSlash, if_pos (by simp), hindex, length_append, length_cons]
  congr 1
  omega

/-- The text of the resolver is that of a path. -/
structure Walks (s : LegacyState) (p : CanonicalPath) : Prop where
  resolved : s.resolved = render '/' p.names
  lastSlash : p ≠ root →
    s.lastSlashPos = some (render '/' p.parent.names).length

/-- The counters of the resolver are those of a path. -/
structure Counts (mountdir : CanonicalPath) (s : LegacyState) (p : CanonicalPath) : Prop where
  resolved : s.resolvedComponents.toNat = p.names.length
  matched : s.matchedComponents.toNat = matchedCount mountdir.names p.names

variable {s : LegacyState} {p : CanonicalPath} {s' : LegacyState} {mountdir : CanonicalPath}

theorem Walks.of_eq (h : Walks s p)
    (hresolved : s'.resolved = s.resolved) (hlast : s'.lastSlashPos = s.lastSlashPos) :
    Walks s' p :=
  ⟨hresolved.trans h.resolved, fun hp => hlast.trans (h.lastSlash hp)⟩

theorem Counts.of_eq
    (h : Counts mountdir s p) (hresolved : s'.resolvedComponents = s.resolvedComponents)
    (hmatched : s'.matchedComponents = s.matchedComponents) : Counts mountdir s' p :=
  ⟨(congrArg UInt32.toNat hresolved).trans h.resolved,
    (congrArg UInt32.toNat hmatched).trans h.matched⟩

/-- The components of the text are the names of the path. -/
theorem Walks.pieces_resolved (h : Walks s p) :
    Separated.pieces '/' s.resolved = p.names := by
  rw [h.resolved]
  exact pieces_render fun name hmem => ⟨(p.isName name hmem).1, (p.isName name hmem).2.1⟩

/-- On a walk, the counters alone decide. -/
theorem Walks.headOk_iff
    (h : Walks s p) : HeadOk mountdir s ↔ Counts mountdir s p := by
  constructor
  · rintro ⟨hresolved, hmatched⟩
    rw [h.pieces_resolved] at hresolved hmatched
    exact ⟨hresolved, hmatched⟩
  · rintro ⟨hresolved, hmatched⟩
    rw [← h.pieces_resolved] at hresolved hmatched
    exact ⟨hresolved, hmatched⟩

/-- The position of the last slash, searched in the text of a path. -/
theorem findLastSlash_render (hp : p ≠ root) :
    findLastSlash (render '/' p.names) =
      some (render '/' p.parent.names).length := by
  have hne : p.names ≠ [] := fun hnil => hp (CanonicalPath.ext hnil)
  have hlast : '/' ∉ p.names.getLast hne := p.not_slash_mem _ (getLast_mem hne)
  conv_lhs => rw [← dropLast_concat_getLast hne, render_append]
  rw [render_cons, render_nil, append_nil]
  exact findLastSlash_append _ hlast

/-- Going back to the last slash takes the last name away. -/
theorem take_render_parent (p : CanonicalPath) :
    (render '/' p.names).take (render '/' p.parent.names).length =
      render '/' p.parent.names := by
  refine (prefix_iff_eq_take.1 ?_).symm
  exact render_prefix_render (List.dropLast_prefix p.names)

section
variable {mountdir : CanonicalPath} {s : LegacyState} {p : CanonicalPath} {s' : LegacyState}
  {name : List Char} {host : HostFs}

/-- The counters go back. -/
theorem Counts.back (h : Counts mountdir s p)
    (hresolved : s'.resolvedComponents =
      if 0 < s.resolvedComponents then s.resolvedComponents - 1 else s.resolvedComponents)
    (hmatched : s'.matchedComponents =
      if 0 < s.resolvedComponents ∧ s.matchedComponents = s.resolvedComponents then
        s.matchedComponents - 1
      else s.matchedComponents) : Counts mountdir s' p.parent := by
  have hpos : 0 < s.resolvedComponents ↔ 0 < p.names.length := by
    rw [UInt32.lt_iff_toNat_lt, h.resolved]
    rfl
  have heq : s.matchedComponents = s.resolvedComponents ↔
      matchedCount mountdir.names p.names = p.names.length := by
    rw [← UInt32.toNat_inj, h.resolved, h.matched]
  by_cases hp : p = root
  · have hparent : p.parent = p := by
      rw [hp]
      rfl
    have hzero : ¬ 0 < s.resolvedComponents := by
      rw [hpos, hp]
      exact Nat.lt_irrefl 0
    rw [if_neg hzero] at hresolved
    rw [if_neg fun hand => hzero hand.1] at hmatched
    rw [hparent]
    exact ⟨hresolved ▸ h.resolved, hmatched ▸ h.matched⟩
  · have hnames : p.names ≠ [] := fun hnil => hp (CanonicalPath.ext hnil)
    have hlength : 0 < p.names.length := length_pos_iff.2 hnames
    constructor
    · rw [hresolved, if_pos (hpos.2 hlength), toNat_pred_of_pos (h.resolved ▸ hlength), h.resolved,
        parent, length_dropLast]
    · rw [hmatched, parent, matchedCount_dropLast hnames]
      simp only [hpos.2 hlength, true_and, heq]
      split
      · next hall =>
        rw [toNat_pred_of_pos, h.matched]
        rw [h.matched, hall]
        exact hlength
      · exact h.matched

/-- Two dots. -/
theorem legacyBack_ok (hwalks : Walks s p) (hcounts : Counts mountdir s p) :
    ∃ s', legacyBack s = .ok s' ∧ Walks s' p.parent ∧ Counts mountdir s' p.parent := by
  by_cases hp : p = root
  · have hresolved : s.resolved = [] := by
      rw [hwalks.resolved, hp]
      rfl
    rw [legacyBack, if_pos hresolved]
    refine ⟨_, rfl, ⟨?_, ?_⟩, hcounts.back rfl rfl⟩
    · rw [hp]
      rfl
    · exact fun hne => absurd (by rw [hp]; rfl) hne
  · have hresolved : s.resolved ≠ [] := by
      rw [hwalks.resolved]
      exact fun hnil => hp (CanonicalPath.ext (render_eq_nil_iff.1 hnil))
    rw [legacyBack, if_neg hresolved, hwalks.lastSlash hp]
    refine ⟨_, rfl, ⟨?_, ?_⟩, hcounts.back rfl rfl⟩
    · exact hwalks.resolved ▸ take_render_parent p
    · intro hparent
      dsimp only
      rw [hwalks.resolved, take_render_parent, findLastSlash_render hparent]

/-- The text of a path with one more name. -/
theorem Walks.child (h : Walks s p) (hname : IsName name)
    (hresolved : s'.resolved = s.resolved ++ '/' :: name)
    (hlast : s'.lastSlashPos = some s.resolved.length) : Walks s' (p.child name hname) := by
  constructor
  · rw [hresolved, h.resolved, CanonicalPath.child]
    simp
  · intro _
    rw [hlast, h.resolved, parent_child]

/-- The counters of a path with one more name, unless there are too many. -/
theorem Counts.child (h : Counts mountdir s p) (hname : IsName name)
    (hfits : p.names.length + 1 < UInt32.size)
    (hresolved : s'.resolvedComponents = s.resolvedComponents + 1)
    (hmatched : s'.matchedComponents =
      if s.matchedComponents.toNat < mountdir.names.length then
        if s.matchedComponents = s.resolvedComponents ∧
          mountdir.names[s.matchedComponents.toNat]? = some name then s.matchedComponents + 1
        else s.matchedComponents
      else s.matchedComponents + 1) : Counts mountdir s' (p.child name hname) := by
  have hle := matchedCount_le mountdir.names p.names
  have hsucc : (s.matchedComponents + 1).toNat = matchedCount mountdir.names p.names + 1 := by
    rw [toNat_succ_of_lt, h.matched]
    rw [h.matched]
    omega
  constructor
  · rw [hresolved, toNat_succ_of_lt (h.resolved ▸ hfits), h.resolved, CanonicalPath.child,
      length_append, length_singleton]
  · rw [hmatched, CanonicalPath.child, matchedCount_concat]
    simp only [← UInt32.toNat_inj, h.matched, h.resolved]
    rw [apply_ite UInt32.toNat, apply_ite UInt32.toNat, hsucc, h.matched]

/-- A path one name below a path that is not below the mount directory is not strictly below it. -/
theorem DirectoriesOutside.lstat_child (hhost : DirectoriesOutside host mountdir)
    (hp : ¬ mountdir.names <+: p.names) (hname : IsName name)
    (hlookup : LookupFits mountdir (p.child name hname)) :
    host.lstat (render '/' p.names ++ '/' :: name) = some .directory := by
  have hroot : p.child name hname ≠ root := by
    intro heq
    exact append_ne_nil_of_right_ne_nil _ (cons_ne_nil name [])
      (congrArg names heq)
  have htext : (p.child name hname).text = render '/' p.names ++ '/' :: name := by
    rw [text_eq_render hroot, child]
    simp
  have hchild : ¬ (mountdir.names <+: (p.child name hname).names ∧
      p.child name hname ≠ mountdir) := by
    rintro ⟨hbelow, hne⟩
    rcases prefix_concat_iff.1 hbelow with heq | hbelow
    · exact hne (CanonicalPath.ext heq.symm)
    · exact hp hbelow
  rw [← htext]
  exact hhost _ hchild (hlookup.resolve_left hchild)

/-- A name. -/
theorem legacyAppend_ok (hhost : DirectoriesOutside host mountdir)
    (resolveLastLink : Bool) (hwalks : Walks s p) (hcounts : Counts mountdir s p)
    (hname : IsName name) (hlookup : LookupFits mountdir (p.child name hname))
    (after : List Char) :
    ∃ s', legacyAppend host mountdir.names resolveLastLink s name after = .ok s' ∧
      Walks s' (p.child name hname) ∧
      (p.names.length + 1 < UInt32.size → Counts mountdir s' (p.child name hname)) := by
  rw [legacyAppend]
  dsimp only
  split
  · next hlt =>
    have hp : ¬ mountdir.names <+: p.names := by
      rw [← le_matchedCount_iff, ← hcounts.matched]
      exact Nat.not_le.2 hlt
    rw [legacyOutside]
    dsimp only
    rw [hwalks.resolved, hhost.lstat_child hp hname hlookup, ← hwalks.resolved]
    refine ⟨_, rfl, hwalks.child hname rfl rfl, fun hfits => ?_⟩
    refine hcounts.child hname hfits rfl ?_
    rw [if_pos hlt]
  · next hnot =>
    refine ⟨_, rfl, hwalks.child hname rfl rfl, fun hfits => ?_⟩
    refine hcounts.child hname hfits rfl ?_
    rw [if_neg hnot]

/-- The loop is left if there are no more components. -/
theorem legacyStep_finished (host : HostFs) (mntComponents : List (List Char))
    (resolveLastLink : Bool) (h : Separated.pieces '/' s.rest = []) :
    legacyStep host mntComponents resolveLastLink s = .error (.finished s) := by
  rw [pieces_eq] at h
  rw [legacyStep]
  split
  · rfl
  · dsimp only
    split at h
    · next hcomp => rw [if_pos hcomp]
    · exact absurd h (cons_ne_nil _ _)

/-- Otherwise the resolver enters the next component. -/
theorem legacyStep_component (hhost : DirectoriesOutside host mountdir)
    (resolveLastLink : Bool) (hwalks : Walks s p) (hcounts : Counts mountdir s p)
    {component : List Char} {components : List (List Char)}
    (h : Separated.pieces '/' s.rest = component :: components)
    (hlookup : LookupFits mountdir (p.enter component)) :
    ∃ s', legacyStep host mountdir.names resolveLastLink s = .ok s' ∧
      Separated.pieces '/' s'.rest = components ∧ Walks s' (p.enter component) ∧
      ((p.enter component).names.length < UInt32.size →
        Counts mountdir s' (p.enter component)) := by
  have hrest : s.rest ≠ [] := by
    intro hnil
    rw [hnil, pieces_nil] at h
    exact cons_ne_nil _ _ h.symm
  have hslash : '/' ∉ component := by
    have hmem : component ∈ Separated.pieces '/' s.rest := h ▸ mem_cons_self
    exact not_mem_of_mem_splitOn (mem_of_mem_filter hmem)
  rw [pieces_eq] at h
  rw [legacyStep, if_neg hrest]
  dsimp only
  split at h
  · exact absurd h (cons_ne_nil _ _).symm
  · next hcomp =>
    rw [if_neg hcomp]
    obtain ⟨hcomponent, hcomponents⟩ := List.cons.inj h
    rw [hcomponent] at hcomp ⊢
    generalize (s.rest.dropWhile (· = '/')).dropWhile (· ≠ '/') = after at hcomponents ⊢
    obtain ⟨s₁, hs₁⟩ : ∃ s₁, ({ s with rest := after.drop 1 } : LegacyState) = s₁ := ⟨_, rfl⟩
    have hrest₁ : s₁.rest = after.drop 1 := by rw [← hs₁]
    have hwalks₁ : Walks s₁ p := hs₁ ▸ hwalks.of_eq rfl rfl
    have hcounts₁ : Counts mountdir s₁ p := hs₁ ▸ hcounts.of_eq rfl rfl
    rw [hs₁]
    rw [← hrest₁] at hcomponents
    split
    · next hdot =>
      have henter : p.enter component = p := by
        rw [hdot]
        rfl
      rw [henter]
      exact ⟨s₁, rfl, hcomponents, hwalks₁, fun _ => hcounts₁⟩
    · next hdot =>
      split
      · next hdots =>
        have henter : p.enter component = p.parent := by
          rw [hdots]
          rfl
        obtain ⟨s', hback, hwalks', hcounts'⟩ := legacyBack_ok hwalks₁ hcounts₁
        have hrest' := legacyBack_rest hback
        rw [henter, hback]
        exact ⟨s', rfl, hrest' ▸ hcomponents, hwalks', fun _ => hcounts'⟩
      · next hdots =>
        have hname : IsName component := ⟨hcomp, hslash, hdot, hdots⟩
        have henter : p.enter component = p.child component hname := dif_pos hname
        obtain ⟨s', happend, hwalks', hcounts'⟩ :=
          legacyAppend_ok hhost resolveLastLink hwalks₁ hcounts₁ hname (henter ▸ hlookup) after
        have hrest' := legacyAppend_rest happend
        rw [henter, happend]
        refine ⟨s', rfl, hrest' ▸ hcomponents, hwalks', fun hfits => ?_⟩
        rw [child, length_append, length_singleton] at hfits
        exact hcounts' hfits

end

end GekkoFS
