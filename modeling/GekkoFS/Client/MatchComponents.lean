import GekkoFS.Client.LegacyCorrect

/-!
# Matching the components of a link target

When the legacy resolver follows a link, it counts the components of the target again:
`match_components` walks over the target and compares each component with the one of the mount
directory at the same place, as long as all before it agree. It reads that component with `at`, so
a target that has all components of the mount directory and more of them makes it throw.

The walk keeps how far the components seen so far agree (`matchLoop_render`). The function is exact
for every target that is not strictly below the mount directory and has fewer than `2 ^ 32`
components, and for no other (`matchesExactly_iff`).
-/

namespace GekkoFS

open CommonPrefix List Separated

/-- The function returns how far a path agrees with some components, and the number of components
of the path. -/
def MatchesExactly (p : CanonicalPath) (components : List (List Char)) : Prop :=
  ∃ matched pathComponents, matchComponents p.text components = some (matched, pathComponents) ∧
    matched.toNat = commonLength p.names components ∧ pathComponents.toNat = p.names.length

/-- The names begin with all the components, and there are more of them. -/
def Overshoots (components names : List (List Char)) : Prop :=
  components <+: names ∧ components.length < names.length

instance (components names : List (List Char)) : Decidable (Overshoots components names) :=
  inferInstanceAs (Decidable (_ ∧ _))

/-! ## The walk -/

section
variable {components seen : List (List Char)}

/-- Names that overshoot do so with more names behind them. -/
theorem Overshoots.append (h : Overshoots components seen) (names : List (List Char)) :
    Overshoots components (seen ++ names) := by
  refine ⟨h.1.trans (prefix_append seen names), ?_⟩
  rw [length_append]
  exact Nat.lt_add_right _ h.2

/-- Names that do not overshoot do so with the next one exactly if they are all the components. -/
theorem overshoots_concat_iff (h : ¬ Overshoots components seen) (name : List Char) :
    Overshoots components (seen ++ [name]) ↔ components = seen := by
  constructor
  · rintro ⟨hinit, hlength⟩
    rw [length_append, length_singleton, Nat.lt_succ_iff] at hlength
    rcases prefix_concat_iff.1 hinit with heq | hseen
    · rw [heq, length_append, length_singleton] at hlength
      exact absurd hlength (Nat.not_succ_le_self _)
    · exact hseen.eq_of_length (Nat.le_antisymm hlength (Nat.not_lt.1 fun hlt => h ⟨hseen, hlt⟩))
  · rintro rfl
    refine ⟨prefix_append components [name], ?_⟩
    rw [length_append, length_singleton]
    exact Nat.lt_succ_self _

/-- While all names agree, there is a next component unless the names are all the components. -/
theorem getElem?_eq_none_iff_of_agree (h : commonLength seen components = seen.length) :
    components[seen.length]? = none ↔ components = seen := by
  have hinit := commonLength_eq_left_iff.1 h
  rw [List.getElem?_eq_none_iff]
  constructor
  · intro hle
    exact (hinit.eq_of_length (Nat.le_antisymm hinit.length_le hle)).symm
  · rintro rfl
    exact Nat.le_refl _

end

/-- Rendered names are nothing or begin with a separator. -/
theorem render_eq_nil_or_cons (names : List (List Char)) :
    render '/' names = [] ∨ ∃ rest, render '/' names = '/' :: rest := by
  cases names with
  | nil => exact .inl rfl
  | cons name names => exact .inr ⟨_, render_cons name names⟩

@[simp] theorem matchLoop_nil (components : List (List Char)) (fuel : Nat)
    (matched processed : UInt32) :
    matchLoop components fuel [] matched processed = some (matched, processed) := by
  cases fuel with
  | zero => rfl
  | succ fuel => rw [matchLoop, if_pos rfl]

/-- One round, for a name behind names that have been compared: it throws if these are all the
components, and goes on with the name compared otherwise. -/
theorem matchLoop_cons {components seen names : List (List Char)} {name : List Char}
    (hname : IsName name) (hlt : seen.length < UInt32.size) (fuel : Nat) :
    matchLoop components (fuel + 1) (name ++ render '/' names)
        (.ofNat (commonLength seen components)) (.ofNat seen.length) =
      if components = seen then none
      else matchLoop components fuel ((render '/' names).drop 1)
        (.ofNat (commonLength (seen ++ [name]) components)) (.ofNat (seen.length + 1)) := by
  have htail := render_eq_nil_or_cons names
  have hle := commonLength_le_left seen components
  have hmatched : (UInt32.ofNat (commonLength seen components)).toNat =
      commonLength seen components := UInt32.toNat_ofNat_of_lt (Nat.lt_of_le_of_lt hle hlt)
  have hseen : (UInt32.ofNat seen.length).toNat = seen.length := UInt32.toNat_ofNat_of_lt hlt
  have hagree : UInt32.ofNat (commonLength seen components) = UInt32.ofNat seen.length ↔
      commonLength seen components = seen.length := by
    rw [← UInt32.toNat_inj, hmatched, hseen]
  rw [matchLoop, if_neg (append_ne_nil_of_left_ne_nil hname.1 _)]
  simp only [takeWhile_name htail hname.2.1, dropWhile_name htail hname.2.1, hagree, hmatched]
  by_cases h : commonLength seen components = seen.length
  · rw [if_pos h, h]
    by_cases hall : components = seen
    · rw [if_pos hall, (getElem?_eq_none_iff_of_agree h).2 hall]
    · rw [if_neg hall, commonLength_concat]
      cases hnext : components[seen.length]? with
      | none => exact absurd ((getElem?_eq_none_iff_of_agree h).1 hnext) hall
      | some component =>
        simp only [h, true_and, Option.some_inj, apply_ite UInt32.ofNat, UInt32.ofNat_add, eq_comm]
        rfl
  · have hall : components ≠ seen := by
      rintro rfl
      exact h (commonLength_eq_left_iff.2 (prefix_refl components))
    rw [if_neg h, if_neg hall, commonLength_concat, if_neg fun hand => h hand.1, UInt32.ofNat_add]
    rfl

/-- The loop, with some names compared and others ahead. -/
theorem matchLoop_render {components seen names : List (List Char)}
    (hnames : ∀ name ∈ names, IsName name) (hseen : ¬ Overshoots components seen)
    (hlt : (seen ++ names).length < UInt32.size) {fuel : Nat}
    (hfuel : ((render '/' names).drop 1).length ≤ fuel) :
    matchLoop components fuel ((render '/' names).drop 1)
        (.ofNat (commonLength seen components)) (.ofNat seen.length) =
      if Overshoots components (seen ++ names) then none
      else some (.ofNat (commonLength (seen ++ names) components),
        .ofNat (seen ++ names).length) := by
  induction names generalizing seen fuel with
  | nil => rw [render_nil, drop_nil, matchLoop_nil, append_nil, if_neg hseen]
  | cons name names ih =>
    have hname := hnames name mem_cons_self
    rw [render_cons, cons_append, drop_one, tail_cons] at hfuel ⊢
    rw [length_append] at hfuel
    have hpos := length_pos_iff.2 hname.1
    obtain ⟨fuel, rfl⟩ : ∃ k, fuel = k + 1 := Nat.exists_eq_add_one.2 (by omega)
    have hshort : seen.length < UInt32.size :=
      Nat.lt_of_le_of_lt (prefix_append seen (name :: names)).length_le hlt
    rw [append_cons] at hlt ⊢
    rw [matchLoop_cons hname hshort]
    by_cases hall : components = seen
    · have hover := (overshoots_concat_iff hseen name).2 hall
      rw [if_pos hall, if_pos (hover.append names)]
    · have hover := mt (overshoots_concat_iff hseen name).1 hall
      have hrest : ((render '/' names).drop 1).length ≤ fuel := by
        rw [length_drop]
        omega
      rw [if_neg hall]
      have hlength : (seen ++ [name]).length = seen.length + 1 := length_append
      rw [← hlength]
      exact ih (fun name' hmem => hnames name' (mem_cons_of_mem name hmem)) hover hlt hrest

/-- What the function computes for a path with fewer than `2 ^ 32` components. -/
theorem matchComponents_text {p : CanonicalPath} (components : List (List Char))
    (hlt : p.names.length < UInt32.size) :
    matchComponents p.text components =
      if Overshoots components p.names then none
      else some (.ofNat (commonLength p.names components), .ofNat p.names.length) := by
  have hempty : ¬ Overshoots components [] := fun h => Nat.not_lt_zero _ h.2
  have hdrop : p.text.drop 1 = (render '/' p.names).drop 1 := by
    by_cases hroot : p = CanonicalPath.root
    · rw [hroot]
      rfl
    · rw [CanonicalPath.text_eq_render hroot]
  have hfuel : ((render '/' p.names).drop 1).length ≤ p.text.length := by
    rw [← hdrop, length_drop]
    exact Nat.sub_le _ _
  have hloop := matchLoop_render p.isName hempty hlt hfuel
  rw [commonLength_nil_left] at hloop
  rw [matchComponents, hdrop]
  exact hloop

/-! ## When the function is right -/

/-- The function returns how far a canonical path agrees with the components exactly if the path
does not have all of them and more, and its components can be counted. -/
theorem matchesExactly_iff (p : CanonicalPath) (components : List (List Char)) :
    MatchesExactly p components ↔
      p.names.length < UInt32.size ∧ ¬ Overshoots components p.names := by
  constructor
  · rintro ⟨matched, pathComponents, heq, -, hcount⟩
    have hlt : p.names.length < UInt32.size := hcount ▸ pathComponents.toNat_lt_size
    refine ⟨hlt, fun hover => ?_⟩
    rw [matchComponents_text components hlt, if_pos hover] at heq
    exact nomatch heq
  · rintro ⟨hlt, hover⟩
    refine ⟨_, _, (matchComponents_text components hlt).trans (if_neg hover), ?_, ?_⟩
    · exact UInt32.toNat_ofNat_of_lt (Nat.lt_of_le_of_lt (commonLength_le_left _ _) hlt)
    · exact UInt32.toNat_ofNat_of_lt hlt

/-- The path `/mnt/gkfs/a` with the components of the mount directory `/mnt/gkfs`. -/
theorem matchComponents_overshot :
    ¬ MatchesExactly ⟨["mnt".toList, "gkfs".toList, "a".toList], by decide⟩
      ["mnt".toList, "gkfs".toList] := by
  rintro ⟨matched, pathComponents, heq, -⟩
  have hthrows : matchComponents "/mnt/gkfs/a".toList ["mnt".toList, "gkfs".toList] = none := by
    decide
  exact nomatch hthrows.symm.trans heq

/-! ## Following a link -/

end GekkoFS
