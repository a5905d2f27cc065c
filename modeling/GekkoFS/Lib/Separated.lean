import Mathlib.Data.List.Infix

/-!
# Lists of pieces behind separators

`render s cs` writes a separator `s` before each of the pieces `cs`. If no piece has the separator
in it, then a rendered list is an initial part of another one in two cases only: its pieces are
the first pieces of the other, or they are up to the last, which the piece of the other in its
place extends (`render_prefix_iff`).

`pieces s xs` are the pieces of a list that are not empty. A rendered list has the pieces it was
rendered from (`pieces_render`), and the pieces can be read from left to right (`pieces_eq`).

A list in which one separator is replaced by another can be read back exactly if it did not have the
other one before (`map_replace_back_iff`).
-/

namespace Separated

open List

variable {α : Type*} {s : α} {cs ds : List (List α)} {c : List α}

/-- The pieces, each behind a separator. -/
def render (s : α) (cs : List (List α)) : List α := cs.flatMap (s :: ·)

@[simp] theorem render_nil : render s [] = [] := rfl

@[simp] theorem render_cons (c : List α) (cs : List (List α)) :
    render s (c :: cs) = s :: c ++ render s cs := flatMap_cons

@[simp] theorem render_append (cs ds : List (List α)) :
    render s (cs ++ ds) = render s cs ++ render s ds := flatMap_append

/-- Only the empty list of pieces is rendered as nothing. -/
theorem render_eq_nil_iff : render s cs = [] ↔ cs = [] := by
  cases cs with
  | nil => simp
  | cons c cs => simp

/-- The pieces with the separator between them are the rendered pieces without the first
separator. -/
theorem cons_intercalate (c : List α) (cs : List (List α)) :
    s :: [s].intercalate (c :: cs) = render s (c :: cs) := by
  induction cs generalizing c with
  | nil => simp
  | cons d cs ih =>
    rw [intercalate_cons_cons, render_cons, ← ih d, append_assoc, singleton_append,
      cons_append]

/-- No piece that a list is cut into has the separator in it. -/
theorem not_mem_of_mem_splitOn [DecidableEq α] {xs : List α} (h : c ∈ xs.splitOn s) : s ∉ c := by
  rw [splitOn_eq_splitOnP] at h
  induction xs generalizing c with
  | nil =>
    rw [splitOnP_nil, mem_singleton] at h
    rw [h]
    exact not_mem_nil
  | cons x xs ih =>
    rw [splitOnP_cons_eq_if_modifyHead] at h
    split at h
    · rcases mem_cons.1 h with rfl | h
      · exact not_mem_nil
      · exact ih h
    · next hx =>
      obtain ⟨d, ds, hds⟩ := exists_cons_of_ne_nil (splitOnP_ne_nil (· == s) xs)
      rw [hds, modifyHead_cons] at h
      rw [hds] at ih
      rcases mem_cons.1 h with rfl | h
      · rw [mem_cons, not_or]
        exact ⟨fun hs => hx (beq_iff_eq.2 hs.symm), ih mem_cons_self⟩
      · exact ih (mem_cons_of_mem _ h)

/-- Rendered pieces are cut again, with an empty piece before the first separator. -/
theorem splitOn_render [DecidableEq α] (hcs : ∀ c ∈ cs, s ∉ c) :
    (render s cs).splitOn s = [] :: cs := by
  have hrender : render s cs = [s].intercalate ([] :: cs) := by
    cases cs with
    | nil => rfl
    | cons c cs =>
      rw [← cons_intercalate, intercalate_cons_cons]
      rfl
  rw [hrender, splitOn_intercalate s _ (cons_ne_nil _ _)]
  intro c hmem
  rcases mem_cons.1 hmem with rfl | hmem
  · exact not_mem_nil
  · exact hcs c hmem

/-! ## Initial parts -/

/-- A text without the separator that a piece and the pieces after it start with is a part of that
piece. -/
theorem prefix_of_append_render {d : List α} (hc : s ∉ c)
    (h : c <+: d ++ render s ds) : c <+: d := by
  rcases List.prefix_or_prefix_of_prefix h (prefix_append d _) with hcd | ⟨x, rfl⟩
  · exact hcd
  · rw [prefix_append_right_inj] at h
    cases x with
    | nil => rw [append_nil]
    | cons y x =>
      cases ds with
      | nil => exact absurd (prefix_nil.1 h) (cons_ne_nil y x)
      | cons e ds =>
        -- what follows the piece is a separator, which the text does not have
        rw [render_cons, cons_append] at h
        rw [(cons_prefix_cons.1 h).1] at hc
        exact absurd (mem_append_right d mem_cons_self) hc

/-- A piece with more pieces behind it is the first piece of a text that starts with them. -/
theorem eq_of_append_render_prefix {d e : List α} (hc : s ∉ c)
    (hd : s ∉ d) (h : c ++ render s (e :: cs) <+: d ++ render s ds) :
    c = d ∧ render s (e :: cs) <+: render s ds := by
  obtain ⟨x, rfl⟩ := prefix_of_append_render hc ((prefix_append c _).trans h)
  rw [append_assoc, prefix_append_right_inj] at h
  cases x with
  | nil => exact ⟨(append_nil c).symm, h⟩
  | cons y x =>
    rw [render_cons, cons_append, cons_append] at h
    rw [← (cons_prefix_cons.1 h).1] at hd
    exact absurd (mem_append_right c mem_cons_self) hd

/-- The pieces `cs` are the first of the pieces `ds` but for the last of them, in whose place `ds`
has a longer one that starts with it. -/
def LastExtended (cs ds : List (List α)) : Prop :=
  ∃ init last ext rest, ext ≠ [] ∧ cs = init ++ [last] ∧ ds = init ++ (last ++ ext) :: rest

/-- A component is put in front of both paths. -/
theorem LastExtended.cons {cs ds : List (List α)} (h : LastExtended cs ds) (c : List α) :
    LastExtended (c :: cs) (c :: ds) := by
  obtain ⟨init, last, ext, rest, hext, rfl, rfl⟩ := h
  exact ⟨c :: init, last, ext, rest, hext, rfl, rfl⟩

/-- Pieces of which the last is extended are not the first pieces. -/
theorem LastExtended.not_prefix (h : LastExtended cs ds) :
    ¬ cs <+: ds := by
  obtain ⟨init, last, ext, rest, hext, rfl, rfl⟩ := h
  intro hprefix
  rw [prefix_append_right_inj] at hprefix
  have hlast : last ++ [] = last ++ ext := by
    rw [append_nil]
    exact (cons_prefix_cons.1 hprefix).1
  exact hext (append_cancel_left hlast).symm

/-- The text of the one path starts that of the other. -/
theorem LastExtended.render_prefix (h : LastExtended cs ds) :
    render s cs <+: render s ds := by
  obtain ⟨init, last, ext, rest, -, rfl, rfl⟩ := h
  rw [render_append, render_append, prefix_append_right_inj, render_cons, render_cons,
    render_nil, append_nil, ← cons_append, append_assoc]
  exact prefix_append _ _

/-- The text of the first components starts that of all. -/
theorem render_prefix_render (h : cs <+: ds) :
    render s cs <+: render s ds := by
  obtain ⟨rest, rfl⟩ := h
  rw [render_append]
  exact prefix_append _ _

/-- When a rendered list is an initial part of another one. -/
theorem render_prefix_iff (hcs : ∀ c ∈ cs, s ∉ c) (hds : ∀ d ∈ ds, s ∉ d) :
    render s cs <+: render s ds ↔ cs <+: ds ∨ LastExtended cs ds := by
  constructor
  · intro h
    induction cs generalizing ds with
    | nil => exact .inl List.nil_prefix
    | cons c cs ih =>
      cases ds with
      | nil => exact absurd (render_eq_nil_iff.1 (prefix_nil.1 h)) (cons_ne_nil c cs)
      | cons d ds =>
        have hc : s ∉ c := hcs c mem_cons_self
        have hd : s ∉ d := hds d mem_cons_self
        rw [render_cons, render_cons, cons_append, cons_append,
          cons_prefix_cons] at h
        cases cs with
        | nil =>
          rw [render_nil, append_nil] at h
          obtain ⟨ext, rfl⟩ := prefix_of_append_render hc h.2
          by_cases hext : ext = []
          · rw [hext, append_nil]
            exact .inl (cons_prefix_cons.2 ⟨rfl, List.nil_prefix⟩)
          · exact .inr ⟨[], c, ext, ds, hext, rfl, rfl⟩
        | cons e cs =>
          obtain ⟨rfl, hrest⟩ := eq_of_append_render_prefix hc hd h.2
          rcases ih (fun x hx => hcs x (mem_cons_of_mem _ hx))
              (fun x hx => hds x (mem_cons_of_mem _ hx)) hrest with hprefix | hext
          · exact .inl (cons_prefix_cons.2 ⟨rfl, hprefix⟩)
          · exact .inr (hext.cons c)
  · rintro (h | h)
    · exact render_prefix_render h
    · exact h.render_prefix

/-! ## The pieces of a list -/

section
variable [DecidableEq α]

/-- The pieces of a list between its separators, without the empty ones. -/
def pieces (s : α) (xs : List α) : List (List α) := (xs.splitOn s).filter (· ≠ [])

@[simp] theorem pieces_nil : pieces s [] = [] := rfl

/-- A separator in front is passed over. -/
@[simp] theorem pieces_cons_separator (xs : List α) : pieces s (s :: xs) = pieces s xs := by
  rw [pieces, splitOn_eq_splitOnP, splitOnP_cons_eq_if_modifyHead,
    if_pos (beq_self_eq_true s), filter_cons_of_neg (by simp), pieces,
    splitOn_eq_splitOnP]

/-- A list without the separator is one piece. -/
theorem pieces_of_not_mem {c : List α} (hne : c ≠ []) (hc : s ∉ c) : pieces s c = [c] := by
  have hsplit : ([s].intercalate [c]).splitOn s = [c] := by
    refine splitOn_intercalate s ?_ (cons_ne_nil c [])
    intro d hd
    rw [mem_singleton.1 hd]
    exact hc
  rw [intercalate_singleton] at hsplit
  rw [pieces, hsplit, filter_cons_of_pos (by simpa using hne), filter_nil]

/-- The piece in front of a separator is the first one. -/
theorem pieces_append_separator {c : List α} (hne : c ≠ []) (hc : s ∉ c) (xs : List α) :
    pieces s (c ++ s :: xs) = c :: pieces s xs := by
  have hfalse : ∀ x ∈ c, (x == s) = false := fun x hx =>
    beq_eq_false_iff_ne.2 fun heq => hc (heq ▸ hx)
  rw [pieces, splitOn_eq_splitOnP,
    splitOnP_append_cons_of_forall_mem hfalse s (beq_self_eq_true s),
    filter_cons_of_pos (by simpa using hne), pieces, splitOn_eq_splitOnP]

/-- Rendered pieces are read back. -/
theorem pieces_render {cs : List (List α)} (hcs : ∀ c ∈ cs, c ≠ [] ∧ s ∉ c) :
    pieces s (render s cs) = cs := by
  rw [pieces, splitOn_render fun c hc => (hcs c hc).2, filter_cons_of_neg (by simp),
    filter_eq_self]
  exact fun c hc => decide_eq_true (hcs c hc).1

/-- Separators in front are passed over. -/
theorem pieces_dropWhile (xs : List α) : pieces s (xs.dropWhile (· = s)) = pieces s xs := by
  induction xs with
  | nil => rfl
  | cons x xs ih =>
    by_cases hx : x = s
    · rw [hx, dropWhile_cons_of_pos (by simp), ih, pieces_cons_separator]
    · rw [dropWhile_cons_of_neg (by simpa using hx)]

/-- The first piece, if there is one, stands behind the separators in front and goes up to the next
separator. -/
theorem pieces_eq (xs : List α) :
    pieces s xs =
      if (xs.dropWhile (· = s)).takeWhile (· ≠ s) = [] then []
      else (xs.dropWhile (· = s)).takeWhile (· ≠ s) ::
        pieces s (((xs.dropWhile (· = s)).dropWhile (· ≠ s)).drop 1) := by
  rw [← pieces_dropWhile]
  obtain ⟨ys, hys⟩ : ∃ ys, xs.dropWhile (· = s) = ys := ⟨_, rfl⟩
  have hhead : ∀ y, ys.head? = some y → y ≠ s := by
    intro y hy
    have hnot := head?_dropWhile_not (· = s) xs
    rw [hys, hy] at hnot
    simpa using hnot
  rw [hys]
  split
  · next hnil =>
    cases ys with
    | nil => rfl
    | cons y ys => simp [hhead y rfl] at hnil
  · next hne =>
    have hmem : s ∉ ys.takeWhile (· ≠ s) := fun h => by
      simpa using all_eq_true.1 (all_takeWhile (p := (· ≠ s)) (l := ys)) s h
    conv_lhs => rw [← takeWhile_append_dropWhile (p := (· ≠ s)) (l := ys)]
    cases hafter : ys.dropWhile (· ≠ s) with
    | nil => rw [append_nil, pieces_of_not_mem hne hmem, drop_nil, pieces_nil]
    | cons y after =>
      have hy : y = s := by
        have hnot := head?_dropWhile_not (· ≠ s) ys
        rw [hafter, head?_cons] at hnot
        simpa using hnot
      rw [hy, pieces_append_separator hne hmem, drop_one, tail_cons]

end

/-! ## Another separator -/

section
variable [DecidableEq α] {a b : α}

/-- What is replaced everywhere is gone. -/
theorem not_mem_map_replace (hne : a ≠ b) (xs : List α) :
    a ∉ xs.map fun x => if x = a then b else x := by
  intro h
  obtain ⟨x, -, hx⟩ := mem_map.1 h
  split at hx
  · exact hne hx.symm
  · next hxa => exact hxa hx

/-- Replacing a separator and replacing it back gives the list, if the new separator was not in
it. -/
theorem map_replace_back {xs : List α} (h : b ∉ xs) :
    (xs.map fun x => if x = a then b else x).map (fun x => if x = b then a else x) = xs := by
  rw [map_map]
  refine (map_congr_left fun x hx => ?_).trans (map_id xs)
  rw [Function.comp_apply, id_eq]
  by_cases hxa : x = a
  · rw [if_pos hxa, if_pos rfl, hxa]
  · rw [if_neg hxa, if_neg]
    rintro rfl
    exact h hx

/-- A replacement is undone if the new value was not there. -/
theorem map_replace_back_iff (hne : a ≠ b) {xs : List α} :
    (xs.map fun x => if x = a then b else x).map (fun x => if x = b then a else x) = xs ↔
      b ∉ xs := by
  constructor
  · intro h
    rw [← h]
    exact not_mem_map_replace hne.symm _
  · exact map_replace_back

end

end Separated
