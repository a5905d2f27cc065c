import GekkoFS.Lib.Separated

/-!
# Canonical absolute paths

A canonical absolute path is a list of names, none of which is empty, has a slash in it or is one
of the two dot names; it is written as a slash and the names with single slashes between them. The
canonical form of an absolute path is what one arrives at from the root by entering its names one
after another (`canonicalForm`).

This is what the client, the daemons and the tools mean by a path; none of them has a type for it.
-/

namespace GekkoFS

open List Separated

/-- A name that can stand in a canonical path. -/
def IsName (name : List Char) : Prop :=
  name ≠ [] ∧ '/' ∉ name ∧ name ≠ ['.'] ∧ name ≠ ['.', '.']

instance (name : List Char) : Decidable (IsName name) :=
  inferInstanceAs (Decidable (name ≠ [] ∧ '/' ∉ name ∧ name ≠ ['.'] ∧ name ≠ ['.', '.']))

/-- The path with the given names. -/
def pathOf (names : List (List Char)) : List Char := '/' :: ['/'].intercalate names

@[simp] theorem pathOf_nil : pathOf [] = ['/'] := rfl

theorem pathOf_cons (name : List Char) (names : List (List Char)) :
    pathOf (name :: names) = render '/' (name :: names) :=
  cons_intercalate name names

/-- A canonical absolute path. -/
@[ext] structure CanonicalPath where
  /-- The names, from the root on. -/
  names : List (List Char)
  isName : ∀ name ∈ names, IsName name
  deriving DecidableEq

namespace CanonicalPath

/-- The path as it is written. -/
def text (p : CanonicalPath) : List Char := pathOf p.names

/-- The path `/`. -/
def root : CanonicalPath := ⟨[], fun _ h => absurd h not_mem_nil⟩

/-- A name below a path. -/
def child (p : CanonicalPath) (name : List Char) (h : IsName name) : CanonicalPath :=
  ⟨p.names ++ [name], by
    intro name' hmem
    rcases mem_append.1 hmem with hmem | hmem
    · exact p.isName name' hmem
    · rw [mem_singleton.1 hmem]
      exact h⟩

/-- The path above a path; the root is above itself. -/
def parent (p : CanonicalPath) : CanonicalPath :=
  ⟨p.names.dropLast, fun name hmem => p.isName name (mem_of_mem_dropLast hmem)⟩

theorem parent_child (p : CanonicalPath) {name : List Char} (h : IsName name) :
    (p.child name h).parent = p := CanonicalPath.ext dropLast_concat

/-- Where a name leads to from a path: the two dots to the path above, an empty name or one dot
nowhere. -/
def enter (p : CanonicalPath) (name : List Char) : CanonicalPath :=
  if h : IsName name then p.child name h else if name = ['.', '.'] then p.parent else p

theorem not_slash_mem (p : CanonicalPath) : ∀ name ∈ p.names, '/' ∉ name := fun name hmem =>
  (p.isName name hmem).2.1

/-- A path other than the root is its names, each behind a slash. -/
theorem text_eq_render {p : CanonicalPath} (h : p ≠ root) :
    p.text = render '/' p.names := by
  rcases p with ⟨names, hnames⟩
  cases names with
  | nil => exact absurd rfl h
  | cons name names => exact pathOf_cons name names

/-- Entering names one after another appends them. -/
theorem foldl_enter {names : List (List Char)} (h : ∀ name ∈ names, IsName name)
    (p : CanonicalPath) : (names.foldl enter p).names = p.names ++ names := by
  induction names generalizing p with
  | nil => rw [foldl_nil, append_nil]
  | cons name names ih =>
    rw [foldl_cons, ih (fun name' hmem => h name' (mem_cons_of_mem name hmem)),
      enter, dif_pos (h name mem_cons_self), child, append_assoc, singleton_append]

end CanonicalPath

/-- The canonical form of an absolute path. -/
def canonicalForm (absolutePath : List Char) : CanonicalPath :=
  (absolutePath.splitOn '/').foldl CanonicalPath.enter CanonicalPath.root

example : (canonicalForm "/a//b/./../c".toList).text = "/a/c".toList := by decide

/-- A canonical path is its own canonical form. -/
theorem canonicalForm_text (p : CanonicalPath) : canonicalForm p.text = p := by
  by_cases hnames : p.names = []
  · rw [show p = CanonicalPath.root from CanonicalPath.ext hnames]
    decide
  · have hroot : p ≠ CanonicalPath.root := fun heq => hnames (congrArg CanonicalPath.names heq)
    refine CanonicalPath.ext ?_
    rw [canonicalForm, CanonicalPath.text_eq_render hroot,
      splitOn_render p.not_slash_mem, foldl_cons]
    exact CanonicalPath.foldl_enter p.isName CanonicalPath.root

/-- A canonical path is determined by its text. -/
theorem CanonicalPath.text_injective : Function.Injective CanonicalPath.text :=
  Function.LeftInverse.injective canonicalForm_text

end GekkoFS
