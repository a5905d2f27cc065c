import GekkoFS.Common.Metadata

/-!
# Which entries are read back unchanged

`Metadata::serialize` prints the size as an unsigned word, but the constructor reads it with
`std::stol`, which throws from `2 ^ 63` on; and it writes the two paths without escaping the
separator, of which the constructor takes the last one as the border between them. `roundTrips_iff`
says that these two are all that can go wrong: an entry is read back unchanged exactly if its size
is below `2 ^ 63` and, in a build that stores it, its rename path has no separator. A separator in
the target path does no harm.
-/

namespace GekkoFS

open Decimal List

namespace Metadata

/-- The text of an entry can be read, and every field that the build keeps is the one written. -/
def RoundTrips (cfg : MetadataConfig) (md : Metadata) : Prop :=
  ∃ md', parse cfg (md.serialize cfg) = some md' ∧ md'.kept cfg = md.kept cfg

/-- What follows the last separator of a text has no separator. -/
theorem MSP_not_mem_splitLast {text : List Char} (h : MSP ∈ text) :
    MSP ∉ (splitLast text).2 := by
  rw [splitLast, if_pos h]
  intro hmem
  have htrue := mem_takeWhile_imp (mem_reverse.1 hmem)
  exact absurd rfl (of_decide_eq_true htrue)

/-- An entry is read back unchanged exactly if its size is below `2 ^ 63` and its rename path, in a
build with renaming, has no separator. -/
theorem roundTrips_iff (cfg : MetadataConfig) (md : Metadata) (h : md.InRange) :
    RoundTrips cfg md ↔
      md.size < 2 ^ 63 ∧ (cfg.hasSymlinks && cfg.hasRename → MSP ∉ md.renamePath) := by
  constructor
  · rintro ⟨md', hparse, hkept⟩
    have hsize : md.size < 2 ^ 63 := (sizes_of_parse_serialize hparse).1
    refine ⟨hsize, fun hon hmem => ?_⟩
    obtain ⟨hsym, hren⟩ := Bool.and_eq_true_iff.1 hon
    rw [parse_serialize_paths cfg h hsize] at hparse
    cases hparse
    have hrename := congrArg Metadata.renamePath hkept
    simp only [kept, readPaths, writePaths, writeField, hsym, hren, Bool.and_self, if_true,
      drop_succ_cons, drop_zero] at hrename
    rw [← hrename] at hmem
    exact MSP_not_mem_splitLast (by simp) hmem
  · rintro ⟨hsize, hsep⟩
    refine ⟨_, parse_serialize_paths cfg h hsize, ?_⟩
    rw [readPaths_writePaths cfg hsep]
    exact kept_kept cfg md

/-! ## What the constructor accepts -/

section
variable {cfg : MetadataConfig} {text ptr rest : List Char} {md : Metadata}

theorem isLong_of_stol {l : List Char} {z : Int} {read : Nat} (h : stol l = some (z, read)) :
    IsLong z := by
  obtain ⟨x, -, hx⟩ := Option.bind_eq_some_iff.1 h
  rw [IsLong]
  split at hx
  · split at hx
    · cases hx; omega
    · cases hx
  · split at hx
    · cases hx; omega
    · cases hx

/-- A reader of fields that consumes a part of the text and yields values in a range. -/
def Reads {α : Type} (read : List Char → Option (α × List Char)) (range : α → Prop) : Prop :=
  ∀ {ptr v rest}, read ptr = some (v, rest) → range v ∧ rest <:+ ptr

theorem reads_readLong : Reads readLong IsLong := by
  intro ptr v rest h
  obtain ⟨⟨z, n⟩, hz, heq⟩ := Option.map_eq_some_iff.1 h
  cases heq
  exact ⟨isLong_of_stol hz, (drop_suffix _ _).trans (drop_suffix _ _)⟩

theorem reads_readULong : Reads readULong (· < 2 ^ 64) := by
  intro ptr v rest h
  obtain ⟨⟨n, read⟩, hn, heq⟩ := Option.map_eq_some_iff.1 h
  cases heq
  exact ⟨stoul_lt hn, (drop_suffix _ _).trans (drop_suffix _ _)⟩

theorem reads_readField {α : Type} [Zero α] {read : List Char → Option (α × List Char)}
    {range : α → Prop} (use : Bool) (h : Reads read range) (hzero : range 0) :
    Reads (readField use read) range := by
  intro ptr v rest heq
  cases use with
  | false => cases heq; exact ⟨hzero, suffix_rfl⟩
  | true => exact h heq

theorem mem_of_mem_splitLast {c : Char} :
    (c ∈ (splitLast text).1 → c ∈ text) ∧ (c ∈ (splitLast text).2 → c ∈ text) := by
  rw [splitLast]
  split
  · constructor <;> intro h
    · exact mem_reverse.1 (dropWhile_sublist _ |>.mem
        (mem_of_mem_drop (mem_reverse.1 h)))
    · exact mem_reverse.1 (takeWhile_sublist _ |>.mem (mem_reverse.1 h))
  · exact ⟨id, id⟩

/-- The paths that are read from a C string are C strings, and the second has no separator. -/
theorem readPaths_ok (cfg : MetadataConfig) (h : '\x00' ∉ ptr) :
    '\x00' ∉ (readPaths cfg ptr).1 ∧ '\x00' ∉ (readPaths cfg ptr).2 ∧
      MSP ∉ (readPaths cfg ptr).2 := by
  have hdrop : '\x00' ∉ ptr.drop 1 := fun hmem => h (mem_of_mem_drop hmem)
  rw [readPaths]
  cases cfg.hasSymlinks with
  | false => simp
  | true =>
    cases cfg.hasRename with
    | false => simpa using hdrop
    | true =>
      refine ⟨fun hmem => hdrop (mem_of_mem_splitLast.1 hmem),
        fun hmem => hdrop (mem_of_mem_splitLast.2 hmem), ?_⟩
      by_cases hsep : MSP ∈ ptr.drop 1
      · exact MSP_not_mem_splitLast hsep
      · exact fun hmem => hsep (mem_of_mem_splitLast.2 hmem)

theorem nul_not_mem_cstr (l : List Char) : '\x00' ∉ cstr l := fun h => by
  have htrue := mem_takeWhile_imp h
  exact absurd rfl (of_decide_eq_true htrue)

theorem readHead_suffix {mode : Nat} {size : Int} (h : readHead ptr = some (mode, size, rest)) :
    rest <:+ ptr := by
  obtain ⟨r, -, hr⟩ := Option.bind_eq_some_iff.1 h
  obtain ⟨q, hq, heq⟩ := Option.map_eq_some_iff.1 hr
  cases heq
  exact (reads_readLong hq).2.trans (drop_suffix _ _)

/-- What the constructor accepts is an entry that can be stored, unless a negative number was read
as its size. -/
theorem storable_of_parse (h : parse cfg text = some md) (hsize : md.size < 2 ^ 63) :
    md.Storable := by
  have hzero : IsLong 0 := by decide
  obtain ⟨⟨mode, size, ptr⟩, hhead, htail⟩ := Option.bind_eq_some_iff.1 h
  simp only [readTail, Option.bind_eq_bind, Option.bind_eq_some_iff, Option.pure_def,
    Option.some.injEq] at htail
  obtain ⟨⟨atime, p₁⟩, h₁, ⟨mtime, p₂⟩, h₂, ⟨ctime, p₃⟩, h₃, ⟨linkCount, p₄⟩, h₄, ⟨blocks, p₅⟩, h₅,
    rfl⟩ := htail
  obtain ⟨hatime, hp₁⟩ := reads_readField cfg.useAtime reads_readLong hzero h₁
  obtain ⟨hmtime, hp₂⟩ := reads_readField cfg.useMtime reads_readLong hzero h₂
  obtain ⟨hctime, hp₃⟩ := reads_readField cfg.useCtime reads_readLong hzero h₃
  obtain ⟨hlink, hp₄⟩ := reads_readField cfg.useLinkCnt reads_readULong (by decide) h₄
  obtain ⟨hblocks, hp₅⟩ := reads_readField cfg.useBlocks reads_readLong hzero h₅
  have hsuffix : p₅ <:+ cstr text :=
    hp₅.trans (hp₄.trans (hp₃.trans (hp₂.trans (hp₁.trans (readHead_suffix hhead)))))
  obtain ⟨htarget, hrename, hsep⟩ :=
    readPaths_ok cfg fun hmem => nul_not_mem_cstr text (hsuffix.mem hmem)
  exact {
    mode := Nat.mod_lt _ (by decide), size := hsize, atime := hatime, mtime := hmtime
    ctime := hctime, linkCount := hlink, blocks := hblocks, targetPath := htarget
    renamePath := hrename, separator := hsep }

/-- The parts around the last separator make up the text. -/
theorem splitLast_join (h : MSP ∈ text) :
    (splitLast text).1 ++ MSP :: (splitLast text).2 = text := by
  have hdrop : text.reverse.dropWhile (· ≠ MSP) =
      MSP :: (text.reverse.dropWhile (· ≠ MSP)).drop 1 := by
    have hne : text.reverse.dropWhile (· ≠ MSP) ≠ [] := fun hnil => by
      have hall := dropWhile_eq_nil_iff.1 hnil MSP (mem_reverse.2 h)
      exact absurd rfl (of_decide_eq_true hall)
    have hhead := head_dropWhile_not (· ≠ MSP) hne
    obtain ⟨c, rest, hcons⟩ := exists_cons_of_ne_nil hne
    simp only [hcons, head_cons, decide_eq_false_iff_not, not_not] at hhead
    rw [hcons, hhead]
    rfl
  rw [splitLast, if_pos h]
  apply reverse_injective
  rw [reverse_append, reverse_cons, reverse_reverse, reverse_reverse,
    append_assoc, singleton_append, ← hdrop, takeWhile_append_dropWhile]

/-- The paths that are read are written as the same text. -/
theorem writePaths_readPaths (cfg : MetadataConfig) (target rename : List Char) :
    writePaths cfg (readPaths cfg (writePaths cfg target rename)).1
      (readPaths cfg (writePaths cfg target rename)).2 = writePaths cfg target rename := by
  rw [readPaths, writePaths, writePaths]
  cases cfg.hasSymlinks with
  | false => rfl
  | true =>
    cases cfg.hasRename with
    | false => simp [writeField]
    | true =>
      have hmem : MSP ∈ target ++ MSP :: rename := by simp
      have hjoin := splitLast_join hmem
      simpa [writeField] using hjoin

/-- An entry whose size can be read is stored as the text of an entry that survives, which differs
from what is kept of it in the paths at most. -/
theorem InRange.exists_storable (cfg : MetadataConfig) (h : md.InRange) (hsize : md.size < 2 ^ 63) :
    ∃ md' : Metadata, md'.Storable ∧ md'.serialize cfg = md.serialize cfg ∧ md'.size = md.size := by
  refine ⟨_, storable_of_parse (parse_serialize_paths cfg h hsize) hsize, ?_, rfl⟩
  rw [← serialize_kept cfg md, serialize, serialize, writePaths_readPaths, writePaths_kept]

end

/-- A text that is written again as it is when it is read. -/
def Canonical (cfg : MetadataConfig) (text : List Char) : Prop :=
  (parse cfg text).map (serialize cfg) = some text

instance (cfg : MetadataConfig) (text : List Char) : Decidable (Canonical cfg text) :=
  inferInstanceAs (Decidable (_ = _))

/-- Such a text is that of an entry that can be stored. -/
theorem Canonical.storable {cfg : MetadataConfig} {text : List Char} (h : Canonical cfg text) :
    ∃ md : Metadata, md.Storable ∧ md.serialize cfg = text := by
  obtain ⟨md, hmd, htext⟩ := Option.map_eq_some_iff.1 h
  refine ⟨md, storable_of_parse hmd ?_, htext⟩
  -- the size was printed and read back, so it is in the range of `std::stol`
  rw [← htext] at hmd
  exact (sizes_of_parse_serialize hmd).1

/-- The switches of a build that stores everything. -/
def allFields : MetadataConfig := ⟨true, true, true, true, true, true, true⟩

/-- A link that was renamed, with a separator in its target path and the largest size that can be
read. -/
def renamedLink : Metadata where
  atime := 1
  mtime := -1
  ctime := 0
  mode := 41471
  linkCount := 1
  size := 2 ^ 63 - 1
  blocks := -1
  targetPath := "/a|b".toList
  renamePath := "/c".toList

theorem inRange_renamedLink : renamedLink.InRange := by
  constructor <;> decide

theorem roundTrips_iff_renamedLink : RoundTrips allFields renamedLink :=
  (roundTrips_iff allFields renamedLink inRange_renamedLink).2 ⟨by decide, fun _ => by decide⟩

/-- A file renamed to a name with a separator is read back with two other paths, and a size of
`2 ^ 63` is not read back at all. -/
theorem roundTrip_fails :
    (({ renamedLink with renamePath := "/c|d".toList } : Metadata).InRange ∧
      ¬ RoundTrips allFields { renamedLink with renamePath := "/c|d".toList }) ∧
    ({ renamedLink with size := 2 ^ 63 } : Metadata).InRange ∧
      ¬ RoundTrips allFields { renamedLink with size := 2 ^ 63 } := by
  have hname : ({ renamedLink with renamePath := "/c|d".toList } : Metadata).InRange :=
    { inRange_renamedLink with renamePath := by decide }
  have hsize : ({ renamedLink with size := 2 ^ 63 } : Metadata).InRange :=
    { inRange_renamedLink with size := by decide }
  refine ⟨⟨hname, ?_⟩, hsize, ?_⟩
  · rintro ⟨md', hparse, hkept⟩
    rw [parse_serialize_paths allFields hname (by decide)] at hparse
    cases hparse
    exact absurd hkept (by decide)
  · rintro ⟨md', hparse, -⟩
    exact absurd (sizes_of_parse_serialize hparse).1 (Nat.lt_irrefl _)

end Metadata

end GekkoFS
