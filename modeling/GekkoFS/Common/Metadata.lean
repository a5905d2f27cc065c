import Mathlib.Data.List.TakeWhile
import GekkoFS.Common.Arithmetic
import GekkoFS.Lib.Decimal

/-!
# Metadata entries

The value that a metadata daemon stores for a path is a `Metadata` record written as text: its
fields in decimal, separated by bars, of which the build's switches select some. `serialize` writes
a record and `parse` is the constructor that reads one back, with the asserts of the source left
out as they are in a release build; it throws (here: `none`) exactly where one of its
string-to-integer calls does.

The main result is `parse_serialize`: a record whose numbers fit their types, whose size is below
`2 ^ 63` and whose paths hold no character that the format gives a meaning to is read back with
every field that the build keeps. `sizes_of_parse_serialize` needs none of this: if a written record
can be read at all, its size is the one written.
-/

namespace GekkoFS

open Decimal List

/-- The switches that select which fields are stored. Source: `gkfs::config::metadata`
(`config.hpp:100`) and the macros `HAS_SYMLINKS` and `HAS_RENAME`. -/
structure MetadataConfig where
  useAtime : Bool
  useMtime : Bool
  useCtime : Bool
  useLinkCnt : Bool
  useBlocks : Bool
  hasSymlinks : Bool
  hasRename : Bool
  deriving DecidableEq, Repr

/-- The switches of a build without options. -/
def MetadataConfig.default : MetadataConfig := ⟨false, false, false, false, false, false, false⟩

/-- A metadata entry. Source: `Metadata` (`metadata.hpp:47`). -/
structure Metadata where
  atime : Int
  mtime : Int
  ctime : Int
  mode : Nat
  linkCount : Nat
  size : Nat
  blocks : Int
  targetPath : List Char
  renamePath : List Char
  deriving DecidableEq, Repr

/-- The metadata separator. Source: `MSP` (`metadata.cpp:44`). -/
def MSP : Char := '|'

/-- The file type bits of a mode. Source: `S_IFMT` of `sys/stat.h`. -/
def fileType (mode : Nat) : Nat := mode &&& 0xF000

/-- Whether a mode is that of a directory. Source: `S_ISDIR` of `sys/stat.h`. -/
def isDir (mode : Nat) : Bool := fileType mode = 0x4000

/-- Whether a mode is that of a regular file. Source: `S_ISREG` of `sys/stat.h`. -/
def isReg (mode : Nat) : Bool := fileType mode = 0x8000

theorem isDir_of_isReg {mode : Nat} (h : isReg mode = true) : isDir mode = false := by
  have hreg : fileType mode = 0x8000 := of_decide_eq_true h
  rw [isDir, hreg]
  rfl

/-- The text of a C string: the characters before the first NUL. -/
def cstr (l : List Char) : List Char := l.takeWhile fun c => c ≠ '\x00'

namespace Metadata

/-- A new entry of a mode, with the time `now` in the fields that the build keeps.
Source: `Metadata::Metadata(mode_t)` with `init_time` (`metadata.cpp:73`). -/
def ofMode (cfg : MetadataConfig) (now : Int) (mode : Nat) : Metadata where
  atime := if cfg.useAtime then now else 0
  mtime := if cfg.useMtime then now else 0
  ctime := if cfg.useCtime then now else 0
  mode := mode
  linkCount := 0
  size := 0
  blocks := 0
  targetPath := []
  renamePath := []

/-- A field that is written only if a switch is on. -/
def writeField (use : Bool) (text : List Char) : List Char := if use then MSP :: text else []

/-- The paths at the end of an entry. -/
def writePaths (cfg : MetadataConfig) (targetPath renamePath : List Char) : List Char :=
  writeField cfg.hasSymlinks (targetPath ++ writeField cfg.hasRename renamePath)

/-- The text of an entry. Source: `Metadata::serialize` (`metadata.cpp:182`). -/
def serialize (cfg : MetadataConfig) (md : Metadata) : List Char :=
  ofNat md.mode ++ MSP :: (ofNat md.size ++
    (writeField cfg.useAtime (ofInt md.atime) ++
    (writeField cfg.useMtime (ofInt md.mtime) ++
    (writeField cfg.useCtime (ofInt md.ctime) ++
    (writeField cfg.useLinkCnt (ofNat md.linkCount) ++
    (writeField cfg.useBlocks (ofInt md.blocks) ++
    writePaths cfg md.targetPath md.renamePath))))))

/-- A signed field after a separator: its value, and what follows it. -/
def readLong (ptr : List Char) : Option (Int × List Char) :=
  (stol (ptr.drop 1)).map fun r => (r.1, (ptr.drop 1).drop r.2)

/-- An unsigned field after a separator: its value, and what follows it. -/
def readULong (ptr : List Char) : Option (Nat × List Char) :=
  (stoul (ptr.drop 1)).map fun r => (r.1, (ptr.drop 1).drop r.2)

/-- A field that is read only if a switch is on, and is zero otherwise. -/
def readField {α : Type} [Zero α] (use : Bool) (read : List Char → Option (α × List Char))
    (ptr : List Char) : Option (α × List Char) :=
  if use then read ptr else some (0, ptr)

/-- Split a text at its last separator, where `find_last_of` finds one. Without a separator the
unsigned arithmetic on `npos` leaves the whole text in both parts. -/
def splitLast (text : List Char) : List Char × List Char :=
  if MSP ∈ text then
    (((text.reverse.dropWhile (· ≠ MSP)).drop 1).reverse,
      (text.reverse.takeWhile (· ≠ MSP)).reverse)
  else (text, text)

/-- The paths at the end of an entry: target path and rename path. -/
def readPaths (cfg : MetadataConfig) (ptr : List Char) : List Char × List Char :=
  if cfg.hasSymlinks then
    if cfg.hasRename then splitLast (ptr.drop 1) else (ptr.drop 1, [])
  else ([], [])

/-- The mandatory fields at the front of an entry, mode and size, and what follows them. -/
def readHead (ptr : List Char) : Option (Nat × Int × List Char) :=
  (stoul ptr).bind fun r => (readLong (ptr.drop r.2)).map fun q => (r.1, q.1, q.2)

/-- The fields that follow mode and size. -/
def readTail (cfg : MetadataConfig) (mode : Nat) (size : Int) (ptr : List Char) :
    Option Metadata := do
  let (atime, ptr) ← readField cfg.useAtime readLong ptr
  let (mtime, ptr) ← readField cfg.useMtime readLong ptr
  let (ctime, ptr) ← readField cfg.useCtime readLong ptr
  let (linkCount, ptr) ← readField cfg.useLinkCnt readULong ptr
  let (blocks, ptr) ← readField cfg.useBlocks readLong ptr
  let (targetPath, renamePath) := readPaths cfg ptr
  return {
    mode := u32 mode
    size := (size % 2 ^ 64).toNat
    atime, mtime, ctime, linkCount, blocks, targetPath, renamePath }

/-- Read an entry from its text. Source: `Metadata::Metadata(const std::string&)`
(`metadata.cpp:106`). -/
def parse (cfg : MetadataConfig) (binaryStr : List Char) : Option Metadata :=
  (readHead (cstr binaryStr)).bind fun r => readTail cfg r.1 r.2.1 r.2.2

/-! ## Reading a written entry back -/

/-- The fields of an entry that the build keeps. -/
def kept (cfg : MetadataConfig) (md : Metadata) : Metadata where
  atime := if cfg.useAtime then md.atime else 0
  mtime := if cfg.useMtime then md.mtime else 0
  ctime := if cfg.useCtime then md.ctime else 0
  mode := md.mode
  linkCount := if cfg.useLinkCnt then md.linkCount else 0
  size := md.size
  blocks := if cfg.useBlocks then md.blocks else 0
  targetPath := if cfg.hasSymlinks then md.targetPath else []
  renamePath := if cfg.hasSymlinks && cfg.hasRename then md.renamePath else []

/-- Nothing more is dropped the second time. -/
theorem kept_kept (cfg : MetadataConfig) (md : Metadata) :
    (md.kept cfg).kept cfg = md.kept cfg := by
  have hfield : ∀ {α : Type} (use : Bool) (x y : α),
      (if use then (if use then x else y) else y) = if use then x else y := by
    intro α use x y
    cases use <;> rfl
  simp only [kept, hfield]

theorem writePaths_kept (cfg : MetadataConfig) (md : Metadata) :
    writePaths cfg (md.kept cfg).targetPath (md.kept cfg).renamePath =
      writePaths cfg md.targetPath md.renamePath := by
  rw [writePaths, writePaths, kept]
  cases cfg.hasSymlinks with
  | false => rfl
  | true => cases cfg.hasRename <;> rfl

/-- The text of an entry has only what the build keeps of it. -/
theorem serialize_kept (cfg : MetadataConfig) (md : Metadata) :
    (md.kept cfg).serialize cfg = md.serialize cfg := by
  have hfield : ∀ {α : Type} (use : Bool) (x y : α) (text : α → List Char),
      writeField use (text (if use then x else y)) = writeField use (text x) := by
    intro α use x y text
    cases use <;> rfl
  rw [serialize, writePaths_kept]
  simp only [kept, hfield, serialize]

/-- A signed 64-bit value. -/
def IsLong (z : Int) : Prop := -2 ^ 63 ≤ z ∧ z < 2 ^ 63

instance (z : Int) : Decidable (IsLong z) := inferInstanceAs (Decidable (_ ∧ _))

/-- An entry whose numbers fit their types and whose paths are C strings. -/
structure InRange (md : Metadata) : Prop where
  mode : md.mode < 2 ^ 32
  size : md.size < 2 ^ 64
  atime : IsLong md.atime
  mtime : IsLong md.mtime
  ctime : IsLong md.ctime
  linkCount : md.linkCount < 2 ^ 64
  blocks : IsLong md.blocks
  targetPath : '\x00' ∉ md.targetPath
  renamePath : '\x00' ∉ md.renamePath

/-- An entry that survives being stored: its numbers fit their types, `std::stol` can read its
size, and its paths hold no NUL and its rename path no separator. -/
structure Storable (md : Metadata) : Prop where
  mode : md.mode < 2 ^ 32
  size : md.size < 2 ^ 63
  atime : IsLong md.atime
  mtime : IsLong md.mtime
  ctime : IsLong md.ctime
  linkCount : md.linkCount < 2 ^ 64
  blocks : IsLong md.blocks
  targetPath : '\x00' ∉ md.targetPath
  renamePath : '\x00' ∉ md.renamePath
  separator : MSP ∉ md.renamePath

variable {md : Metadata} {l rest text : List Char} {cfg : MetadataConfig}

theorem Storable.inRange (h : md.Storable) : md.InRange :=
  { h with size := Nat.lt_trans h.size (by decide) }

/-- The fields that the build keeps of a storable entry are a storable entry. -/
theorem Storable.kept (h : md.Storable) (cfg : MetadataConfig) :
    (md.kept cfg).Storable := by
  have hzero : IsLong 0 := by decide
  constructor
  case mode => exact h.mode
  case size => exact h.size
  case atime => show IsLong (if _ then _ else _); split; exacts [h.atime, hzero]
  case mtime => show IsLong (if _ then _ else _); split; exacts [h.mtime, hzero]
  case ctime => show IsLong (if _ then _ else _); split; exacts [h.ctime, hzero]
  case linkCount => show (if _ then _ else _) < 2 ^ 64; split; exacts [h.linkCount, by decide]
  case blocks => show IsLong (if _ then _ else _); split; exacts [h.blocks, hzero]
  case targetPath => show _ ∉ (if _ then _ else _); split; exacts [h.targetPath, by simp]
  case renamePath => show _ ∉ (if _ then _ else _); split; exacts [h.renamePath, by simp]
  case separator => show _ ∉ (if _ then _ else _); split; exacts [h.separator, by simp]

/-- A new entry is storable. -/
theorem storable_ofMode (cfg : MetadataConfig) {now : Int} (hnow : IsLong now) {mode : Nat}
    (hmode : mode < 2 ^ 32) : (ofMode cfg now mode).Storable := by
  have hzero : IsLong 0 := by decide
  constructor
  case mode => exact hmode
  case size => show 0 < 2 ^ 63; decide
  case atime => show IsLong (if _ then _ else _); split; exacts [hnow, hzero]
  case mtime => show IsLong (if _ then _ else _); split; exacts [hnow, hzero]
  case ctime => show IsLong (if _ then _ else _); split; exacts [hnow, hzero]
  case linkCount => show 0 < 2 ^ 64; decide
  case blocks => exact hzero
  case targetPath => exact not_mem_nil
  case renamePath => exact not_mem_nil
  case separator => exact not_mem_nil

/-- A text that is empty or goes on with a separator. -/
def AtSep (l : List Char) : Prop := l = [] ∨ ∃ t, l = MSP :: t

theorem AtSep.stops (h : AtSep l) : Stops l := by
  rcases h with rfl | ⟨t, rfl⟩
  · exact Stops.nil
  · exact Stops.cons (by decide)

/-- A field starts with a separator. -/
theorem AtSep.writeField (use : Bool) (text : List Char) (h : AtSep l) :
    AtSep (writeField use text ++ l) := by
  cases use with
  | false => exact h
  | true => exact .inr ⟨_, rfl⟩

/-- So do the paths. -/
theorem AtSep.writePaths (cfg : MetadataConfig) (targetPath renamePath : List Char) :
    AtSep (writePaths cfg targetPath renamePath) := by
  rw [Metadata.writePaths]
  cases cfg.hasSymlinks with
  | false => exact .inl rfl
  | true => exact .inr ⟨_, rfl⟩

/-- An integer field is read back. -/
theorem readLong_ofInt {z : Int} (hz : IsLong z) (h : AtSep rest) :
    readLong (MSP :: (ofInt z ++ rest)) = some (z, rest) := by
  rw [readLong, drop_succ_cons, drop_zero, stol_ofInt hz.1 hz.2 h.stops]
  simp

/-- A field without sign is read back. -/
theorem readULong_ofNat {n : Nat} (hn : n < 2 ^ 64) (h : AtSep rest) :
    readULong (MSP :: (ofNat n ++ rest)) = some (n, rest) := by
  rw [readULong, drop_succ_cons, drop_zero, stoul_ofNat n h.stops, if_pos hn]
  simp

/-- A written field is read back if a switch selects it, and skipped by both sides otherwise. -/
theorem readField_writeField {α : Type} [Zero α] {read : List Char → Option (α × List Char)} {v : α}
    (use : Bool)
    (h : read (MSP :: (text ++ rest)) = some (v, rest)) :
    readField use read (writeField use text ++ rest) = some (if use then v else 0, rest) := by
  cases use with
  | false => rfl
  | true => exact h

/-- The last separator of a text is the one before a part without separators. -/
theorem splitLast_append (target rename : List Char) (h : MSP ∉ rename) :
    splitLast (target ++ MSP :: rename) = (target, rename) := by
  have hrev : (target ++ MSP :: rename).reverse = rename.reverse ++ MSP :: target.reverse := by
    simp
  have hall : ∀ c ∈ rename.reverse, (decide (c ≠ MSP)) = true := fun c hc => by
    rw [decide_eq_true_eq]
    rintro rfl
    exact h (mem_reverse.1 hc)
  rw [splitLast, if_pos (by simp), hrev, takeWhile_append_of_pos hall,
    dropWhile_append_of_pos hall, takeWhile_cons_of_neg (by simp),
    dropWhile_cons_of_neg (by simp)]
  simp

/-- The two paths are read back. -/
theorem readPaths_writePaths (cfg : MetadataConfig) {target rename : List Char}
    (h : cfg.hasSymlinks && cfg.hasRename → MSP ∉ rename) :
    readPaths cfg (writePaths cfg target rename) =
      (if cfg.hasSymlinks then target else [],
        if cfg.hasSymlinks && cfg.hasRename then rename else []) := by
  rw [readPaths, writePaths]
  cases hsym : cfg.hasSymlinks with
  | false => rfl
  | true =>
    cases hren : cfg.hasRename with
    | false => simp [writeField]
    | true =>
      have hsep : MSP ∉ rename := h (by rw [hsym, hren]; rfl)
      simpa [writeField] using splitLast_append target rename hsep

/-! ## The text of an entry is a C string -/

theorem cstr_eq_self (h : '\x00' ∉ l) : cstr l = l := by
  rw [cstr, takeWhile_eq_self_iff]
  intro c hc
  rw [decide_eq_true_eq]
  rintro rfl
  exact h hc

theorem nul_not_mem_ofNat (n : Nat) : '\x00' ∉ ofNat n := fun h => by
  have hdigit : '\x00'.isDigit = true := Nat.isDigit_of_mem_toDigits (by omega) (by omega) h
  exact absurd hdigit (by decide)

theorem nul_not_mem_ofInt (z : Int) : '\x00' ∉ ofInt z := by
  rw [ofInt]
  split
  · simp [nul_not_mem_ofNat]
  · exact nul_not_mem_ofNat _

theorem nul_not_mem_writeField (use : Bool) (h : '\x00' ∉ text) :
    '\x00' ∉ writeField use text := by
  cases use with
  | false => exact not_mem_nil
  | true => simp [writeField, MSP, h]

/-- A serialized entry has no NUL. -/
theorem nul_not_mem_serialize (cfg : MetadataConfig)
    (ht : '\x00' ∉ md.targetPath) (hr : '\x00' ∉ md.renamePath) : '\x00' ∉ md.serialize cfg := by
  have hpaths : '\x00' ∉ writePaths cfg md.targetPath md.renamePath := by
    refine nul_not_mem_writeField _ ?_
    simp [ht, nul_not_mem_writeField _ hr]
  simp [serialize, MSP, hpaths, nul_not_mem_ofNat, nul_not_mem_ofInt, nul_not_mem_writeField]

/-! ## The round trip -/

/-- Mode and size are read back from the front of a text, if they are in the range of `std::stoul`
and of `std::stol`. -/
theorem readHead_append (mode size : Nat) (h : AtSep rest) :
    readHead (ofNat mode ++ MSP :: (ofNat size ++ rest)) =
      if mode < 2 ^ 64 ∧ size < 2 ^ 63 then some (mode, (size : Int), rest) else none := by
  rw [readHead, stoul_ofNat mode (Stops.cons (by decide))]
  by_cases hm : mode < 2 ^ 64
  · rw [if_pos hm, Option.bind_some, drop_left, readLong, drop_succ_cons,
      drop_zero, stol_ofNat size h.stops]
    by_cases hs : size < 2 ^ 63
    · rw [if_pos hs, if_pos ⟨hm, hs⟩]; simp
    · rw [if_neg hs, if_neg fun h => hs h.2]; simp
  · rw [if_neg hm, if_neg fun h => hm h.1, Option.bind_none]

/-- An entry whose size `std::stol` can read is read back with the numbers that the build keeps, and
with the paths that the search for the last separator makes of those written. -/
theorem parse_serialize_paths (cfg : MetadataConfig) (h : md.InRange)
    (hsize : md.size < 2 ^ 63) : parse cfg (md.serialize cfg) =
      some { md.kept cfg with
        targetPath := (readPaths cfg (writePaths cfg md.targetPath md.renamePath)).1
        renamePath := (readPaths cfg (writePaths cfg md.targetPath md.renamePath)).2 } := by
  have hpaths := AtSep.writePaths cfg md.targetPath md.renamePath
  have hblocks := hpaths.writeField cfg.useBlocks (ofInt md.blocks)
  have hlink := hblocks.writeField cfg.useLinkCnt (ofNat md.linkCount)
  have hctime := hlink.writeField cfg.useCtime (ofInt md.ctime)
  have hmtime := hctime.writeField cfg.useMtime (ofInt md.mtime)
  have hatime := hmtime.writeField cfg.useAtime (ofInt md.atime)
  have hm : md.mode < 2 ^ 64 := by have := h.mode; omega
  have hu32 : u32 md.mode = md.mode := Nat.mod_eq_of_lt h.mode
  have hsz : ((md.size : Int) % 2 ^ 64).toNat = md.size := by omega
  rw [parse, cstr_eq_self (nul_not_mem_serialize cfg h.targetPath h.renamePath), serialize,
    readHead_append _ _ hatime, if_pos ⟨hm, hsize⟩, Option.bind_some, readTail]
  simp only [Option.bind_eq_bind, Option.bind_some,
    readField_writeField cfg.useAtime (readLong_ofInt h.atime hmtime),
    readField_writeField cfg.useMtime (readLong_ofInt h.mtime hctime),
    readField_writeField cfg.useCtime (readLong_ofInt h.ctime hlink),
    readField_writeField cfg.useLinkCnt (readULong_ofNat h.linkCount hblocks),
    readField_writeField cfg.useBlocks (readLong_ofInt h.blocks hpaths), hu32, hsz]
  rfl

/-- A storable entry is read back with every field that the build keeps. -/
theorem parse_serialize (cfg : MetadataConfig) (h : md.Storable) :
    parse cfg (md.serialize cfg) = some (md.kept cfg) := by
  rw [parse_serialize_paths cfg h.inRange h.size, readPaths_writePaths cfg fun _ => h.separator]
  rfl

/-! ## The size of a written entry -/

theorem cstr_append (h : '\x00' ∉ l) (rest : List Char) :
    cstr (l ++ rest) = l ++ cstr rest := by
  rw [cstr, takeWhile_append_of_pos, cstr]
  intro c hc
  rw [decide_eq_true_eq]
  rintro rfl
  exact h hc

theorem AtSep.cstr (h : AtSep l) : AtSep (cstr l) := by
  rcases h with rfl | ⟨t, rfl⟩
  · exact .inl rfl
  · exact .inr ⟨GekkoFS.cstr t, takeWhile_cons_of_pos (by decide)⟩

/-- The size is the one that was read. -/
theorem size_of_readTail {mode : Nat} {size : Int} {ptr : List Char}
    (h : readTail cfg mode size ptr = some md) :
    md.size = (size % 2 ^ 64).toNat := by
  simp only [readTail, Option.bind_eq_bind, Option.bind_eq_some_iff, Option.pure_def,
    Option.some.injEq] at h
  obtain ⟨_, _, _, _, _, _, _, _, _, _, rfl⟩ := h
  rfl

/-- The size of an entry that was read is a 64-bit word. -/
theorem size_lt_of_parse (h : parse cfg text = some md) : md.size < 2 ^ 64 := by
  obtain ⟨r, -, hr⟩ := Option.bind_eq_some_iff.1 h
  rw [size_of_readTail hr]
  omega

/-- A written entry that can be read has a size below `2 ^ 63`, and it is the size that was written,
whatever the other fields. -/
theorem sizes_of_parse_serialize {md' : Metadata}
    (h : parse cfg (md.serialize cfg) = some md') : md.size < 2 ^ 63 ∧ md'.size = md.size := by
  obtain ⟨rest, hrest, hsep⟩ : ∃ rest, md.serialize cfg =
      ofNat md.mode ++ MSP :: (ofNat md.size ++ rest) ∧ AtSep rest :=
    ⟨_, rfl, ((((((AtSep.writePaths ..).writeField ..).writeField ..).writeField ..).writeField
      ..).writeField ..)⟩
  have hcstr : cstr (md.serialize cfg) =
      ofNat md.mode ++ MSP :: (ofNat md.size ++ cstr rest) := by
    rw [hrest, cstr_append (nul_not_mem_ofNat _), ← singleton_append,
      cstr_append (l := [MSP]) (by decide), cstr_append (nul_not_mem_ofNat _),
      singleton_append]
  rw [parse, hcstr, readHead_append _ _ hsep.cstr] at h
  split at h
  · next hlt =>
    rw [Option.bind_some] at h
    refine ⟨hlt.2, ?_⟩
    rw [size_of_readTail h]
    show ((md.size : Int) % 2 ^ 64).toNat = md.size
    omega
  · cases h

end Metadata

end GekkoFS
