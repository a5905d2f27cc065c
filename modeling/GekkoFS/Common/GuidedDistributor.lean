import GekkoFS.Common.IntervalSet
import GekkoFS.Common.SimpleHashDistributor
import GekkoFS.Lib.Decimal

/-!
# The guided distributor

`GuidedDistributor` reads a file that lists hosts for chunks of files, and prefixes of paths whose
chunks go to the host of their metadata; everything else is placed by hash. The lines are folded
into one interval set and one host for each path.

The first line of a path stores its chunk and the one behind it, a later line is taken only if its
chunk lies in the stored set, and the host of the last line that was taken is used for all chunks of
the path; a lookup of a chunk before the first one of its path is undefined. Once there is a prefix,
the loop over the prefixes returns in its first round, whether the prefix matches or not.

What the maps hold for a path depends on the lines about it only (`mapInterval_initGuided`).
-/

namespace GekkoFS

open Function List

/-- A line of the file: a path, or a prefix behind a number sign, a chunk id and a host. Source:
`init_guided` (`distributor.cpp:206`). -/
structure GuidedLine where
  path : List Char
  chunkId : UInt32
  destinationHost : UInt32
  deriving DecidableEq

namespace GuidedLine

/-- The line gives a prefix. Source: `init_guided` (`distributor.cpp:209`). -/
def isPrefix (line : GuidedLine) : Bool := line.path.head? = some '#'

end GuidedLine

/-- The members that lookups use. Source: `GuidedDistributor` (`distributor.hpp:190`). -/
structure GuidedDistributor where
  hostsSize : UInt32
  mapInterval : List Char → Option (IntervalSet × Nat)
  prefixList : List (List Char)

namespace GuidedDistributor

/-- The interval set and the host of a path after a line about it. The host is stored plus one.
Source: `init_guided` (`distributor.cpp:217`). -/
def addLine (entry : Option (IntervalSet × Nat)) (line : GuidedLine) :
    Option (IntervalSet × Nat) :=
  let chunkId := line.chunkId.toNat
  let stored := u32 (line.destinationHost.toNat + 1)
  match entry with
  | none => some (IntervalSet.empty.add chunkId (u32 (chunkId + 1)), stored)
  | some (is, host) =>
    (is.isInsideInterval chunkId).map fun inside =>
      if inside then (is.add chunkId (u32 (chunkId + 1)), stored) else (is, host)

/-- Read one line. It is undefined if the lookup of its chunk is. Source: `init_guided`
(`distributor.cpp:206`). -/
def initLine (g : GuidedDistributor) (line : GuidedLine) : Option GuidedDistributor :=
  if line.isPrefix then some { g with prefixList := g.prefixList ++ [line.path.tail] }
  else
    (addLine (g.mapInterval line.path) line).map fun entry =>
      { g with mapInterval := update g.mapInterval line.path (some entry) }

/-- The maps after the lines of the file; without a file there are no lines. Source: `init_guided`
(`distributor.cpp:197`) and the constructor `GuidedDistributor` (`distributor.cpp:236`). -/
def initGuided (hostsSize : UInt32) (lines : List GuidedLine) : Option GuidedDistributor :=
  lines.foldlM initLine ⟨hostsSize, fun _ => none, []⟩

/-- The host that is stored plus one. Source: `locate_data` (`distributor.cpp:281`). -/
def destination (stored : Nat) : Nat := (stored + 2 ^ 32 - 1) % 2 ^ 32

variable (strHash : List Char → Nat) (g : GuidedDistributor)

/-- A hash with a copy number, modulo the number of hosts, as in the simple hash distributor. -/
def select (hash numCopy : Nat) : Option Nat :=
  (SimpleHashDistributor.ofSize g.hostsSize).select hash numCopy

/-- The host of a chunk by hash. The body of the comparison with a prefix is empty, so the loop
returns in its first round. Source: `locate_data` (`distributor.cpp:286`). -/
def locateByHash (path : List Char) (chnkId : UInt32) (numCopy : Nat) : Option Nat :=
  match g.prefixList with
  | [] => g.select (strHash (path ++ Nat.toDigits 10 chnkId.toNat)) numCopy
  | _ :: _ => g.select (strHash path) 0

/-- The host of a chunk. Source: `locate_data` (`distributor.cpp:275`). -/
def locateData (path : List Char) (chnkId : UInt32) (numCopy : Nat) : Option Nat :=
  match g.mapInterval path with
  | none => g.locateByHash strHash path chnkId numCopy
  | some (is, host) =>
    (is.isInsideInterval chnkId.toNat).bind fun inside =>
      if inside then some (destination host) else g.locateByHash strHash path chnkId numCopy

end GuidedDistributor

/-! ## What the file says -/

/-- A file with at most one host for a path and a chunk. -/
structure GuidedConfig where
  lines : List GuidedLine
  oneHost : ∀ line ∈ lines, ∀ line' ∈ lines, line.isPrefix = false → line'.path = line.path →
    line'.chunkId = line.chunkId → line'.destinationHost = line.destinationHost

namespace GuidedConfig

/-- A line lists a host for a chunk of a path. -/
def Listed (config : GuidedConfig) (path : List Char) (chnkId : UInt32) (host : Nat) : Prop :=
  ∃ line ∈ config.lines, line.isPrefix = false ∧ line.path = path ∧ line.chunkId = chnkId ∧
    line.destinationHost.toNat = host

/-- A line gives a prefix that the path starts with. -/
def Prefixed (config : GuidedConfig) (path : List Char) : Prop :=
  ∃ line ∈ config.lines, line.isPrefix = true ∧ line.path.tail <+: path

theorem Listed.eq {config : GuidedConfig} {path : List Char} {chnkId : UInt32} {host host' : Nat}
    (h : config.Listed path chnkId host) (h' : config.Listed path chnkId host') : host = host' := by
  obtain ⟨line, hmem, hdata, hpath, hchunk, rfl⟩ := h
  obtain ⟨line', hmem', -, hpath', hchunk', rfl⟩ := h'
  rw [config.oneHost line hmem line' hmem' hdata (hpath'.trans hpath.symm)
    (hchunk'.trans hchunk.symm)]

end GuidedConfig

/-- The host that the distributor gives for a chunk, once it has read the file. -/
def guidedHost (strHash : List Char → Nat) (hostsSize : UInt32) (config : GuidedConfig)
    (path : List Char) (chnkId : UInt32) (numCopy : Nat) : Option Nat :=
  (GuidedDistributor.initGuided hostsSize config.lines).bind fun g =>
    g.locateData strHash path chnkId numCopy

/-- The lookup of a chunk follows the file, for every hash function, number of hosts and copy: it
gives the listed host, else the host of the metadata if the path starts with a prefix, else the host
of the simple hash distributor. -/
structure FollowsConfig (config : GuidedConfig) (path : List Char) (chnkId : UInt32) : Prop where
  listed : ∀ host, config.Listed path chnkId host → ∀ strHash hostsSize numCopy,
    guidedHost strHash hostsSize config path chnkId numCopy = some host
  prefixed : (∀ host, ¬ config.Listed path chnkId host) → config.Prefixed path →
    ∀ strHash hostsSize numCopy, guidedHost strHash hostsSize config path chnkId numCopy =
      (SimpleHashDistributor.ofSize hostsSize).locateFileMetadata strHash path 0
  hashed : (∀ host, ¬ config.Listed path chnkId host) → ¬ config.Prefixed path →
    ∀ strHash hostsSize numCopy, guidedHost strHash hostsSize config path chnkId numCopy =
      (SimpleHashDistributor.ofSize hostsSize).locateData strHash path chnkId.toNat numCopy

/-! ## Reading the lines -/

namespace GuidedDistributor

theorem foldlM_initLine_concat (g : GuidedDistributor) (lines : List GuidedLine)
    (line : GuidedLine) :
    (lines ++ [line]).foldlM initLine g = (lines.foldlM initLine g).bind (initLine · line) := by
  rw [foldlM_append]
  cases lines.foldlM initLine g with
  | none => rfl
  | some g' =>
    show (initLine g' line >>= pure) = initLine g' line
    rw [bind_pure]

variable {hostsSize : UInt32} {lines : List GuidedLine} {g : GuidedDistributor}

/-- What holds before the first line and is kept by each line holds after the file. -/
theorem initGuided_induction {P : List GuidedLine → GuidedDistributor → Prop}
    (hstart : P [] ⟨hostsSize, fun _ => none, []⟩)
    (hmatch : ∀ lines line g, P lines g → line.isPrefix = true →
      P (lines ++ [line]) { g with prefixList := g.prefixList ++ [line.path.tail] })
    (hdata : ∀ lines line g entry, P lines g → line.isPrefix = false →
      addLine (g.mapInterval line.path) line = some entry → P (lines ++ [line])
        { g with mapInterval := update g.mapInterval line.path (some entry) })
    (h : initGuided hostsSize lines = some g) : P lines g := by
  induction lines using List.reverseRecOn generalizing g with
  | nil =>
    cases h
    exact hstart
  | append_singleton lines line ih =>
    rw [initGuided, foldlM_initLine_concat] at h
    obtain ⟨g', hg', hline⟩ := Option.bind_eq_some_iff.1 h
    rw [initLine] at hline
    split at hline
    · next hgives =>
      cases hline
      exact hmatch lines line g' (ih hg') hgives
    · next hgives =>
      obtain ⟨entry, hentry, rfl⟩ := Option.map_eq_some_iff.1 hline
      exact hdata lines line g' entry (ih hg') (Bool.eq_false_iff.2 hgives) hentry

/-- Reading the file keeps the number of hosts. -/
theorem hostsSize_initGuided (h : initGuided hostsSize lines = some g) : g.hostsSize = hostsSize :=
  initGuided_induction (P := fun _ g => g.hostsSize = hostsSize) rfl (fun _ _ _ ih _ => ih)
    (fun _ _ _ _ ih _ _ => ih) h

/-- The prefixes are those of the lines that give one. -/
theorem prefixList_initGuided (h : initGuided hostsSize lines = some g) :
    g.prefixList = (lines.filter GuidedLine.isPrefix).map (·.path.tail) := by
  refine initGuided_induction (P := fun lines g => g.prefixList =
    (lines.filter GuidedLine.isPrefix).map (·.path.tail)) rfl ?_ ?_ h
  · intro lines line g ih hgives
    simp [ih, hgives]
  · intro lines line g entry ih hgives _
    simp [ih, hgives]

/-- The entry of a path after some lines about it. -/
def pathEntry (lines : List GuidedLine) : Option (Option (IntervalSet × Nat)) :=
  lines.foldlM (fun entry line => (addLine entry line).map some) none

/-- The last line is read last. -/
theorem pathEntry_concat (lines : List GuidedLine) (line : GuidedLine) :
    pathEntry (lines ++ [line]) =
      (pathEntry lines).bind fun entry => (addLine entry line).map some := by
  rw [pathEntry, foldlM_append, ← pathEntry]
  cases pathEntry lines with
  | none => rfl
  | some entry =>
    show ((addLine entry line).map some >>= pure) = (addLine entry line).map some
    rw [bind_pure]

/-- The lines about a path. -/
def linesOf (path : List Char) (lines : List GuidedLine) : List GuidedLine :=
  lines.filter fun line => !line.isPrefix && line.path = path

/-- Another line of a file is about a path or not. -/
theorem linesOf_concat (path : List Char) (lines : List GuidedLine) (line : GuidedLine) :
    linesOf path (lines ++ [line]) =
      if line.isPrefix = false ∧ line.path = path then linesOf path lines ++ [line]
      else linesOf path lines := by
  rw [linesOf, filter_append, ← linesOf]
  split
  · next h => rw [filter_cons_of_pos (by simp [h]), filter_nil]
  · next h =>
    rw [filter_cons_of_neg (by simpa using h), filter_nil, append_nil]

/-- The entry of a path depends on the lines about it only. -/
theorem mapInterval_initGuided (h : initGuided hostsSize lines = some g) (path : List Char) :
    pathEntry (linesOf path lines) = some (g.mapInterval path) := by
  refine initGuided_induction (P := fun lines g =>
    pathEntry (linesOf path lines) = some (g.mapInterval path)) rfl ?_ ?_ h
  · intro lines line g ih hgives
    rw [linesOf_concat, if_neg (by simp [hgives]), ih]
  · intro lines line g entry ih hgives hentry
    rw [linesOf_concat]
    dsimp only
    by_cases hpath : line.path = path
    · subst hpath
      rw [if_pos ⟨hgives, rfl⟩, pathEntry_concat, ih, Option.bind_some, hentry, Option.map_some,
        update_self]
    · rw [if_neg fun h => hpath h.2, ih, update_of_ne (Ne.symm hpath)]

/-- A file can be read if the lines of each path can be. -/
theorem exists_initGuided (size : UInt32)
    (h : ∀ path, pathEntry (linesOf path lines) ≠ none) : ∃ g, initGuided size lines = some g := by
  induction lines using List.reverseRecOn with
  | nil => exact ⟨_, rfl⟩
  | append_singleton lines line ih =>
    have hbefore : ∀ path, pathEntry (linesOf path lines) ≠ none := by
      intro path hnone
      refine h path ?_
      rw [linesOf_concat]
      split
      · rw [pathEntry_concat, hnone, Option.bind_none]
      · exact hnone
    obtain ⟨g, hg⟩ := ih hbefore
    rw [initGuided, foldlM_initLine_concat, ← initGuided, hg, Option.bind_some, initLine]
    split
    · exact ⟨_, rfl⟩
    · next hdata =>
      have hentry := h line.path
      rw [linesOf_concat, if_pos ⟨Bool.eq_false_iff.2 hdata, rfl⟩, pathEntry_concat,
        mapInterval_initGuided hg, Option.bind_some, Ne, Option.map_eq_none_iff] at hentry
      obtain ⟨entry, hentry⟩ := Option.ne_none_iff_exists'.1 hentry
      exact ⟨_, by rw [hentry, Option.map_some]⟩

end GuidedDistributor

end GekkoFS
