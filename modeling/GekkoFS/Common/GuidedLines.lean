import GekkoFS.Common.GuidedDistributor

/-!
# The lines of a guided distribution

What the guided distributor does with a chunk, in terms of the lines of the file. The maps hold one
interval for a path, from the chunk of its first line to the one behind the last line that was
taken, and the host of that line (`pathEntry_cons`); a line with a chunk below the first one makes
reading the file undefined (`le_of_pathEntry`). So the host of a chunk is a function of the lines
(`guidedHost_eq`), and the lookup follows the file exactly if the lines list what they store
(`followsConfig_iff`).
-/

namespace GekkoFS

open List Option

/-! ## What the lines of a path store -/

namespace GuidedDistributor

/-- The last line of a path that is taken: a line is, if its chunk lies not beyond the one behind
the last line taken before. -/
def lastTaken (first : GuidedLine) (rest : List GuidedLine) : GuidedLine :=
  rest.foldl (fun last line =>
    if line.chunkId.toNat ≤ last.chunkId.toNat + 1 then line else last) first

/-- One more line is taken, or not. -/
theorem lastTaken_concat (first : GuidedLine) (rest : List GuidedLine) (line : GuidedLine) :
    lastTaken first (rest ++ [line]) =
      if line.chunkId.toNat ≤ (lastTaken first rest).chunkId.toNat + 1 then line
      else lastTaken first rest := by
  rw [lastTaken, foldl_append]
  rfl

/-- The last line that is taken is one of the lines. -/
theorem lastTaken_mem (first : GuidedLine) (rest : List GuidedLine) :
    lastTaken first rest ∈ first :: rest := by
  induction rest using List.reverseRecOn with
  | nil => exact mem_cons_self
  | append_singleton rest line ih =>
    rw [lastTaken_concat, ← cons_append, mem_append, mem_singleton]
    split
    · exact .inr rfl
    · exact .inl ih

/-- A lookup in a set of one interval is undefined before it. -/
theorem isInsideInterval_one {is : IntervalSet} {lo hi : Nat} (h : is.intervals = [(lo, hi)])
    (v : Nat) :
    is.isInsideInterval v = if lo ≤ v then some (decide (v ≤ hi)) else none := by
  split
  · next hle =>
    have hcut : IntervalSet.CutAt is.intervals [] (lo, hi) [] v :=
      ⟨h, fun _ he => absurd he not_mem_nil, hle, fun _ he => absurd he not_mem_nil⟩
    exact hcut.isInsideInterval
  · next hlt =>
    rw [IntervalSet.isInsideInterval, map_eq_none_iff, getLast?_eq_none_iff,
      eq_nil_iff_forall_not_mem]
    intro e he
    have hmem : e ∈ is.intervals :=
      SortedMap.upTo_append_above v is.intervals ▸ mem_append_left _ he
    have hle := SortedMap.le_of_mem_upTo he
    rw [h, mem_singleton] at hmem
    rw [hmem] at hle
    exact hlt hle

/-- An addition to a set of one interval, which starts in it. -/
theorem intervals_add_one {is : IntervalSet} {lo hi v : Nat} (h : is.intervals = [(lo, hi)])
    (hlo : lo ≤ v) (hhi : v ≤ hi) (hlt : hi + 1 < 2 ^ 32) (bigger : Nat) :
    (is.add v bigger).intervals = [(lo, bigger)] := by
  have hcut : IntervalSet.CutAt is.intervals [] (lo, hi) [] v :=
    ⟨h, fun _ he => absurd he not_mem_nil, hlo, fun _ he => absurd he not_mem_nil⟩
  have hsum : u32 (hi + 1) = hi + 1 := Nat.mod_eq_of_lt hlt
  rw [IntervalSet.intervals_add, hcut.addTo, if_pos (.inl (by rw [hsum]; omega))]
  rfl

/-- The chunk ids of lines leave room for the two behind them. -/
def IdsFit (lines : List GuidedLine) : Prop :=
  ∀ line ∈ lines, line.isPrefix = false → line.chunkId.toNat + 2 < 2 ^ 32

instance (lines : List GuidedLine) : Decidable (IdsFit lines) :=
  inferInstanceAs (Decidable (∀ line ∈ lines, _))

section
variable {first : GuidedLine} {rest : List GuidedLine}
  (hids : ∀ line ∈ first :: rest, line.chunkId.toNat + 2 < 2 ^ 32)

include hids

/-- The lines of a path store one interval, from the chunk of the first line to the one behind the
last line that is taken, with the host of that line. -/
theorem pathEntry_cons (hfirst : ∀ line ∈ rest, first.chunkId.toNat ≤ line.chunkId.toNat) :
    ∃ is, pathEntry (first :: rest) =
        some (some (is, u32 ((lastTaken first rest).destinationHost.toNat + 1))) ∧
      is.intervals = [(first.chunkId.toNat, (lastTaken first rest).chunkId.toNat + 1)] := by
  induction rest using List.reverseRecOn with
  | nil =>
    have hid := hids first mem_cons_self
    refine ⟨_, rfl, congrArg (fun hi => [(first.chunkId.toNat, hi)]) ?_⟩
    exact Nat.mod_eq_of_lt (by omega)
  | append_singleton rest line ih =>
    rw [← cons_append] at hids ⊢
    obtain ⟨is, hentry, hintervals⟩ :=
      ih (fun line' hmem => hids line' (mem_append_left _ hmem))
        fun line' hmem => hfirst line' (mem_append_left _ hmem)
    have hlast := hids _ (mem_append_left [line] (lastTaken_mem first rest))
    have hline := hids line (mem_append_right _ mem_cons_self)
    have hle := hfirst line (mem_append_right _ mem_cons_self)
    rw [pathEntry_concat, hentry, bind_some, addLine, lastTaken_concat]
    generalize lastTaken first rest = last at hintervals hlast ⊢
    rw [isInsideInterval_one hintervals, if_pos hle, map_some, map_some]
    by_cases hin : line.chunkId.toNat ≤ last.chunkId.toNat + 1
    · rw [if_pos (decide_eq_true hin), if_pos hin]
      have hbigger : u32 (line.chunkId.toNat + 1) = line.chunkId.toNat + 1 :=
        Nat.mod_eq_of_lt (by omega)
      rw [hbigger]
      exact ⟨_, rfl, intervals_add_one hintervals hle hin hlast _⟩
    · rw [if_neg fun h => hin (of_decide_eq_true h), if_neg hin]
      exact ⟨is, rfl, hintervals⟩

/-- Reading the lines of a path is undefined if one of them lists a chunk below the first. -/
theorem le_of_pathEntry (h : pathEntry (first :: rest) ≠ none) :
    ∀ line ∈ rest, first.chunkId.toNat ≤ line.chunkId.toNat := by
  induction rest using List.reverseRecOn with
  | nil => exact fun line hmem => absurd hmem not_mem_nil
  | append_singleton rest line ih =>
    rw [← cons_append] at hids h
    have hids' : ∀ line' ∈ first :: rest, line'.chunkId.toNat + 2 < 2 ^ 32 := fun line' hmem =>
      hids line' (mem_append_left _ hmem)
    rw [pathEntry_concat] at h
    have hrest := ih hids' fun hnone => h (by rw [hnone, bind_none])
    obtain ⟨is, hentry, hintervals⟩ := pathEntry_cons hids' hrest
    rw [hentry, bind_some, addLine] at h
    intro line' hmem
    rcases mem_append.1 hmem with hmem | hmem
    · exact hrest line' hmem
    · rw [mem_singleton.1 hmem]
      by_contra hlt
      refine h ?_
      rw [isInsideInterval_one hintervals, if_neg hlt, map_none, map_none]

end

/-- The host that the lines of a path store for a chunk, if any; `none` if the lookup is
undefined. -/
def storedHost (chnkId : Nat) : List GuidedLine → Option (Option Nat)
  | [] => some none
  | first :: rest =>
    if first.chunkId.toNat ≤ chnkId then
      some (if chnkId ≤ (lastTaken first rest).chunkId.toNat + 1 then
        some (lastTaken first rest).destinationHost.toNat else none)
    else none

/-- No line lists a chunk below that of the first line of its path. -/
def NoneBelowFirst (lines : List GuidedLine) : Prop :=
  ∀ line ∈ lines, line.isPrefix = false → ∀ first ∈ (linesOf line.path lines).head?,
    first.chunkId.toNat ≤ line.chunkId.toNat

instance (lines : List GuidedLine) : Decidable (NoneBelowFirst lines) :=
  inferInstanceAs (Decidable (∀ line ∈ lines, _))

section
variable {lines : List GuidedLine} {path : List Char}

/-- The lines of a file about a path. -/
theorem mem_linesOf {line : GuidedLine} :
    line ∈ linesOf path lines ↔ line ∈ lines ∧ line.isPrefix = false ∧ line.path = path := by
  simp only [linesOf, mem_filter, Bool.and_eq_true, Bool.not_eq_true', decide_eq_true_eq]

variable {first : GuidedLine} {rest : List GuidedLine} (hlines : linesOf path lines = first :: rest)

include hlines

/-- The ids of the lines of a path. -/
theorem IdsFit.of_linesOf (hids : IdsFit lines) :
    ∀ line ∈ first :: rest, line.chunkId.toNat + 2 < 2 ^ 32 := by
  intro line hmem
  rw [← hlines, mem_linesOf] at hmem
  exact hids line hmem.1 hmem.2.1

/-- The first line of a path has the lowest chunk. -/
theorem NoneBelowFirst.of_linesOf (h : NoneBelowFirst lines) :
    ∀ line ∈ rest, first.chunkId.toNat ≤ line.chunkId.toNat := by
  intro line hline
  obtain ⟨hmem, hdata, hpath⟩ := mem_linesOf.1 (hlines ▸ mem_cons_of_mem first hline)
  exact h line hmem hdata first (by rw [hpath, hlines]; rfl)

end

/-- A file can be read exactly if no line lists a chunk below the first one of its path. -/
theorem exists_initGuided_iff {lines : List GuidedLine} (hids : IdsFit lines) (size : UInt32) :
    (∃ g, initGuided size lines = some g) ↔ NoneBelowFirst lines := by
  constructor
  · rintro ⟨g, hg⟩ line hmem hdata first hfirst
    obtain ⟨rest, hlines⟩ := head?_eq_some_iff.1 hfirst
    have hentry := mapInterval_initGuided hg line.path
    rw [hlines] at hentry
    have hline : line ∈ first :: rest := hlines ▸ mem_linesOf.2 ⟨hmem, hdata, rfl⟩
    rcases mem_cons.1 hline with rfl | hline
    · exact le_refl _
    · exact le_of_pathEntry (hids.of_linesOf hlines) (hentry ▸ some_ne_none _) line hline
  · refine fun hnone => exists_initGuided size fun path => ?_
    cases hlines : linesOf path lines with
    | nil => exact some_ne_none _
    | cons first rest =>
      obtain ⟨is, hentry, -⟩ :=
        pathEntry_cons (hids.of_linesOf hlines) (hnone.of_linesOf hlines)
      exact hentry ▸ some_ne_none _

/-! ## Lookups -/

section
variable (strHash : List Char → Nat) (size : UInt32) (lines : List GuidedLine) (path : List Char)
  (chnkId : UInt32) (numCopy : Nat)

/-- The host of a chunk for which none is stored: that of the metadata once there is a prefix. -/
def hostByHash : Option Nat :=
  if ∃ line ∈ lines, line.isPrefix = true then
    (SimpleHashDistributor.ofSize size).locateFileMetadata strHash path 0
  else (SimpleHashDistributor.ofSize size).locateData strHash path chnkId.toNat numCopy

variable {size lines}

/-- The host by hash after a file has been read. -/
theorem locateByHash_eq {g : GuidedDistributor} (hg : initGuided size lines = some g) :
    g.locateByHash strHash path chnkId numCopy =
      hostByHash strHash size lines path chnkId numCopy := by
  have hchunk : u32 chnkId.toNat = chnkId.toNat := Nat.mod_eq_of_lt chnkId.toNat_lt
  have hnil : g.prefixList = [] ↔ ¬ ∃ line ∈ lines, line.isPrefix = true := by
    rw [prefixList_initGuided hg, map_eq_nil_iff, filter_eq_nil_iff]
    simp
  rw [locateByHash, hostByHash, SimpleHashDistributor.locateData, hchunk,
    ← hostsSize_initGuided hg]
  cases hlist : g.prefixList with
  | nil => exact (if_neg (hnil.1 hlist)).symm
  | cons p ps => exact (if_pos (not_not.1 fun h => by simp [hnil.2 h] at hlist)).symm

/-- The lookup after a file has been read. -/
theorem locateData_eq (hids : IdsFit lines) {g : GuidedDistributor}
    (hg : initGuided size lines = some g) :
    g.locateData strHash path chnkId numCopy =
      (storedHost chnkId.toNat (linesOf path lines)).bind
        (·.or (hostByHash strHash size lines path chnkId numCopy)) := by
  have hentry := mapInterval_initGuided hg path
  rw [locateData, locateByHash_eq strHash path chnkId numCopy hg]
  cases hlines : linesOf path lines with
  | nil =>
    rw [hlines] at hentry
    rw [← Option.some.inj hentry]
    rfl
  | cons first rest =>
    obtain ⟨is, hstored, hintervals⟩ := pathEntry_cons (hids.of_linesOf hlines)
      (((exists_initGuided_iff hids size).1 ⟨g, hg⟩).of_linesOf hlines)
    rw [hlines, hstored, Option.some.injEq] at hentry
    rw [← hentry, storedHost]
    dsimp only
    rw [isInsideInterval_one hintervals]
    generalize lastTaken first rest = last
    have hdestination : destination (u32 (last.destinationHost.toNat + 1)) =
        last.destinationHost.toNat := by
      have hhost := last.destinationHost.toNat_lt
      rw [destination, u32]
      omega
    by_cases hle : first.chunkId.toNat ≤ chnkId.toNat
    · by_cases hin : chnkId.toNat ≤ last.chunkId.toNat + 1
      · simp [hle, hin, hdestination]
      · simp [hle, hin]
    · simp [hle]

end

end GuidedDistributor

open GuidedDistributor

/-- The host of a chunk is a function of the lines. -/
theorem guidedHost_eq (strHash : List Char → Nat) (size : UInt32) {config : GuidedConfig}
    (hids : IdsFit config.lines) (path : List Char) (chnkId : UInt32) (numCopy : Nat) :
    guidedHost strHash size config path chnkId numCopy =
      if NoneBelowFirst config.lines then
        (storedHost chnkId.toNat (linesOf path config.lines)).bind
          (·.or (hostByHash strHash size config.lines path chnkId numCopy))
      else none := by
  have hread := exists_initGuided_iff hids size
  rw [guidedHost]
  cases hg : initGuided size config.lines with
  | none => rw [if_neg fun h => by simpa [hg] using hread.2 h, bind_none]
  | some g => rw [if_pos (hread.1 ⟨g, hg⟩), bind_some, locateData_eq _ _ _ _ hids hg]

/-! ## When the file is followed -/

/-- The host by hash, of two hosts. -/
theorem select_two {hash : Nat} (hhash : hash < 2) :
    (SimpleHashDistributor.ofSize 2).select hash 0 = some hash := by
  rw [SimpleHashDistributor.select_eq (n := 2) (by decide) rfl, Nat.add_zero,
    u64_of_lt (by omega)]
  exact congrArg some (Nat.mod_eq_of_lt hhash)

/-- No host is the one that every hash gives. -/
theorem exists_hash_ne (host : Nat) : ∃ hash, hash < 2 ∧ hash ≠ host := by
  by_cases h : host = 0
  · exact ⟨1, by decide, by omega⟩
  · exact ⟨0, by decide, Ne.symm h⟩

/-- A chunk for which no host is stored is placed by the hash of the path, or of the path with the
chunk id. -/
theorem hostByHash_two {hash : Nat} (hhash : hash < 2) (lines : List GuidedLine)
    (path : List Char) (chnkId : UInt32) :
    hostByHash (fun _ => hash) 2 lines path chnkId 0 = some hash := by
  rw [hostByHash]
  split <;> exact select_two hhash

/-- The lines list what they store: the file can be read, the lookup of the chunk is defined and
finds the host that the file lists, if any, and if the chunk is not listed and there is a prefix,
then the path starts with one. -/
structure GuidedConfig.StoredAsListed (config : GuidedConfig) (path : List Char)
    (chnkId : UInt32) : Prop where
  readable : NoneBelowFirst config.lines
  stored : ∃ stored, storedHost chnkId.toNat (linesOf path config.lines) = some stored ∧
    ∀ host, config.Listed path chnkId host ↔ stored = some host
  unlisted : (∀ host, ¬ config.Listed path chnkId host) →
    (∃ line ∈ config.lines, line.isPrefix = true) → config.Prefixed path

section
variable {config : GuidedConfig} {path : List Char} {chnkId : UInt32}

/-- A chunk that is not listed is placed by the hash of the path, or of the path with the chunk
id. -/
theorem FollowsConfig.unlisted (h : FollowsConfig config path chnkId)
    (hnone : ∀ host, ¬ config.Listed path chnkId host) {hash : Nat} (hhash : hash < 2) :
    guidedHost (fun _ => hash) 2 config path chnkId 0 = some hash := by
  by_cases hprefixed : config.Prefixed path
  · rw [h.prefixed hnone hprefixed]
    exact select_two hhash
  · rw [h.hashed hnone hprefixed]
    exact select_two hhash

/-- A hash that tells the path from the path with a chunk id. -/
theorem locateFileMetadata_ne_locateData (path : List Char) (chnkId : Nat) :
    (SimpleHashDistributor.ofSize 2).locateFileMetadata (fun text => if text = path then 0 else 1)
        path 0 ≠
      (SimpleHashDistributor.ofSize 2).locateData (fun text => if text = path then 0 else 1) path
        chnkId 0 := by
  have hdigits : path ++ Nat.toDigits 10 (u32 chnkId) ≠ path := by
    intro hdigits
    obtain ⟨d, ds, hcons, -⟩ := Decimal.ofNat_eq_cons (u32 chnkId)
    rw [Decimal.ofNat] at hcons
    rw [hcons] at hdigits
    exact absurd (append_cancel_left (hdigits.trans (append_nil path).symm))
      (cons_ne_nil d ds)
  rw [SimpleHashDistributor.locateFileMetadata, SimpleHashDistributor.locateData, if_pos rfl,
    if_neg hdigits, select_two (by decide), select_two (by decide)]
  decide

/-- Where the lookup follows the file and gives the stored host, else one by hash, what is stored is
what is listed. -/
theorem FollowsConfig.listed_iff (h : FollowsConfig config path chnkId) {stored : Option Nat}
    (hhost : ∀ strHash, guidedHost strHash 2 config path chnkId 0 =
      stored.or (hostByHash strHash 2 config.lines path chnkId 0)) (host : Nat) :
    config.Listed path chnkId host ↔ stored = some host := by
  obtain ⟨hash, hhash, hne⟩ := exists_hash_ne host
  constructor
  · intro hlisted
    have heq := (hhost fun _ => hash).symm.trans (h.listed host hlisted _ _ _)
    cases stored with
    | none =>
      rw [none_or, hostByHash_two hhash, Option.some.injEq] at heq
      exact absurd heq hne
    | some found => exact heq
  · rintro rfl
    by_contra hnot
    have hnone : ∀ host', ¬ config.Listed path chnkId host' := fun host' hlisted => by
      have heq := (hhost fun _ => 0).symm.trans (h.listed host' hlisted _ _ _)
      exact hnot (Option.some.inj heq ▸ hlisted)
    have heq := (hhost fun _ => hash).symm.trans (h.unlisted hnone hhash)
    exact hne (Option.some.inj heq).symm

/-- Where the lookup follows the file, the lines list what they store. -/
theorem FollowsConfig.storedAsListed (hids : IdsFit config.lines)
    (h : FollowsConfig config path chnkId) : config.StoredAsListed path chnkId := by
  have hhost := fun strHash => guidedHost_eq strHash 2 hids path chnkId 0
  have hsome : ∃ host, guidedHost (fun _ => 0) 2 config path chnkId 0 = some host := by
    by_cases hlisted : ∃ host, config.Listed path chnkId host
    · obtain ⟨host, hlisted⟩ := hlisted
      exact ⟨host, h.listed host hlisted _ _ _⟩
    · exact ⟨0, h.unlisted (not_exists.1 hlisted) (by decide)⟩
  obtain ⟨host, hsome⟩ := hsome
  by_cases hread : NoneBelowFirst config.lines
  · simp only [if_pos hread] at hhost
    rw [hhost] at hsome
    obtain ⟨stored, hstored, -⟩ := bind_eq_some_iff.1 hsome
    simp only [hstored, bind_some] at hhost
    have hiff := h.listed_iff hhost
    refine ⟨hread, ⟨stored, hstored, hiff⟩, fun hnone hline => ?_⟩
    by_contra hprefixed
    have heq := (hhost fun text => if text = path then 0 else 1).symm.trans
      (h.hashed hnone hprefixed _ _ _)
    rw [eq_none_iff_forall_ne_some.2 fun host hsome => hnone host ((hiff host).2 hsome),
      none_or, hostByHash, if_pos hline] at heq
    exact locateFileMetadata_ne_locateData path chnkId.toNat heq
  · rw [hhost, if_neg hread] at hsome
    cases hsome

/-- Where the chunk ids of the file leave room, the lookup of a chunk follows the file exactly if
the lines list what they store. -/
theorem followsConfig_iff (config : GuidedConfig) (path : List Char) (chnkId : UInt32)
    (hids : IdsFit config.lines) :
    FollowsConfig config path chnkId ↔ config.StoredAsListed path chnkId := by
  refine ⟨FollowsConfig.storedAsListed hids, fun ⟨hread, ⟨stored, hstored, hiff⟩, hfirst⟩ => ?_⟩
  have hhost := fun strHash size numCopy => guidedHost_eq strHash size hids path chnkId numCopy
  simp only [if_pos hread, hstored, bind_some] at hhost
  have hnone : (∀ host, ¬ config.Listed path chnkId host) → stored = none := fun hno =>
    eq_none_iff_forall_ne_some.2 fun host hsome => hno host ((hiff host).2 hsome)
  refine ⟨fun host hlisted strHash size numCopy => ?_, fun hno hprefixed strHash size numCopy => ?_,
    fun hno hprefixed strHash size numCopy => ?_⟩
  · rw [hhost, (hiff host).1 hlisted, some_or]
  · obtain ⟨line, hmem, hline, -⟩ := hprefixed
    rw [hhost, hnone hno, none_or, hostByHash, if_pos ⟨line, hmem, hline⟩]
  · rw [hhost, hnone hno, none_or, hostByHash, if_neg fun hline =>
      hprefixed (hfirst hno hline)]

end

/-- A file that lists the chunks of a path out of order, so that the second line is not taken. -/
def unorderedChunks : GuidedConfig :=
  ⟨[⟨"/a".toList, 0, 3⟩, ⟨"/a".toList, 7, 5⟩, ⟨"#/dir/".toList, 10, 10⟩, ⟨"/a".toList, 1, 3⟩],
    by decide⟩

/-- The chunk of the last line is where the file lists it. -/
theorem followsConfig_iff_lastLine : FollowsConfig unorderedChunks "/a".toList 1 := by
  have hlisted : unorderedChunks.Listed "/a".toList 1 3 :=
    ⟨⟨"/a".toList, 1, 3⟩, by decide, by decide, rfl, rfl, rfl⟩
  refine (followsConfig_iff unorderedChunks "/a".toList 1 (by decide)).2
    ⟨by decide, ⟨some 3, by decide, fun host => ⟨fun h => ?_, ?_⟩⟩,
      fun hno => absurd hlisted (hno 3)⟩
  · rw [h.eq hlisted]
  · rintro ⟨⟩
    exact hlisted

/-- A file that lists the chunks 0 to 2 of one path on host 3, and the chunk 1 of another on
host 1. -/
def listedChunks : GuidedConfig :=
  ⟨[⟨"/a".toList, 0, 3⟩, ⟨"/a".toList, 1, 3⟩, ⟨"/a".toList, 2, 3⟩, ⟨"/b".toList, 1, 1⟩], by decide⟩

/-- The file with a line for a prefix. -/
def listedPrefix : GuidedConfig := ⟨[⟨"#/dir/".toList, 10, 10⟩], by decide⟩

/-- The chunk behind the last listed one goes to the listed host, the lookup of a chunk before the
first listed one is undefined, and one prefix puts the chunks of all paths with their metadata. -/
theorem guided_deviates :
    ¬ FollowsConfig listedChunks "/a".toList 3 ∧ ¬ FollowsConfig listedChunks "/b".toList 0 ∧
      ¬ FollowsConfig listedPrefix "/c".toList 1 := by
  have hchunks : ∀ line ∈ listedChunks.lines, line.path = "/b".toList → line.chunkId ≠ 0 := by
    decide
  have hhigh : ∀ line ∈ listedChunks.lines, line.chunkId ≠ 3 := by decide
  have hnone : ∀ line ∈ listedPrefix.lines, line.isPrefix ≠ false := by decide
  refine ⟨fun h => ?_, fun h => ?_, fun h => ?_⟩
  · have heq : guidedHost (fun _ => 0) 2 listedChunks "/a".toList 3 0 = some 0 := h.unlisted
      (fun host ⟨line, hmem, _, _, hchunk, _⟩ => hhigh line hmem hchunk) (by decide)
    exact absurd heq (by decide)
  · have heq : guidedHost (fun _ => 0) 2 listedChunks "/b".toList 0 0 = some 0 := h.unlisted
      (fun host ⟨line, hmem, _, hpath, hchunk, _⟩ => hchunks line hmem hpath hchunk) (by decide)
    exact absurd heq (by decide)
  · have hprefixed : ¬ listedPrefix.Prefixed "/c".toList := by
      rintro ⟨line, hmem, -, hprefix⟩
      exact absurd hprefix ((by decide : ∀ line ∈ listedPrefix.lines,
        ¬ line.path.tail <+: "/c".toList) line hmem)
    have heq := h.hashed (fun host ⟨line, hmem, hdata, _⟩ => hnone line hmem hdata) hprefixed
      (fun text => text.length) 2 0
    exact absurd heq (by decide)

end GekkoFS
