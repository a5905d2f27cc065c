import GekkoFS.Client.OpenDir
import GekkoFS.Lib.Simulation
import Mathlib.Data.List.AList

/-!
# The cache of directory entries

`DentryCache` keeps what a listing told about the entries of a directory, so that `get_metadata`
does not have to ask for them one by one. It is a table of two levels: a directory has an id, a hash
of its path narrowed to 32 bits, and the id has a map from names to entries. An id is made when a
directory is first asked for, also by a lookup.

Seen from outside it should answer from the history of the calls: a lookup gives the value of the
latest insertion for its directory and name, unless the cache or the directory has been cleared
since (`latestInsert`). It does not, for two reasons. `emplace` keeps the value that is already
there, so a later insertion for the same name is lost. And two directories with the same id share
their entries. Where neither happens the answers are those of the history
(`answers_dentryCache`).
-/

namespace GekkoFS

open AList Simulation

/-- What is cached of an entry. Source: `cache_entry` (`cache.hpp:52`). -/
structure CacheEntry where
  fileType : OpenDirs.FileType
  size : UInt64
  ctime : Int64
  deriving DecidableEq

/-- Source: `DentryCache` (`cache.hpp:61`). -/
structure DentryCache where
  /-- The entries of a directory id, by name. -/
  entries : AList fun _ : UInt32 => AList fun _ : List Char => CacheEntry
  /-- The id of a directory. -/
  entryDirId : AList fun _ : List Char => UInt32

/-- A call of the cache. -/
inductive DentryCall
  | insert (parentDir name : List Char) (value : CacheEntry)
  | get (parentDir name : List Char)
  | clearDir (dirPath : List Char)
  | clear

namespace DentryCache

/-- The cache after its construction. -/
def empty : DentryCache := ⟨∅, ∅⟩

/-- The hash narrowed to the type of ids. Source: `gen_dir_id` (`cache.cpp:46`). -/
def genDirId (strHash : List Char → Nat) (dirPath : List Char) : UInt32 :=
  UInt32.ofNat (strHash dirPath)

variable (strHash : List Char → Nat) (s : DentryCache)

/-- The id of a directory, which is made if there is none. Source: `get_dir_id` (`cache.cpp:54`). -/
def getDirId (dirPath : List Char) : UInt32 × DentryCache :=
  match s.entryDirId.lookup dirPath with
  | some dirId => (dirId, s)
  | none =>
    let dirId := genDirId strHash dirPath
    (dirId, { s with entryDirId := s.entryDirId.insert dirPath dirId })

/-- `entries_[dir_id]`, which makes an empty map if there is none. -/
def entriesOf (dirId : UInt32) : AList fun _ : List Char => CacheEntry :=
  (s.entries.lookup dirId).getD ∅

/-- A value is entered for a name that has none. Source: `std::unordered_map::emplace`, as used in
`insert` (`cache.cpp:71`). -/
def emplace (dirEntries : AList fun _ : List Char => CacheEntry) (name : List Char)
    (value : CacheEntry) : AList fun _ : List Char => CacheEntry :=
  if name ∈ dirEntries then dirEntries else dirEntries.insert name value

/-- Source: `insert` (`cache.cpp:67`). -/
def insert (parentDir name : List Char) (value : CacheEntry) : DentryCache :=
  let (dirId, s) := s.getDirId strHash parentDir
  { s with entries := s.entries.insert dirId (emplace (s.entriesOf dirId) name value) }

/-- Source: `get` (`cache.cpp:75`). -/
def get (parentDir name : List Char) : Option CacheEntry × DentryCache :=
  let (dirId, s) := s.getDirId strHash parentDir
  ((s.entriesOf dirId).lookup name,
    { s with entries := s.entries.insert dirId (s.entriesOf dirId) })

/-- Source: `clear_dir` (`cache.cpp:86`). -/
def clearDir (dirPath : List Char) : DentryCache :=
  match s.entryDirId.lookup dirPath with
  | none => s
  | some dirId => ⟨s.entries.erase dirId, s.entryDirId.erase dirPath⟩

/-- Source: `clear` (`cache.cpp:121`). -/
def clear (_ : DentryCache) : DentryCache := ⟨∅, ∅⟩

/-- The answer to a call, if it has one, and the cache after it. -/
def serve : DentryCall → Option (Option CacheEntry) × DentryCache
  | .insert parentDir name value => (none, s.insert strHash parentDir name value)
  | .get parentDir name => ((s.get strHash parentDir name).map some id)
  | .clearDir dirPath => (none, s.clearDir dirPath)
  | .clear => (none, s.clear)

end DentryCache

/-! ## Answers from the history -/

/-- The value of the latest insertion for a directory and a name since the last call that cleared
them. The history has the latest call first. -/
def latestInsert (dir name : List Char) : List DentryCall → Option CacheEntry
  | [] => none
  | .insert parentDir name' value :: past =>
    if parentDir = dir ∧ name' = name then some value else latestInsert dir name past
  | .get _ _ :: past => latestInsert dir name past
  | .clearDir dirPath :: past => if dirPath = dir then none else latestInsert dir name past
  | .clear :: _ => none

/-- What the history of the calls answers to the next one. -/
def answerFromHistory (past : List DentryCall) (call : DentryCall) :
    Option (Option CacheEntry) × List DentryCall :=
  (match call with
    | .get parentDir name => some (latestInsert parentDir name past)
    | _ => none, call :: past)

namespace DentryCache

/-! ## Calls that a map would answer in the same way -/

/-- No other directory with an id has the id of this one. -/
def Alone (strHash : List Char → Nat) (s : DentryCache) (dir : List Char) : Prop :=
  ∀ dir' ∈ s.entryDirId.keys, dir' ≠ dir → genDirId strHash dir' ≠ genDirId strHash dir

instance (strHash : List Char → Nat) (s : DentryCache) (dir : List Char) :
    Decidable (s.Alone strHash dir) :=
  inferInstanceAs (Decidable (∀ dir' ∈ s.entryDirId.keys,
    dir' ≠ dir → genDirId strHash dir' ≠ genDirId strHash dir))

/-- The directory of an insertion or a lookup shares its id with no other directory in the cache,
and an insertion finds no other value for its name. -/
def CallOk (strHash : List Char → Nat) (s : DentryCache) : DentryCall → Prop
  | .insert parentDir name value => s.Alone strHash parentDir ∧
    ((s.entriesOf (genDirId strHash parentDir)).lookup name = none ∨
      (s.entriesOf (genDirId strHash parentDir)).lookup name = some value)
  | .get parentDir _ => s.Alone strHash parentDir
  | .clearDir _ => True
  | .clear => True

/-- The cache holds what the history says: ids are the hashes of their directories and no two
directories share one, the map of a directory's id has the latest insertions for it, and an id
without a directory has no entries. -/
structure Represents (strHash : List Char → Nat) (s : DentryCache) (past : List DentryCall) :
    Prop where
  ids : ∀ dir dirId, s.entryDirId.lookup dir = some dirId → dirId = genDirId strHash dir
  apart : ∀ dir ∈ s.entryDirId, s.Alone strHash dir
  held : ∀ dir ∈ s.entryDirId, ∀ name,
    (s.entriesOf (genDirId strHash dir)).lookup name = latestInsert dir name past
  absent : ∀ dir, dir ∉ s.entryDirId → ∀ name, latestInsert dir name past = none
  free : ∀ dirId, (∀ dir ∈ s.entryDirId, genDirId strHash dir ≠ dirId) → s.entriesOf dirId = ∅

section
variable {strHash : List Char → Nat} {s : DentryCache} {past : List DentryCall}
  {dir name : List Char}

/-- The empty cache holds a history without an insertion that counts. -/
theorem represents_empty (hpast : ∀ dir name, latestInsert dir name past = none) :
    Represents strHash empty past where
  ids := fun _ _ h => nomatch h
  apart := fun dir h => absurd h (notMem_empty dir)
  held := fun dir h => absurd h (notMem_empty dir)
  absent := fun dir _ name => hpast dir name
  free := fun _ _ => rfl

/-- The id that a call works with, and the cache in which the directory has it. -/
theorem Represents.getDirId (h : Represents strHash s past)
    (halone : s.Alone strHash dir) :
    (s.getDirId strHash dir).1 = genDirId strHash dir ∧
      dir ∈ (s.getDirId strHash dir).2.entryDirId ∧
      Represents strHash (s.getDirId strHash dir).2 past ∧
      (s.getDirId strHash dir).2.entries = s.entries := by
  rw [DentryCache.getDirId]
  cases hid : s.entryDirId.lookup dir with
  | some dirId =>
    exact ⟨h.ids dir dirId hid, AList.lookup_isSome.1 (by rw [hid]; rfl), h, rfl⟩
  | none =>
    have hnew : dir ∉ s.entryDirId := AList.lookup_eq_none.1 hid
    refine ⟨rfl, mem_insert _ |>.2 (.inl rfl), ?_, rfl⟩
    refine ⟨fun dir' dirId hlookup => ?_, ?_, fun dir' hmem name => ?_, fun dir' hmem name => ?_,
      fun dirId hfree => ?_⟩
    · by_cases hdir : dir' = dir
      · subst hdir
        rw [lookup_insert, Option.some.injEq] at hlookup
        exact hlookup.symm
      · rw [lookup_insert_ne hdir] at hlookup
        exact h.ids dir' dirId hlookup
    · intro dir' hmem dir'' hmem'' hne
      have hold : ∀ {d}, d ∈ s.entryDirId.insert dir (genDirId strHash dir) → d ≠ dir →
          d ∈ s.entryDirId := fun hd hdne => ((mem_insert _).1 hd).resolve_left hdne
      by_cases hdir : dir' = dir
      · subst hdir
        exact halone dir'' (hold hmem'' hne) hne
      · by_cases hdir'' : dir'' = dir
        · subst hdir''
          exact (halone dir' (hold hmem hdir) hdir).symm
        · exact h.apart dir' (hold hmem hdir) dir'' (hold hmem'' hdir'') hne
    · rcases (mem_insert _).1 hmem with rfl | hmem
      · -- the id is free, so the new directory starts without entries
        have hempty : s.entriesOf (genDirId strHash dir') = ∅ :=
          h.free _ fun d hd => halone d hd fun heq => hnew (heq ▸ hd)
        have hentries : entriesOf { s with
            entryDirId := s.entryDirId.insert dir' (genDirId strHash dir') }
            (genDirId strHash dir') = s.entriesOf (genDirId strHash dir') := rfl
        rw [hentries, hempty, h.absent dir' hnew]
        rfl
      · exact h.held dir' hmem name
    · exact h.absent dir' (fun hold => hmem ((mem_insert _).2 (.inr hold))) name
    · exact h.free dirId fun d hd => hfree d ((mem_insert _).2 (.inr hd))

theorem entriesOf_insert (entries : AList fun _ : UInt32 => AList fun _ : List Char => CacheEntry)
    (ids : AList fun _ : List Char => UInt32) (dirId dirId' : UInt32)
    (dirEntries : AList fun _ : List Char => CacheEntry) :
    (DentryCache.mk (entries.insert dirId dirEntries) ids).entriesOf dirId' =
      if dirId' = dirId then dirEntries else (DentryCache.mk entries ids).entriesOf dirId' := by
  rw [entriesOf, entriesOf]
  split
  · next heq => rw [heq, lookup_insert, Option.getD_some]
  · next hne => rw [lookup_insert_ne hne]

/-- A call that changes the entries of one directory only. -/
theorem Represents.setEntries (h : Represents strHash s past)
    (hdir : dir ∈ s.entryDirId) {dirEntries : AList fun _ : List Char => CacheEntry}
    {past' : List DentryCall}
    (hset : ∀ name, dirEntries.lookup name = latestInsert dir name past')
    (hother : ∀ dir', dir' ≠ dir → ∀ name,
      latestInsert dir' name past' = latestInsert dir' name past) :
    Represents strHash
      { s with entries := s.entries.insert (genDirId strHash dir) dirEntries } past' := by
  refine ⟨h.ids, h.apart, fun dir' hmem name => ?_, fun dir' hmem name => ?_,
    fun dirId hfree => ?_⟩
  · rw [entriesOf_insert]
    by_cases heq : dir' = dir
    · subst heq
      rw [if_pos rfl, hset]
    · rw [if_neg (h.apart dir hdir dir' hmem heq), hother dir' heq]
      exact h.held dir' hmem name
  · have hne : dir' ≠ dir := fun heq => hmem (heq ▸ hdir)
    rw [hother dir' hne]
    exact h.absent dir' hmem name
  · rw [entriesOf_insert, if_neg (hfree dir hdir).symm]
    exact h.free dirId hfree

/-- An insertion that finds no other value for its name. -/
theorem Represents.insert (h : Represents strHash s past)
    {value : CacheEntry} (hok : CallOk strHash s (.insert dir name value)) :
    Represents strHash (s.insert strHash dir name value) (.insert dir name value :: past) := by
  obtain ⟨hid, hmem, ht, hentries⟩ := h.getDirId hok.1
  have hheld := hok.2
  rw [entriesOf, ← hentries, ← entriesOf] at hheld
  rw [DentryCache.insert]
  dsimp only
  rw [hid]
  refine ht.setEntries hmem (fun name' => ?_) fun dir' hne name' => ?_
  · have hbefore := ht.held dir hmem
    rw [latestInsert, emplace]
    split
    · next hin =>
      obtain ⟨held, hlookup⟩ := Option.isSome_iff_exists.1 (AList.lookup_isSome.2 hin)
      by_cases hname : name = name'
      · subst hname
        rw [if_pos ⟨rfl, rfl⟩]
        exact hheld.resolve_left fun hnone => nomatch hlookup.symm.trans hnone
      · rw [if_neg fun hboth => hname hboth.2, hbefore]
    · by_cases hname : name = name'
      · subst hname
        rw [if_pos ⟨rfl, rfl⟩, lookup_insert]
      · rw [if_neg fun hboth => hname hboth.2, lookup_insert_ne (Ne.symm hname), hbefore]
  · rw [latestInsert, if_neg fun hboth => hne hboth.1.symm]

/-- A lookup finds the latest insertion, and leaves the entries as they are. -/
theorem Represents.get (h : Represents strHash s past)
    (halone : s.Alone strHash dir) :
    (s.get strHash dir name).1 = latestInsert dir name past ∧
      Represents strHash (s.get strHash dir name).2 (.get dir name :: past) := by
  obtain ⟨hid, hmem, ht, -⟩ := h.getDirId halone
  rw [DentryCache.get]
  dsimp only
  rw [hid]
  exact ⟨ht.held dir hmem name, ht.setEntries hmem (ht.held dir hmem) fun _ _ _ => rfl⟩

/-- Clearing a directory takes away its entries only. -/
theorem Represents.clearDir (h : Represents strHash s past) (dir : List Char) :
    Represents strHash (s.clearDir dir) (.clearDir dir :: past) := by
  rw [DentryCache.clearDir]
  cases hid : s.entryDirId.lookup dir with
  | none =>
    have hnot : dir ∉ s.entryDirId := AList.lookup_eq_none.1 hid
    refine ⟨h.ids, h.apart, fun dir' hmem name => ?_, fun dir' hmem name => ?_, h.free⟩
    · rw [latestInsert, if_neg fun heq : dir = dir' => hnot (heq ▸ hmem)]
      exact h.held dir' hmem name
    · rw [latestInsert]
      split
      · rfl
      · exact h.absent dir' hmem name
  | some dirId =>
    have hmem : dir ∈ s.entryDirId := AList.lookup_isSome.1 (by rw [hid]; rfl)
    have hdirId := h.ids dir dirId hid
    subst hdirId
    have hold : ∀ {d}, d ∈ s.entryDirId.erase dir ↔ d ≠ dir ∧ d ∈ s.entryDirId := mem_erase
    refine ⟨fun dir' dirId hlookup => ?_, fun dir' hmem' dir'' hmem'' => ?_,
      fun dir' hmem' name => ?_, fun dir' hmem' name => ?_, fun dirId hfree => ?_⟩
    · by_cases heq : dir' = dir
      · rw [heq, lookup_erase] at hlookup
        exact nomatch hlookup
      · rw [lookup_erase_ne heq] at hlookup
        exact h.ids dir' dirId hlookup
    · exact h.apart dir' (hold.1 hmem').2 dir'' (hold.1 hmem'').2
    · obtain ⟨hne, hin⟩ := hold.1 hmem'
      rw [latestInsert, if_neg hne.symm, ← h.held dir' hin, entriesOf, entriesOf,
        lookup_erase_ne (h.apart dir hmem dir' hin hne)]
    · rw [latestInsert]
      split
      · rfl
      · next hne => exact h.absent dir' (fun hin => hmem' (hold.2 ⟨Ne.symm hne, hin⟩)) name
    · rw [entriesOf]
      by_cases heq : dirId = genDirId strHash dir
      · rw [heq, lookup_erase, Option.getD_none]
      · rw [lookup_erase_ne heq, ← entriesOf]
        refine h.free dirId fun d hd => ?_
        by_cases hdir : d = dir
        · rw [hdir]
          exact Ne.symm heq
        · exact hfree d (hold.2 ⟨hdir, hd⟩)

/-- The cache answers calls that meet the condition as their history does. -/
theorem simulates : Simulation.Simulates (fun s => serve strHash s) answerFromHistory
    (CallOk strHash) (Represents strHash) where
  answer := by
    intro s past call h hok
    cases call with
    | get dir name => exact congrArg some (h.get hok).1
    | insert dir name value => rfl
    | clearDir dir => rfl
    | clear => rfl
  next := by
    intro s past call h hok
    cases call with
    | get dir name => exact (h.get hok).2
    | insert dir name value => exact h.insert hok
    | clearDir dir => exact h.clearDir dir
    | clear => exact represents_empty fun _ _ => rfl

end

end DentryCache

/-- The cache is a map: along every sequence of calls that meet the condition, its answers are those
of the history, whatever the hash function is. -/
theorem answers_dentryCache (strHash : List Char → Nat) {calls : List DentryCall}
    (hok : Simulation.CallsOk (fun s => DentryCache.serve strHash s) (DentryCache.CallOk strHash)
      DentryCache.empty calls) :
    answers (fun s => DentryCache.serve strHash s) DentryCache.empty calls =
      answers answerFromHistory [] calls :=
  answers_eq DentryCache.simulates (DentryCache.represents_empty fun _ _ => rfl) hok

/-- An entry of a file of the given size. -/
def cachedFile (size : UInt64) : CacheEntry := ⟨.regular, size, 0⟩

/-- Insertions into two directories, of which one is cleared. -/
theorem answers_dentryCache_two :
    answers (fun s => DentryCache.serve List.length s) DentryCache.empty
        [.insert "/a".toList "x".toList (cachedFile 1),
          .insert "/bc".toList "x".toList (cachedFile 2), .get "/a".toList "x".toList,
          .clearDir "/a".toList, .get "/a".toList "x".toList, .get "/bc".toList "x".toList] =
      [none, none, some (some (cachedFile 1)), none, some none, some (some (cachedFile 2))] := by
  refine (answers_dentryCache List.length ?_).trans (by decide)
  refine ⟨⟨by decide, by decide⟩, ?_⟩
  rintro _ ⟨⟩
  refine ⟨⟨by decide, by decide⟩, ?_⟩
  rintro _ ⟨⟩
  refine ⟨(by decide : DentryCache.Alone _ _ _), ?_⟩
  rintro _ ⟨⟩
  refine ⟨trivial, ?_⟩
  rintro _ ⟨⟩
  refine ⟨(by decide : DentryCache.Alone _ _ _), ?_⟩
  rintro _ ⟨⟩
  exact ⟨(by decide : DentryCache.Alone _ _ _), fun _ _ => trivial⟩

/-- The second value for a name is lost; and a directory whose path has the same hash finds, and
clears, the entries of another. -/
theorem dentryCache_deviates :
    answers (fun s => DentryCache.serve List.length s) DentryCache.empty
        [.insert "/a".toList "x".toList (cachedFile 1),
          .insert "/a".toList "x".toList (cachedFile 2), .get "/a".toList "x".toList] ≠
      answers answerFromHistory []
        [.insert "/a".toList "x".toList (cachedFile 1),
          .insert "/a".toList "x".toList (cachedFile 2), .get "/a".toList "x".toList] ∧
    answers (fun s => DentryCache.serve List.length s) DentryCache.empty
        [.insert "/a".toList "x".toList (cachedFile 1), .get "/b".toList "x".toList,
          .clearDir "/b".toList, .get "/a".toList "x".toList] =
      [none, some (some (cachedFile 1)), none, some none] ∧
    answers answerFromHistory []
        [.insert "/a".toList "x".toList (cachedFile 1), .get "/b".toList "x".toList,
          .clearDir "/b".toList, .get "/a".toList "x".toList] =
      [none, some none, none, some (some (cachedFile 1))] := by
  decide

end GekkoFS
