import GekkoFS.Client.Namespace
import GekkoFS.Common.MetadataRoundTrip

/-!
# What a listing returns

The two listings of the RocksDB backend walk over the keys in the same way and differ in what they
take from an entry, which `direntsLoopWith` has as a parameter. The keys that start with the path of
a directory and a slash are next to each other in the order of the store, whatever characters the
names have, so a walk that does not fail returns exactly the entries of the directory, in the order
of their keys (`direntsLoopWith_eq`).

The walk fails if it cannot read the size of an entry. `direntsExact_iff` says that the listings of
a directory are exact if and only if none of its entries has such a size.
-/

namespace GekkoFS

open Function List Metadata MetadataDaemon

/-! ## The extended listing -/

section
variable {β : Type} (f : Metadata → β)

/-- What one key adds to a listing that takes `f` from the entries. Source: the loop bodies of
`get_dirents_impl` and `get_dirents_extended_impl` (`rocksdb_backend.cpp:300`,
`rocksdb_backend.cpp:352`). -/
def direntWith (cfg : MetadataConfig) (root key text : List Char) :
    Except DBException (Option (List Char × β)) :=
  if key.length = root.length then .ok none
  else if '/' ∈ key.drop root.length then .ok none
  else
    match Metadata.parse cfg text with
    | none => .error .other
    | some md =>
      if cfg.hasRename ∧ md.blocks = -1 then .ok none
      else .ok (some (key.drop root.length, f md))

/-- The loop over the keys from a path on, which ends at the first key that does not start with
it. -/
def direntsLoopWith (cfg : MetadataConfig) (root : List Char) :
    List (List Char × Except DBException (List Char)) → Except DBException (List (List Char × β))
  | [] => .ok []
  | (key, value) :: items => do
    let text ← value
    if root.isPrefixOf key then
      let entry ← direntWith f cfg root key text
      let entries ← direntsLoopWith cfg root items
      return entry.toList ++ entries
    else return []

end

/-- Source: `get_dirents_extended_impl` (`rocksdb_backend.cpp:343`). -/
def MetadataDaemon.getDirentsExtendedImpl (cfg : MetadataConfig) (st : MetadataDaemon)
    (root : List Char) :
    Except DBException (List (List Char × Bool × Nat × Int)) × MetadataDaemon :=
  let items := st.db.iterateAll.dropWhile fun p => p.1 < root
  let listed := items.takeWhile fun p => root.isPrefixOf p.1
  (direntsLoopWith (fun md => (isDir md.mode, md.size, md.ctime)) cfg root
      (items.map fun p => (p.1, (p.2.get cfg).2)),
    { st with
      reserve := (items.take (listed.length + 1)).foldl
        (fun r p => AppendOffsetReserve.putAll r (p.2.get cfg).1) st.reserve })

/-- The plain listing takes the type of an entry. -/
theorem direntsLoop_eq (cfg : MetadataConfig) (root : List Char)
    (items : List (List Char × Except DBException (List Char))) :
    direntsLoop root.isPrefixOf cfg root items =
      direntsLoopWith (fun md => isDir md.mode) cfg root items := by
  induction items with
  | nil => rfl
  | cons p items ih =>
    obtain ⟨key, value⟩ := p
    rw [direntsLoop, direntsLoopWith, ih]
    rfl

/-! ## What a listing should be -/

/-- The path of a name in a directory. -/
def joinName (dir : CanonicalPath) (name : List Char) : List Char :=
  if dir = CanonicalPath.root then '/' :: name else dir.text ++ '/' :: name

/-- The store has the entries `stored`: a key without one is not there, and the others can be read,
with operands merged, as the text of their entry. -/
def StoresEntries (cfg : MetadataConfig) (db : DB) (stored : List Char → Option Metadata) : Prop :=
  ∀ key, (stored key = none → db.cell key = Cell.empty) ∧
    ∀ md, stored key = some md → ((db.cell key).get cfg).2 = .ok (md.serialize cfg) ∧ md.InRange

/-- The entry that a rename leaves at the old name, in a build that marks it. -/
def IsTombstone (cfg : MetadataConfig) (md : Metadata) : Prop :=
  cfg.hasRename = true ∧ (md.kept cfg).blocks = -1

instance (cfg : MetadataConfig) (md : Metadata) : Decidable (IsTombstone cfg md) :=
  inferInstanceAs (Decidable (_ ∧ _))

/-- The listing of a directory is exact: it has what `f` takes from the stored fields of every entry
of the directory that is not a tombstone, once and in the order of the keys. -/
def ListsExactly {β : Type} (f : Metadata → β) (cfg : MetadataConfig)
    (stored : List Char → Option Metadata) (dir : CanonicalPath)
    (listing : Except DBException (List (List Char × β))) : Prop :=
  ∃ entries, listing = .ok entries ∧
    (entries.map fun e => joinName dir e.1).Pairwise (· < ·) ∧
    ∀ name b, (name, b) ∈ entries ↔ name ≠ [] ∧ '/' ∉ name ∧
      ∃ md, stored (joinName dir name) = some md ∧ ¬ IsTombstone cfg md ∧ b = f (md.kept cfg)

/-- Both listings of a directory are exact. Source: `MetadataDB::get_dirents` and
`MetadataDB::get_dirents_extended` (`db.cpp:151`, `db.cpp:164`). -/
def DirentsExact (cfg : MetadataConfig) (st : MetadataDaemon)
    (stored : List Char → Option Metadata) (dir : CanonicalPath) : Prop :=
  ListsExactly (fun md => isDir md.mode) cfg stored dir
      (st.getDirentsImpl cfg (direntsRoot dir.text)).1 ∧
    ListsExactly (fun md => (isDir md.mode, md.size, md.ctime)) cfg stored dir
      (st.getDirentsExtendedImpl cfg (direntsRoot dir.text)).1

/-- The sizes of the entries of a directory are ones that `std::stol` can read. -/
def ChildSizesOk (stored : List Char → Option Metadata) (dir : CanonicalPath) : Prop :=
  ∀ name md, name ≠ [] → '/' ∉ name → stored (joinName dir name) = some md → md.size < 2 ^ 63

/-! ## The walk -/

/-- The listing of a directory starts from its path with a slash. -/
theorem joinName_eq (dir : CanonicalPath) (name : List Char) :
    joinName dir name = direntsRoot dir.text ++ name := by
  rw [joinName]
  split
  · next h => rw [h]; rfl
  · next h =>
    rw [CanonicalPath.direntsRoot_text h, append_assoc, singleton_append]

/-- A path in a directory is not the root. -/
theorem joinName_ne_root (dir : CanonicalPath) {name : List Char} (hname : name ≠ []) :
    joinName dir name ≠ ['/'] := by
  have hlength := length_pos_of_ne_nil hname
  rw [joinName]
  intro heq
  split at heq
  · have := congrArg List.length heq
    rw [length_cons, length_singleton] at this
    omega
  · have := congrArg List.length heq
    rw [length_append, length_cons, length_singleton] at this
    omega

section
variable {β : Type} {f : Metadata → β} {cfg : MetadataConfig} {root : List Char}
  {text name : List Char} {md : Metadata} {p : List Char × List Char}

/-- What a key adds to a listing that does not fail at it. -/
def listedAt (f : Metadata → β) (cfg : MetadataConfig) (root : List Char)
    (p : List Char × List Char) : Option (List Char × β) :=
  if root.isPrefixOf p.1 then ((direntWith f cfg root p.1 p.2).toOption).join else none

/-- The only way to fail at a key is not to be able to read its entry. -/
theorem direntWith_error {key : List Char} {e : DBException}
    (h : direntWith f cfg root key text = .error e) : e = .other := by
  rw [direntWith] at h
  split at h
  · cases h
  · split at h
    · cases h
    · split at h
      · cases h; rfl
      · split at h <;> cases h

/-- A walk over sorted keys from a path on comes to every key that starts with the path; it fails
if it fails at one of these, and has what they add otherwise. -/
theorem direntsLoopWith_eq {items : List (List Char × List Char)}
    (hsorted : (items.map Prod.fst).Pairwise (· ≤ ·)) (hfrom : ∀ p ∈ items, ¬ p.1 < root) :
    direntsLoopWith f cfg root (items.map fun p => (p.1, .ok p.2)) =
      if ∀ p ∈ items, root.isPrefixOf p.1 → (direntWith f cfg root p.1 p.2).isOk then
        .ok (items.filterMap (listedAt f cfg root))
      else .error .other := by
  induction items with
  | nil => simp [direntsLoopWith]
  | cons p items ih =>
    rw [map_cons, pairwise_cons] at hsorted
    have ih := ih hsorted.2 fun q hq => hfrom q (mem_cons_of_mem _ hq)
    rw [map_cons, direntsLoopWith, ih]
    simp only [bind, Except.bind, pure, Except.pure]
    by_cases hin : root.isPrefixOf p.1 = true
    · rw [if_pos hin]
      cases hentry : direntWith f cfg root p.1 p.2 with
      | error e =>
        have hnot : ¬ ∀ q ∈ p :: items, root.isPrefixOf q.1 →
            (direntWith f cfg root q.1 q.2).isOk := fun hall => by
          have hok := hall p mem_cons_self hin
          rw [hentry] at hok
          cases hok
        rw [if_neg hnot, direntWith_error hentry]
      | ok entry =>
        have hiff : (∀ q ∈ p :: items, root.isPrefixOf q.1 →
            (direntWith f cfg root q.1 q.2).isOk) ↔
              ∀ q ∈ items, root.isPrefixOf q.1 → (direntWith f cfg root q.1 q.2).isOk := by
          rw [forall_mem_cons, hentry]
          exact and_iff_right fun _ => rfl
        have hlisted : listedAt f cfg root p = entry := by
          rw [listedAt, if_pos hin, hentry]
          rfl
        simp only [hiff, filterMap_cons, hlisted]
        by_cases hall : ∀ q ∈ items, root.isPrefixOf q.1 → (direntWith f cfg root q.1 q.2).isOk
        · rw [if_pos hall, if_pos hall]
          cases entry <;> rfl
        · rw [if_neg hall, if_neg hall]
    · -- the keys that start with the path have been passed
      have hrest : ∀ q ∈ p :: items, ¬ root.isPrefixOf q.1 = true := by
        intro q hq hprefix
        rcases mem_cons.1 hq with rfl | hmem
        · exact hin hprefix
        · obtain ⟨name, hname⟩ := List.isPrefixOf_iff_prefix.1 hprefix
          have hle : p.1 ≤ root ++ name := by
            rw [hname]
            exact hsorted.1 _ (mem_map_of_mem hmem)
          exact hin (List.isPrefixOf_iff_prefix.2
            (prefix_of_between (hfrom p mem_cons_self) (not_lt.2 hle)))
      have hnone : (p :: items).filterMap (listedAt f cfg root) = [] :=
        filterMap_eq_nil_iff.2 fun q hq => if_neg (hrest q hq)
      rw [if_neg hin, hnone, if_pos fun q hq hprefix => absurd hprefix (hrest q hq)]

/-- A key below a path that is not deeper. -/
theorem direntWith_append (hname : name ≠ []) (hslash : '/' ∉ name) :
    direntWith f cfg root (root ++ name) text =
      match Metadata.parse cfg text with
      | none => .error .other
      | some md =>
        if cfg.hasRename ∧ md.blocks = -1 then .ok none else .ok (some (name, f md)) := by
  have hlength : (root ++ name).length ≠ root.length := by
    rw [length_append]
    have := length_pos_of_ne_nil hname
    omega
  rw [direntWith, if_neg hlength, drop_left, if_neg hslash]

/-- The path itself and the keys deeper below it. -/
theorem direntWith_skip (h : name = [] ∨ '/' ∈ name) :
    direntWith f cfg root (root ++ name) text = .ok none := by
  rw [direntWith]
  split
  · rfl
  · next hlength =>
    rw [drop_left, if_pos]
    refine h.resolve_left fun hnil => hlength ?_
    rw [hnil, append_nil]

/-- What a listing takes from an entry is in its type, size and time. -/
def FromListed (f : Metadata → β) : Prop :=
  ∀ md md' : Metadata, md'.mode = md.mode → md'.size = md.size → md'.ctime = md.ctime → f md' = f md

/-- What the entry of a key adds to a listing, if its size can be read. -/
theorem direntWith_serialize (hname : name ≠ []) (hslash : '/' ∉ name)
    (hf : FromListed f) (hmd : md.InRange) :
    direntWith f cfg root (root ++ name) (md.serialize cfg) =
      if md.size < 2 ^ 63 then
        .ok (if IsTombstone cfg md then none else some (name, f (md.kept cfg)))
      else .error .other := by
  rw [direntWith_append hname hslash]
  split_ifs with hsize htomb
  · rw [Metadata.parse_serialize_paths cfg hmd hsize]
    exact if_pos htomb
  · rw [Metadata.parse_serialize_paths cfg hmd hsize]
    refine (if_neg htomb).trans (congrArg (fun b => Except.ok (some (name, b))) ?_)
    exact hf (md.kept cfg) _ rfl rfl rfl
  · have hnone : Metadata.parse cfg (md.serialize cfg) = none := by
      cases hparse : Metadata.parse cfg (md.serialize cfg) with
      | none => rfl
      | some md' => exact absurd (Metadata.sizes_of_parse_serialize hparse).1 hsize
    rw [hnone]

/-- An entry of a listing is a key below the path that is not deeper. -/
theorem eq_of_listedAt {e : List Char × β}
    (h : listedAt f cfg root p = some e) : p.1 = root ++ e.1 ∧ e.1 ≠ [] ∧ '/' ∉ e.1 := by
  rw [listedAt] at h
  split at h
  · next hprefix =>
    obtain ⟨name, hname⟩ := List.isPrefixOf_iff_prefix.1 hprefix
    rw [← hname] at h
    by_cases hskip : name = [] ∨ '/' ∈ name
    · rw [direntWith_skip hskip] at h
      cases h
    · obtain ⟨hne, hslash⟩ := not_or.1 hskip
      rw [direntWith_append hne hslash] at h
      split at h
      · cases h
      · split at h
        · cases h
        · cases h
          exact ⟨hname.symm, hne, hslash⟩
  · cases h

/-! ## The listings of a store -/

variable {db : DB} {stored : List Char → Option Metadata} {root : List Char} {f : Metadata → β}
  {dir : CanonicalPath} {st : MetadataDaemon}

/-- The iterator has no key twice. -/
theorem pairwise_lt_iterateAll (db : DB) : db.iterateAll.Pairwise fun p q => p.1 < q.1 := by
  rw [DB.iterateAll, pairwise_map]
  have hnodup : ((db.keys.filter fun key => db.cell key ≠ Cell.empty).insertionSort
      (· ≤ ·)).Nodup :=
    (perm_insertionSort _ _).nodup_iff.2 (db.keys_nodup.filter _)
  exact ((pairwise_insertionSort (· ≤ ·) _).and hnodup).imp fun h => lt_of_le_of_ne h.1 h.2

/-- The text that the store has for a key. -/
def storedText (cfg : MetadataConfig) (stored : List Char → Option Metadata) (key : List Char) :
    List Char :=
  ((stored key).map (·.serialize cfg)).getD []

/-- The keys a walk from a path on goes over, with their texts. -/
def walkFrom (cfg : MetadataConfig) (db : DB) (stored : List Char → Option Metadata)
    (root : List Char) : List (List Char × List Char) :=
  (db.iterateAll.dropWhile fun p => p.1 < root).map fun p => (p.1, storedText cfg stored p.1)

theorem StoresEntries.mem_iterateAll (h : StoresEntries cfg db stored) {p : List Char × Cell}
    (hp : p ∈ db.iterateAll) : ∃ md, stored p.1 = some md ∧ md.InRange ∧
      (p.2.get cfg).2 = .ok (md.serialize cfg) := by
  obtain ⟨hne, hcell⟩ := DB.mem_iterateAll.1 hp
  cases hmd : stored p.1 with
  | none => exact absurd ((h p.1).1 hmd) hne
  | some md =>
    obtain ⟨hget, hrange⟩ := (h p.1).2 md hmd
    rw [hcell]
    exact ⟨md, rfl, hrange, hget⟩

/-- The iterator reads the texts of the entries. -/
theorem StoresEntries.walk_eq (h : StoresEntries cfg db stored) (root : List Char) :
    ((db.iterateAll.dropWhile fun p => p.1 < root).map fun p => (p.1, (p.2.get cfg).2)) =
      (walkFrom cfg db stored root).map fun p => (p.1, .ok p.2) := by
  rw [walkFrom, map_map]
  refine map_congr_left fun p hp => ?_
  obtain ⟨md, hmd, -, hget⟩ := h.mem_iterateAll ((dropWhile_sublist _).subset hp)
  rw [hget, comp_apply, storedText, hmd]
  rfl

/-- A walk comes to every entry below the path. -/
theorem StoresEntries.mem_walkFrom (h : StoresEntries cfg db stored) {name : List Char}
    (hmd : stored (root ++ name) = some md) :
    (root ++ name, md.serialize cfg) ∈ walkFrom cfg db stored root := by
  have hne : db.cell (root ++ name) ≠ Cell.empty := fun hempty => by
    have hget := ((h _).2 md hmd).1
    rw [hempty] at hget
    cases hget
  refine mem_map.2 ⟨(root ++ name, db.cell (root ++ name)),
    mem_dropWhile_of_not_lt (DB.mem_iterateAll.2 ⟨hne, rfl⟩) (not_append_lt root name), ?_⟩
  rw [storedText, hmd]
  rfl

/-- A walk comes to entries only. -/
theorem StoresEntries.of_mem_walkFrom (h : StoresEntries cfg db stored)
    (hp : p ∈ walkFrom cfg db stored root) :
    ∃ md, stored p.1 = some md ∧ md.InRange ∧ p.2 = md.serialize cfg := by
  obtain ⟨q, hq, rfl⟩ := mem_map.1 hp
  obtain ⟨md, hmd, hrange, -⟩ := h.mem_iterateAll ((dropWhile_sublist _).subset hq)
  refine ⟨md, hmd, hrange, ?_⟩
  rw [storedText, hmd]
  rfl

/-- A walk fails only at an entry whose size cannot be read. -/
theorem StoresEntries.isOk_iff (h : StoresEntries cfg db stored)
    (hf : FromListed f) (dir : CanonicalPath) :
    (∀ p ∈ walkFrom cfg db stored (direntsRoot dir.text), (direntsRoot dir.text).isPrefixOf p.1 →
        (direntWith f cfg (direntsRoot dir.text) p.1 p.2).isOk) ↔ ChildSizesOk stored dir := by
  constructor
  · intro hall name md hne hslash hmd
    rw [joinName_eq] at hmd
    have hok := hall _ (h.mem_walkFrom hmd) (List.isPrefixOf_iff_prefix.2 (prefix_append _ _))
    rw [direntWith_serialize hne hslash hf ((h _).2 md hmd).2] at hok
    by_contra hsize
    rw [if_neg hsize] at hok
    cases hok
  · intro hsizes p hp hprefix
    obtain ⟨name, hname⟩ := List.isPrefixOf_iff_prefix.1 hprefix
    obtain ⟨md, hmd, hrange, htext⟩ := h.of_mem_walkFrom hp
    rw [← hname] at hmd ⊢
    by_cases hskip : name = [] ∨ '/' ∈ name
    · rw [direntWith_skip hskip]
      rfl
    · obtain ⟨hne, hslash⟩ := not_or.1 hskip
      rw [htext, direntWith_serialize hne hslash hf hrange,
        if_pos (hsizes name md hne hslash ((joinName_eq dir name).symm ▸ hmd))]
      rfl

/-- What a walk that does not fail returns. -/
theorem StoresEntries.mem_filterMap (h : StoresEntries cfg db stored) (hf : FromListed f)
    (hsizes : ChildSizesOk stored dir) (name : List Char) (b : β) :
    (name, b) ∈ (walkFrom cfg db stored (direntsRoot dir.text)).filterMap
        (listedAt f cfg (direntsRoot dir.text)) ↔
      name ≠ [] ∧ '/' ∉ name ∧
        ∃ md, stored (joinName dir name) = some md ∧ ¬ IsTombstone cfg md ∧
          b = f (md.kept cfg) := by
  have hat : ∀ {md : Metadata}, name ≠ [] → '/' ∉ name → stored (joinName dir name) = some md →
      listedAt f cfg (direntsRoot dir.text) (direntsRoot dir.text ++ name, md.serialize cfg) =
        if IsTombstone cfg md then none else some (name, f (md.kept cfg)) := by
    intro md hne hslash hmd
    have hrange := ((h _).2 md hmd).2
    rw [listedAt, if_pos (List.isPrefixOf_iff_prefix.2 (prefix_append _ _)),
      direntWith_serialize hne hslash hf hrange, if_pos (hsizes name md hne hslash hmd)]
    rfl
  rw [List.mem_filterMap]
  constructor
  · rintro ⟨p, hp, hlisted⟩
    obtain ⟨hkey, hne, hslash⟩ := eq_of_listedAt hlisted
    obtain ⟨md, hmd, -, htext⟩ := h.of_mem_walkFrom hp
    rw [hkey, ← joinName_eq] at hmd
    have hp : p = (direntsRoot dir.text ++ name, md.serialize cfg) := Prod.ext hkey htext
    rw [hp, hat hne hslash hmd] at hlisted
    split at hlisted
    · cases hlisted
    · next htomb =>
      cases hlisted
      exact ⟨hne, hslash, md, hmd, htomb, rfl⟩
  · rintro ⟨hne, hslash, md, hmd, htomb, rfl⟩
    refine ⟨_, h.mem_walkFrom (joinName_eq dir name ▸ hmd), ?_⟩
    rw [hat hne hslash hmd, if_neg htomb]

/-- A listing is exact if and only if the sizes of the entries of the directory can be read. -/
theorem StoresEntries.listsExactly_iff (h : StoresEntries cfg db stored) (hf : FromListed f)
    (dir : CanonicalPath) :
    ListsExactly f cfg stored dir (direntsLoopWith f cfg (direntsRoot dir.text)
        ((db.iterateAll.dropWhile fun p => p.1 < direntsRoot dir.text).map fun p =>
          (p.1, (p.2.get cfg).2))) ↔
      ChildSizesOk stored dir := by
  have hsorted : (walkFrom cfg db stored (direntsRoot dir.text)).Pairwise fun p q => p.1 < q.1 := by
    rw [walkFrom, pairwise_map]
    exact (pairwise_lt_iterateAll db).sublist (dropWhile_sublist _)
  have hfrom : ∀ p ∈ walkFrom cfg db stored (direntsRoot dir.text),
      ¬ p.1 < direntsRoot dir.text := by
    intro p hp
    obtain ⟨q, hq, rfl⟩ := mem_map.1 hp
    exact not_lt_of_mem_dropWhile (pairwise_iterateAll db) hq
  rw [h.walk_eq, direntsLoopWith_eq (pairwise_map.2 (hsorted.imp le_of_lt)) hfrom]
  by_cases hsizes : ChildSizesOk stored dir
  · rw [if_pos ((h.isOk_iff hf dir).2 hsizes)]
    refine iff_of_true ⟨_, rfl, ?_, h.mem_filterMap hf hsizes⟩ hsizes
    rw [pairwise_map]
    refine hsorted.filterMap _ fun p q hlt e he e' he' => ?_
    rw [joinName_eq, joinName_eq, ← (eq_of_listedAt he).1, ← (eq_of_listedAt he').1]
    exact hlt
  · rw [if_neg (mt (h.isOk_iff hf dir).1 hsizes)]
    exact iff_of_false (fun ⟨_, hok, _⟩ => nomatch hok) hsizes

theorem fromListed_plain : FromListed fun md => isDir md.mode :=
  fun _ _ hmode _ _ => congrArg isDir hmode

theorem fromListed_extended : FromListed fun md => (isDir md.mode, md.size, md.ctime) := by
  intro md md' hmode hsize hctime
  dsimp only
  rw [hmode, hsize, hctime]

/-- The listings of a directory whose sizes can be read. -/
theorem StoresEntries.direntsExact (h : StoresEntries cfg st.db stored)
    (hsizes : ChildSizesOk stored dir) : DirentsExact cfg st stored dir := by
  rw [DirentsExact, getDirentsImpl, getDirentsExtendedImpl, direntsLoop_eq]
  exact ⟨(h.listsExactly_iff fromListed_plain dir).2 hsizes,
    (h.listsExactly_iff fromListed_extended dir).2 hsizes⟩

/-- The listings of a directory are exact, for every store and every directory, if and only if
`std::stol` can read the sizes of the entries of the directory. -/
theorem direntsExact_iff (h : StoresEntries cfg st.db stored)
    (dir : CanonicalPath) : DirentsExact cfg st stored dir ↔ ChildSizesOk stored dir := by
  refine ⟨fun hexact => ?_, h.direntsExact⟩
  rw [DirentsExact, getDirentsImpl, direntsLoop_eq] at hexact
  exact (h.listsExactly_iff fromListed_plain dir).1 hexact.1

/-- The store of a daemon without entries. -/
theorem storesEntries_empty : StoresEntries cfg ∅ fun _ => none :=
  fun _ => ⟨fun _ => rfl, fun _ h => nomatch h⟩

/-- An entry that is put. -/
theorem StoresEntries.insert (h : StoresEntries cfg db stored) (key : List Char)
    (hmd : md.InRange) :
    StoresEntries cfg (db.insert key ⟨some (md.serialize cfg), []⟩)
      (update stored key (some md)) := by
  intro key'
  by_cases hkey : key' = key
  · rw [hkey, update_self, DB.cell_insert_self]
    refine ⟨fun hnone => (nomatch hnone), fun md' hsome => ?_⟩
    cases hsome
    exact ⟨rfl, hmd⟩
  · rw [update_of_ne hkey, DB.cell_insert_ne hkey]
    exact h key'

end

/-- An entry of the given type and size. -/
def plainEntry (mode size : Nat) : Metadata :=
  ⟨0, 0, 5, mode, 1, size, 0, [], []⟩

variable {size : Nat}

theorem plainEntry_inRange {mode : Nat} (hmode : mode < 2 ^ 32) (hsize : size < 2 ^ 64) :
    (plainEntry mode size).InRange := by
  have hlong : Metadata.IsLong 0 ∧ Metadata.IsLong 5 := by decide
  have hcount : 1 < 2 ^ 64 := by decide
  exact ⟨hmode, hsize, hlong.1, hlong.1, hlong.2, hcount, hlong.1, not_mem_nil,
    not_mem_nil⟩

/-- The directory `/a`. -/
def dirA : CanonicalPath := ⟨["a".toList], by decide⟩

/-- The entries `/a`, `/a.c`, `/a/b` and `/a/b/c`, of which `/a/b` has a given size. The sibling
`/a.c` comes between the directory and what is below it. -/
def storedBelowA (size : Nat) : List Char → Option Metadata :=
  update (update (update (update (fun _ => none)
    "/a".toList (some (plainEntry 0o40755 0)))
    "/a.c".toList (some (plainEntry 0o100644 3)))
    "/a/b".toList (some (plainEntry 0o100644 size)))
    "/a/b/c".toList (some (plainEntry 0o100644 7))

/-- A daemon with these entries. -/
def daemonBelowA (cfg : MetadataConfig) (size : Nat) : MetadataDaemon where
  db := (((AList.insert "/a".toList ⟨some ((plainEntry 0o40755 0).serialize cfg), []⟩ ∅).insert
    "/a.c".toList ⟨some ((plainEntry 0o100644 3).serialize cfg), []⟩).insert
    "/a/b".toList ⟨some ((plainEntry 0o100644 size).serialize cfg), []⟩).insert
    "/a/b/c".toList ⟨some ((plainEntry 0o100644 7).serialize cfg), []⟩
  reserve := fun _ => none
  storage := ∅

theorem storesEntries_belowA (cfg : MetadataConfig) (hsize : size < 2 ^ 64) :
    StoresEntries cfg (daemonBelowA cfg size).db (storedBelowA size) :=
  (((storesEntries_empty.insert _ (plainEntry_inRange (by decide) (by decide))).insert _
    (plainEntry_inRange (by decide) (by decide))).insert _
    (plainEntry_inRange (by decide) hsize)).insert _ (plainEntry_inRange (by decide) (by decide))

/-- If all sizes can be read, the listings of `/a` have its one entry. -/
theorem direntsExact_iff_belowA :
    StoresEntries allFields (daemonBelowA allFields 9).db (storedBelowA 9) ∧
      ChildSizesOk (storedBelowA 9) dirA ∧
      DirentsExact allFields (daemonBelowA allFields 9) (storedBelowA 9) dirA ∧
      ((daemonBelowA allFields 9).getDirentsExtendedImpl allFields
        (direntsRoot dirA.text)).1.toOption = some [("b".toList, false, 9, 5)] := by
  have hstores := storesEntries_belowA allFields (show 9 < 2 ^ 64 by decide)
  have hsizes : ChildSizesOk (storedBelowA 9) dirA := by
    intro name md _ _ hmd
    simp only [storedBelowA, update_apply] at hmd
    split_ifs at hmd <;> cases hmd <;> decide
  exact ⟨hstores, hsizes, (direntsExact_iff hstores dirA).2 hsizes, by decide +kernel⟩

/-- A file of 2^63 bytes is an entry of `/a`, and both listings of `/a` throw. -/
theorem dirents_throw_large :
    StoresEntries allFields (daemonBelowA allFields (2 ^ 63)).db (storedBelowA (2 ^ 63)) ∧
      ((daemonBelowA allFields (2 ^ 63)).getDirentsImpl allFields
        (direntsRoot dirA.text)).1.toOption = none ∧
      ((daemonBelowA allFields (2 ^ 63)).getDirentsExtendedImpl allFields
        (direntsRoot dirA.text)).1.toOption = none ∧
      ¬ DirentsExact allFields (daemonBelowA allFields (2 ^ 63)) (storedBelowA (2 ^ 63)) dirA := by
  have hthrow : ((daemonBelowA allFields (2 ^ 63)).getDirentsImpl allFields
      (direntsRoot dirA.text)).1.toOption = none := by decide +kernel
  refine ⟨storesEntries_belowA allFields (by decide), hthrow, by decide +kernel, ?_⟩
  rintro ⟨⟨entries, hok, -⟩, -⟩
  rw [hok] at hthrow
  cases hthrow

end GekkoFS
