import GekkoFS.Daemon.MetadataBackends
import GekkoFS.Daemon.StoredEntry

/-!
# Directory listings

A daemon lists a directory by walking over its keys in their order, from the path of the directory
with a slash on, to the first key that does not start with it. The keys that do are next to each
other (`prefix_of_between`), so the walk does not end before it has come to all of them, and a
listing that succeeds has every entry below the directory in it (`mem_getDirentsImpl`).
-/

namespace GekkoFS

open List MetadataDaemon

/-! ## The handler -/

/-- The answer to a listing and the entries that it pushes into the client's buffer. Source:
`rpc_srv_get_dirents` (`srv_metadata.cpp:535`), where every bulk transfer succeeds. -/
def rpcSrvGetDirents (cfg : MetadataConfig) (st : MetadataDaemon) (path : List Char)
    (bulkSize : Nat) : (Int × List (List Char × Bool)) × MetadataDaemon :=
  match getDirentsImpl cfg st (direntsRoot path) with
  | (.error _, st) => (( EIO, []), st)
  | (.ok entries, st) =>
    if entries = [] then ((0, []), st)
    else if bulkSize < (entries.map fun e => e.1.length).sum + entries.length * 2 then
      ((ENOBUFS, []), st)
    else ((0, entries), st)

/-- A listing leaves the entries and the chunk files alone. -/
theorem rpcSrvGetDirents_snd (cfg : MetadataConfig) (st : MetadataDaemon) (path : List Char)
    (bulkSize : Nat) :
    (rpcSrvGetDirents cfg st path bulkSize).2.db = st.db ∧
      (rpcSrvGetDirents cfg st path bulkSize).2.storage = st.storage := by
  rw [rpcSrvGetDirents, getDirentsImpl]
  cases direntsLoop _ cfg (direntsRoot path) _ with
  | error e => exact ⟨rfl, rfl⟩
  | ok entries =>
    dsimp only
    split
    · exact ⟨rfl, rfl⟩
    · split
      · exact ⟨rfl, rfl⟩
      · exact ⟨rfl, rfl⟩

variable {cfg : MetadataConfig} {entries : List (List Char × Bool)} {root name : List Char}
  {st : MetadataDaemon} {key : List Char}
  {items : List (List Char × Except DBException (List Char))} {α : Type*}

/-- A listing that succeeds returns what the backend lists. -/
theorem getDirentsImpl_of_rpcSrvGetDirents {path : List Char} {bulkSize : Nat}
    (h : (rpcSrvGetDirents cfg st path bulkSize).1 = (0, entries)) :
    (getDirentsImpl cfg st (direntsRoot path)).1 = .ok entries := by
  have hio : ( EIO : Int) ≠ 0 := by decide
  have hnobufs : (ENOBUFS : Int) ≠ 0 := by decide
  rw [rpcSrvGetDirents, getDirentsImpl] at h
  rw [getDirentsImpl]
  cases hloop : direntsLoop _ cfg (direntsRoot path) _ with
  | error e =>
    rw [hloop] at h
    exact absurd (congrArg Prod.fst h) hio
  | ok l =>
    rw [hloop] at h
    dsimp only at h ⊢
    split at h
    · next hnil =>
      rw [hnil, ← (Prod.mk.inj h).2]
    · split at h
      · exact absurd (congrArg Prod.fst h) hnobufs
      · rw [← (Prod.mk.inj h).2]

/-! ## The keys below a path -/

/-- A key that starts with a path is not before it. -/
theorem not_append_lt (root name : List Char) : ¬ root ++ name < root := by
  induction root with
  | nil => exact not_lt_nil name
  | cons c root ih =>
    rw [cons_append, cons_lt_cons_iff]
    rintro (hlt | ⟨-, hlt⟩)
    · exact lt_irrefl c hlt
    · exact ih hlt

/-- A key between a path and a key that starts with it starts with it too. -/
theorem prefix_of_between (hroot : ¬ key < root)
    (hkey : ¬ root ++ name < key) : root <+: key := by
  induction root generalizing key with
  | nil => exact List.nil_prefix
  | cons c root ih =>
    cases key with
    | nil => exact absurd (nil_lt_cons c root) hroot
    | cons d key =>
      rw [cons_append, cons_lt_cons_iff, not_or] at hkey
      rw [cons_lt_cons_iff, not_or] at hroot
      obtain rfl : c = d := le_antisymm (not_lt.1 hroot.1) (not_lt.1 hkey.1)
      exact cons_prefix_cons.2
        ⟨rfl, ih (fun h => hroot.2 ⟨rfl, h⟩) (fun h => hkey.2 ⟨rfl, h⟩)⟩

/-- A walk that gets past a key has read its entry. -/
theorem direntsLoop_cons {inside : List Char → Bool} {value : Except DBException (List Char)}
    (hinside : inside key = true)
    (h : direntsLoop inside cfg root ((key, value) :: items) = .ok entries) :
    ∃ text entry rest, value = .ok text ∧ dirent cfg root key text = .ok entry ∧
      direntsLoop inside cfg root items = .ok rest ∧ entries = entry.toList ++ rest := by
  rw [direntsLoop] at h
  cases value with
  | error e => cases h
  | ok text =>
    simp only [bind, Except.bind, hinside, if_true] at h
    cases hentry : dirent cfg root key text with
    | error e =>
      rw [hentry] at h
      cases h
    | ok entry =>
      rw [hentry] at h
      dsimp only at h
      cases hrest : direntsLoop inside cfg root items with
      | error e =>
        rw [hrest] at h
        cases h
      | ok rest =>
        rw [hrest] at h
        cases h
        exact ⟨text, entry, rest, rfl, hentry, rfl, rfl⟩

/-- The walk over sorted keys that are not before a path comes to every key below it. -/
theorem mem_direntsLoop {text : List Char}
    {e : List Char × Bool}
    (hsorted : (items.map Prod.fst).Pairwise (· ≤ ·))
    (hfrom : ∀ p ∈ items, ¬ p.1 < root) (hmem : (root ++ name, .ok text) ∈ items)
    (hentry : dirent cfg root (root ++ name) text = .ok (some e))
    (h : direntsLoop root.isPrefixOf cfg root items = .ok entries) : e ∈ entries := by
  induction items generalizing entries with
  | nil => exact absurd hmem not_mem_nil
  | cons p items ih =>
    obtain ⟨key, value⟩ := p
    rw [map_cons, pairwise_cons] at hsorted
    have hle : key ≤ root ++ name := by
      rcases mem_cons.1 hmem with heq | hmem
      · exact (Prod.mk.inj heq).1.ge
      · exact hsorted.1 _ (mem_map_of_mem hmem)
    -- the walk does not end here, since the key is between the path and the one below it
    have hinside : root.isPrefixOf key = true :=
      List.isPrefixOf_iff_prefix.2
        (prefix_of_between (hfrom _ mem_cons_self) (not_lt.2 hle))
    obtain ⟨text', entry, rest, hvalue, hentry', hrest, rfl⟩ := direntsLoop_cons hinside h
    rcases mem_cons.1 hmem with heq | hmem
    · obtain ⟨rfl, htext⟩ := Prod.mk.inj heq
      rw [hvalue] at htext
      cases htext
      rw [hentry] at hentry'
      cases hentry'
      exact mem_append_left _ mem_cons_self
    · exact mem_append_right _
        (ih hsorted.2 (fun q hq => hfrom q (mem_cons_of_mem _ hq)) hmem hrest)

/-- The iterator goes through the keys in their order. -/
theorem pairwise_iterateAll (db : DB) : (db.iterateAll.map Prod.fst).Pairwise (· ≤ ·) := by
  have hmap : db.iterateAll.map Prod.fst =
      (db.keys.filter fun key => db.cell key ≠ Cell.empty).insertionSort (· ≤ ·) := by
    rw [DB.iterateAll, map_map]
    exact map_id _
  rw [hmap]
  exact pairwise_insertionSort _ _

/-- Of sorted keys, those left after the ones before a path are not before it. -/
theorem not_lt_of_mem_dropWhile {l : List (List Char × α)}
    (hsorted : (l.map Prod.fst).Pairwise (· ≤ ·)) {p : List Char × α}
    (hp : p ∈ l.dropWhile fun p => p.1 < root) : ¬ p.1 < root := by
  induction l with
  | nil => exact absurd hp not_mem_nil
  | cons q l ih =>
    rw [map_cons, pairwise_cons] at hsorted
    rw [dropWhile_cons] at hp
    split at hp
    · exact ih hsorted.2 hp
    · next hq =>
      have hq : ¬ q.1 < root := fun hlt => hq (decide_eq_true hlt)
      rcases mem_cons.1 hp with rfl | hp
      · exact hq
      · exact fun hlt => hq (lt_of_le_of_lt (hsorted.1 _ (mem_map_of_mem hp)) hlt)

/-- A key that is not before a path is not skipped. -/
theorem mem_dropWhile_of_not_lt {l : List (List Char × α)}
    {p : List Char × α} (hp : p ∈ l) (hroot : ¬ p.1 < root) :
    p ∈ l.dropWhile fun p => p.1 < root := by
  induction l with
  | nil => exact hp
  | cons q l ih =>
    rw [dropWhile_cons]
    split
    · next hq =>
      rcases mem_cons.1 hp with rfl | hp
      · exact absurd (of_decide_eq_true hq) hroot
      · exact ih hp
    · exact hp

/-- A listing that succeeds has every entry below the path in it. -/
theorem mem_getDirentsImpl (hrename : cfg.hasRename = false) (hname : name ≠ [])
    (hslash : '/' ∉ name)
    {md : Metadata} (hentry : st.readEntry cfg (root ++ name) = some md)
    (h : (getDirentsImpl cfg st root).1 = .ok entries) :
    (name, isDir md.mode) ∈ entries := by
  obtain ⟨text, hget, hparse⟩ := readEntry_eq_some hentry
  have hne : st.db.cell (root ++ name) ≠ Cell.empty := fun hempty => by
    rw [readEntry_empty hempty] at hentry
    cases hentry
  have hmem : (root ++ name, st.db.cell (root ++ name)) ∈
      st.db.iterateAll.dropWhile fun p => p.1 < root :=
    mem_dropWhile_of_not_lt (DB.mem_iterateAll.2 ⟨hne, rfl⟩) (not_append_lt root name)
  have hdirent : dirent cfg root (root ++ name) text = .ok (some (name, isDir md.mode)) := by
    have hlength : (root ++ name).length ≠ root.length := by
      rw [length_append]
      have := length_pos_of_ne_nil hname
      omega
    rw [dirent, if_neg hlength, drop_left, if_neg hslash, hparse]
    simp [hrename]
  rw [getDirentsImpl] at h
  refine mem_direntsLoop ?_ ?_ ?_ hdirent h
  · rw [map_map]
    exact (pairwise_iterateAll st.db).sublist ((dropWhile_sublist _).map _)
  · intro p hp
    obtain ⟨q, hq, rfl⟩ := mem_map.1 hp
    exact not_lt_of_mem_dropWhile (pairwise_iterateAll st.db) hq
  · exact mem_map.2 ⟨_, hmem, by rw [hget]⟩

end GekkoFS
