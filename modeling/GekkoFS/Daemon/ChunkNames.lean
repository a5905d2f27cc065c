import GekkoFS.Common.CanonicalPath
import GekkoFS.Daemon.Redistribution

/-!
# The names of chunk directories

The chunk files of a path are in a directory that is named after the path, with colons in place of
the slashes, and a redistribution reads the path back from the name. A name on disk therefore stands
for one path only as long as the paths have no colons of their own: exactly then two paths have no
chunk file in common, and both are read back as they were (`chunkNamesOk_iff`).
-/

namespace GekkoFS

open ChunkStorage List

/-- The path of a chunk directory has that directory. -/
theorem getChunksDir_gkfsPath {dir : List Char} (h : '/' ∉ dir) :
    getChunksDir (gkfsPath dir) = dir := by
  rw [getChunksDir, gkfsPath, drop_succ_cons, drop_zero]
  exact Separated.map_replace_back h

/-- The path is read back from its chunk directory exactly if it has no colons. -/
theorem gkfsPath_getChunksDir_iff {rest : List Char} :
    gkfsPath (getChunksDir ('/' :: rest)) = '/' :: rest ↔ ':' ∉ '/' :: rest := by
  have hslash : ':' ≠ '/' := by decide
  rw [getChunksDir, gkfsPath, drop_succ_cons, drop_zero, cons_inj_right,
    Separated.map_replace_back_iff hslash.symm, mem_cons, not_or, and_iff_right hslash]

theorem slash_not_mem_getChunksDir (path : List Char) : '/' ∉ getChunksDir path :=
  Separated.not_mem_map_replace (by decide) _

/-- The directory is the part of the name of a chunk file in front of its slash. -/
theorem takeWhile_getChunkPath (path : List Char) (chunkId : Nat) :
    (getChunkPath path chunkId).takeWhile (· ≠ '/') = getChunksDir path := by
  have hall : ∀ c ∈ getChunksDir path, decide (c ≠ '/') = true := fun c hc =>
    decide_eq_true fun heq : c = '/' => slash_not_mem_getChunksDir path (heq ▸ hc)
  rw [getChunkPath, takeWhile_append_of_pos hall, takeWhile_cons_of_neg (by decide),
    append_nil]

/-- The names on disk tell two paths apart, and each path is read back from them. -/
structure ChunkNamesOk (p q : CanonicalPath) : Prop where
  ne : ∀ i j, getChunkPath p.text i ≠ getChunkPath q.text j
  left : gkfsPath (getChunksDir p.text) = p.text
  right : gkfsPath (getChunksDir q.text) = q.text

/-- When the names on disk tell two paths apart. -/
theorem chunkNamesOk_iff {p q : CanonicalPath} (hne : p ≠ q) :
    ChunkNamesOk p q ↔ ':' ∉ p.text ∧ ':' ∉ q.text := by
  constructor
  · intro h
    exact ⟨gkfsPath_getChunksDir_iff.1 h.left, gkfsPath_getChunksDir_iff.1 h.right⟩
  · rintro ⟨hp, hq⟩
    have hleft : gkfsPath (getChunksDir p.text) = p.text := gkfsPath_getChunksDir_iff.2 hp
    have hright : gkfsPath (getChunksDir q.text) = q.text := gkfsPath_getChunksDir_iff.2 hq
    refine ⟨fun i j heq => hne (CanonicalPath.text_injective ?_), hleft, hright⟩
    have hdir : getChunksDir p.text = getChunksDir q.text := by
      rw [← takeWhile_getChunkPath p.text i, heq, takeWhile_getChunkPath]
    rw [← hleft, hdir, hright]

/-- A dot in a name does no harm. -/
theorem chunkNamesOk_iff_dot :
    ChunkNamesOk (canonicalForm "/a/b".toList) (canonicalForm "/a.b".toList) :=
  (chunkNamesOk_iff (show canonicalForm "/a/b".toList ≠ canonicalForm "/a.b".toList by decide)).2
    ⟨by decide, by decide⟩

/-- The file `/a:b` and the file `b` of the directory `/a` have the same chunk files, and those of
`/a:b` are taken for chunk files of `/a/b`. -/
theorem chunkNames_colon :
    canonicalForm "/a:b".toList ≠ canonicalForm "/a/b".toList ∧
      getChunkPath (canonicalForm "/a:b".toList).text 0 =
        getChunkPath (canonicalForm "/a/b".toList).text 0 ∧
      gkfsPath (getChunksDir (canonicalForm "/a:b".toList).text) = "/a/b".toList ∧
      ¬ ChunkNamesOk (canonicalForm "/a:b".toList) (canonicalForm "/a/b".toList) :=
  ⟨by decide, by decide, by decide, fun h => h.ne 0 0 (by decide)⟩

end GekkoFS
