import GekkoFS.Client.Bitmaps
import GekkoFS.Striping
import GekkoFS.TouchedChunks

/-!
# Reading sparse files

The documentation asks for `zero_buffer_before_read` when files have holes: the buffer of a read is
zeroed, and what the daemons find is put over the zeros. A chunk file ends with the last byte that
was written to its chunk, and the holes before it are filled with zeros by the file system of the
daemon (`StoresSparse`). So the buffer of a read is always right. The size it returns is the number
of bytes that the chunk files reach, and that is the size of the range, cut at the end of the file,
if and only if each of its positions has a written byte at or behind it in its chunk
(`sparseReadOk_iff`).
-/

namespace GekkoFS

open List

/-! ## What is stored of a sparse file -/

/-- A byte of the chunk of a position is written, at the position or behind it. -/
def FlatFile.Reached (f : FlatFile) (pos : Nat) : Prop :=
  ∃ pos', pos ≤ pos' ∧ pos' / chunksize = pos / chunksize ∧ (f pos').isSome

section
variable {n : Nat} {d : Distributor n} {cl : Cluster n} {path : List Char} {f : FlatFile}
  {pos : Nat}

/-- The chunk files hold a file up to the last written byte of each chunk, with zeros in the holes
before it. -/
structure StoresSparse (d : Distributor n) (cl : Cluster n) (path : List Char) (f : FlatFile) :
    Prop where
  reached : ∀ pos, f.Reached pos → fileByte d cl path pos = some ((f pos).getD 0)
  missing : ∀ pos, ¬ f.Reached pos → fileByte d cl path pos = none

/-- A new file has no chunk files. -/
theorem storesSparse_empty (h : ∀ t id, (cl t).file? path id = none) :
    StoresSparse d cl path .empty where
  reached _ := fun ⟨_, _, _, hsome⟩ => absurd hsome Bool.false_ne_true
  missing pos _ := by rw [fileByte, h, Option.bind_none]

theorem StoresSparse.isSome_iff (h : StoresSparse d cl path f) :
    (fileByte d cl path pos).isSome ↔ f.Reached pos := by
  by_cases hpos : f.Reached pos
  · rw [h.reached pos hpos]
    exact iff_of_true rfl hpos
  · rw [h.missing pos hpos]
    exact iff_of_false Bool.false_ne_true hpos

/-- A position that is not reached is a hole. -/
theorem FlatFile.eq_none_of_not_reached (h : ¬ f.Reached pos) : f pos = none := by
  rw [← Option.not_isSome_iff_eq_none]
  exact fun hsome => h ⟨pos, le_rfl, rfl, hsome⟩

variable {offset : Nat} {buf : List UInt8} {ws : List (Nat × List UInt8)}

/-- The positions that a write reaches: its own, and those before it in its first chunk. -/
theorem FlatFile.reached_write (hpos : ¬ (offset ≤ pos ∧ pos < offset + buf.length))
    (hfirst : ¬ (pos < offset ∧ pos / chunksize = offset / chunksize)) :
    (f.write offset buf).Reached pos ↔ f.Reached pos := by
  constructor
  · rintro ⟨pos', hle, hchunk, hsome⟩
    rw [FlatFile.write] at hsome
    split at hsome
    · next hin =>
      -- the write starts between the position and the byte that reaches it
      have hlt : pos < offset := by omega
      have h₁ := Nat.div_le_div_right (c := chunksize) hlt.le
      have h₂ := Nat.div_le_div_right (c := chunksize) hin.1
      exact absurd ⟨hlt, by omega⟩ hfirst
    · exact ⟨pos', hle, hchunk, hsome⟩
  · rintro ⟨pos', hle, hchunk, hsome⟩
    refine ⟨pos', hle, hchunk, ?_⟩
    rw [FlatFile.write]
    split
    · next hin =>
      rw [getElem?_eq_getElem (by omega), Option.isSome_some]
    · exact hsome

/-- A write of the client is a write of the sparse file. -/
theorem StoresSparse.forwardWrite (h : StoresSparse d cl path f) (ho : offset < 2 ^ 63)
    (hs : 0 < buf.length) (hs' : buf.length < 2 ^ 34) :
    StoresSparse d (GekkoFS.forwardWrite d (fun _ => .delivered) cl path buf offset 0).2 path
      (f.write offset buf) := by
  have hbyte := fileByte_forwardWrite d cl path ho hs hs'
  constructor
  · intro pos hreached
    rw [hbyte]
    by_cases hpos : offset ≤ pos ∧ pos < offset + buf.length
    · rw [if_pos hpos, FlatFile.write, if_pos hpos, getElem?_eq_getElem (by omega),
        Option.getD_some]
    rw [if_neg hpos, FlatFile.write, if_neg hpos]
    by_cases hfirst : pos < offset ∧ pos / chunksize = offset / chunksize
    · rw [if_pos hfirst]
      by_cases hold : f.Reached pos
      · rw [h.reached pos hold, Option.getD_some]
      · rw [h.missing pos hold, FlatFile.eq_none_of_not_reached hold]
    · rw [if_neg hfirst]
      exact h.reached pos ((FlatFile.reached_write hpos hfirst).1 hreached)
  · intro pos hmissing
    have hpos : ¬ (offset ≤ pos ∧ pos < offset + buf.length) := fun hpos => by
      refine hmissing ⟨pos, le_rfl, rfl, ?_⟩
      rw [FlatFile.write, if_pos hpos, getElem?_eq_getElem (by omega), Option.isSome_some]
    have hfirst : ¬ (pos < offset ∧ pos / chunksize = offset / chunksize) := fun hfirst => by
      refine hmissing ⟨offset, hfirst.1.le, hfirst.2.symm, ?_⟩
      rw [FlatFile.write, if_pos ⟨le_rfl, by omega⟩, getElem?_eq_getElem (by omega),
        Option.isSome_some]
    rw [hbyte, if_neg hpos, if_neg hfirst]
    exact h.missing pos (mt (FlatFile.reached_write hpos hfirst).2 hmissing)

/-- Writes of the client are writes of the sparse file. -/
theorem StoresSparse.forwardWrites (h : StoresSparse d cl path f)
    (hws : ∀ w ∈ ws, w.1 < 2 ^ 63 ∧ 1 ≤ w.2.length ∧ w.2.length < 2 ^ 31) :
    StoresSparse d (GekkoFS.forwardWrites d path ws cl).2 path (f.writes ws) := by
  induction ws generalizing cl f with
  | nil => exact h
  | cons w ws ih =>
    obtain ⟨ho, hs, hs'⟩ := hws w mem_cons_self
    rw [GekkoFS.forwardWrites]
    exact ih (h.forwardWrite ho hs (hs'.trans (by decide)))
      fun w' hw' => hws w' (mem_cons_of_mem w hw')

/-! ## Reading -/

/-- A byte of the chunk of a position is written by one of the extents, at the position or behind
it. -/
def ReachedBy (extents : List (Nat × List UInt8)) (pos : Nat) : Prop :=
  ∃ w ∈ extents, pos < w.1 + w.2.length ∧ w.1 < (pos / chunksize + 1) * chunksize

instance (extents : List (Nat × List UInt8)) (pos : Nat) : Decidable (ReachedBy extents pos) :=
  inferInstanceAs (Decidable (∃ w ∈ extents, _))

/-- A byte that was written is one of an extent. -/
theorem FlatFile.exists_extent (h : (f.writes ws pos).isSome) :
    (f pos).isSome ∨ ∃ w ∈ ws, w.1 ≤ pos ∧ pos < w.1 + w.2.length := by
  induction ws generalizing f with
  | nil => exact .inl h
  | cons w ws ih =>
    rcases ih (f := f.write w.1 w.2) h with hsome | ⟨w', hw', hin⟩
    · rw [FlatFile.write] at hsome
      split at hsome
      · next hin => exact .inr ⟨w, mem_cons_self, hin⟩
      · exact .inl hsome
    · exact .inr ⟨w', mem_cons_of_mem w hw', hin⟩

theorem reached_writes_iff (hws : ∀ w ∈ ws, 1 ≤ w.2.length) :
    (FlatFile.empty.writes ws).Reached pos ↔ ReachedBy ws pos := by
  constructor
  · rintro ⟨pos', hle, hchunk, hsome⟩
    obtain hsome | ⟨w, hw, hlow, hhigh⟩ := FlatFile.exists_extent hsome
    · exact absurd hsome Bool.false_ne_true
    · refine ⟨w, hw, hle.trans_lt hhigh, hlow.trans_lt ?_⟩
      rw [← hchunk, ← Nat.div_lt_iff_lt_mul chunksize_pos]
      exact Nat.lt_succ_self _
  · rintro ⟨w, hw, hend, hstart⟩
    have hpos := hws w hw
    refine ⟨max pos w.1, le_max_left _ _, ?_,
      FlatFile.isSome_writes (.inl ⟨w, hw, le_max_right _ _, by omega⟩)⟩
    rw [Nat.div_eq_iff chunksize_pos]
    have hdiv := Nat.div_add_mod' pos chunksize
    have hmod := Nat.mod_lt pos chunksize_pos
    rw [Nat.succ_mul] at hstart
    omega

/-- A read at an offset of a file of size `s`, as it should be. -/
structure SparseReadOk (ret : Except Int Int × List UInt8) (f : FlatFile) (s offset count : Nat) :
    Prop where
  returned : ret.1 = .ok ((min count (s - offset) : Nat) : Int)
  length : ret.2.length = count
  filled : ∀ i < count, ret.2[i]? = some ((f (offset + i)).getD 0)

/-- How many of the first numbers a predicate holds of, if it holds of none from `m` on. -/
theorem countP_range_eq_iff {p : Nat → Bool} {m n : Nat} (hle : m ≤ n)
    (hp : ∀ i < n, p i = true → i < m) :
    (List.range n).countP p = m ↔ ∀ i < m, p i = true := by
  obtain ⟨rest, rfl⟩ := Nat.exists_eq_add_of_le hle
  have hhigh : ((List.range rest).map (m + ·)).countP p = 0 := by
    refine countP_eq_zero.2 fun k hk hpk => ?_
    obtain ⟨i, hi, rfl⟩ := mem_map.1 hk
    have := hp (m + i) (Nat.add_lt_add_left (mem_range.1 hi) m) hpk
    omega
  have hlow : (List.range m).countP p = m ↔ ∀ i ∈ List.range m, p i = true := by
    rw [← countP_eq_length, length_range]
  rw [range_add, countP_append, hhigh, Nat.add_zero, hlow]
  simp only [mem_range]

/-- How many of the bytes of a range are stored. -/
def foundCount (d : Distributor n) (cl : DaemonCluster n) (path : List Char) (offset count : Nat) :
    Nat :=
  (List.range count).countP fun i => (fileByte d (storages cl) path (offset + i)).isSome

/-- A read returns how many bytes of its range are stored, and has them in the buffer over the zeros
or the bytes that the caller passed. -/
theorem gkfsDoRead_found {fs : FileSystem n} {offset : Int64} (ho : 0 ≤ offset.toInt)
    {buf : List UInt8} (hs : 0 < buf.length) (hs' : buf.length < 2 ^ 62)
    (hw : AssignedPerWindow offset.toInt.toNat buf.length fun chnkId t =>
      d.locateData path chnkId 0 = t) (zeroBufferBeforeRead : Bool) :
    ∃ buf', fs.gkfsDoRead zeroBufferBeforeRead d path buf offset =
        (.ok (foundCount d fs.daemons path offset.toInt.toNat buf.length : Int), buf') ∧
      buf'.length = buf.length ∧
      ∀ i < buf.length, buf'[i]? =
        (fileByte d (storages fs.daemons) path (offset.toInt.toNat + i)).or
          (if zeroBufferBeforeRead then some 0 else buf[i]?) := by
  have hlt := offset.toInt_lt
  have hword : (offset.toInt % 2 ^ 64).toNat = offset.toInt.toNat := by omega
  have hsmall : offset.toInt.toNat < 2 ^ 63 := by omega
  obtain ⟨base, hbase⟩ : ∃ base, (if zeroBufferBeforeRead then List.replicate buf.length 0
    else buf) = base := ⟨_, rfl⟩
  have hlen : base.length = buf.length := by
    rw [← hbase]
    split
    · exact length_replicate
    · rfl
  have hbyte : ∀ i < buf.length, base[i]? = if zeroBufferBeforeRead then some 0 else buf[i]? := by
    intro i hi
    rw [← hbase]
    split
    · rw [getElem?_replicate, if_pos hi]
    · rfl
  rw [FileSystem.gkfsDoRead, hbase, foundCount]
  rw [← hlen] at hs hs' hw
  obtain ⟨r, hread, hresult, hlength, hbuf⟩ := forwardRead_found d (storages fs.daemons) path
    hsmall hs hs' (hw.perWindow hsmall hs hs') ∅ fun _ => []
  rw [← hword, forwardRead_eq_readData, Option.some.injEq] at hread
  rw [hlen] at hresult hlength hbuf
  rw [hread, hresult, if_neg (not_not.2 rfl)]
  exact ⟨r.buf, rfl, hlength, fun i hi => by rw [hbuf i hi, hbyte i hi]⟩

/-- With a zeroed buffer, a read has the bytes of the file in the buffer and zeros in its holes. -/
theorem StoresSparse.getElem?_read {fs : FileSystem n}
    (h : StoresSparse d (storages fs.daemons) path f) (pos : Nat) :
    (fileByte d (storages fs.daemons) path pos).or (some 0) = some ((f pos).getD 0) := by
  by_cases hreached : f.Reached pos
  · rw [h.reached _ hreached, Option.some_or]
  · rw [h.missing _ hreached, FlatFile.eq_none_of_not_reached hreached, Option.none_or,
      Option.getD_none]

/-- A read of a sparse file with a zeroed buffer is as it should be if and only if each position of
its range, cut at the end of the file, has a written byte at or behind it in its chunk. The file is
new before the writes, and the read is one that the client plans and the daemons understand as it
is meant. -/
theorem sparseReadOk_iff (hnew : ∀ t id, (cl t).file? path id = none)
    {ws : List (Nat × List UInt8)}
    (hws : ∀ w ∈ ws, w.1 < 2 ^ 63 ∧ 1 ≤ w.2.length ∧ w.2.length < 2 ^ 31) {fs : FileSystem n}
    (hfs : storages fs.daemons = (forwardWrites d path ws cl).2) {s : Nat}
    (hsize : ∀ w ∈ ws, w.1 + w.2.length ≤ s) {offset : Int64} (ho : 0 ≤ offset.toInt)
    (hstart : offset.toInt.toNat < s) {buf : List UInt8} (hs' : buf.length < 2 ^ 62)
    (hrange : RangeOk offset.toInt.toNat buf.length)
    (hw : AssignedPerWindow offset.toInt.toNat buf.length fun chnkId t =>
      d.locateData path chnkId 0 = t) :
    SparseReadOk (fs.gkfsDoRead true d path buf offset) (FlatFile.empty.writes ws) s
        offset.toInt.toNat buf.length ↔
      ∀ pos, offset.toInt.toNat ≤ pos → pos < min (offset.toInt.toNat + buf.length) s →
        ReachedBy ws pos := by
  have hstores := (storesSparse_empty hnew).forwardWrites (d := d) hws
  rw [← hfs] at hstores
  rcases Nat.eq_zero_or_pos buf.length with hzero | hs
  · obtain rfl := length_eq_zero_iff.1 hzero
    rw [gkfsDoRead_nil ho hrange]
    refine iff_of_true ⟨?_, rfl, fun i hi => absurd hi (Nat.not_lt_zero i)⟩ fun pos hlow hhigh => ?_
    · rw [length_nil, Nat.zero_min]
      rfl
    · rw [length_nil] at hhigh
      omega
  · obtain ⟨buf', hread, hlength, hbytes⟩ := gkfsDoRead_found ho hs hs' hw true
    have hfilled : ∀ i < buf.length,
        buf'[i]? = some ((FlatFile.empty.writes ws (offset.toInt.toNat + i)).getD 0) :=
      fun i hi => (hbytes i hi).trans (hstores.getElem?_read _)
    rw [hread]
    have hreached : ∀ pos, (fileByte d (storages fs.daemons) path pos).isSome ↔ ReachedBy ws pos :=
      fun pos => hstores.isSome_iff.trans (reached_writes_iff fun w hw => (hws w hw).2.1)
    have hcount := @countP_range_eq_iff
      (fun i => (fileByte d (storages fs.daemons) path (offset.toInt.toNat + i)).isSome)
      (min buf.length (s - offset.toInt.toNat)) buf.length (Nat.min_le_left _ _)
      fun i hi hsome => by
        obtain ⟨w, hw, hend, -⟩ := (hreached _).1 hsome
        have := hsize w hw
        omega
    constructor
    · intro h pos hlow hhigh
      have heq := h.returned
      rw [Except.ok.injEq, Int.natCast_inj, foundCount, hcount] at heq
      have hpos := heq (pos - offset.toInt.toNat) (by omega)
      rwa [Nat.add_sub_cancel' hlow, hreached] at hpos
    · intro h
      refine ⟨?_, hlength, hfilled⟩
      rw [foundCount, hcount.2 fun i hi => (hreached _).2 (h _ (Nat.le_add_right _ _) (by omega))]

end

/-! ### Runs on fixed inputs -/

/-- Two daemons without entries, that hold the chunk files of a file `/f` with some extents. -/
def twoDaemonsWith (extents : List (Nat × List UInt8)) : FileSystem 2 :=
  ⟨none, withStorages (fun _ => ⟨∅, fun _ => none, ∅⟩)
    (forwardWrites (simpleHashDistributor List.length 2 Nat.two_pos) "/f".toList extents
      fun _ => ∅).2⟩

theorem storages_twoDaemonsWith (extents : List (Nat × List UInt8)) :
    storages (twoDaemonsWith extents).daemons =
      (forwardWrites (simpleHashDistributor List.length 2 (by decide)) "/f".toList extents
        fun _ => ∅).2 :=
  rfl

/-- A hole in a chunk and one at the start of the next chunk, each with a byte behind it. -/
theorem sparseReadOk_iff_holes :
    let d := simpleHashDistributor List.length 2 (by decide)
    let extents := [(524287, [1]), (524289, [2])]
    SparseReadOk ((twoDaemonsWith extents).gkfsDoRead true d "/f".toList [7, 7, 7, 7, 7] 524286)
      (FlatFile.empty.writes extents) 524290 524286 5 := by
  have hread := @sparseReadOk_iff 2 (simpleHashDistributor List.length 2 (by decide)) (fun _ => ∅)
    "/f".toList (fun _ _ => rfl) [(524287, [1]), (524289, [2])] (by decide)
    (twoDaemonsWith [(524287, [1]), (524289, [2])]) (storages_twoDaemonsWith _) 524290 (by decide)
    524286 (by decide) (by decide) [7, 7, 7, 7, 7] (by decide) (by decide)
    (assignedPerWindow_of_length _ (by decide))
  refine hread.2 fun pos hlow hhigh => ?_
  have hreached : ∀ i < 4, ReachedBy [(524287, [1]), (524289, [2])] (524286 + i) := by decide
  have hoffset : (524286 : Int64).toInt.toNat = 524286 := by decide
  rw [hoffset] at hlow hhigh
  obtain ⟨i, rfl⟩ := Nat.exists_eq_add_of_le hlow
  exact hreached i (Nat.add_lt_add_iff_left.1 (lt_min_iff.1 hhigh).2)

/-- A read that starts before the end of the first chunk, of which only the first byte is written,
returns 1 instead of 3, with the right bytes in the buffer; one of a chunk that is missing returns
0, as at the end of a file. -/
theorem sparse_read_short :
    let d := simpleHashDistributor List.length 2 (by decide)
    let extents := [(0, [1]), (524288, [2]), (1572864, [3])]
    let ret := (twoDaemonsWith extents).gkfsDoRead true d "/f".toList [7, 7, 7] 524286
    ret = (.ok 1, [0, 0, 2]) ∧
      ¬ SparseReadOk ret (FlatFile.empty.writes extents) 1572865 524286 3 ∧
      (twoDaemonsWith extents).gkfsDoRead true d "/f".toList [7, 7] 1048576 = (.ok 0, [0, 0]) := by
  have hret : (twoDaemonsWith [(0, [1]), (524288, [2]), (1572864, [3])]).gkfsDoRead true
      (simpleHashDistributor List.length 2 (by decide)) "/f".toList [7, 7, 7] 524286 =
      (.ok 1, [0, 0, 2]) := by
    decide +kernel
  refine ⟨hret, fun h => ?_, by decide +kernel⟩
  have hreturned := h.returned
  rw [hret] at hreturned
  exact absurd hreturned (by decide)

end GekkoFS
