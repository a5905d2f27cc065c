import GekkoFS.VectoredWrites

/-!
# Vectored and plain calls

`gkfs_readv` should do what `gkfs_read` does with the segments as one buffer. A vectored read stops
at the first segment that is not filled, while a plain one also counts what is stored behind a hole
(`readvAgrees_iff`). `vectoredAgrees_iff` is this together with the result on writes.
-/

namespace GekkoFS

open FileSystem Function List

/-! ## Reads of segments -/

section
variable {n : Nat} {d : Distributor n} {cl : DaemonCluster n} {path : List Char} {offset : Nat}

/-- Chunks of a part of a range are assigned alike if those of the range are. -/
theorem AssignedPerWindow.part {size offset' size' : Nat} {assigned : Nat → Fin n → Prop}
    (h : AssignedPerWindow offset size assigned) (hstart : offset ≤ offset') (hs : 0 < size')
    (hpart : offset' + size' ≤ offset + size) (hend : offset + size < 2 ^ 63) :
    AssignedPerWindow offset' size' assigned := by
  have hfirst : chnkStart offset ≤ chnkStart offset' := by
    rw [chnkStart_eq (by omega), chnkStart_eq (by omega)]
    exact Nat.div_le_div_right hstart
  have hlast : chnkEnd offset' size' ≤ chnkEnd offset size := by
    rw [chnkEnd_of_pos hs (by omega), chnkEnd_of_pos (by omega) (by omega)]
    exact Nat.div_le_div_right (by omega)
  intro t chnkId hid chnkId' hid' hmod
  rw [mem_chunkIds_iff] at hid hid'
  refine h t chnkId (mem_chunkIds_iff.2 (by omega)) chnkId' (mem_chunkIds_iff.2 (by omega)) ?_
  omega

variable (d cl path) in
theorem foundCount_le
    (offset count : Nat) : foundCount d cl path offset count ≤ count := by
  have hle := countP_le_length (l := List.range count)
    (p := fun i => (fileByte d (storages cl) path (offset + i)).isSome)
  rwa [length_range] at hle

theorem foundCount_eq_iff {count : Nat} :
    foundCount d cl path offset count = count ↔
      ∀ i < count, (fileByte d (storages cl) path (offset + i)).isSome :=
  countP_range_eq_iff le_rfl fun _ hi _ => hi

theorem foundCount_eq_zero_iff {count : Nat} :
    foundCount d cl path offset count = 0 ↔
      ∀ i < count, fileByte d (storages cl) path (offset + i) = none := by
  rw [foundCount, countP_eq_zero]
  refine forall_congr' fun i => ?_
  rw [mem_range, Option.not_isSome_iff_eq_none]

theorem foundCount_add (offset count count' : Nat) :
    foundCount d cl path offset (count + count') =
      foundCount d cl path offset count + foundCount d cl path (offset + count) count' := by
  rw [foundCount, range_add, countP_append, countP_map]
  congr 1
  refine countP_congr fun i _ => ?_
  rw [comp_apply, Nat.add_assoc]

/-- How many bytes segments get from a position on, if the first segment that does not get all its
bytes is the last one. -/
def vectorCount (d : Distributor n) (cl : DaemonCluster n) (path : List Char) :
    Nat → List (List UInt8) → Nat
  | _, [] => 0
  | pos, seg :: iov =>
    if foundCount d cl path pos seg.length < seg.length then foundCount d cl path pos seg.length
    else seg.length + vectorCount d cl path (pos + seg.length) iov

/-- No byte is stored for the segments behind one that does not get all its bytes. -/
def FoundInOrder (d : Distributor n) (cl : DaemonCluster n) (path : List Char) :
    Nat → List (List UInt8) → Prop
  | _, [] => True
  | pos, seg :: iov =>
    ((∀ i < seg.length, (fileByte d (storages cl) path (pos + i)).isSome) ∨
      ∀ i < iov.flatten.length, fileByte d (storages cl) path (pos + seg.length + i) = none) ∧
    FoundInOrder d cl path (pos + seg.length) iov

/-- A vectored read finds no more. -/
theorem vectorCount_le (pos : Nat) (iov : List (List UInt8)) :
    vectorCount d cl path pos iov ≤ foundCount d cl path pos iov.flatten.length := by
  induction iov generalizing pos with
  | nil => exact Nat.zero_le _
  | cons seg iov ih =>
    rw [vectorCount, flatten_cons, length_append, foundCount_add]
    split
    · exact Nat.le_add_right _ _
    · next hfull =>
      have hle := ih (pos + seg.length)
      omega

theorem foundInOrder_of_none {pos : Nat} {iov : List (List UInt8)}
    (h : ∀ i < iov.flatten.length, fileByte d (storages cl) path (pos + i) = none) :
    FoundInOrder d cl path pos iov := by
  induction iov generalizing pos with
  | nil => trivial
  | cons seg iov ih =>
    rw [flatten_cons, length_append] at h
    have hrest : ∀ i < iov.flatten.length,
        fileByte d (storages cl) path (pos + seg.length + i) = none := by
      intro i hi
      rw [Nat.add_assoc]
      exact h (seg.length + i) (by omega)
    exact ⟨.inr hrest, ih hrest⟩

/-- The segments get all bytes that are stored if and only if those are found in order. -/
theorem vectorCount_eq_iff (pos : Nat) (iov : List (List UInt8)) :
    vectorCount d cl path pos iov = foundCount d cl path pos iov.flatten.length ↔
      FoundInOrder d cl path pos iov := by
  induction iov generalizing pos with
  | nil => exact iff_of_true rfl trivial
  | cons seg iov ih =>
    rw [vectorCount, flatten_cons, length_append, foundCount_add, FoundInOrder]
    split
    · next hshort =>
      have hnot : ¬ ∀ i < seg.length, (fileByte d (storages cl) path (pos + i)).isSome :=
        fun hall => hshort.ne (foundCount_eq_iff.2 hall)
      rw [or_iff_right hnot, ← foundCount_eq_zero_iff]
      constructor
      · intro heq
        have hzero : foundCount d cl path (pos + seg.length) iov.flatten.length = 0 := by omega
        exact ⟨hzero, foundInOrder_of_none (foundCount_eq_zero_iff.1 hzero)⟩
      · rintro ⟨hzero, -⟩
        rw [hzero, Nat.add_zero]
    · next hfull =>
      have hall : foundCount d cl path pos seg.length = seg.length :=
        Nat.le_antisymm (foundCount_le ..) (Nat.le_of_not_lt hfull)
      rw [hall, Nat.add_left_cancel_iff, ih, ← foundCount_eq_iff, and_iff_right (.inl hall)]

/-- The byte that a buffer has at an index after a read from `start` on, if it had `old` there. -/
def readByte (d : Distributor n) (cl : DaemonCluster n) (path : List Char)
    (zeroBufferBeforeRead : Bool) (start i : Nat) (old : Option UInt8) : Option UInt8 :=
  (fileByte d (storages cl) path (start + i)).or (if zeroBufferBeforeRead then some 0 else old)

/-- Segments get their bytes up to the first one that does not get all of them. -/
theorem readSegments_found {fs : FileSystem n} {file : OpenFile} (hfile : file.isDirectory = false)
    (zeroBufferBeforeRead : Bool) (i : Nat) (done : Int) {pos : Int64} {start : Nat}
    (hstart : pos.toInt = start) {iov : List (List UInt8)}
    (hend : start + iov.flatten.length < 2 ^ 63) (hsize : iov.flatten.length < 2 ^ 62)
    (hw : iov.flatten ≠ [] → AssignedPerWindow start iov.flatten.length fun chnkId t =>
      d.locateData file.path chnkId 0 = t) :
    ∃ bufs, transferSegments (fs.readSegment d file zeroBufferBeforeRead) i iov pos done () =
        (done + (vectorCount d fs.daemons file.path start iov : Nat), bufs, ()) ∧
      ∀ k < vectorCount d fs.daemons file.path start iov, bufs.flatten[k]? =
        readByte d fs.daemons file.path zeroBufferBeforeRead start k iov.flatten[k]? := by
  induction iov generalizing i pos done start with
  | nil =>
    refine ⟨[], ?_, fun k hk => absurd hk (Nat.not_lt_zero k)⟩
    rw [transferSegments, vectorCount, Int.natCast_zero, Int.add_zero]
  | cons seg iov ih =>
    rw [flatten_cons, length_append] at hend hsize
    have hrest : iov.flatten ≠ [] → AssignedPerWindow (start + seg.length) iov.flatten.length
        fun chnkId t => d.locateData file.path chnkId 0 = t := by
      intro hne
      have hwhole := hw fun hnil => hne (append_eq_nil_iff.1 hnil).2
      rw [flatten_cons, length_append] at hwhole
      exact hwhole.part (Nat.le_add_right _ _) (length_pos_iff.2 hne) (by omega) (by omega)
    cases seg with
    | nil =>
      obtain ⟨bufs, hloop, hbytes⟩ := ih (i + 1) done hstart (by omega) (by omega) hrest
      rw [vectorCount, length_nil, if_neg (Nat.not_lt_zero _), Nat.zero_add, Nat.add_zero]
      refine ⟨[] :: bufs, ?_, hbytes⟩
      rw [transferSegments_nil_cons, hloop]
    | cons b seg =>
      obtain ⟨seg', hseg'⟩ : ∃ seg', b :: seg = seg' := ⟨_, rfl⟩
      have hs : seg' ≠ [] := hseg' ▸ cons_ne_nil b seg
      rw [hseg'] at hend hsize hw hrest ⊢
      have hlen := length_pos_iff.2 hs
      have hnat : pos.toInt.toNat = start := by omega
      have hwhole := hw fun hnil => hs (append_eq_nil_iff.1 hnil).1
      rw [flatten_cons, length_append] at hwhole
      obtain ⟨buf, hread, hlength, hbuf⟩ := @gkfsDoRead_found n d file.path fs pos (by omega) seg'
        hlen (by omega) (hnat ▸ hwhole.part le_rfl hlen (by omega) (by omega)) zeroBufferBeforeRead
      rw [hnat] at hread hbuf
      have hsegment : fs.readSegment d file zeroBufferBeforeRead i seg' pos () =
          ((foundCount d fs.daemons file.path start seg'.length : Int), buf, ()) := by
        rw [readSegment, gkfsReadWs, hfile, if_neg Bool.false_ne_true, hread]
        rfl
      rw [vectorCount]
      split
      · next hshort =>
        refine ⟨buf :: iov, ?_, fun k hk => ?_⟩
        · rw [transferSegments_short (by omega) (Int.natCast_nonneg _) (Int.ofNat_lt.2 hshort)
            hsegment]
        · rw [flatten_cons, flatten_cons, getElem?_append_left (by omega),
            getElem?_append_left (by omega)]
          exact hbuf k (by omega)
      · next hfull =>
        have hall : foundCount d fs.daemons file.path start seg'.length = seg'.length :=
          Nat.le_antisymm (foundCount_le ..) (Nat.le_of_not_lt hfull)
        rw [hall] at hsegment
        obtain ⟨bufs, hloop, hbytes⟩ := ih (i + 1) (done + seg'.length)
          (toInt_add_ofInt hstart (by omega)) (by omega) (by omega) hrest
        refine ⟨buf :: bufs, ?_, fun k hk => ?_⟩
        · rw [transferSegments_full hs (by omega) hsegment, hloop, Int.natCast_add, Int.add_assoc]
        · rw [flatten_cons, flatten_cons]
          by_cases hin : k < seg'.length
          · rw [getElem?_append_left (by omega), getElem?_append_left hin]
            exact hbuf k hin
          · rw [getElem?_append_right (by omega), getElem?_append_right (by omega),
              hlength, hbytes (k - seg'.length) (by omega), readByte, readByte, Nat.add_assoc,
              Nat.add_sub_cancel' (Nat.le_of_not_lt hin)]

/-! ## Vectored and plain reads -/

/-- `gkfs_readv` does what `gkfs_read` does with the segments as one buffer: the return value, the
bytes that were read and the position are the same. -/
structure ReadvAgrees (d : Distributor n) (fs : FileSystem n) (file : OpenFile)
    (zeroBufferBeforeRead : Bool) (iov : List (List UInt8)) : Prop where
  returned : (fs.gkfsReadv d file zeroBufferBeforeRead iov).1 =
    (fs.gkfsRead d file zeroBufferBeforeRead iov.flatten).1
  data : ∀ i : Nat, (i : Int) < (fs.gkfsReadv d file zeroBufferBeforeRead iov).1 →
    (fs.gkfsReadv d file zeroBufferBeforeRead iov).2.1.flatten[i]? =
      (fs.gkfsRead d file zeroBufferBeforeRead iov.flatten).2.1[i]?
  position : (fs.gkfsReadv d file zeroBufferBeforeRead iov).2.2.pos =
    (fs.gkfsRead d file zeroBufferBeforeRead iov.flatten).2.2.pos

variable {d : Distributor n} {fs : FileSystem n} {file : OpenFile} {zeroBufferBeforeRead : Bool}
  {iov : List (List UInt8)}

/-- Directories cannot be read. -/
theorem readvAgrees_directory (hfile : file.isDirectory = true) :
    ReadvAgrees d fs file zeroBufferBeforeRead iov := by
  have hcall : ∀ (buf : List UInt8) (offset : Int64),
      fs.gkfsReadWs d file zeroBufferBeforeRead buf offset = (.error EISDIR, buf) := by
    intro buf offset
    rw [gkfsReadWs, if_pos hfile]
  have hread : fs.gkfsRead d file zeroBufferBeforeRead iov.flatten = (-1, iov.flatten, file) := by
    rw [gkfsRead, hcall]
    rfl
  have hreadv : fs.gkfsReadv d file zeroBufferBeforeRead iov = (-1, iov, file) := by
    rw [gkfsReadv, gkfsPreadv, transferSegments_failed fun i seg pos => by
      rw [readSegment, hcall]; rfl]
    rfl
  constructor
  · rw [hread, hreadv]
  · rw [hread, hreadv]
    exact fun i _ => rfl
  · rw [hread, hreadv]

/-- A plain read of a regular file. -/
theorem gkfsRead_found (hfile : file.isDirectory = false) (hpos : file.pos.toNat < 2 ^ 63)
    {buf : List UInt8} (hsize : buf.length < 2 ^ 62)
    (hempty : buf = [] → RangeOk file.pos.toNat 0)
    (hw : buf ≠ [] → AssignedPerWindow file.pos.toNat buf.length fun chnkId t =>
      d.locateData file.path chnkId 0 = t) :
    ∃ buf', fs.gkfsRead d file zeroBufferBeforeRead buf =
        ((foundCount d fs.daemons file.path file.pos.toNat buf.length : Int), buf',
          if (0 : Int) < foundCount d fs.daemons file.path file.pos.toNat buf.length then
            file.moveTo (file.pos.toNat + foundCount d fs.daemons file.path file.pos.toNat
              buf.length)
          else file) ∧
      ∀ i < buf.length, buf'[i]? =
        readByte d fs.daemons file.path zeroBufferBeforeRead file.pos.toNat i buf[i]? := by
  have hoffset : file.pos.toInt64.toInt = file.pos.toNat := by
    rw [toInt_toInt64, if_pos hpos]
  have hnat : file.pos.toInt64.toInt.toNat = file.pos.toNat := by omega
  obtain ⟨buf', hread, hbytes⟩ : ∃ buf',
      fs.gkfsDoRead zeroBufferBeforeRead d file.path buf file.pos.toInt64 =
        (.ok (foundCount d fs.daemons file.path file.pos.toNat buf.length : Int), buf') ∧
      ∀ i < buf.length, buf'[i]? =
        readByte d fs.daemons file.path zeroBufferBeforeRead file.pos.toNat i buf[i]? := by
    by_cases hnil : buf = []
    · subst hnil
      refine ⟨[], ?_, fun i hi => absurd hi (Nat.not_lt_zero i)⟩
      rw [gkfsDoRead_nil (by omega) (hnat.symm ▸ hempty rfl)]
      rfl
    · obtain ⟨buf', hread, -, hbytes⟩ := @gkfsDoRead_found n d file.path fs file.pos.toInt64
        (by omega) buf (length_pos_iff.2 hnil) hsize (hnat.symm ▸ hw hnil)
        zeroBufferBeforeRead
      rw [hnat] at hread hbytes
      exact ⟨buf', hread, hbytes⟩
  refine ⟨buf', ?_, hbytes⟩
  rw [gkfsRead, gkfsReadWs, hfile, if_neg Bool.false_ne_true, hread]
  rfl

/-- Vectored reads agree with plain ones if and only if some byte of the range is stored, and none
behind a segment that does not get all its bytes. -/
theorem readvAgrees_iff (hpos : file.pos.toNat < 2 ^ 63)
    (hend : file.pos.toNat + iov.flatten.length < 2 ^ 63) (hsize : iov.flatten.length < 2 ^ 62)
    (hempty : file.isDirectory = false → iov.flatten = [] → RangeOk file.pos.toNat 0)
    (hw : file.isDirectory = false → iov.flatten ≠ [] →
      AssignedPerWindow file.pos.toNat iov.flatten.length fun chnkId t =>
        d.locateData file.path chnkId 0 = t) :
    ReadvAgrees d fs file zeroBufferBeforeRead iov ↔ file.isDirectory = true ∨
      (∃ i < iov.flatten.length,
        (fileByte d (storages fs.daemons) file.path (file.pos.toNat + i)).isSome) ∧
      FoundInOrder d fs.daemons file.path file.pos.toNat iov := by
  cases hfile : file.isDirectory with
  | true => exact iff_of_true (readvAgrees_directory hfile) (.inl rfl)
  | false =>
    rw [or_iff_right Bool.false_ne_true, ← vectorCount_eq_iff]
    have hoffset : file.pos.toInt64.toInt = file.pos.toNat := by
      rw [toInt_toInt64, if_pos hpos]
    obtain ⟨buf, hread, hbuf⟩ := @gkfsRead_found n d fs file zeroBufferBeforeRead hfile hpos
      iov.flatten hsize (hempty hfile) (hw hfile)
    obtain ⟨bufs, hloop, hbufs⟩ := @readSegments_found n d fs file hfile zeroBufferBeforeRead 0 0
      file.pos.toInt64 file.pos.toNat hoffset iov hend hsize (hw hfile)
    have hle := @vectorCount_le n d fs.daemons file.path file.pos.toNat iov
    have htotal := foundCount_le d fs.daemons file.path file.pos.toNat iov.flatten.length
    have hsome : (∃ i < iov.flatten.length,
        (fileByte d (storages fs.daemons) file.path (file.pos.toNat + i)).isSome) ↔
        foundCount d fs.daemons file.path file.pos.toNat iov.flatten.length ≠ 0 := by
      rw [Ne, foundCount_eq_zero_iff]
      simp only [not_forall, exists_prop, Option.isSome_iff_ne_none, ne_eq]
    rw [hsome]
    obtain ⟨got, hgot⟩ : ∃ got, vectorCount d fs.daemons file.path file.pos.toNat iov = got :=
      ⟨_, rfl⟩
    obtain ⟨found, hfound⟩ :
        ∃ found, foundCount d fs.daemons file.path file.pos.toNat iov.flatten.length = found :=
      ⟨_, rfl⟩
    rw [hgot, hfound] at hle ⊢
    rw [hfound] at hread htotal
    rw [hgot, Int.zero_add] at hloop
    rw [hgot] at hbufs
    have hreadv : fs.gkfsReadv d file zeroBufferBeforeRead iov =
        if vectorSize got < 0 then (-1, bufs, file)
        else (vectorSize got, bufs, file.moveTo (file.pos.toNat + vectorSize got)) := by
      rw [gkfsReadv, gkfsPreadv, hloop]
    rcases Nat.eq_zero_or_pos got with hzero | hgotpos
    · have hneg : vectorSize got = -1 := if_pos (by omega)
      rw [hneg, if_pos (by decide)] at hreadv
      refine iff_of_false (fun hagrees => ?_) (by omega)
      have hreturned := hagrees.returned
      rw [hreadv, hread] at hreturned
      dsimp only at hreturned
      omega
    · have hret : vectorSize got = got := if_neg (by omega)
      rw [hret, if_neg (by omega)] at hreadv
      constructor
      · intro hagrees
        have hreturned := hagrees.returned
        rw [hreadv, hread, Int.natCast_inj] at hreturned
        exact ⟨by omega, hreturned⟩
      · rintro ⟨-, heq⟩
        subst heq
        rw [if_pos (by omega)] at hread
        refine ⟨?_, fun i hi => ?_, ?_⟩
        · rw [hreadv, hread]
        · rw [hreadv] at hi ⊢
          rw [hread]
          have hlt : i < got := Int.ofNat_lt.1 hi
          exact (hbufs i hlt).trans (hbuf i (by omega)).symm
        · rw [hreadv, hread]

/-! ## Vectored and plain calls -/

variable {cfg : MetadataConfig} {md : Metadata}

/-- When vectored calls of an open file agree with plain ones. The file exists; its position, its
size and what the calls transfer end below `2 ^ 63`; a segment to be written has less than `2 ^ 31`
bytes; and the plain call is one that the client plans and the daemons understand as it is meant. -/
theorem vectoredAgrees_iff (hpos : file.pos.toNat < 2 ^ 63)
    (h : (cellAt d fs.daemons file.path).Holds cfg md) (iov : List (List UInt8)) :
    (∀ stamps stamp, fs.Counts file.path (iov.length + 1) → (∀ seg ∈ iov, seg.length < 2 ^ 31) →
      file.writeStart md.size + iov.flatten.length < 2 ^ 63 →
      (file.isDirectory = false → iov.flatten = [] → RangeOk (file.writeStart md.size) 0) →
      (WritevAgrees cfg d fs file iov stamps stamp ↔ file.isDirectory = true ∨
        iov.flatten ≠ [] ∧ iov.flatten.length < 2 ^ 31 ∧
          (file.append = true → file.pos.toNat = md.size))) ∧
    ∀ zeroBufferBeforeRead, file.pos.toNat + iov.flatten.length < 2 ^ 63 →
      iov.flatten.length < 2 ^ 62 →
      (file.isDirectory = false → iov.flatten = [] → RangeOk file.pos.toNat 0) →
      (file.isDirectory = false → iov.flatten ≠ [] →
        AssignedPerWindow file.pos.toNat iov.flatten.length fun chnkId t =>
          d.locateData file.path chnkId 0 = t) →
      (ReadvAgrees d fs file zeroBufferBeforeRead iov ↔ file.isDirectory = true ∨
        (∃ i < iov.flatten.length,
          (fileByte d (storages fs.daemons) file.path (file.pos.toNat + i)).isSome) ∧
        FoundInOrder d fs.daemons file.path file.pos.toNat iov) := by
  refine ⟨fun stamps stamp hcounts hiov hend hempty => ?_, fun zero hend hsize hempty hw => ?_⟩
  · exact writevAgrees_iff hpos h hcounts hiov hend hempty stamps stamp
  · exact readvAgrees_iff hpos hend hsize hempty hw

end

/-! ### Runs on fixed inputs -/

/-- One daemon that holds a file `/f` with the bytes 1, 2 and 3, and a client without a cache. -/
def threeBytes : FileSystem (1 : UInt32).toNat :=
  ⟨none, withStorages (oneSizedFile 3).daemons
    (forwardWrites oneDaemon "/f".toList [(0, [1, 2, 3])] fun _ => ∅).2⟩

/-- The file, opened with or without `O_APPEND`. -/
def opened (append : Bool) (pos : UInt64) : OpenFile := ⟨"/f".toList, append, false, pos⟩

theorem holds_threeBytes :
    (cellAt oneDaemon threeBytes.daemons "/f".toList).Holds .default (sizedFile 3) := by
  have hmode : (Metadata.ofMode .default 0 0o100644).Storable :=
    Metadata.storable_ofMode .default (by decide) (by decide)
  exact Cell.holds_put { hmode with size := by decide }

/-- Two appends with the position at the end of the file, and a read of which the last segment is
not filled. -/
theorem vectoredAgrees_iff_end :
    WritevAgrees .default oneDaemon threeBytes (opened true 3) [[4], [], [5]] (fun _ => ⟨0, 0⟩)
        ⟨0, 0⟩ ∧
      ReadvAgrees oneDaemon threeBytes (opened false 0) false [[0], [], [0, 0, 0]] := by
  constructor
  · refine ((vectoredAgrees_iff (by decide) holds_threeBytes _).1 _ _ ⟨by decide, by decide⟩
      (by decide) (by decide) (by decide)).2 (.inr ⟨by decide, by decide, by decide⟩)
  · refine ((vectoredAgrees_iff (by decide) holds_threeBytes _).2 _ (by decide) (by decide)
      (by decide) fun _ _ => assignedPerWindow_of_length _ (by decide)).2 (.inr ⟨?_, ?_⟩)
    · exact ⟨0, by decide, by decide +kernel⟩
    · exact ⟨.inl (by decide +kernel), .inl (by decide +kernel), .inr (by decide +kernel), trivial⟩

/-- At the end of the file a vectored read returns -1 and a plain one 0. After an append the
position stands behind the old position, and behind the end of the file after a plain one. -/
theorem vectored_differs :
    (threeBytes.gkfsReadv oneDaemon (opened false 3) false [[0], [0]]).1 = -1 ∧
      (threeBytes.gkfsRead oneDaemon (opened false 3) false [0, 0]).1 = 0 ∧
      (threeBytes.gkfsWritev .default oneDaemon (opened true 0) [[4], [5]]
        fun _ => ⟨0, 0⟩).2.1.pos = 2 ∧
      (threeBytes.gkfsWrite .default oneDaemon (opened true 0) [4, 5] ⟨0, 0⟩).2.1.pos = 5 ∧
      ¬ ReadvAgrees oneDaemon threeBytes (opened false 3) false [[0], [0]] ∧
      ¬ WritevAgrees .default oneDaemon threeBytes (opened true 0) [[4], [5]] (fun _ => ⟨0, 0⟩)
        ⟨0, 0⟩ := by
  have hreadv : (threeBytes.gkfsReadv oneDaemon (opened false 3) false [[0], [0]]).1 = -1 := by
    decide +kernel
  have hread : (threeBytes.gkfsRead oneDaemon (opened false 3) false [0, 0]).1 = 0 := by
    decide +kernel
  have hwritev : (threeBytes.gkfsWritev .default oneDaemon (opened true 0) [[4], [5]]
      fun _ => ⟨0, 0⟩).2.1.pos = 2 := by decide +kernel
  have hwrite : (threeBytes.gkfsWrite .default oneDaemon (opened true 0) [4, 5]
      ⟨0, 0⟩).2.1.pos = 5 := by decide +kernel
  refine ⟨hreadv, hread, hwritev, hwrite, fun h => ?_, fun h => ?_⟩
  · exact absurd (hreadv.symm.trans (h.returned.trans hread)) (by decide)
  · exact absurd (hwritev.symm.trans (h.position.trans hwrite)) (by decide)

end GekkoFS
