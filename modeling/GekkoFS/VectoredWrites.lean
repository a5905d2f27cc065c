import GekkoFS.Client.Vectored
import GekkoFS.SparseRead

/-!
# Vectored and plain writes

`gkfs_writev` should do what `gkfs_write` does with the segments in one buffer. This is a matter of
one write that goes on where another ends (`Written.trans`): the bytes and the size of the file are
the same however the bytes are split. But a vectored call returns -1 if it transferred nothing,
counts in 64 bits where a plain write counts in 32, and after an append sets the position from the
old one (`writevAgrees_iff`).
-/

namespace GekkoFS

open FileSystem Function List

/-! ## What a write leaves of a file -/

/-- The bytes that are stored after a write: those of the buffer, and zeros in what was missing
before them in their first chunk. -/
def FlatFile.fill (f : FlatFile) (offset : Nat) (buf : List UInt8) : FlatFile := fun pos =>
  if offset ≤ pos ∧ pos < offset + buf.length then buf[pos - offset]?
  else if pos < offset ∧ pos / chunksize = offset / chunksize then some ((f pos).getD 0)
  else f pos

section
variable {f : FlatFile} {offset pos : Nat} {buf : List UInt8}

theorem FlatFile.fill_of_mem (hlow : offset ≤ pos) (hhigh : pos < offset + buf.length) :
    f.fill offset buf pos = buf[pos - offset]? := if_pos ⟨hlow, hhigh⟩

theorem FlatFile.fill_of_first (hlow : pos < offset) (h : pos / chunksize = offset / chunksize) :
    f.fill offset buf pos = some ((f pos).getD 0) := by
  rw [FlatFile.fill, if_neg fun hin => absurd hlow (Nat.not_lt.2 hin.1), if_pos ⟨hlow, h⟩]

theorem FlatFile.fill_of_other (hout : ¬ (offset ≤ pos ∧ pos < offset + buf.length))
    (h : ¬ (pos < offset ∧ pos / chunksize = offset / chunksize)) :
    f.fill offset buf pos = f pos := by
  rw [FlatFile.fill, if_neg hout, if_neg h]

end

/-- Two writes, one behind the other, are one write. -/
theorem FlatFile.fill_append (f : FlatFile) (offset : Nat) {a : List UInt8} (ha : a ≠ [])
    (b : List UInt8) :
    f.fill offset (a ++ b) = (f.fill offset a).fill (offset + a.length) b := by
  have hpos := length_pos_iff.2 ha
  have hlen : (a ++ b).length = a.length + b.length := length_append
  funext pos
  have hle := Nat.div_le_div_right (c := chunksize) (Nat.le_add_right offset a.length)
  by_cases hlow : pos < offset
  · have hchunk := Nat.div_le_div_right (c := chunksize) hlow.le
    by_cases hfirst : pos / chunksize = offset / chunksize
    · rw [fill_of_first hlow hfirst]
      by_cases hnext : pos / chunksize = (offset + a.length) / chunksize
      · rw [fill_of_first (by omega) hnext, fill_of_first hlow hfirst, Option.getD_some]
      · rw [fill_of_other (by omega) fun h => hnext h.2, fill_of_first hlow hfirst]
    · rw [fill_of_other (by omega) fun h => hfirst h.2, fill_of_other (by omega) (by omega),
        fill_of_other (by omega) fun h => hfirst h.2]
  by_cases hmid : pos < offset + a.length
  · have hbyte : f.fill offset a pos = a[pos - offset]? := fill_of_mem (by omega) hmid
    have hsome : a[pos - offset]? = some (a[pos - offset]) := getElem?_eq_getElem (by omega)
    rw [fill_of_mem (by omega) (by omega), getElem?_append_left (by omega)]
    by_cases hnext : pos / chunksize = (offset + a.length) / chunksize
    · rw [fill_of_first hmid hnext, hbyte, hsome, Option.getD_some]
    · rw [fill_of_other (by omega) fun h => hnext h.2, hbyte]
  by_cases hhigh : pos < offset + a.length + b.length
  · rw [fill_of_mem (by omega) (by omega), fill_of_mem (by omega) hhigh,
      getElem?_append_right (by omega), Nat.sub_sub]
  · rw [fill_of_other (by omega) (by omega), fill_of_other (by omega) (by omega),
      fill_of_other (by omega) (by omega)]

/-- What a write that ends at `endPos` does to the size at the daemon and to what the cache has. An
append goes to the daemon; the size of another write is sent or kept, and is the size that a flush
leads to. -/
def SizeAfter (isAppend : Bool) (size : Nat) (e : UInt64 × UInt64) (endPos size' : Nat)
    (e' : UInt64 × UInt64) : Prop :=
  if isAppend then size' = endPos ∧ e' = e
  else max size' e'.2.toNat = max endPos (max size e.2.toNat) ∧
    pendingSize e' size' = max endPos (max size e.2.toNat)

variable {size endPos : Nat} {e : UInt64 × UInt64} {e' e₁ e₂ : UInt64 × UInt64} {isAppend : Bool}
  {size₁ size₂ : Nat}

/-- The cache keeps the larger size. -/
theorem sizeAfter_kept (hcnt : e'.1 ≠ 0)
    (hlargest : e'.2.toNat = max e.2.toNat endPos) : SizeAfter false size e endPos size e' := by
  have hmax : max size e'.2.toNat = max endPos (max size e.2.toNat) := by omega
  refine ⟨hmax, ?_⟩
  rw [pendingSize, if_neg hcnt, hmax]

/-- The larger size is sent, and no update waits. -/
theorem sizeAfter_sent {size' : Nat} (hcnt : e'.1 = 0)
    (hlargest : e'.2.toNat ≤ max e.2.toNat endPos)
    (hsize : size' = max (max e.2.toNat endPos) size) : SizeAfter false size e endPos size' e' := by
  refine ⟨by omega, ?_⟩
  rw [pendingSize, if_pos hcnt, hsize]
  omega

theorem SizeAfter.trans {endPos' : Nat} (h : SizeAfter isAppend size e endPos size₁ e₁)
    (h' : SizeAfter isAppend size₁ e₁ endPos' size₂ e₂) (hle : endPos ≤ endPos') :
    SizeAfter isAppend size e endPos' size₂ e₂ := by
  cases isAppend with
  | true => exact ⟨h'.1, h'.2.trans h.2⟩
  | false =>
    obtain ⟨h₁, -⟩ := h
    obtain ⟨h₂, h₃⟩ := h'
    rw [h₁, ← Nat.max_assoc, Nat.max_eq_left hle] at h₂ h₃
    exact ⟨h₂, h₃⟩

/-- Writes that end at the same position lead to the same size. -/
theorem SizeAfter.pendingSize_eq (h : SizeAfter isAppend size e endPos size₁ e₁)
    (h' : SizeAfter isAppend size e endPos size₂ e₂) :
    pendingSize e₁ size₁ = pendingSize e₂ size₂ := by
  cases isAppend with
  | true => rw [h.1, h.2, h'.1, h'.2]
  | false => exact h.2.trans h'.2.symm

/-! ## Writes that are served -/

section
variable {n : Nat} {cfg : MetadataConfig} {d : Distributor n} {fs : FileSystem n}
  {path : List Char} {md : Metadata} {offset : Int64} {start count : Nat} {isAppend : Bool}
  {buf : List UInt8} {updates : Nat} {file : OpenFile}

theorem cached_some (cache : WriteSizeCache) (cl : DaemonCluster n) (path : List Char) :
    cached ⟨some cache, cl⟩ path = cache.entry path := rfl

/-- The size update of an append. -/
theorem updateSize_append_served (h : (cellAt d fs.daemons path).Holds cfg md)
    (hend : md.size + count < 2 ^ 63) (offset : Int64) (mergeId : UInt16) (now : Int64) :
    ∃ fs' md', fs.updateSize cfg d path (UInt64.ofNat count) offset true mergeId now =
        (.ok (md.size : Int), fs') ∧
      storages fs'.daemons = storages fs.daemons ∧ (cellAt d fs'.daemons path).Holds cfg md' ∧
      md'.size = md.size + count ∧ fs'.cached path = fs.cached path := by
  have hcount : (UInt64.ofNat count).toNat = count := UInt64.toNat_ofNat_of_lt'
    (Nat.lt_trans (Nat.lt_of_le_of_lt (Nat.le_add_left count md.size) hend) (by decide))
  have hop : (MergeOperand.increaseSize count mergeId.toNat true).Valid :=
    ⟨by omega, mergeId.toNat_lt⟩
  have hupdate := updateFileSize_append h (UInt64.ofNat count) offset.toUInt64 mergeId now
  rw [hcount] at hupdate
  obtain ⟨hret, hst, hcell⟩ := hupdate
  have hholds := h.merge hop hend
  refine ⟨_, (MergeOperand.increaseSize count mergeId.toNat true).plain md, Prod.ext ?_ rfl, ?_, ?_,
    rfl, ?_⟩
  · exact updateSize_fst h (UInt64.ofNat count) offset true mergeId now
  · rw [updateSize_append]
    exact hst
  · rw [updateSize_append, hcell, update_self]
    exact hholds
  · rw [updateSize_append]
    rfl

/-- The size update of another write is sent, with the sizes before it, or kept by the cache. -/
theorem updateSize_write_served (h : (cellAt d fs.daemons path).Holds cfg md)
    (hcnt : (fs.cached path).1.toNat + 1 < 2 ^ 64) (hcached : (fs.cached path).2.toNat < 2 ^ 63)
    (ho : 0 ≤ offset.toInt) (hend : offset.toInt.toNat + count < 2 ^ 63) (mergeId : UInt16)
    (now : Int64) :
    ∃ fs' md', fs.updateSize cfg d path (UInt64.ofNat count) offset false mergeId now =
        (.ok offset.toInt, fs') ∧
      storages fs'.daemons = storages fs.daemons ∧ (cellAt d fs'.daemons path).Holds cfg md' ∧
      SizeAfter false md.size (fs.cached path) (offset.toInt.toNat + count) md'.size
        (fs'.cached path) ∧
      (fs'.cached path).2.toNat < 2 ^ 63 ∧
      (fs'.cached path).1.toNat ≤ (fs.cached path).1.toNat + 1 := by
  have hword := toNat_toUInt64_of_nonneg ho
  have hendPos : (offset.toUInt64 + UInt64.ofNat count).toNat = offset.toInt.toNat + count := by
    rw [UInt64.toNat_add, UInt64.toNat_ofNat', hword]
    omega
  obtain ⟨endPos, hendEq⟩ : ∃ endPos, offset.toUInt64 + UInt64.ofNat count = endPos := ⟨_, rfl⟩
  rw [← hendPos, hendEq] at hend ⊢
  obtain ⟨cache, cl⟩ := fs
  cases cache with
  | none =>
    obtain ⟨hst, c, md', hcell, hholds, -, hsize⟩ :=
      (updateFileSize_resized h (hendEq.symm ▸ hend) mergeId now).2
    rw [updateSize_none]
    refine ⟨_, md', rfl, hst, ?_, ?_, hcached, Nat.le_succ _⟩
    · rw [hcell, update_self]
      exact hholds
    · rw [hendEq] at hsize
      refine sizeAfter_sent rfl (Nat.zero_le _) (hsize.trans ?_)
      rw [cached, UInt64.toNat_zero, Nat.zero_max]
  | some cache =>
    have hcnt' : ((cache.entry path).1 + 1).toNat = (cache.entry path).1.toNat + 1 := by
      rw [UInt64.toNat_add]
      exact Nat.mod_eq_of_lt hcnt
    have hne : (cache.entry path).1 + 1 ≠ 0 := fun hzero => by
      rw [hzero] at hcnt'
      exact absurd hcnt' (Nat.succ_ne_zero _).symm
    have hrecorded := congrFun (cache.entry_record path endPos) path
    rw [update_self] at hrecorded
    have hlargest : ((cache.record path endPos).2.entry path).2.toNat =
        max (cache.entry path).2.toNat endPos.toNat := by
      rw [hrecorded]
      exact toNat_ite_lt _ _
    have hlt : max (cache.entry path).2.toNat endPos.toNat < 2 ^ 63 := Nat.max_lt.2 ⟨hcached, hend⟩
    rw [updateSize_some, hendEq]
    dsimp only
    split
    · have hentry := congrFun (WriteSizeCache.flush_entry cfg d (cache.record path endPos).2 cl path
        false now) path
      rw [update_self] at hentry
      obtain ⟨hst, c, md', hcell, hholds, -, hsize⟩ := WriteSizeCache.flush_resized h
        (hrecorded.symm ▸ hne) (hlargest.symm ▸ hlt) false now
      refine ⟨_, md', rfl, hst, ?_, ?_, ?_, ?_⟩
      · rw [hcell, update_self]
        exact hholds
      · rw [hlargest] at hsize
        rw [cached_some, cached_some, hentry]
        exact sizeAfter_sent rfl hlargest.le hsize
      · rw [cached_some, hentry, hlargest]
        exact hlt
      · rw [cached_some, hentry]
        exact Nat.zero_le _
    · refine ⟨_, md, rfl, rfl, h, ?_, ?_, ?_⟩
      · rw [cached_some, cached_some]
        exact sizeAfter_kept (hrecorded.symm ▸ hne) hlargest
      · rw [cached_some, hlargest]
        exact hlt
      · rw [cached_some, cached_some, hrecorded]
        exact hcnt'.le

/-- What the cache has for a path are sizes of files, and `updates` more updates can be counted. -/
structure FileSystem.Counts (fs : FileSystem n) (path : List Char) (updates : Nat) : Prop where
  size : (fs.cached path).2.toNat < 2 ^ 63
  count : (fs.cached path).1.toNat + updates < 2 ^ 64

/-- The bytes that are stored of a file. -/
def storedFile (d : Distributor n) (cl : DaemonCluster n) (path : List Char) : FlatFile :=
  fileByte d (storages cl) path

/-- A file after the bytes `buf` have been written to it from `start` on. -/
structure Written (cfg : MetadataConfig) (d : Distributor n) (path : List Char) (isAppend : Bool)
    (fs : FileSystem n) (md : Metadata) (start : Nat) (buf : List UInt8) (fs' : FileSystem n)
    (md' : Metadata) : Prop where
  bytes : storedFile d fs'.daemons path = (storedFile d fs.daemons path).fill start buf
  entry : (cellAt d fs'.daemons path).Holds cfg md'
  sizes : SizeAfter isAppend md.size (fs.cached path) (start + buf.length) md'.size
    (fs'.cached path)

/-- A write goes on where another ends. -/
theorem Written.trans {fs₁ fs₂ : FileSystem n} {md₁ md₂ : Metadata}
    {a b : List UInt8} (ha : a ≠ []) (h : Written cfg d path isAppend fs md start a fs₁ md₁)
    (h' : Written cfg d path isAppend fs₁ md₁ (start + a.length) b fs₂ md₂) :
    Written cfg d path isAppend fs md start (a ++ b) fs₂ md₂ where
  bytes := by rw [h'.bytes, h.bytes, FlatFile.fill_append _ _ ha]
  entry := h'.entry
  sizes := by
    have hsizes := h.sizes.trans h'.sizes (Nat.le_add_right _ _)
    rwa [Nat.add_assoc, ← length_append] at hsizes

/-- Where a write goes: to the offset of the call, or for an append to the end of the file. -/
def StartsAt (isAppend : Bool) (md : Metadata) (offset : Int64) (start : Nat) : Prop :=
  (start : Int) = if isAppend then (md.size : Int) else offset.toInt

/-- An offset that moves forward and stays one. -/
theorem toInt_add_ofInt {pos : Int64} {start length : Nat} (hstart : pos.toInt = start)
    (hend : start + length < 2 ^ 63) :
    (pos + Int64.ofInt length).toInt = (start + length : Nat) := by
  have hlength : (Int64.ofInt length).toInt = length :=
    Int64.toInt_ofInt_of_le (by omega) (by omega)
  rw [Int64.toInt_add, hstart, hlength, Int.bmod_eq_of_le (by omega) (by omega), Int.natCast_add]

/-- Where the next write goes. -/
theorem Written.startsAt {fs' : FileSystem n} {md' : Metadata}
    (h : Written cfg d path isAppend fs md start buf fs' md')
    (hstart : StartsAt isAppend md offset start) (hend : start + buf.length < 2 ^ 63) :
    StartsAt isAppend md' (offset + Int64.ofInt buf.length) (start + buf.length) := by
  cases isAppend with
  | true => exact congrArg Nat.cast h.sizes.1.symm
  | false =>
    have hoffset : offset.toInt = start := hstart.symm
    rw [StartsAt, if_neg Bool.false_ne_true, toInt_add_ofInt hoffset hend]

/-- The size update of a write. -/
theorem updateSize_served
    (h : (cellAt d fs.daemons path).Holds cfg md) (hcounts : fs.Counts path (updates + 1))
    (hstart : StartsAt isAppend md offset start) (hend : start + count < 2 ^ 63)
    (mergeId : UInt16) (now : Int64) :
    ∃ fs' md', fs.updateSize cfg d path (UInt64.ofNat count) offset isAppend mergeId now =
        (.ok (start : Int), fs') ∧
      storages fs'.daemons = storages fs.daemons ∧ (cellAt d fs'.daemons path).Holds cfg md' ∧
      SizeAfter isAppend md.size (fs.cached path) (start + count) md'.size (fs'.cached path) ∧
      fs'.Counts path updates := by
  have hcount := hcounts.count
  cases isAppend with
  | true =>
    obtain rfl : start = md.size := Int.ofNat_inj.1 hstart
    obtain ⟨fs', md', hret, hst, hholds, hsize, hcached⟩ :=
      updateSize_append_served h hend offset mergeId now
    refine ⟨fs', md', hret, hst, hholds, ⟨hsize, hcached⟩, ?_, ?_⟩
    · rw [hcached]
      exact hcounts.size
    · rw [hcached]
      omega
  | false =>
    have hoffset : offset.toInt = start := hstart.symm
    have hnat : offset.toInt.toNat = start := by omega
    obtain ⟨fs', md', hret, hst, hholds, hsizes, hsize, hcnt⟩ := updateSize_write_served h
      (by omega) hcounts.size (by omega) (hnat.symm ▸ hend) mergeId now
    rw [hoffset] at hret
    rw [hnat] at hsizes
    exact ⟨fs', md', hret, hst, hholds, hsizes, hsize, by omega⟩

/-- A write of less than `2 ^ 31` bytes stores all of them, and gets that as the answer. -/
theorem gkfsDoWrite_served
    (h : (cellAt d fs.daemons path).Holds cfg md) (hcounts : fs.Counts path (updates + 1))
    (hstart : StartsAt isAppend md offset start) (hs : buf ≠ [])
    (hs' : buf.length < 2 ^ 31) (hend : start + buf.length < 2 ^ 63) (mergeId : UInt16)
    (now : Int64) :
    ∃ md', fs.writeAnswers cfg d path buf offset isAppend mergeId now =
        ⟨.ok (Int64.ofInt start), (0, buf.length), none⟩ ∧
      Written cfg d path isAppend fs md start buf
        (fs.gkfsDoWrite cfg d path buf offset isAppend mergeId now).2 md' ∧
      (fs.gkfsDoWrite cfg d path buf offset isAppend mergeId now).2.Counts path updates := by
  obtain ⟨fs₁, md', hupdate, hst, hholds, hsizes, hcounts'⟩ :=
    updateSize_served h hcounts hstart hend mergeId now
  have hpos := length_pos_iff.2 hs
  have hword : ((start : Int) % 2 ^ 64).toNat = start := by omega
  have ho : start < 2 ^ 63 := by omega
  have hlarge : buf.length < 2 ^ 34 := by omega
  have hfst := forwardWrite_fst d path (storages fs.daemons) ho hpos hlarge
  have hbytes := fileByte_forwardWrite d (storages fs.daemons) path ho hpos hlarge
  rw [writeAnswers, gkfsDoWrite, hupdate]
  dsimp only
  rw [writeData, hst, hword]
  generalize forwardWrite d (fun _ => .delivered) (storages fs.daemons) path buf start 0 = written
    at hfst hbytes
  obtain ⟨ret, st⟩ := written
  dsimp only at hfst hbytes ⊢
  subst hfst
  exact ⟨md', rfl, ⟨funext hbytes, hholds, hsizes⟩, hcounts'.size, hcounts'.count⟩

/-- The call for a regular file. -/
theorem gkfsWriteWs_served (hfile : file.isDirectory = false)
    (h : (cellAt d fs.daemons file.path).Holds cfg md)
    (hcounts : fs.Counts file.path (updates + 1))
    (hstart : StartsAt file.append md offset start) (hs : buf ≠ [])
    (hs' : buf.length < 2 ^ 31) (hend : start + buf.length < 2 ^ 63) (updatePos : Bool)
    (stamp : Stamp) :
    ∃ fs' md', fs.gkfsWriteWs cfg d file buf offset updatePos stamp =
        (.ok (buf.length : Int),
          if updatePos then file.moveTo (start + buf.length : Nat) else file, fs') ∧
      Written cfg d file.path file.append fs md start buf fs' md' ∧
      fs'.Counts file.path updates := by
  obtain ⟨md', hanswers, hwritten, hcounts'⟩ :=
    gkfsDoWrite_served h hcounts hstart hs hs' hend stamp.mergeId stamp.now
  refine ⟨_, md', ?_, hwritten, hcounts'⟩
  have hint : (Int64.ofInt start).toInt = start := Int64.toInt_ofInt_of_le (by omega) (by omega)
  rw [gkfsWriteWs, hanswers, hfile, if_neg Bool.false_ne_true, OpenFile.gkfsDoWrite,
    hfile, if_neg Bool.false_ne_true]
  dsimp only
  rw [WriteAnswers.transferred, if_neg (not_not.2 rfl), bmod_eq_self_iff.2 hs', hint,
    Int.natCast_add]

/-! ### Writing segments -/

/-- Segments of less than `2 ^ 31` bytes are written as a whole, one behind the other. -/
theorem writeSegments_served (hfile : file.isDirectory = false)
    (stamps : Nat → Stamp) {iov : List (List UInt8)} (hiov : ∀ seg ∈ iov, seg.length < 2 ^ 31)
    (i : Nat) (done : Int) (h : (cellAt d fs.daemons file.path).Holds cfg md)
    (hcounts : fs.Counts file.path iov.length)
    (hstart : StartsAt file.append md offset start)
    (hend : start + iov.flatten.length < 2 ^ 63) :
    ∃ fs', transferSegments (writeSegment cfg d file stamps) i iov offset done fs =
        (done + iov.flatten.length, iov, fs') ∧
      (iov.flatten = [] → fs' = fs) ∧
      (iov.flatten ≠ [] →
        ∃ md', Written cfg d file.path file.append fs md start iov.flatten fs' md') := by
  induction iov generalizing i offset done fs md start with
  | nil => exact ⟨fs, by rw [transferSegments]; simp, fun _ => rfl, fun hne => absurd rfl hne⟩
  | cons seg iov ih =>
    have hrest : ∀ seg ∈ iov, seg.length < 2 ^ 31 :=
      fun seg' hseg' => hiov seg' (mem_cons_of_mem seg hseg')
    rw [flatten_cons, length_append] at hend
    cases seg with
    | nil =>
      obtain ⟨fs', hloop, hsame, hwritten⟩ := ih hrest (i + 1) done h
        ⟨hcounts.size, (Nat.lt_succ_self _).trans hcounts.count⟩ hstart (by omega)
      refine ⟨fs', ?_, hsame, hwritten⟩
      rw [transferSegments_nil_cons, hloop, flatten_cons, nil_append]
    | cons b seg =>
      obtain ⟨seg', hseg'⟩ : ∃ seg', b :: seg = seg' := ⟨_, rfl⟩
      have hs : seg' ≠ [] := hseg' ▸ cons_ne_nil b seg
      rw [hseg'] at hiov hend ⊢
      have hlt := hiov seg' mem_cons_self
      obtain ⟨fs₁, md₁, hwrite, hwritten, hcounts'⟩ := gkfsWriteWs_served hfile h hcounts hstart hs
        hlt (by omega) false (stamps i)
      have hsegment : writeSegment cfg d file stamps i seg' offset fs =
          ((seg'.length : Int), seg', fs₁) := by
        rw [writeSegment, hwrite]
        rfl
      have hnext := hwritten.startsAt hstart (by omega)
      obtain ⟨fs', hloop, hsame, hwritten'⟩ := ih hrest (i + 1) (done + seg'.length) hwritten.entry
        hcounts' hnext (by omega)
      refine ⟨fs', ?_, fun hnil => absurd (append_eq_nil_iff.1 hnil).1 hs, fun _ => ?_⟩
      · rw [transferSegments_full hs (by omega) hsegment, hloop, flatten_cons,
          length_append, Int.natCast_add, Int.add_assoc]
      · rw [flatten_cons]
        by_cases hnil : iov.flatten = []
        · rw [hnil, append_nil, hsame hnil]
          exact ⟨md₁, hwritten⟩
        · obtain ⟨md', hrest'⟩ := hwritten' hnil
          exact ⟨md', hwritten.trans hs hrest'⟩

end

/-! ## Vectored and plain writes -/

/-- The size of a file once the cache is flushed. -/
def FileSystem.flushedSize {n : Nat} (cfg : MetadataConfig) (d : Distributor n) (fs : FileSystem n)
    (path : List Char) : Option Nat :=
  (sizeAt cfg d fs.daemons path).map (pendingSize (fs.cached path))

/-- Where a write of an open file goes, if the size at the daemon is `size`. -/
def OpenFile.writeStart (file : OpenFile) (size : Nat) : Nat :=
  if file.append then size else file.pos.toNat

section
variable {n : Nat}

/-- `gkfs_writev` does what `gkfs_write` does with the segments in one buffer: the return value, the
bytes and the size of the file and the position are the same. -/
structure WritevAgrees (cfg : MetadataConfig) (d : Distributor n) (fs : FileSystem n)
    (file : OpenFile) (iov : List (List UInt8)) (stamps : Nat → Stamp) (stamp : Stamp) : Prop where
  returned : (fs.gkfsWritev cfg d file iov stamps).1 =
    (fs.gkfsWrite cfg d file iov.flatten stamp).1
  content : storedFile d (fs.gkfsWritev cfg d file iov stamps).2.2.daemons file.path =
    storedFile d (fs.gkfsWrite cfg d file iov.flatten stamp).2.2.daemons file.path
  size : (fs.gkfsWritev cfg d file iov stamps).2.2.flushedSize cfg d file.path =
    (fs.gkfsWrite cfg d file iov.flatten stamp).2.2.flushedSize cfg d file.path
  position : (fs.gkfsWritev cfg d file iov stamps).2.1.pos =
    (fs.gkfsWrite cfg d file iov.flatten stamp).2.1.pos

variable {cfg : MetadataConfig} {d : Distributor n} {fs : FileSystem n} {file : OpenFile}
  {md : Metadata} {iov : List (List UInt8)} {buf : List UInt8}

theorem Written.flushedSize_eq {isAppend : Bool} {path : List Char} {start : Nat}
    {fs₁ fs₂ : FileSystem n} {md₁ md₂ : Metadata}
    (h : Written cfg d path isAppend fs md start buf fs₁ md₁)
    (h' : Written cfg d path isAppend fs md start buf fs₂ md₂) :
    fs₁.flushedSize cfg d path = fs₂.flushedSize cfg d path := by
  rw [flushedSize, flushedSize, sizeAt_holds h.entry, sizeAt_holds h'.entry,
    Option.map_some, Option.map_some, h.sizes.pendingSize_eq h'.sizes]

/-- Directories cannot be written. -/
theorem writevAgrees_directory (hfile : file.isDirectory = true) (stamps : Nat → Stamp)
    (stamp : Stamp) : WritevAgrees cfg d fs file iov stamps stamp := by
  have hcall : ∀ (buf : List UInt8) (offset : Int64) (updatePos : Bool) (stamp : Stamp),
      fs.gkfsWriteWs cfg d file buf offset updatePos stamp = (.error EISDIR, file, fs) := by
    intro buf offset updatePos stamp
    rw [gkfsWriteWs, OpenFile.gkfsDoWrite, if_pos hfile, if_pos hfile]
  have hwrite : fs.gkfsWrite cfg d file iov.flatten stamp = (-1, file, fs) := by
    rw [gkfsWrite, hcall]
    rfl
  have hwritev : fs.gkfsWritev cfg d file iov stamps = (-1, file, fs) := by
    rw [gkfsWritev, gkfsPwritev, transferSegments_failed fun i seg pos => by
      rw [writeSegment, hcall]; rfl]
    rfl
  constructor
  · rw [hwrite, hwritev]
  · rw [hwrite, hwritev]
  · rw [hwrite, hwritev]
  · rw [hwrite, hwritev]

/-- The position of an open file as an offset. -/
theorem startsAt_writeStart (hpos : file.pos.toNat < 2 ^ 63) :
    StartsAt file.append md file.pos.toInt64 (file.writeStart md.size) := by
  rw [StartsAt, OpenFile.writeStart, toInt_toInt64, if_pos hpos]
  split
  · rfl
  · rfl

theorem gkfsWritev_served (hfile : file.isDirectory = false) (hpos : file.pos.toNat < 2 ^ 63)
    (h : (cellAt d fs.daemons file.path).Holds cfg md) (hcounts : fs.Counts file.path iov.length)
    (hiov : ∀ seg ∈ iov, seg.length < 2 ^ 31)
    (hend : file.writeStart md.size + iov.flatten.length < 2 ^ 63) (hne : iov.flatten ≠ [])
    (stamps : Nat → Stamp) :
    ∃ fs' md', fs.gkfsWritev cfg d file iov stamps =
        ((iov.flatten.length : Int), file.moveTo (file.pos.toNat + iov.flatten.length : Nat), fs') ∧
      Written cfg d file.path file.append fs md (file.writeStart md.size) iov.flatten fs' md' := by
  have hlen := length_pos_iff.2 hne
  obtain ⟨fs', hloop, -, hwritten⟩ := writeSegments_served hfile stamps hiov 0 0 h hcounts
    (startsAt_writeStart hpos) hend
  obtain ⟨md', hwritten⟩ := hwritten hne
  refine ⟨fs', md', ?_, hwritten⟩
  rw [gkfsWritev, gkfsPwritev, hloop]
  dsimp only
  rw [Int.zero_add, vectorSize, if_neg (by omega), if_neg (by omega), Int.natCast_add]

theorem gkfsWrite_served (hfile : file.isDirectory = false) (hpos : file.pos.toNat < 2 ^ 63)
    (h : (cellAt d fs.daemons file.path).Holds cfg md) (hcounts : fs.Counts file.path 1)
    (hs : buf ≠ []) (hs' : buf.length < 2 ^ 31)
    (hend : file.writeStart md.size + buf.length < 2 ^ 63) (stamp : Stamp) :
    ∃ fs' md', fs.gkfsWrite cfg d file buf stamp =
        ((buf.length : Int), file.moveTo (file.writeStart md.size + buf.length : Nat), fs') ∧
      Written cfg d file.path file.append fs md (file.writeStart md.size) buf fs' md' := by
  obtain ⟨fs', md', hwrite, hwritten, -⟩ := gkfsWriteWs_served hfile h hcounts
    (startsAt_writeStart hpos) hs hs' hend true stamp
  refine ⟨fs', md', ?_, hwritten⟩
  rw [gkfsWrite, hwrite]
  rfl

/-- A plain write of no bytes returns 0. -/
theorem gkfsWrite_nil (hfile : file.isDirectory = false) (hpos : file.pos.toNat < 2 ^ 63)
    (h : (cellAt d fs.daemons file.path).Holds cfg md) (hcounts : fs.Counts file.path 1)
    (hrange : RangeOk (file.writeStart md.size) 0) (hend : file.writeStart md.size < 2 ^ 63)
    (stamp : Stamp) : (fs.gkfsWrite cfg d file [] stamp).1 = 0 := by
  have hend' : file.writeStart md.size + 0 < 2 ^ 63 := hend
  obtain ⟨fs₁, md', hupdate, -⟩ := updateSize_served h hcounts (startsAt_writeStart hpos) hend'
    stamp.mergeId stamp.now
  have hword : ((file.writeStart md.size : Int) % 2 ^ 64).toNat = file.writeStart md.size := by
    omega
  have hanswers : fs.writeAnswers cfg d file.path [] file.pos.toInt64 file.append stamp.mergeId
      stamp.now = ⟨.ok (Int64.ofInt (file.writeStart md.size)), (0, 0), none⟩ := by
    rw [writeAnswers, length_nil, hupdate]
    dsimp only
    rw [writeData_nil fs₁.daemons (by rw [hword]; exact chunkIds_of_rangeOk hrange hend)]
  have hzero : Int.bmod (0 : Nat) (2 ^ 32) = (0 : Nat) := bmod_eq_self_iff.2 (by decide)
  rw [gkfsWrite, gkfsWriteWs, hanswers, OpenFile.gkfsDoWrite, hfile,
    if_neg Bool.false_ne_true]
  dsimp only
  rw [WriteAnswers.transferred, if_neg (not_not.2 rfl), hzero]
  rfl

/-- A plain write returns an `int`. -/
theorem gkfsWrite_fst_lt (buf : List UInt8) (stamp : Stamp) :
    (fs.gkfsWrite cfg d file buf stamp).1 < 2 ^ 31 := by
  rw [gkfsWrite, gkfsWriteWs]
  generalize fs.writeAnswers cfg d file.path buf file.pos.toInt64 file.append stamp.mergeId
    stamp.now = answers
  have herr : (-1 : Int) < 2 ^ 31 := by decide
  dsimp only
  rw [OpenFile.gkfsDoWrite]
  split
  · exact herr
  · cases answers.size with
    | error err => exact herr
    | ok offset =>
      dsimp only
      split
      · exact herr
      · have hlt := @Int.bmod_lt answers.transferred.2 (2 ^ 32) (by decide)
        rw [ssize]
        omega

/-- A position that does not wrap. -/
theorem moveTo_inj {p q : Nat} (hp : p < 2 ^ 64) (hq : q < 2 ^ 64) :
    (file.moveTo (p : Int)).pos = (file.moveTo (q : Int)).pos ↔ p = q := by
  have hword : ∀ k : Nat, k < 2 ^ 64 → (UInt64.ofNat ((k : Int) % 2 ^ 64).toNat).toNat = k := by
    intro k hk
    rw [UInt64.toNat_ofNat']
    omega
  constructor
  · intro h
    have hnat := congrArg UInt64.toNat h
    rwa [OpenFile.moveTo, OpenFile.moveTo, hword p hp, hword q hq] at hnat
  · rintro rfl
    rfl

/-- Vectored writes agree with plain ones if and only if there are bytes to write, fewer than
`2 ^ 31`, and an append starts with the position at the end of the file. -/
theorem writevAgrees_iff (hpos : file.pos.toNat < 2 ^ 63)
    (h : (cellAt d fs.daemons file.path).Holds cfg md)
    (hcounts : fs.Counts file.path (iov.length + 1)) (hiov : ∀ seg ∈ iov, seg.length < 2 ^ 31)
    (hend : file.writeStart md.size + iov.flatten.length < 2 ^ 63)
    (hempty : file.isDirectory = false → iov.flatten = [] → RangeOk (file.writeStart md.size) 0)
    (stamps : Nat → Stamp) (stamp : Stamp) :
    WritevAgrees cfg d fs file iov stamps stamp ↔ file.isDirectory = true ∨
      iov.flatten ≠ [] ∧ iov.flatten.length < 2 ^ 31 ∧
        (file.append = true → file.pos.toNat = md.size) := by
  have hcount := hcounts.count
  have hcounts₁ : fs.Counts file.path 1 := ⟨hcounts.size, by omega⟩
  cases hfile : file.isDirectory with
  | true => exact iff_of_true (writevAgrees_directory hfile stamps stamp) (.inl rfl)
  | false =>
    rw [or_iff_right Bool.false_ne_true]
    by_cases hnil : iov.flatten = []
    · refine iff_of_false (fun hagrees => ?_) fun hok => hok.1 hnil
      have hreturned := hagrees.returned
      have hwritev : (fs.gkfsWritev cfg d file iov stamps).1 = -1 := by
        rw [gkfsWritev, gkfsPwritev, transferSegments_flatten_nil hnil]
        rfl
      rw [hwritev, hnil, gkfsWrite_nil hfile hpos h hcounts₁ (hempty hfile hnil) (by omega)]
        at hreturned
      exact absurd hreturned (by decide)
    obtain ⟨fs₁, md₁, hwritev, hwritten⟩ := gkfsWritev_served hfile hpos h
      ⟨hcounts.size, by omega⟩ hiov hend hnil stamps
    by_cases hlarge : iov.flatten.length < 2 ^ 31
    · obtain ⟨fs₂, md₂, hwrite, hwritten'⟩ :=
        gkfsWrite_served hfile hpos h hcounts₁ hnil hlarge hend stamp
      have hposition : (fs.gkfsWritev cfg d file iov stamps).2.1.pos =
          (fs.gkfsWrite cfg d file iov.flatten stamp).2.1.pos ↔
          (file.append = true → file.pos.toNat = md.size) := by
        rw [hwritev, hwrite, moveTo_inj (by omega) (by omega), Nat.add_right_cancel_iff,
          OpenFile.writeStart]
        cases file.append with
        | true => exact ⟨fun heq _ => heq, fun himp => himp rfl⟩
        | false => exact iff_of_true rfl fun hfalse => absurd hfalse Bool.false_ne_true
      constructor
      · intro hagrees
        exact ⟨hnil, hlarge, hposition.1 hagrees.position⟩
      · rintro ⟨-, -, hok⟩
        refine ⟨?_, ?_, ?_, hposition.2 hok⟩
        · rw [hwritev, hwrite]
        · rw [hwritev, hwrite, hwritten.bytes, hwritten'.bytes]
        · rw [hwritev, hwrite]
          exact hwritten.flushedSize_eq hwritten'
    · refine iff_of_false (fun hagrees => ?_) fun hok => hlarge hok.2.1
      have hreturned := hagrees.returned
      have hlt := @gkfsWrite_fst_lt n cfg d fs file iov.flatten stamp
      rw [← hreturned, hwritev] at hlt
      exact hlarge (Int.ofNat_lt.1 hlt)

end

end GekkoFS
