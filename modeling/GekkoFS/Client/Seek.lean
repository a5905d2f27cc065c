import GekkoFS.Common.Arithmetic
import GekkoFS.Common.Rpc
import GekkoFS.Lib.Transition

/-!
# Seeking

`gkfs_lseek` computes a new position from a signed offset and stores it in an unsigned word. It
refuses a negative position for `SEEK_SET` and, by a comparison with the negated offset, for
`SEEK_END`, and checks nothing for `SEEK_CUR`. What a file size is at the time of a call is a part
of the call here, since other processes may change it. Sums of signed words wrap, as they do on the
machines that the source is compiled for.

A sequence of calls behaves as seeking should (`SeekOk`) if and only if each of its calls asks for a
position that the code can tell from a negative one (`seekOk_iff`).
-/

namespace GekkoFS

/-! ## The call -/

/-- From the start of the file. -/
def SEEK_SET : UInt32 := 0

/-- From the position. -/
def SEEK_CUR : UInt32 := 1

/-- From the end of the file. -/
def SEEK_END : UInt32 := 2

/-- A call of `lseek`, with what the metadata daemon answers if it is asked: an error code, which is
0 for none, and the size of the file. -/
structure SeekCall where
  offset : Int64
  whence : UInt32
  err : Int
  fileSize : Nat
  fileSize_lt : fileSize < 2 ^ 63

/-- What a call returns and leaves behind. -/
structure SeekOut where
  ret : Int
  errno : Option Int
  /-- The position of the open file. -/
  pos : UInt64

/-- The call fails. -/
def SeekOut.refuse (errno : Int) (pos : UInt64) : SeekOut := ⟨-1, some errno, pos⟩

/-- The call stores a position, and returns it as an `off_t`. -/
def SeekOut.moveTo (pos : UInt64) : SeekOut := ⟨pos.toInt64.toInt, none, pos⟩

/-- Source: `gkfs_lseek` (`gkfs_functions.cpp:703`). Unknown values of `whence` are refused like
`SEEK_DATA` and `SEEK_HOLE`. -/
def gkfsLseek (pos : UInt64) (call : SeekCall) : SeekOut :=
  if call.whence = SEEK_SET then
    if call.offset < 0 then .refuse EINVAL pos else .moveTo call.offset.toUInt64
  else if call.whence = SEEK_CUR then .moveTo (pos + call.offset.toUInt64)
  else if call.whence = SEEK_END then
    if call.err ≠ 0 then .refuse call.err pos
    else if call.offset < 0 ∧ Int64.ofNat call.fileSize < -call.offset then .refuse EINVAL pos
    else .moveTo (Int64.ofNat call.fileSize + call.offset).toUInt64
  else .refuse EINVAL pos

/-- The position after a call. -/
def seekStep (pos : UInt64) (call : SeekCall) : Option UInt64 := some (gkfsLseek pos call).pos

/-! ## What seeking should do -/

/-- Where an offset counts from, if the call has such a place. -/
def SeekCall.base (call : SeekCall) (pos : UInt64) : Option Nat :=
  if call.whence = SEEK_SET then some 0
  else if call.whence = SEEK_CUR then some pos.toNat
  else if call.whence = SEEK_END ∧ call.err = 0 then some call.fileSize
  else none

/-- A call at a position does what seeking should do. -/
structure SeekOk (pos : UInt64) (call : SeekCall) : Prop where
  /-- The position stays one that an `off_t` can hold. -/
  valid : (gkfsLseek pos call).pos.toNat < 2 ^ 63
  /-- A call that returns -1 leaves the position as it is. -/
  unchanged : (gkfsLseek pos call).ret = -1 → (gkfsLseek pos call).pos = pos
  /-- A call that succeeds returns the new position, which is the base plus the offset. -/
  moved : (gkfsLseek pos call).ret ≠ -1 → ∃ base, call.base pos = some base ∧
    (gkfsLseek pos call).ret = base + call.offset.toInt ∧
    ((gkfsLseek pos call).pos.toNat : Int) = base + call.offset.toInt
  /-- A position that an `off_t` cannot hold is refused. -/
  refused : ∀ base, call.base pos = some base →
    (base + call.offset.toInt < 0 ∨ 2 ^ 63 ≤ base + call.offset.toInt) →
      (gkfsLseek pos call).ret = -1

/-- A call at a position asks for one that the code can tell from a negative one: relative to the
position, one that an `off_t` can hold; relative to the end, one below `2 ^ 63`, by an offset that
can be negated. -/
def SeekInRange (pos : UInt64) (call : SeekCall) : Prop :=
  (call.whence = SEEK_CUR →
    0 ≤ pos.toNat + call.offset.toInt ∧ pos.toNat + call.offset.toInt < 2 ^ 63) ∧
  (call.whence = SEEK_END → call.err = 0 →
    call.offset.toInt ≠ -2 ^ 63 ∧ call.fileSize + call.offset.toInt < 2 ^ 63)

instance (pos : UInt64) (call : SeekCall) : Decidable (SeekInRange pos call) :=
  inferInstanceAs (Decidable (_ ∧ _))

/-! ## One call -/

section
variable {pos : UInt64} {call : SeekCall} {base : Nat}

/-- A call that is refused. -/
theorem seekOk_of_refuse (errno : Int) (hout : gkfsLseek pos call = .refuse errno pos)
    (hpos : pos.toNat < 2 ^ 63) : SeekOk pos call := by
  constructor
  · rwa [hout]
  · exact fun _ => by rw [hout]; rfl
  · exact fun hret => absurd (by rw [hout]; rfl) hret
  · exact fun _ _ _ => by rw [hout]; rfl

/-- A call that stores a position which is, modulo `2 ^ 64`, its base plus its offset. -/
theorem seekOk_moveTo_iff {target : UInt64} (hout : gkfsLseek pos call = .moveTo target)
    (hbase : call.base pos = some base) (hlt : base < 2 ^ 63)
    (htarget : (target.toNat : Int) = (base + call.offset.toInt) % 2 ^ 64) :
    SeekOk pos call ↔ 0 ≤ base + call.offset.toInt ∧ base + call.offset.toInt < 2 ^ 63 := by
  have hlow := call.offset.le_toInt
  have hhigh := call.offset.toInt_lt
  have hret : (gkfsLseek pos call).ret = target.toInt64.toInt := by rw [hout]; rfl
  have hpos : (gkfsLseek pos call).pos = target := by rw [hout]; rfl
  constructor
  · intro h
    have hvalid := h.valid
    rw [hpos] at hvalid
    omega
  · rintro ⟨hnonneg, hsmall⟩
    have hsum : (target.toNat : Int) = base + call.offset.toInt := by omega
    rw [toInt_toInt64, if_pos (by omega), hsum] at hret
    refine ⟨by rw [hpos]; omega, fun hminus => by omega, fun _ => ⟨base, hbase, hret, ?_⟩,
      fun base' hbase' hout => ?_⟩
    · rw [hpos, hsum]
    · rw [hbase, Option.some.injEq] at hbase'
      omega

/-- A seek to a position. -/
theorem seekOk_set (hset : call.whence = SEEK_SET) (hpos : pos.toNat < 2 ^ 63) :
    SeekOk pos call := by
  have hhigh := call.offset.toInt_lt
  by_cases hneg : call.offset < 0
  · exact seekOk_of_refuse EINVAL (by rw [gkfsLseek, if_pos hset, if_pos hneg]) hpos
  · have hnonneg : 0 ≤ call.offset.toInt := Int.not_lt.1 fun hlt =>
      hneg (Int64.lt_iff_toInt_lt.2 hlt)
    have htarget := toNat_toUInt64 call.offset
    rw [← Int.zero_add call.offset.toInt] at htarget
    exact (seekOk_moveTo_iff (by rw [gkfsLseek, if_pos hset, if_neg hneg])
      (by rw [SeekCall.base, if_pos hset]) (by decide) htarget).2
      ⟨by simpa using hnonneg, by simpa using hhigh⟩

/-- A seek from the current position. -/
theorem seekOk_cur_iff (hcur : call.whence = SEEK_CUR) (hpos : pos.toNat < 2 ^ 63) :
    SeekOk pos call ↔
      0 ≤ pos.toNat + call.offset.toInt ∧ pos.toNat + call.offset.toInt < 2 ^ 63 := by
  have hset : call.whence ≠ SEEK_SET := by rw [hcur]; decide
  have hoffset := toNat_toUInt64 call.offset
  have hsum : ((pos + call.offset.toUInt64).toNat : Int) =
      (pos.toNat + call.offset.toInt) % 2 ^ 64 := by
    rw [UInt64.toNat_add]
    omega
  exact seekOk_moveTo_iff (by rw [gkfsLseek, if_neg hset, if_pos hcur])
    (by rw [SeekCall.base, if_neg hset, if_pos hcur]) hpos hsum

/-- The comparison with the negated offset finds the negative positions, unless the offset is its
own negative. -/
theorem fileSize_lt_neg_iff (call : SeekCall) :
    (call.offset < 0 ∧ Int64.ofNat call.fileSize < -call.offset) ↔
      call.offset.toInt ≠ -2 ^ 63 ∧ call.fileSize + call.offset.toInt < 0 := by
  have hlow := call.offset.le_toInt
  have hhigh := call.offset.toInt_lt
  have hzero : (0 : Int64).toInt = 0 := by decide
  rw [Int64.lt_iff_toInt_lt, Int64.lt_iff_toInt_lt, Int64.toInt_ofNat_of_lt call.fileSize_lt,
    Int64.toInt_neg, hzero]
  by_cases hmin : call.offset.toInt = -2 ^ 63
  · have hbmod : (-(-2 ^ 63 : Int)).bmod (2 ^ 64) = -2 ^ 63 := by decide
    rw [hmin, hbmod]
    omega
  · rw [Int.bmod_eq_of_le (by omega) (by omega)]
    omega

/-- A seek from the end of the file. -/
theorem seekOk_end_iff (hend : call.whence = SEEK_END) (herr : call.err = 0)
    (hpos : pos.toNat < 2 ^ 63) :
    SeekOk pos call ↔
      call.offset.toInt ≠ -2 ^ 63 ∧ call.fileSize + call.offset.toInt < 2 ^ 63 := by
  have hset : call.whence ≠ SEEK_SET := by rw [hend]; decide
  have hcur : call.whence ≠ SEEK_CUR := by rw [hend]; decide
  have hsize := call.fileSize_lt
  have hlow := call.offset.le_toInt
  have hcond := fileSize_lt_neg_iff call
  by_cases hneg : call.offset < 0 ∧ Int64.ofNat call.fileSize < -call.offset
  · have hless := hcond.1 hneg
    refine iff_of_true (seekOk_of_refuse EINVAL ?_ hpos) ⟨hless.1, by omega⟩
    rw [gkfsLseek, if_neg hset, if_neg hcur, if_pos hend, if_neg (not_not.2 herr), if_pos hneg]
  · have hout : gkfsLseek pos call =
        .moveTo (Int64.ofNat call.fileSize + call.offset).toUInt64 := by
      rw [gkfsLseek, if_neg hset, if_neg hcur, if_pos hend, if_neg (not_not.2 herr), if_neg hneg]
    have hsum : ((Int64.ofNat call.fileSize + call.offset).toUInt64.toNat : Int) =
        (call.fileSize + call.offset.toInt) % 2 ^ 64 := by
      rw [toNat_toUInt64, Int64.toInt_add, Int64.toInt_ofNat_of_lt hsize]
      exact Int.bmod_emod
    rw [hcond] at hneg
    rw [seekOk_moveTo_iff hout
      (by rw [SeekCall.base, if_neg hset, if_neg hcur, if_pos ⟨hend, herr⟩]) hsize hsum]
    omega

/-- A call at a valid position does what it should if and only if it asks for a position in
range. -/
theorem seekOk_step_iff (hpos : pos.toNat < 2 ^ 63) : SeekOk pos call ↔ SeekInRange pos call := by
  by_cases hset : call.whence = SEEK_SET
  · exact iff_of_true (seekOk_set hset hpos)
      ⟨fun hcur => absurd (hset.symm.trans hcur) (by decide),
        fun hend => absurd (hset.symm.trans hend) (by decide)⟩
  by_cases hcur : call.whence = SEEK_CUR
  · rw [seekOk_cur_iff hcur hpos]
    exact ⟨fun h => ⟨fun _ => h, fun hend => absurd (hcur.symm.trans hend) (by decide)⟩,
      fun h => h.1 hcur⟩
  by_cases hend : call.whence = SEEK_END
  · by_cases herr : call.err = 0
    · rw [seekOk_end_iff hend herr hpos]
      exact ⟨fun h => ⟨fun h' => absurd h' hcur, fun _ _ => h⟩, fun h => h.2 hend herr⟩
    · refine iff_of_true (seekOk_of_refuse call.err ?_ hpos)
        ⟨fun h => absurd h hcur, fun _ h => absurd h herr⟩
      rw [gkfsLseek, if_neg hset, if_neg hcur, if_pos hend, if_pos herr]
  · refine iff_of_true (seekOk_of_refuse EINVAL ?_ hpos)
      ⟨fun h => absurd h hcur, fun h => absurd h hend⟩
    rw [gkfsLseek, if_neg hset, if_neg hcur, if_neg hend]

end

/-! ## Sequences of calls -/

/-- Every call of a sequence does what seeking should do if and only if every call asks, at the
position it finds, for one in range. -/
theorem seekOk_iff (pos : UInt64) (hpos : pos.toNat < 2 ^ 63) (calls : List SeekCall) :
    Transition.AllOk seekStep SeekOk pos calls ↔
      Transition.AllOk seekStep SeekInRange pos calls := by
  refine Transition.allOk_congr (I := fun pos => pos.toNat < 2 ^ 63)
    (fun _ _ hvalid => seekOk_step_iff hvalid) (fun pos call pos' _ hok hstep => ?_) hpos
  cases hstep
  exact hok.valid

/-- To the end of a file of ten bytes, two back and past the beginning by an offset that is
refused. -/
def seekCalls : List SeekCall :=
  [⟨0, SEEK_END, 0, 10, by decide⟩, ⟨-2, SEEK_CUR, 0, 10, by decide⟩,
    ⟨-11, SEEK_END, 0, 10, by decide⟩, ⟨7, 666, 0, 10, by decide⟩]

theorem seekOk_iff_seekCalls : Transition.AllOk seekStep SeekOk 0 seekCalls :=
  (seekOk_iff 0 (by decide) seekCalls).2 (by decide +kernel)

/-- A step back from the beginning stores a position that is not valid, although it returns -1. -/
theorem seek_before_start :
    ¬ Transition.AllOk seekStep SeekOk 0 [⟨-1, SEEK_CUR, 0, 0, by decide⟩] :=
  fun h => absurd h.1.valid (by decide +kernel)

end GekkoFS
