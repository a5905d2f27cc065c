import GekkoFS.Client.ReadWrite

/-!
# Vectored calls

`gkfs_writev` and `gkfs_readv` transfer the segments of a vector one after another, each by a call
of its own, and stop at the first one that fails or is not transferred as a whole
(`transferSegments`). They are translated here beside `gkfs_write` and `gkfs_read`, with the open
file and its position as a part of the state. Every request is delivered and answered, there is no
replication, and the segments do not overlap in memory.
-/

namespace GekkoFS

/-- What a function that returns `ssize_t` returns. -/
def ssize : Except Int Int → Int
  | .ok size => size
  | .error _ => -1

/-- What the metadata daemon puts into a size update: the id of the operand and the time. -/
structure Stamp where
  mergeId : UInt16
  now : Int64

/-! ## Segments -/

/-- Transfer segments from a position on, where `transfer` is the call for the segment of a number:
it returns the size, and the contents of the segment and the state after it. The result is the sum
of the sizes, the contents of all segments and the state. Source: the loops of `gkfs_pwritev`
(`gkfs_functions.cpp:1096`) and `gkfs_preadv` (`gkfs_functions.cpp:1278`). -/
def transferSegments {σ : Type} (transfer : Nat → List UInt8 → Int64 → σ → Int × List UInt8 × σ) :
    Nat → List (List UInt8) → Int64 → Int → σ → Int × List (List UInt8) × σ
  | _, [], _, done, s => (done, [], s)
  | i, seg :: iov, pos, done, s =>
    if seg.length = 0 then
      match transferSegments transfer (i + 1) iov pos done s with
      | (done, iov, s) => (done, seg :: iov, s)
    else
      match transfer i seg pos s with
      | (ret, buf, s) =>
        if ret = -1 then (done, buf :: iov, s)
        -- the size is compared as a `size_t`
        else if (ret % 2 ^ 64).toNat < seg.length then (done + ret, buf :: iov, s)
        else
          match transferSegments transfer (i + 1) iov (pos + Int64.ofInt ret) (done + ret) s with
          | (done, iov, s) => (done, buf :: iov, s)

section
variable {σ : Type} {transfer : Nat → List UInt8 → Int64 → σ → Int × List UInt8 × σ} {i : Nat}
  {seg buf : List UInt8} {iov : List (List UInt8)} {pos : Int64} {done ret : Int} {s s' : σ}

/-- A segment without bytes is left out. -/
theorem transferSegments_nil_cons :
    transferSegments transfer i ([] :: iov) pos done s =
      ((transferSegments transfer (i + 1) iov pos done s).1,
        [] :: (transferSegments transfer (i + 1) iov pos done s).2.1,
        (transferSegments transfer (i + 1) iov pos done s).2.2) := by
  rw [transferSegments, if_pos List.length_nil]

/-- A segment that is transferred as a whole. -/
theorem transferSegments_full (hs : seg ≠ []) (hs' : seg.length < 2 ^ 63)
    (h : transfer i seg pos s = ((seg.length : Int), buf, s')) :
    transferSegments transfer i (seg :: iov) pos done s =
      ((transferSegments transfer (i + 1) iov (pos + Int64.ofInt seg.length) (done + seg.length)
          s').1,
        buf :: (transferSegments transfer (i + 1) iov (pos + Int64.ofInt seg.length)
          (done + seg.length) s').2.1,
        (transferSegments transfer (i + 1) iov (pos + Int64.ofInt seg.length) (done + seg.length)
          s').2.2) := by
  have hword : ((seg.length : Int) % 2 ^ 64).toNat = seg.length := by omega
  rw [transferSegments, if_neg fun hzero => hs (List.length_eq_zero_iff.1 hzero), h]
  dsimp only
  rw [if_neg (by omega), hword, if_neg (Nat.lt_irrefl _)]

/-- A segment that is not transferred as a whole is the last one. -/
theorem transferSegments_short (hs : seg.length < 2 ^ 63) (hlow : 0 ≤ ret)
    (hhigh : ret < seg.length) (h : transfer i seg pos s = (ret, buf, s')) :
    transferSegments transfer i (seg :: iov) pos done s = (done + ret, buf :: iov, s') := by
  rw [transferSegments, if_neg (by omega), h]
  dsimp only
  rw [if_neg (by omega), if_pos (by omega)]

/-- Segments that are all empty. -/
theorem transferSegments_flatten_nil (h : iov.flatten = []) :
    transferSegments transfer i iov pos done s = (done, iov, s) := by
  induction iov generalizing i with
  | nil => rfl
  | cons seg iov ih =>
    obtain ⟨rfl, hrest⟩ := List.append_eq_nil_iff.1 h
    rw [transferSegments_nil_cons, ih hrest]

/-- If every call fails, nothing is transferred. -/
theorem transferSegments_failed (h : ∀ i seg pos, transfer i seg pos s = (-1, seg, s)) :
    transferSegments transfer i iov pos done s = (done, iov, s) := by
  induction iov generalizing i with
  | nil => rfl
  | cons seg iov ih =>
    rw [transferSegments]
    split
    · rw [ih]
    · rw [h]
      exact if_pos rfl

end

/-- What is returned for a sum of sizes. Source: `gkfs_pwritev` (`gkfs_functions.cpp:1114`) and
`gkfs_preadv` (`gkfs_functions.cpp:1296`). -/
def vectorSize (done : Int) : Int := if done = 0 then -1 else done

namespace FileSystem

section
variable {n : Nat} (cfg : MetadataConfig) (d : Distributor n) (fs : FileSystem n) (file : OpenFile)

/-! ## Writing -/

/-- Source: `gkfs_write_ws` (`gkfs_functions.cpp:1029`). -/
def gkfsWriteWs (buf : List UInt8) (offset : Int64) (updatePos : Bool) (stamp : Stamp) :
    Except Int Int × OpenFile × FileSystem n :=
  let answers :=
    fs.writeAnswers cfg d file.path buf offset file.append stamp.mergeId stamp.now
  let ret := file.gkfsDoWrite answers updatePos
  (ret.1, ret.2,
    if file.isDirectory then fs
    else (fs.gkfsDoWrite cfg d file.path buf offset file.append stamp.mergeId stamp.now).2)

/-- Source: `gkfs_write` (`gkfs_functions.cpp:1068`). -/
def gkfsWrite (buf : List UInt8) (stamp : Stamp) : Int × OpenFile × FileSystem n :=
  match fs.gkfsWriteWs cfg d file buf file.pos.toInt64 true stamp with
  | (ret, file, fs) => (ssize ret, file, fs)

/-- The call of `gkfs_pwritev` for one segment. -/
def writeSegment (stamps : Nat → Stamp) (i : Nat) (seg : List UInt8) (pos : Int64)
    (fs : FileSystem n) : Int × List UInt8 × FileSystem n :=
  match fs.gkfsWriteWs cfg d file seg pos false (stamps i) with
  | (ret, _, fs) => (ssize ret, seg, fs)

/-- Source: `gkfs_pwritev` (`gkfs_functions.cpp:1088`). -/
def gkfsPwritev (iov : List (List UInt8)) (offset : Int64) (stamps : Nat → Stamp) :
    Int × FileSystem n :=
  match transferSegments (writeSegment cfg d file stamps) 0 iov offset 0 fs with
  | (written, _, fs) => (vectorSize written, fs)

/-- Source: `gkfs_writev` (`gkfs_functions.cpp:1129`). -/
def gkfsWritev (iov : List (List UInt8)) (stamps : Nat → Stamp) : Int × OpenFile × FileSystem n :=
  match fs.gkfsPwritev cfg d file iov file.pos.toInt64 stamps with
  | (ret, fs) =>
    if ret < 0 then (-1, file, fs) else (ret, file.moveTo (file.pos.toNat + ret), fs)

/-! ## Reading -/

variable (zeroBufferBeforeRead : Bool)

/-- Source: `gkfs_read_ws` (`gkfs_functions.cpp:1209`). -/
def gkfsReadWs (buf : List UInt8) (offset : Int64) : Except Int Int × List UInt8 :=
  if file.isDirectory then (.error EISDIR, buf)
  else fs.gkfsDoRead zeroBufferBeforeRead d file.path buf offset

/-- The return value, the buffer and the open file. Source: `gkfs_read`
(`gkfs_functions.cpp:1247`). -/
def gkfsRead (buf : List UInt8) : Int × List UInt8 × OpenFile :=
  match fs.gkfsReadWs d file zeroBufferBeforeRead buf file.pos.toInt64 with
  | (ret, buf) =>
    (ssize ret, buf,
      if 0 < ssize ret then file.moveTo (file.pos.toNat + ssize ret) else file)

/-- The call of `gkfs_preadv` for one segment. -/
def readSegment (_i : Nat) (seg : List UInt8) (pos : Int64) (_ : Unit) :
    Int × List UInt8 × Unit :=
  match fs.gkfsReadWs d file zeroBufferBeforeRead seg pos with
  | (ret, buf) => (ssize ret, buf, ())

/-- Source: `gkfs_preadv` (`gkfs_functions.cpp:1270`). -/
def gkfsPreadv (iov : List (List UInt8)) (offset : Int64) : Int × List (List UInt8) :=
  match transferSegments (fs.readSegment d file zeroBufferBeforeRead) 0 iov offset 0 () with
  | (read, iov, _) => (vectorSize read, iov)

/-- The return value, the segments and the open file. Source: `gkfs_readv`
(`gkfs_functions.cpp:1311`). -/
def gkfsReadv (iov : List (List UInt8)) : Int × List (List UInt8) × OpenFile :=
  match fs.gkfsPreadv d file zeroBufferBeforeRead iov file.pos.toInt64 with
  | (ret, iov) =>
    if ret < 0 then (-1, iov, file) else (ret, iov, file.moveTo (file.pos.toNat + ret))

end

end FileSystem

end GekkoFS
