import GekkoFS.Client.WriteSizeCache

/-!
# Reading and writing through an open file

`gkfs_do_write` has the size of the file updated, transfers the data, with replication a second
time, and returns the size written; `gkfs_write` moves the position of the open file behind it, and
`gkfs_truncate` compares it with the number of zeros it extends the file by. The three are
translated here with what their requests come to as an input (`WriteAnswers`).
`FileSystem.gkfsDoWrite_eq` and `FileSystem.extendTo_eq` connect them with the functions over the
daemons. `FileSystem.gkfsDoRead` is the read over the daemons.

The size written is kept in an `int`. So a transfer that stored all bytes is reported as such if and
only if there are fewer than `2 ^ 31` of them (`reportsCount_iff`).
-/

namespace GekkoFS

/-! ## Open files -/

/-- Source: `OpenFile` (`open_file_map.hpp:59`). -/
structure OpenFile where
  path : List Char
  append : Bool
  isDirectory : Bool
  pos : UInt64
  deriving DecidableEq

/-- What the requests of a write come to. -/
structure WriteAnswers where
  /-- The offset at which the write goes on after the size update, or an error. -/
  size : Except Int Int64
  /-- The error code and the size of the transfer. -/
  primary : Nat × Nat
  /-- Those of the transfer to the replicas, if there are replicas. -/
  replica : Option (Nat × Nat)

namespace WriteAnswers

/-- The error code and the size that count: those of the transfer, unless it fails and that to the
replicas does not. Source: `gkfs_do_write` (`gkfs_functions.cpp:976`). -/
def transferred (a : WriteAnswers) : Nat × Nat :=
  match a.replica with
  | none => a.primary
  | some repl => if a.primary.1 ≠ 0 ∧ repl.1 = 0 then repl else a.primary

end WriteAnswers

namespace OpenFile

/-- Store a position, an `unsigned long`. Source: `OpenFile::pos` (`open_file_map.cpp:81`). -/
def moveTo (file : OpenFile) (pos : Int) : OpenFile :=
  { file with pos := UInt64.ofNat (pos % 2 ^ 64).toNat }

/-- The size written, an `int`, or an error; and the open file with its position. Source:
`gkfs_do_write` (`gkfs_functions.cpp:923`). -/
def gkfsDoWrite (file : OpenFile) (a : WriteAnswers) (updatePos : Bool) :
    Except Int Int × OpenFile :=
  if file.isDirectory then (.error EISDIR, file)
  else
    match a.size with
    | .error err => (.error err, file)
    | .ok offset =>
      if a.transferred.1 ≠ 0 then (.error a.transferred.1, file)
      else
        let writeSize := Int.bmod a.transferred.2 (2 ^ 32)
        (.ok writeSize, if updatePos then file.moveTo (offset.toInt + writeSize) else file)

/-- Source: `gkfs_write` (`gkfs_functions.cpp:1066`). -/
def gkfsWrite (file : OpenFile) (a : WriteAnswers) : Except Int Int × OpenFile :=
  file.gkfsDoWrite a true

end OpenFile

/-- The error code of `gkfs_truncate` when it extends a file by `count` zeros, for which there is
memory: `opened` is the file that it opens, unless that fails. Source: `gkfs_truncate`
(`gkfs_functions.cpp:862`). -/
def extendWith (opened : Option OpenFile) (count : Nat) (a : WriteAnswers) : Int :=
  match opened with
  | none => EINVAL
  | some file =>
    match (file.gkfsWrite a).1 with
    | .ok written => if written ≠ count then EINVAL else 0
    | .error _ => EINVAL

/-! ## The functions over the daemons -/

section
variable {n : Nat} {cfg : MetadataConfig} {d : Distributor n}

/-- What a write to a path gets from the size update and the transfer, without replication. -/
def FileSystem.writeAnswers (fs : FileSystem n) (cfg : MetadataConfig) (d : Distributor n)
    (path : List Char) (buf : List UInt8) (offset : Int64) (isAppend : Bool) (mergeId : UInt16)
    (now : Int64) : WriteAnswers :=
  match fs.updateSize cfg d path (UInt64.ofNat buf.length) offset isAppend mergeId now with
  | (.error err, _) => ⟨.error err, (0, 0), none⟩
  | (.ok offset, fs) =>
    ⟨.ok (Int64.ofInt offset), (writeData d fs.daemons path buf offset).1, none⟩

theorem FileSystem.gkfsDoWrite_eq (fs : FileSystem n) (file : OpenFile)
    (hfile : file.isDirectory = false) (buf : List UInt8) (offset : Int64) (mergeId : UInt16)
    (now : Int64) (updatePos : Bool) :
    (fs.gkfsDoWrite cfg d file.path buf offset file.append mergeId now).1 =
      (file.gkfsDoWrite (fs.writeAnswers cfg d file.path buf offset file.append mergeId now)
        updatePos).1 := by
  rw [FileSystem.gkfsDoWrite, FileSystem.writeAnswers, OpenFile.gkfsDoWrite, hfile,
    if_neg Bool.false_ne_true]
  generalize writeData d = write
  obtain ⟨size, fs'⟩ :=
    fs.updateSize cfg d file.path (UInt64.ofNat buf.length) offset file.append mergeId now
  cases size with
  | error err => rfl
  | ok offset =>
    dsimp only
    rw [WriteAnswers.transferred]
    dsimp only
    split
    · rfl
    · rfl

/-- An extension of a regular file writes zeros at its end. -/
theorem FileSystem.extendTo_eq (fs : FileSystem n) (path : List Char) (md : Metadata)
    (length : Nat) (now : Int64) {opened atEnd : Metadata} {cl cl' : DaemonCluster n}
    (hopen : getMetadata cfg d fs.daemons path = (.ok opened, cl))
    (hfile : isDir opened.mode = false)
    (hend : getMetadata cfg d cl path = (.ok atEnd, cl')) :
    (fs.extendTo cfg d path md length now).1 =
      extendWith (some ⟨path, false, false, UInt64.ofNat atEnd.size⟩) (length - md.size)
        (FileSystem.writeAnswers { fs with daemons := cl' } cfg d path
          (List.replicate (length - md.size) 0) (Int64.ofNat atEnd.size) false 0 now) := by
  have hwrite := @FileSystem.gkfsDoWrite_eq n cfg d { fs with daemons := cl' }
    ⟨path, false, false, UInt64.ofNat atEnd.size⟩ rfl (List.replicate (length - md.size) 0)
    (Int64.ofNat atEnd.size) 0 now true
  rw [FileSystem.extendTo, hopen]
  dsimp only
  rw [if_neg (by rw [hfile]; exact Bool.false_ne_true), hend]
  dsimp only
  rewrite [extendWith, OpenFile.gkfsWrite, ← hwrite]
  generalize FileSystem.gkfsDoWrite cfg d { fs with daemons := cl' } path
    (List.replicate (length - md.size) 0) (Int64.ofNat atEnd.size) false 0 now = r
  rfl

/-- The data of a read: what `forward_read` returns without replication. -/
def readData (d : Distributor n) (cl : DaemonCluster n) (path : List Char) (buf : List UInt8)
    (offset : Int) : ReadResult :=
  let offset := (offset % 2 ^ 64).toNat
  readSelected (fun _ => .delivered) (storages cl) path buf offset ∅
    ((chunkIds offset buf.length).map fun chnkId => (chnkId, d.locateData path chnkId 0))

theorem forwardRead_eq_readData (d : Distributor n) (cl : DaemonCluster n) (path : List Char)
    (buf : List UInt8) (offset : Int) (draws : Nat → List Nat) :
    forwardRead d (fun _ => .delivered) (storages cl) path buf (offset % 2 ^ 64).toNat 0 ∅ draws =
      some (readData d cl path buf offset) := by
  rw [forwardRead, mapM_readTarget_zero, Option.map_some, readData]

/-- Read from a file that was opened as a regular file: the size read or an error, and the caller's
buffer. Source: `gkfs_do_read` (`gkfs_functions.cpp:1152`). -/
def FileSystem.gkfsDoRead (zeroBufferBeforeRead : Bool) (d : Distributor n) (fs : FileSystem n)
    (path : List Char) (buf : List UInt8) (offset : Int64) : Except Int Int × List UInt8 :=
  let buf := if zeroBufferBeforeRead then List.replicate buf.length 0 else buf
  let ret := readData d fs.daemons path buf offset.toInt
  (if ret.result.1 ≠ 0 then .error ret.result.1 else .ok ret.result.2, ret.buf)

end

/-! ## The size that is reported -/

/-- The size written is reported as `count`: the write returns it, the position moves behind it, and
an extension by as many bytes succeeds. -/
structure ReportsCount (file : OpenFile) (a : WriteAnswers) (offset : Int64) (count : Nat) :
    Prop where
  returned : ∀ updatePos, (file.gkfsDoWrite a updatePos).1 = .ok (count : Int)
  advanced : ((file.gkfsWrite a).2.pos.toNat : Int) = offset.toInt + count
  extended : extendWith (some file) count a = 0

/-- An `int` holds a size if and only if it is below `2 ^ 31`. -/
theorem bmod_eq_self_iff {count : Nat} :
    Int.bmod count (2 ^ 32) = count ↔ count < 2 ^ 31 := by
  constructor
  · intro h
    have hlt := Int.bmod_lt (x := count) (m := 2 ^ 32) (by decide)
    omega
  · intro h
    exact Int.bmod_eq_of_le (by omega) (by omega)

/-- A transfer that stored all bytes is reported as such if and only if there are fewer than
`2 ^ 31` of them, and the write does not end before the start of the file. -/
theorem reportsCount_iff {file : OpenFile} (hfile : file.isDirectory = false) {a : WriteAnswers}
    {offset : Int64} (hoffset : a.size = .ok offset) {count : Nat}
    (hstored : a.transferred = (0, count)) :
    ReportsCount file a offset count ↔ count < 2 ^ 31 ∧ 0 ≤ offset.toInt + count := by
  have hlow := offset.le_toInt
  have hhigh := offset.toInt_lt
  have hret : ∀ updatePos, file.gkfsDoWrite a updatePos = (.ok (Int.bmod count (2 ^ 32)),
      if updatePos then file.moveTo (offset.toInt + Int.bmod count (2 ^ 32)) else file) := by
    intro updatePos
    rw [OpenFile.gkfsDoWrite, hfile, if_neg Bool.false_ne_true, hoffset, hstored]
    rfl
  constructor
  · intro h
    have hreturned := h.returned true
    have hadvanced := h.advanced
    rw [hret, Except.ok.injEq, bmod_eq_self_iff] at hreturned
    rw [OpenFile.gkfsWrite, hret] at hadvanced
    exact ⟨hreturned, hadvanced ▸ Int.natCast_nonneg _⟩
  · rintro ⟨hsmall, hnonneg⟩
    rw [bmod_eq_self_iff.2 hsmall] at hret
    refine ⟨fun updatePos => by rw [hret], ?_, ?_⟩
    · rw [OpenFile.gkfsWrite, hret, if_pos rfl, OpenFile.moveTo]
      dsimp only
      rw [UInt64.toNat_ofNat']
      omega
    · rw [extendWith, OpenFile.gkfsWrite, hret]
      exact if_neg (not_not.2 rfl)

/-- A write of five bytes at position 7 whose first transfer fails and whose second succeeds. -/
theorem reportsCount_iff_replica :
    ReportsCount ⟨"/f".toList, false, false, 7⟩ ⟨.ok 7, ( EIO, 0), some (0, 5)⟩ 7 5 :=
  (reportsCount_iff rfl rfl rfl).2 (by decide)

/-- A write of `2 ^ 31` bytes to one daemon stores all of them, returns a negative size and moves
the position to almost `2 ^ 64`, and an extension by as many bytes fails. -/
theorem large_write_misreported :
    let file : OpenFile := ⟨"/f".toList, false, false, 0⟩
    let d := simpleHashDistributor List.length 1 (by decide)
    let a : WriteAnswers := ⟨.ok 0, (forwardWrite d (fun _ => .delivered) (fun _ => ∅) "/f".toList
      (List.replicate (2 ^ 31) 0) 0 0).1, none⟩
    a.transferred = (0, 2 ^ 31) ∧
      file.gkfsWrite a = (.ok (-2 ^ 31), { file with pos := 18446744071562067968 }) ∧
      extendWith (some file) (2 ^ 31) a = EINVAL ∧ ¬ ReportsCount file a 0 (2 ^ 31) := by
  have hlength : (List.replicate (2 ^ 31) (0 : UInt8)).length = 2 ^ 31 := List.length_replicate
  dsimp only
  generalize List.replicate (2 ^ 31) (0 : UInt8) = buf at hlength
  rw [forwardWrite_fst _ _ _ (by decide) (by rw [hlength]; decide) (by rw [hlength]; decide),
    hlength]
  refine ⟨rfl, by decide +kernel, by decide +kernel, fun h => ?_⟩
  exact absurd (h.returned true) (by decide +kernel)

end GekkoFS
