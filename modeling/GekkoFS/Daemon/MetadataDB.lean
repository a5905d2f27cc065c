import Mathlib.Data.Char
import Mathlib.Data.List.AList
import Mathlib.Data.List.Lex
import Mathlib.Data.List.Sort
import GekkoFS.Daemon.ChunkStorage
import GekkoFS.Daemon.MergeOperator

/-!
# The metadata store of a daemon

RocksDB keeps for each key a stored value, if there is one, and the merge operands that were queued
since (`Cell`). A read returns the stored value if no operand is queued and calls the merge operator
otherwise; RocksDB may also fold a prefix of the queued operands into the value at any time
(`Cell.compact`). The calls of the merge operator fill the daemon's table of append offsets
(`AppendOffsetReserve`), from which an append takes its offset.

The functions of `RocksDBBackend` are built on these as the source has them, each as a state
transformer on the store and the table, with the exception it throws as its error.
-/

namespace GekkoFS

/-- What the store holds for a key: the value, and the queued operands, oldest first. -/
structure Cell where
  base : Option (List Char)
  operands : List (List Char)
  deriving DecidableEq, Repr

/-- A key that the store does not hold. -/
def Cell.empty : Cell := ⟨none, []⟩

/-- The keys of a store with what it holds for them. -/
abbrev DB := AList fun _ : List Char => Cell

/-- The append offsets that the merge operator has put and no append has taken yet, by merge id.
Source: `append_offset_reserve_` (`metadata_module.hpp:48`). -/
abbrev AppendOffsetReserve := Nat → Option Nat

/-- The exceptions of the metadata backend: a key that is not there, a key that is already there,
and any other `std::exception`, which here is one that the merge operator throws. Source:
`exceptions.hpp:37`. -/
inductive DBException
  | notFound
  | exists
  | other
  deriving DecidableEq, Repr

/-! ## The operations of the store -/

namespace Cell

/-- Queue an operand. Source: `rocksdb::DB::Merge`. -/
def merge (c : Cell) (op : List Char) : Cell := { c with operands := c.operands ++ [op] }

/-- The value of a key with the offsets that reading it puts into the table: the stored value if no
operand is queued, and otherwise what the merge operator makes of it. Source:
`rocksdb::DB::Get`. -/
def get (cfg : MetadataConfig) (c : Cell) :
    List (Nat × Nat) × Except DBException (List Char) :=
  match c.operands with
  | [] =>
    match c.base with
    | some value => ([], .ok value)
    | none => ([], .error .notFound)
  | op :: ops =>
    match fullMergeV2 cfg c.base (op :: ops) with
    | (reserved, some value) => (reserved, .ok value)
    | (reserved, none) => (reserved, .error .other)

/-- A key with queued operands is read by merging them. -/
theorem get_cons {cfg : MetadataConfig} {base : Option (List Char)} {op val : List Char}
    {ops : List (List Char)} {reserved : List (Nat × Nat)}
    (h : fullMergeV2 cfg base (op :: ops) = (reserved, some val)) :
    get cfg ⟨base, op :: ops⟩ = (reserved, .ok val) := by
  rw [get]
  simp only [h]

/-- Fold the first `n` queued operands into the value, as a compaction may do; nothing changes if
the merge operator throws. -/
def compact (cfg : MetadataConfig) (c : Cell) (n : Nat) : List (Nat × Nat) × Cell :=
  match fullMergeV2 cfg c.base (c.operands.take n) with
  | (reserved, some value) => (reserved, ⟨some value, c.operands.drop n⟩)
  | (reserved, none) => (reserved, c)

end Cell

namespace DB

/-- What the store holds for a key. -/
def cell (db : DB) (key : List Char) : Cell := (db.lookup key).getD Cell.empty

@[simp] theorem cell_insert_self (db : DB) (key : List Char) (c : Cell) :
    cell (db.insert key c) key = c := by
  rw [cell, AList.lookup_insert, Option.getD_some]

@[simp] theorem cell_insert_ne {key key' : List Char} (h : key' ≠ key) (db : DB) (c : Cell) :
    cell (db.insert key c) key' = cell db key' := by
  rw [cell, AList.lookup_insert_ne h, cell]

@[simp] theorem cell_erase_self (db : DB) (key : List Char) :
    cell (db.erase key) key = Cell.empty := by
  rw [cell, AList.lookup_erase, Option.getD_none]

@[simp] theorem cell_erase_ne {key key' : List Char} (h : key' ≠ key) (db : DB) :
    cell (db.erase key) key' = cell db key' := by
  rw [cell, AList.lookup_erase_ne h, cell]

/-- Queue an operand for a key. -/
def merge (db : DB) (key op : List Char) : DB := db.insert key ((cell db key).merge op)

@[simp] theorem cell_merge_self (db : DB) (key op : List Char) :
    cell (db.merge key op) key = (cell db key).merge op := cell_insert_self ..

@[simp] theorem cell_merge_ne {key key' : List Char} (h : key' ≠ key) (db : DB) (op : List Char) :
    cell (db.merge key op) key' = cell db key' := cell_insert_ne h ..

/-- The entries of a store in key order, as they were when the iterator was made. Source:
`iterate_all_impl` (`rocksdb_backend.cpp:392`). -/
def iterateAll (db : DB) : List (List Char × Cell) :=
  ((db.keys.filter fun key => db.cell key ≠ Cell.empty).insertionSort (· ≤ ·)).map fun key =>
    (key, db.cell key)

/-- The iterator yields every key that is there once, with what the store holds for it. -/
theorem mem_iterateAll {db : DB} {p : List Char × Cell} :
    p ∈ db.iterateAll ↔ db.cell p.1 ≠ Cell.empty ∧ p.2 = db.cell p.1 := by
  have hkeys : db.cell p.1 ≠ Cell.empty → p.1 ∈ db.keys := by
    intro hne
    by_contra hmem
    refine hne ?_
    rw [cell, AList.lookup_eq_none.2 fun h => hmem (AList.mem_keys.1 h), Option.getD_none]
  simp only [iterateAll, List.mem_map, List.mem_insertionSort, List.mem_filter,
    decide_eq_true_eq]
  constructor
  · rintro ⟨key, ⟨-, hne⟩, rfl⟩
    exact ⟨hne, rfl⟩
  · rintro ⟨hne, hcell⟩
    exact ⟨p.1, ⟨hkeys hne, hne⟩, Prod.ext rfl hcell.symm⟩

end DB

namespace AppendOffsetReserve

/-- Put an offset. Source: `append_offset_reserve_put` (`metadata_module.cpp:48`). -/
def put (r : AppendOffsetReserve) (mergeId offset : Nat) : AppendOffsetReserve :=
  Function.update r mergeId (some offset)

/-- Put the offsets of a call of the merge operator. -/
def putAll (r : AppendOffsetReserve) (reserved : List (Nat × Nat)) : AppendOffsetReserve :=
  reserved.foldl (fun r p => put r p.1 p.2) r

/-- Take an offset out of the table; `std::map::at` throws if there is none. Source:
`append_offset_reserve_get_and_erase` (`metadata_module.cpp:54`). -/
def getAndErase (r : AppendOffsetReserve) (mergeId : Nat) : Option Nat × AppendOffsetReserve :=
  match r mergeId with
  | some offset => (some offset, Function.update r mergeId none)
  | none => (none, r)

end AppendOffsetReserve

/-! ## The RocksDB backend -/

/-- The operand of an append. -/
def appendOperand (ioSize mergeId : Nat) : List Char :=
  (MergeOperand.increaseSize ioSize mergeId true).serialize

/-- A word as `off_t`. -/
def toOff (n : Nat) : Int := if n < 2 ^ 63 then (n : Int) else (n : Int) - 2 ^ 64

/-- The state of a daemon that its metadata requests work on. -/
structure MetadataDaemon where
  db : DB
  reserve : AppendOffsetReserve
  storage : ChunkStorage

/-- The daemons of a file system with their metadata and chunk files. -/
abbrev DaemonCluster (n : Nat) := Fin n → MetadataDaemon

namespace MetadataDaemon

variable (cfg : MetadataConfig) (st : MetadataDaemon) (key : List Char)

/-- Source: `get_impl` (`rocksdb_backend.cpp:96`). -/
def getImpl : Except DBException (List Char) × MetadataDaemon :=
  (((st.db.cell key).get cfg).2,
    { st with reserve := AppendOffsetReserve.putAll st.reserve ((st.db.cell key).get cfg).1 })

/-- Source: `exists_impl` (`rocksdb_backend.cpp:160`). -/
def existsImpl : Except DBException Bool × MetadataDaemon :=
  match getImpl cfg st key with
  | (.ok _, st) => (.ok true, st)
  | (.error .notFound, st) => (.ok false, st)
  | (.error e, st) => (.error e, st)

/-- Source: `put_impl` (`rocksdb_backend.cpp:114`). -/
def putImpl (val : List Char) : MetadataDaemon :=
  { st with db := st.db.merge key (MergeOperand.create val).serialize }

/-- Source: `put_no_exist_impl` (`rocksdb_backend.cpp:131`). -/
def putNoExistImpl (val : List Char) : Except DBException Unit × MetadataDaemon :=
  match existsImpl cfg st key with
  | (.ok true, st) => (.error .exists, st)
  | (.ok false, st) => (.ok (), putImpl st key val)
  | (.error e, st) => (.error e, st)

/-- RocksDB deletes a key whether it is there or not. Source: `remove_impl`
(`rocksdb_backend.cpp:145`). -/
def removeImpl : MetadataDaemon := { st with db := st.db.erase key }

/-- The time update that follows a size update in a build that keeps modification times. -/
def updateMtime (now : Int64) : MetadataDaemon :=
  if cfg.useMtime then
    { st with db := st.db.merge key (MergeOperand.updateTime now.toInt).serialize }
  else st

/-- Source: `increase_size_impl` (`rocksdb_backend.cpp:215`); `mergeId` is what `gen_unique_id`
returns and `now` what `time` returns. -/
def increaseSizeImpl (ioSize offset : UInt64) (append : Bool) (mergeId : UInt16) (now : Int64) :
    Except DBException Int × MetadataDaemon :=
  if append then
    match getImpl cfg
        { st with db := st.db.merge key (appendOperand ioSize.toNat mergeId.toNat) } key with
    | (.error e, st) => (.error e, st)
    | (.ok _, st) =>
      match AppendOffsetReserve.getAndErase st.reserve mergeId.toNat with
      | (some off, reserve) => (.ok (toOff off), { st with reserve })
      | (none, _) => (.ok (-1), st)
  else
    (.ok (-1), updateMtime cfg
      { st with
        db := st.db.merge key
          (MergeOperand.increaseSize (offset + ioSize).toNat 0 false).serialize } key now)

/-- Source: `decrease_size_impl` (`rocksdb_backend.cpp:268`). -/
def decreaseSizeImpl (size : UInt64) (now : Int64) : MetadataDaemon :=
  updateMtime cfg
    { st with db := st.db.merge key (MergeOperand.decreaseSize size.toNat).serialize } key now

end MetadataDaemon

end GekkoFS
