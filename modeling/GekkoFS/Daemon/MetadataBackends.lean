import GekkoFS.Common.MetadataRoundTrip
import GekkoFS.Daemon.MetadataHandler
import GekkoFS.Lib.Simulation

/-!
# The two metadata backends

A daemon keeps its metadata in RocksDB, where updates are queued as merge operands, or in Parallax,
where they are read, modified and written back. Both backends serve the same calls; `rocksCall` and
`parallaxCall` are the two, each with what the call returns or throws.

RocksDB and Parallax themselves are ordered maps here. `CallAllowed` says which calls may be made:
size updates of keys that are there, and decreases to a smaller size. `CallOk` is the condition
under which the backends answer a call in the same way.
-/

namespace GekkoFS

/-! ## Directory listings -/

/-- The path that a listing starts from. Source: `MetadataDB::get_dirents` (`db.cpp:151`). -/
def direntsRoot (dir : List Char) : List Char :=
  if dir.getLast? ≠ some '/' ∧ dir.length ≠ 1 then dir ++ ['/'] else dir

/-- What one key adds to the listing below a path: nothing for the path itself, for a key deeper
below it and for an entry that was renamed. Source: the loop body of `get_dirents_impl`
(`rocksdb_backend.cpp:300`, `parallax_backend.cpp:390`). -/
def dirent (cfg : MetadataConfig) (root key text : List Char) :
    Except DBException (Option (List Char × Bool)) :=
  if key.length = root.length then .ok none
  else if '/' ∈ key.drop root.length then .ok none
  else
    match Metadata.parse cfg text with
    | none => .error .other
    | some md =>
      if cfg.hasRename ∧ md.blocks = -1 then .ok none
      else .ok (some (key.drop root.length, isDir md.mode))

/-- The loop over the keys from a path on, which ends at the first key that is not `inside`. -/
def direntsLoop (inside : List Char → Bool) (cfg : MetadataConfig) (root : List Char) :
    List (List Char × Except DBException (List Char)) →
      Except DBException (List (List Char × Bool))
  | [] => .ok []
  | (key, value) :: items => do
    let text ← value
    if inside key then
      let entry ← dirent cfg root key text
      let entries ← direntsLoop inside cfg root items
      return entry.toList ++ entries
    else return []

namespace MetadataDaemon

variable (cfg : MetadataConfig) (st : MetadataDaemon)

/-- Source: `update_impl` (`rocksdb_backend.cpp:183`). -/
def updateImpl (oldKey newKey val : List Char) : MetadataDaemon :=
  { st with db := (st.db.erase oldKey).insert newKey ⟨some val, []⟩ }

/-- The iterator merges each key it comes to, which fills the table of append offsets; the last one
is the key after the listing. Source: `get_dirents_impl` (`rocksdb_backend.cpp:294`). -/
def getDirentsImpl (root : List Char) :
    Except DBException (List (List Char × Bool)) × MetadataDaemon :=
  let items := st.db.iterateAll.dropWhile fun p => p.1 < root
  let listed := items.takeWhile fun p => root.isPrefixOf p.1
  (direntsLoop root.isPrefixOf cfg root (items.map fun p => (p.1, (p.2.get cfg).2)),
    { st with
      reserve := (items.take (listed.length + 1)).foldl
        (fun r p => AppendOffsetReserve.putAll r (p.2.get cfg).1) st.reserve })

end MetadataDaemon

/-! ## The Parallax backend -/

/-- A Parallax store: the keys with their values, each with the NUL that ends it. -/
abbrev ParallaxDB := AList fun _ : List Char => List Char

namespace ParallaxDB

variable (cfg : MetadataConfig) (db : ParallaxDB) (key : List Char)

/-- Source: `str2par` (`parallax_backend.cpp:171`). -/
def str2par (value : List Char) : List Char := value ++ ['\x00']

/-- Source: `get_impl` (`parallax_backend.cpp:183`). -/
def getImpl : Except DBException (List Char) :=
  match db.lookup key with
  | none => .error .notFound
  | some value => .ok (cstr value)

/-- Source: `put_impl` (`parallax_backend.cpp:208`). -/
def putImpl (val : List Char) : ParallaxDB := db.insert key (str2par val)

/-- Source: `put_no_exist_impl` (`parallax_backend.cpp:229`). -/
def putNoExistImpl (val : List Char) : Except DBException Unit × ParallaxDB :=
  if key ∈ db then (.error .exists, db) else (.ok (), putImpl db key val)

/-- Source: `remove_impl` (`parallax_backend.cpp:254`). -/
def removeImpl : ParallaxDB := db.erase key

/-- The answer is the wrong way round. Source: `exists_impl` (`parallax_backend.cpp:275`). -/
def existsImpl : Bool := if key ∉ db then true else false

/-- Source: `update_impl` (`parallax_backend.cpp:297`). -/
def updateImpl (oldKey newKey val : List Char) : ParallaxDB :=
  putImpl (if newKey ≠ oldKey then db.erase oldKey else db) newKey val

/-- Read an entry, change it and write it back. -/
def modify (f : Metadata → Int × Metadata) : Except DBException Int × ParallaxDB :=
  match getImpl db key with
  | .error e => (.error e, db)
  | .ok value =>
    match Metadata.parse cfg value with
    | none => (.error .other, db)
    | some md => (.ok (f md).1, updateImpl db key key ((f md).2.serialize cfg))

/-- Without `append` the size is set to the end of the write, whatever it was. Source:
`increase_size_impl` (`parallax_backend.cpp:335`). -/
def increaseSizeImpl (ioSize offset : UInt64) (append : Bool) :
    Except DBException Int × ParallaxDB :=
  modify cfg db key fun md =>
    if append then (toOff md.size, { md with size := u64 (md.size + ioSize.toNat) })
    else (-1, { md with size := (offset + ioSize).toNat })

/-- Source: `decrease_size_impl` (`parallax_backend.cpp:359`). -/
def decreaseSizeImpl (size : UInt64) : Except DBException Int × ParallaxDB :=
  modify cfg db key fun md => (-1, { md with size := size.toNat })

/-- Source: `get_dirents_impl` (`parallax_backend.cpp:377`). -/
def getDirentsImpl (root : List Char) : Except DBException (List (List Char × Bool)) :=
  let items := (db.keys.insertionSort (· ≤ ·)).dropWhile fun key => key < root
  direntsLoop (fun key => !(key.length < root.length || key.take root.length ≠ root)) cfg root
    (items.map fun key => (key, .ok ((db.lookup key).getD [])))

end ParallaxDB

/-! ## Calls -/

/-- A call of a backend. The merge id and the time are what the daemon draws for it. -/
inductive BackendCall
  | putNoExist (key val : List Char)
  | put (key val : List Char)
  | exists (key : List Char)
  | get (key : List Char)
  | update (oldKey newKey val : List Char)
  | increaseSize (key : List Char) (ioSize offset : UInt64) (append : Bool) (mergeId : UInt16)
      (now : Int64)
  | decreaseSize (key : List Char) (size : UInt64) (now : Int64)
  | remove (key : List Char)
  | getDirents (dir : List Char)
  deriving DecidableEq

/-- What a call returns or throws. -/
inductive BackendAnswer
  | done
  | value (val : List Char)
  | found (b : Bool)
  | offset (off : Int)
  | entries (l : List (List Char × Bool))
  | failed (e : DBException)
  deriving DecidableEq, Repr

/-- The answer of a call that returns a value or throws. -/
def BackendAnswer.of {α : Type} (f : α → BackendAnswer) : Except DBException α → BackendAnswer
  | .ok a => f a
  | .error e => .failed e

/-- A call of the RocksDB backend. -/
def rocksCall (cfg : MetadataConfig) (st : MetadataDaemon) :
    BackendCall → BackendAnswer × MetadataDaemon
  | .putNoExist key val =>
    let r := st.putNoExistImpl cfg key val
    (.of (fun _ => .done) r.1, r.2)
  | .put key val => (.done, st.putImpl key val)
  | .exists key =>
    let r := st.existsImpl cfg key
    (.of .found r.1, r.2)
  | .get key =>
    let r := st.getImpl cfg key
    (.of .value r.1, r.2)
  | .update oldKey newKey val => (.done, st.updateImpl oldKey newKey val)
  | .increaseSize key ioSize offset append mergeId now =>
    let r := st.increaseSizeImpl cfg key ioSize offset append mergeId now
    (.of .offset r.1, r.2)
  | .decreaseSize key size now => (.done, st.decreaseSizeImpl cfg key size now)
  | .remove key => (.done, st.removeImpl key)
  | .getDirents dir =>
    let r := st.getDirentsImpl cfg (direntsRoot dir)
    (.of .entries r.1, r.2)

/-- A call of the Parallax backend. -/
def parallaxCall (cfg : MetadataConfig) (db : ParallaxDB) :
    BackendCall → BackendAnswer × ParallaxDB
  | .putNoExist key val =>
    let r := db.putNoExistImpl key val
    (.of (fun _ => .done) r.1, r.2)
  | .put key val => (.done, db.putImpl key val)
  | .exists key => (.found (db.existsImpl key), db)
  | .get key => (.of .value (db.getImpl key), db)
  | .update oldKey newKey val => (.done, db.updateImpl oldKey newKey val)
  | .increaseSize key ioSize offset append _ _ =>
    let r := db.increaseSizeImpl cfg key ioSize offset append
    (.of .offset r.1, r.2)
  | .decreaseSize key size _ =>
    let r := db.decreaseSizeImpl cfg key size
    (.of (fun _ => .done) r.1, r.2)
  | .remove key => (.done, db.removeImpl key)
  | .getDirents dir => (.of .entries (db.getDirentsImpl cfg (direntsRoot dir)), db)

/-! ## Which calls are made, and which are answered alike -/

/-- The size of the entry of a key, if it can be read. -/
def MetadataDaemon.sizeOf (cfg : MetadataConfig) (st : MetadataDaemon) (key : List Char) :
    Option Nat :=
  mergedSize cfg (st.db.cell key).base (st.db.cell key).operands

/-- The calls that may be made: a size update is for a key that is there, and a decrease leads to a
smaller size. -/
def CallAllowed (cfg : MetadataConfig) (st : MetadataDaemon) : BackendCall → Prop
  | .increaseSize key _ _ _ _ _ => (st.existsImpl cfg key).1 = .ok true
  | .decreaseSize key size _ =>
    (st.existsImpl cfg key).1 = .ok true ∧ ∀ n ∈ st.sizeOf cfg key, size.toNat < n
  | _ => True

instance (cfg : MetadataConfig) (st : MetadataDaemon) :
    ∀ c : BackendCall, Decidable (CallAllowed cfg st c)
  | .increaseSize .. => inferInstanceAs (Decidable (_ = _))
  | .decreaseSize .. => inferInstanceAs (Decidable (_ ∧ _))
  | .putNoExist .. | .put .. | .exists _ | .get _ | .update .. | .remove _ | .getDirents _ =>
    isTrue trivial

/-- The condition under which the backends agree on a call: it does not ask whether a key exists; a
value that is written is the text of an entry, and is not put over another one; and a size update
leads to a size below `2 ^ 63`, and without `append` does so in a build without modification times
and to no smaller size. -/
def CallOk (cfg : MetadataConfig) (st : MetadataDaemon) : BackendCall → Prop
  | .putNoExist key val => (st.existsImpl cfg key).1 = .ok true ∨ Metadata.Canonical cfg val
  | .put key val =>
    Metadata.Canonical cfg val ∧
      ((st.getImpl cfg key).1 = .error .notFound ∨ (st.getImpl cfg key).1 = .ok val)
  | .exists _ => False
  | .update _ _ val => Metadata.Canonical cfg val
  | .increaseSize key ioSize offset append _ _ =>
    if append then ∀ n ∈ st.sizeOf cfg key, n + ioSize.toNat < 2 ^ 63
    else cfg.useMtime = false ∧ (offset + ioSize).toNat < 2 ^ 63 ∧
      ∀ n ∈ st.sizeOf cfg key, n ≤ (offset + ioSize).toNat
  | .decreaseSize .. => cfg.useMtime = false
  | _ => True

instance (cfg : MetadataConfig) (st : MetadataDaemon) :
    ∀ c : BackendCall, Decidable (CallOk cfg st c)
  | .putNoExist .. => inferInstanceAs (Decidable (_ ∨ _))
  | .put .. => inferInstanceAs (Decidable (_ ∧ _))
  | .exists _ => isFalse id
  | .update .. => inferInstanceAs (Decidable (Metadata.Canonical ..))
  | .increaseSize key ioSize _ append _ _ =>
    inferInstanceAs (Decidable
      (if append then ∀ n ∈ st.sizeOf cfg key, n + ioSize.toNat < 2 ^ 63 else _ ∧ _ ∧ _))
  | .decreaseSize .. => inferInstanceAs (Decidable (_ = _))
  | .get _ | .remove _ | .getDirents _ => isTrue trivial

end GekkoFS
