import GekkoFS.Daemon.MetadataBackends
import GekkoFS.Daemon.StoredEntry

/-!
# When the two metadata backends answer alike

`BackendRel` relates a RocksDB store, whose cells stand for entries (`Cell.Holds`), to a Parallax
store that has the text of these entries. Every call that meets `CallAllowed` and `CallOk` keeps the
relation and is answered alike (`simulates_backends`), so every sequence of them is
(`backends_agree`).

Each part of `CallOk` is needed: `backends_differ` has a sequence of allowed calls for each.
-/

namespace GekkoFS

open AList List MergeOperand Simulation

/-! ## The relation between the stores -/

/-- A key is in neither store, or the cell of one stands for an entry whose text is in the other. -/
def KeyRel (cfg : MetadataConfig) (c : Cell) (value : Option (List Char)) : Prop :=
  (c = Cell.empty ∧ value = none) ∨
    ∃ md, c.Holds cfg md ∧ value = some (ParallaxDB.str2par (md.serialize cfg))

/-- The stores have the same entries. -/
def BackendRel (cfg : MetadataConfig) (st : MetadataDaemon) (db : ParallaxDB) : Prop :=
  ∀ key, KeyRel cfg (st.db.cell key) (db.lookup key)

section
variable {cfg : MetadataConfig} {st st' : MetadataDaemon} {db db' : ParallaxDB}
  {key val : List Char}

/-- A call that changes one key in both stores. -/
theorem BackendRel.set (h : BackendRel cfg st db)
    (hkey : KeyRel cfg (st'.db.cell key) (db'.lookup key))
    (hother : ∀ k, k ≠ key → st'.db.cell k = st.db.cell k ∧ db'.lookup k = db.lookup k) :
    BackendRel cfg st' db' := by
  intro k
  by_cases hk : k = key
  · rw [hk]; exact hkey
  · rw [(hother k hk).1, (hother k hk).2]; exact h k

theorem cstr_str2par {md : Metadata} (h : md.Storable) :
    cstr (ParallaxDB.str2par (md.serialize cfg)) = md.serialize cfg :=
  cstr_append_nul (Metadata.nul_not_mem_serialize cfg h.targetPath h.renamePath)

/-- Both backends read the same value. -/
theorem BackendRel.get (h : BackendRel cfg st db) (key : List Char) :
    (st.getImpl cfg key).1 = db.getImpl key := by
  rw [MetadataDaemon.getImpl, ParallaxDB.getImpl]
  rcases h key with ⟨hc, hv⟩ | ⟨md, hmd, hv⟩
  · rw [hc, hv]; rfl
  · rw [hmd.get, hv]
    exact congrArg Except.ok (cstr_str2par hmd.storable).symm

/-- The existence check of the RocksDB backend is right. -/
theorem BackendRel.exists (h : BackendRel cfg st db) (key : List Char) :
    ∃ st', st.existsImpl cfg key = (.ok (decide (key ∈ db)), st') ∧ st'.db = st.db := by
  refine ⟨(st.getImpl cfg key).2, ?_, rfl⟩
  have hget := h.get key
  rw [MetadataDaemon.existsImpl,
    show st.getImpl cfg key = (db.getImpl key, (st.getImpl cfg key).2) from Prod.ext hget rfl,
    ParallaxDB.getImpl]
  cases hv : db.lookup key with
  | none => rw [decide_eq_false (AList.lookup_eq_none.1 hv)]
  | some v => rw [decide_eq_true (AList.lookup_isSome.1 (by rw [hv]; rfl))]

/-- The entry of a key that is there. -/
theorem BackendRel.entry (h : BackendRel cfg st db) (hkey : (st.existsImpl cfg key).1 = .ok true) :
    ∃ md, (st.db.cell key).Holds cfg md ∧
      db.lookup key = some (ParallaxDB.str2par (md.serialize cfg)) := by
  rcases h key with ⟨hc, -⟩ | hmd
  · exact absurd hc (cell_ne_of_exists hkey)
  · exact hmd

/-! ## Calls -/

theorem BackendRel.of_db (h : BackendRel cfg st db) (hdb : st'.db = st.db) :
    BackendRel cfg st' db := fun k => by rw [hdb]; exact h k

theorem lookup_putImpl_self (db : ParallaxDB) (key val : List Char) :
    (db.putImpl key val).lookup key = some (ParallaxDB.str2par val) := lookup_insert _

/-- Both backends store a new entry. -/
theorem BackendRel.put (h : BackendRel cfg st db) (hval : Metadata.Canonical cfg val)
    (hkey : (st.getImpl cfg key).1 = .error .notFound ∨ (st.getImpl cfg key).1 = .ok val) :
    BackendRel cfg (st.putImpl key val) (db.putImpl key val) := by
  refine h.set ?_ fun k hk => ⟨DB.cell_merge_ne hk .., lookup_insert_ne hk⟩
  rw [MetadataDaemon.putImpl, DB.cell_merge_self, lookup_putImpl_self]
  rcases h key with ⟨hc, -⟩ | ⟨md, hmd, -⟩
  · obtain ⟨md, hmd, rfl⟩ := hval.storable
    rw [hc]
    exact .inr ⟨md, Cell.holds_create hmd, rfl⟩
  · -- the entry is the one that is put, and the creation is passed over
    rw [MetadataDaemon.getImpl, hmd.get] at hkey
    rcases hkey with hkey | hkey <;> cases hkey
    exact .inr ⟨md, hmd.merge trivial hmd.storable.size, rfl⟩

/-- Both replace an entry. -/
theorem BackendRel.update (h : BackendRel cfg st db) (hval : Metadata.Canonical cfg val)
    (oldKey newKey : List Char) :
    BackendRel cfg (st.updateImpl oldKey newKey val) (db.updateImpl oldKey newKey val) := by
  obtain ⟨md, hmd, rfl⟩ := hval.storable
  intro k
  rw [MetadataDaemon.updateImpl, ParallaxDB.updateImpl]
  by_cases hnew : k = newKey
  · subst hnew
    rw [DB.cell_insert_self, lookup_putImpl_self]
    exact .inr ⟨md, Cell.holds_put hmd, rfl⟩
  · rw [DB.cell_insert_ne hnew, ParallaxDB.putImpl, lookup_insert_ne hnew]
    by_cases hold : k = oldKey
    · subst hold
      rw [DB.cell_erase_self, if_pos (Ne.symm hnew), lookup_erase]
      exact .inl ⟨rfl, rfl⟩
    · rw [DB.cell_erase_ne hold]
      split
      · rw [lookup_erase_ne hold]; exact h k
      · exact h k

/-- Both remove an entry. -/
theorem BackendRel.remove (h : BackendRel cfg st db) (key : List Char) :
    BackendRel cfg (st.removeImpl key) (db.removeImpl key) := by
  refine h.set (.inl ⟨DB.cell_erase_self .., lookup_erase ..⟩) fun k hk => ?_
  exact ⟨DB.cell_erase_ne hk _, lookup_erase_ne hk⟩

/-- The Parallax backend reads, modifies and writes back an entry that is there. -/
theorem modify_eq {md : Metadata} (hmd : md.Storable)
    (hv : db.lookup key = some (ParallaxDB.str2par (md.serialize cfg)))
    (f : Metadata → Int × Metadata) :
    db.modify cfg key f = (.ok (f (md.kept cfg)).1,
      db.putImpl key ((f (md.kept cfg)).2.serialize cfg)) := by
  simp only [ParallaxDB.modify, ParallaxDB.getImpl, hv, cstr_str2par hmd,
    Metadata.parse_serialize cfg hmd, ParallaxDB.updateImpl, ne_eq, not_true, if_false]

theorem serialize_setSize (cfg : MetadataConfig) (md : Metadata) (size : Nat) :
    ({ md.kept cfg with size := size } : Metadata).serialize cfg =
      ({ md with size := size } : Metadata).serialize cfg :=
  Metadata.serialize_kept cfg { md with size := size }

/-- An operand is queued for a key in one store, and the entry it leads to is written in the
other. -/
theorem BackendRel.merge (h : BackendRel cfg st db) {md : Metadata} {op : MergeOperand}
    (hmd : (st.db.cell key).Holds cfg md) (hop : op.Valid) (hsize : (op.plain md).size < 2 ^ 63)
    (hdb : st'.db = st.db.merge key op.serialize) :
    BackendRel cfg st' (db.putImpl key ((op.plain md).serialize cfg)) := by
  refine h.set (.inr ⟨_, ?_, lookup_putImpl_self ..⟩) fun k hk =>
    ⟨by rw [hdb, DB.cell_merge_ne hk], lookup_insert_ne hk⟩
  rw [hdb, DB.cell_merge_self]
  exact hmd.merge hop hsize

/-- Without modification times, the other size updates queue one operand. -/
theorem updateMtime_off (hmtime : cfg.useMtime = false) (now : Int64) :
    st.updateMtime cfg key now = st := by
  rw [MetadataDaemon.updateMtime, hmtime]
  rfl

/-! ## Listings -/

/-- Both backends come to the same keys. -/
theorem BackendRel.iterateAll (h : BackendRel cfg st db) :
    st.db.iterateAll = (db.keys.insertionSort (· ≤ ·)).map fun key => (key, st.db.cell key) := by
  have hmem : ∀ key, key ∈ st.db.keys.filter (fun key => st.db.cell key ≠ Cell.empty) ↔
      key ∈ db.keys := by
    intro key
    rw [mem_filter, decide_eq_true_eq]
    rcases h key with ⟨hc, hv⟩ | ⟨md, hmd, hv⟩
    · exact iff_of_false (fun hk => hk.2 hc) fun hk => AList.lookup_eq_none.1 hv hk
    · have hne := hmd.ne_empty
      refine iff_of_true ⟨?_, hne⟩ (AList.lookup_isSome.1 (by rw [hv]; rfl))
      by_contra hk
      exact hne (by rw [DB.cell, AList.lookup_eq_none.2 hk, Option.getD_none])
  have hperm := (perm_ext_iff_of_nodup (st.db.nodupKeys.filter _) db.nodupKeys).2 hmem
  rw [DB.iterateAll]
  congr 1
  have hsort := ((perm_insertionSort (· ≤ ·) _).trans hperm).trans
    (perm_insertionSort (· ≤ ·) db.keys).symm
  exact hsort.eq_of_pairwise' (pairwise_insertionSort _ _) (pairwise_insertionSort _ _)

/-- The two loops test in different words whether a key is below the path. -/
theorem isPrefixOf_eq (root key : List Char) :
    root.isPrefixOf key = !(key.length < root.length || key.take root.length ≠ root) := by
  rw [Bool.eq_iff_iff, List.isPrefixOf_iff_prefix, prefix_iff_eq_take]
  simp only [Bool.not_eq_true', Bool.or_eq_false_iff, decide_eq_false_iff_not, not_not, not_lt]
  constructor
  · intro heq
    have hlen := congrArg List.length heq
    rw [length_take] at hlen
    exact ⟨by omega, heq.symm⟩
  · exact fun heq => heq.2.symm

/-- A listing depends on the texts only through the entries that are read from them. -/
theorem direntsLoop_congr {inside inside' : List Char → Bool}
    (hin : ∀ key, inside key = inside' key) {root : List Char} {keys : List (List Char)}
    {f f' : List Char → Except DBException (List Char)}
    (h : ∀ key ∈ keys, ∃ text text', f key = .ok text ∧ f' key = .ok text' ∧
      Metadata.parse cfg text = Metadata.parse cfg text') :
    direntsLoop inside cfg root (keys.map fun key => (key, f key)) =
      direntsLoop inside' cfg root (keys.map fun key => (key, f' key)) := by
  induction keys with
  | nil => rfl
  | cons key keys ih =>
    obtain ⟨text, text', hf, hf', hparse⟩ := h key mem_cons_self
    have hdirent : dirent cfg root key text = dirent cfg root key text' := by
      rw [dirent, dirent, hparse]
    rw [map_cons, map_cons, direntsLoop, direntsLoop, hf, hf', hin key,
      ih fun k hk => h k (mem_cons_of_mem _ hk)]
    simp only [bind, Except.bind, hdirent]

/-- Both backends list the same entries. -/
theorem BackendRel.getDirents (h : BackendRel cfg st db) (root : List Char) :
    (st.getDirentsImpl cfg root).1 = db.getDirentsImpl cfg root := by
  rw [MetadataDaemon.getDirentsImpl, ParallaxDB.getDirentsImpl, h.iterateAll, dropWhile_map,
    map_map]
  refine direntsLoop_congr (isPrefixOf_eq root) fun key hkey => ?_
  have hmem : key ∈ db.keys :=
    (mem_insertionSort _).1 ((dropWhile_sublist _).mem hkey)
  rcases h key with ⟨-, hv⟩ | ⟨md, hmd, hv⟩
  · exact absurd hmem (AList.lookup_eq_none.1 hv)
  · refine ⟨_, _, hmd.get, rfl, ?_⟩
    rw [hv, Option.getD_some, Metadata.parse, Metadata.parse, cstr_str2par hmd.storable,
      Metadata.cstr_eq_self]
    exact Metadata.nul_not_mem_serialize cfg hmd.storable.targetPath hmd.storable.renamePath

/-! ## The simulation -/

/-- The call is answered alike and keeps the relation. -/
def SameAnswer (cfg : MetadataConfig) (st : MetadataDaemon) (db : ParallaxDB) (c : BackendCall) :
    Prop :=
  (rocksCall cfg st c).1 = (parallaxCall cfg db c).1 ∧
    BackendRel cfg (rocksCall cfg st c).2 (parallaxCall cfg db c).2

theorem BackendRel.callPutNoExist (h : BackendRel cfg st db)
    (hok : CallOk cfg st (.putNoExist key val)) :
    SameAnswer cfg st db (.putNoExist key val) := by
  obtain ⟨st', hexists, hdb⟩ := h.exists key
  have h' := h.of_db hdb
  simp only [SameAnswer, rocksCall, parallaxCall, MetadataDaemon.putNoExistImpl,
    ParallaxDB.putNoExistImpl, hexists]
  by_cases hkey : key ∈ db
  · rw [if_pos hkey, decide_eq_true hkey]
    exact ⟨rfl, h'⟩
  · rw [if_neg hkey, decide_eq_false hkey]
    rw [CallOk, hexists, decide_eq_false hkey] at hok
    refine ⟨rfl, h'.put (hok.resolve_left fun heq => by cases heq) (.inl ?_)⟩
    rw [h'.get key, ParallaxDB.getImpl, AList.lookup_eq_none.2 hkey]

/-- Both raise a size. -/
theorem BackendRel.callIncreaseSize (h : BackendRel cfg st db) {ioSize offset : UInt64}
    {append : Bool} {mergeId : UInt16} {now : Int64}
    (hallowed : CallAllowed cfg st (.increaseSize key ioSize offset append mergeId now))
    (hok : CallOk cfg st (.increaseSize key ioSize offset append mergeId now)) :
    SameAnswer cfg st db (.increaseSize key ioSize offset append mergeId now) := by
  obtain ⟨md, hmd, hv⟩ := h.entry hallowed
  have hsizeOf : st.sizeOf cfg key = some md.size := hmd.mergedSize
  simp only [SameAnswer, rocksCall, parallaxCall, ParallaxDB.increaseSizeImpl,
    modify_eq hmd.storable hv]
  cases append with
  | true =>
    rw [CallOk, if_pos rfl, hsizeOf] at hok
    have hsize : md.size + ioSize.toNat < 2 ^ 63 := hok md.size rfl
    have hu64 : u64 (md.size + ioSize.toNat) = md.size + ioSize.toNat :=
      Nat.mod_eq_of_lt (Nat.lt_trans hsize (by decide))
    obtain ⟨hanswer, hdb⟩ := increaseSizeImpl_append hmd ioSize offset mergeId now
    refine ⟨by rw [hanswer]; rfl, ?_⟩
    simp only [if_true, show (md.kept cfg).size = md.size from rfl, hu64, serialize_setSize]
    have hop : (MergeOperand.increaseSize ioSize.toNat mergeId.toNat true).Valid :=
      ⟨ioSize.toNat_lt, mergeId.toNat_lt⟩
    have hrel := h.merge hmd hop hsize hdb
    exact hrel
  | false =>
    rw [CallOk, if_neg (by decide), hsizeOf] at hok
    obtain ⟨hmtime, hsize, hgrow⟩ := hok
    have hmax : max (offset + ioSize).toNat md.size = (offset + ioSize).toNat :=
      Nat.max_eq_left (hgrow md.size rfl)
    refine ⟨rfl, ?_⟩
    simp only [Bool.false_eq_true, if_false, serialize_setSize]
    have hop : (MergeOperand.increaseSize (offset + ioSize).toNat 0 false).Valid :=
      ⟨UInt64.toNat_lt _, by decide⟩
    have hdb : (st.increaseSizeImpl cfg key ioSize offset false mergeId now).2.db =
        st.db.merge key (MergeOperand.increaseSize (offset + ioSize).toNat 0 false).serialize := by
      rw [MetadataDaemon.increaseSizeImpl, if_neg (by decide), updateMtime_off hmtime]
    have hrel := h.merge hmd hop (by rw [plain, hmax]; exact hsize) hdb
    rw [plain, hmax] at hrel
    exact hrel

/-- Both lower a size. -/
theorem BackendRel.callDecreaseSize (h : BackendRel cfg st db) {size : UInt64} {now : Int64}
    (hallowed : CallAllowed cfg st (.decreaseSize key size now))
    (hok : CallOk cfg st (.decreaseSize key size now)) :
    SameAnswer cfg st db (.decreaseSize key size now) := by
  obtain ⟨hexists, hsmaller⟩ := hallowed
  obtain ⟨md, hmd, hv⟩ := h.entry hexists
  have hsizeOf : st.sizeOf cfg key = some md.size := hmd.mergedSize
  rw [hsizeOf] at hsmaller
  have hop : (MergeOperand.decreaseSize size.toNat).Valid := size.toNat_lt
  have hdb : (st.decreaseSizeImpl cfg key size now).db =
      st.db.merge key (MergeOperand.decreaseSize size.toNat).serialize := by
    rw [MetadataDaemon.decreaseSizeImpl, updateMtime_off hok]
  simp only [SameAnswer, rocksCall, parallaxCall, ParallaxDB.decreaseSizeImpl,
    modify_eq hmd.storable hv, serialize_setSize]
  have hrel := h.merge hmd hop (Nat.lt_trans (hsmaller md.size rfl) hmd.storable.size) hdb
  exact ⟨rfl, hrel⟩

/-- Every allowed call that meets the condition is answered alike and keeps the relation. -/
theorem BackendRel.call (h : BackendRel cfg st db) {c : BackendCall}
    (hallowed : CallAllowed cfg st c) (hok : CallOk cfg st c) : SameAnswer cfg st db c := by
  cases c with
  | putNoExist key val => exact h.callPutNoExist hok
  | put key val => exact ⟨rfl, h.put hok.1 hok.2⟩
  | «exists» key => exact hok.elim
  | get key => exact ⟨congrArg (BackendAnswer.of .value) (h.get key), h.of_db rfl⟩
  | update oldKey newKey val => exact ⟨rfl, h.update hok oldKey newKey⟩
  | increaseSize key ioSize offset append mergeId now => exact h.callIncreaseSize hallowed hok
  | decreaseSize key size now => exact h.callDecreaseSize hallowed hok
  | remove key => exact ⟨rfl, h.remove key⟩
  | getDirents dir =>
    exact ⟨congrArg (BackendAnswer.of .entries) (h.getDirents (direntsRoot dir)), h.of_db rfl⟩

end

/-- One backend simulates the other. -/
theorem simulates_backends (cfg : MetadataConfig) :
    Simulation.Simulates (rocksCall cfg) (parallaxCall cfg)
      (fun st c => CallAllowed cfg st c ∧ CallOk cfg st c) (BackendRel cfg) where
  answer := fun _ _ _ h hok => (h.call hok.1 hok.2).1
  next := fun _ _ _ h hok => (h.call hok.1 hok.2).2

/-- Starting from empty stores, the two backends give the same answers to every sequence of allowed
calls in which nobody asks whether a key exists, no value is put over another one, every value
written is the text of an entry, and every size update leads to a size below `2 ^ 63` and without
`append` to no smaller size, in a build without modification times. -/
theorem backends_agree (cfg : MetadataConfig) (calls : List BackendCall)
    (hok : Simulation.CallsOk (rocksCall cfg) (fun st c => CallAllowed cfg st c ∧ CallOk cfg st c)
      MetadataRun.initial.daemon calls) :
    answers (rocksCall cfg) MetadataRun.initial.daemon calls =
      answers (parallaxCall cfg) ∅ calls :=
  answers_eq (simulates_backends cfg) (fun _ => .inl ⟨rfl, rfl⟩) hok

/-- Entries of each kind are created, changed, read, listed and removed. -/
def alikeCalls : List BackendCall :=
  [.putNoExist "/d".toList "16877|0".toList, .putNoExist "/d/f".toList "33188|0".toList,
    .putNoExist "/d/f".toList "33152|0".toList, .increaseSize "/d/f".toList 10 0 false 0 0,
    .increaseSize "/d/f".toList 4 0 true 7 0, .get "/d/f".toList, .decreaseSize "/d/f".toList 3 0,
    .put "/d/g".toList "33188|0".toList, .update "/d/g".toList "/d/h".toList "33188|5".toList,
    .getDirents "/d".toList, .remove "/d/f".toList, .get "/d/f".toList]

theorem backends_agree_alikeCalls :
    answers (parallaxCall .default) ∅ alikeCalls =
      [.done, .done, .failed .exists, .offset (-1), .offset 10, .value "33188|14".toList, .done,
        .done, .done, .entries [("f".toList, false), ("h".toList, false)], .done,
        .failed .notFound] := by
  rw [← backends_agree .default alikeCalls (by decide +kernel)]
  decide +kernel

/-- The calls are allowed, and the backends answer them differently. -/
def AnsweredDifferently (cfg : MetadataConfig) (calls : List BackendCall) : Prop :=
  Simulation.CallsOk (rocksCall cfg) (CallAllowed cfg) MetadataRun.initial.daemon calls ∧
    answers (rocksCall cfg) MetadataRun.initial.daemon calls ≠
      answers (parallaxCall cfg) ∅ calls

instance (cfg : MetadataConfig) (calls : List BackendCall) :
    Decidable (AnsweredDifferently cfg calls) :=
  inferInstanceAs (Decidable (Simulation.CallsOk _ _ _ _ ∧ _ ≠ _))

/-- Allowed calls that the backends answer differently: whether a key exists, what a second put
leaves, what a write before the end of a file leaves, and the time of a write. -/
theorem backends_differ :
    AnsweredDifferently .default
        [.putNoExist "/f".toList "33188|0".toList, .exists "/f".toList] ∧
      AnsweredDifferently .default
        [.put "/f".toList "33188|0".toList, .put "/f".toList "33152|0".toList,
          .get "/f".toList] ∧
      AnsweredDifferently .default
        [.put "/f".toList "33188|0".toList, .increaseSize "/f".toList 10 0 false 0 0,
          .increaseSize "/f".toList 4 0 false 0 0, .get "/f".toList] ∧
      AnsweredDifferently mtimeConfig
        [.put "/f".toList "33188|0|0".toList, .increaseSize "/f".toList 10 0 false 0 5,
          .get "/f".toList] := by
  decide +kernel

end GekkoFS
