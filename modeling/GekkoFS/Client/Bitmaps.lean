import GekkoFS.Client.DataPlan

/-!
# What a bitmap means on both sides

The client sets a bit for every chunk that it assigns to a daemon, and the daemon asks for a bit for
every chunk of the range. `forward_write` sets the bits through `set_bitset`, which has a position
of 16 bits, `forward_read` sets them in place, and the daemon asks through `get_bitset`, with 16
bits again. So the daemon takes chunks for one whose positions in the range agree in 16 bits, and
what it finds is what the client assigned exactly if the assignment does so too
(`bitmapsAgree_iff`).
-/

namespace GekkoFS

open Function List

section
variable {n : Nat}

/-- The daemons of a plan find in their bitmaps the chunks of the range that `assigned` gives
them. -/
def DataPlan.BitmapsAgree (plan : DataPlan n) (path : List Char) (offset size : Nat)
    (assigned : Nat → Fin n → Prop) : Prop :=
  ∀ t ∈ plan.targets, ∀ chnkId ∈ chunkIds offset size,
    (getBitset (decompressBitset (plan.request path offset size t).wbitset)
      (chnkId - chnkStart offset) = true ↔ assigned chnkId t)

/-- Chunks of the range whose positions agree in 16 bits are assigned alike. -/
def AssignedPerWindow (offset size : Nat) (assigned : Nat → Fin n → Prop) : Prop :=
  ∀ t, ∀ chnkId ∈ chunkIds offset size, ∀ chnkId' ∈ chunkIds offset size,
    (chnkId - chnkStart offset) % 2 ^ 16 = (chnkId' - chnkStart offset) % 2 ^ 16 →
      (assigned chnkId t ↔ assigned chnkId' t)

/-- A write assigns a chunk to the daemons of its copies. -/
def WriteAssigns (d : Distributor n) (path : List Char) (numCopies chnkId : Nat) (t : Fin n) :
    Prop :=
  ∃ copy ∈ writeCopies numCopies, d.locateData path chnkId copy = t

/-- A range of at most `2 ^ 16` chunks has no two chunks whose positions agree. -/
theorem assignedPerWindow_of_length {offset size : Nat} (assigned : Nat → Fin n → Prop)
    (h : (chunkIds offset size).length ≤ 2 ^ 16) : AssignedPerWindow offset size assigned := by
  intro t chnkId hid chnkId' hid' hmod
  rw [chunkIds, length_range'] at h
  rw [mem_chunkIds_iff] at hid hid'
  have heq : chnkId = chnkId' := by omega
  rw [heq]

/-- The daemons of the chunks, by the numbers of the pieces. -/
theorem AssignedPerWindow.perWindow {offset size : Nat} {owner : Nat → Fin n}
    (h : AssignedPerWindow offset size fun chnkId t => owner chnkId = t) (ho : offset < 2 ^ 63)
    (hs : 0 < size) (hs' : size < 2 ^ 62) (t : Fin n) :
    PerWindow offset size fun j => owner (chnkStart offset + j) = t := by
  intro j hj
  have hmem : ∀ k ≤ j, chnkStart offset + k ∈ chunkIds offset size := fun k hk => by
    rw [chunkIds_eq ho hs hs']
    exact mem_map.2 ⟨k, mem_range.2 (hk.trans_lt hj), rfl⟩
  refine h t _ (hmem _ (Nat.mod_le j _)) _ (hmem j le_rfl) ?_
  rw [Nat.add_sub_cancel_left, Nat.add_sub_cancel_left, Nat.mod_mod]

/-! ## The bits of a plan -/

variable {setBit : List UInt8 → Nat → List UInt8} {pos : Nat → Nat} {first last : Nat}
  {plan : DataPlan n} {pairs : List (Nat × Fin n)}

/-- The bitmaps of a plan have the bits of the chunks `pairs`, each with its daemon, where the bit
of a chunk is the one that `pos` gives for its position in the range. -/
structure DataPlan.Marks (plan : DataPlan n) (pos : Nat → Nat) (first last : Nat)
    (pairs : List (Nat × Fin n)) : Prop where
  mem_targets : ∀ t, plan.targetChnks t ≠ [] → t ∈ plan.targets
  entered : ∀ p ∈ pairs, plan.targetChnks p.2 ≠ []
  length_eq : ∀ t v, plan.bitsets t = some v → v.length = (last - first + 1 + 7) / 8
  hasBit_iff : ∀ t j, hasBit ((plan.bitsets t).getD []) j = true ↔
    ∃ p ∈ pairs, p.2 = t ∧ pos (p.1 - first) = j

namespace DataPlan

theorem marks_empty : (empty : DataPlan n).Marks pos first last [] where
  mem_targets _ h := absurd rfl h
  entered p hp := absurd hp not_mem_nil
  length_eq t v h := by cases h
  hasBit_iff t j := by simp [empty, hasBit]

/-- The bitmap that a chunk is entered into: the one the daemon has, or a new one. -/
theorem Marks.bitset_getD (h : plan.Marks pos first last pairs) (hle : first ≤ last)
    (hlast : last < 2 ^ 64) (t : Fin n) :
    ((plan.bitsets t).getD (List.replicate ((sub64 last first + 1 + 7) / 8) 0)).length =
        (last - first + 1 + 7) / 8 ∧
      ∀ j, hasBit ((plan.bitsets t).getD (List.replicate ((sub64 last first + 1 + 7) / 8) 0)) j =
        hasBit ((plan.bitsets t).getD []) j := by
  rw [sub64_of_le hle hlast]
  cases hv : plan.bitsets t with
  | none =>
    refine ⟨length_replicate, fun j => ?_⟩
    rw [Option.getD_none, Option.getD_none, hasBit_replicate_zero]
    simp [hasBit]
  | some v => exact ⟨h.length_eq t v hv, fun _ => rfl⟩

/-- Entering a chunk sets its bit. -/
theorem Marks.add (mark : Finset (Fin n) → Fin n → Finset (Fin n))
    (h : plan.Marks pos first last pairs) (hset : ∀ v i, setBit v i = orBit v (pos i))
    (hpos : ∀ i, pos i ≤ i) {chnkId : Nat}
    (hlow : first ≤ chnkId) (hhigh : chnkId ≤ last) (hlast : last < 2 ^ 64) (t : Fin n) :
    (plan.add setBit mark first last chnkId t).Marks pos first last (pairs ++ [(chnkId, t)]) := by
  obtain ⟨hlen, hbits⟩ := h.bitset_getD (hlow.trans hhigh) hlast t
  have hlt : pos (chnkId - first) / 8 <
      ((plan.bitsets t).getD (List.replicate ((sub64 last first + 1 + 7) / 8) 0)).length := by
    have := hpos (chnkId - first)
    rw [hlen]
    omega
  refine ⟨fun u hu => ?_, fun p hp => ?_, fun u v huv => ?_, fun u j => ?_⟩
  · simp only [DataPlan.add] at hu ⊢
    by_cases hut : u = t
    · subst hut
      split
      · exact mem_append_right _ mem_cons_self
      · next hne => exact h.mem_targets u hne
    · rw [update_of_ne hut] at hu
      have := h.mem_targets u hu
      split
      · exact mem_append_left _ this
      · exact this
  · simp only [DataPlan.add]
    by_cases hpt : p.2 = t
    · rw [hpt, update_self]
      exact append_ne_nil_of_right_ne_nil _ (cons_ne_nil _ _)
    · rw [update_of_ne hpt]
      rcases mem_append.1 hp with hp | hp
      · exact h.entered p hp
      · exact absurd (congrArg Prod.snd (mem_singleton.1 hp)) hpt
  · simp only [DataPlan.add] at huv
    by_cases hut : u = t
    · subst hut
      rw [update_self, Option.some.injEq] at huv
      rw [← huv, hset, orBit_length, hlen]
    · rw [update_of_ne hut] at huv
      exact h.length_eq u v huv
  · simp only [DataPlan.add, mem_append, mem_singleton, or_and_right, exists_or,
      exists_eq_left, ← h.hasBit_iff u j]
    by_cases hut : u = t
    · subst hut
      rw [update_self, Option.getD_some, hset, hasBit_orBit hlt, hbits, Bool.or_eq_true,
        decide_eq_true_eq, or_comm]
      simp only [true_and]
    · rw [update_of_ne hut]
      simp only [Ne.symm hut, false_and, or_false]

/-- A loop that enters chunks sets their bits. -/
theorem Marks.foldl_add (mark : Finset (Fin n) → Fin n → Finset (Fin n))
    (hset : ∀ v i, setBit v i = orBit v (pos i)) (hpos : ∀ i, pos i ≤ i) (hlast : last < 2 ^ 64)
    {rest : List (Nat × Fin n)}
    (hrest : ∀ p ∈ rest, first ≤ p.1 ∧ p.1 ≤ last) (h : plan.Marks pos first last pairs) :
    (rest.foldl (fun plan p => plan.add setBit mark first last p.1 p.2) plan).Marks pos first last
      (pairs ++ rest) := by
  induction rest generalizing plan pairs with
  | nil => rwa [append_nil]
  | cons p rest ih =>
    obtain ⟨hlow, hhigh⟩ := hrest p mem_cons_self
    have hstep := ih (fun q hq => hrest q (mem_cons_of_mem _ hq))
      (Marks.add mark h hset hpos hlow hhigh hlast p.2)
    rwa [append_assoc, singleton_append] at hstep

/-- What a daemon finds at a position of the range. -/
theorem Marks.getBitset_iff (h : plan.Marks pos first last pairs) (t : Fin n) {i : Nat}
    (hi : i ≤ last - first) :
    getBitset (decompressBitset (compressBitset ((plan.bitsets t).getD []))) i = true ↔
      ∃ p ∈ pairs, p.2 = t ∧ pos (p.1 - first) = i % 2 ^ 16 := by
  rw [← h.hasBit_iff]
  cases hv : plan.bitsets t with
  | none =>
    have hempty : decompressBitset (compressBitset []) = [] := by decide +kernel
    rw [Option.getD_none, hempty, getBitset]
  | some v =>
    have hmod := Nat.mod_le i (2 ^ 16)
    rw [Option.getD_some, getBitset_decompressBitset_mod]
    rw [h.length_eq t v hv]
    omega

/-- What the daemons find is what was assigned exactly if chunks are assigned alike whose positions
agree in 16 bits. -/
theorem Marks.agree_iff {offset size : Nat} {assigned : Nat → Fin n → Prop}
    (h : plan.Marks pos (chnkStart offset) (chnkEnd offset size) pairs)
    (hmod : ∀ i, pos i % 2 ^ 16 = i % 2 ^ 16) (hlow : ∀ i < 2 ^ 16, pos i = i)
    (hpairs : ∀ chnkId t, (chnkId, t) ∈ pairs ↔
      chnkId ∈ chunkIds offset size ∧ assigned chnkId t) (path : List Char) :
    plan.BitmapsAgree path offset size assigned ↔ AssignedPerWindow offset size assigned := by
  have hbit : ∀ t chnkId, chnkId ∈ chunkIds offset size →
      (getBitset (decompressBitset (plan.request path offset size t).wbitset)
        (chnkId - chnkStart offset) = true ↔ ∃ p ∈ pairs, p.2 = t ∧
          pos (p.1 - chnkStart offset) = (chnkId - chnkStart offset) % 2 ^ 16) :=
    fun t chnkId hid => h.getBitset_iff t (by have := mem_chunkIds_iff.1 hid; omega)
  constructor
  · -- the daemon asks for the same bit for both chunks
    intro hagree t chnkId hid chnkId' hid' hwindow
    have hsame : ∀ u ∈ plan.targets, (assigned chnkId u ↔ assigned chnkId' u) := fun u hu => by
      rw [← hagree u hu chnkId hid, ← hagree u hu chnkId' hid', hbit u chnkId hid,
        hbit u chnkId' hid', hwindow]
    have htarget : ∀ {id}, id ∈ chunkIds offset size → assigned id t → t ∈ plan.targets :=
      fun {id} hmem hassigned => h.mem_targets t
        (h.entered (id, t) ((hpairs id t).2 ⟨hmem, hassigned⟩))
    exact ⟨fun hassigned => (hsame t (htarget hid hassigned)).1 hassigned,
      fun hassigned => (hsame t (htarget hid' hassigned)).2 hassigned⟩
  · intro hwindow t _ chnkId hid
    rw [hbit t chnkId hid]
    constructor
    · rintro ⟨⟨chnkId', u⟩, hp, rfl, hpos⟩
      obtain ⟨hid', hassigned⟩ := (hpairs chnkId' u).1 hp
      refine (hwindow u chnkId' hid' chnkId hid ?_).1 hassigned
      dsimp only at hpos
      rw [← hmod, hpos, Nat.mod_mod]
    · -- the chunk at the low 16 bits of the position is assigned alike
      intro hassigned
      obtain ⟨hfirst, hlast⟩ := mem_chunkIds_iff.1 hid
      have hle := Nat.mod_le (chnkId - chnkStart offset) (2 ^ 16)
      have hid' : chnkStart offset + (chnkId - chnkStart offset) % 2 ^ 16 ∈ chunkIds offset size :=
        mem_chunkIds_iff.2 ⟨by omega, by omega⟩
      refine ⟨(chnkStart offset + (chnkId - chnkStart offset) % 2 ^ 16, t),
        (hpairs _ _).2 ⟨hid', (hwindow t chnkId hid _ hid' ?_).1 hassigned⟩, rfl, ?_⟩
      · rw [Nat.add_sub_cancel_left, Nat.mod_mod]
      · rw [Nat.add_sub_cancel_left, hlow _ (Nat.mod_lt _ (by decide))]

end DataPlan

/-! ## Writes and reads -/

/-- A loop over chunks of the range sets their bits. -/
theorem DataPlan.foldl_marks (pos : Nat → Nat) (setBit : List UInt8 → Nat → List UInt8)
    (mark : Finset (Fin n) → Fin n → Finset (Fin n)) (hset : ∀ v i, setBit v i = orBit v (pos i))
    (hpos : ∀ i, pos i ≤ i) {offset size : Nat} {pairs : List (Nat × Fin n)}
    (hmem : ∀ p ∈ pairs, p.1 ∈ chunkIds offset size) :
    (pairs.foldl (fun plan p => plan.add setBit mark (chnkStart offset) (chnkEnd offset size) p.1
      p.2) (.empty : DataPlan n)).Marks pos (chnkStart offset) (chnkEnd offset size) pairs := by
  have hrange : ∀ p ∈ pairs, chnkStart offset ≤ p.1 ∧ p.1 ≤ chnkEnd offset size :=
    fun p hp => mem_chunkIds_iff.1 (hmem p hp)
  have hmarks := DataPlan.Marks.foldl_add mark hset hpos (chnkEnd_lt offset size) hrange
    DataPlan.marks_empty
  rwa [nil_append] at hmarks

/-- The bitmaps of a write. -/
theorem planWrite_bitmapsAgree_iff (d : Distributor n) (path : List Char)
    (offset size numCopies : Nat) :
    (planWrite d path offset size numCopies).BitmapsAgree path offset size
        (WriteAssigns d path numCopies) ↔
      AssignedPerWindow offset size (WriteAssigns d path numCopies) := by
  have hpairs : ∀ chnkId t, (chnkId, t) ∈ writePairs d path offset size numCopies ↔
      chnkId ∈ chunkIds offset size ∧ WriteAssigns d path numCopies chnkId t :=
    fun _ _ => mem_writePairs d path
  have hmarks := DataPlan.foldl_marks (· % 2 ^ 16) setBitset (fun s (t : Fin n) => insert t s)
    (fun _ _ => rfl) (fun i => Nat.mod_le i _) (fun p hp => ((hpairs p.1 p.2).1 hp).1)
  rw [← planWrite_eq_foldl] at hmarks
  exact hmarks.agree_iff (fun i => Nat.mod_mod i _) (fun i hi => Nat.mod_eq_of_lt hi) hpairs
    path

/-- The bitmaps of a read. -/
theorem planRead_bitmapsAgree_iff (owner : Nat → Fin n) (path : List Char) (offset size : Nat) :
    (planRead offset size ((chunkIds offset size).map fun chnkId =>
        (chnkId, owner chnkId))).BitmapsAgree path offset size (fun chnkId t => owner chnkId = t) ↔
      AssignedPerWindow offset size fun chnkId t => owner chnkId = t := by
  have hpairs : ∀ chnkId t, (chnkId, t) ∈ ((chunkIds offset size).map fun chnkId =>
      (chnkId, owner chnkId)) ↔ chnkId ∈ chunkIds offset size ∧ owner chnkId = t := by
    intro chnkId t
    simp only [mem_map, Prod.mk.injEq]
    constructor
    · rintro ⟨id, hid, rfl, ht⟩
      exact ⟨hid, ht⟩
    · rintro ⟨hid, ht⟩
      exact ⟨chnkId, hid, rfl, ht⟩
  have hmarks := DataPlan.foldl_marks id orBit (fun _ (t : Fin n) => {t})
    (fun _ _ => rfl) (fun i => le_rfl) (fun p hp => ((hpairs p.1 p.2).1 hp).1)
  exact hmarks.agree_iff (fun _ => rfl) (fun _ _ => rfl) hpairs path

/-- The bitmaps of writes and reads mean the same on both sides if and only if chunks are assigned
alike whose positions in the range agree in 16 bits. A read assigns a chunk to one daemon, which is
any one here. -/
theorem bitmapsAgree_iff (d : Distributor n) (owner : Nat → Fin n) (path : List Char)
    (offset size numCopies : Nat) :
    ((planWrite d path offset size numCopies).BitmapsAgree path offset size
        (WriteAssigns d path numCopies) ∧
      (planRead offset size ((chunkIds offset size).map fun chnkId =>
        (chnkId, owner chnkId))).BitmapsAgree path offset size fun chnkId t => owner chnkId = t) ↔
      AssignedPerWindow offset size (WriteAssigns d path numCopies) ∧
        AssignedPerWindow offset size fun chnkId t => owner chnkId = t :=
  and_congr (planWrite_bitmapsAgree_iff d path offset size numCopies)
    (planRead_bitmapsAgree_iff owner path offset size)

end

/-- Two hosts, with chunk 65536 on the second one and all other chunks on the first one. -/
def lastApart : Distributor 2 where
  place _ chnkId _ := if chnkId = 65536 then secondHost else firstHost
  locateFileMetadata _ _ := firstHost

/-- A write of 65537 chunks: the second host finds the first chunk in its bitmap, which is not its
own. -/
theorem bitmap_wraps :
    ¬ ((planWrite lastApart "/f".toList 0 (65537 * chunksize) 0).BitmapsAgree "/f".toList 0
        (65537 * chunksize) (WriteAssigns lastApart "/f".toList 0) ∧
      (planRead 0 (65537 * chunksize) ((chunkIds 0 (65537 * chunksize)).map fun chnkId =>
        (chnkId, lastApart.locateData "/f".toList chnkId 0))).BitmapsAgree "/f".toList 0
        (65537 * chunksize) fun chnkId t =>
          lastApart.locateData "/f".toList chnkId 0 = t) := by
  rintro ⟨hwrite, -⟩
  have hwindow := (planWrite_bitmapsAgree_iff lastApart "/f".toList 0 (65537 * chunksize) 0).1
    hwrite
  have hrange : ∀ chnkId ≤ 2 ^ 16, chnkId ∈ chunkIds 0 (65537 * chunksize) := fun chnkId hid => by
    have hstart : chnkStart 0 = 0 := by decide +kernel
    have hend : chnkEnd 0 (65537 * chunksize) = 2 ^ 16 := by decide +kernel
    rw [mem_chunkIds_iff, hstart, hend]
    exact ⟨Nat.zero_le _, hid⟩
  obtain ⟨copy, -, hlocate⟩ := (hwindow secondHost (2 ^ 16) (hrange _ le_rfl) 0
    (hrange 0 (Nat.zero_le _)) (by decide +kernel)).1 ⟨0, mem_cons_self, by decide +kernel⟩
  have hfirst : lastApart.locateData "/f".toList 0 copy = firstHost := by rfl
  rw [hfirst] at hlocate
  exact absurd hlocate (by decide)

end GekkoFS
