import GekkoFS.Client.ForwardData

/-!
# A striped file is a flat file

The chunks of a file are spread over the daemons, and a write or read of a range is cut into
requests whose parts the client and the daemons compute each on their own. Here the whole of it is
compared with what a file is for: a flat array of bytes, in which every position has the byte that
was written there last (`FlatFile`).

`fileByte` reads a position through the distributor and the chunk storages. The daemons store a flat
file (`Stores`) if every byte it has is found that way. A write keeps this up
(`Stores.forwardWrite`), and a read of a range that the flat file covers returns its bytes
(`Stores.forwardRead`).
-/

namespace GekkoFS

open Bytes
open List hiding count

open Blocks (lo hi len fileOff count)

/-! ## Flat files -/

/-- A file as an array of bytes; a position that was never written has none. -/
def FlatFile := Nat → Option UInt8

namespace FlatFile

/-- The file that has no byte. -/
def empty : FlatFile := fun _ => none

/-- Write a buffer at an offset. -/
def write (f : FlatFile) (offset : Nat) (buf : List UInt8) : FlatFile := fun pos =>
  if offset ≤ pos ∧ pos < offset + buf.length then buf[pos - offset]? else f pos

/-- Write buffers one after another, each at its offset. -/
def writes (f : FlatFile) (ws : List (Nat × List UInt8)) : FlatFile :=
  ws.foldl (fun f w => f.write w.1 w.2) f

/-- A position that a write covers has a byte afterwards. -/
theorem isSome_writes {pos : Nat} : ∀ {ws : List (Nat × List UInt8)} {f : FlatFile},
    ((∃ w ∈ ws, w.1 ≤ pos ∧ pos < w.1 + w.2.length) ∨ (f pos).isSome) →
      (f.writes ws pos).isSome
  | [], f, h => h.resolve_left fun ⟨_, hw, _⟩ => by cases hw
  | w :: ws, f, h => by
    change (writes (f.write w.1 w.2) ws pos).isSome
    apply isSome_writes
    by_cases hw : w.1 ≤ pos ∧ pos < w.1 + w.2.length
    · refine .inr ?_
      rw [write, if_pos hw, getElem?_eq_getElem (by omega)]
      rfl
    · rcases h with ⟨v, hv, hpos⟩ | h
      · rcases mem_cons.1 hv with rfl | hv
        · exact absurd hpos hw
        · exact .inl ⟨v, hv, hpos⟩
      · exact .inr (by rwa [write, if_neg hw])

end FlatFile

/-! ## The bytes of a striped file -/

section
variable {n : Nat} {d : Distributor n} {cl : Cluster n} {path : List Char}

/-- The byte at a position of a file: in the chunk file of its chunk, on the daemon of the chunk. -/
def fileByte (d : Distributor n) (cl : Cluster n) (path : List Char) (pos : Nat) : Option UInt8 :=
  ((cl (d.locateData path (pos / chunksize) 0)).file? path (pos / chunksize)).bind
    fun bytes => bytes[pos % chunksize]?

/-- The daemons hold every byte of a flat file at its position. -/
def Stores (d : Distributor n) (cl : Cluster n) (path : List Char) (f : FlatFile) : Prop :=
  ∀ pos b, f pos = some b → fileByte d cl path pos = some b

/-- Byte `i` of a range stands in the chunk of its piece. -/
theorem div_mod_add {offset : Nat} (ho : offset < 2 ^ 63) (i : Nat) :
    (offset + i) / chunksize = chnkStart offset + (offset % chunksize + i) / chunksize ∧
      (offset + i) % chunksize = (offset % chunksize + i) % chunksize := by
  have hd := Nat.div_add_mod offset chunksize
  have he : offset + i = chunksize * (offset / chunksize) + (offset % chunksize + i) := by omega
  rw [chnkStart_eq ho]
  exact ⟨by rw [he, Nat.mul_add_div chunksize_pos], (Nat.mod_add_mod offset chunksize i).symm⟩

/-! ## Writing -/

variable {buf : List UInt8} {offset : Nat} {j i size : Nat}

/-- After a write, the chunk file of a piece holds the piece over what it held before. -/
theorem file?_forwardWrite_piece (d : Distributor n) (cl : Cluster n) (path : List Char)
    (ho : offset < 2 ^ 63) (hs : 0 < buf.length) (hs' : buf.length < 2 ^ 34)
    (hj : j < count chunksize (offset % chunksize) buf.length) {t : Fin n}
    (ht : d.locateData path (chnkStart offset + j) 0 = t) :
    ((forwardWrite d (fun _ => .delivered) cl path buf offset 0).2 t).file? path
        (chnkStart offset + j) =
      some (overwrite 0 (((cl t).file? path (chnkStart offset + j)).getD [])
        (fileOff (offset % chunksize) j) (slice buf (lo chunksize (offset % chunksize) j)
          (len chunksize (offset % chunksize) buf.length j))) := by
  have hplan := (planWrite_recordsOwner d path ho hs hs').recordsRange
  refine file?_forwardWrite_entered cl rfl hplan ho hs hs' ?_
  rw [← hplan.mem_iff ho hs (hs'.trans (by decide)),
    mem_recorded _ _ ho hs (hs'.trans (by decide)) hj]
  exact ht

/-- A write changes the chunk files of its pieces only. -/
theorem file?_forwardWrite_other (d : Distributor n) (cl : Cluster n) (path : List Char)
    (ho : offset < 2 ^ 63) (hs : 0 < buf.length) (hs' : buf.length < 2 ^ 34) {id : Nat}
    (hid : ∀ j < count chunksize (offset % chunksize) buf.length, id ≠ chnkStart offset + j)
    (t : Fin n) :
    ((forwardWrite d (fun _ => .delivered) cl path buf offset 0).2 t).file? path id =
      (cl t).file? path id := by
  have hplan := (planWrite_recordsOwner d path ho hs hs').recordsRange
  refine file?_forwardWrite_not_entered cl rfl hplan ho hs hs' fun hmem => ?_
  have hin := hplan.mem_chunkIds _ hmem
  rw [chunkIds_eq ho hs (hs'.trans (by decide)), mem_map] at hin
  obtain ⟨j, hj, he⟩ := hin
  exact hid j (mem_range.1 hj) he.symm

/-- No piece is empty. -/
theorem piece_ne_nil (hs : 0 < buf.length)
    (hj : j < count chunksize (offset % chunksize) buf.length) :
    slice buf (lo chunksize (offset % chunksize) j)
      (len chunksize (offset % chunksize) buf.length j) ≠ [] := by
  have hlt := Blocks.lo_lt_hi chunksize_pos hs (Nat.mod_lt offset chunksize_pos) hj
  have hle := Blocks.hi_le chunksize (offset % chunksize) buf.length j
  refine length_pos_iff.1 ?_
  rw [slice_length, len]
  omega

/-- A piece over what its chunk file held has the bytes of the range at their positions. -/
theorem overwrite_piece_getElem? (old : List UInt8) (ho : offset < 2 ^ 63)
    (hi : i < buf.length) :
    (overwrite 0 old (fileOff (offset % chunksize) ((offset % chunksize + i) / chunksize))
      (slice buf (lo chunksize (offset % chunksize) ((offset % chunksize + i) / chunksize))
        (len chunksize (offset % chunksize) buf.length
          ((offset % chunksize + i) / chunksize))))[(offset + i) % chunksize]? = buf[i]? := by
  obtain ⟨hlt, hlo, hhi, hoff⟩ :=
    Blocks.mem_piece chunksize_pos (Nat.mod_lt offset chunksize_pos) hi
  have hle := Blocks.hi_le chunksize (offset % chunksize) buf.length
    ((offset % chunksize + i) / chunksize)
  rw [(div_mod_add ho i).2, hoff]
  generalize (offset % chunksize + i) / chunksize = k at *
  have hlen : (slice buf (lo chunksize (offset % chunksize) k)
      (len chunksize (offset % chunksize) buf.length k)).length =
        len chunksize (offset % chunksize) buf.length k :=
    slice_length_of_le (by rw [len]; omega)
  rw [overwrite_getElem?_mem _ _ (by omega) (by rw [hlen, len]; omega),
    Nat.add_sub_cancel_left, slice_getElem?, if_pos (by rw [len]; omega)]
  congr 1
  omega

/-- After a write, a position in its range has the byte written there. -/
theorem fileByte_forwardWrite_mem (d : Distributor n) (cl : Cluster n) (path : List Char)
    (ho : offset < 2 ^ 63) (hs' : buf.length < 2 ^ 34) (hi : i < buf.length) :
    fileByte d (forwardWrite d (fun _ => .delivered) cl path buf offset 0).2 path (offset + i) =
      buf[i]? := by
  have hlt := (Blocks.mem_piece chunksize_pos (Nat.mod_lt offset chunksize_pos) hi).1
  rw [fileByte, (div_mod_add ho i).1, file?_forwardWrite_piece d cl path ho (by omega) hs' hlt rfl,
    Option.bind_some, overwrite_piece_getElem? _ ho hi]

/-- What is stored after a write: the bytes of its range, what was stored before, and zeros in what
was missing of its first chunk before the range. -/
theorem fileByte_forwardWrite (d : Distributor n) (cl : Cluster n) (path : List Char)
    (ho : offset < 2 ^ 63) (hs : 0 < buf.length) (hs' : buf.length < 2 ^ 34) (pos : Nat) :
    fileByte d (forwardWrite d (fun _ => .delivered) cl path buf offset 0).2 path pos =
      if offset ≤ pos ∧ pos < offset + buf.length then buf[pos - offset]?
      else if pos < offset ∧ pos / chunksize = offset / chunksize then
        some ((fileByte d cl path pos).getD 0)
      else fileByte d cl path pos := by
  split
  · next hpos =>
    obtain ⟨i, rfl⟩ := Nat.exists_eq_add_of_le hpos.1
    rw [fileByte_forwardWrite_mem d cl path ho hs' (by omega), Nat.add_sub_cancel_left]
  next hpos =>
  have hd := Nat.div_add_mod' offset chunksize
  have hd' := Nat.div_add_mod' pos chunksize
  by_cases hpiece : ∃ j < count chunksize (offset % chunksize) buf.length,
      pos / chunksize = chnkStart offset + j
  · obtain ⟨j, hj, hid⟩ := hpiece
    have hold : fileByte d cl path pos = (((cl (d.locateData path (chnkStart offset + j) 0)).file?
        path (chnkStart offset + j)).getD [])[pos % chunksize]? := by
      rw [fileByte, hid]
      cases (cl (d.locateData path (chnkStart offset + j) 0)).file? path (chnkStart offset + j) <;>
        rfl
    rw [hold, fileByte, hid, file?_forwardWrite_piece d cl path ho hs hs' hj rfl, Option.bind_some,
      overwrite_getElem? _ _ _ _ (piece_ne_nil hs hj)]
    rw [hid, chnkStart_eq ho, Nat.add_mul] at hd'
    -- a position that the piece covers would lie in the range
    have hout : ¬ (fileOff (offset % chunksize) j ≤ pos % chunksize ∧ pos % chunksize <
        fileOff (offset % chunksize) j + (slice buf (lo chunksize (offset % chunksize) j)
          (len chunksize (offset % chunksize) buf.length j)).length) := by
      rintro ⟨hlow, hhigh⟩
      have hle : (slice buf (lo chunksize (offset % chunksize) j)
          (len chunksize (offset % chunksize) buf.length j)).length ≤
          len chunksize (offset % chunksize) buf.length j := by
        rw [slice_length]
        exact Nat.min_le_left _ _
      obtain ⟨hge, hlt⟩ := Blocks.mem_range_of_fileOff_le (r := pos % chunksize) (S := buf.length)
        (Nat.mod_lt offset chunksize_pos) (j := j) hlow (hhigh.trans_le (Nat.add_le_add_left hle _))
      have hge := Nat.add_le_add_left hge (offset / chunksize * chunksize)
      have hlt := Nat.add_lt_add_left hlt (offset / chunksize * chunksize)
      rw [← Nat.add_assoc, hd'] at hge hlt
      rw [← Nat.add_assoc, hd] at hlt
      exact hpos ⟨hd ▸ hge, hlt⟩
    have hbefore : pos % chunksize < fileOff (offset % chunksize) j ↔
        pos < offset ∧ chnkStart offset + j = offset / chunksize := by
      rw [fileOff, chnkStart_eq ho]
      cases j with
      | zero =>
        rw [if_pos rfl]
        omega
      | succ j =>
        rw [if_neg (Nat.succ_ne_zero j)]
        omega
    by_cases hcase : pos < offset ∧ chnkStart offset + j = offset / chunksize
    · rw [if_pos (hbefore.2 hcase), if_pos hcase]
    · have hn := hbefore.not.2 hcase
      rw [if_neg hn, if_neg hcase, if_neg fun hlt => hout ⟨Nat.le_of_not_lt hn, hlt⟩]
  · rw [if_neg, fileByte, file?_forwardWrite_other d cl path ho hs hs'
      (fun j hj he => hpiece ⟨j, hj, he⟩), fileByte]
    rintro ⟨-, heq⟩
    exact hpiece ⟨0, Nat.succ_pos _, by rw [heq, chnkStart_eq ho, Nat.add_zero]⟩

/-- A write of the client is a write of the flat file. -/
theorem Stores.forwardWrite {f : FlatFile} (h : Stores d cl path f) (ho : offset < 2 ^ 63)
    (hs : 0 < buf.length) (hs' : buf.length < 2 ^ 34) :
    Stores d (GekkoFS.forwardWrite d (fun _ => .delivered) cl path buf offset 0).2 path
      (f.write offset buf) := by
  intro pos b hb
  rw [fileByte_forwardWrite d cl path ho hs hs']
  rw [FlatFile.write] at hb
  split
  · next hpos => rwa [if_pos hpos] at hb
  · next hpos =>
    rw [if_neg hpos] at hb
    rw [h pos b hb, Option.getD_some, ite_self]

/-! ## Reading -/

/-- What the daemon of piece `j` finds of it, with the place of the piece in the range. -/
def readPiece (d : Distributor n) (cl : Cluster n) (path : List Char) (offset size j : Nat) :
    Nat × List UInt8 :=
  (lo chunksize (offset % chunksize) j,
    pieceBytes (cl (d.locateData path (chnkStart offset + j) 0)) path (chnkStart offset)
      (offset % chunksize) size j)

/-- The bytes found of a piece are those of the file. -/
theorem readPiece_getElem? (d : Distributor n) (cl : Cluster n) (path : List Char)
    (ho : offset < 2 ^ 63) (hi : i < size) :
    (readPiece d cl path offset size ((offset % chunksize + i) / chunksize)).2[i -
      lo chunksize (offset % chunksize) ((offset % chunksize + i) / chunksize)]? =
      fileByte d cl path (offset + i) := by
  obtain ⟨hdiv, hmod⟩ := div_mod_add ho i
  obtain ⟨-, hlo, hhi, hoff⟩ :=
    Blocks.mem_piece chunksize_pos (Nat.mod_lt offset chunksize_pos) hi
  rw [readPiece, pieceBytes, slice_getElem?, if_pos (by rw [len]; omega), fileByte, hdiv,
    hmod, hoff]
  cases (cl (d.locateData path (chnkStart offset + (offset % chunksize + i) / chunksize) 0)).file?
      path (chnkStart offset + (offset % chunksize + i) / chunksize) with
  | none => rfl
  | some bytes => rfl

/-- Of a piece the bytes are found that its chunk file reaches. -/
theorem isSome_fileByte_piece (d : Distributor n) (cl : Cluster n) (path : List Char)
    {k : Nat}
    (ho : offset < 2 ^ 63) (hk : k < len chunksize (offset % chunksize) size j) :
    (fileByte d cl path (offset + (lo chunksize (offset % chunksize) j + k))).isSome =
      decide (k < (readPiece d cl path offset size j).2.length) := by
  have hhi := Blocks.hi_le chunksize (offset % chunksize) size j
  rw [len] at hk
  have hdiv := Blocks.div_eq_of_mem (S := size) (j := j) (Nat.mod_lt offset chunksize_pos)
    (show _ ≤ lo chunksize (offset % chunksize) j + k by omega) (by omega)
  have hget := readPiece_getElem? d cl path ho
    (show lo chunksize (offset % chunksize) j + k < size by omega)
  rw [← hget, hdiv, Nat.add_sub_cancel_left, Bool.eq_iff_iff, decide_eq_true_eq,
    Option.isSome_iff_ne_none, ne_eq, List.getElem?_eq_none_iff, Nat.not_le]

/-- The daemon of a piece that it owns. -/
theorem locateData_of_mem_ownedPieces {t : Fin n}
    (hj : j ∈ ownedPieces offset size (d.locateData path · 0) t) :
    d.locateData path (chnkStart offset + j) 0 = t := by
  simpa using (mem_filter.1 hj).2

/-- What the daemons of a plan find is what is found of the pieces that they own. -/
theorem flatMap_readBytes (cl : Cluster n) (targets : List (Fin n)) (size : Nat) :
    targets.flatMap (readBytes cl path offset size (d.locateData path · 0)) =
      (targets.flatMap (ownedPieces offset size (d.locateData path · 0))).map
        (readPiece d cl path offset size) := by
  rw [map_flatMap]
  refine flatMap_congr fun t _ => map_congr_left fun j hj => ?_
  rw [readPiece, locateData_of_mem_ownedPieces hj]

/-- No piece is owned by two daemons. -/
theorem nodup_flatMap_ownedPieces {targets : List (Fin n)} (hnodup : targets.Nodup) (size : Nat) :
    (targets.flatMap (ownedPieces offset size (d.locateData path · 0))).Nodup := by
  rw [nodup_flatMap]
  refine ⟨fun t _ => nodup_range.filter _, hnodup.imp fun {t u} htu => ?_⟩
  intro j hj hj'
  exact htu ((locateData_of_mem_ownedPieces hj).symm.trans (locateData_of_mem_ownedPieces hj'))

/-- What is found of a piece is not longer than the piece. -/
theorem readPiece_length_le (d : Distributor n) (cl : Cluster n) (path : List Char) :
    (readPiece d cl path offset size j).2.length ≤ len chunksize (offset % chunksize) size j := by
  rw [readPiece, pieceBytes, slice_length]
  exact Nat.min_le_left _ _

/-- What is found of a piece ends where the piece ends. -/
theorem readPiece_le (d : Distributor n) (cl : Cluster n) (path : List Char)
    (hs : 0 < size) (hj : j < count chunksize (offset % chunksize) size) :
    (readPiece d cl path offset size j).1 + (readPiece d cl path offset size j).2.length ≤
      hi chunksize (offset % chunksize) size j := by
  have hlt := Blocks.lo_lt_hi chunksize_pos hs (Nat.mod_lt offset chunksize_pos) hj
  rw [readPiece, pieceBytes, slice_length, len]
  omega

/-- Different pieces of a range are apart. -/
theorem readPiece_apart (d : Distributor n) (cl : Cluster n) (path : List Char)
    (hs : 0 < size) (hi : i < count chunksize (offset % chunksize) size)
    (hj : j < count chunksize (offset % chunksize) size) (hij : i ≠ j) :
    Bytes.Apart (readPiece d cl path offset size i) (readPiece d cl path offset size j) := by
  have hi' := readPiece_le d cl path hs hi
  have hj' := readPiece_le d cl path hs hj
  rcases Nat.lt_or_gt_of_ne hij with h | h
  · exact .inl (hi'.trans (Blocks.hi_le_lo_of_lt h))
  · exact .inr (hj'.trans (Blocks.hi_le_lo_of_lt h))

/-- The pieces of all the daemons of a plan are those of the range. -/
theorem flatMap_ownedPieces_perm {plan : DataPlan n}
    (hplan : plan.RecordsOwner offset size (d.locateData path · 0)) (ho : offset < 2 ^ 63)
    (hs : 0 < size) (hs' : size < 2 ^ 62) :
    (plan.targets.flatMap (ownedPieces offset size (d.locateData path · 0))).Perm
      (List.range (count chunksize (offset % chunksize) size)) := by
  refine (perm_ext_iff_of_nodup (nodup_flatMap_ownedPieces hplan.nodup size)
    nodup_range).2 fun j => ?_
  simp only [mem_flatMap, ownedPieces, pieces, mem_filter, decide_eq_true_eq]
  constructor
  · rintro ⟨t, -, hj, -⟩
    exact hj
  · intro hj
    exact ⟨_, hplan.owner_mem ho hs hs' (mem_range.1 hj), hj, rfl⟩

section
variable (d : Distributor n) (cl : Cluster n) (path : List Char) {js : List Nat}

/-- What is found of the pieces lies in the buffer. -/
theorem readPieces_inside
    (hperm : js.Perm (List.range (count chunksize (offset % chunksize) buf.length)))
    (hs : 0 < buf.length) :
    ∀ p ∈ js.map (readPiece d cl path offset buf.length), p.1 + p.2.length ≤ buf.length := by
  intro p hp
  obtain ⟨j, hj, rfl⟩ := mem_map.1 hp
  exact (readPiece_le d cl path hs (mem_range.1 (hperm.mem_iff.1 hj))).trans
    (Blocks.hi_le _ _ _ _)

/-- What is found of the pieces is in place, and the rest of the buffer is as it was. -/
theorem spliceAll_readPieces
    (hperm : js.Perm (List.range (count chunksize (offset % chunksize) buf.length)))
    (ho : offset < 2 ^ 63) (hs : 0 < buf.length) {i : Nat} (hi : i < buf.length) :
    (spliceAll buf (js.map (readPiece d cl path offset buf.length)))[i]? =
      (fileByte d cl path (offset + i)).or buf[i]? := by
  have hcount : ∀ j ∈ js, j < count chunksize (offset % chunksize) buf.length := fun j hj =>
    mem_range.1 (hperm.mem_iff.1 hj)
  have hinside := readPieces_inside d cl path hperm hs
  obtain ⟨hlt, hlo, hhi, -⟩ := Blocks.mem_piece chunksize_pos (Nat.mod_lt offset chunksize_pos) hi
  have hmem : (offset % chunksize + i) / chunksize ∈ js :=
    hperm.mem_iff.2 (mem_range.2 hlt)
  have hget := readPiece_getElem? d cl path ho hi
  rw [← hget]
  cases hbyte : fileByte d cl path (offset + i) with
  | some b =>
    -- byte `i` is in place as part of its piece
    rw [hbyte] at hget
    have hlen := (List.getElem?_eq_some_iff.1 hget).1
    have hnodup : js.Nodup := hperm.nodup_iff.2 nodup_range
    have happart := hnodup.pairwise_of_forall_ne fun i hi j hj hij =>
      readPiece_apart d cl path hs (hcount i hi) (hcount j hj) hij
    have hfst : (readPiece d cl path offset buf.length
        ((offset % chunksize + i) / chunksize)).1 =
      lo chunksize (offset % chunksize) ((offset % chunksize + i) / chunksize) := rfl
    rw [spliceAll_getElem?_of_mem hinside (pairwise_map.2 happart)
      (mem_map_of_mem hmem) (by rw [hfst]; exact hlo) (by rw [hfst]; omega), hfst, hget,
      Option.some_or]
  | none =>
    -- what is found of any piece ends before byte `i` or starts behind it
    rw [hbyte] at hget
    rw [hget, Option.none_or]
    refine spliceAll_getElem?_of_forall_not_mem hinside fun p hp => ?_
    obtain ⟨j, hj, rfl⟩ := mem_map.1 hp
    have hend := readPiece_le d cl path hs (hcount j hj)
    have hfst : (readPiece d cl path offset buf.length j).1 =
      lo chunksize (offset % chunksize) j := rfl
    rw [hfst] at hend ⊢
    by_contra hn
    have hdiv := Blocks.div_eq_of_mem (S := buf.length) (j := j) (i := i)
      (Nat.mod_lt offset chunksize_pos) (by omega) (by omega)
    rw [hdiv, List.getElem?_eq_none_iff] at hget
    omega

end

/-- A read returns how many bytes of the range are stored, with these in place and the others as the
buffer had them. -/
theorem forwardRead_found (d : Distributor n) (cl : Cluster n) (path : List Char)
    (ho : offset < 2 ^ 63) (hs : 0 < buf.length) (hs' : buf.length < 2 ^ 62)
    (hw : ∀ t, PerWindow offset buf.length fun j => d.locateData path (chnkStart offset + j) 0 = t)
    (failed : Finset Int) (draws : Nat → List Nat) :
    ∃ r, forwardRead d (fun _ => .delivered) cl path buf offset 0 failed draws = some r ∧
      r.result = (0, (List.range buf.length).countP fun i =>
        (fileByte d cl path (offset + i)).isSome) ∧
      r.buf.length = buf.length ∧
      ∀ i < buf.length, r.buf[i]? = (fileByte d cl path (offset + i)).or buf[i]? := by
  obtain ⟨plan, hp⟩ : ∃ plan, planRead offset buf.length ((chunkIds offset buf.length).map
    fun chnkId => (chnkId, d.locateData path chnkId 0)) = plan := ⟨_, rfl⟩
  have hplan := planRead_recordsOwner (d.locateData path · 0) offset buf.length
  rw [hp] at hplan
  have hpieces := @flatMap_readBytes n d path offset cl plan.targets buf.length
  have hperm := flatMap_ownedPieces_perm hplan ho hs hs'
  refine ⟨_, forwardRead_delivered d cl path hp ho hs hs' hw failed draws, ?_, ?_, fun i hi => ?_⟩
  · -- the sizes that the daemons report are those of the pieces
    have hfound : ((List.range (count chunksize (offset % chunksize) buf.length)).map fun j =>
        (readPiece d cl path offset buf.length j).2.length).sum =
        (List.range buf.length).countP fun i => (fileByte d cl path (offset + i)).isSome :=
      Blocks.sum_found chunksize_pos (Nat.mod_lt offset chunksize_pos)
        (fun j _ => readPiece_length_le d cl path)
        (fun j _ k hk => isSome_fileByte_piece d cl path ho hk)
    have hsizes := congrArg (fun ps => (ps.map fun p => p.2.length).sum) hpieces
    rw [map_map, (hperm.map _).sum_eq, map_flatMap, flatMap_def, sum_flatten,
      map_map] at hsizes
    exact Prod.ext rfl (hsizes.trans hfound)
  · rw [hpieces, spliceAll_length (readPieces_inside d cl path hperm hs)]
  · rw [hpieces]
    exact spliceAll_readPieces d cl path hperm ho hs hi

/-- A read of a range that the flat file covers returns the bytes of the flat file. -/
theorem Stores.forwardRead {f : FlatFile} (h : Stores d cl path f) (ho : offset < 2 ^ 63)
    (hs : 0 < buf.length) (hs' : buf.length < 2 ^ 34)
    (hcov : ∀ i < buf.length, (f (offset + i)).isSome) (failed : Finset Int)
    (draws : Nat → List Nat) :
    ∃ r, GekkoFS.forwardRead d (fun _ => .delivered) cl path buf offset 0 failed draws = some r ∧
      r.result = (0, buf.length) ∧ r.buf.length = buf.length ∧
      ∀ i < buf.length, r.buf[i]? = f (offset + i) := by
  have hbyte : ∀ i < buf.length, ∃ b, f (offset + i) = some b ∧
      fileByte d cl path (offset + i) = some b := fun i hi => by
    obtain ⟨b, hb⟩ := Option.isSome_iff_exists.1 (hcov i hi)
    exact ⟨b, hb, h _ b hb⟩
  obtain ⟨r, hread, hresult, hlength, hbuf⟩ := forwardRead_found d cl path ho hs
    (hs'.trans (by decide)) (fun _ => perWindow_of_lt hs hs' _) failed draws
  refine ⟨r, hread, hresult.trans ?_, hlength, fun i hi => ?_⟩
  · have hall : ∀ i ∈ List.range buf.length, (fileByte d cl path (offset + i)).isSome = true := by
      intro i hi
      obtain ⟨b, -, hb⟩ := hbyte i (mem_range.1 hi)
      rw [hb, Option.isSome_some]
    rw [countP_eq_length.2 hall, length_range]
  · obtain ⟨b, hf, hb⟩ := hbyte i hi
    rw [hbuf i hi, hb, hf, Option.some_or]

/-! ## Runs -/

/-- A sequence of writes to a file, each a file offset with a buffer: what they return, and the
storages after the last one. -/
def forwardWrites (d : Distributor n) (path : List Char) :
    List (Nat × List UInt8) → Cluster n → List (Nat × Nat) × Cluster n
  | [], cl => ([], cl)
  | w :: ws, cl =>
    let r := forwardWrite d (fun _ => .delivered) cl path w.2 w.1 0
    let rs := forwardWrites d path ws r.2
    (r.1 :: rs.1, rs.2)

/-- Writes return their sizes, and the daemons store the flat file that they make. -/
theorem Stores.forwardWrites : ∀ {ws : List (Nat × List UInt8)} {cl : Cluster n} {f : FlatFile},
    (∀ w ∈ ws, w.1 < 2 ^ 63 ∧ 1 ≤ w.2.length ∧ w.2.length < 2 ^ 34) → Stores d cl path f →
      (GekkoFS.forwardWrites d path ws cl).1 = ws.map (fun w => (0, w.2.length)) ∧
        Stores d (GekkoFS.forwardWrites d path ws cl).2 path (f.writes ws)
  | [], cl, f, _, h => ⟨rfl, h⟩
  | w :: ws, cl, f, hws, h => by
    obtain ⟨ho, hs, hs'⟩ := hws w (by simp)
    have htail : ∀ v ∈ ws, v.1 < 2 ^ 63 ∧ 1 ≤ v.2.length ∧ v.2.length < 2 ^ 34 :=
      fun v hv => hws v (by simp [hv])
    obtain ⟨h₁, h₂⟩ := Stores.forwardWrites htail (h.forwardWrite ho hs hs')
    rw [GekkoFS.forwardWrites, map_cons]
    exact ⟨by rw [h₁, forwardWrite_fst d path cl ho hs hs'], h₂⟩

/-- **A striped file behaves as one flat byte array.** After any sequence of writes to a file, a
read of a range that the writes cover returns its size, with each byte the one written last at its
position; and each write returns its size. The placement of the chunks is arbitrary, and so is what
the daemons held before. -/
theorem forwardRead_forwardWrites (d : Distributor n) (path : List Char) (cl : Cluster n)
    (ws : List (Nat × List UInt8))
    (hws : ∀ w ∈ ws, w.1 < 2 ^ 63 ∧ 1 ≤ w.2.length ∧ w.2.length < 2 ^ 31)
    (offset : Nat) (buf : List UInt8) (ho : offset < 2 ^ 63) (hs : 1 ≤ buf.length)
    (hs' : buf.length < 2 ^ 31)
    (hcov : ∀ i < buf.length, ∃ w ∈ ws, w.1 ≤ offset + i ∧ offset + i < w.1 + w.2.length)
    (failed : Finset Int) (draws : Nat → List Nat) :
    (forwardWrites d path ws cl).1 = ws.map (fun w => (0, w.2.length)) ∧
      ∃ r, forwardRead d (fun _ => .delivered) (forwardWrites d path ws cl).2 path buf offset 0
          failed draws = some r ∧
        r.result = (0, buf.length) ∧ r.buf.length = buf.length ∧
        ∀ i < buf.length, r.buf[i]? = FlatFile.empty.writes ws (offset + i) := by
  have hlt : 2 ^ 31 < 2 ^ 34 := by decide
  obtain ⟨hresults, hstores⟩ := Stores.forwardWrites
    (fun w hw => ⟨(hws w hw).1, (hws w hw).2.1, (hws w hw).2.2.trans hlt⟩)
    (show Stores d cl path .empty from fun _ _ hb => by cases hb)
  exact ⟨hresults, hstores.forwardRead ho hs (hs'.trans hlt)
    (fun i hi => FlatFile.isSome_writes (.inl (hcov i hi))) failed draws⟩

end

/-- Two writes that overlap, on two daemons with one chunk each, and a read over both chunks. -/
theorem forwardRead_forwardWrites_overlap :
    let d : Distributor 2 := simpleHashDistributor (fun s => (s.getLastD '0').toNat) 2 (by decide)
    let ws : List (Nat × List UInt8) := [(524286, [1, 2, 3, 4]), (524287, [5])]
    (forwardWrites d "/f".toList ws fun _ => ∅).1 = [(0, 4), (0, 1)] ∧
      ∃ r, forwardRead d (fun _ => .delivered) (forwardWrites d "/f".toList ws fun _ => ∅).2
          "/f".toList [0, 0, 0] 524286 0 ∅ (fun _ => []) = some r ∧
        r.result = (0, 3) ∧ r.buf.length = 3 ∧
        ∀ i < 3, r.buf[i]? = FlatFile.empty.writes ws (524286 + i) :=
  forwardRead_forwardWrites (simpleHashDistributor (fun s => (s.getLastD '0').toNat) 2 (by decide))
    "/f".toList (fun _ => ∅) [(524286, [1, 2, 3, 4]), (524287, [5])] (by decide) 524286 [0, 0, 0]
    (by decide) (by decide) (by decide) (by decide) ∅ fun _ => []

end GekkoFS
