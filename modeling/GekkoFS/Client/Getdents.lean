import GekkoFS.Client.OpenDir
import GekkoFS.Client.ReadWrite

/-!
# Paging through an open directory

`gkfs_getdents` and `gkfs_getdents64` fill a buffer with the records of the next entries of an open
directory, until the next record does not fit, and keep the position behind the last one. The two
kinds of records differ in where the name starts and where the type is, so both functions are one
definition with a `Layout`.

The fields of a record do not meet, the terminated name and the type included (`pieces_apart`), and
a record that is written leaves the ones before it alone. So a caller that walks over the records of
every page finds all entries in their order (`pagingOk_iff`). There are two limits: the size that is
returned is an `int`, so a page of `2 ^ 31` bytes or more is returned as a negative number; and the
position is narrowed to 32 bits when an entry is fetched.

The descriptor is one of an open directory here, and the entry has been fetched with it.
-/

namespace GekkoFS.OpenDirs

open Bytes List Wire

/-! ## Records -/

/-- The two kinds of records. Source: `linux_dirent` and `linux_dirent64`
(`gkfs_functions.cpp:67`). -/
inductive Layout
  | linuxDirent
  | linuxDirent64

namespace Layout

/-- Where the name starts, `offsetof(d_name)`. -/
def nameOffset : Layout → Nat
  | .linuxDirent => 18
  | .linuxDirent64 => 19

/-- What is reserved besides the name. Source: `gkfs_functions.cpp:1486`,
`gkfs_functions.cpp:1558`. -/
def reserved : Layout → Nat
  | .linuxDirent => 3
  | .linuxDirent64 => 1

/-- Where the type is in a record of the given size: in its last byte, or before the name. -/
def typeOffset : Layout → Nat → Nat
  | .linuxDirent, totalSize => totalSize - 1
  | .linuxDirent64, _ => 18

/-- `ALIGN`, which is `__ALIGN_KERNEL` of the kernel headers. Source: `gkfs_functions.cpp:61`. -/
def align (x a : Nat) : Nat := alignLeft (x + (a - 1)) a

/-- The size of the record of an entry. -/
def totalSize (l : Layout) (de : DirEntry) : Nat :=
  align (l.nameOffset + de.name.length + l.reserved) 8

end Layout

/-- `DT_REG` and `DT_DIR`. -/
def dType : FileType → UInt8
  | .regular => 8
  | .directory => 4

/-- The fields of a record with their offsets, in the order in which they are written. `strcpy`
copies the name up to its first NUL. -/
def pieces (l : Layout) (ino : UInt64) (written pos : Nat) (de : DirEntry) :
    List (Nat × List UInt8) :=
  [(written, leBytes 8 ino.toNat), (written + 16, leBytes 2 (l.totalSize de)),
    (written + l.typeOffset (l.totalSize de), [dType de.type]),
    (written + l.nameOffset, cString de.name ++ [0]), (written + 8, leBytes 8 (pos + 1))]

/-! ## The calls -/

section
variable (l : Layout) (inode : List Char → List UInt8 → UInt64) (dir : OpenDir)

/-- The entries that `getdent` gives for the positions of the directory; its parameter is an
`unsigned int`. Source: `OpenDir::getdent` (`open_dir.cpp:59`). -/
def OpenDir.dents : List DirEntry :=
  (List.range dir.entries.length).filterMap fun pos => dir.entries[u32 pos]?

/-- The loop over the entries from the position on. It gives the next position, the bytes written
and the buffer. Source: `gkfs_getdents` (`gkfs_functions.cpp:1471`) and `gkfs_getdents64`
(`gkfs_functions.cpp:1542`). -/
def fillLoop (count : Nat) : List DirEntry → Nat → Nat → List UInt8 → Nat × Nat × List UInt8
  | [], pos, written, buf => (pos, written, buf)
  | de :: rest, pos, written, buf =>
    if l.totalSize de > count - written then (pos, written, buf)
    else
      fillLoop count rest (pos + 1) (written + l.totalSize de)
        (spliceAll buf (pieces l (inode dir.path de.name) written pos de))

/-- What a call returns or reports, the buffer, and the position of the open directory after it. -/
structure Page where
  ret : Except Nat Int
  buf : List UInt8
  pos : Nat

/-- Fill a buffer. The bytes written are an `unsigned int` and are returned as an `int`. Source:
`gkfs_getdents` (`gkfs_functions.cpp:1453`) and `gkfs_getdents64` (`gkfs_functions.cpp:1526`). -/
def getdents (pos : Nat) (buf : List UInt8) : Page :=
  if pos ≥ dir.entries.length then ⟨.ok 0, buf, pos⟩
  else
    let (pos', written, buf') := fillLoop l inode dir buf.length (dir.dents.drop pos) pos 0 buf
    if written = 0 then ⟨.error EINVAL, buf', pos⟩
    else ⟨.ok (Int.bmod written (2 ^ 32)), buf', pos'⟩

/-- Source: `gkfs_getdents` (`gkfs_functions.cpp:1453`). -/
def gkfsGetdents (pos : Nat) (buf : List UInt8) : Page := getdents .linuxDirent inode dir pos buf

/-- Source: `gkfs_getdents64` (`gkfs_functions.cpp:1526`). -/
def gkfsGetdents64 (pos : Nat) (buf : List UInt8) : Page :=
  getdents .linuxDirent64 inode dir pos buf

/-- The pages that a caller gets for some buffers, one after another. -/
def pages : Nat → List (List UInt8) → List Page
  | _, [] => []
  | pos, buf :: bufs =>
    let page := getdents l inode dir pos buf
    page :: pages page.pos bufs

end

/-! ## The caller -/

/-- A record as a caller reads it. -/
structure Record where
  offset : Nat
  reclen : Nat
  name : List UInt8
  dType : UInt8

/-- Walk over the records of a buffer up to the size that was returned. The walk ends in any case
after as many records as there is fuel. -/
def walk (l : Layout) (buf : List UInt8) (size : Nat) : Nat → Nat → List Record
  | 0, _ => []
  | fuel + 1, offset =>
    if offset < size then
      let reclen := ofLeBytes (slice buf (offset + 16) 2)
      ⟨offset, reclen, cString (buf.drop (offset + l.nameOffset)),
          buf.getD (offset + l.typeOffset reclen) 0⟩ ::
        walk l buf size fuel (offset + reclen)
    else []

/-- The size of a page for the caller: what was returned, if it is a positive number. -/
def Page.size (page : Page) : Nat :=
  match page.ret with
  | .ok n => n.toNat
  | .error _ => 0

/-- The records of a page. -/
def Page.records (l : Layout) (page : Page) : List Record :=
  walk l page.buf page.size page.size 0

/-- The records are aligned, lie inside the page and do not meet; the terminated name and the type
lie inside the record and do not meet. -/
structure WellPlaced (l : Layout) (size : Nat) (records : List Record) : Prop where
  aligned : ∀ r ∈ records, r.offset % 8 = 0
  inside : ∀ r ∈ records, r.offset + r.reclen ≤ size
  apart : records.Pairwise fun r s => r.offset + r.reclen ≤ s.offset
  name : ∀ r ∈ records, l.nameOffset + (r.name.length + 1) ≤ r.reclen
  type : ∀ r ∈ records, l.typeOffset r.reclen < r.reclen ∧
    (l.typeOffset r.reclen < l.nameOffset ∨
      l.nameOffset + (r.name.length + 1) ≤ l.typeOffset r.reclen)

/-- The pages have every entry once and in order with its name and type, in records that are well
placed. -/
structure PagingOk (l : Layout) (dir : OpenDir) (pages : List Page) : Prop where
  complete : (pages.flatMap (Page.records l)).map (fun r => (r.name, r.dType)) =
    dir.entries.map fun de => (de.name, dType de.type)
  placed : ∀ page ∈ pages, WellPlaced l page.size (page.records l)

/-- The name of an entry: one to 4095 bytes, none of them NUL. -/
def NameOk (de : DirEntry) : Prop :=
  1 ≤ de.name.length ∧ de.name.length ≤ 4095 ∧ 0 ∉ de.name

/-! ## The fields of a record -/

section
variable {l : Layout} {de : DirEntry} (hde : NameOk de) {ino : UInt64} {written pos : Nat}

include hde

/-- The size of a record: the next multiple of eight. -/
theorem totalSize_eq :
    l.totalSize de = (l.nameOffset + de.name.length + l.reserved + 7) / 8 * 8 := by
  have hlen := hde.2.1
  rw [Layout.totalSize, Layout.align, show (8 : Nat) = 2 ^ 3 from rfl]
  refine alignLeft_two_pow (by decide) ?_
  cases l <;> simp only [Layout.nameOffset, Layout.reserved] <;> omega

/-- Where the fields of a record are: its size is a multiple of eight and fits `d_reclen`, and the
terminated name and the type are inside and do not meet. -/
theorem totalSize_spec :
    l.totalSize de % 8 = 0 ∧ l.totalSize de < 2 ^ 16 ∧
      l.nameOffset + (de.name.length + 1) ≤ l.totalSize de ∧ 18 ≤ l.nameOffset ∧
      18 ≤ l.typeOffset (l.totalSize de) ∧ l.typeOffset (l.totalSize de) < l.totalSize de ∧
      (l.typeOffset (l.totalSize de) < l.nameOffset ∨
        l.nameOffset + (de.name.length + 1) ≤ l.typeOffset (l.totalSize de)) := by
  have hlen := hde.2.1
  have hpos := hde.1
  rw [totalSize_eq hde]
  cases l <;> simp only [Layout.nameOffset, Layout.reserved, Layout.typeOffset] <;> omega

/-- A field lies inside its record. -/
theorem pieces_inside :
    ∀ p ∈ pieces l ino written pos de,
      written ≤ p.1 ∧ p.1 + p.2.length ≤ written + l.totalSize de := by
  obtain ⟨-, -, hname, h18, htype, hlast, -⟩ := totalSize_spec (l := l) hde
  have hstring := length_cString_append hde.2.2
  intro p hp
  simp only [pieces, mem_cons, not_mem_nil, or_false] at hp
  rcases hp with rfl | rfl | rfl | rfl | rfl
  · simp only [leBytes_length]
    omega
  · simp only [leBytes_length]
    omega
  · simp only [length_singleton]
    omega
  · simp only [hstring]
    omega
  · simp only [leBytes_length]
    omega

/-- The fields do not meet. -/
theorem pieces_apart :
    (pieces l ino written pos de).Pairwise Apart := by
  obtain ⟨-, -, hname, h18, htype, hlast, hmeet⟩ := totalSize_spec (l := l) hde
  have hstring := length_cString_append hde.2.2
  simp only [pieces, pairwise_cons, mem_cons, not_mem_nil, or_false, Apart,
    forall_eq_or_imp, forall_eq, leBytes_length, length_singleton, hstring,
    List.Pairwise.nil, and_true, false_imp_iff, implies_true]
  omega

end

/-- A buffer has the record of an entry. -/
structure RecordAt (l : Layout) (buf : List UInt8) (offset : Nat) (de : DirEntry) : Prop where
  reclen : Holds buf (offset + 16) (leBytes 2 (l.totalSize de))
  name : Holds buf (offset + l.nameOffset) (cString de.name ++ [0])
  type : Holds buf (offset + l.typeOffset (l.totalSize de)) [dType de.type]

/-- A buffer has the records of some entries one after another. -/
def RecordsAt (l : Layout) (buf : List UInt8) : Nat → List DirEntry → Prop
  | _, [] => True
  | offset, de :: des => RecordAt l buf offset de ∧ RecordsAt l buf (offset + l.totalSize de) des

/-- The sizes of the records of some entries. -/
def sizes (l : Layout) (des : List DirEntry) : Nat := (des.map l.totalSize).sum

@[simp] theorem sizes_nil (l : Layout) : sizes l [] = 0 := rfl

@[simp] theorem sizes_cons (l : Layout) (de : DirEntry) (des : List DirEntry) :
    sizes l (de :: des) = l.totalSize de + sizes l des := by simp [sizes]

@[simp] theorem sizes_append (l : Layout) (des des' : List DirEntry) :
    sizes l (des ++ des') = sizes l des + sizes l des' := by simp [sizes]

variable {buf buf' : List UInt8} {offset n written : Nat} {l : Layout} {des : List DirEntry}
  {de : DirEntry} {pos : Nat} {inode : List Char → List UInt8 → UInt64}

/-- What a buffer has in its first bytes, another one with the same first bytes has. -/
theorem Holds.of_take_eq {xs : List UInt8}
    (hbuf : buf'.take n = buf.take n) (hn : offset + xs.length ≤ n) (h : Holds buf offset xs) :
    Holds buf' offset xs := by
  have hslice : ∀ b : List UInt8, slice (b.take n) offset xs.length = slice b offset xs.length := by
    intro b
    rw [slice, slice, drop_take, take_take]
    congr 1
    omega
  rw [holds_iff_slice] at h ⊢
  rw [← hslice, hbuf, hslice, h]

/-- A record is read from its own bytes. -/
theorem RecordAt.of_take_eq
    (hde : NameOk de) (hbuf : buf'.take n = buf.take n) (hn : offset + l.totalSize de ≤ n)
    (h : RecordAt l buf offset de) : RecordAt l buf' offset de := by
  obtain ⟨-, -, hname, h18, htype, hlast, -⟩ := totalSize_spec (l := l) hde
  have hstring := length_cString_append hde.2.2
  refine ⟨Holds.of_take_eq hbuf ?_ h.reclen, Holds.of_take_eq hbuf ?_ h.name,
    Holds.of_take_eq hbuf ?_ h.type⟩
  · rw [leBytes_length]
    omega
  · rw [hstring]
    omega
  · rw [length_singleton]
    omega

/-- Writing a record that fits: it is there afterwards, and the bytes before it are as they were. -/
theorem recordAt_spliceAll {ino : UInt64} (hde : NameOk de)
    (hfit : written + l.totalSize de ≤ buf.length)
    (hbuf' : spliceAll buf (pieces l ino written pos de) = buf') :
    RecordAt l buf' written de ∧ buf'.length = buf.length ∧
      buf'.take written = buf.take written := by
  have hinside : ∀ p ∈ pieces l ino written pos de,
      written ≤ p.1 ∧ p.1 + p.2.length ≤ written + l.totalSize de := pieces_inside hde
  have hwithin : ∀ p ∈ pieces l ino written pos de, p.1 + p.2.length ≤ buf.length := fun p hp =>
    (hinside p hp).2.trans hfit
  have hholds : ∀ p ∈ pieces l ino written pos de, Holds buf' p.1 p.2 := fun p hp => by
    rw [holds_iff_slice, ← hbuf']
    exact slice_spliceAll hwithin (pieces_apart hde) hp
  refine ⟨⟨?_, ?_, ?_⟩, ?_, ?_⟩
  · exact hholds (written + 16, leBytes 2 (l.totalSize de)) (by simp [pieces])
  · exact hholds (written + l.nameOffset, cString de.name ++ [0]) (by simp [pieces])
  · exact hholds (written + l.typeOffset (l.totalSize de), [dType de.type]) (by simp [pieces])
  · rw [← hbuf', spliceAll_length hwithin]
  · refine ext_getElem? fun i => ?_
    rw [getElem?_take, getElem?_take]
    split
    · next hi =>
      rw [← hbuf', spliceAll_getElem?_of_forall_not_mem hwithin fun p hp => ?_]
      exact .inl (hi.trans_le (hinside p hp).1)
    · rfl

/-! ## A page -/

/-- What the loop has done: it has taken some of the entries, their records are in the buffer behind
what was there before, and the next record does not fit. -/
structure Filled (l : Layout) (des : List DirEntry) (pos written : Nat) (buf : List UInt8)
    (filled : Nat × Nat × List UInt8) (taken rest : List DirEntry) : Prop where
  split : des = taken ++ rest
  posEq : filled.1 = pos + taken.length
  writtenEq : filled.2.1 = written + sizes l taken
  length : filled.2.2.length = buf.length
  before : filled.2.2.take written = buf.take written
  records : RecordsAt l filled.2.2 written taken
  fits : filled.2.1 ≤ buf.length
  next : ∀ de ∈ rest.head?, buf.length < filled.2.1 + l.totalSize de

/-- What the loop leaves in the buffer. -/
theorem fillLoop_filled {dir : OpenDir}
    (hdes : ∀ de ∈ des, NameOk de)
    (hwritten : written ≤ buf.length) {filled : Nat × Nat × List UInt8}
    (h : fillLoop l inode dir buf.length des pos written buf = filled) :
    ∃ taken rest, Filled l des pos written buf filled taken rest := by
  induction des generalizing pos written buf with
  | nil =>
    subst h
    exact ⟨[], [], rfl, rfl, rfl, rfl, rfl, trivial, hwritten, fun _ hde => nomatch hde⟩
  | cons de des ih =>
    have hde := hdes de mem_cons_self
    rw [fillLoop] at h
    split at h
    · next hfull =>
      subst h
      refine ⟨[], de :: des, rfl, rfl, rfl, rfl, rfl, trivial, hwritten, ?_⟩
      rintro _ ⟨⟩
      dsimp only
      omega
    · next hfull =>
      obtain ⟨buf', hbuf'⟩ : ∃ buf', spliceAll buf
          (pieces l (inode dir.path de.name) written pos de) = buf' := ⟨_, rfl⟩
      obtain ⟨hrecord, hlen, hbefore⟩ := recordAt_spliceAll hde (by omega) hbuf'
      rw [hbuf', ← hlen] at h
      obtain ⟨taken, rest, hfilled⟩ :=
        ih (fun de' hmem => hdes de' (mem_cons_of_mem de hmem)) (by omega) h
      have hafter := hfilled.before
      refine ⟨de :: taken, rest, ?_, ?_, ?_, ?_, ?_, ?_, ?_, ?_⟩
      · rw [cons_append, ← hfilled.split]
      · rw [hfilled.posEq, length_cons]
        omega
      · rw [hfilled.writtenEq, sizes_cons]
        omega
      · rw [hfilled.length, hlen]
      · have htake := congrArg (List.take written) hafter
        rw [take_take, take_take, Nat.min_eq_left (by omega)] at htake
        rw [htake, hbefore]
      · exact ⟨hrecord.of_take_eq hde hafter (Nat.le_refl _), hfilled.records⟩
      · rw [← hlen]
        exact hfilled.fits
      · rw [← hlen]
        exact hfilled.next

/-- The records of some entries, as a caller should read them. -/
def recordsOf (l : Layout) : Nat → List DirEntry → List Record
  | _, [] => []
  | offset, de :: des =>
    ⟨offset, l.totalSize de, de.name, dType de.type⟩ :: recordsOf l (offset + l.totalSize de) des

/-- The caller finds the records that are in the buffer. -/
theorem walk_eq (hdes : ∀ de ∈ des, NameOk de) (h : RecordsAt l buf offset des) {fuel : Nat}
    (hfuel : sizes l des ≤ fuel) :
    walk l buf (offset + sizes l des) fuel offset = recordsOf l offset des := by
  induction des generalizing offset fuel with
  | nil =>
    cases fuel with
    | zero => rfl
    | succ fuel => rw [walk, if_neg (by rw [sizes_nil]; omega), recordsOf]
  | cons de des ih =>
    have hde := hdes de mem_cons_self
    obtain ⟨hrecord, hrecords⟩ := h
    obtain ⟨-, hsmall, hname, -⟩ := totalSize_spec (l := l) hde
    have hreclen : ofLeBytes (slice buf (offset + 16) 2) = l.totalSize de := by
      rw [hrecord.reclen.slice_eq (leBytes_length ..), ofLeBytes_leBytes]
      exact Nat.mod_eq_of_lt hsmall
    have hterminated := hrecord.name
    rw [← append_nil (cString de.name ++ [0])] at hterminated
    have hstring := cString_of_holds hde.2.2 hterminated
    have htype := getD_of_holds hrecord.type
    rw [sizes_cons] at hfuel ⊢
    cases fuel with
    | zero => omega
    | succ fuel =>
      rw [walk, if_pos (by omega)]
      dsimp only
      rw [hreclen, hstring, htype, recordsOf, ← Nat.add_assoc,
        ih (fun de' hmem => hdes de' (mem_cons_of_mem de hmem)) hrecords (by omega)]

section
variable {l : Layout} {des : List DirEntry}

theorem map_recordsOf (offset : Nat) :
    (recordsOf l offset des).map (fun r => (r.name, r.dType)) =
      des.map fun de => (de.name, dType de.type) := by
  induction des generalizing offset with
  | nil => rfl
  | cons de des ih => rw [recordsOf, map_cons, map_cons, ih]

variable (hdes : ∀ de ∈ des, NameOk de)

include hdes

/-- Every record is that of an entry, at a multiple of eight, behind the offset and inside the
sizes. -/
theorem mem_recordsOf {offset : Nat} (hoffset : offset % 8 = 0) {r : Record}
    (hr : r ∈ recordsOf l offset des) :
    (∃ de ∈ des, r.reclen = l.totalSize de ∧ r.name = de.name) ∧ r.offset % 8 = 0 ∧
      offset ≤ r.offset ∧ r.offset + r.reclen ≤ offset + sizes l des := by
  induction des generalizing offset with
  | nil => exact absurd hr not_mem_nil
  | cons de des ih =>
    obtain ⟨hmod, -⟩ := totalSize_spec (l := l) (hdes de mem_cons_self)
    rw [sizes_cons]
    rw [recordsOf] at hr
    rcases mem_cons.1 hr with rfl | hr
    · exact ⟨⟨de, mem_cons_self, rfl, rfl⟩, hoffset, Nat.le_refl _, by dsimp only; omega⟩
    · obtain ⟨⟨de', hmem, hreclen⟩, hmod', hle, hend⟩ :=
        ih (fun de' hmem => hdes de' (mem_cons_of_mem de hmem)) (by omega) hr
      exact ⟨⟨de', mem_cons_of_mem de hmem, hreclen⟩, hmod', by omega, by omega⟩

/-- The records of a page are well placed. -/
theorem wellPlaced_recordsOf : WellPlaced l (sizes l des) (recordsOf l 0 des) := by
  have hmem : ∀ r ∈ recordsOf l 0 des, _ := fun r hr => mem_recordsOf hdes (Nat.zero_mod 8) hr
  have hspec : ∀ r ∈ recordsOf l 0 des, ∃ de, NameOk de ∧ r.reclen = l.totalSize de ∧
      r.name = de.name := fun r hr => by
    obtain ⟨⟨de, hde, heq⟩, -⟩ := hmem r hr
    exact ⟨de, hdes de hde, heq⟩
  refine ⟨fun r hr => (hmem r hr).2.1, fun r hr => ?_, ?_, fun r hr => ?_, fun r hr => ?_⟩
  · have := (hmem r hr).2.2.2
    omega
  · have hpairwise : ∀ (des : List DirEntry) (offset : Nat), (∀ de ∈ des, NameOk de) →
        offset % 8 = 0 → (recordsOf l offset des).Pairwise
          fun r s => r.offset + r.reclen ≤ s.offset := by
      intro des
      induction des with
      | nil => exact fun _ _ _ => List.Pairwise.nil
      | cons de des ih =>
        intro offset hdes hoffset
        obtain ⟨hmod, -⟩ := totalSize_spec (l := l) (hdes de mem_cons_self)
        have hrest : ∀ de' ∈ des, NameOk de' := fun de' hmem =>
          hdes de' (mem_cons_of_mem de hmem)
        have haligned : (offset + l.totalSize de) % 8 = 0 := by omega
        rw [recordsOf]
        exact pairwise_cons.2
          ⟨fun r hr => (mem_recordsOf hrest haligned hr).2.2.1, ih _ hrest haligned⟩
    exact hpairwise des 0 hdes (Nat.zero_mod 8)
  · obtain ⟨de, hde, hreclen, hname⟩ := hspec r hr
    rw [hreclen, hname]
    exact (totalSize_spec hde).2.2.1
  · obtain ⟨de, hde, hreclen, hname⟩ := hspec r hr
    obtain ⟨-, -, -, -, -, hlast, hmeet⟩ := totalSize_spec (l := l) hde
    rw [hreclen, hname]
    exact ⟨hlast, hmeet⟩

end

/-- What a caller takes from the returned `int`: a size of `2 ^ 31` or more is negative. -/
theorem toNat_bmod (hwritten : written < 2 ^ 32) :
    (Int.bmod written (2 ^ 32)).toNat = if written < 2 ^ 31 then written else 0 := by
  split
  · next hsmall => rw [bmod_eq_self_iff.2 hsmall, Int.toNat_natCast]
  · next hlarge =>
    have hlt := Int.bmod_lt (x := written) (m := 2 ^ 32) (by decide)
    have hmod : Int.bmod written (2 ^ 32) % 2 ^ 32 = written % 2 ^ 32 := Int.bmod_emod
    omega

/-- A page can be returned: no first part of the entries from the position on fits the buffer and
has records of `2 ^ 31` bytes or more. -/
def PageFits (l : Layout) (des : List DirEntry) (pos count : Nat) : Prop :=
  ∀ n, sizes l ((des.drop pos).take n) ≤ count → sizes l ((des.drop pos).take n) < 2 ^ 31

/-- What a call does: it takes the next entries, as many as fit, and the caller finds their records
if their size is below `2 ^ 31`. -/
structure Taken (l : Layout) (dir : OpenDir) (pos count : Nat) (page : Page)
    (taken : List DirEntry) : Prop where
  split : ∃ rest, dir.dents.drop pos = taken ++ rest
  posEq : page.pos = pos + taken.length
  size : page.size = if sizes l taken < 2 ^ 31 then sizes l taken else 0
  records : page.records l = if sizes l taken < 2 ^ 31 then recordsOf l 0 taken else []
  fits : PageFits l dir.dents pos count ↔ sizes l taken < 2 ^ 31
  last : page.ret = .ok 0 → dir.dents.length ≤ pos

section
variable {l : Layout} {inode : List Char → List UInt8 → UInt64} {dir : OpenDir}
  {taken : List DirEntry} {pos count : Nat}

variable (dir) in
/-- The directory has an entry at every position that `getdent` is called with. -/
theorem map_some_dents : dir.dents.map some =
    (List.range dir.entries.length).map fun pos => dir.entries[u32 pos]? := by
  have hall : ∀ n ≤ dir.entries.length, ((List.range n).filterMap
      fun pos => dir.entries[u32 pos]?).map some =
        (List.range n).map fun pos => dir.entries[u32 pos]? := by
    intro n hn
    induction n with
    | zero => rfl
    | succ n ih =>
      have hlt : u32 n < dir.entries.length := lt_of_le_of_lt (Nat.mod_le n _) hn
      rw [range_succ, filterMap_append, map_append, ih (by omega), map_append]
      simp [hlt]
  exact hall _ (Nat.le_refl _)

theorem length_dents : dir.dents.length = dir.entries.length := by
  rw [← length_map some, map_some_dents dir, length_map, length_range]

theorem mem_entries_of_mem_dents {de : DirEntry} (hde : de ∈ dir.dents) : de ∈ dir.entries := by
  obtain ⟨pos, -, hget⟩ := List.mem_filterMap.1 hde
  exact mem_of_getElem? hget

/-- The first part of some entries that fits is the longest one. -/
theorem pageFits_iff {des rest : List DirEntry}
    (hsplit : des.drop pos = taken ++ rest) (hfits : sizes l taken ≤ count)
    (hnext : ∀ de ∈ rest.head?, count < sizes l taken + l.totalSize de) :
    PageFits l des pos count ↔ sizes l taken < 2 ^ 31 := by
  have hle : ∀ n, sizes l ((des.drop pos).take n) ≤ count →
      sizes l ((des.drop pos).take n) ≤ sizes l taken := by
    intro n hn
    rw [hsplit, take_append] at hn ⊢
    rcases Nat.lt_or_ge taken.length n with hlt | hge
    · cases rest with
      | nil => rw [take_nil, append_nil, take_of_length_le (by omega)]
      | cons de rest =>
        have hmore := hnext de rfl
        obtain ⟨m, hm⟩ : ∃ m, n - taken.length = m + 1 := ⟨n - taken.length - 1, by omega⟩
        rw [hm, take_succ_cons, take_of_length_le (by omega), sizes_append,
          sizes_cons] at hn
        omega
    · rw [Nat.sub_eq_zero_of_le hge, take_zero, append_nil]
      have hparts := sizes_append l (taken.take n) (taken.drop n)
      rw [take_append_drop] at hparts
      omega
  constructor
  · intro h
    have htaken := h taken.length
    rw [hsplit, take_left] at htaken
    exact htaken hfits
  · exact fun h n hn => lt_of_le_of_lt (hle n hn) h

variable (l inode) in
/-- A call takes some entries, possibly none. -/
theorem exists_taken (hdes : ∀ de ∈ dir.entries, NameOk de) {buf : List UInt8}
    (hbuf : buf.length < 2 ^ 32) (pos : Nat) :
    ∃ taken, Taken l dir pos buf.length (getdents l inode dir pos buf) taken := by
  rw [getdents]
  split
  · next hend =>
    have hdrop : dir.dents.drop pos = [] :=
      drop_of_length_le (by rw [length_dents]; exact hend)
    refine ⟨[], ⟨[], hdrop⟩, rfl, rfl, rfl, pageFits_iff hdrop (Nat.zero_le _) ?_, ?_⟩
    · exact fun _ h => nomatch h
    · exact fun _ => by rw [length_dents]; exact hend
  · next hend =>
    obtain ⟨⟨pos', written, buf'⟩, hfilled⟩ : ∃ filled,
        fillLoop l inode dir buf.length (dir.dents.drop pos) pos 0 buf = filled := ⟨_, rfl⟩
    have hnames : ∀ de ∈ dir.dents.drop pos, NameOk de := fun de hde =>
      hdes de (mem_entries_of_mem_dents (mem_of_mem_drop hde))
    obtain ⟨taken, rest, h⟩ := fillLoop_filled hnames (Nat.zero_le _) hfilled
    have hwritten : written = sizes l taken := h.writtenEq.trans (Nat.zero_add _)
    have hfit : written ≤ buf.length := h.fits
    have hfits := pageFits_iff h.split (hwritten ▸ hfit) (hwritten ▸ h.next)
    have htaken : ∀ de ∈ taken, NameOk de := fun de hde =>
      hnames de (h.split ▸ mem_append_left rest hde)
    rw [hfilled]
    dsimp only
    split
    · next hzero =>
      -- the first record does not fit, so no entry has been taken
      have hnil : taken = [] := by
        cases taken with
        | nil => rfl
        | cons de taken =>
          obtain ⟨-, -, hname, -⟩ := totalSize_spec (l := l) (htaken de mem_cons_self)
          rw [sizes_cons] at hwritten
          omega
      subst hnil
      exact ⟨[], ⟨rest, h.split⟩, rfl, rfl, rfl, hfits, fun hret => nomatch hret⟩
    · next hsome =>
      have hsize : Page.size ⟨.ok (Int.bmod written (2 ^ 32)), buf', pos'⟩ =
          if sizes l taken < 2 ^ 31 then sizes l taken else 0 := by
        rw [← hwritten, Page.size]
        exact toNat_bmod (by omega)
      refine ⟨taken, ⟨rest, h.split⟩, h.posEq, hsize, ?_, hfits, ?_⟩
      · rw [Page.records, hsize]
        split
        · have hwalk := walk_eq htaken h.records (Nat.le_refl _)
          rwa [Nat.zero_add] at hwalk
        · rfl
      · intro hret
        have hzero : Int.bmod written (2 ^ 32) = 0 := Except.ok.inj hret
        have hmod : Int.bmod written (2 ^ 32) % 2 ^ 32 = written % 2 ^ 32 := Int.bmod_emod
        omega

/-! ## All pages -/

variable (l inode dir) in
/-- Every page of a run can be returned, the entries being the given ones. -/
def RunFits (des : List DirEntry) : Nat → List (List UInt8) → Prop
  | _, [] => True
  | pos, buf :: bufs =>
    PageFits l des pos buf.length ∧ RunFits des (getdents l inode dir pos buf).pos bufs

/-- The next call starts behind the entries that were taken. -/
theorem Taken.drop_pos {page : Page}
    (h : Taken l dir pos count page taken) :
    dir.dents.drop pos = taken ++ dir.dents.drop page.pos := by
  obtain ⟨rest, hrest⟩ := h.split
  rw [h.posEq, ← drop_drop, hrest, drop_left]

section
variable (hdes : ∀ de ∈ dir.entries, NameOk de) {bufs : List (List UInt8)}
  (hbufs : ∀ buf ∈ bufs, buf.length < 2 ^ 32)

include hdes hbufs

/-- So are those of all pages. -/
theorem wellPlaced_pages (pos : Nat) :
    ∀ page ∈ pages l inode dir pos bufs, WellPlaced l page.size (page.records l) := by
  induction bufs generalizing pos with
  | nil => exact fun _ h => nomatch h
  | cons buf bufs ih =>
    obtain ⟨taken, h⟩ := exists_taken l inode hdes
      (hbufs buf mem_cons_self) pos
    have hnames : ∀ de ∈ taken, NameOk de := fun de hde =>
      hdes de (mem_entries_of_mem_dents (mem_of_mem_drop
        (h.drop_pos ▸ mem_append_left _ hde)))
    intro page hpage
    rw [pages] at hpage
    rcases mem_cons.1 hpage with rfl | hpage
    · rw [h.size, h.records]
      split
      · exact wellPlaced_recordsOf hnames
      · have hnil : ∀ de ∈ ([] : List DirEntry), NameOk de := fun _ hde => nomatch hde
        exact wellPlaced_recordsOf hnil
    · exact ih (fun buf hbuf => hbufs buf (mem_cons_of_mem _ hbuf)) _ page hpage

variable (l inode) in
/-- A caller never finds more records than there are entries, and fewer if a page could not be
returned. -/
theorem length_records_pages (pos : Nat) :
    ((pages l inode dir pos bufs).flatMap (Page.records l)).length ≤
        (dir.dents.drop pos).length ∧
      (¬ RunFits l inode dir dir.dents pos bufs →
        ((pages l inode dir pos bufs).flatMap (Page.records l)).length <
          (dir.dents.drop pos).length) := by
  induction bufs generalizing pos with
  | nil => exact ⟨Nat.zero_le _, fun h => absurd trivial h⟩
  | cons buf bufs ih =>
    obtain ⟨taken, h⟩ := exists_taken l inode hdes
      (hbufs buf mem_cons_self) pos
    obtain ⟨hle, hlt⟩ := ih (fun buf hbuf => hbufs buf (mem_cons_of_mem _ hbuf))
      (getdents l inode dir pos buf).pos
    rw [pages, flatMap_cons, length_append, h.drop_pos, length_append, h.records,
      RunFits, h.fits]
    split
    · next hsmall =>
      have hlen : (recordsOf l 0 taken).length = taken.length := by
        rw [← length_map (fun r : Record => (r.name, r.dType)), map_recordsOf, length_map]
      rw [hlen]
      exact ⟨by omega, fun hfits => by have := hlt fun hrest => hfits ⟨hsmall, hrest⟩; omega⟩
    · next hlarge =>
      have hpos : 0 < taken.length := by
        refine length_pos_of_ne_nil ?_
        rintro rfl
        exact hlarge (by rw [sizes_nil]; decide)
      rw [length_nil]
      exact ⟨by omega, fun _ => by omega⟩

/-- If every page can be returned, a caller that goes on until it gets 0 finds all entries from the
position on. -/
theorem map_records_pages {pos : Nat} (hfits : RunFits l inode dir dir.dents pos bufs)
    (hlast : (pages l inode dir pos bufs).getLast?.map Page.ret = some (.ok 0)) :
    ((pages l inode dir pos bufs).flatMap (Page.records l)).map (fun r => (r.name, r.dType)) =
      (dir.dents.drop pos).map fun de => (de.name, dType de.type) := by
  induction bufs generalizing pos with
  | nil => exact nomatch hlast
  | cons buf bufs ih =>
    obtain ⟨taken, h⟩ := exists_taken l inode hdes
      (hbufs buf mem_cons_self) pos
    obtain ⟨hfit, hrest⟩ := hfits
    rw [pages, flatMap_cons, map_append, h.records, if_pos (h.fits.1 hfit),
      map_recordsOf, h.drop_pos, map_append]
    congr 1
    cases bufs with
    | nil =>
      have hend := h.last (Option.some.inj hlast)
      rw [drop_of_length_le (by rw [h.posEq]; omega)]
      rfl
    | cons buf' bufs =>
      refine ih (fun buf hbuf => hbufs buf (mem_cons_of_mem _ hbuf)) hrest ?_
      rw [pages, pages, getLast?_cons_cons, ← pages] at hlast
      exact hlast

end

/-- The entry at a position, by its index of 32 bits. -/
theorem dents_eq_iff : dir.dents = dir.entries ↔
    ∀ pos < dir.entries.length, dir.entries[u32 pos]? = dir.entries[pos]? := by
  have hget : ∀ pos < dir.entries.length, dir.dents[pos]? = dir.entries[u32 pos]? := by
    intro pos hpos
    have hmap := congrArg (fun entries => entries[pos]?) (map_some_dents dir)
    have hlt : u32 pos < dir.entries.length := lt_of_le_of_lt (Nat.mod_le pos _) hpos
    simpa [hpos, hlt] using hmap
  constructor
  · intro h pos hpos
    rw [← hget pos hpos, h]
  · intro h
    refine ext_getElem? fun pos => ?_
    rcases Nat.lt_or_ge pos dir.entries.length with hlt | hge
    · rw [hget pos hlt, h pos hlt]
    · rw [getElem?_eq_none hge, getElem?_eq_none (by rw [length_dents]; exact hge)]

/-- There is nothing to check for buffers below `2 ^ 31` bytes. -/
theorem runFits_of_small {bufs : List (List UInt8)} (hbufs : ∀ buf ∈ bufs, buf.length < 2 ^ 31)
    (des : List DirEntry) (pos : Nat) : RunFits l inode dir des pos bufs := by
  induction bufs generalizing pos with
  | nil => exact trivial
  | cons buf bufs ih =>
    exact ⟨fun n hn => lt_of_le_of_lt hn (hbufs buf mem_cons_self),
      ih (fun buf hbuf => hbufs buf (mem_cons_of_mem _ hbuf)) _⟩

theorem dents_eq (hlen : dir.entries.length ≤ 2 ^ 32) : dir.dents = dir.entries := by
  refine dents_eq_iff.2 fun pos hpos => ?_
  rw [u32, Nat.mod_eq_of_lt (by omega)]

theorem dType_injective {t t' : FileType} (h : dType t = dType t') : t = t' := by
  cases t <;> cases t' <;> first | rfl | exact absurd h (by decide)

end

/-- A caller that gets pages until a call returns 0 has every entry once and in order, in records
that are well placed, if and only if every position has its own entry and every page can be
returned: no first part of the remaining entries fits the buffer of a call and has records of
`2 ^ 31` bytes or more. -/
theorem pagingOk_iff (l : Layout) (inode : List Char → List UInt8 → UInt64) (dir : OpenDir)
    (hdes : ∀ de ∈ dir.entries, NameOk de) (bufs : List (List UInt8))
    (hbufs : ∀ buf ∈ bufs, buf.length < 2 ^ 32)
    (hlast : (pages l inode dir 0 bufs).getLast?.map Page.ret = some (.ok 0)) :
    PagingOk l dir (pages l inode dir 0 bufs) ↔
      (∀ pos < dir.entries.length, dir.entries[u32 pos]? = dir.entries[pos]?) ∧
        RunFits l inode dir dir.entries 0 bufs := by
  rw [← dents_eq_iff]
  constructor
  · intro h
    have hlen := congrArg List.length h.complete
    rw [length_map, length_map] at hlen
    have hfits : RunFits l inode dir dir.dents 0 bufs := by
      by_contra hfits
      have hlt := (length_records_pages l inode hdes hbufs 0).2 hfits
      rw [drop_zero, length_dents] at hlt
      omega
    have hfound := (map_records_pages hdes hbufs hfits hlast).symm.trans h.complete
    have hdents : dir.dents = dir.entries := by
      refine map_injective_iff.2 ?_ hfound
      rintro ⟨name, t⟩ ⟨name', t'⟩ heq
      obtain ⟨hname, htype⟩ := Prod.mk.inj heq
      exact congrArg₂ DirEntry.mk hname (dType_injective htype)
    exact ⟨hdents, hdents ▸ hfits⟩
  · rintro ⟨hdents, hfits⟩
    have hfits' : RunFits l inode dir dir.dents 0 bufs := by rw [hdents]; exact hfits
    refine ⟨?_, wellPlaced_pages hdes hbufs 0⟩
    rw [map_records_pages hdes hbufs hfits' hlast, hdents, drop_zero]

/-- Two entries in pages of one record each, with a buffer that is too small before. -/
theorem pagingOk_two_entries :
    PagingOk .linuxDirent ⟨['/'], [⟨[97], .regular⟩, ⟨[98, 99], .directory⟩]⟩
      (pages .linuxDirent (fun _ _ => 0) ⟨['/'], [⟨[97], .regular⟩, ⟨[98, 99], .directory⟩]⟩ 0
        [List.replicate 16 0, List.replicate 40 0, List.replicate 24 0, List.replicate 16 0]) := by
  refine (pagingOk_iff _ _ _ (by simp [NameOk]) _ (by simp) (by decide +kernel)).2
    ⟨dents_eq_iff.1 (dents_eq (by decide)), runFits_of_small (by simp) _ _⟩

/-- A directory with the given number of entries, all of one byte. -/
def sameDir (n : Nat) : OpenDir := ⟨['/'], List.replicate n ⟨[97], .regular⟩⟩

theorem sizes_sameDir
    (h : ∀ de ∈ des, de ∈ (sameDir n).entries) : sizes .linuxDirent des = 24 * des.length := by
  induction des with
  | nil => rfl
  | cons de des ih =>
    have hde := eq_of_mem_replicate (h de mem_cons_self)
    rw [sizes_cons, ih fun de' hmem => h de' (mem_cons_of_mem de hmem), length_cons, hde,
      show Layout.totalSize .linuxDirent ⟨[97], .regular⟩ = 24 from by decide]
    omega

/-- A directory whose records have `2 ^ 31` bytes, but not without the last one, in one page: the
page is returned as a negative number, and the next call returns 0. -/
theorem pages_sameDir (hn : 2 ^ 31 ≤ 24 * n) (hn' : 24 * n < 2 ^ 31 + 24)
    (hfit : 24 * n ≤ buf.length) (hbuf : buf.length < 2 ^ 32) :
    (pages .linuxDirent inode (sameDir n) 0 [buf, buf]).getLast?.map Page.ret = some (.ok 0) ∧
      ¬ PagingOk .linuxDirent (sameDir n) (pages .linuxDirent inode (sameDir n) 0 [buf, buf]) := by
  have hlen : (sameDir n).entries.length = n := length_replicate
  have hdes : ∀ de ∈ (sameDir n).entries, NameOk de := by
    intro de hde
    rw [eq_of_mem_replicate hde]
    exact ⟨by decide, by decide, by decide⟩
  have hdents : (sameDir n).dents = (sameDir n).entries := dents_eq (by omega)
  obtain ⟨taken, h⟩ := exists_taken .linuxDirent inode hdes hbuf 0
  have hmem : ∀ de ∈ taken, de ∈ (sameDir n).entries := fun de hde =>
    hdents ▸ mem_of_mem_drop (h.drop_pos ▸ mem_append_left _ hde)
  have hall : sizes .linuxDirent (sameDir n).entries = 24 * n := by
    rw [sizes_sameDir fun _ hde => hde, hlen]
  -- all entries fit the buffer, and their records are too large to be returned
  have hover : ¬ PageFits .linuxDirent (sameDir n).dents 0 buf.length := by
    intro hfits
    have hn := hfits n
    rw [drop_zero, hdents, take_of_length_le (by omega), hall] at hn
    have := hn hfit
    omega
  have hlarge : ¬ sizes .linuxDirent taken < 2 ^ 31 := fun hsmall => hover (h.fits.2 hsmall)
  rw [sizes_sameDir hmem] at hlarge
  constructor
  · rw [pages, pages, pages, getLast?_cons_cons, getLast?_singleton, Option.map_some,
      getdents, if_pos (by rw [h.posEq, hlen]; omega)]
  · intro hok
    have hcomplete := congrArg List.length hok.complete
    rw [length_map, length_map] at hcomplete
    have hbufs : ∀ b ∈ [buf, buf], b.length < 2 ^ 32 := by
      intro b hb
      rw [show b = buf by simpa using hb]
      exact hbuf
    have hlt := (length_records_pages .linuxDirent inode hdes hbufs 0).2
      fun hfits => hover hfits.1
    rw [drop_zero, length_dents] at hlt
    omega

/-- A page of 89478486 records, which is `2 ^ 31 + 16` bytes, is lost. -/
theorem getdents_loses_page :
    (pages .linuxDirent (fun _ _ => 0) (sameDir 89478486) 0
        [List.replicate 4294967295 0, List.replicate 4294967295 0]).getLast?.map Page.ret =
        some (.ok 0) ∧
      ¬ PagingOk .linuxDirent (sameDir 89478486) (pages .linuxDirent (fun _ _ => 0)
        (sameDir 89478486) 0 [List.replicate 4294967295 0, List.replicate 4294967295 0]) :=
  pages_sameDir (by decide) (by decide) (by rw [length_replicate]; decide)
    (by rw [length_replicate]; decide)

end GekkoFS.OpenDirs
