import GekkoFS.Client.Namespace
import GekkoFS.Lib.Columns

/-!
# Directory entries on the wire

A daemon packs the entries of a directory into a buffer by fields: first the flags of all entries,
in the extended form then the sizes and the times, and at last the names, each with a NUL. It pushes
the buffer into memory that the client has exposed, and the client takes it apart with a pointer for
each field. In the plain form all daemons push into one receive buffer of the client, each into a
part of its own.

`direntsSurvive` says that what the client decodes is what the daemons listed, for all lists, any
number of daemons and any order in which they push, and that a daemon whose entries do not fit
writes nothing and answers with an error. `rpcSrvGetDirents_eq` connects the handler with
`GekkoFS.rpcSrvGetDirents`, which hands over the entries themselves.
-/

namespace GekkoFS.Wire

open Bytes List

/-! ## The daemon -/

/-- The fields of an entry. -/
inductive DirentField
  | isDir
  | size
  | ctime
  | name
  deriving DecidableEq

/-- Source: `rpc_get_dirents_out_t` (`rpc_types.hpp:110`). -/
structure DirentsOut where
  err : Int
  direntsSize : Nat
  deriving DecidableEq

/-- The entry of a plain listing, with its name in bytes. -/
abbrev Dirent := List UInt8 × Bool

/-- The entry of an extended listing: its name, whether it is a directory, its size and its time. -/
abbrev DirentExtended := List UInt8 × Bool × UInt64 × Int64

/-- What the two handlers differ in: the fields they pack with what they write for an entry, by how
much the pointers move on, where the pointers start, and the size of an entry apart from its
name. -/
structure DirentsForm (ε : Type) where
  fields : List DirentField
  cell : ε → DirentField → List UInt8
  step : ε → DirentField → Nat
  start : Nat → DirentField → Nat
  name : ε → List UInt8
  entrySize : Nat

/-- A string up to its first NUL, as `strcpy` and the constructor of `std::string` read it. -/
def cString (s : List UInt8) : List UInt8 := s.takeWhile (· ≠ 0)

/-- Source: the loop of `rpc_srv_get_dirents` (`srv_metadata.cpp:629`). -/
def plainForm : DirentsForm Dirent where
  fields := [.isDir, .name]
  cell
    | e, .isDir => [if e.2 then 1 else 0]
    | e, .name => cString e.1 ++ [0]
    | _, _ => []
  step
    | _, .isDir => 1
    | e, .name => e.1.length + 1
    | _, _ => 0
  start
    | n, .name => n
    | _, _ => 0
  name := Prod.fst
  entrySize := 1 + 1

/-- Source: the loop of `rpc_srv_get_dirents_extended` (`srv_metadata.cpp:798`). -/
def extendedForm : DirentsForm DirentExtended where
  fields := [.isDir, .size, .ctime, .name]
  cell
    | e, .isDir => [if e.2.1 then 1 else 0]
    | e, .size => leBytes 8 e.2.2.1.toNat
    | e, .ctime => leBytes 8 e.2.2.2.toUInt64.toNat
    | e, .name => cString e.1 ++ [0]
  step
    | _, .isDir => 1
    | _, .size => 8
    | _, .ctime => 8
    | e, .name => e.1.length + 1
  start
    | _, .isDir => 0
    | n, .size => n * 1
    | n, .ctime => n * (1 + 8)
    | n, .name => n * (1 + 8 + 8)
  name := Prod.fst
  entrySize := 1 + 1 + 8 + 8

section
variable {ε : Type} (form : DirentsForm ε)

/-- The size of the packed entries. The names are strings in the memory of the daemon, so it does
not overflow. -/
def DirentsForm.outSize (entries : List ε) : Nat :=
  (entries.map fun e => (form.name e).length).sum + entries.length * form.entrySize

/-- The buffer of the daemon, which has any contents (`fresh`) before the loop. -/
def DirentsForm.pack (fresh : Nat → UInt8) (entries : List ε) : List UInt8 :=
  writeRows form.cell form.step form.fields entries (form.start entries.length)
    ((List.range (form.outSize entries)).map fresh)

/-- What a handler answers for a listing of the backend, and the memory of the client after its push
into the `bulkSize` bytes from `off` on. Every transfer succeeds. -/
def DirentsForm.serve (fresh : Nat → UInt8) (listed : Except DBException (List ε))
    (off bulkSize : Nat) (buf : List UInt8) : DirentsOut × List UInt8 :=
  match listed with
  | .error _ => (⟨ EIO, 0⟩, buf)
  | .ok entries =>
    if entries.isEmpty then (⟨0, 0⟩, buf)
    else if bulkSize < form.outSize entries then (⟨ENOBUFS, 0⟩, buf)
    else (⟨0, entries.length⟩, splice buf off (form.pack fresh entries))

end

/-- Source: `rpc_srv_get_dirents` (`srv_metadata.cpp:535`). -/
def rpcSrvGetDirents := plainForm.serve

/-- Source: `rpc_srv_get_dirents_extended` (`srv_metadata.cpp:694`). -/
def rpcSrvGetDirentsExtended := extendedForm.serve

/-! ## The client -/

/-- The loop over the entries of a daemon, with the pointers to the flags and the names. Source:
`forward_get_dirents` (`client/rpc/forward_metadata.cpp:746`). -/
def decodeDirents (buf : List UInt8) : Nat → Nat → Nat → List Dirent
  | 0, _, _ => []
  | j + 1, boolPtr, namesPtr =>
    let name := cString (buf.drop namesPtr)
    (name, buf.getD boolPtr 0 ≠ 0) :: decodeDirents buf j (boolPtr + 1) (namesPtr + name.length + 1)

/-- The loop over the entries in the extended form. Source: `forward_get_dirents_single`
(`client/rpc/forward_metadata.cpp:888`). -/
def decodeDirentsExtended (buf : List UInt8) : Nat → Nat → Nat → Nat → Nat → List DirentExtended
  | 0, _, _, _, _ => []
  | j + 1, boolPtr, sizePtr, ctimePtr, namesPtr =>
    let name := cString (buf.drop namesPtr)
    (name, buf.getD boolPtr 0 ≠ 0, UInt64.ofNat (ofLeBytes (slice buf sizePtr 8)),
        (UInt64.ofNat (ofLeBytes (slice buf ctimePtr 8))).toInt64) ::
      decodeDirentsExtended buf j (boolPtr + 1) (sizePtr + 8) (ctimePtr + 8)
        (namesPtr + name.length + 1)

section
variable {n : Nat} (listed : Fin n → Except DBException (List Dirent)) (fresh : Fin n → Nat → UInt8)

/-- Source: `per_host_buff_size` (`client/rpc/forward_metadata.cpp:657`). -/
def perHostBuffSize (n : Nat) : Nat := direntsBuffSize / n

/-- The request to a daemon, which gets its own part of the receive buffer. -/
def serveHost (host : Fin n) (largeBuffer : List UInt8) : DirentsOut × List UInt8 :=
  rpcSrvGetDirents (fresh host) (listed host) (host * perHostBuffSize n) (perHostBuffSize n)
    largeBuffer

/-- The receive buffer after the daemons of a list have served their requests, in this order. -/
def receiveBuffer (largeBuffer : List UInt8) (served : List (Fin n)) : List UInt8 :=
  served.foldl (fun buf host => (serveHost listed fresh host buf).2) largeBuffer

/-- The client takes the answer of a daemon, with the error and the entries it has so far. When it
comes to this answer, the daemons `served host` have pushed their entries. Source: the loop over the
answers in `forward_get_dirents` (`client/rpc/forward_metadata.cpp:708`). -/
def takeAnswer (largeBuffer : List UInt8) (served : Fin n → List (Fin n))
    (r : Int × List Dirent) (host : Fin n) : Int × List Dirent :=
  let out := (serveHost listed fresh host largeBuffer).1
  if out.err ≠ 0 then (out.err, r.2)
  else
    let basePtr := host * perHostBuffSize n
    (r.1, r.2 ++ decodeDirents (receiveBuffer listed fresh largeBuffer (served host))
      out.direntsSize basePtr (basePtr + out.direntsSize * 1))

/-- The answers are taken in the order of the daemons. Every request is delivered. Source:
`forward_get_dirents` (`client/rpc/forward_metadata.cpp:636`). -/
def forwardGetDirents (largeBuffer : List UInt8) (served : Fin n → List (Fin n)) :
    Int × List Dirent :=
  (List.finRange n).foldl (takeAnswer listed fresh largeBuffer served) (0, [])

end

/-- What the client makes of the answer to an extended listing. -/
def decodeAnswer (r : DirentsOut × List UInt8) : Int × List DirentExtended :=
  let size := r.1.direntsSize
  (r.1.err, decodeDirentsExtended r.2 size 0 (size * 1) (size * (1 + 8)) (size * (1 + 8 + 8)))

/-- Source: `forward_get_dirents_single` (`client/rpc/forward_metadata.cpp:787`). -/
def forwardGetDirentsSingle (listed : Except DBException (List DirentExtended))
    (fresh : Nat → UInt8) (largeBuffer : List UInt8) : Int × List DirentExtended :=
  decodeAnswer (rpcSrvGetDirentsExtended fresh listed 0 direntsBuffSize largeBuffer)

/-! ## The proxy -/

/-- Source: `dirents_buff_size_proxy` (`config.hpp:153`). -/
def direntsBuffSizeProxy : Nat := 128 * 1024 * 1024

/-- The proxy lets the daemon push into a buffer of its own, with any contents (`proxyFresh`), as
large as that of the client, and pushes all of it on. Source: `proxy_rpc_srv_get_dirents_extended`
(`proxy/rpc/srv_metadata.cpp:186`) with `forward_get_dirents_single`
(`proxy/rpc/forward_metadata.cpp:401`). -/
def proxyRpcSrvGetDirentsExtended (listed : Except DBException (List DirentExtended))
    (fresh proxyFresh : Nat → UInt8) (bulkSize : Nat) (buf : List UInt8) :
    DirentsOut × List UInt8 :=
  let r := rpcSrvGetDirentsExtended fresh listed 0 bulkSize ((List.range bulkSize).map proxyFresh)
  if r.1.err ≠ 0 then (⟨r.1.err, 0⟩, buf)
  else (⟨r.1.err, r.1.direntsSize⟩, splice buf 0 r.2)

/-- Source: `forward_get_dirents_single_proxy` (`forward_metadata_proxy.cpp:194`). -/
def forwardGetDirentsSingleProxy (listed : Except DBException (List DirentExtended))
    (fresh proxyFresh : Nat → UInt8) (largeBuffer : List UInt8) : Int × List DirentExtended :=
  decodeAnswer (proxyRpcSrvGetDirentsExtended listed fresh proxyFresh direntsBuffSizeProxy
    largeBuffer)

/-! ## What is packed -/

/-- The names of the entries are not empty and have no NUL. -/
def NamesOk {ε : Type} (form : DirentsForm ε) (entries : List ε) : Prop :=
  ∀ e ∈ entries, form.name e ≠ [] ∧ 0 ∉ form.name e

instance {ε : Type} (form : DirentsForm ε) (entries : List ε) : Decidable (NamesOk form entries) :=
  inferInstanceAs (Decidable (∀ e ∈ entries, _))

variable {name rest buf : List UInt8} {entries : List DirentExtended} {ptr : Nat}

theorem cString_append (h : 0 ∉ name) :
    cString (name ++ 0 :: rest) = name := by
  rw [cString, takeWhile_append_of_pos, takeWhile_cons_of_neg (by simp),
    append_nil]
  intro b hb
  exact decide_eq_true fun hzero => h (hzero ▸ hb)

theorem cString_eq_self (h : 0 ∉ name) : cString name = name :=
  takeWhile_eq_self_iff.2 fun _ hb => decide_eq_true fun hzero => h (hzero ▸ hb)

section
variable {ε : Type} {form : DirentsForm ε} {entries : List ε}

/-- The columns of a form fill the buffer one after another. -/
structure DirentsForm.Packs (form : DirentsForm ε) (entries : List ε) : Prop where
  steps : Steps form.cell form.step form.fields entries
  nodup : form.fields.Nodup
  apart : ColumnsApart form.cell form.fields entries (form.start entries.length)
  fits : ∀ k ∈ form.fields, form.start entries.length k + (column form.cell entries k).length ≤
    form.outSize entries

/-- The packed entries have every field in one piece. -/
theorem DirentsForm.Packs.holds (h : form.Packs entries) (fresh : Nat → UInt8) :
    (form.pack fresh entries).length = form.outSize entries ∧
      ∀ k ∈ form.fields, Holds (form.pack fresh entries) (form.start entries.length k)
        (column form.cell entries k) := by
  have hlength : ((List.range (form.outSize entries)).map fresh).length = form.outSize entries := by
    rw [length_map, length_range]
  have hpack := holds_writeRows h.steps h.nodup h.apart (hlength.symm ▸ h.fits)
  exact ⟨hpack.1.trans hlength, hpack.2⟩

/-- A column of cells of one size. -/
theorem column_length_const {k : DirentField} {w : Nat} (h : ∀ e, (form.cell e k).length = w) :
    (column form.cell entries k).length = entries.length * w := by
  induction entries with
  | nil => rw [length_nil, Nat.zero_mul]; rfl
  | cons e entries ih =>
    rw [column_cons, length_append, ih, h, length_cons, Nat.succ_mul, Nat.add_comm]

/-- The column of the names. -/
theorem column_length_name
    (h : ∀ e ∈ entries, (form.cell e .name).length = (form.name e).length + 1) :
    (column form.cell entries .name).length =
      (entries.map fun e => (form.name e).length).sum + entries.length := by
  induction entries with
  | nil => rfl
  | cons e entries ih =>
    have he := h e mem_cons_self
    have ih := ih fun e' he' => h e' (mem_cons_of_mem _ he')
    rw [column_cons, length_append, ih, he, map_cons, sum_cons, length_cons]
    omega

end

/-- The name of an entry with its NUL. -/
theorem length_cString_append (h : 0 ∉ name) :
    (cString name ++ [0]).length = name.length + 1 := by
  rw [cString_eq_self h, length_append]
  rfl

/-- Where the fields of the plain form start, and what they take. -/
theorem plainForm_sizes (entries : List Dirent) :
    plainForm.start entries.length .isDir = 0 ∧
      plainForm.start entries.length .name = entries.length ∧
      plainForm.outSize entries =
        (entries.map fun e => (plainForm.name e).length).sum + entries.length * 2 :=
  ⟨rfl, rfl, rfl⟩

/-- Where the fields of the extended form start, and what they take. -/
theorem extendedForm_sizes (entries : List DirentExtended) :
    extendedForm.start entries.length .isDir = 0 ∧
      extendedForm.start entries.length .size = entries.length * 1 ∧
      extendedForm.start entries.length .ctime = entries.length * 9 ∧
      extendedForm.start entries.length .name = entries.length * 17 ∧
      extendedForm.outSize entries =
        (entries.map fun e => (extendedForm.name e).length).sum + entries.length * 18 :=
  ⟨rfl, rfl, rfl, rfl, rfl⟩

/-- Plain entries fill their columns. -/
theorem plainForm_packs {entries : List Dirent} (h : NamesOk plainForm entries) :
    plainForm.Packs entries := by
  have hname : ∀ e ∈ entries, (plainForm.cell e .name).length = (plainForm.name e).length + 1 :=
    fun e he => length_cString_append (h e he).2
  have hnames := column_length_name hname
  have hflags : (column plainForm.cell entries .isDir).length = entries.length * 1 :=
    column_length_const fun _ => rfl
  have hcases : ∀ k ∈ plainForm.fields, k = .isDir ∨ k = .name := fun k hk => by
    simpa [plainForm] using hk
  refine ⟨fun e he k hk => ?_, by decide, fun k hk k' hk' hne => ?_, fun k hk => ?_⟩
  · rcases hcases k hk with rfl | rfl
    · rfl
    · exact (hname e he).symm
  · rcases hcases k hk with rfl | rfl <;> rcases hcases k' hk' with rfl | rfl
    · exact absurd rfl hne
    · exact .inl (by simp only [hflags, plainForm_sizes]; omega)
    · exact .inr (by simp only [hflags, plainForm_sizes]; omega)
    · exact absurd rfl hne
  · rcases hcases k hk with rfl | rfl
    · simp only [hflags, plainForm_sizes]; omega
    · simp only [hnames, plainForm_sizes]; omega

/-- Extended entries fill their columns. -/
theorem extendedForm_packs (h : NamesOk extendedForm entries) :
    extendedForm.Packs entries := by
  have hname : ∀ e ∈ entries,
      (extendedForm.cell e .name).length = (extendedForm.name e).length + 1 :=
    fun e he => length_cString_append (h e he).2
  have hnames := column_length_name hname
  have hflags : (column extendedForm.cell entries .isDir).length = entries.length * 1 :=
    column_length_const fun _ => rfl
  have hsizes : (column extendedForm.cell entries .size).length = entries.length * 8 :=
    column_length_const fun _ => leBytes_length ..
  have htimes : (column extendedForm.cell entries .ctime).length = entries.length * 8 :=
    column_length_const fun _ => leBytes_length ..
  refine ⟨fun e he k hk => ?_, by decide, fun k hk k' hk' hne => ?_, fun k hk => ?_⟩
  · cases k with
    | isDir => rfl
    | size => exact (leBytes_length ..).symm
    | ctime => exact (leBytes_length ..).symm
    | name => exact (hname e he).symm
  · rw [Apart]
    cases k <;> cases k' <;>
      simp only [hflags, hsizes, htimes, hnames, extendedForm_sizes, ne_eq,
        not_true_eq_false] at hne ⊢ <;>
      omega
  · cases k <;> simp only [hflags, hsizes, htimes, hnames, extendedForm_sizes] <;> omega

/-! ## What is decoded -/

/-- The client reads the flags of a column. -/
theorem getD_of_holds {b : UInt8}
    (h : Holds buf ptr (b :: rest)) : buf.getD ptr 0 = b := by
  obtain ⟨t, ht⟩ := h
  have hget : (buf.drop ptr)[0]? = some b := by rw [← ht]; rfl
  rw [getElem?_drop, Nat.add_zero] at hget
  rw [getD_eq_getElem?_getD, hget, Option.getD_some]

/-- The client reads a name up to its NUL. -/
theorem cString_of_holds (h : 0 ∉ name)
    (hbuf : Holds buf ptr (cString name ++ [0] ++ rest)) : cString (buf.drop ptr) = name := by
  obtain ⟨t, ht⟩ := hbuf
  rw [← ht, cString_eq_self h, append_assoc, append_assoc, singleton_append,
    cString_append h]

/-- The client decodes what a buffer has in its columns. -/
theorem decodeDirents_of_holds {entries : List Dirent}
    (h : NamesOk plainForm entries) {boolPtr namesPtr : Nat}
    (hflags : Holds buf boolPtr (column plainForm.cell entries .isDir))
    (hnames : Holds buf namesPtr (column plainForm.cell entries .name)) :
    decodeDirents buf entries.length boolPtr namesPtr = entries := by
  induction entries generalizing boolPtr namesPtr with
  | nil => rfl
  | cons e entries ih =>
    have hnul : 0 ∉ e.1 := (h e mem_cons_self).2
    rw [column_cons] at hflags hnames
    have hname := cString_of_holds hnul hnames
    have hflag := getD_of_holds hflags
    have hrest := ih (fun e' he' => h e' (mem_cons_of_mem _ he')) (holds_append.1 hflags).2
      (holds_append.1 hnames).2
    have hstep : (plainForm.cell e .name).length = e.1.length + 1 := length_cString_append hnul
    rw [hstep] at hrest
    rw [length_cons, decodeDirents, hname, hflag]
    refine congrArg₂ List.cons (Prod.ext rfl ?_) hrest
    cases e.2 <;> rfl

/-- A number that was written into a column. -/
theorem ofNat_ofLeBytes_of_holds {v : UInt64}
    (h : Holds buf ptr (leBytes 8 v.toNat ++ rest)) :
    UInt64.ofNat (ofLeBytes (slice buf ptr 8)) = v := by
  have hlt : v.toNat < 256 ^ 8 := v.toNat_lt
  rw [(holds_append.1 h).1.slice_eq (leBytes_length ..), ofLeBytes_leBytes, Nat.mod_eq_of_lt hlt,
    UInt64.ofNat_toNat]

theorem decodeDirentsExtended_of_holds
    (h : NamesOk extendedForm entries) {boolPtr sizePtr ctimePtr namesPtr : Nat}
    (hflags : Holds buf boolPtr (column extendedForm.cell entries .isDir))
    (hsizes : Holds buf sizePtr (column extendedForm.cell entries .size))
    (htimes : Holds buf ctimePtr (column extendedForm.cell entries .ctime))
    (hnames : Holds buf namesPtr (column extendedForm.cell entries .name)) :
    decodeDirentsExtended buf entries.length boolPtr sizePtr ctimePtr namesPtr = entries := by
  induction entries generalizing boolPtr sizePtr ctimePtr namesPtr with
  | nil => rfl
  | cons e entries ih =>
    have hnul : 0 ∉ e.1 := (h e mem_cons_self).2
    rw [column_cons] at hflags hsizes htimes hnames
    have hname := cString_of_holds hnul hnames
    have hflag := getD_of_holds hflags
    have hsize := ofNat_ofLeBytes_of_holds hsizes
    have htime := ofNat_ofLeBytes_of_holds htimes
    have hrest := ih (fun e' he' => h e' (mem_cons_of_mem _ he')) (holds_append.1 hflags).2
      (holds_append.1 hsizes).2 (holds_append.1 htimes).2 (holds_append.1 hnames).2
    have hstep : (extendedForm.cell e .name).length = e.1.length + 1 := length_cString_append hnul
    have hwidth : (extendedForm.cell e .size).length = 8 := leBytes_length ..
    have hwidth' : (extendedForm.cell e .ctime).length = 8 := leBytes_length ..
    rw [hstep, hwidth, hwidth'] at hrest
    rw [length_cons, decodeDirentsExtended, hname, hflag, hsize, htime]
    refine congrArg₂ List.cons (Prod.ext rfl (Prod.ext ?_ (Prod.ext rfl ?_))) hrest
    · cases e.2.1 <;> rfl
    · exact Int64.toInt64_toUInt64 _

/-! ## One daemon -/

section
variable {ε : Type} {form : DirentsForm ε} {entries : List ε}

/-- A handler packs the entries if they fit, also if there are none. -/
theorem serve_ok (fresh : Nat → UInt8) (off bulkSize : Nat) (buf : List UInt8) :
    form.serve fresh (.ok entries) off bulkSize buf =
      if bulkSize < form.outSize entries then (⟨ENOBUFS, 0⟩, buf)
      else (⟨0, entries.length⟩, splice buf off (form.pack fresh entries)) := by
  rw [DirentsForm.serve]
  cases entries with
  | nil =>
    have hsize : form.outSize [] = 0 := by simp [DirentsForm.outSize]
    have hpack : form.pack fresh [] = [] := by
      rw [DirentsForm.pack, hsize]
      rfl
    rw [if_neg (by omega : ¬ bulkSize < form.outSize []), hpack, splice_nil]
    rfl
  | cons e entries => rfl

/-- What the client's memory has after a push. -/
theorem DirentsForm.Packs.holds_of_slice (h : form.Packs entries) {fresh : Nat → UInt8}
    {buf : List UInt8} {off : Nat} (hbuf : Holds buf off (form.pack fresh entries))
    {k : DirentField} (hk : k ∈ form.fields) :
    Holds buf (off + form.start entries.length k) (column form.cell entries k) :=
  hbuf.trans ((h.holds fresh).2 k hk)

end

/-- The entry of a listing of the backend with the bytes of its name. -/
def toDirent (e : List Char × Bool) : Dirent := (e.1.map fun c => UInt8.ofNat c.toNat, e.2)

/-- The handler answers as `GekkoFS.rpcSrvGetDirents`, and pushes the entries that it hands over. -/
theorem rpcSrvGetDirents_eq (cfg : MetadataConfig) (st : MetadataDaemon) (path : List Char)
    (bulkSize : Nat) (fresh : Nat → UInt8) (off : Nat) (buf : List UInt8) :
    rpcSrvGetDirents fresh ((st.getDirentsImpl cfg (direntsRoot path)).1.map (List.map toDirent))
        off bulkSize buf =
      (⟨(GekkoFS.rpcSrvGetDirents cfg st path bulkSize).1.1,
          (GekkoFS.rpcSrvGetDirents cfg st path bulkSize).1.2.length⟩,
        splice buf off (plainForm.pack fresh
          ((GekkoFS.rpcSrvGetDirents cfg st path bulkSize).1.2.map toDirent))) := by
  have hnil : splice buf off (plainForm.pack fresh (List.map toDirent [])) = buf :=
    splice_nil buf off
  rw [GekkoFS.rpcSrvGetDirents, rpcSrvGetDirents]
  obtain ⟨listed, st'⟩ := st.getDirentsImpl cfg (direntsRoot path)
  cases listed with
  | error e => exact (congrArg (Prod.mk _) hnil).symm
  | ok entries =>
    have hsize : plainForm.outSize (entries.map toDirent) =
        (entries.map fun e => e.1.length).sum + entries.length * 2 := by
      simp [DirentsForm.outSize, plainForm, toDirent, Function.comp_def]
    rw [Except.map, serve_ok, hsize, length_map]
    dsimp only
    by_cases hempty : entries = []
    · subst hempty
      exact (if_neg (Nat.not_lt_zero _)).trans rfl
    · rw [if_neg hempty]
      split
      · exact (congrArg (Prod.mk _) hnil).symm
      · rfl

/-! ## All daemons -/

section
variable {n : Nat} {listed : Fin n → List Dirent} {fresh : Fin n → Nat → UInt8} {host : Fin n}
  {served : List (Fin n)}

/-- The entries of a daemon fit into its part of the receive buffer. -/
def Fits (listed : Fin n → List Dirent) (host : Fin n) : Prop :=
  plainForm.outSize (listed host) ≤ perHostBuffSize n

instance (listed : Fin n → List Dirent) (host : Fin n) : Decidable (Fits listed host) :=
  inferInstanceAs (Decidable (_ ≤ _))

/-- What a daemon pushes. -/
theorem serveHost_eq (host : Fin n) (buf : List UInt8) :
    serveHost (fun host => .ok (listed host)) fresh host buf =
      if Fits listed host then
        (⟨0, (listed host).length⟩,
          splice buf (host * perHostBuffSize n) (plainForm.pack (fresh host) (listed host)))
      else (⟨ENOBUFS, 0⟩, buf) := by
  rw [serveHost, rpcSrvGetDirents, serve_ok]
  by_cases hfits : Fits listed host
  · rw [if_neg (Nat.not_lt.2 hfits), if_pos hfits]
  · rw [if_pos (Nat.not_le.1 hfits), if_neg hfits]

/-- The pieces that the daemons push. -/
def pushes (listed : Fin n → List Dirent) (fresh : Fin n → Nat → UInt8) (served : List (Fin n)) :
    List (Nat × List UInt8) :=
  (served.filter fun host => Fits listed host).map fun host : Fin n =>
    (host.val * perHostBuffSize n, plainForm.pack (fresh host) (listed host))

/-- The buffer after all pushes. -/
theorem receiveBuffer_eq (buf : List UInt8) (served : List (Fin n)) :
    receiveBuffer (fun host => .ok (listed host)) fresh buf served =
      spliceAll buf (pushes listed fresh served) := by
  induction served generalizing buf with
  | nil => rfl
  | cons host served ih =>
    have hstep : receiveBuffer (fun host => .ok (listed host)) fresh buf (host :: served) =
        receiveBuffer (fun host => .ok (listed host)) fresh
          (serveHost (fun host => .ok (listed host)) fresh host buf).2 served := rfl
    rw [hstep, ih, serveHost_eq]
    by_cases hfits : Fits listed host
    · simp only [pushes, if_pos hfits, filter_cons, decide_eq_true hfits, if_true,
        map_cons, spliceAll_cons]
    · simp only [pushes, if_neg hfits, filter_cons, decide_eq_false hfits, Bool.false_eq_true,
        if_false]

/-- What a daemon pushes stays in its part of the receive buffer. -/
theorem pushed_le (hnames : ∀ host, NamesOk plainForm (listed host))
    (hfits : Fits listed host) (fresh : Fin n → Nat → UInt8) :
    (plainForm.pack (fresh host) (listed host)).length ≤ perHostBuffSize n := by
  rw [((plainForm_packs (hnames host)).holds (fresh host)).1]
  exact hfits

theorem mem_pushes (hnames : ∀ host, NamesOk plainForm (listed host))
    {p : Nat × List UInt8} (hp : p ∈ pushes listed fresh served) :
    ∃ host ∈ served, Fits listed host ∧
      p = (host * perHostBuffSize n, plainForm.pack (fresh host) (listed host)) ∧
      p.2.length ≤ perHostBuffSize n := by
  obtain ⟨host, hhost, rfl⟩ := mem_map.1 hp
  obtain ⟨hmem, hfits⟩ := mem_filter.1 hhost
  have hfits := of_decide_eq_true hfits
  exact ⟨host, hmem, hfits, rfl, pushed_le hnames hfits fresh⟩

/-- The parts of the receive buffer lie in it, one after another. -/
theorem part_le (host : Fin n) :
    host * perHostBuffSize n + perHostBuffSize n ≤ direntsBuffSize := by
  have hmul : (host + 1) * perHostBuffSize n ≤ n * perHostBuffSize n :=
    Nat.mul_le_mul_right _ host.isLt
  have hdiv : n * perHostBuffSize n ≤ direntsBuffSize := Nat.mul_div_le _ _
  rw [Nat.succ_mul] at hmul
  omega

/-- The parts of two daemons do not meet. -/
theorem parts_apart {host' : Fin n} (h : host ≠ host') :
    host * perHostBuffSize n + perHostBuffSize n ≤ host' * perHostBuffSize n ∨
      host' * perHostBuffSize n + perHostBuffSize n ≤ host * perHostBuffSize n := by
  rcases Nat.lt_or_gt_of_ne (fun heq => h (Fin.ext heq)) with hlt | hlt
  · have := Nat.mul_le_mul_right (perHostBuffSize n) (Nat.succ_le_of_lt hlt)
    rw [Nat.succ_mul] at this
    exact .inl this
  · have := Nat.mul_le_mul_right (perHostBuffSize n) (Nat.succ_le_of_lt hlt)
    rw [Nat.succ_mul] at this
    exact .inr this

variable (hnames : ∀ host, NamesOk plainForm (listed host)) {buf : List UInt8}
  (hbuf : buf.length = direntsBuffSize)

include hnames hbuf

theorem pushes_le (served : List (Fin n)) :
    ∀ p ∈ pushes listed fresh served, p.1 + p.2.length ≤ buf.length := by
  intro p hp
  obtain ⟨host, -, -, rfl, hlength⟩ := mem_pushes hnames hp
  have hpart := part_le host
  dsimp only at hlength ⊢
  omega

/-- A daemon that has pushed its entries has left them in its part, whatever others have pushed. -/
theorem holds_receiveBuffer (hnodup : served.Nodup)
    (hserved : host ∈ served) (hfits : Fits listed host) :
    Holds (receiveBuffer (fun host => .ok (listed host)) fresh buf served)
      (host * perHostBuffSize n) (plainForm.pack (fresh host) (listed host)) := by
  have hapart : (pushes listed fresh served).Pairwise Apart := by
    refine pairwise_map.2 ((hnodup.filter _).imp_of_mem fun {i j} hi hj hne => ?_)
    have hpart := parts_apart hne
    have hlength := pushed_le hnames (of_decide_eq_true (mem_filter.1 hi).2) fresh
    have hlength' := pushed_le hnames (of_decide_eq_true (mem_filter.1 hj).2) fresh
    rw [Apart]
    dsimp only
    omega
  rw [receiveBuffer_eq]
  have hmem : (host.val * perHostBuffSize n, plainForm.pack (fresh host) (listed host)) ∈
      pushes listed fresh served :=
    mem_map.2 ⟨host, mem_filter.2 ⟨hserved, decide_eq_true hfits⟩, rfl⟩
  exact holds_iff_slice.2 (slice_spliceAll (pushes_le hnames hbuf served) hapart hmem)

/-- A daemon whose entries do not fit writes nothing. -/
theorem slice_receiveBuffer (hfits : ¬ Fits listed host) (served : List (Fin n)) :
    slice (receiveBuffer (fun host => .ok (listed host)) fresh buf served)
      (host * perHostBuffSize n) (perHostBuffSize n) =
      slice buf (host * perHostBuffSize n) (perHostBuffSize n) := by
  apply ext_getElem?
  intro i
  rw [slice_getElem?, slice_getElem?, receiveBuffer_eq]
  split
  · next hi =>
    refine spliceAll_getElem?_of_forall_not_mem (pushes_le hnames hbuf served) fun p hp => ?_
    obtain ⟨host', -, hfits', rfl, hlength⟩ := mem_pushes hnames hp
    have hne : host ≠ host' := fun heq => hfits (heq ▸ hfits')
    have hapart := parts_apart hne
    dsimp only at hlength ⊢
    omega
  · rfl

/-- What the client decodes of the part of a daemon. -/
theorem decodeDirents_receiveBuffer (hnodup : served.Nodup)
    (hserved : host ∈ served) (hfits : Fits listed host) :
    decodeDirents (receiveBuffer (fun host => .ok (listed host)) fresh buf served)
      (listed host).length (host * perHostBuffSize n)
      (host * perHostBuffSize n + (listed host).length * 1) = listed host := by
  have hpacks := plainForm_packs (hnames host)
  have hholds : Holds _ _ (plainForm.pack (fresh host) (listed host)) :=
    holds_receiveBuffer hnames hbuf hnodup hserved hfits
  have hflags := hpacks.holds_of_slice hholds (k := .isDir) (by decide)
  have hnames' := hpacks.holds_of_slice hholds (k := .name) (by decide)
  rw [Nat.mul_one]
  exact decodeDirents_of_holds (hnames host) hflags hnames'

variable {served : Fin n → List (Fin n)}
  (hserved : ∀ host, host ∈ served host ∧ (served host).Nodup)

include hserved

theorem takeAnswer_eq (r : Int × List Dirent) (host : Fin n) :
    takeAnswer (fun host => .ok (listed host)) fresh buf served r host =
      if Fits listed host then (r.1, r.2 ++ listed host) else ((ENOBUFS : Int), r.2) := by
  rw [takeAnswer, serveHost_eq]
  by_cases hfits : Fits listed host
  · rw [if_pos hfits, if_pos hfits]
    dsimp only
    rw [decodeDirents_receiveBuffer hnames hbuf (hserved host).2 (hserved host).1 hfits]
    exact if_neg (not_not.2 rfl)
  · rw [if_neg hfits, if_neg hfits]
    exact if_pos (by decide : (ENOBUFS : Int) ≠ 0)

/-- The client gets the entries of all daemons whose entries fit, and an error for the others. -/
theorem foldl_takeAnswer (hosts : List (Fin n)) (r : Int × List Dirent) :
    hosts.foldl (takeAnswer (fun host => .ok (listed host)) fresh buf served) r =
      (if ∀ host ∈ hosts, Fits listed host then r.1 else (ENOBUFS : Int),
        r.2 ++ hosts.flatMap fun host => if Fits listed host then listed host else []) := by
  induction hosts generalizing r with
  | nil => simp
  | cons host hosts ih =>
    rw [foldl_cons, takeAnswer_eq hnames hbuf hserved, ih, flatMap_cons]
    by_cases hfits : Fits listed host
    · simp only [hfits, if_true, append_assoc, forall_mem_cons, true_and]
    · simp only [hfits, if_false, nil_append, forall_mem_cons, false_and, ite_self]

/-- What the client decodes. -/
theorem forwardGetDirents_eq :
    forwardGetDirents (fun host => .ok (listed host)) fresh buf served =
      (if ∀ host, Fits listed host then 0 else (ENOBUFS : Int),
        (List.finRange n).flatMap fun host => if Fits listed host then listed host else []) := by
  rw [forwardGetDirents, foldl_takeAnswer hnames hbuf hserved]
  simp only [mem_finRange, true_imp_iff, nil_append]

end

/-! ## The extended form -/

section
variable {entries : List DirentExtended} {fresh : Nat → UInt8}

/-- The client decodes what was pushed to the start of its buffer. -/
theorem decodeAnswer_of_holds (hnames : NamesOk extendedForm entries) {buf : List UInt8}
    (h : Holds buf 0 (extendedForm.pack fresh entries)) :
    decodeAnswer (⟨0, entries.length⟩, buf) = (0, entries) := by
  have hholds : ∀ k ∈ extendedForm.fields, Holds buf (extendedForm.start entries.length k)
      (column extendedForm.cell entries k) := fun k hk => by
    have := (extendedForm_packs hnames).holds_of_slice h hk
    rwa [Nat.zero_add] at this
  exact congrArg (Prod.mk 0) (decodeDirentsExtended_of_holds hnames (hholds .isDir (by decide))
    (hholds .size (by decide)) (hholds .ctime (by decide)) (hholds .name (by decide)))

/-- What is pushed to the start of a buffer can be found there. -/
theorem holds_splice (buf xs : List UInt8) : Holds (splice buf 0 xs) 0 xs := by
  rw [Holds, splice, take_zero, nil_append, drop_zero]
  exact prefix_append _ _

/-- The client gets the entries if they fit, and an error otherwise. -/
theorem forwardGetDirentsSingle_eq (hnames : NamesOk extendedForm entries) (buf : List UInt8) :
    forwardGetDirentsSingle (.ok entries) fresh buf =
      if extendedForm.outSize entries ≤ direntsBuffSize then (0, entries)
      else ((ENOBUFS : Int), []) := by
  rw [forwardGetDirentsSingle, rpcSrvGetDirentsExtended, serve_ok]
  by_cases hfits : extendedForm.outSize entries ≤ direntsBuffSize
  · rw [if_neg (Nat.not_lt.2 hfits), if_pos hfits]
    exact decodeAnswer_of_holds hnames (holds_splice _ _)
  · rw [if_pos (Nat.not_le.1 hfits), if_neg hfits]
    rfl

/-- The proxy passes on what the daemon has pushed, and its error otherwise. -/
theorem proxyRpcSrvGetDirentsExtended_eq (proxyFresh : Nat → UInt8) (bulkSize : Nat)
    (buf : List UInt8) :
    proxyRpcSrvGetDirentsExtended (.ok entries) fresh proxyFresh bulkSize buf =
      if extendedForm.outSize entries ≤ bulkSize then
        (⟨0, entries.length⟩, splice buf 0
          (splice ((List.range bulkSize).map proxyFresh) 0 (extendedForm.pack fresh entries)))
      else (⟨ENOBUFS, 0⟩, buf) := by
  rw [proxyRpcSrvGetDirentsExtended, rpcSrvGetDirentsExtended, serve_ok]
  by_cases hfits : extendedForm.outSize entries ≤ bulkSize
  · rw [if_neg (Nat.not_lt.2 hfits), if_pos hfits]
    exact if_neg (not_not.2 rfl)
  · rw [if_pos (Nat.not_le.1 hfits), if_neg hfits]
    exact if_pos (by decide : (ENOBUFS : Int) ≠ 0)

theorem forwardGetDirentsSingleProxy_eq (hnames : NamesOk extendedForm entries)
    (proxyFresh : Nat → UInt8) (buf : List UInt8) :
    forwardGetDirentsSingleProxy (.ok entries) fresh proxyFresh buf =
      if extendedForm.outSize entries ≤ direntsBuffSizeProxy then (0, entries)
      else ((ENOBUFS : Int), []) := by
  rw [forwardGetDirentsSingleProxy, proxyRpcSrvGetDirentsExtended_eq]
  by_cases hfits : extendedForm.outSize entries ≤ direntsBuffSizeProxy
  · rw [if_pos hfits, if_pos hfits]
    have hholds : Holds _ 0 (extendedForm.pack fresh entries) :=
      (holds_splice buf _).trans
        (holds_splice ((List.range direntsBuffSizeProxy).map proxyFresh) _)
    exact decodeAnswer_of_holds hnames hholds
  · rw [if_neg hfits, if_neg hfits]
    rfl

end

/-! ## The wire -/

/-- What should hold of a plain listing of all daemons: the client has the entries of the daemons
whose lists fit into their parts of the receive buffer, in the order of the daemons and of their
lists. If those of a daemon do not fit, its part is not written and the client returns an error. -/
def PlainSurvives {n : Nat} (listed : Fin n → List Dirent) (fresh : Fin n → Nat → UInt8)
    (buf : List UInt8) (served : Fin n → List (Fin n)) : Prop :=
  let r := forwardGetDirents (fun host => .ok (listed host)) fresh buf served
  r.2 = ((List.finRange n).flatMap fun host => if Fits listed host then listed host else []) ∧
    ((∀ host, Fits listed host) → r = (0, (List.finRange n).flatMap listed)) ∧
    ∀ host, ¬ Fits listed host → r.1 ≠ 0 ∧ ∀ hosts : List (Fin n),
      slice (receiveBuffer (fun host => .ok (listed host)) fresh buf hosts)
        (host * perHostBuffSize n) (perHostBuffSize n) =
        slice buf (host * perHostBuffSize n) (perHostBuffSize n)

/-- What should hold of an extended listing of one daemon, of which the client gets `r` and has
`after` in its buffer. -/
def ExtendedSurvives (entries : List DirentExtended) (bulkSize : Nat) (buf after : List UInt8)
    (r : Int × List DirentExtended) : Prop :=
  (extendedForm.outSize entries ≤ bulkSize → r = (0, entries)) ∧
    (bulkSize < extendedForm.outSize entries → r.1 ≠ 0 ∧ after = buf)

/-- Directory entries survive the wire, in the plain form, in the extended form and through the
proxy, for any number of daemons, any order in which they push, and whatever is in the buffers
before. -/
theorem direntsSurvive {n : Nat} {listed : Fin n → List Dirent}
    (hlisted : ∀ host, NamesOk plainForm (listed host)) (fresh : Fin n → Nat → UInt8)
    (hbuf : buf.length = direntsBuffSize) {served : Fin n → List (Fin n)}
    (hserved : ∀ host, host ∈ served host ∧ (served host).Nodup)
    (hentries : NamesOk extendedForm entries)
    (daemonFresh proxyFresh : Nat → UInt8) (single proxied : List UInt8) :
    PlainSurvives listed fresh buf served ∧
      ExtendedSurvives entries direntsBuffSize single
        (rpcSrvGetDirentsExtended daemonFresh (.ok entries) 0 direntsBuffSize single).2
        (forwardGetDirentsSingle (.ok entries) daemonFresh single) ∧
      ExtendedSurvives entries direntsBuffSizeProxy proxied
        (proxyRpcSrvGetDirentsExtended (.ok entries) daemonFresh proxyFresh direntsBuffSizeProxy
          proxied).2
        (forwardGetDirentsSingleProxy (.ok entries) daemonFresh proxyFresh proxied) := by
  have hnobufs : (ENOBUFS : Int) ≠ 0 := by decide
  refine ⟨⟨?_, fun hfits => ?_, fun host hfits => ⟨?_, slice_receiveBuffer hlisted hbuf hfits⟩⟩,
    ⟨fun hfits => ?_, fun hlarge => ⟨?_, ?_⟩⟩, ⟨fun hfits => ?_, fun hlarge => ⟨?_, ?_⟩⟩⟩
  · rw [forwardGetDirents_eq hlisted hbuf hserved]
  · rw [forwardGetDirents_eq hlisted hbuf hserved, if_pos hfits]
    simp only [hfits, if_true]
  · rw [forwardGetDirents_eq hlisted hbuf hserved, if_neg fun hall => hfits (hall host)]
    exact hnobufs
  · rw [forwardGetDirentsSingle_eq hentries, if_pos hfits]
  · rw [forwardGetDirentsSingle_eq hentries, if_neg (Nat.not_le.2 hlarge)]
    exact hnobufs
  · rw [rpcSrvGetDirentsExtended, serve_ok, if_pos hlarge]
  · rw [forwardGetDirentsSingleProxy_eq hentries, if_pos hfits]
  · rw [forwardGetDirentsSingleProxy_eq hentries, if_neg (Nat.not_le.2 hlarge)]
    exact hnobufs
  · rw [proxyRpcSrvGetDirentsExtended_eq, if_neg (Nat.not_le.2 hlarge)]

/-- The file `a` on one daemon and the directory `bc` on the other. -/
def twoListed (host : Fin 2) : List Dirent :=
  if host.val = 0 then [([97], false)] else [([98, 99], true)]

/-- The file `a` with its size and a time before 1970. -/
def oneListed : List DirentExtended := [([97], false, 300, -1)]

/-- Two daemons push in the other order than the client takes their answers. -/
theorem direntsSurvive_two :
    (∀ host, NamesOk plainForm (twoListed host)) ∧ (∀ host, Fits twoListed host) ∧
      NamesOk extendedForm oneListed ∧
      PlainSurvives twoListed (fun _ _ => 7) (List.replicate direntsBuffSize 9)
        (fun _ => (List.finRange 2).reverse) ∧
      forwardGetDirentsSingleProxy (.ok oneListed) (fun _ => 7) (fun _ => 8) [] =
        (0, oneListed) := by
  have hnames : ∀ host, NamesOk plainForm (twoListed host) := by decide
  have hone : NamesOk extendedForm oneListed := by decide
  have hsize : extendedForm.outSize oneListed ≤ direntsBuffSizeProxy := by decide
  have hserved : ∀ host, host ∈ (List.finRange 2).reverse ∧ (List.finRange 2).reverse.Nodup :=
    fun host => ⟨mem_reverse.2 (mem_finRange host),
      nodup_reverse.2 (nodup_finRange 2)⟩
  have h := direntsSurvive hnames (fun _ _ => 7) (length_replicate (a := 9)) hserved hone
    (fun _ => 7) (fun _ => 8) [] []
  exact ⟨hnames, by decide, hone, h.1, h.2.2.1 hsize⟩

end GekkoFS.Wire
