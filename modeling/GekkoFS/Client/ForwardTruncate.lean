import Mathlib.Data.Finset.Sort
import GekkoFS.Client.ForwardData
import GekkoFS.Daemon.Truncate

/-!
# Sending a truncate to the daemons

`forward_truncate` of the client and of the proxy walk over the chunks that a truncate from
`current_size` to `new_size` cuts or removes, collect their daemons, and send each of them the new
size. The last chunk of the walk is computed from `current_size - new_size` where the last byte of
the file is at `current_size - 1`, the walk is over 32 bit ids, and the number of copies is an
`int8_t`. `truncateReaches_iff` says for which sizes and numbers of copies every daemon that holds
data to be cut is still reached, whatever the placement.
-/

namespace GekkoFS

open List

/-! ## The walk -/

/-- The first chunk of the walk, an `unsigned int`. Source: `chunk_start`
(`client/rpc/forward_data.cpp:531`, `proxy/rpc/forward_data.cpp:364`). -/
def truncateStart (newSize : Nat) : Nat := u32 (blockIndex newSize chunksize)

/-- The last chunk of the walk, an `unsigned int`. Source: `chunk_end`
(`client/rpc/forward_data.cpp:533`, `proxy/rpc/forward_data.cpp:366`). -/
def truncateEnd (currentSize newSize : Nat) : Nat :=
  u32 (blockIndex (sub64 (sub64 currentSize newSize) 1) chunksize)

/-- The first chunk of the walk is a 32 bit id. -/
theorem truncateStart_lt (newSize : Nat) : truncateStart newSize < 2 ^ 32 :=
  Nat.mod_lt _ (by decide)

/-- The last chunk of the walk is a 32 bit id. -/
theorem truncateEnd_lt (currentSize newSize : Nat) : truncateEnd currentSize newSize < 2 ^ 32 :=
  Nat.mod_lt _ (by decide)

/-- The loop `for(chunk_id = ..; chunk_id <= chunk_end; ++chunk_id)` over an `unsigned int`, with
what it does to its set. The result is `none` if the loop has not ended after `fuel` tests. -/
def chunkLoop {β : Type} (chunkEnd : Nat) (body : Nat → β → β) : Nat → Nat → β → Option β
  | 0, _, _ => none
  | fuel + 1, chunkId, hosts =>
    if chunkId ≤ chunkEnd then chunkLoop chunkEnd body fuel (u32 (chunkId + 1)) (body chunkId hosts)
    else some hosts

section
variable {n : Nat}

/-- The daemons that the client sends the truncate to. Source: `forward_truncate`
(`client/rpc/forward_data.cpp:536`). -/
def truncateHosts (d : Distributor n) (path : List Char)
    (currentSize newSize numCopies fuel : Nat) : Option (Finset (Fin n)) :=
  chunkLoop (truncateEnd currentSize newSize) (fun chunkId hosts =>
    (copyRange numCopies).foldl (fun hosts copy =>
      insert (d.locateData path chunkId copy) hosts) hosts) fuel (truncateStart newSize) ∅

/-- The daemons that the proxy sends the truncate to. Source: `forward_truncate`
(`proxy/rpc/forward_data.cpp:369`). -/
def proxyTruncateHosts (d : Distributor n) (path : List Char) (currentSize newSize fuel : Nat) :
    Option (Finset (Fin n)) :=
  chunkLoop (truncateEnd currentSize newSize) (fun chunkId hosts =>
    insert (d.locateData path chunkId 0) hosts) fuel (truncateStart newSize) ∅

/-! ## The requests -/

/-- An order in which the elements of an `unordered_set` of daemons are visited. -/
structure HostOrder (n : Nat) where
  /-- The elements in their order. -/
  toList : Finset (Fin n) → List (Fin n)
  /-- Every element is visited. -/
  mem_toList : ∀ hosts host, host ∈ toList hosts ↔ host ∈ hosts

/-- What becomes of the truncate requests. -/
structure TruncatePosted (n : Nat) where
  /-- The daemons that a request was sent to. -/
  sent : List (Fin n)
  /-- The errors of the replies, `none` for one that does not arrive. -/
  outs : List (Option Nat)
  /-- Whether all requests could be posted. -/
  allPosted : Bool
  /-- The storages of the daemons afterwards. -/
  storage : Cluster n

/-- Send the new size to daemons one after another, until a request cannot be posted. Source:
`forward_truncate` (`client/rpc/forward_data.cpp:548`, `proxy/rpc/forward_data.cpp:378`). -/
def postTruncates (net : Fin n → Delivery) (path : List Char) (newSize : Nat) :
    List (Fin n) → Cluster n → TruncatePosted n
  | [], cl => ⟨[], [], true, cl⟩
  | host :: hosts, cl =>
    match net host with
    | .notPosted => ⟨[], [], false, cl⟩
    | .delivered =>
      let w := rpcSrvTruncate (cl host) path newSize
      let r := postTruncates net path newSize hosts (Function.update cl host w.1)
      ⟨host :: r.sent, some w.2 :: r.outs, r.allPosted, r.storage⟩
    | .replyLost =>
      let w := rpcSrvTruncate (cl host) path newSize
      let r := postTruncates net path newSize hosts (Function.update cl host w.1)
      ⟨host :: r.sent, none :: r.outs, r.allPosted, r.storage⟩

/-- The error code of the client's truncate. -/
def TruncatePosted.clientErr (p : TruncatePosted n) : Nat :=
  if p.allPosted ∧ ∀ out ∈ p.outs, out = some 0 then 0 else EIO

/-- The error code of the proxy's truncate. It does not wait for replies if a request could not be
posted. -/
def TruncatePosted.proxyErr (p : TruncatePosted n) : Int :=
  if p.allPosted = false then EIO else if ∀ out ∈ p.outs, out = some 0 then 0 else -1

/-- The truncate of the client: its error code, and what became of its requests. Source:
`forward_truncate` (`client/rpc/forward_data.cpp:515`). -/
def forwardTruncate (d : Distributor n) (net : Fin n → Delivery) (order : HostOrder n)
    (cl : Cluster n) (path : List Char) (currentSize newSize numCopies fuel : Nat) :
    Option (Nat × TruncatePosted n) :=
  (truncateHosts d path currentSize newSize numCopies fuel).map fun hosts =>
    let posted := postTruncates net path newSize (order.toList hosts) cl
    (posted.clientErr, posted)

/-- The truncate of the proxy: its return value, and what became of its requests. Source:
`forward_truncate` (`proxy/rpc/forward_data.cpp:348`). -/
def proxyForwardTruncate (d : Distributor n) (net : Fin n → Delivery) (order : HostOrder n)
    (cl : Cluster n) (path : List Char) (currentSize newSize fuel : Nat) :
    Option (Int × TruncatePosted n) :=
  (proxyTruncateHosts d path currentSize newSize fuel).map fun hosts =>
    let posted := postTruncates net path newSize (order.toList hosts) cl
    (posted.proxyErr, posted)

/-- Requests that are all delivered are sent to all the daemons. -/
theorem postTruncates_delivered_sent (path : List Char) (newSize : Nat) :
    ∀ (hosts : List (Fin n)) (cl : Cluster n),
      (postTruncates (fun _ => .delivered) path newSize hosts cl).sent = hosts
  | [], _ => rfl
  | host :: hosts, cl => by
    simp only [postTruncates, postTruncates_delivered_sent path newSize hosts]

/-! ## Where the walk goes -/

variable {β : Type} {body : Nat → β → β} {chunkEnd : Nat}

/-- A walk that ends before the last 32 bit id visits the chunks up to its end. -/
theorem chunkLoop_eq_some (h : chunkEnd + 1 < 2 ^ 32) :
    ∀ (fuel chunkId : Nat) (hosts : β), chunkEnd + 1 - chunkId < fuel →
      chunkLoop chunkEnd body fuel chunkId hosts =
        some ((List.range' chunkId (chunkEnd + 1 - chunkId)).foldl (fun hs id => body id hs) hosts)
  | 0, _, _, hf => absurd hf (Nat.not_lt_zero _)
  | fuel + 1, chunkId, hosts, hf => by
    rw [chunkLoop]
    split
    · next hle =>
      rw [u32, Nat.mod_eq_of_lt (by omega), chunkLoop_eq_some h fuel _ _ (by omega),
        show chunkEnd + 1 - chunkId = chunkEnd + 1 - (chunkId + 1) + 1 by omega,
        range'_succ, foldl_cons]
    · next hgt => rw [show chunkEnd + 1 - chunkId = 0 by omega]; rfl

/-- More tests do not change the result of a walk that has ended. -/
theorem chunkLoop_mono {r : β} : ∀ {fuel chunkId : Nat} {hosts : β} (more : Nat),
    chunkLoop chunkEnd body fuel chunkId hosts = some r →
      chunkLoop chunkEnd body (fuel + more) chunkId hosts = some r
  | 0, _, _, _, h => by cases h
  | fuel + 1, chunkId, hosts, more, h => by
    rw [Nat.add_right_comm, chunkLoop]
    rw [chunkLoop] at h
    split at h
    · next hle => rw [if_pos hle]; exact chunkLoop_mono more h
    · next hgt => rw [if_neg hgt]; exact h

/-- A walk up to the last 32 bit id does not end. -/
theorem chunkLoop_eq_none : ∀ (fuel : Nat) {chunkId : Nat} (hosts : β), chunkId < 2 ^ 32 →
    chunkLoop (2 ^ 32 - 1) body fuel chunkId hosts = none
  | 0, _, _, _ => rfl
  | fuel + 1, chunkId, hosts, h => by
    rw [chunkLoop, if_pos (Nat.le_sub_one_of_lt h)]
    exact chunkLoop_eq_none fuel _ (Nat.mod_lt _ (by decide))

/-- A walk collects the daemons that its body enters. -/
theorem mem_foldl_body {body : Nat → Finset (Fin n) → Finset (Fin n)} {P : Nat → Fin n → Prop}
    (hbody : ∀ id hosts host, host ∈ body id hosts ↔ host ∈ hosts ∨ P id host) (host : Fin n) :
    ∀ (ids : List Nat) (hosts : Finset (Fin n)),
      host ∈ ids.foldl (fun hs id => body id hs) hosts ↔ host ∈ hosts ∨ ∃ id ∈ ids, P id host
  | [], hosts => by simp
  | id :: ids, hosts => by
    rw [foldl_cons, mem_foldl_body hbody host ids, hbody, or_assoc]
    simp

/-- A chunk enters the daemons of its copies. -/
theorem mem_foldl_insert (f : Nat → Fin n) (host : Fin n) :
    ∀ (copies : List Nat) (hosts : Finset (Fin n)),
      host ∈ copies.foldl (fun hs copy => insert (f copy) hs) hosts ↔
        host ∈ hosts ∨ ∃ copy ∈ copies, host = f copy
  | [], hosts => by simp
  | copy :: copies, hosts => by
    rw [foldl_cons, mem_foldl_insert f host copies, Finset.mem_insert, or_comm (a := _ = _),
      or_assoc]
    simp

/-- The daemons of the client's truncate are those of the chunks it walks over. -/
theorem truncateHosts_eq_some (d : Distributor n) (path : List Char)
    {currentSize newSize : Nat} (numCopies : Nat) {fuel : Nat}
    (hend : truncateEnd currentSize newSize + 1 < 2 ^ 32)
    (hfuel : truncateEnd currentSize newSize + 1 - truncateStart newSize < fuel) :
    ∃ hosts, truncateHosts d path currentSize newSize numCopies fuel = some hosts ∧
      ∀ host, host ∈ hosts ↔ ∃ id, truncateStart newSize ≤ id ∧
        id ≤ truncateEnd currentSize newSize ∧ ∃ copy ∈ copyRange numCopies,
          host = d.locateData path id copy := by
  refine ⟨_, chunkLoop_eq_some hend fuel _ _ hfuel, fun host => ?_⟩
  rw [mem_foldl_body (fun id hosts host => mem_foldl_insert (d.locateData path id) host
    (copyRange numCopies) hosts) host]
  simp only [Finset.notMem_empty, false_or, mem_range'_1]
  refine exists_congr fun id => ?_
  rw [and_assoc]
  exact and_congr_right fun hid => and_congr_left fun _ => by omega

/-- The daemons of the proxy's truncate are those of the chunks it walks over. -/
theorem proxyTruncateHosts_eq_some (d : Distributor n) (path : List Char)
    {currentSize newSize fuel : Nat} (hend : truncateEnd currentSize newSize + 1 < 2 ^ 32)
    (hfuel : truncateEnd currentSize newSize + 1 - truncateStart newSize < fuel) :
    ∃ hosts, proxyTruncateHosts d path currentSize newSize fuel = some hosts ∧
      ∀ host, host ∈ hosts ↔ ∃ id, truncateStart newSize ≤ id ∧
        id ≤ truncateEnd currentSize newSize ∧ host = d.locateData path id 0 := by
  refine ⟨_, chunkLoop_eq_some hend fuel _ _ hfuel, fun host => ?_⟩
  rw [mem_foldl_body (P := fun id host => host = d.locateData path id 0)
    (fun id hosts host => by rw [Finset.mem_insert, or_comm]) host]
  simp only [Finset.notMem_empty, false_or, mem_range'_1]
  refine exists_congr fun id => ?_
  rw [and_assoc]
  exact and_congr_right fun hid => and_congr_left fun _ => by omega

end

/-! ## Which sizes are right -/

/-- A truncate from `currentSize` to `newSize` with a number of copies reaches, for every placement
of the chunks, all the daemons that hold a chunk to be cut or removed; and the proxy contacts the
daemons that the client does without replication. -/
def TruncateReaches (currentSize newSize numCopies : Nat) : Prop :=
  ∀ (n : Nat) (order : HostOrder n) (d : Distributor n) (cl : Cluster n) (path : List Char),
    ∃ fuel err posted err' posted',
      forwardTruncate d (fun _ => .delivered) order cl path currentSize newSize numCopies fuel =
        some (err, posted) ∧
      (∀ c, newSize / chunksize ≤ c → c ≤ (currentSize - 1) / chunksize → ∀ copy ≤ numCopies,
        d.locateData path c copy ∈ posted.sent) ∧
      proxyForwardTruncate d (fun _ => .delivered) order cl path currentSize newSize fuel =
        some (err', posted') ∧
      (numCopies = 0 → ∀ host, host ∈ posted'.sent ↔ host ∈ posted.sent)

/-- The sizes for which the walk covers the chunks to be cut or removed: their ids agree above the
low 32 bits, the chunk id that the walk ends at is not below that of the last byte, both reduced to
32 bits, and it is not the last 32 bit id. -/
def TruncateRangeOk (currentSize newSize : Nat) : Prop :=
  newSize / chunksize / 2 ^ 32 = (currentSize - 1) / chunksize / 2 ^ 32 ∧
    (currentSize - 1) / chunksize % 2 ^ 32 ≤ (currentSize - newSize - 1) / chunksize % 2 ^ 32 ∧
    (currentSize - newSize - 1) / chunksize % 2 ^ 32 ≠ 2 ^ 32 - 1

section
variable {currentSize newSize numCopies : Nat}

/-- The ends of the walk, by division. -/
theorem truncateEnds_eq (h : newSize < currentSize) (h64 : currentSize < 2 ^ 64) :
    truncateStart newSize = newSize / chunksize % 2 ^ 32 ∧
      truncateEnd currentSize newSize = (currentSize - newSize - 1) / chunksize % 2 ^ 32 := by
  constructor
  · rw [truncateStart, u32, blockIndex_chunksize (h.trans h64)]
  · rw [truncateEnd, u32, sub64_of_le h.le h64, sub64_of_le (by omega) (by omega),
      blockIndex_chunksize (by omega)]

/-- A walk of the right range reaches the daemons. -/
theorem TruncateRangeOk.reaches (h : newSize < currentSize) (h64 : currentSize < 2 ^ 64)
    (hok : TruncateRangeOk currentSize newSize) (hcopies : numCopies < 128) :
    TruncateReaches currentSize newSize numCopies := by
  obtain ⟨hhigh, hlow, hlast⟩ := hok
  obtain ⟨hstart, hend⟩ := truncateEnds_eq h h64
  intro n order d cl path
  have hend32 : truncateEnd currentSize newSize + 1 < 2 ^ 32 := by
    have := Nat.mod_lt ((currentSize - newSize - 1) / chunksize) (show 0 < 2 ^ 32 by decide)
    omega
  obtain ⟨hosts, hhosts, hmem⟩ :=
    truncateHosts_eq_some d path numCopies hend32 (Nat.lt_succ_self _)
  obtain ⟨hosts', hhosts', hmem'⟩ := proxyTruncateHosts_eq_some d path hend32 (Nat.lt_succ_self _)
  refine ⟨_, _, _, _, _, by rw [forwardTruncate, hhosts, Option.map_some], ?_,
    by rw [proxyForwardTruncate, hhosts', Option.map_some], ?_⟩
  · intro c hc₁ hc₂ copy hcopy
    rw [postTruncates_delivered_sent, order.mem_toList, hmem]
    -- the chunk is visited under its 32 bit id
    refine ⟨c % 2 ^ 32, ?_, ?_, copy, ?_, ?_⟩
    · rw [hstart]; omega
    · rw [hend]; omega
    · rw [copyRange_of_lt hcopies]
      exact mem_range.2 (Nat.lt_succ_of_le hcopy)
    · rw [Distributor.locateData, Distributor.locateData, u32, u32, Nat.mod_mod]
  · rintro rfl host
    rw [postTruncates_delivered_sent, postTruncates_delivered_sent, order.mem_toList,
      order.mem_toList, hmem, hmem']
    refine exists_congr fun id => and_congr_right fun _ => and_congr_right fun _ => ?_
    constructor
    · intro hhost
      exact ⟨0, mem_cons_self, hhost⟩
    · rintro ⟨copy, hcopy, hhost⟩
      rwa [mem_singleton.1 hcopy] at hhost

/-- The daemons in the order of their ids. -/
def HostOrder.sorted (n : Nat) : HostOrder n where
  toList hosts := hosts.sort (· ≤ ·)
  mem_toList _ _ := Finset.mem_sort _

/-- If every placement is reached, the walk ends before the last 32 bit id, and the daemon of a
chunk to be cut or removed is one of a visited chunk and copy. -/
theorem TruncateReaches.visited (h : TruncateReaches currentSize newSize numCopies)
    (d : Distributor 2) :
    truncateEnd currentSize newSize ≠ 2 ^ 32 - 1 ∧
      ∀ c, newSize / chunksize ≤ c → c ≤ (currentSize - 1) / chunksize → ∀ copy ≤ numCopies,
        ∃ id, truncateStart newSize ≤ id ∧ id ≤ truncateEnd currentSize newSize ∧
          ∃ copy' ∈ copyRange numCopies, d.locateData [] c copy = d.locateData [] id copy' := by
  obtain ⟨fuel, err, posted, -, -, hposted, hreach, -, -⟩ := h 2 (.sorted 2) d (fun _ => ∅) []
  obtain ⟨hosts, hhosts, hpost⟩ := Option.map_eq_some_iff.1 hposted
  have hend : truncateEnd currentSize newSize ≠ 2 ^ 32 - 1 := by
    intro he
    rw [truncateHosts, he, chunkLoop_eq_none fuel _ (truncateStart_lt newSize)] at hhosts
    cases hhosts
  have hlt := truncateEnd_lt currentSize newSize
  have hmore := chunkLoop_mono (truncateEnd currentSize newSize + 1 - truncateStart newSize + 1)
    hhosts
  obtain ⟨hosts', hhosts', hmem⟩ := truncateHosts_eq_some d [] numCopies
    (show truncateEnd currentSize newSize + 1 < 2 ^ 32 by omega)
    (show _ < fuel + (truncateEnd currentSize newSize + 1 - truncateStart newSize + 1) by omega)
  have hsame : hosts' = hosts := Option.some.inj (hhosts'.symm.trans hmore)
  refine ⟨hend, fun c hc₁ hc₂ copy hcopy => ?_⟩
  have hc := hreach c hc₁ hc₂ copy hcopy
  cases hpost
  rwa [postTruncates_delivered_sent, HostOrder.mem_toList, ← hsame, hmem] at hc

/-- A placement that tells the chunks of the walk from the others. -/
def walkDistributor (currentSize newSize : Nat) : Distributor 2 where
  place _ chnkId _ :=
    if truncateStart newSize ≤ chnkId ∧ chnkId ≤ truncateEnd currentSize newSize then firstHost
    else secondHost
  locateFileMetadata _ _ := firstHost

/-- If every placement is reached, the chunks to be cut or removed lie in the walk, under their
32 bit ids. -/
theorem TruncateReaches.walk (h : TruncateReaches currentSize newSize numCopies) {c : Nat}
    (hc₁ : newSize / chunksize ≤ c) (hc₂ : c ≤ (currentSize - 1) / chunksize) :
    truncateStart newSize ≤ u32 c ∧ u32 c ≤ truncateEnd currentSize newSize := by
  obtain ⟨id, hid₁, hid₂, copy, -, heq⟩ :=
    (h.visited (walkDistributor currentSize newSize)).2 c hc₁ hc₂ 0 (Nat.zero_le _)
  have hid : u32 id = id :=
    Nat.mod_eq_of_lt (Nat.lt_of_le_of_lt hid₂ (truncateEnd_lt currentSize newSize))
  simp only [Distributor.locateData, walkDistributor, hid, hid₁, hid₂, and_self, if_true] at heq
  by_contra hn
  rw [if_neg hn] at heq
  cases heq

/-- A placement that tells the last copy from the others. -/
def lastCopyDistributor (numCopies : Nat) : Distributor 2 where
  place _ _ copy := if copy = numCopies then secondHost else firstHost
  locateFileMetadata _ _ := firstHost

/-- If every placement is reached, the number of copies is one of an `int8_t`: otherwise the last
copy is not visited. -/
theorem TruncateReaches.copies_lt (h : TruncateReaches currentSize newSize numCopies)
    (hlt : newSize < currentSize) : numCopies < 128 := by
  obtain ⟨id, -, -, copy, hcopy, heq⟩ := (h.visited (lastCopyDistributor numCopies)).2
    (newSize / chunksize) le_rfl (Nat.div_le_div_right (Nat.le_sub_one_of_lt hlt)) numCopies le_rfl
  by_cases hlast : copy = numCopies
  · exact hlast ▸ lt_of_mem_copyRange hcopy
  · rw [Distributor.locateData, Distributor.locateData, lastCopyDistributor] at heq
    dsimp only at heq
    rw [if_pos rfl, if_neg hlast] at heq
    cases heq

/-- **A truncate reaches the daemons that hold data to be cut exactly for the sizes of
`TruncateRangeOk` and fewer than 128 copies.** -/
theorem truncateReaches_iff (currentSize newSize numCopies : Nat) (h : newSize < currentSize)
    (h64 : currentSize < 2 ^ 64) :
    TruncateReaches currentSize newSize numCopies ↔
      TruncateRangeOk currentSize newSize ∧ numCopies < 128 := by
  refine ⟨fun hreach => ⟨?_, hreach.copies_lt h⟩, fun hok => hok.1.reaches h h64 hok.2⟩
  have hend := (hreach.visited (walkDistributor currentSize newSize)).1
  have hwalk := fun c => @TruncateReaches.walk _ _ _ hreach c
  obtain ⟨hstart, hend'⟩ := truncateEnds_eq h h64
  rw [hend'] at hend hwalk
  have hle : newSize / chunksize ≤ (currentSize - 1) / chunksize :=
    Nat.div_le_div_right (Nat.le_sub_one_of_lt h)
  refine ⟨?_, (hwalk _ hle (Nat.le_refl _)).2, hend⟩
  -- otherwise a chunk with the last 32 bit id lies in between
  by_contra hne
  have hlast := hwalk (newSize / chunksize / 2 ^ 32 * 2 ^ 32 + (2 ^ 32 - 1)) (by omega) (by omega)
  rw [u32] at hlast
  omega

end

/-- A file of three chunks with two copies that is cut in its first chunk, near its start. -/
theorem truncateReaches_near_start :
    TruncateReaches (2 * 524288 + 100) 5 2 ∧ TruncateRangeOk (2 * 524288 + 100) 5 :=
  have hok : TruncateRangeOk (2 * 524288 + 100) 5 := ⟨by decide, by decide, by decide⟩
  ⟨(truncateReaches_iff _ 5 2 (by decide) (by decide)).2 ⟨hok, by decide⟩, hok⟩

/-- A file of two chunks that is cut in half: no daemon is contacted at all, although the second
chunk is to be removed. -/
theorem truncateReaches_half :
    truncateHosts (⟨fun _ _ _ => 0, fun _ _ => 0⟩ : Distributor 1) "/f".toList 1048576 524288 0 1 =
        some ∅ ∧
      ¬ TruncateReaches 1048576 524288 0 := by
  obtain ⟨hstart, hend⟩ := truncateEnds_eq (show 524288 < 1048576 by decide) (by decide)
  refine ⟨?_, fun hreach => ?_⟩
  · rw [truncateHosts, hstart, hend]
    decide
  · have hwalk := (hreach.walk (c := 1) (by decide) (by decide)).2
    rw [hend] at hwalk
    revert hwalk
    decide

end GekkoFS
