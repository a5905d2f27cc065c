import Mathlib.Data.Fin.Basic
import Mathlib.Data.List.Nodup
import Mathlib.Data.Nat.ModEq
import Mathlib.Order.Fin.Basic
import GekkoFS.Common.Arithmetic

/-!
# Placement of metadata and chunks

A distributor names the daemon of every chunk and of every metadata entry. The client, the proxy
and a redistributing daemon talk to it through the virtual functions of one base class, so the
development is over an arbitrary `Distributor`; the one that is configured by default hashes the
path, and is `simpleHashDistributor` over an arbitrary string hash.

The base class declares the chunk id as `chunkid_t`, an `unsigned int`, while all its callers hold
64 bit ids: `Distributor.locateData` narrows the id before it is placed.
-/

namespace GekkoFS

open List

/-- The placement functions of a file system with `n` daemons. `place` takes a chunk id that fits
`chunkid_t`. Source: `Distributor` (`distributor.hpp:45`). -/
structure Distributor (n : Nat) where
  /-- The daemon of a copy of a chunk. -/
  place : List Char → Nat → Nat → Fin n
  /-- The daemon of a copy of a metadata entry. -/
  locateFileMetadata : List Char → Nat → Fin n

/-- The daemon a caller gets for a 64 bit chunk id. Source: `locate_data` (`distributor.hpp:50`),
whose parameter `chunkid_t` is an `unsigned int` (`distributor.hpp:42`). -/
def Distributor.locateData {n : Nat} (d : Distributor n) (path : List Char) (chnkId numCopy : Nat) :
    Fin n :=
  d.place path (u32 chnkId) numCopy

/-- The distributor used by default. The sum of hash and copy number is a `size_t`.
Source: `SimpleHashDistributor` (`distributor.cpp:60`, `distributor.cpp:80`). -/
def simpleHashDistributor (strHash : List Char → Nat) (n : Nat) (hn : 0 < n) : Distributor n where
  place path chnkId numCopy :=
    ⟨u64 (strHash (path ++ Nat.toDigits 10 chnkId) + numCopy) % n, Nat.mod_lt _ hn⟩
  locateFileMetadata path numCopy := ⟨u64 (strHash path + numCopy) % n, Nat.mod_lt _ hn⟩

/-- Fewer copies than daemons are on different daemons, unless the sum of hash and copy number
wraps. -/
theorem simpleHashDistributor_apart {strHash : List Char → Nat} {n : Nat} (hn : 0 < n)
    {path : List Char} {chnkId numCopies : Nat} (hlt : numCopies < n)
    (hwrap : strHash (path ++ Nat.toDigits 10 (u32 chnkId)) + numCopies < 2 ^ 64) :
    ((List.range (numCopies + 1)).map
      ((simpleHashDistributor strHash n hn).locateData path chnkId)).Nodup := by
  refine List.Nodup.map_on (fun a ha b hb he => ?_) nodup_range
  rw [mem_range] at ha hb
  have hmod : (strHash (path ++ Nat.toDigits 10 (u32 chnkId)) + a) ≡
      (strHash (path ++ Nat.toDigits 10 (u32 chnkId)) + b) [MOD n] := by
    have hval := congrArg Fin.val he
    simp only [Distributor.locateData, simpleHashDistributor] at hval
    rwa [u64_of_lt (by omega), u64_of_lt (by omega)] at hval
  exact (Nat.ModEq.add_left_cancel' _ hmod).eq_of_lt_of_lt (by omega) (by omega)

/-! ## Loops over the copies -/

/-- The copies from 0 to the number of copies, an `int8_t`, that the client's loops visit. -/
def copyRange (numCopies : Nat) : List Nat := List.range (int8 numCopies + 1).toNat

/-- The copies that a write is for. Source: `forward_write`
(`client/rpc/forward_data.cpp:104`). -/
def writeCopies (numCopies : Nat) : List Nat :=
  if int8 numCopies = 0 then [0] else List.range' 1 (int8 numCopies).toNat

theorem copyRange_zero : copyRange 0 = [0] := rfl

theorem copyRange_of_lt {numCopies : Nat} (h : numCopies < 128) :
    copyRange numCopies = List.range (numCopies + 1) := by
  rw [copyRange, int8_of_lt h]
  rfl

theorem writeCopies_of_lt {numCopies : Nat} (hpos : 0 < numCopies) (h : numCopies < 128) :
    writeCopies numCopies = List.range' 1 numCopies := by
  rw [writeCopies, int8_of_lt h, if_neg (by omega), Int.toNat_natCast]

/-- From 128 copies on, the last copy is not visited. -/
theorem lt_of_mem_copyRange {numCopies copy : Nat} (h : copy ∈ copyRange numCopies) :
    copy < 128 := by
  have hlt := int8_lt numCopies
  rw [copyRange, mem_range] at h
  omega

/-- A loop visits no copy that is not there. -/
theorem copyRange_sublist (numCopies : Nat) :
    (copyRange numCopies).Sublist (List.range (numCopies + 1)) := by
  rw [copyRange, range_sublist]
  by_cases h : numCopies < 128
  · rw [int8_of_lt h]
    exact le_rfl
  · have hlt := int8_lt numCopies
    omega

theorem writeCopies_sublist (numCopies : Nat) :
    (writeCopies numCopies).Sublist (copyRange numCopies) := by
  rw [writeCopies, copyRange]
  split
  · next h => rw [h]; exact List.Sublist.refl _
  · cases h : (int8 numCopies).toNat with
    | zero => exact nil_sublist _
    | succ k =>
      rw [show (int8 numCopies + 1).toNat = k + 1 + 1 by omega, range_eq_range',
        range'_succ]
      exact sublist_cons_self ..

/-- The hosts of a file system with two daemons. -/
abbrev firstHost : Fin 2 := 0

@[inherit_doc firstHost]
abbrev secondHost : Fin 2 := 1

end GekkoFS
