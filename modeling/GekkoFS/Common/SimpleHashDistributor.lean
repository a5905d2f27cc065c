import GekkoFS.Common.Distributor

/-!
# The hash distributor object

`SimpleHashDistributor` is the object behind `simpleHashDistributor`: it has the number of hosts as
a member. A daemon starts without that number and takes it from the requests of the proxy, so one
kind of lookup stores the number that it is made with (`locateDataSized`). With the number of hosts
stored, the object gives the hosts of the distribution (`locateData_eq`, `locateFileMetadata_eq`).
-/

namespace GekkoFS

/-- The members of the object that lookups use. Source: `SimpleHashDistributor`
(`distributor.hpp:74`). -/
structure SimpleHashDistributor where
  hostsSize : UInt32
  allHosts : List Nat
  deriving DecidableEq

namespace SimpleHashDistributor

/-- Source: the constructor `SimpleHashDistributor` (`distributor.cpp:36`). -/
def ofSize (hostsSize : UInt32) : SimpleHashDistributor := ⟨hostsSize, List.range hostsSize.toNat⟩

variable (strHash : List Char → Nat) (dist : SimpleHashDistributor)

/-- A hash with a copy number, modulo the number of hosts; without hosts the division traps. -/
def select (hash numCopy : Nat) : Option Nat :=
  if dist.hostsSize = 0 then none else some (u64 (hash + numCopy) % dist.hostsSize.toNat)

/-- Source: `hosts_size` (`distributor.cpp:55`). -/
def setHostsSize (size : UInt32) : SimpleHashDistributor := { dist with hostsSize := size }

/-- Source: `locate_data` (`distributor.cpp:60`). -/
def locateData (path : List Char) (chnkId numCopy : Nat) : Option Nat :=
  dist.select (strHash (path ++ Nat.toDigits 10 (u32 chnkId))) numCopy

/-- The lookup with a number of hosts, which the object keeps. Source: `locate_data`
(`distributor.cpp:66`). -/
def locateDataSized (path : List Char) (chnkId : Nat) (hostsSize : UInt32) (numCopy : Nat) :
    Option Nat × SimpleHashDistributor :=
  let dist :=
    if dist.hostsSize ≠ hostsSize then ⟨hostsSize, List.range hostsSize.toNat⟩ else dist
  (dist.locateData strHash path chnkId numCopy, dist)

/-- Source: `locate_file_metadata` (`distributor.cpp:80`). -/
def locateFileMetadata (path : List Char) (numCopy : Nat) : Option Nat :=
  dist.select (strHash path) numCopy

end SimpleHashDistributor

/-! ## Lookups -/

namespace SimpleHashDistributor

variable {strHash : List Char → Nat} {n : UInt32} {dist : SimpleHashDistributor}

theorem select_eq (hn : 0 < n.toNat) (hsize : dist.hostsSize = n) (hash numCopy : Nat) :
    dist.select hash numCopy = some (u64 (hash + numCopy) % n.toNat) := by
  have hne : n ≠ 0 := fun hzero => by
    rw [hzero] at hn
    exact absurd hn (by decide)
  rw [select, hsize, if_neg hne]

/-- The object gives the hosts of a distribution over as many hosts as it has stored. -/
theorem locateFileMetadata_eq (hn : 0 < n.toNat) (hsize : dist.hostsSize = n) (path : List Char)
    (numCopy : Nat) :
    dist.locateFileMetadata strHash path numCopy =
      some ((simpleHashDistributor strHash n.toNat hn).locateFileMetadata path numCopy).val :=
  select_eq hn hsize _ _

theorem locateData_eq (hn : 0 < n.toNat) (hsize : dist.hostsSize = n) (path : List Char)
    (chnkId numCopy : Nat) :
    dist.locateData strHash path chnkId numCopy =
      some ((simpleHashDistributor strHash n.toNat hn).locateData path chnkId numCopy).val :=
  select_eq hn hsize _ _

/-- A lookup with a number of hosts leaves that number in the object. -/
theorem hostsSize_locateDataSized (dist : SimpleHashDistributor) (path : List Char)
    (chnkId numCopy : Nat) :
    (dist.locateDataSized strHash path chnkId n numCopy).2.hostsSize = n := by
  rw [locateDataSized]
  dsimp only
  split
  · rfl
  · next h => exact not_not.1 h

end SimpleHashDistributor

end GekkoFS
