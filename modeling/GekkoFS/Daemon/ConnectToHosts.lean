import GekkoFS.Common.HostsFile

/-!
# How a daemon finds itself among the hosts

At the start of an expansion a daemon reads the hosts file, and `connect_to_hosts` visits the
positions of the list in a random order. It enters the address of each position into the table of
endpoints, and takes the first position whose host name is that of the node as its own. The
redistribution then keeps what belongs to this position and forwards everything else to the
endpoints of the other positions.

The suffixes that tell the daemons of one node apart have been cut off by then, and the table still
has the addresses of earlier expansions, which an insertion does not replace. So a daemon keeps what
is its own and forwards nothing to itself, in every order, exactly if it is alone on its node and no
other position has its address from an earlier expansion (`recognisesItself_iff`).
-/

namespace GekkoFS

open DaemonLine List Option

/-! ## The table of endpoints -/

/-- The endpoint of each position. Source: `rpc_endpoints_` (`rpc_data.hpp:62`). -/
abbrev Endpoints (α : Type) := Nat → Option α

namespace Endpoints

variable {α : Type}

/-- An insertion, which leaves an endpoint that is there. Source: `connect_to_hosts`
(`malleable_manager.cpp:180`). -/
def insertNew (endpoints : Endpoints α) (id : Nat) (addr : α) : Endpoints α :=
  if endpoints id = none then Function.update endpoints id (some addr) else endpoints

theorem insertNew_apply (endpoints : Endpoints α) (id id' : Nat) (addr : α) :
    endpoints.insertNew id addr id' =
      (endpoints id').or (if id' = id then some addr else none) := by
  rw [insertNew]
  by_cases hid : id' = id
  · subst hid
    rw [if_pos rfl]
    cases hold : endpoints id' with
    | none => rw [if_pos rfl, Function.update_self, none_or]
    | some a => rw [if_neg (some_ne_none a), hold, some_or]
  · rw [if_neg hid, or_none]
    split
    · rw [Function.update_of_ne hid]
    · rfl

end Endpoints

/-! ## The loop over the hosts -/

/-- The loop over the shuffled positions, with the position found so far and the endpoints. Source:
`MalleableManager::connect_to_hosts` (`malleable_manager.cpp:146`). -/
def connectLoop (hosts : List Host) (localHostname : List Char) :
    List Nat → Option Nat → Endpoints (List Char) → Option Nat × Endpoints (List Char)
  | [], found, endpoints => (found, endpoints)
  | id :: ids, found, endpoints =>
    connectLoop hosts localHostname ids
      (if found = none ∧ (hosts[id]?).map Prod.fst = some localHostname then some id else found)
      ((hosts[id]?).elim endpoints fun host => endpoints.insertNew id host.2)

/-- The position that a daemon takes as its own after all addresses have been looked up, and the
endpoints; the function throws if there is no position. Source:
`MalleableManager::connect_to_hosts` (`malleable_manager.cpp:127`). -/
def connectToHosts (hosts : List Host) (localHostname : List Char) (hostIds : List Nat)
    (endpoints : Endpoints (List Char)) : Option Nat × Endpoints (List Char) :=
  connectLoop hosts localHostname hostIds none endpoints

/-- An earlier expansion: the hosts of its file, and the order in which they were visited. -/
structure Expansion where
  hosts : List Host
  hostIds : List Nat
  perm : hostIds.Perm (List.range hosts.length)

/-- The endpoints of a daemon after some expansions; it starts with none. -/
def endpointsAfter (localHostname : List Char) (earlier : List Expansion) :
    Endpoints (List Char) :=
  earlier.foldl (fun endpoints e => (connectToHosts e.hosts localHostname e.hostIds endpoints).2)
    fun _ => none

/-- A hosts file that lists daemons, each once with an address of its own, next to lines that end an
instance. -/
structure ListsDaemons (lines : List (List Char)) (daemons : List DaemonLine) : Prop where
  lines_eq : (lines.filter fun line => !isComment line) = daemons.map line
  valid : ∀ d ∈ daemons, d.Valid
  addrs : (daemons.map daemonAddr).Nodup

/-- For every order of the positions a daemon takes the position of its own line in the sorted list
as its own. So it keeps what belongs to a position exactly if that is its own, and the endpoint to
which it forwards what belongs to another position is not its own address. -/
def RecognisesItself (earlier : List Expansion) (lines : List (List Char)) (own : DaemonLine) :
    Prop :=
  ∃ sorted, managerSortedHosts lines = some sorted ∧
    ∀ hostIds : List Nat, hostIds.Perm (List.range sorted.length) →
      ∃ localHostId endpoints, connectToHosts (eraseSuffixes sorted) own.hostname hostIds
          (endpointsAfter own.hostname earlier) = (some localHostId, endpoints) ∧
        sorted[localHostId]? = some own.row ∧
        ∀ destId < sorted.length, (destId = localHostId ↔ sorted[destId]? = some own.row) ∧
          (destId ≠ localHostId → endpoints destId ≠ some own.daemonAddr)

/-- The endpoint that earlier expansions have left at a position: the address in the first of them
with so many hosts. -/
def earlierAddr (earlier : List Expansion) (id : Nat) : Option (List Char) :=
  earlier.findSome? fun e => (e.hosts[id]?).map Prod.snd

section
variable {lines : List (List Char)} {daemons : List DaemonLine} {own : DaemonLine}
  {hosts : List Host} {localHostname : List Char} {id : Nat}

/-- The loop finds the first position with the host name. -/
theorem connectLoop_fst (hosts : List Host) (localHostname : List Char) (ids : List Nat)
    (found : Option Nat) (endpoints : Endpoints (List Char)) :
    (connectLoop hosts localHostname ids found endpoints).1 =
      found.or (ids.find? fun id => (hosts[id]?).map Prod.fst = some localHostname) := by
  induction ids generalizing found endpoints with
  | nil => rw [connectLoop, find?_nil, or_none]
  | cons id ids ih =>
    rw [connectLoop, ih]
    cases found with
    | some i => rw [if_neg (by simp), some_or, some_or]
    | none =>
      by_cases h : (hosts[id]?).map Prod.fst = some localHostname
      · rw [if_pos ⟨rfl, h⟩, some_or, none_or, find?_cons_of_pos (by simp [h])]
      · rw [if_neg fun hc => h hc.2, none_or, none_or,
          find?_cons_of_neg (by simp [h])]

/-- The loop enters the addresses of the positions that have no endpoint yet. -/
theorem connectLoop_snd (hosts : List Host) (localHostname : List Char) (ids : List Nat)
    (found : Option Nat) (endpoints : Endpoints (List Char)) (id' : Nat) :
    (connectLoop hosts localHostname ids found endpoints).2 id' =
      (endpoints id').or (if id' ∈ ids then (hosts[id']?).map Prod.snd else none) := by
  induction ids generalizing found endpoints with
  | nil => rw [connectLoop, if_neg not_mem_nil, or_none]
  | cons id ids ih =>
    rw [connectLoop, ih]
    cases hhost : hosts[id]? with
    | none =>
      rw [elim_none]
      by_cases hid : id' = id
      · subst hid
        simp [hhost]
      · simp [hid]
    | some host =>
      rw [elim_some, Endpoints.insertNew_apply, Option.or_assoc]
      by_cases hid : id' = id
      · subst hid
        simp [hhost]
      · simp [hid]

theorem connectToHosts_fst (hosts : List Host) (localHostname : List Char) (hostIds : List Nat)
    (endpoints : Endpoints (List Char)) :
    (connectToHosts hosts localHostname hostIds endpoints).1 =
      hostIds.find? fun id => (hosts[id]?).map Prod.fst = some localHostname := by
  rw [connectToHosts, connectLoop_fst, none_or]

/-- An order of all positions enters the addresses of all that have no endpoint yet. -/
theorem connectToHosts_snd {hostIds : List Nat}
    (hperm : hostIds.Perm (List.range hosts.length)) (localHostname : List Char)
    (endpoints : Endpoints (List Char)) (id : Nat) :
    (connectToHosts hosts localHostname hostIds endpoints).2 id =
      (endpoints id).or ((hosts[id]?).map Prod.snd) := by
  rw [connectToHosts, connectLoop_snd]
  split
  · rfl
  · next hid =>
    rw [hperm.mem_iff, mem_range] at hid
    rw [getElem?_eq_none (Nat.le_of_not_lt hid), map_none]

/-- The endpoints after some expansions are the addresses of the first one with so many hosts. -/
theorem endpointsAfter_apply (localHostname : List Char) (earlier : List Expansion) (id : Nat) :
    endpointsAfter localHostname earlier id = earlierAddr earlier id := by
  rw [endpointsAfter]
  suffices h : ∀ endpoints : Endpoints (List Char), earlier.foldl (fun endpoints e =>
      (connectToHosts e.hosts localHostname e.hostIds endpoints).2) endpoints id =
        (endpoints id).or (earlierAddr earlier id) from (h _).trans (none_or ..)
  induction earlier with
  | nil => exact fun _ => (or_none ..).symm
  | cons e earlier ih =>
    intro endpoints
    rw [foldl_cons, ih, connectToHosts_snd e.perm, Option.or_assoc, earlierAddr, earlierAddr,
      findSome?_cons]
    cases (e.hosts[id]?).map Prod.snd <;> simp

/-- The first position is taken if it has the host name. -/
theorem connectToHosts_cons (h : (hosts[id]?).map Prod.fst = some localHostname) (ids : List Nat)
    (endpoints : Endpoints (List Char)) :
    (connectToHosts hosts localHostname (id :: ids) endpoints).1 = some id := by
  rw [connectToHosts_fst, find?_cons_of_pos (by simp [h])]

/-- If one position has the host name, some position with it is taken. -/
theorem exists_connectToHosts {hostIds : List Nat}
    {i : Nat} (hi : i ∈ hostIds) (h : (hosts[i]?).map Prod.fst = some localHostname)
    (endpoints : Endpoints (List Char)) :
    ∃ j, (connectToHosts hosts localHostname hostIds endpoints).1 = some j ∧
      (hosts[j]?).map Prod.fst = some localHostname := by
  rw [connectToHosts_fst]
  cases hfind : hostIds.find? fun id => (hosts[id]?).map Prod.fst = some localHostname with
  | none => exact absurd h (by simpa using find?_eq_none.1 hfind i hi)
  | some j => exact ⟨j, rfl, by simpa using find?_some hfind⟩

/-- The manager reads the rows of the daemons, and sorts them. -/
theorem ListsDaemons.sorted_eq (h : ListsDaemons lines daemons) (hne : daemons ≠ []) :
    managerSortedHosts lines = some (sortHosts (daemons.map row)) := by
  have hread : readHosts (fun _ => false) isComment HostLine.uri lines =
      some (daemons.map row) := by
    rw [readHosts_eq HostLine.uri fun _ _ => rfl, h.lines_eq,
      mapM_parseHostLine_line h.valid, map_some, List.map_map]
    rfl
  obtain ⟨d, ds, rfl⟩ := exists_cons_of_ne_nil hne
  rw [managerSortedHosts, hread]
  rfl

/-- The host name that a position of the list has is that of the daemon in its place. -/
theorem ListsDaemons.hostname_at (h : ListsDaemons lines daemons) :
    ((eraseSuffixes (sortHosts (daemons.map row)))[id]?).map Prod.fst =
        some localHostname ↔
      ∃ d ∈ daemons, (sortHosts (daemons.map row))[id]? = some d.row ∧
        d.hostname = localHostname := by
  rw [eraseSuffixes, getElem?_map, Option.map_map]
  constructor
  · intro hname
    obtain ⟨r, hr, hname⟩ := map_eq_some_iff.1 hname
    obtain ⟨d, hd, rfl⟩ := List.mem_map.1
      ((sortHosts_perm _).mem_iff.1 (mem_of_getElem? hr))
    exact ⟨d, hd, hr, (eraseSuffix_name (h.valid d hd)).symm.trans hname⟩
  · rintro ⟨d, hd, hr, rfl⟩
    rw [hr]
    exact congrArg some (eraseSuffix_name (h.valid d hd))

/-- The rows of the daemons differ, as their addresses do. -/
theorem ListsDaemons.once (h : ListsDaemons lines daemons) :
    (sortHosts (daemons.map row)).Nodup := by
  refine (sortHosts_perm _).nodup_iff.2 (List.Nodup.of_map Prod.snd ?_)
  rw [List.map_map]
  exact h.addrs

/-- The line of a daemon has one position in the sorted list. -/
theorem ListsDaemons.position_unique (h : ListsDaemons lines daemons) {d : DaemonLine} {i j : Nat}
    (hi : (sortHosts (daemons.map row))[i]? = some d.row)
    (hj : (sortHosts (daemons.map row))[j]? = some d.row) : i = j := by
  obtain ⟨hlt, -⟩ := List.getElem?_eq_some_iff.1 hi
  exact (getElem?_inj hlt h.once).1 (hi.trans hj.symm)

/-- The position with the address of a daemon is that of its line. -/
theorem ListsDaemons.row_of_addr (h : ListsDaemons lines daemons) (hown : own ∈ daemons)
    (hid : ((eraseSuffixes (sortHosts (daemons.map row)))[id]?).map Prod.snd =
      some own.daemonAddr) : (sortHosts (daemons.map row))[id]? = some own.row := by
  rw [eraseSuffixes, getElem?_map, Option.map_map] at hid
  obtain ⟨r, hr, haddr⟩ := map_eq_some_iff.1 hid
  obtain ⟨d, hd, rfl⟩ := List.mem_map.1 ((sortHosts_perm _).mem_iff.1 (mem_of_getElem? hr))
  rw [hr, inj_on_of_nodup_map h.addrs hd hown haddr]

/-- The line of a daemon has a position in the sorted list. -/
theorem exists_position {d : DaemonLine} (hd : d ∈ daemons) :
    ∃ i < (sortHosts (daemons.map row)).length, (sortHosts (daemons.map row))[i]? = some d.row := by
  obtain ⟨i, hi⟩ := mem_iff_getElem?.1 ((sortHosts_perm _).mem_iff.2 (mem_map_of_mem hd))
  exact ⟨i, (List.getElem?_eq_some_iff.1 hi).1, hi⟩

/-- The endpoint of a position is the one from earlier expansions, else the address in the list. -/
theorem connectToHosts_endpoint {earlier : List Expansion} {sorted : List Host} {hostIds : List Nat}
    (hperm : hostIds.Perm (List.range sorted.length)) (id : Nat) :
    (connectToHosts (eraseSuffixes sorted) localHostname hostIds
        (endpointsAfter localHostname earlier)).2 id =
      (earlierAddr earlier id).or (((eraseSuffixes sorted)[id]?).map Prod.snd) := by
  rw [connectToHosts_snd (by rwa [eraseSuffixes, length_map]), endpointsAfter_apply]

section
variable {earlier : List Expansion} (h : ListsDaemons lines daemons) (hown : own ∈ daemons)

include h hown

/-- A daemon that finds itself in every order is alone on its node. -/
theorem RecognisesItself.alone (hself : RecognisesItself earlier lines own) :
    ∀ other ∈ daemons, other.hostname = own.hostname → other = own := by
  intro other hother hname
  obtain ⟨sorted, hs, hall⟩ := hself
  obtain rfl := Option.some.inj ((h.sorted_eq (ne_nil_of_mem hown)).symm.trans hs)
  obtain ⟨j, hlt, hj⟩ := exists_position hother
  -- the order that starts with the position of the other daemon
  obtain ⟨id, endpoints, hid, hrow, -⟩ := hall (j :: (List.range _).erase j)
    (perm_cons_erase (mem_range.2 hlt)).symm
  have hfound := congrArg Prod.fst hid
  rw [connectToHosts_cons (h.hostname_at.2 ⟨other, hother, hj, hname⟩)] at hfound
  obtain rfl := Option.some.inj hfound
  have hrows := Option.some.inj (hj.symm.trans hrow)
  exact inj_on_of_nodup_map h.addrs hother hown (congrArg Prod.snd hrows)

/-- Its address from an earlier expansion is at its own position. -/
theorem RecognisesItself.position (hself : RecognisesItself earlier lines own) :
    ∀ id < daemons.length, earlierAddr earlier id = some own.daemonAddr →
      (sortHosts (daemons.map row))[id]? = some own.row := by
  intro id hid haddr
  obtain ⟨sorted, hs, hall⟩ := hself
  obtain rfl := Option.some.inj ((h.sorted_eq (ne_nil_of_mem hown)).symm.trans hs)
  obtain ⟨localHostId, endpoints, hconnect, -, hdest⟩ := hall _ (List.Perm.refl _)
  have hend : endpoints id = _ := (congrArg (·.2 id) hconnect).symm.trans
    (connectToHosts_endpoint (List.Perm.refl _) id)
  rw [haddr, some_or] at hend
  obtain ⟨hiff, hother⟩ := hdest id (by rwa [(sortHosts_perm _).length_eq, length_map])
  exact hiff.1 (not_not.1 fun hne => hother hne hend)

end

/-- A daemon keeps what is its own and forwards nothing to itself, in every order of the positions,
exactly if no other daemon has its host name and no other position has its address from an earlier
expansion. -/
theorem recognisesItself_iff (earlier : List Expansion) (lines : List (List Char))
    (daemons : List DaemonLine) (own : DaemonLine) (h : ListsDaemons lines daemons)
    (hown : own ∈ daemons) :
    RecognisesItself earlier lines own ↔
      (∀ other ∈ daemons, other.hostname = own.hostname → other = own) ∧
        ∀ id < daemons.length, earlierAddr earlier id = some own.daemonAddr →
          (sortHosts (daemons.map row))[id]? = some own.row := by
  refine ⟨fun hself => ⟨hself.alone h hown, hself.position h hown⟩, fun ⟨halone, hearlier⟩ =>
    ⟨_, h.sorted_eq (ne_nil_of_mem hown), fun hostIds hperm => ?_⟩⟩
  obtain ⟨i, hlt, hi⟩ := exists_position hown
  obtain ⟨j, hfound, hname⟩ := exists_connectToHosts (hperm.mem_iff.2 (mem_range.2 hlt))
    (h.hostname_at.2 ⟨own, hown, hi, rfl⟩) (endpointsAfter own.hostname earlier)
  obtain ⟨d, hd, hj, hname⟩ := h.hostname_at.1 hname
  rw [halone d hd hname] at hj
  refine ⟨j, _, Prod.ext hfound rfl, hj, fun destId hdest => ⟨⟨fun heq => heq ▸ hj,
    fun hrow => h.position_unique hrow hj⟩, fun hne hself => hne (h.position_unique ?_ hj)⟩⟩
  have hend := (connectToHosts_endpoint hperm destId).symm.trans hself
  cases haddr : earlierAddr earlier destId with
  | none => exact h.row_of_addr hown (by rwa [haddr, none_or] at hend)
  | some addr =>
    rw [haddr, some_or] at hend
    rw [(sortHosts_perm _).length_eq, length_map] at hdest
    exact hearlier destId hdest (haddr.trans hend)

end

/-! ## Daemons on one node and on three -/

/-- A daemon of a node, with a suffix and an address. -/
def nodeDaemon (node suffix addr : String) : DaemonLine :=
  ⟨node.toList, suffix.toList, addr.toList, []⟩

theorem word_of_all {w : List Char} (h : w.all (fun c => !Decimal.isSpace c) = true) :
    ∀ c ∈ w, Decimal.isSpace c = false := fun c hc => by simpa using all_eq_true.1 h c hc

/-- Three daemons on three nodes, with a line that ends an instance between their lines. -/
def threeNodeLines : List (List Char) :=
  [(nodeDaemon "n2" "" "ofi+tcp://2").line, hostsfileEndStr,
    (nodeDaemon "n3" "" "ofi+tcp://3").line, (nodeDaemon "n1" "a" "ofi+tcp://1").line]

theorem listsDaemons_threeNodeLines : ListsDaemons threeNodeLines
    [nodeDaemon "n2" "" "ofi+tcp://2", nodeDaemon "n3" "" "ofi+tcp://3",
      nodeDaemon "n1" "a" "ofi+tcp://1"] := by
  refine ⟨by decide, fun d hd => ?_, by decide⟩
  simp only [mem_cons, not_mem_nil, or_false] at hd
  rcases hd with rfl | rfl | rfl
  all_goals exact ⟨by decide, by decide, by decide, by decide, word_of_all (by decide),
    word_of_all (by decide), word_of_all (by decide), word_of_all (by decide)⟩

/-- A daemon that is alone on its node finds itself, also in a second expansion, if the new daemons
are behind it. -/
theorem recognisesItself_iff_threeNodes :
    RecognisesItself [⟨[("n1".toList, "ofi+tcp://1".toList), ("n2".toList, "ofi+tcp://2".toList)],
      [1, 0], by decide⟩] threeNodeLines (nodeDaemon "n2" "" "ofi+tcp://2") :=
  (recognisesItself_iff _ threeNodeLines _ _ listsDaemons_threeNodeLines (by decide)).2
    ⟨by decide, by decide⟩

/-- Two daemons of one node, whose root directories have the suffixes `a` and `b`. -/
def oneNodeDaemons : List DaemonLine :=
  [nodeDaemon "n1" "a" "ofi+tcp://1", nodeDaemon "n1" "b" "ofi+tcp://2"]

/-- If the positions are visited in order, the second daemon of a node takes the position of the
first as its own. And a daemon that was the first one in an earlier expansion forwards what belongs
to a new daemon before it to itself. -/
theorem connectToHosts_takes_other :
    (managerSortedHosts (oneNodeDaemons.map line) =
        some (oneNodeDaemons.map row) ∧
      (connectToHosts (eraseSuffixes (oneNodeDaemons.map row)) "n1".toList [0, 1]
        fun _ => none).1 = some 0 ∧
      ¬ RecognisesItself [] (oneNodeDaemons.map line)
        (nodeDaemon "n1" "b" "ofi+tcp://2")) ∧
    ¬ RecognisesItself [⟨[("n2".toList, "ofi+tcp://2".toList), ("n3".toList, "ofi+tcp://3".toList)],
      [0, 1], by decide⟩] threeNodeLines (nodeDaemon "n2" "" "ofi+tcp://2") := by
  have hsorted : managerSortedHosts (oneNodeDaemons.map line) =
      some (oneNodeDaemons.map row) := by decide
  have hfirst : (connectToHosts (eraseSuffixes (oneNodeDaemons.map row)) "n1".toList
      [0, 1] fun _ => none).1 = some 0 := by decide
  have hnodes : managerSortedHosts threeNodeLines =
      some [("n1#a".toList, "ofi+tcp://1".toList), ("n2".toList, "ofi+tcp://2".toList),
        ("n3".toList, "ofi+tcp://3".toList)] := by decide
  refine ⟨⟨hsorted, hfirst, ?_⟩, ?_⟩
  · rintro ⟨sorted, hs, hall⟩
    obtain rfl := Option.some.inj (hsorted.symm.trans hs)
    obtain ⟨id, endpoints, hid, hrow, -⟩ := hall [0, 1] (by decide)
    obtain rfl := Option.some.inj (hfirst.symm.trans (congrArg Prod.fst hid))
    exact absurd hrow (by decide)
  · rintro ⟨sorted, hs, hall⟩
    obtain rfl := Option.some.inj (hnodes.symm.trans hs)
    obtain ⟨id, endpoints, hid, hrow, hdest⟩ := hall [0, 1, 2] (by decide)
    have hself : endpoints 0 = some "ofi+tcp://2".toList :=
      (congrArg (fun r : Option Nat × Endpoints (List Char) => r.2 0) hid).symm.trans (by decide)
    refine (hdest 0 (by decide)).2 ?_ hself
    rintro rfl
    exact absurd hrow (by decide)

end GekkoFS
