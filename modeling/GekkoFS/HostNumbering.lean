import GekkoFS.Common.Distributor
import GekkoFS.Common.HostsFile
import GekkoFS.Lib.Traverse

/-!
# The numbering of the daemons

The distributor names a daemon by its position in the list that was read from the hosts file, so a
path has one place only if all parts of the file system read the same list. The client and the
malleability manager sort the lines of the file and the proxy does not, and the client stops at the
mark that ends an instance wherever it stands in a line. So they agree exactly on the files that are
in order and have no mark (`sameNumbering_iff`).
-/

namespace GekkoFS

open List

/-- A hosts file of three columns without comments, whose daemons have different host names. -/
structure ThreeColumns (lines : List (List Char)) (rows : List HostLine) : Prop where
  parsed : lines.mapM parseHostLine = some rows
  noComment : ∀ line ∈ lines, isComment line = false
  proxyUri_ne : ∀ r ∈ rows, r.proxyUri ≠ []
  distinct : (rows.map fun r => eraseSuffix r.host).Nodup

/-- The entries of the three lists at a position are those of one daemon. -/
def SameDaemonAt (rows : List HostLine) (client manager proxy : List Host) (i : Nat) : Prop :=
  ∃ r ∈ rows, client[i]? = some (eraseSuffix r.host, r.uri) ∧
    manager[i]? = some (eraseSuffix r.host, r.uri) ∧ proxy[i]? = some (r.host, r.proxyUri)

/-- The three lists give every daemon the same position, so every entry and every chunk is placed on
the same daemon. -/
structure SameNumbering (rows : List HostLine) (client manager proxy : List Host) : Prop where
  clientLength : client.length = rows.length
  managerLength : manager.length = rows.length
  proxyLength : proxy.length = rows.length
  position : ∀ i < rows.length, SameDaemonAt rows client manager proxy i
  placedEntry : ∀ (d : Distributor rows.length) (path : List Char),
    SameDaemonAt rows client manager proxy (d.locateFileMetadata path 0)
  placedChunk : ∀ (d : Distributor rows.length) (path : List Char) (chnkId : Nat),
    SameDaemonAt rows client manager proxy (d.locateData path chnkId 0)

section
variable {lines : List (List Char)} {rows : List HostLine} {client manager proxy : List Host}

/-- The host names and addresses of the daemons in the order of the file. -/
def rowHosts (rows : List HostLine) : List Host := rows.map fun r => (r.host, r.uri)

theorem ThreeColumns.filter_eq (h : ThreeColumns lines rows) :
    (lines.filter fun line => !isComment line) = lines :=
  filter_eq_self.2 fun line hline => by rw [h.noComment line hline]; rfl

/-- The manager has the rows in order. -/
theorem ThreeColumns.manager_eq (h : ThreeColumns lines rows)
    (hm : managerLoadHostfile lines = some manager) :
    manager = eraseSuffixes (sortHosts (rowHosts rows)) := by
  have hread : readHosts (fun _ => false) isComment HostLine.uri lines = some (rowHosts rows) := by
    rw [readHosts_eq HostLine.uri fun _ _ => rfl, h.filter_eq, h.parsed]
    rfl
  rw [managerLoadHostfile, managerSortedHosts, hread] at hm
  cases hrows : rowHosts rows with
  | nil => rw [hrows] at hm; cases hm
  | cons r rs => rw [hrows] at hm; exact (Option.some.inj hm).symm

/-- The proxy has the rows as they stand in the file. -/
theorem ThreeColumns.proxy_eq (h : ThreeColumns lines rows)
    (hp : proxyReadHostsFile lines = some proxy) :
    proxy = rows.map fun r => (r.host, r.proxyUri) := by
  have hread : readHosts (fun _ => false) isComment HostLine.proxyUri lines =
      some (rows.map fun r => (r.host, r.proxyUri)) := by
    rw [readHosts_eq HostLine.proxyUri fun _ _ => rfl, h.filter_eq, h.parsed]
    rfl
  rw [proxyReadHostsFile, hread] at hp
  cases hrows : rows.map fun r => (r.host, r.proxyUri) with
  | nil => rw [hrows] at hp; cases hp
  | cons r rs => rw [hrows] at hp; exact (Option.some.inj hp).symm

/-- What the client reads before it sorts. -/
theorem exists_of_clientLoadHostfile (hc : clientLoadHostfile lines = some client) :
    ∃ hosts, readHosts (hostsfileEndStr <:+: ·) (fun _ => false) HostLine.uri lines = some hosts ∧
      client = eraseSuffixes (sortHosts hosts) := by
  rw [clientLoadHostfile] at hc
  split at hc
  · cases hc
  · cases hc
  · next h hosts hread =>
    obtain ⟨_, -, hclient⟩ := Option.map_eq_some_iff.1 hc
    exact ⟨_, hread, hclient.symm⟩

/-- A line that ends the loop makes the list shorter than the file. -/
theorem length_readHosts_lt {stop skip : List Char → Bool} {uri : HostLine → List Char}
    {lines : List (List Char)} {hosts : List Host} (h : readHosts stop skip uri lines = some hosts)
    {line : List Char} (hmem : line ∈ lines) (hstop : stop line = true) :
    hosts.length < lines.length := by
  induction lines generalizing hosts with
  | nil => cases hmem
  | cons first lines ih =>
    rw [readHosts] at h
    split at h
    · cases h; exact Nat.succ_pos _
    · next hfirst =>
      have hmem : line ∈ lines := (mem_cons.1 hmem).resolve_left fun heq =>
        hfirst (heq ▸ hstop)
      split at h
      · exact (ih h hmem).trans (Nat.lt_succ_self _)
      split at h
      · cases h
      · obtain ⟨rest, hrest, rfl⟩ := Option.map_eq_some_iff.1 h
        exact Nat.succ_lt_succ (ih hrest hmem)

/-- Without the mark the client has the rows in order. -/
theorem ThreeColumns.client_eq (h : ThreeColumns lines rows)
    (hc : clientLoadHostfile lines = some client)
    (hmark : ∀ line ∈ lines, ¬ hostsfileEndStr <:+: line) :
    client = eraseSuffixes (sortHosts (rowHosts rows)) := by
  obtain ⟨hosts, hread, rfl⟩ := exists_of_clientLoadHostfile hc
  rw [readHosts_eq HostLine.uri fun line hline => decide_eq_false (hmark line hline)] at hread
  have hfilter : (lines.filter fun _ => !false) = lines := filter_eq_self.2 fun _ _ => rfl
  rw [hfilter, h.parsed] at hread
  rw [← Option.some.inj hread]
  rfl

/-- A client that has all the rows met no mark. -/
theorem ThreeColumns.not_mark (h : ThreeColumns lines rows)
    (hc : clientLoadHostfile lines = some client) (hlen : client.length = rows.length) :
    ∀ line ∈ lines, ¬ hostsfileEndStr <:+: line := by
  intro line hline hmark
  obtain ⟨hosts, hread, rfl⟩ := exists_of_clientLoadHostfile hc
  have hlt := length_readHosts_lt hread hline (decide_eq_true hmark)
  rw [eraseSuffixes, length_map, (sortHosts_perm hosts).length_eq,
    ← (Traverse.mapM_eq_some_iff.1 h.parsed).length_eq] at hlen
  exact absurd hlen hlt.ne

/-- If the sorted rows and the rows of the file are of the same daemon at every position, the rows
are in order. -/
theorem ThreeColumns.sorted_of_position (h : ThreeColumns lines rows) (manager : List Host)
    (hpos : ∀ i < rows.length, SameDaemonAt rows (eraseSuffixes (sortHosts (rowHosts rows)))
      manager (rows.map fun r => (r.host, r.proxyUri)) i) :
    sortHosts (rowHosts rows) = rowHosts rows := by
  have hinj := inj_on_of_nodup_map h.distinct
  have hlen : (sortHosts (rowHosts rows)).length = (rowHosts rows).length :=
    (sortHosts_perm _).length_eq
  refine ext_getElem? fun i => ?_
  by_cases hi : i < rows.length
  · obtain ⟨r, hr, hclient, -, hproxy⟩ := hpos i hi
    rw [getElem?_map] at hproxy
    obtain ⟨r', hr', heq⟩ := Option.map_eq_some_iff.1 hproxy
    -- the row of the proxy's entry is that of the file
    obtain rfl : r' = r := hinj (mem_of_getElem? hr') hr
      (congrArg eraseSuffix (Prod.ext_iff.1 heq).1)
    rw [eraseSuffixes, getElem?_map] at hclient
    obtain ⟨host, hhost, heq⟩ := Option.map_eq_some_iff.1 hclient
    obtain ⟨r'', hr'', rfl⟩ := mem_map.1
      ((sortHosts_perm _).mem_iff.1 (mem_of_getElem? hhost))
    obtain rfl : r'' = r' := hinj hr'' hr (Prod.ext_iff.1 heq).1
    rw [hhost, rowHosts, getElem?_map, hr']
    rfl
  · have hge : (rowHosts rows).length ≤ i := by
      rw [rowHosts, length_map]
      exact Nat.not_lt.1 hi
    rw [getElem?_eq_none hge, getElem?_eq_none (hlen ▸ hge)]

/-- The three parts of the file system number the daemons alike exactly if the file is in order and
no line has the mark that ends an instance. -/
theorem sameNumbering_iff (lines : List (List Char)) (rows : List HostLine)
    (client manager proxy : List Host) (h : ThreeColumns lines rows)
    (hc : clientLoadHostfile lines = some client)
    (hm : managerLoadHostfile lines = some manager)
    (hp : proxyReadHostsFile lines = some proxy) :
    SameNumbering rows client manager proxy ↔
      (rowHosts rows).Pairwise hostLe ∧ ∀ line ∈ lines, ¬ hostsfileEndStr <:+: line := by
  have hmanager := h.manager_eq hm
  have hproxy := h.proxy_eq hp
  constructor
  · intro hsame
    have hmark := h.not_mark hc hsame.clientLength
    refine ⟨sortHosts_eq_self.1 (h.sorted_of_position manager fun i hi => ?_), hmark⟩
    have := hsame.position i hi
    rwa [h.client_eq hc hmark, hproxy] at this
  · rintro ⟨hsorted, hmark⟩
    have hclient := h.client_eq hc hmark
    rw [sortHosts_eq_self.2 hsorted] at hclient hmanager
    have hpos : ∀ i < rows.length, SameDaemonAt rows client manager proxy i := by
      intro i hi
      have hr : rows[i]? = some rows[i] := getElem?_eq_getElem hi
      refine ⟨rows[i], getElem_mem hi, ?_, ?_, ?_⟩
      · rw [hclient, eraseSuffixes, rowHosts, map_map, getElem?_map, hr]
        rfl
      · rw [hmanager, eraseSuffixes, rowHosts, map_map, getElem?_map, hr]
        rfl
      · rw [hproxy, getElem?_map, hr]
        rfl
    constructor
    · rw [hclient, eraseSuffixes, rowHosts, length_map, length_map]
    · rw [hmanager, eraseSuffixes, rowHosts, length_map, length_map]
    · rw [hproxy, length_map]
    · exact hpos
    · exact fun d path => hpos _ (d.locateFileMetadata path 0).isLt
    · exact fun d path chnkId => hpos _ (d.locateData path chnkId 0).isLt

end

/-! ## A file that is in order and one that is not -/

/-- Two lines in order. -/
def orderedLines : List (List Char) :=
  ["n1 ofi+tcp://1 ofi+sockets://1".toList, "n2 ofi+tcp://2 ofi+sockets://2".toList]

/-- The first row of the two. -/
def firstRow : HostLine := ⟨"n1".toList, "ofi+tcp://1".toList, "ofi+sockets://1".toList⟩

/-- The second row of the two. -/
def secondRow : HostLine := ⟨"n2".toList, "ofi+tcp://2".toList, "ofi+sockets://2".toList⟩

/-- A file in order gives all three parts the same numbering. -/
theorem sameNumbering_iff_ordered :
    SameNumbering [firstRow, secondRow]
      [("n1".toList, "ofi+tcp://1".toList), ("n2".toList, "ofi+tcp://2".toList)]
      [("n1".toList, "ofi+tcp://1".toList), ("n2".toList, "ofi+tcp://2".toList)]
      [("n1".toList, "ofi+sockets://1".toList), ("n2".toList, "ofi+sockets://2".toList)] :=
  (sameNumbering_iff orderedLines _ _ _ _ ⟨by decide, by decide, by decide, by decide⟩ (by decide)
    (by decide) (by decide)).2 (by decide)

/-- From a file whose lines are the other way round, the client and the proxy take different daemons
as the first one. -/
theorem numbering_differs :
    clientLoadHostfile orderedLines.reverse =
        some [("n1".toList, "ofi+tcp://1".toList), ("n2".toList, "ofi+tcp://2".toList)] ∧
      managerLoadHostfile orderedLines.reverse =
        some [("n1".toList, "ofi+tcp://1".toList), ("n2".toList, "ofi+tcp://2".toList)] ∧
      proxyReadHostsFile orderedLines.reverse =
        some [("n2".toList, "ofi+sockets://2".toList), ("n1".toList, "ofi+sockets://1".toList)] ∧
      ¬ SameNumbering [secondRow, firstRow]
        [("n1".toList, "ofi+tcp://1".toList), ("n2".toList, "ofi+tcp://2".toList)]
        [("n1".toList, "ofi+tcp://1".toList), ("n2".toList, "ofi+tcp://2".toList)]
        [("n2".toList, "ofi+sockets://2".toList), ("n1".toList, "ofi+sockets://1".toList)] := by
  refine ⟨by decide, by decide, by decide, fun h => ?_⟩
  have hfirst := h.position 0 (by decide)
  rw [SameDaemonAt] at hfirst
  revert hfirst
  decide

end GekkoFS
