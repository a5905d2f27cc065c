import Mathlib.Data.Char
import Mathlib.Data.List.Infix
import Mathlib.Data.List.Lex
import Mathlib.Data.List.Sort
import Mathlib.Data.List.TakeWhile
import Mathlib.Data.Prod.Lex
import GekkoFS.Lib.Decimal

/-!
# The hosts file

Every daemon appends a line to the hosts file: its host name, with the suffix of its root directory
if it has one, its address, and the address for the proxy if it has one. The client, the proxy and
the malleability manager each have a `load_hostfile` that turns the lines into a list of host names
and addresses, whose positions number the daemons. The three are the same loop over the lines
(`readHosts`) with other rules for the lines that end it or are skipped and for the address they
take; the client and the manager sort the result and cut the suffixes off, the proxy does not.

A line that a daemon writes is read back (`parseHostLine_line`).
-/

namespace GekkoFS

open Decimal List

/-- A host name with an address. -/
abbrev Host := List Char × List Char

/-! ## A line -/

/-- The three groups of a line. -/
structure HostLine where
  host : List Char
  uri : List Char
  proxyUri : List Char
  deriving DecidableEq, Repr

/-- Match a line against `^(\S+)\s+(\S+)\s*(\S*)$`, in which every group is as long as possible.
Source: `load_hostfile` (`preload_util.cpp:159`, `proxy/util.cpp:49`,
`malleable_manager.cpp:68`). -/
def parseHostLine (line : List Char) : Option HostLine :=
  let isWord : Char → Bool := fun c => !isSpace c
  let host := line.takeWhile isWord
  let afterHost := line.dropWhile isWord
  let fromUri := afterHost.dropWhile isSpace
  let uri := fromUri.takeWhile isWord
  let fromProxyUri := (fromUri.dropWhile isWord).dropWhile isSpace
  if host = [] ∨ afterHost.takeWhile isSpace = [] ∨ uri = [] ∨
      fromProxyUri.dropWhile isWord ≠ [] then none
  else some ⟨host, uri, fromProxyUri.takeWhile isWord⟩

/-- The line that ends a file system instance. Source: `hostsfile_end_str`
(`common_defs.hpp:35`). -/
def hostsfileEndStr : List Char := "#FS_INSTANCE_END".toList

/-- Cut the suffix of the root directory off a host name: the last `#` and what follows it. -/
def eraseSuffix (host : List Char) : List Char :=
  if '#' ∈ host then ((host.reverse.dropWhile (· ≠ '#')).drop 1).reverse else host

/-! ## The three loaders -/

/-- The loop over the lines, which throws at a line that does not match: `stop` ends it, `skip`
leaves a line out, and `uri` takes the address from a line. -/
def readHosts (stop skip : List Char → Bool) (uri : HostLine → List Char) :
    List (List Char) → Option (List Host)
  | [] => some []
  | line :: lines =>
    if stop line then some []
    else if skip line then readHosts stop skip uri lines
    else
      match parseHostLine line with
      | none => none
      | some r => (readHosts stop skip uri lines).map ((r.host, uri r) :: ·)

/-- A line that starts with `#`. -/
def isComment (line : List Char) : Bool := line.head? = some '#'

/-- The order of `std::sort` on pairs of strings. -/
def hostLe (a b : Host) : Prop := toLex a ≤ toLex b

instance : DecidableRel hostLe := fun a b => inferInstanceAs (Decidable (toLex a ≤ toLex b))

/-- Source: `std::sort` in `load_hostfile` (`preload_util.cpp:188`,
`malleable_manager.cpp:95`). -/
def sortHosts (hosts : List Host) : List Host := hosts.insertionSort hostLe

/-- Source: `load_hostfile` (`preload_util.cpp:190`, `malleable_manager.cpp:97`). -/
def eraseSuffixes (hosts : List Host) : List Host := hosts.map fun h => (eraseSuffix h.1, h.2)

/-- The protocols of `gkfs::rpc::protocol::all_remote_protocols` (`common_defs.hpp:105`). -/
def allRemoteProtocols : List (List Char) :=
  ["ofi+sockets", "ofi+tcp", "ofi+verbs", "ofi+psm2", "ucx+all", "ucx+tcp", "ucx+rc",
    "ucx+ud"].map String.toList

/-- The protocol of an address, and whether the client uses shared memory for local daemons; an
address without one is refused. Source: `extract_protocol` (`preload_util.cpp:108`). -/
def extractProtocol (uri : List Char) : Option (List Char × Bool) :=
  let naSm := "na+sm".toList
  if ¬ "://".toList <:+: uri then none
  else
    match allRemoteProtocols.find? (· <:+: uri) with
    | some protocol => some (protocol, naSm <:+: uri)
    | none => if naSm <:+: uri then some (naSm, false) else none

/-- The client's list. Source: `load_hostfile` (`preload_util.cpp:149`). -/
def clientLoadHostfile (lines : List (List Char)) : Option (List Host) :=
  match readHosts (hostsfileEndStr <:+: ·) (fun _ => false) HostLine.uri lines with
  | none => none
  | some [] => none
  | some (h :: hosts) =>
    (extractProtocol h.2).map fun _ => eraseSuffixes (sortHosts (h :: hosts))

/-- The malleability manager's list before the suffixes are cut off. -/
def managerSortedHosts (lines : List (List Char)) : Option (List Host) :=
  match readHosts (fun _ => false) isComment HostLine.uri lines with
  | none => none
  | some [] => none
  | some (h :: hosts) => some (sortHosts (h :: hosts))

/-- The malleability manager's list. Source: `MalleableManager::load_hostfile`
(`malleable_manager.cpp:57`). -/
def managerLoadHostfile (lines : List (List Char)) : Option (List Host) :=
  (managerSortedHosts lines).map eraseSuffixes

/-- The proxy's list. Source: `read_hosts_file` (`proxy/util.cpp:155`) with `load_hostfile`
(`proxy/util.cpp:38`). -/
def proxyReadHostsFile (lines : List (List Char)) : Option (List Host) :=
  match readHosts (fun _ => false) isComment HostLine.proxyUri lines with
  | none => none
  | some [] => none
  | some (h :: hosts) => some (h :: hosts)

/-! ## The lines that daemons write -/

/-- What a daemon knows about itself when it writes its line. -/
structure DaemonLine where
  hostname : List Char
  rootdirSuffix : List Char
  daemonAddr : List Char
  proxyAddr : List Char
  deriving DecidableEq, Repr

namespace DaemonLine

/-- The host name as it stands in the hosts file. -/
def name (d : DaemonLine) : List Char :=
  if d.rootdirSuffix = [] then d.hostname else d.hostname ++ '#' :: d.rootdirSuffix

/-- The line of a daemon. Source: `populate_hosts_file` (`daemon/util.cpp:91`). -/
def line (d : DaemonLine) : List Char :=
  d.name ++ ' ' :: (d.daemonAddr ++ if d.proxyAddr = [] then [] else ' ' :: d.proxyAddr)

/-- The entry of a daemon in the manager's list before the suffixes are cut off. -/
def row (d : DaemonLine) : Host := (d.name, d.daemonAddr)

/-- Host names have no `#` and no blanks, a suffix with a `#` is refused when the daemon starts
(`daemon.cpp:822`), and addresses have no blanks. -/
structure Valid (d : DaemonLine) : Prop where
  hostname_ne : d.hostname ≠ []
  hostname_hash : '#' ∉ d.hostname
  suffix_hash : '#' ∉ d.rootdirSuffix
  addr_ne : d.daemonAddr ≠ []
  hostname_word : ∀ c ∈ d.hostname, isSpace c = false
  suffix_word : ∀ c ∈ d.rootdirSuffix, isSpace c = false
  addr_word : ∀ c ∈ d.daemonAddr, isSpace c = false
  proxyAddr_word : ∀ c ∈ d.proxyAddr, isSpace c = false

end DaemonLine

/-! ## What the loaders do -/

/-- Without a line that ends the loop, it matches all lines that are not skipped. -/
theorem readHosts_eq {stop skip : List Char → Bool} (uri : HostLine → List Char)
    {lines : List (List Char)} (h : ∀ line ∈ lines, stop line = false) :
    readHosts stop skip uri lines =
      ((lines.filter fun line => !skip line).mapM parseHostLine).map fun rows =>
        rows.map fun r => (r.host, uri r) := by
  induction lines with
  | nil => rfl
  | cons line lines ih =>
    have ih := ih fun l hl => h l (mem_cons_of_mem _ hl)
    rw [readHosts, h line mem_cons_self, if_neg (by simp)]
    cases hskip : skip line with
    | true => rw [if_pos rfl, ih, filter_cons_of_neg (by simp [hskip])]
    | false =>
      rw [if_neg (by simp), filter_cons_of_pos (by simp [hskip]), mapM_cons]
      cases parseHostLine line with
      | none => rfl
      | some r =>
        dsimp only
        rw [ih]
        cases (lines.filter fun line => !skip line).mapM parseHostLine <;> rfl

/-- Sorting keeps the hosts. -/
theorem sortHosts_perm (hosts : List Host) : (sortHosts hosts).Perm hosts :=
  perm_insertionSort hostLe hosts

instance : Std.Total hostLe := ⟨fun a b => le_total (toLex a) (toLex b)⟩

instance : IsTrans Host hostLe :=
  ⟨fun a b c => @le_trans (Lex Host) _ (toLex a) (toLex b) (toLex c)⟩

/-- A list that is in order is not changed by sorting it, and no other is. -/
theorem sortHosts_eq_self {hosts : List Host} : sortHosts hosts = hosts ↔ hosts.Pairwise hostLe :=
  ⟨fun h => h ▸ pairwise_insertionSort hostLe hosts, fun h => h.insertionSort_eq⟩

variable {d : DaemonLine} {w : List Char}

/-- The host name of a daemon is what is left of the name in its line. -/
theorem eraseSuffix_name (h : d.Valid) : eraseSuffix d.name = d.hostname := by
  rw [DaemonLine.name]
  split
  · rw [eraseSuffix, if_neg h.hostname_hash]
  · have hrev : (d.hostname ++ '#' :: d.rootdirSuffix).reverse =
        d.rootdirSuffix.reverse ++ '#' :: d.hostname.reverse := by simp
    have hall : ∀ c ∈ d.rootdirSuffix.reverse, (decide (c ≠ '#')) = true := fun c hc => by
      rw [decide_eq_true_eq]
      rintro rfl
      exact h.suffix_hash (mem_reverse.1 hc)
    rw [eraseSuffix, if_pos (by simp), hrev, dropWhile_append_of_pos hall,
      dropWhile_cons_of_neg (by simp), drop_succ_cons, drop_zero,
      reverse_reverse]

/-- The characters of a daemon's name are those of a word. -/
theorem name_word (h : d.Valid) : ∀ c ∈ d.name, isSpace c = false := by
  intro c hc
  rw [DaemonLine.name] at hc
  split at hc
  · exact h.hostname_word c hc
  · rcases mem_append.1 hc with hc | hc
    · exact h.hostname_word c hc
    · rcases mem_cons.1 hc with rfl | hc
      · decide
      · exact h.suffix_word c hc

theorem name_ne_nil (h : d.Valid) : d.name ≠ [] := by
  rw [DaemonLine.name]
  split
  · exact h.hostname_ne
  · exact append_ne_nil_of_right_ne_nil _ (cons_ne_nil _ _)

/-- The word at the front of a text, and what follows it. -/
theorem splitWord (hw : ∀ c ∈ w, isSpace c = false) (rest : List Char) :
    (w ++ ' ' :: rest).takeWhile (fun c => !isSpace c) = w ∧
      (w ++ ' ' :: rest).dropWhile (fun c => !isSpace c) = ' ' :: rest := by
  have hall : ∀ c ∈ w, (!isSpace c) = true := fun c hc => by rw [hw c hc]; rfl
  rw [takeWhile_append_of_pos hall, takeWhile_cons_of_neg (by decide), append_nil,
    dropWhile_append_of_pos hall, dropWhile_cons_of_neg (by decide)]
  exact ⟨rfl, rfl⟩

/-- A text that is one word. -/
theorem onlyWord (hw : ∀ c ∈ w, isSpace c = false) :
    w.takeWhile (fun c => !isSpace c) = w ∧
      w.dropWhile (fun c => !isSpace c) = [] := by
  have hall : ∀ c ∈ w, (!isSpace c) = true := fun c hc => by rw [hw c hc]; rfl
  exact ⟨takeWhile_eq_self_iff.2 hall, dropWhile_eq_nil_iff.2 hall⟩

/-- The blank before a word. -/
theorem skipSpace (hne : w ≠ []) (hw : ∀ c ∈ w, isSpace c = false)
    (rest : List Char) : (' ' :: (w ++ rest)).dropWhile isSpace = w ++ rest := by
  obtain ⟨c, w, rfl⟩ := exists_cons_of_ne_nil hne
  have hc : ¬ isSpace c = true := by
    rw [hw c mem_cons_self]
    exact Bool.false_ne_true
  rw [dropWhile_cons_of_pos (by decide), cons_append, dropWhile_cons_of_neg hc]

/-- The words of a line of two or three of them are found. -/
theorem parseHostLine_words {host uri proxyUri : List Char} (hhost : host ≠ []) (huri : uri ≠ [])
    (h₁ : ∀ c ∈ host, isSpace c = false) (h₂ : ∀ c ∈ uri, isSpace c = false)
    (h₃ : ∀ c ∈ proxyUri, isSpace c = false) :
    parseHostLine (host ++ ' ' :: (uri ++ if proxyUri = [] then [] else ' ' :: proxyUri)) =
      some ⟨host, uri, proxyUri⟩ := by
  have hblank : ∀ rest, (' ' :: rest).takeWhile isSpace ≠ [] := fun rest => by
    rw [takeWhile_cons_of_pos (by decide)]
    exact cons_ne_nil _ _
  simp only [parseHostLine, splitWord h₁, skipSpace huri h₂]
  by_cases hproxy : proxyUri = []
  · subst hproxy
    simp only [if_true, append_nil, onlyWord h₂, dropWhile_nil, takeWhile_nil]
    rw [if_neg (by simp [hhost, huri, hblank])]
  · have hskip := skipSpace hproxy h₃ []
    rw [append_nil] at hskip
    simp only [if_neg hproxy, splitWord h₂, hskip, onlyWord h₃]
    rw [if_neg (by simp [hhost, huri, hblank])]

/-- The line of a daemon is read back. -/
theorem parseHostLine_line (h : d.Valid) :
    parseHostLine d.line = some ⟨d.name, d.daemonAddr, d.proxyAddr⟩ :=
  parseHostLine_words (name_ne_nil h) h.addr_ne (name_word h) h.addr_word h.proxyAddr_word

/-- The lines of daemons are read back. -/
theorem mapM_parseHostLine_line {daemons : List DaemonLine} (h : ∀ d ∈ daemons, d.Valid) :
    (daemons.map DaemonLine.line).mapM parseHostLine =
      some (daemons.map fun d => ⟨d.name, d.daemonAddr, d.proxyAddr⟩) := by
  induction daemons with
  | nil => rfl
  | cons d ds ih =>
    rw [map_cons, mapM_cons, parseHostLine_line (h d mem_cons_self),
      ih fun d hd => h d (mem_cons_of_mem _ hd)]
    rfl

end GekkoFS
