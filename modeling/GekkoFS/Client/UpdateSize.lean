import GekkoFS.Daemon.MetadataHandler

/-!
# Size updates on their way to the metadata daemons

Before a write the client has the size of the file updated, directly on the daemon of each copy of
the metadata entry or through the proxy on its node, which asks the daemon of the first copy. For an
append the offset of the write is the one that comes back.

The functions of both routes are translated with what becomes of each request on the way as their
input (`SizeReply`). A write should go on only if some daemon accepted the size update, at the
offset that daemon gave for an append (`SizeUpdateSound`). The reply loop of the direct route drops
the error codes of the daemons, and the proxy answers with error 0 always, so this holds exactly
under `SizeUpdateAccepted`.
-/

namespace GekkoFS

open List

/-- What becomes of a size update that is sent to a daemon: it cannot be posted, the answer does not
arrive, or the daemon answers with an error code and an offset. Source:
`rpc_update_metadentry_size_out_t` (`rpc_types.hpp:76`). -/
inductive SizeReply
  | notPosted
  | lost
  | replied (err retOffset : Int)
  deriving DecidableEq, Repr

/-! ## The direct route -/

/-- The variables of the client's reply loop. -/
structure SizeCollect where
  err : Int
  outSize : Int
  valid : Bool
  deriving DecidableEq, Repr

/-- One answer. Source: `forward_update_metadentry_size` (`client/rpc/forward_metadata.cpp:560`). -/
def collectSize (s : SizeCollect) : SizeReply → SizeCollect
  | .replied err retOffset =>
    if err ≠ 0 then s else { s with valid := true, outSize := retOffset }
  | .lost => if s.valid then s else { s with err := EIO }
  | .notPosted => s

/-- The error code and the offset of a size update on the daemons of all copies. Source:
`forward_update_metadentry_size` (`client/rpc/forward_metadata.cpp:529`). -/
def forwardUpdateMetadentrySize (replies : List SizeReply) : Int × Int :=
  if .notPosted ∈ replies then (EBUSY, 0)
  else
    let s := replies.foldl collectSize ⟨0, 0, false⟩
    if s.valid then (0, s.outSize) else (s.err, 0)

/-! ## The proxy route -/

/-- The error code and the offset that the proxy gets. Source: `forward_update_metadentry_size`
(`proxy/rpc/forward_metadata.cpp:348`). -/
def proxyForwardUpdateMetadentrySize : SizeReply → Int × Int
  | .notPosted => (EBUSY, 0)
  | .lost => (EBUSY, 0)
  | .replied err retOffset => (err, retOffset)

/-- The answer of the proxy, which may fail to read the request and then answers with its zeroed
output; it does not pass the error on. Source: `proxy_rpc_srv_update_metadentry_size`
(`proxy/rpc/srv_metadata.cpp:148`). -/
def proxyRpcSrvUpdateMetadentrySize (inputOk : Bool) (reply : SizeReply) : Int × Int :=
  if inputOk then (0, (proxyForwardUpdateMetadentrySize reply).2) else (0, 0)

/-- The error code and the offset that the client gets from the proxy. Source:
`forward_update_metadentry_size_proxy` (`client/rpc/forward_metadata_proxy.cpp:132`). -/
def forwardUpdateMetadentrySizeProxy (link : Delivery) (out : Int × Int) : Int × Int :=
  match link with
  | .delivered => if out.1 ≠ 0 then (out.1, 0) else (0, out.2)
  | .notPosted => (EBUSY, 0)
  | .replyLost => (EBUSY, 0)

/-! ## Writes -/

/-- The route of a size update and what becomes of its requests: one for each copy of the metadata
entry, or one to the proxy and one from there. -/
inductive SizeRoute
  | direct (numCopies : Nat) (reply : Nat → SizeReply)
  | proxy (link : Delivery) (inputOk : Bool) (reply : SizeReply)

namespace SizeRoute

/-- The error code and the offset of a size update. Source: `update_file_size`
(`preload_util.cpp:330`). -/
def updateFileSize : SizeRoute → Int × Int
  | direct numCopies reply =>
    forwardUpdateMetadentrySize ((List.range (numCopies + 1)).map reply)
  | proxy link inputOk reply =>
    forwardUpdateMetadentrySizeProxy link (proxyRpcSrvUpdateMetadentrySize inputOk reply)

/-- Some daemon that was asked answered with an error code and an offset. -/
def Answered (err retOffset : Int) : SizeRoute → Prop
  | direct numCopies reply => ∃ copy ≤ numCopies, reply copy = .replied err retOffset
  | proxy link inputOk reply =>
    link ≠ .notPosted ∧ inputOk = true ∧ reply = .replied err retOffset

end SizeRoute

/-- The offset at which a write goes on after its size update, or the error it ends with. Source:
`gkfs_do_write` (`gkfs_functions.cpp:951`), without the write size cache. -/
def gkfsDoWriteOffset (isAppend : Bool) (offset : Int) (retOffset : Int × Int) : Except Int Int :=
  if retOffset.1 ≠ 0 then .error retOffset.1
  else if isAppend then
    if retOffset.2 = -1 then .error EIO else .ok retOffset.2
  else .ok offset

/-- A size update without an error was accepted by a daemon, and an append goes on at an offset that
such a daemon returned. -/
def SizeUpdateSound (route : SizeRoute) (isAppend : Bool) (offset : Int) : Prop :=
  route.updateFileSize.1 = 0 →
    (∃ retOffset, route.Answered 0 retOffset) ∧
    ∀ used, isAppend = true → gkfsDoWriteOffset isAppend offset route.updateFileSize = .ok used →
      route.Answered 0 used

/-- Directly: some daemon accepts the update, or some answer is lost, or some request cannot be
posted. Through the proxy: the proxy reads the request and the daemon accepts the update, or the
proxy's answer does not get to the client. -/
def SizeUpdateAccepted : SizeRoute → Prop
  | .direct numCopies reply =>
    ∃ copy ≤ numCopies, (∃ retOffset, reply copy = .replied 0 retOffset) ∨ reply copy = .lost ∨
      reply copy = .notPosted
  | .proxy link inputOk reply =>
    link ≠ .delivered ∨ (inputOk = true ∧ ∃ retOffset, reply = .replied 0 retOffset)

/-! ## The reply loop -/

/-- The loop has seen a valid answer exactly if there is one. -/
theorem valid_collectSize (replies : List SizeReply) (s : SizeCollect) :
    (replies.foldl collectSize s).valid = true ↔
      s.valid = true ∨ ∃ retOffset, .replied 0 retOffset ∈ replies := by
  induction replies generalizing s with
  | nil => simp
  | cons r rs ih =>
    rw [foldl_cons, ih]
    cases r with
    | notPosted => simp [collectSize]
    | lost =>
      cases hs : s.valid <;> simp [collectSize, hs]
    | replied err retOffset =>
      by_cases herr : err = 0
      · simp [collectSize, herr]
      · simp [collectSize, herr, Ne.symm herr]

/-- The offset of the loop is that of a valid answer. -/
theorem outSize_collectSize {replies : List SizeReply} {s : SizeCollect}
    (h : (replies.foldl collectSize s).valid = true) :
    (s.valid = true ∧ (replies.foldl collectSize s).outSize = s.outSize) ∨
      .replied 0 (replies.foldl collectSize s).outSize ∈ replies := by
  induction replies generalizing s with
  | nil => exact .inl ⟨h, rfl⟩
  | cons r rs ih =>
    rw [foldl_cons] at h ⊢
    rcases ih h with ⟨hvalid, heq⟩ | hmem
    · rw [heq]
      cases r with
      | notPosted => exact .inl ⟨hvalid, rfl⟩
      | lost =>
        rw [collectSize] at hvalid ⊢
        split at hvalid
        · next hs => rw [if_pos hs]; exact .inl ⟨hvalid, rfl⟩
        · next hs => exact absurd hvalid hs
      | replied err retOffset =>
        rw [collectSize] at hvalid ⊢
        split at hvalid
        · next herr => rw [if_pos herr]; exact .inl ⟨hvalid, rfl⟩
        · next herr =>
          rw [if_neg herr, Decidable.not_not.1 herr]
          exact .inr mem_cons_self
    · exact .inr (mem_cons_of_mem _ hmem)

/-- Without a valid answer, the error of the loop comes from lost answers only. -/
theorem err_collectSize {replies : List SizeReply} {s : SizeCollect}
    (h : (replies.foldl collectSize s).valid = false) :
    (replies.foldl collectSize s).err = if .lost ∈ replies then ( EIO : Int) else s.err := by
  induction replies generalizing s with
  | nil => simp
  | cons r rs ih =>
    rw [foldl_cons] at h ⊢
    rw [ih h]
    cases r with
    | notPosted => simp [collectSize]
    | lost =>
      have hs : s.valid = false := by
        cases hs : s.valid with
        | false => rfl
        | true =>
          have := (valid_collectSize rs (collectSize s .lost)).2 (.inl (by simp [collectSize, hs]))
          rw [h] at this
          cases this
      simp [collectSize, hs]
    | replied err retOffset =>
      by_cases herr : err = 0
      · simp [collectSize, herr]
      · simp [collectSize, herr]

/-- A size update on the daemons that returns no error was accepted by one, whose offset it returns,
or every daemon refused it. -/
theorem forwardUpdateMetadentrySize_eq_zero (replies : List SizeReply) :
    (forwardUpdateMetadentrySize replies).1 = 0 ↔ .notPosted ∉ replies ∧
      ((.replied 0 (forwardUpdateMetadentrySize replies).2 ∈ replies) ∨
        ((∀ retOffset, .replied 0 retOffset ∉ replies) ∧ .lost ∉ replies)) := by
  have hbusy : EBUSY ≠ 0 := by decide
  have hio : EIO ≠ 0 := by decide
  have hvalid := valid_collectSize replies ⟨0, 0, false⟩
  rw [forwardUpdateMetadentrySize]
  by_cases hpost : .notPosted ∈ replies
  · simp [hpost, hbusy]
  · rw [if_neg hpost]
    dsimp only
    cases hv : (replies.foldl collectSize ⟨0, 0, false⟩).valid with
    | true =>
      rcases outSize_collectSize hv with ⟨hfalse, -⟩ | hmem
      · cases hfalse
      · simp [hpost, hmem]
    | false =>
      have hnone : ∀ retOffset, .replied 0 retOffset ∉ replies := fun retOffset hmem => by
        have := hvalid.2 (.inr ⟨retOffset, hmem⟩)
        rw [hv] at this
        cases this
      have herr := err_collectSize hv
      by_cases hlost : .lost ∈ replies
      · rw [if_pos hlost] at herr
        simp [herr, hio, hlost, hnone]
      · rw [if_neg hlost] at herr
        simp [herr, hlost, hnone, hpost]

/-! ## When a write may rely on its size update -/

/-- A size update without an error that some daemon accepted gives an append an offset that such a
daemon returned. -/
theorem answered_of_gkfsDoWriteOffset {route : SizeRoute} {isAppend : Bool} {offset used : Int}
    (hzero : route.updateFileSize.1 = 0) (happend : isAppend = true)
    (hanswer : route.Answered 0 route.updateFileSize.2)
    (hused : gkfsDoWriteOffset isAppend offset route.updateFileSize = .ok used) :
    route.Answered 0 used := by
  rw [gkfsDoWriteOffset, if_neg (by simp [hzero]), if_pos happend] at hused
  split at hused
  · cases hused
  · cases hused; exact hanswer

/-- The direct route. -/
theorem sizeUpdateSound_direct_iff (numCopies : Nat) (reply : Nat → SizeReply) (isAppend : Bool)
    (offset : Int) :
    SizeUpdateSound (.direct numCopies reply) isAppend offset ↔
      SizeUpdateAccepted (.direct numCopies reply) := by
  have hmem : ∀ r, r ∈ (List.range (numCopies + 1)).map reply ↔
      ∃ copy ≤ numCopies, reply copy = r := fun r => by
    simp only [mem_map, mem_range, Nat.lt_succ_iff]
  have hzero := forwardUpdateMetadentrySize_eq_zero ((List.range (numCopies + 1)).map reply)
  constructor
  · intro hsound
    by_contra hacc
    have hno : ∀ r, (r = .lost ∨ r = .notPosted ∨ ∃ retOffset, r = .replied 0 retOffset) →
        r ∉ (List.range (numCopies + 1)).map reply := by
      intro r hr hin
      obtain ⟨copy, hcopy, heq⟩ := (hmem r).1 hin
      refine hacc ⟨copy, hcopy, ?_⟩
      rcases hr with rfl | rfl | ⟨retOffset, rfl⟩
      · exact .inr (.inl heq)
      · exact .inr (.inr heq)
      · exact .inl ⟨retOffset, heq⟩
    have hno0 : ∀ retOffset, .replied 0 retOffset ∉ (List.range (numCopies + 1)).map reply :=
      fun retOffset => hno _ (.inr (.inr ⟨retOffset, rfl⟩))
    obtain ⟨⟨retOffset, copy, hcopy, heq⟩, -⟩ := hsound
      (hzero.2 ⟨hno _ (.inr (.inl rfl)), .inr ⟨hno0, hno _ (.inl rfl)⟩⟩)
    exact hno0 retOffset ((hmem _).2 ⟨copy, hcopy, heq⟩)
  · intro hacc hz
    obtain ⟨hpost, hanswer | ⟨hnone, hlost⟩⟩ := hzero.1 hz
    · have hanswer := (hmem _).1 hanswer
      exact ⟨⟨_, hanswer⟩, fun used happend hused =>
        answered_of_gkfsDoWriteOffset hz happend hanswer hused⟩
    · obtain ⟨copy, hcopy, ⟨retOffset, heq⟩ | heq | heq⟩ := hacc
      · exact absurd ((hmem _).2 ⟨copy, hcopy, heq⟩) (hnone retOffset)
      · exact absurd ((hmem _).2 ⟨copy, hcopy, heq⟩) hlost
      · exact absurd ((hmem _).2 ⟨copy, hcopy, heq⟩) hpost

/-- The proxy route. -/
theorem sizeUpdateSound_proxy_iff (link : Delivery) (inputOk : Bool) (reply : SizeReply)
    (isAppend : Bool) (offset : Int) :
    SizeUpdateSound (.proxy link inputOk reply) isAppend offset ↔
      SizeUpdateAccepted (.proxy link inputOk reply) := by
  have hbusy : (EBUSY : Int) ≠ 0 := by decide
  cases link with
  | notPosted => exact ⟨fun _ => .inl nofun, fun _ hz => absurd hz hbusy⟩
  | replyLost => exact ⟨fun _ => .inl nofun, fun _ hz => absurd hz hbusy⟩
  | delivered =>
    have hz : (SizeRoute.proxy .delivered inputOk reply).updateFileSize.1 = 0 := by
      cases inputOk <;> rfl
    constructor
    · intro hsound
      obtain ⟨⟨retOffset, -, hinput, hreply⟩, -⟩ := hsound hz
      exact .inr ⟨hinput, retOffset, hreply⟩
    · rintro (hlink | ⟨rfl, retOffset, rfl⟩) -
      · exact absurd rfl hlink
      · have hanswer : (SizeRoute.proxy .delivered true (.replied 0 retOffset)).Answered 0
            retOffset := ⟨nofun, rfl, rfl⟩
        exact ⟨⟨retOffset, hanswer⟩, fun used happend hused =>
          answered_of_gkfsDoWriteOffset hz happend hanswer hused⟩

/-- A write can rely on its size update exactly if, on the direct route, a daemon accepts the update
or an answer or a request is lost, and, on the proxy route, the daemon accepts the update or the
client gets no answer from the proxy. -/
theorem sizeUpdateSound_iff (route : SizeRoute) (isAppend : Bool) (offset : Int) :
    SizeUpdateSound route isAppend offset ↔ SizeUpdateAccepted route := by
  cases route with
  | direct numCopies reply => exact sizeUpdateSound_direct_iff numCopies reply isAppend offset
  | proxy link inputOk reply =>
    exact sizeUpdateSound_proxy_iff link inputOk reply isAppend offset

/-- The answer of a daemon that does not hold the file to an append. -/
def refusedAppend : SizeReply :=
  let out := (rpcSrvUpdateMetadentrySize MetadataConfig.default ⟨∅, fun _ => none, ∅⟩ "/f".toList
    4 0 true 7 0).1
  .replied out.1 out.2

/-- The only daemon refuses an append; on both routes the client takes this for success and goes on
to write at offset 0. -/
theorem refusedAppend_goes_on :
    ¬ SizeUpdateSound (.direct 0 fun _ => refusedAppend) true 0 ∧
    ¬ SizeUpdateSound (.proxy .delivered true refusedAppend) true 0 ∧
    gkfsDoWriteOffset true 0 (SizeRoute.updateFileSize (.direct 0 fun _ => refusedAppend)) =
      .ok 0 ∧
    gkfsDoWriteOffset true 0
      (SizeRoute.updateFileSize (.proxy .delivered true refusedAppend)) = .ok 0 := by
  have hrefused : refusedAppend = .replied EBUSY 0 := by decide
  rw [hrefused]
  refine ⟨fun h => ?_, fun h => ?_, rfl, rfl⟩
  · obtain ⟨⟨retOffset, copy, -, heq⟩, -⟩ := h rfl
    cases heq
  · obtain ⟨⟨retOffset, -, -, heq⟩, -⟩ := h rfl
    cases heq

end GekkoFS
