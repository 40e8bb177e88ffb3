import Traxos.Core.OrderedWalk
import Traxos.Tracker.Types

/-! # Applying announces

`apply_announce` is the only function that changes the state of the tracker. It writes the record of
one peer under one torrent, or erases it, and leaves all others alone (`record_applyAnnounce`). -/

namespace Traxos

namespace Tracker

/-! ## The source -/

/-- `make_info_hash`. -/
def makeInfoHash (bytes : Id20) : InfoHash := bytes

/-- `make_peer_id`. -/
def makePeerId (bytes : Id20) : PeerId := bytes

/-- The record that an announce makes of its peer. -/
def AnnounceRequest.peer (req : AnnounceRequest) : Peer where
  peerId := makePeerId req.peerId
  ip := req.ip
  port := req.port
  uploaded := req.uploaded
  downloaded := req.downloaded
  left := req.left
  complete := req.event == .completed || req.left == 0

/-- `apply_announce`. The access `torrents[info_hash]` inserts an empty map for a new torrent. -/
def applyAnnounce (state : TrackerState) (req : AnnounceRequest) : TrackerState :=
  let infoHash := makeInfoHash req.infoHash
  let peerId := makePeerId req.peerId
  let peers := (state.torrents[infoHash]?).getD ∅
  if req.event = .stopped then
    { torrents := state.torrents.insert infoHash (peers.erase peerId) }
  else { torrents := state.torrents.insert infoHash (peers.insert peerId req.peer) }

/-! ## Records -/

/-- The record of the peer `p` under the torrent `t`. -/
def TrackerState.record (state : TrackerState) (t : InfoHash) (p : PeerId) : Option Peer :=
  (state.torrents[t]?).bind fun peers => peers[p]?

/-- What an announce leaves of its peer: nothing when it is a stopped one. -/
def AnnounceRequest.outcome (req : AnnounceRequest) : Option Peer :=
  if req.event = .stopped then none else some req.peer

section Records

variable {state : TrackerState} {t : InfoHash} {p : PeerId}

@[simp] theorem record_empty (t : InfoHash) (p : PeerId) :
    ({} : TrackerState).record t p = none := by
  rw [TrackerState.record, show ({} : TrackerState).torrents = ∅ from rfl,
    Std.ExtTreeMap.getElem?_empty, Option.bind_none]

theorem getElem?_torrents_insert (peers : Peers) (t t' : InfoHash) :
    (state.torrents.insert t peers)[t']? = if t = t' then some peers else state.torrents[t']? := by
  rw [getElem?_insert_ite]
  simp only [@eq_comm _ t t']

/-- **What an announce does**: it decides the record of its own peer and torrent, and no other. -/
theorem record_applyAnnounce (state : TrackerState) (req : AnnounceRequest) (t : InfoHash)
    (p : PeerId) : (applyAnnounce state req).record t p =
      if (req.infoHash, req.peerId) = (t, p) then req.outcome else state.record t p := by
  -- the peers of the torrent before the announce, none when it is new
  have hpeers : ∀ p, (((state.torrents[req.infoHash]?).getD ∅ : Peers)[p]?) =
      state.record req.infoHash p := by
    intro p
    rw [TrackerState.record]
    cases state.torrents[req.infoHash]? with
    | none => exact Std.ExtTreeMap.getElem?_empty
    | some peers => rfl
  have hrecord : ∀ peers : Peers, ({ torrents := state.torrents.insert req.infoHash peers } :
      TrackerState).record t p = if req.infoHash = t then peers[p]? else state.record t p := by
    intro peers
    rw [TrackerState.record, getElem?_torrents_insert]
    split <;> rfl
  simp only [applyAnnounce, makeInfoHash, makePeerId, Prod.mk.injEq, AnnounceRequest.outcome]
  by_cases hstopped : req.event = .stopped
  · rw [if_pos hstopped, if_pos hstopped, hrecord]
    by_cases ht : req.infoHash = t
    · rw [if_pos ht, Std.ExtTreeMap.getElem?_erase, hpeers, ht]
      simp only [Std.LawfulEqCmp.compare_eq_iff_eq, true_and]
    · rw [if_neg ht, if_neg fun h => ht h.1]
  · rw [if_neg hstopped, if_neg hstopped, hrecord]
    by_cases ht : req.infoHash = t
    · rw [if_pos ht, Std.ExtTreeMap.getElem?_insert, hpeers, ht]
      simp only [Std.LawfulEqCmp.compare_eq_iff_eq, true_and]
    · rw [if_neg ht, if_neg fun h => ht h.1]

/-- The torrents that the tracker knows after an announce. -/
theorem isSome_torrents_applyAnnounce (state : TrackerState) (req : AnnounceRequest)
    (t : InfoHash) : ((applyAnnounce state req).torrents[t]?).isSome ↔
      req.infoHash = t ∨ (state.torrents[t]?).isSome := by
  have hinsert : ∀ peers : Peers, ((state.torrents.insert req.infoHash peers)[t]?).isSome ↔
      req.infoHash = t ∨ (state.torrents[t]?).isSome := by
    intro peers
    rw [getElem?_torrents_insert]
    by_cases ht : req.infoHash = t
    · rw [if_pos ht, Option.isSome_some, eq_self, true_iff]
      exact Or.inl ht
    · rw [if_neg ht, or_iff_right ht]
  rw [applyAnnounce]
  split
  · exact hinsert _
  · exact hinsert _

/-- An announce adds its torrent when it is new. -/
theorem size_torrents_applyAnnounce (state : TrackerState) (req : AnnounceRequest) :
    (applyAnnounce state req).torrents.size =
      if (state.torrents[req.infoHash]?).isSome then state.torrents.size
      else state.torrents.size + 1 := by
  have hinsert : ∀ peers : Peers, (state.torrents.insert req.infoHash peers).size =
      if (state.torrents[req.infoHash]?).isSome then state.torrents.size
      else state.torrents.size + 1 := by
    intro peers
    rw [Std.ExtTreeMap.size_insert, ← Std.ExtTreeMap.contains_eq_isSome_getElem?]
  rw [applyAnnounce]
  split
  · exact hinsert _
  · exact hinsert _

/-- A state is determined by its torrents and its records. -/
theorem TrackerState.ext_record {s s' : TrackerState}
    (hknown : ∀ t : InfoHash, (s.torrents[t]?).isSome ↔ (s'.torrents[t]?).isSome)
    (hrecord : ∀ t p, s.record t p = s'.record t p) : s = s' := by
  have htorrents : s.torrents = s'.torrents := by
    refine Std.ExtTreeMap.ext_getElem? fun t => ?_
    have hknown := hknown t
    have hrecord := hrecord t
    simp only [TrackerState.record] at hrecord
    cases hs : s.torrents[t]? with
    | none =>
      rw [hs, Option.isSome_none, Bool.false_eq_true, false_iff, Option.not_isSome_iff_eq_none]
        at hknown
      exact hknown.symm
    | some peers =>
      rw [hs, Option.isSome_some, eq_self, true_iff, Option.isSome_iff_exists] at hknown
      obtain ⟨peers', hs'⟩ := hknown
      simp only [hs, hs', Option.bind_some] at hrecord
      rw [hs', Std.ExtTreeMap.ext_getElem? fun p => hrecord p]
  cases s
  exact congrArg TrackerState.mk htorrents

/-- Every record is stored under its own `peer_id`. -/
def TrackerState.OwnIds (state : TrackerState) : Prop :=
  ∀ t p peer, state.record t p = some peer → peer.peerId = p

theorem ownIds_empty : ({} : TrackerState).OwnIds := by
  intro t p peer h
  rw [record_empty] at h
  cases h

/-- Announces store records under their own ids. -/
theorem TrackerState.OwnIds.applyAnnounce (h : state.OwnIds) (req : AnnounceRequest) :
    (applyAnnounce state req).OwnIds := by
  intro t p peer hpeer
  rw [record_applyAnnounce] at hpeer
  split at hpeer
  · rename_i hkey
    rw [AnnounceRequest.outcome] at hpeer
    split at hpeer
    · cases hpeer
    · obtain rfl := Option.some.inj hpeer
      exact (Prod.mk.inj hkey).2
  · exact h t p peer hpeer

end Records

end Tracker

end Traxos
