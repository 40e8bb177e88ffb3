import Mathlib.Data.List.Forall2
import Traxos.Core.Bencode
import Traxos.Tracker.Announce
import Traxos.Tracker.State

/-! # Responses

`tracker_success_response` writes the answer to an announce by hand, as text: a dictionary with the
interval and the list of the other peers of the torrent. `trackerSuccessResponse_eq` shows that this
text is the bencoding of `responseValue`; so every decoder finds a list of peers in it, the
addresses and ports of some of the other peers (`response_faithful`). How many are listed depends on
`numwant`: the bound holds unless it is negative (`numwant_bounds_iff`). -/

namespace Traxos

namespace Tracker

/-! ## The source -/

/-- The peers of a torrent, in the order of the map. -/
def TrackerState.rows (state : TrackerState) (t : InfoHash) : List (PeerId × Peer) :=
  match state.torrents[t]? with
  | some peers => peers.toList
  | none => []

/-- The entry of a peer, `d2:ip..:..4:porti..ee`. -/
def peerEntry (peer : Peer) : Str :=
  let ip := formatIpv4 peer.ip
  "d2:ip".toList ++ formatNat ip.length ++ ":".toList ++ ip ++ "4:porti".toList ++
    formatNat peer.port.toNat ++ "ee".toList

/-- The loop of `tracker_success_response` over the peers. -/
def listPeers (req : AnnounceRequest) : List (PeerId × Peer) → Int32 → Str → Str
  | [], _, body => body
  | (peerId, peer) :: rest, count, body =>
    -- own peer doesn't need to be in peer list
    if peerId = makePeerId req.peerId then listPeers req rest count body
    else if count = req.numwant then body
    else listPeers req rest (count + 1) (body ++ peerEntry peer)

/-- `tracker_success_response`. -/
def trackerSuccessResponse (state : TrackerState) (req : AnnounceRequest) : Str :=
  let body := "d8:intervali100e5:peersl".toList
  let body := listPeers req (state.rows (makeInfoHash req.infoHash)) 0 body
  body ++ "ee".toList

/-- A digit of `hex_bytes`. -/
def hexDigit (n : ℕ) : Char := "0123456789abcdef".toList.getD n '0'

/-- `hex_bytes`. -/
def hexBytes (bytes : Id20) : Str :=
  bytes.chars.flatMap fun byte =>
    let value := byte.toNat % 256
    [hexDigit (value / 16), hexDigit (value % 16)]

/-- The line of a peer in `tracker_debug_response`. -/
def debugPeer (row : PeerId × Peer) : Str :=
  "  peer_id ".toList ++ hexBytes row.1 ++ " ip ".toList ++ formatIpv4 row.2.ip ++
    " port ".toList ++ formatNat row.2.port.toNat ++ " left ".toList ++
    formatNat row.2.left.toNat ++ " complete ".toList ++
    (if row.2.complete then "yes".toList else "no".toList) ++ "\n".toList

/-- The lines of a torrent in `tracker_debug_response`. -/
def debugTorrent (row : InfoHash × Peers) : Str :=
  "info_hash ".toList ++ hexBytes row.1 ++ " peers: ".toList ++ formatNat row.2.size ++
    "\n".toList ++ row.2.toList.flatMap debugPeer

/-- `tracker_debug_response`. -/
def trackerDebugResponse (state : TrackerState) : Str :=
  "torrents: ".toList ++ formatNat state.torrents.size ++ "\n".toList ++
    state.torrents.toList.flatMap debugTorrent

/-! ## What is listed -/

/-- The records of the torrent of a request other than the requester's own. -/
def others (state : TrackerState) (req : AnnounceRequest) : List (PeerId × Peer) :=
  (state.rows req.infoHash).filter fun row => row.1 ≠ req.peerId

/-- The peers that the loop appends. -/
def listed (req : AnnounceRequest) : List (PeerId × Peer) → Int32 → List (PeerId × Peer)
  | [], _ => []
  | row :: rest, count =>
    if row.1 = req.peerId then listed req rest count
    else if count = req.numwant then []
    else row :: listed req rest (count + 1)

/-- The value that stands for an answer with the interval and the addresses and ports of peers. -/
def responseValue (interval : ℤ) (peers : List (Str × ℤ)) : Bencode :=
  .dict [("interval".toList, .int interval),
    ("peers".toList, .list (peers.map fun peer =>
      .dict [("ip".toList, .str peer.1), ("port".toList, .int peer.2)]))]

/-- The address and the port that are listed of a peer. -/
def listing (row : PeerId × Peer) : Str × ℤ := (formatIpv4 row.2.ip, row.2.port.toNat)

section Listed

variable {state : TrackerState} {req : AnnounceRequest} {rows : List (PeerId × Peer)}
  {count : Int32}

theorem listPeers_eq (body : Str) : listPeers req rows count body =
    body ++ (listed req rows count).flatMap fun row => peerEntry row.2 := by
  induction rows generalizing count body with
  | nil => exact (List.append_nil body).symm
  | cons row rows ih =>
    obtain ⟨peerId, peer⟩ := row
    rw [listPeers, listed, makePeerId]
    by_cases hown : peerId = req.peerId
    · rw [if_pos hown, if_pos hown, ih]
    · rw [if_neg hown, if_neg hown]
      by_cases hstop : count = req.numwant
      · rw [if_pos hstop, if_pos hstop, List.flatMap_nil, List.append_nil]
      · rw [if_neg hstop, if_neg hstop, ih, List.flatMap_cons, List.append_assoc]

/-- What is listed is a part of the other peers, from the first one on. -/
theorem listed_prefix : listed req rows count <+: rows.filter fun row => row.1 ≠ req.peerId := by
  induction rows generalizing count with
  | nil => exact List.nil_prefix
  | cons row rows ih =>
    rw [listed]
    by_cases hown : row.1 = req.peerId
    · rw [if_pos hown, List.filter_cons_of_neg (by simpa using hown)]
      exact ih
    · rw [if_neg hown, List.filter_cons_of_pos (by simpa using hown)]
      by_cases hstop : count = req.numwant
      · rw [if_pos hstop]
        exact List.nil_prefix
      · rw [if_neg hstop, List.cons_prefix_cons]
        exact ⟨rfl, ih⟩

/-- As long as the counter is not above `numwant`, so many of the other peers are listed as are
still wanted. -/
theorem listed_eq_take (count : Int32) (hcount : count.toInt ≤ req.numwant.toInt) :
    listed req rows count = (rows.filter fun row => row.1 ≠ req.peerId).take
      (req.numwant.toInt - count.toInt).toNat := by
  induction rows generalizing count with
  | nil => simp [listed]
  | cons row rows ih =>
    rw [listed]
    by_cases hown : row.1 = req.peerId
    · rw [if_pos hown, List.filter_cons_of_neg (by simpa using hown), ih _ hcount]
    · rw [if_neg hown, List.filter_cons_of_pos (by simpa using hown)]
      by_cases hstop : count = req.numwant
      · rw [if_pos hstop, hstop, Int.sub_self]
        rfl
      · have hlt : count.toInt < req.numwant.toInt := by
          have hne := mt Int32.toInt_inj.mp hstop
          omega
        -- the counter is below another `int32_t`, so counting on does not overflow
        have hsucc : (count + 1).toInt = count.toInt + 1 := by
          have hmin := count.le_toInt
          have hmax := req.numwant.toInt_lt
          rw [Int32.toInt_add, show (1 : Int32).toInt = 1 from rfl]
          exact Int.bmod_eq_of_le_mul_two (by omega) (by omega)
        rw [if_neg hstop, ih _ (by omega), hsucc]
        obtain ⟨n, hn⟩ : ∃ n, (req.numwant.toInt - count.toInt).toNat = n + 1 :=
          ⟨(req.numwant.toInt - count.toInt).toNat - 1, by omega⟩
        rw [hn, List.take_succ_cons]
        congr 2
        omega

/-- With a negative `numwant` the loop does not stop before the first other peer. -/
theorem listed_ne_nil (hcount : count ≠ req.numwant)
    (hothers : (rows.filter fun row => row.1 ≠ req.peerId) ≠ []) : listed req rows count ≠ [] := by
  induction rows with
  | nil => exact absurd rfl hothers
  | cons row rows ih =>
    rw [listed]
    by_cases hown : row.1 = req.peerId
    · rw [List.filter_cons_of_neg (by simpa using hown)] at hothers
      rw [if_pos hown]
      exact ih hothers
    · rw [if_neg hown, if_neg hcount]
      exact List.cons_ne_nil _ _

end Listed

/-! ## The text -/

section Text

variable {state : TrackerState} {req : AnnounceRequest}

theorem encodeInt_natCast (n : ℕ) : Bencode.encodeInt n = formatNat n := by
  rw [Bencode.encodeInt, if_neg (Int.not_lt.mpr (Int.natCast_nonneg n)), Int.natAbs_natCast,
    formatNat]

/-- The dictionary of an address and a port. -/
theorem encode_listing (ip : Str) (port : ℕ) :
    (Bencode.dict [("ip".toList, .str ip), ("port".toList, .int port)]).encode =
      "d2:ip".toList ++ formatNat ip.length ++ ":".toList ++ ip ++ "4:porti".toList ++
        formatNat port ++ "ee".toList := by
  have hip : Bencode.encodeStr "ip".toList = "2:ip".toList := by decide
  have hport : Bencode.encodeStr "port".toList = "4:port".toList := by decide
  rw [Bencode.encode, Bencode.encodeEntries, Bencode.encodeEntries, Bencode.encodeEntries,
    Bencode.encode, Bencode.encode, hip, hport, encodeInt_natCast, Bencode.encodeStr]
  simp [formatNat]

/-- The entry of a peer is the encoding of a dictionary. -/
theorem peerEntry_eq (row : PeerId × Peer) : peerEntry row.2 =
    (Bencode.dict [("ip".toList, .str (listing row).1),
      ("port".toList, .int (listing row).2)]).encode := by
  rw [listing, encode_listing]
  rfl

theorem encodeItems_map (f : Str × ℤ → Bencode) (peers : List (Str × ℤ)) :
    Bencode.encodeItems (peers.map f) = peers.flatMap fun peer => (f peer).encode := by
  induction peers with
  | nil => rfl
  | cons peer peers ih => rw [List.map_cons, Bencode.encodeItems, ih, List.flatMap_cons]

/-- **The text is a bencoding**, of the peers that are listed. -/
theorem trackerSuccessResponse_eq (state : TrackerState) (req : AnnounceRequest) :
    trackerSuccessResponse state req =
      (responseValue 100 ((listed req (state.rows req.infoHash) 0).map listing)).encode := by
  have hinterval : Bencode.encodeStr "interval".toList = "8:interval".toList := by decide
  have hhundred : Bencode.encodeInt 100 = "100".toList := by decide
  have hpeers : Bencode.encodeStr "peers".toList = "5:peers".toList := by decide
  simp only [responseValue, Bencode.encode, Bencode.encodeEntries, hinterval, hpeers, hhundred,
    encodeItems_map, trackerSuccessResponse, makeInfoHash, listPeers_eq, List.flatMap_map,
    peerEntry_eq]
  simp

/-- The keys of all dictionaries in an answer are in order. -/
theorem canonical_responseValue (interval : ℤ) (peers : List (Str × ℤ)) :
    (responseValue interval peers).Canonical := by
  have hpeer : ∀ peer : Str × ℤ, (Bencode.dict [("ip".toList, .str peer.1),
      ("port".toList, .int peer.2)]).Canonical := by
    intro peer
    refine ⟨⟨trivial, trivial, trivial⟩, ?_⟩
    exact List.pairwise_pair.mpr (show compare "ip".toList "port".toList = .lt by decide)
  have hitems : Bencode.CanonicalItems (peers.map fun peer =>
      Bencode.dict [("ip".toList, .str peer.1), ("port".toList, .int peer.2)]) := by
    induction peers with
    | nil => trivial
    | cons peer peers ih => exact ⟨hpeer peer, ih⟩
  refine ⟨⟨trivial, hitems, trivial⟩, ?_⟩
  exact List.pairwise_pair.mpr (show compare "interval".toList "peers".toList = .lt by decide)

end Text

/-! ## What a client reads -/

section Reading

variable {state : TrackerState} {req : AnnounceRequest} {t : InfoHash}

/-- The rows of a torrent are its records. -/
theorem mem_rows {row : PeerId × Peer} :
    row ∈ state.rows t ↔ state.record t row.1 = some row.2 := by
  rw [TrackerState.rows, TrackerState.record]
  cases state.torrents[t]? with
  | none => simp
  | some peers =>
    rw [Option.bind_some]
    exact Std.ExtTreeMap.mem_toList_iff_getElem?_eq_some

theorem increasing_rows (state : TrackerState) (t : InfoHash) : Increasing (state.rows t) := by
  rw [TrackerState.rows]
  cases state.torrents[t]? with
  | none => exact List.Pairwise.nil
  | some peers => exact Std.ExtTreeMap.ordered_keys_toList

/-- The other records come in the order of their ids, and the requester's is not among them. -/
theorem others_ordered (h : state.OwnIds) (req : AnnounceRequest) :
    ((others state req).Pairwise fun a b => compare a.2.peerId b.2.peerId = .lt) ∧
      ∀ row ∈ others state req, row.2.peerId ≠ req.peerId := by
  have hown : ∀ row ∈ others state req, row.2.peerId = row.1 := fun row hrow =>
    h _ _ _ (mem_rows.mp (List.mem_of_mem_filter hrow))
  constructor
  · refine List.Pairwise.imp_of_mem (fun ha hb hlt => ?_)
      (List.Pairwise.filter _ (increasing_rows state req.infoHash))
    rwa [hown _ ha, hown _ hb]
  · intro row hrow
    rw [hown row hrow]
    simpa using (List.mem_filter.mp hrow).2

/-- The decoded peers are those of the records, one by one. -/
def Lists (peers : List (Str × ℤ)) (rows : List (PeerId × Peer)) : Prop :=
  List.Forall₂ (fun peer row => parseIpv4 peer.1 = some row.2.ip ∧ peer.2 = row.2.port.toNat)
    peers rows

theorem lists_listing (rows : List (PeerId × Peer)) : Lists (rows.map listing) rows := by
  rw [Lists, List.forall₂_map_left_iff, List.forall₂_same]
  exact fun row _ => ⟨parseIpv4_formatIpv4 row.2.ip, rfl⟩

end Reading

/-- **The answer to an announce is decodable and faithful.** When the records are stored under their
own ids, the text is a canonical bencoding, and every decoder finds in it the addresses and ports of
the first ones of the other records of the torrent, in the order of their ids. -/
theorem response_faithful (state : TrackerState) (hown : state.OwnIds) (req : AnnounceRequest)
    (d : Str → Option Bencode) (hd : Bencode.Decoder d) :
    ∃ interval peers rows,
      d (trackerSuccessResponse state req) = some (responseValue interval peers) ∧
      (responseValue interval peers).Canonical ∧
      (responseValue interval peers).encode = trackerSuccessResponse state req ∧
      rows <+: others state req ∧ Lists peers rows ∧
      ((others state req).Pairwise fun a b => compare a.2.peerId b.2.peerId = .lt) ∧
      (∀ row ∈ others state req, row.2.peerId ≠ req.peerId) ∧
      (state.torrents[req.infoHash]? = none → peers = []) := by
  have hcanonical := canonical_responseValue 100
    ((listed req (state.rows req.infoHash) 0).map listing)
  have hencode := trackerSuccessResponse_eq state req
  obtain ⟨hordered, hother⟩ := others_ordered hown req
  refine ⟨100, _, _, ?_, hcanonical, hencode.symm, listed_prefix, lists_listing _, hordered, hother,
    fun hnone => ?_⟩
  · rw [hencode]
    exact hd _ hcanonical
  · rw [TrackerState.rows, hnone]
    rfl

/-- Three peers of a torrent, of which the first one asks, as `decode` reads the answer. -/
theorem response_faithful_decode : ∃ interval peers,
    Bencode.decode (trackerSuccessResponse
      (applyAnnounce (applyAnnounce (applyAnnounce {} { ip := 167772161 })
        { peerId := ⟨List.replicate 20 'q', by decide⟩, ip := 167772171, port := 6882 })
        { peerId := ⟨List.replicate 20 'p', by decide⟩, ip := 2130706433, port := 65535 }) {}) =
        some (responseValue interval peers) ∧
    peers = [("127.0.0.1".toList, 65535), ("10.0.0.11".toList, 6882)] := by
  obtain ⟨interval, peers, rows, hdecode, hcanonical, hencode, -⟩ := response_faithful
    (applyAnnounce (applyAnnounce (applyAnnounce {} { ip := 167772161 })
      { peerId := ⟨List.replicate 20 'q', by decide⟩, ip := 167772171, port := 6882 })
      { peerId := ⟨List.replicate 20 'p', by decide⟩, ip := 2130706433, port := 65535 })
    (((ownIds_empty.applyAnnounce _).applyAnnounce _).applyAnnounce _) {} Bencode.decode
    Bencode.decoder_decode
  rw [trackerSuccessResponse_eq] at hencode
  -- an encoding is that of one value
  have hvalue := Bencode.encode_inj_of_canonical hcanonical (canonical_responseValue ..) hencode
  simp only [responseValue, Bencode.dict.injEq, List.cons.injEq, Prod.mk.injEq, Bencode.list.injEq,
    true_and, and_true] at hvalue
  refine ⟨interval, peers, hdecode, (List.map_injective_iff.mpr fun peer peer' h => ?_) hvalue.2⟩
  simpa [Prod.ext_iff] using h

/-! ## How many are listed -/

/-- The answer lists the first ones of the other records, as many as `numwant` asks for. -/
def NumwantBounds (state : TrackerState) (req : AnnounceRequest) : Prop :=
  trackerSuccessResponse state req =
    (responseValue 100
      (((others state req).take (max req.numwant.toInt 0).toNat).map listing)).encode

/-- A negative `numwant` does not stop the loop, whose counter starts at zero. -/
theorem not_numwantBounds {state : TrackerState} {req : AnnounceRequest}
    (hneg : req.numwant.toInt < 0) (hothers : others state req ≠ []) :
    ¬ NumwantBounds state req := by
  rw [NumwantBounds, trackerSuccessResponse_eq, show (max req.numwant.toInt 0).toNat = 0 by omega,
    List.take_zero]
  intro h
  have hcount : (0 : Int32) ≠ req.numwant := by
    intro heq
    rw [← heq] at hneg
    exact absurd hneg (by decide)
  -- one of the two lists is empty, the other is not
  have hlists := Bencode.encode_inj_of_canonical (canonical_responseValue ..)
    (canonical_responseValue ..) h
  simp only [responseValue, Bencode.dict.injEq, List.cons.injEq, Prod.mk.injEq,
    Bencode.list.injEq, List.map_eq_nil_iff, List.map_nil] at hlists
  exact listed_ne_nil hcount hothers hlists.2.1.2

/-- **When `numwant` bounds the list**: unless it is negative and there are other peers. -/
theorem numwant_bounds_iff (state : TrackerState) (req : AnnounceRequest) :
    NumwantBounds state req ↔ 0 ≤ req.numwant.toInt ∨ others state req = [] := by
  constructor
  · intro h
    by_contra hnot
    obtain ⟨hneg, hothers⟩ := not_or.mp hnot
    exact not_numwantBounds (Int.not_le.mp hneg) hothers h
  · rw [NumwantBounds, trackerSuccessResponse_eq]
    rintro (hpos | hnil)
    · rw [listed_eq_take 0 hpos, show (0 : Int32).toInt = 0 from rfl, Int.sub_zero,
        Int.max_eq_left hpos]
      rfl
    · have hlisted : listed req (state.rows req.infoHash) 0 = [] := by
        rw [← List.prefix_nil, ← hnil]
        exact listed_prefix
      rw [hlisted, hnil, List.take_nil]

/-- **A negative `numwant` is accepted and ignored**: the one other peer is listed. -/
theorem numwant_negative_lists_all : ¬ ∀ (state : TrackerState) (params : List (Str × Str)),
    (parseAnnounceRequest params {} []).2 = [] →
      NumwantBounds state (parseAnnounceRequest params {} []).1 := by
  intro hclaim
  have hbounds := hclaim
    (applyAnnounce {} { peerId := ⟨List.replicate 20 'p', by decide⟩, port := 6881 })
    [("numwant".toList, "-1".toList)] (by decide)
  exact not_numwantBounds (by decide) (by decide) hbounds

end Tracker

end Traxos
