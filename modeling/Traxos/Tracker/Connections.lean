import Traxos.Core.KeyedStore
import Traxos.Core.Machine
import Traxos.Tracker.Response

/-! # Connections

`handle_connection` serves the requests of one connection in turn, any number of connections at a
time. Between receiving a request and sending the answer it does not suspend, so a request is
parsed, given the address of its connection and applied in one step of the machine `server`. The
tracker remembers the last accepted announce of each peer (`last_announce_wins`), but an announce
that lacks its `info_hash` or its `peer_id` is accepted as well (`identified_only_iff`). -/

namespace Traxos

namespace Tracker

/-! ## The source -/

/-- What `handle_connection` looks at of a `cotamer::http_message`. -/
structure HttpMessage where
  path : Str
  url : Str
  searchParams : List (Str × Str)
  deriving DecidableEq, Repr

/-- The answer to a request. -/
structure HttpResponse where
  statusCode : ℕ
  contentType : Str
  body : Str
  deriving DecidableEq, Repr

/-- A response of plain text. -/
def HttpResponse.text (statusCode : ℕ) (body : Str) : HttpResponse :=
  { statusCode := statusCode, contentType := "text/plain".toList, body := body }

/-- The address of the connection stands in for one that the announce left 0. -/
def withConnectionIp (connectionIp : Option UInt32) (req : AnnounceRequest) : AnnounceRequest :=
  match connectionIp with
  | some ip => if req.ip = 0 then { req with ip := ip } else req
  | none => req

/-- The body of the loop of `handle_connection`, from a request to its answer. -/
def handleRequest (state : TrackerState) (connectionIp : Option UInt32) (req : HttpMessage) :
    HttpResponse × TrackerState :=
  if req.path = "/announce".toList then
    let parsed := parseAnnounceRequest req.searchParams {} []
    let btReq := withConnectionIp connectionIp parsed.1
    let failure := parsed.2
    if failure ≠ [] then (.text 200 failure, state)
    else
      let state := applyAnnounce state btReq
      (.text 200 (trackerSuccessResponse state btReq), state)
  else if req.path = "/debug".toList then (.text 200 (trackerDebugResponse state), state)
  else
    (.text 404 ("you asked for ".toList ++ req.url ++
      ", but probably want /announce instead\n".toList), state)

/-- Where `handle_connection` suspends. -/
inductive Phase
  /-- In `hp.receive()`. -/
  | receiving
  /-- In `hp.send(res)`. -/
  | sending (res : HttpResponse)
  /-- It has returned. -/
  | closed
  deriving DecidableEq, Repr

/-- A running `handle_connection`. -/
structure Connection where
  connectionIp : Option UInt32
  phase : Phase := .receiving
  deriving DecidableEq, Repr

/-- The state of the tracker and all connections that were accepted. -/
structure ServerState where
  tracker : TrackerState := {}
  connections : List Connection := []

/-- What happens next. -/
inductive ServerAction
  /-- `run_server` accepts a connection; the address is what `peer_ipv4` says. -/
  | accept (connectionIp : Option UInt32)
  /-- Connection `c` receives a request and handles it. -/
  | receive (c : ℕ) (req : HttpMessage)
  /-- The peer of connection `c` closed, or there was a parse error. -/
  | hangUp (c : ℕ)
  /-- The answer of connection `c` is sent; `should_keep_alive` says whether the loop goes on. -/
  | sent (c : ℕ) (keepAlive : Bool)
  deriving DecidableEq, Repr

/-- Put connection `c` into another phase. -/
def ServerState.setPhase (s : ServerState) (c : ℕ) (phase : Phase) : ServerState :=
  { s with connections := s.connections.modify c fun conn => { conn with phase := phase } }

/-- One step of the server. -/
def serverStep (s : ServerState) : ServerAction → Option ServerState
  | .accept connectionIp =>
    some { s with connections := s.connections ++ [{ connectionIp := connectionIp }] }
  | .receive c req => do
    let conn ← s.connections[c]?
    if conn.phase = .receiving then
      let (res, tracker) := handleRequest s.tracker conn.connectionIp req
      some ({ s with tracker := tracker }.setPhase c (.sending res))
    else none
  | .hangUp c => do
    let conn ← s.connections[c]?
    if conn.phase = .receiving then some (s.setPhase c .closed) else none
  | .sent c keepAlive => do
    let conn ← s.connections[c]?
    match conn.phase with
    | .sending _ => some (s.setPhase c (if keepAlive then .receiving else .closed))
    | _ => none

/-- `run_server` with its connections. -/
def server : Machine ServerState ServerAction := { init := {}, step := serverStep }

/-! ## Requests received -/

/-- A request and the address of the connection that it came on. -/
structure Received where
  connectionIp : Option UInt32
  req : HttpMessage

namespace Received

/-- What the search parameters say. -/
def announce (r : Received) : AnnounceRequest := (parseAnnounceRequest r.req.searchParams {} []).1

/-- An announce that was parsed without failure. -/
def Accepted (r : Received) : Prop :=
  r.req.path = "/announce".toList ∧ (parseAnnounceRequest r.req.searchParams {} []).2 = []

instance (r : Received) : Decidable r.Accepted := inferInstanceAs (Decidable (_ ∧ _))

/-- The torrent and the peer that it names. -/
def key (r : Received) : InfoHash × PeerId := (r.announce.infoHash, r.announce.peerId)

/-- The record that an accepted announce leaves of the peer `p`. -/
structure RecordOf (r : Received) (p : PeerId) (peer : Peer) : Prop where
  peerId : peer.peerId = p
  ip : peer.ip = if r.announce.ip = 0 then r.connectionIp.getD 0 else r.announce.ip
  port : peer.port = r.announce.port
  uploaded : peer.uploaded = r.announce.uploaded
  downloaded : peer.downloaded = r.announce.downloaded
  left : peer.left = r.announce.left
  complete : peer.complete = true ↔ r.announce.event = .completed ∨ r.announce.left = 0

/-- Handle it. -/
def handle (state : TrackerState) (r : Received) : TrackerState :=
  (handleRequest state r.connectionIp r.req).2

end Received

/-- The requests received in a run, in the order in which they were handled. -/
def received (tr : List (ServerState × ServerAction)) : List Received :=
  tr.filterMap fun p =>
    match p.2 with
    | .receive c req => (p.1.connections[c]?).map fun conn => ⟨conn.connectionIp, req⟩
    | _ => none

/-- The last accepted announce for the torrent `t` and the peer `p`. -/
def lastAccepted (rs : List Received) (t : InfoHash) (p : PeerId) : Option Received :=
  rs.reverse.find? fun r => r.Accepted ∧ r.key = (t, p)

section Handling

variable {state : TrackerState} {r : Received} {connectionIp : Option UInt32}
  {req : AnnounceRequest} {s s' : ServerState} {a : ServerAction}

/-- Only the address may change. -/
theorem withConnectionIp_eq (connectionIp : Option UInt32) (req : AnnounceRequest) :
    withConnectionIp connectionIp req =
      { req with ip := if req.ip = 0 then connectionIp.getD 0 else req.ip } := by
  cases connectionIp with
  | none =>
    show req = _
    by_cases h : req.ip = 0
    · rw [if_pos h, Option.getD_none, ← h]
    · rw [if_neg h]
  | some ip =>
    show (if req.ip = 0 then { req with ip := ip } else req) = _
    by_cases h : req.ip = 0
    · rw [if_pos h, if_pos h, Option.getD_some]
    · rw [if_neg h, if_neg h]

/-- An accepted announce is applied. -/
theorem Received.handle_of_accepted (h : r.Accepted) (state : TrackerState) :
    r.handle state = applyAnnounce state (withConnectionIp r.connectionIp r.announce) := by
  rw [handle, handleRequest, if_pos h.1]
  simp only
  rw [if_neg (not_not_intro h.2)]
  rfl

/-- **Rejected announces and requests for other paths change nothing.** -/
theorem Received.handle_of_not_accepted (h : ¬ r.Accepted) (state : TrackerState) :
    r.handle state = state := by
  rw [handle, handleRequest]
  by_cases hpath : r.req.path = "/announce".toList
  · rw [if_pos hpath]
    simp only
    rw [if_pos fun hfailure => h ⟨hpath, hfailure⟩]
  · rw [if_neg hpath]
    split <;> rfl

/-- What an accepted announce leaves of its peer. -/
def Received.outcome (r : Received) : Option Peer :=
  (withConnectionIp r.connectionIp r.announce).outcome

/-- **What a request does**: an accepted announce decides the record that it names. -/
theorem Received.record_handle (state : TrackerState) (r : Received) (k : InfoHash × PeerId) :
    (r.handle state).record k.1 k.2 =
      if (if r.Accepted then some r.key else none) = some k then r.outcome
      else state.record k.1 k.2 := by
  by_cases h : r.Accepted
  · have hkey : ((withConnectionIp r.connectionIp r.announce).infoHash,
        (withConnectionIp r.connectionIp r.announce).peerId) = r.key := by
      rw [withConnectionIp_eq]
      rfl
    rw [r.handle_of_accepted h, if_pos h, record_applyAnnounce, hkey]
    simp only [Option.some.injEq]
    rfl
  · rw [r.handle_of_not_accepted h, if_neg h, if_neg (by simp)]

/-- The tracker as a store that is written by requests. -/
def requests : KeyedStore TrackerState Received (InfoHash × PeerId) Peer where
  write := fun state r => r.handle state
  read := fun state k => state.record k.1 k.2
  key := fun r => if r.Accepted then some r.key else none
  content := Received.outcome
  read_write := Received.record_handle

theorem lastAt_requests (rs : List Received) (t : InfoHash) (p : PeerId) :
    requests.lastAt rs (t, p) = lastAccepted rs t p := by
  rw [KeyedStore.lastAt, lastAccepted]
  congr 1
  funext r
  by_cases h : r.Accepted <;> simp [requests, h]

theorem Received.outcome_eq (r : Received) : r.outcome =
    if r.announce.event = .stopped then none
    else some { r.announce.peer with
      ip := if r.announce.ip = 0 then r.connectionIp.getD 0 else r.announce.ip } := by
  rw [outcome, withConnectionIp_eq]
  rfl

/-- The record has the fields of the announce. -/
theorem Received.recordOf_of_outcome {p : PeerId} {peer : Peer} (hkey : r.key.2 = p)
    (h : r.outcome = some peer) : r.RecordOf p peer := by
  rw [outcome_eq, Option.ite_none_left_eq_some] at h
  obtain rfl := Option.some.inj h.2
  refine ⟨hkey, rfl, rfl, rfl, rfl, rfl, ?_⟩
  simp [AnnounceRequest.peer]

theorem Received.outcome_isSome : r.outcome.isSome ↔ r.announce.event ≠ .stopped := by
  rw [outcome_eq]
  by_cases h : r.announce.event = .stopped
  · simp [h]
  · simp [h]

theorem received_snoc (tr : List (ServerState × ServerAction)) (s : ServerState)
    (a : ServerAction) : received (tr ++ [(s, a)]) = received tr ++ received [(s, a)] :=
  List.filterMap_append

/-- **One step** of the server handles the request received in it, if any. -/
theorem tracker_of_step (h : serverStep s a = some s') :
    s'.tracker = (received [(s, a)]).foldl (fun state r => r.handle state) s.tracker := by
  cases a with
  | accept connectionIp =>
    obtain rfl := Option.some.inj h
    rfl
  | receive c req =>
    obtain ⟨conn, hconn, h⟩ := Option.bind_eq_some_iff.mp h
    rw [Option.ite_none_right_eq_some] at h
    obtain rfl := Option.some.inj h.2
    have hreceived : received [(s, .receive c req)] = [⟨conn.connectionIp, req⟩] := by
      simp [received, hconn]
    rw [hreceived]
    rfl
  | hangUp c =>
    obtain ⟨conn, -, h⟩ := Option.bind_eq_some_iff.mp h
    rw [Option.ite_none_right_eq_some] at h
    obtain rfl := Option.some.inj h.2
    rfl
  | sent c keepAlive =>
    obtain ⟨conn, -, h⟩ := Option.bind_eq_some_iff.mp h
    split at h
    · obtain rfl := Option.some.inj h
      rfl
    · cases h

/-- **A run** of the server handles the requests received in it, one after the other. -/
theorem tracker_of_trace {tr : List (ServerState × ServerAction)} (h : server.Trace tr s) :
    s.tracker = (received tr).foldl requests.write {} := by
  refine h.invariant (I := fun tr s => s.tracker = (received tr).foldl requests.write {}) rfl ?_
  intro tr s a s' hs hstep
  rw [received_snoc, List.foldl_append, ← hs]
  exact tracker_of_step hstep

/-- The records after a run are those of the last accepted announces. -/
theorem record_of_trace {tr : List (ServerState × ServerAction)} (h : server.Trace tr s)
    (t : InfoHash) (p : PeerId) :
    s.tracker.record t p = (lastAccepted (received tr) t p).bind Received.outcome := by
  have hread := requests.read_foldl {} (received tr) (t, p)
  rw [lastAt_requests, ← tracker_of_trace h] at hread
  show requests.read s.tracker (t, p) = _
  rw [hread, show requests.read {} (t, p) = none from record_empty t p]
  cases lastAccepted (received tr) t p with
  | none => rfl
  | some r => rfl

end Handling

/-- **The tracker remembers exactly the last accepted announce of each peer**, whichever connections
the requests came on. What is not an accepted announce changes nothing, announces for different
peers commute, and a repeated announce is idempotent. -/
theorem last_announce_wins (tr : List (ServerState × ServerAction)) (s : ServerState)
    (htr : server.Trace tr s) (t : InfoHash) (p : PeerId) :
    ((s.tracker.record t p).isSome ↔
      ∃ r, lastAccepted (received tr) t p = some r ∧ r.announce.event ≠ .stopped) ∧
    (∀ r peer, lastAccepted (received tr) t p = some r → s.tracker.record t p = some peer →
      r.RecordOf p peer) ∧
    (∀ state (r : Received), ¬ r.Accepted → r.handle state = state) ∧
    (∀ state (r r' : Received) t' p', r.key ≠ r'.key →
      (r'.handle (r.handle state)).record t' p' = (r.handle (r'.handle state)).record t' p') ∧
    ∀ state (r : Received) t' p',
      (r.handle (r.handle state)).record t' p' = (r.handle state).record t' p' := by
  have hrecord := record_of_trace htr t p
  refine ⟨?_, fun r peer hr hpeer => ?_, fun state r h => r.handle_of_not_accepted h state,
    fun state r r' t' p' hne => ?_, fun state r t' p' => ?_⟩
  · rw [hrecord]
    cases lastAccepted (received tr) t p with
    | none => simp
    | some r =>
      rw [Option.bind_some, Received.outcome_isSome]
      simp
  · rw [hrecord, hr, Option.bind_some] at hpeer
    refine Received.recordOf_of_outcome ?_ hpeer
    have hkey := List.find?_some hr
    rw [decide_eq_true_eq] at hkey
    rw [hkey.2]
  · refine requests.read_write_comm (s := state) (a := r) (b := r') (fun k hk hk' => ?_) (t', p')
    have hr : (if r.Accepted then some r.key else none) = some k := hk
    have hr' : (if r'.Accepted then some r'.key else none) = some k := hk'
    rw [Option.ite_none_right_eq_some] at hr hr'
    exact hne (Option.some.inj (hr.2.trans hr'.2.symm))
  · exact requests.read_write_self (s := state) (a := r) (t', p')

/-- Two connections that announce the same peer. -/
theorem last_announce_wins_twice : ∃ tr s, server.Trace tr s ∧ (received tr).length = 2 ∧
    (s.tracker.record .zero .zero).isSome := by
  let stopped : HttpMessage := ⟨"/announce".toList, [], [("event".toList, "stopped".toList)]⟩
  let started : HttpMessage := ⟨"/announce".toList, [], [("event".toList, "started".toList)]⟩
  obtain ⟨tr, s, htr, htwo, hlast⟩ := Machine.exists_trace_of_record (M := server)
    [.accept (some 1), .accept none, .receive 1 stopped, .receive 0 started]
    (P := fun tr _ => (received tr).length = 2 ∧
      (lastAccepted (received tr) .zero .zero).any (fun r => r.announce.event ≠ .stopped) = true)
    (by decide)
  obtain ⟨r, hr, hevent⟩ := (Option.any_eq_true _ _).mp hlast
  exact ⟨tr, s, htr, htwo, (last_announce_wins tr s htr .zero .zero).1.mpr
    ⟨r, hr, of_decide_eq_true hevent⟩⟩

/-- The records of every state that the server can reach are stored under their own ids. -/
theorem ownIds_of_trace {tr : List (ServerState × ServerAction)} {s : ServerState}
    (h : server.Trace tr s) : s.tracker.OwnIds := by
  rw [tracker_of_trace h]
  induction received tr using List.reverseRecOn with
  | nil => exact ownIds_empty
  | append_singleton rs r ih =>
    rw [List.foldl_append, List.foldl_cons, List.foldl_nil]
    show (r.handle _).OwnIds
    by_cases hr : r.Accepted
    · rw [r.handle_of_accepted hr]
      exact ih.applyAnnounce _
    · rwa [r.handle_of_not_accepted hr]

/-! ## Announces without ids -/

/-- An announce is applied to the record of the ids that it supplies, and one that lacks an id is
answered as a failure and changes nothing. -/
structure IdentifiedOnly (state : TrackerState) (r : Received) : Prop where
  applied : r.Accepted → ∃ t p : Id20,
    lastValue "info_hash".toList r.req.searchParams = some t.chars ∧
    lastValue "peer_id".toList r.req.searchParams = some p.chars ∧
    ∀ t' p', (r.handle state).record t' p' =
      if (t, p) = (t', p') then r.outcome else state.record t' p'
  lacking : valuesOf "info_hash".toList r.req.searchParams = [] ∨
      valuesOf "peer_id".toList r.req.searchParams = [] →
    (parseAnnounceRequest r.req.searchParams {} []).2 ≠ [] ∧
    (handleRequest state r.connectionIp r.req).1.body =
      (parseAnnounceRequest r.req.searchParams {} []).2 ∧
    r.handle state = state

theorem lastValue_eq_some_of_ne_nil {name : Str} {params : List (Str × Str)}
    (h : valuesOf name params ≠ []) : ∃ value, lastValue name params = some value :=
  ⟨_, List.getLast?_eq_some_getLast h⟩

/-- An accepted announce with both ids is applied under them. -/
theorem applied_of_supplied {state : TrackerState} {r : Received} (h : r.Accepted)
    (hinfo : valuesOf "info_hash".toList r.req.searchParams ≠ [])
    (hpeer : valuesOf "peer_id".toList r.req.searchParams ≠ []) : ∃ t p : Id20,
      lastValue "info_hash".toList r.req.searchParams = some t.chars ∧
      lastValue "peer_id".toList r.req.searchParams = some p.chars ∧
      ∀ t' p', (r.handle state).record t' p' =
        if (t, p) = (t', p') then r.outcome else state.record t' p' := by
  have hreads : Reads r.announce fun name => lastValue name r.req.searchParams :=
    reads_of_wellFormed (parseAnnounceRequest_snd_eq_nil.mp h.2).2
  obtain ⟨info, hinfo⟩ := lastValue_eq_some_of_ne_nil hinfo
  obtain ⟨peer, hpeer⟩ := lastValue_eq_some_of_ne_nil hpeer
  have hinfoHash := hreads.infoHash
  have hpeerId := hreads.peerId
  simp only [hinfo, hpeer, FieldIs] at hinfoHash hpeerId
  refine ⟨r.announce.infoHash, r.announce.peerId, by rw [hinfo, hinfoHash],
    by rw [hpeer, hpeerId], fun t' p' => ?_⟩
  rw [r.record_handle state (t', p'), if_pos h]
  simp only [Option.some.injEq]
  rfl

/-- A rejected announce is answered by its failure and changes nothing. -/
theorem answer_of_failure {state : TrackerState} {r : Received}
    (hpath : r.req.path = "/announce".toList)
    (h : (parseAnnounceRequest r.req.searchParams {} []).2 ≠ []) :
    (handleRequest state r.connectionIp r.req).1.body =
      (parseAnnounceRequest r.req.searchParams {} []).2 ∧ r.handle state = state := by
  constructor
  · rw [handleRequest, if_pos hpath]
    simp only
    rw [if_pos h]
    rfl
  · exact r.handle_of_not_accepted (fun haccepted => h haccepted.2) state

/-- **When only identified peers are registered**: when the parameters contain both ids, or when one
of them is malformed. -/
theorem identified_only_iff (state : TrackerState) (connectionIp : Option UInt32) (url : Str)
    (params : List (Str × Str)) :
    IdentifiedOnly state ⟨connectionIp, "/announce".toList, url, params⟩ ↔
      (valuesOf "info_hash".toList params ≠ [] ∧ valuesOf "peer_id".toList params ≠ []) ∨
        ∃ p ∈ params, ¬ WellFormed p.1 p.2 := by
  have hfailure : (parseAnnounceRequest params {} []).2 = [] ↔
      ∀ p ∈ params, WellFormed p.1 p.2 := by
    rw [parseAnnounceRequest_snd_eq_nil, eq_self, true_and]
  constructor
  · intro h
    by_contra hnot
    obtain ⟨hids, hwf⟩ := not_or.mp hnot
    -- all values are well formed, so the announce is accepted though an id is lacking
    have hall : ∀ p ∈ params, WellFormed p.1 p.2 := fun p hp =>
      by_contra fun hbad => hwf ⟨p, hp, hbad⟩
    refine (h.lacking ?_).1 (hfailure.mpr hall)
    by_cases hinfo : valuesOf "info_hash".toList params = []
    · exact Or.inl hinfo
    · exact Or.inr (by_contra fun hpeer => hids ⟨hinfo, hpeer⟩)
  · intro h
    constructor
    · intro haccepted
      have hall := hfailure.mp haccepted.2
      have hids := h.resolve_right fun ⟨p, hp, hbad⟩ => hbad (hall p hp)
      exact applied_of_supplied haccepted hids.1 hids.2
    · intro hlacking
      have hbad := h.resolve_left fun hids => hlacking.elim hids.1 hids.2
      have hrejected : (parseAnnounceRequest params {} []).2 ≠ [] := fun hnil => by
        obtain ⟨p, hp, hbad⟩ := hbad
        exact hbad (hfailure.mp hnil p hp)
      exact ⟨hrejected, answer_of_failure rfl hrejected⟩

/-- **An announce without ids is accepted**, and registers the peer whose bytes are all zero. -/
theorem anonymous_announce_registers : ¬ ∀ (state : TrackerState) (connectionIp : Option UInt32)
    (url : Str) (params : List (Str × Str)),
    IdentifiedOnly state ⟨connectionIp, "/announce".toList, url, params⟩ := by
  intro hclaim
  have hlacking := (hclaim {} none [] []).lacking (Or.inl rfl)
  exact hlacking.1 rfl

/-! ## Peers that come and go -/

/-- A stopped announce for the peer `p` of the torrent `t` leaves the state as it is, and takes back
any other announce for them. -/
structure StopUndoesStart (state : TrackerState) (t : InfoHash) (p : PeerId) : Prop where
  stopped : ∀ stop : AnnounceRequest, stop.infoHash = t → stop.peerId = p →
    stop.event = .stopped → applyAnnounce state stop = state
  startedStopped : ∀ start stop : AnnounceRequest, start.infoHash = t → start.peerId = p →
    start.event ≠ .stopped → stop.infoHash = t → stop.peerId = p → stop.event = .stopped →
    applyAnnounce (applyAnnounce state start) stop = state

/-- An announce that stops a peer of a torrent that is known, and any announce for it before, leave
no trace. -/
theorem stopUndoesStart_of_known {state : TrackerState} {t : InfoHash} {p : PeerId}
    (hnone : state.record t p = none) (hknown : (state.torrents[t]?).isSome) :
    StopUndoesStart state t p := by
  have hoverwritten : ∀ (s : TrackerState) (stop : AnnounceRequest) (t' : InfoHash) (p' : PeerId),
      stop.infoHash = t → stop.peerId = p → stop.event = .stopped →
      (s.record t' p' = state.record t' p' ∨ (t, p) = (t', p')) →
      (applyAnnounce s stop).record t' p' = state.record t' p' := by
    intro s stop t' p' ht hp hevent h
    rw [record_applyAnnounce, ht, hp]
    by_cases hkey : (t, p) = (t', p')
    · obtain ⟨rfl, rfl⟩ := Prod.mk.inj hkey
      rw [if_pos rfl, AnnounceRequest.outcome, if_pos hevent, hnone]
    · rw [if_neg hkey]
      exact h.resolve_right hkey
  constructor
  · intro stop ht hp hevent
    refine TrackerState.ext_record (fun t' => ?_) fun t' p' =>
      hoverwritten state stop t' p' ht hp hevent (Or.inl rfl)
    rw [isSome_torrents_applyAnnounce, ht, or_iff_right_iff_imp]
    rintro rfl
    exact hknown
  · intro start stop ht hp _ ht' hp' hevent
    refine TrackerState.ext_record (fun t' => ?_) fun t' p' =>
      hoverwritten _ stop t' p' ht' hp' hevent ?_
    · rw [isSome_torrents_applyAnnounce, isSome_torrents_applyAnnounce, ht, ht', or_self_left,
        or_iff_right_iff_imp]
      rintro rfl
      exact hknown
    · rw [record_applyAnnounce, ht, hp]
      by_cases hkey : (t, p) = (t', p')
      · exact Or.inr hkey
      · exact Or.inl (if_neg hkey)

/-- **When stopping undoes starting**: when the torrent is known. For one that is not, a stopped
announce adds it to the torrents that are counted. -/
theorem stop_undoes_start_iff (state : TrackerState) (t : InfoHash) (p : PeerId)
    (hnone : state.record t p = none) :
    (StopUndoesStart state t p ↔ (state.torrents[t]?).isSome) ∧
    ((state.torrents[t]?).isSome = false → ∀ stop : AnnounceRequest, stop.infoHash = t →
      (applyAnnounce state stop).torrents.size = state.torrents.size + 1) := by
  have hgrows : (state.torrents[t]?).isSome = false → ∀ stop : AnnounceRequest,
      stop.infoHash = t → (applyAnnounce state stop).torrents.size = state.torrents.size + 1 := by
    rintro hnew stop rfl
    rw [size_torrents_applyAnnounce, hnew, if_neg Bool.false_ne_true]
  refine ⟨⟨fun h => ?_, stopUndoesStart_of_known hnone⟩, hgrows⟩
  by_contra hnew
  let stop : AnnounceRequest := { infoHash := t, peerId := p, event := .stopped }
  have hstop := h.stopped stop rfl rfl rfl
  have hsize := hgrows (Bool.eq_false_iff.mpr hnew) stop rfl
  rw [hstop] at hsize
  omega

/-- A torrent of which one peer has been seen: another one comes and goes. -/
theorem stop_undoes_start_iff_known :
    let state := applyAnnounce {} { infoHash := .zero, peerId := ⟨List.replicate 20 'a', rfl⟩ }
    StopUndoesStart state .zero .zero := by
  intro state
  have hnone : state.record .zero .zero = none := by
    rw [record_applyAnnounce, if_neg (by decide), record_empty]
  refine (stop_undoes_start_iff state .zero .zero hnone).1.mpr ?_
  rw [isSome_torrents_applyAnnounce]
  exact Or.inl rfl

/-- **A peer that was never there leaves a torrent behind** when it stops. -/
theorem stopped_announce_adds_torrent : ¬ ∀ (tr : List (ServerState × ServerAction))
    (s : ServerState), server.Trace tr s → ∀ (t : InfoHash) (p : PeerId),
    s.tracker.record t p = none → StopUndoesStart s.tracker t p := by
  intro hclaim
  have hundoes := hclaim [] {} .init .zero .zero (record_empty _ _)
  have hstop := hundoes.stopped { event := .stopped } rfl rfl rfl
  have hsize := congrArg (fun state => state.torrents.size) hstop
  simp only [size_torrents_applyAnnounce] at hsize
  exact absurd hsize (by decide)

end Tracker

end Traxos
