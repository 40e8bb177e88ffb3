import Traxos.Tracker.Connections

/-! # Announces as messages

`tracker/messages.hh` wraps announces into requests with serial numbers, for replicas that process a
log of them. `process_request` is the path through `apply_announce` and `tracker_success_response`
that `handle_connection` takes as well, so the server behaves as a replica that processes the
announces it accepts (`server_follows_log`). What a log leaves is told by the last announce of each
peer (`logs_agree_iff`); the serial is not looked at, so a retransmission that comes late is applied
again (`retransmission_harmless_iff`). -/

namespace Traxos

namespace Tracker

namespace Message

/-! ## The source -/

/-- `tracker::errc`. -/
inductive Errc
  | ok
  | redirect
  deriving DecidableEq, Repr

/-- `request_base`. -/
structure RequestBase where
  serial : UInt64 := 0
  deriving DecidableEq

/-- `response_base`. -/
structure ResponseBase where
  serial : UInt64 := 0
  errcode : Errc := .ok
  deriving DecidableEq

/-- `announce_request`. -/
structure AnnounceRequest extends RequestBase where
  announce : Tracker.AnnounceRequest
  deriving DecidableEq

/-- `announce_response`. -/
structure AnnounceResponse extends ResponseBase where
  body : Str
  deriving DecidableEq

/-- `redirection_response`. -/
structure RedirectionResponse extends ResponseBase where
  redirection : ℕ := 0
  deriving DecidableEq

/-- `request`, a variant with one alternative. -/
inductive Request
  | announce (req : AnnounceRequest)
  deriving DecidableEq

/-- `response`. -/
inductive Response
  | redirection (resp : RedirectionResponse)
  | announce (resp : AnnounceResponse)
  deriving DecidableEq

/-- The alternative that a request holds. -/
def Request.req : Request → AnnounceRequest
  | .announce req => req

/-- `message_serial` of a request. -/
def Request.messageSerial : Request → UInt64
  | .announce req => req.serial

/-- `message_serial` of a response. -/
def Response.messageSerial : Response → UInt64
  | .redirection resp => resp.serial
  | .announce resp => resp.serial

/-- `response_header`. -/
def responseHeader (req : RequestBase) (errcode : Errc) : ResponseBase :=
  { serial := req.serial, errcode := errcode }

/-- `process_announce`. -/
def processAnnounce (state : TrackerState) (req : AnnounceRequest) :
    AnnounceResponse × TrackerState :=
  let state := applyAnnounce state req.announce
  ({ toResponseBase := responseHeader req.toRequestBase .ok
     body := trackerSuccessResponse state req.announce }, state)

/-- `process_request`. -/
def processRequest (state : TrackerState) : Request → Response × TrackerState
  | .announce req =>
    let (resp, state) := processAnnounce state req
    (.announce resp, state)

/-! ## Logs -/

/-- The state after a log of requests. -/
def processLog (state : TrackerState) (log : List Request) : TrackerState :=
  log.foldl (fun state q => (processRequest state q).2) state

/-- The torrent and the peer that a request names. -/
def Request.key (q : Request) : InfoHash × PeerId := (q.req.announce.infoHash, q.req.announce.peerId)

/-- The last request of a log for the torrent and the peer of `k`. -/
def lastFor (log : List Request) (k : InfoHash × PeerId) : Option Request :=
  log.reverse.find? fun q => q.key = k

/-- What a log leaves of the torrent and the peer of `k`. -/
def remembered (state : TrackerState) (log : List Request) (k : InfoHash × PeerId) : Option Peer :=
  ((lastFor log k).map fun q => q.req.announce.outcome).getD (state.record k.1 k.2)

/-- Some request of the log names the torrent `t`. -/
def Mentions (log : List Request) (t : InfoHash) : Prop := ∃ q ∈ log, q.key.1 = t

/-- The tracker as a store that is written by messages. -/
def messages : KeyedStore TrackerState Request (InfoHash × PeerId) Peer where
  write := fun state q => (processRequest state q).2
  read := fun state k => state.record k.1 k.2
  key := fun q => some q.key
  content := fun q => q.req.announce.outcome
  read_write := fun state q k => by
    cases q with
    | announce req =>
      show (applyAnnounce state req.announce).record k.1 k.2 = _
      rw [record_applyAnnounce]
      simp only [Option.some.injEq]
      rfl

section Logs

variable {state : TrackerState} {log log' : List Request} {q : Request} {t : InfoHash}
  {k : InfoHash × PeerId}

theorem lastAt_messages (log : List Request) (k : InfoHash × PeerId) :
    messages.lastAt log k = lastFor log k := by
  rw [KeyedStore.lastAt, lastFor]
  congr 1
  funext q
  simp [messages]

/-- The records after a log. -/
theorem record_processLog (state : TrackerState) (log : List Request) (k : InfoHash × PeerId) :
    (processLog state log).record k.1 k.2 = remembered state log k := by
  have hread := messages.read_foldl state log k
  rw [lastAt_messages] at hread
  exact hread

/-- The torrents known after a log. -/
theorem isSome_torrents_processLog (state : TrackerState) (log : List Request) (t : InfoHash) :
    ((processLog state log).torrents[t]?).isSome ↔
      Mentions log t ∨ (state.torrents[t]?).isSome := by
  induction log generalizing state with
  | nil =>
    rw [or_iff_right fun h : Mentions [] t => List.not_mem_nil h.choose_spec.1]
    rfl
  | cons q log ih =>
    have hmentions : Mentions (q :: log) t ↔ q.key.1 = t ∨ Mentions log t := by
      simp only [Mentions, List.mem_cons, exists_eq_or_imp]
    have hstep : (((processRequest state q).2).torrents[t]?).isSome ↔
        q.key.1 = t ∨ (state.torrents[t]?).isSome := by
      cases q with
      | announce req => exact isSome_torrents_applyAnnounce state req.announce t
    rw [processLog, List.foldl_cons]
    refine (ih (processRequest state q).2).trans ?_
    rw [hstep, hmentions, or_left_comm, or_assoc]

theorem lastFor_append (log log' : List Request) (k : InfoHash × PeerId) :
    lastFor (log ++ log') k = (lastFor log' k).or (lastFor log k) := by
  simp only [← lastAt_messages]
  exact messages.lastAt_append log log' k

theorem lastFor_singleton (q : Request) (k : InfoHash × PeerId) :
    lastFor [q] k = if q.key = k then some q else none := by
  rw [lastFor, List.reverse_singleton, List.find?_singleton]
  simp only [decide_eq_true_eq]

/-- A log that names the torrents of the other one and remembers the same of all peers leaves the same
state. -/
theorem processLog_eq (hmentions : ∀ t, (state.torrents[t]?) = none →
      (Mentions log t ↔ Mentions log' t))
    (hremembered : ∀ k, remembered state log k = remembered state log' k) :
    processLog state log = processLog state log' := by
  refine TrackerState.ext_record (fun t => ?_) fun t p => ?_
  · rw [isSome_torrents_processLog, isSome_torrents_processLog]
    cases ht : state.torrents[t]? with
    | none => rw [hmentions t ht]
    | some peers => simp
  · rw [record_processLog state log (t, p), record_processLog state log' (t, p)]
    exact hremembered (t, p)

end Logs

/-- **When logs agree**: two logs leave the same state exactly if they name the same torrents, apart
from those known before, and leave the same of every peer, which the last request for it decides. -/
theorem logs_agree_iff (state : TrackerState) (log log' : List Request) :
    processLog state log = processLog state log' ↔
      (∀ t, state.torrents[t]? = none → (Mentions log t ↔ Mentions log' t)) ∧
      ∀ k, remembered state log k = remembered state log' k := by
  constructor
  · intro h
    refine ⟨fun t ht => ?_, fun k => ?_⟩
    · have hlog := isSome_torrents_processLog state log t
      have hlog' := isSome_torrents_processLog state log' t
      rw [ht, Option.isSome_none, Bool.false_eq_true, or_false] at hlog hlog'
      rw [← hlog, ← hlog', h]
    · rw [← record_processLog, ← record_processLog, h]
  · rintro ⟨hmentions, hremembered⟩
    exact processLog_eq hmentions hremembered

/-- **When a retransmission is harmless**: an announce that is processed once more, under whatever
serial, changes nothing exactly if the last request for its peer since then, if there was one, left
the same of it. -/
theorem retransmission_harmless_iff (state : TrackerState) (log log' : List Request) (q q' : Request)
    (hsame : q'.req.announce = q.req.announce) :
    processLog state (log ++ q :: log' ++ [q']) = processLog state (log ++ q :: log') ↔
      ∀ q'', lastFor log' q.key = some q'' → q''.req.announce.outcome = q.req.announce.outcome := by
  have hkey : q'.key = q.key := by rw [Request.key, Request.key, hsame]
  -- what the log leaves of the peer before the retransmission
  have hbefore : ∀ k, remembered state (log ++ q :: log') k =
      ((((lastFor log' k).or (if q.key = k then some q else none)).or (lastFor log k)).map
        fun q => q.req.announce.outcome).getD (state.record k.1 k.2) := by
    intro k
    rw [remembered, lastFor_append, ← List.singleton_append, lastFor_append, lastFor_singleton]
  have hafter : ∀ k, remembered state (log ++ q :: log' ++ [q']) k =
      if q.key = k then q.req.announce.outcome else remembered state (log ++ q :: log') k := by
    intro k
    rw [remembered, lastFor_append, lastFor_singleton, hkey]
    by_cases hk : q.key = k
    · rw [if_pos hk, if_pos hk, Option.some_or, Option.map_some, Option.getD_some, hsame]
    · rw [if_neg hk, if_neg hk, Option.none_or, remembered]
  constructor
  · intro heq q'' hlast
    have hown := record_processLog state (log ++ q :: log') q.key
    rw [← heq, record_processLog, hafter, if_pos rfl, hbefore, hlast] at hown
    exact hown.symm
  · intro hsince
    refine processLog_eq (fun t _ => ?_) fun k => ?_
    · -- the torrent was named before
      have hmem : ∀ q'', q'' ∈ log ++ q :: log' ++ [q'] ↔ q'' ∈ log ++ q :: log' ∨ q'' = q' := by
        intro q''
        rw [List.mem_append, List.mem_singleton]
      constructor
      · rintro ⟨q'', hq'', ht⟩
        rcases (hmem q'').mp hq'' with hold | rfl
        · exact ⟨q'', hold, ht⟩
        · exact ⟨q, List.mem_append_right _ List.mem_cons_self, hkey ▸ ht⟩
      · rintro ⟨q'', hq'', ht⟩
        exact ⟨q'', (hmem q'').mpr (.inl hq''), ht⟩
    · rw [hafter]
      by_cases hk : q.key = k
      · subst hk
        rw [if_pos rfl, hbefore]
        cases hlast : lastFor log' q.key with
        | none => simp
        | some q'' => exact (hsince q'' hlast).symm
      · rw [if_neg hk]

/-- A request of a peer that has 5 bytes left to get. -/
def leechRequest (serial : UInt64) (ch : Char) (event : BtEvent) (numwant : Int32) : Request :=
  .announce
    { serial := serial
      announce :=
        { peerId := ⟨List.replicate 20 ch, List.length_replicate⟩
          left := 5
          event := event
          numwant := numwant } }

/-- The peer `a` announces itself again, under another serial. Since its first request it has stopped and
started, and another peer has come back; had it only stopped, it would be listed again. -/
theorem retransmission_harmless_iff_again :
    processLog {} ([leechRequest 1 'b' .started 50] ++ leechRequest 2 'a' .started 50 ::
        [leechRequest 3 'a' .stopped 0, leechRequest 4 'b' .completed 9,
          leechRequest 5 'a' .started 7] ++ [leechRequest 6 'a' .started 50]) =
      processLog {} ([leechRequest 1 'b' .started 50] ++ leechRequest 2 'a' .started 50 ::
        [leechRequest 3 'a' .stopped 0, leechRequest 4 'b' .completed 9,
          leechRequest 5 'a' .started 7]) ∧
    processLog {} ([leechRequest 1 'b' .started 50] ++ leechRequest 2 'a' .started 50 ::
        [leechRequest 3 'a' .stopped 0, leechRequest 4 'b' .completed 9] ++
          [leechRequest 6 'a' .started 50]) ≠
      processLog {} ([leechRequest 1 'b' .started 50] ++ leechRequest 2 'a' .started 50 ::
        [leechRequest 3 'a' .stopped 0, leechRequest 4 'b' .completed 9]) := by
  constructor
  · refine (retransmission_harmless_iff {} _ _ (leechRequest 2 'a' .started 50)
      (leechRequest 6 'a' .started 50) rfl).mpr fun q'' hlast => ?_
    obtain rfl : leechRequest 5 'a' .started 7 = q'' := Option.some.inj hlast
    rfl
  · intro hsame
    have hstopped := (retransmission_harmless_iff {} _ _ (leechRequest 2 'a' .started 50)
      (leechRequest 6 'a' .started 50) rfl).mp hsame (leechRequest 3 'a' .stopped 0) rfl
    cases hstopped

/-! ## The server as a replica -/

/-- The message that stands for an accepted announce, under the serial `serial`. -/
def ofReceived (serial : UInt64) (r : Received) : Request :=
  .announce { serial := serial, announce := withConnectionIp r.connectionIp r.announce }

/-- The announces that the server accepted in a run, as a log. -/
def acceptedLog (tr : List (ServerState × ServerAction)) : List Request :=
  ((received tr).filter fun r => r.Accepted).map (ofReceived 0)

section Server

variable {s : ServerState} {tr : List (ServerState × ServerAction)}

/-- Requests that are not accepted do not count. -/
theorem foldl_requests (state : TrackerState) (rs : List Received) :
    rs.foldl requests.write state =
      processLog state ((rs.filter fun r => r.Accepted).map (ofReceived 0)) := by
  induction rs generalizing state with
  | nil => rfl
  | cons r rs ih =>
    rw [List.foldl_cons, ih]
    by_cases h : r.Accepted
    · rw [List.filter_cons_of_pos (by simpa using h), List.map_cons, processLog, processLog,
        List.foldl_cons]
      show List.foldl _ (r.handle state) _ = _
      rw [r.handle_of_accepted h]
      rfl
    · rw [List.filter_cons_of_neg (by simpa using h)]
      show processLog (r.handle state) _ = _
      rw [r.handle_of_not_accepted h]

theorem tracker_eq_processLog (htr : server.Trace tr s) :
    s.tracker = processLog {} (acceptedLog tr) := by
  rw [tracker_of_trace htr, foldl_requests, acceptedLog]

/-- The two paths give the same answer. -/
theorem body_of_accepted {r : Received} (h : r.Accepted) (state : TrackerState) (serial : UInt64) :
    (handleRequest state r.connectionIp r.req).1 =
      .text 200 (processAnnounce state (ofReceived serial r).req).1.body := by
  rw [handleRequest, if_pos h.1]
  simp only
  rw [if_neg (not_not_intro h.2)]
  rfl

end Server

/-- **The server behaves as a replica** that processes the announces it accepts, in the order in which
it received them: it has the same state, and every accepted announce is answered with the text that
the replica answers at that place of its log, under whatever serial. -/
theorem server_follows_log (tr : List (ServerState × ServerAction)) (s : ServerState)
    (htr : server.Trace tr s) :
    s.tracker = processLog {} (acceptedLog tr) ∧
    ∀ (j c : ℕ) (sj : ServerState) (req : HttpMessage) (conn : Connection) (serial : UInt64),
      tr[j]? = some (sj, .receive c req) → sj.connections[c]? = some conn →
      Received.Accepted ⟨conn.connectionIp, req⟩ →
      ∃ body,
        (processRequest (processLog {} (acceptedLog (tr.take j)))
          (ofReceived serial ⟨conn.connectionIp, req⟩)).1 =
            .announce { serial := serial, errcode := .ok, body := body } ∧
        (serverStep sj (.receive c req)).map (fun s' => s'.connections[c]?) =
          some (some { conn with phase := .sending (.text 200 body) }) := by
  refine ⟨tracker_eq_processLog htr, fun j c sj req conn serial hj hconn haccepted => ?_⟩
  obtain ⟨tr', s', -, hstep⟩ := htr.exists_step (List.mem_of_getElem? hj)
  have htracker := tracker_eq_processLog (htr.take hj)
  have hanswer := body_of_accepted haccepted sj.tracker serial
  refine ⟨(processAnnounce sj.tracker (ofReceived serial ⟨conn.connectionIp, req⟩).req).1.body,
    ?_, ?_⟩
  · rw [← htracker]
    rfl
  · -- the step was taken, so the connection was receiving
    have hreceiving : conn.phase = .receiving := by
      simp only [server, serverStep, hconn, Option.bind_eq_bind, Option.bind_some,
        Option.ite_none_right_eq_some] at hstep
      exact hstep.1
    simp only [serverStep, hconn, Option.bind_eq_bind, Option.bind_some, if_pos hreceiving,
      Option.map_some, ServerState.setPhase, List.getElem?_modify]
    rw [← hanswer]
    rfl

/-- An announce without parameters, from an address that `peer_ipv4` knows. -/
theorem server_follows_log_one : ∃ tr s, server.Trace tr s ∧ (acceptedLog tr).length = 1 ∧
    s.tracker = processLog {} (acceptedLog tr) := by
  obtain ⟨tr, s, htr, hone⟩ := Machine.exists_trace_of_record (M := server)
    [.accept (some 1), .receive 0 ⟨"/announce".toList, [], []⟩]
    (P := fun tr _ => (acceptedLog tr).length = 1) (by decide)
  exact ⟨tr, s, htr, hone, (server_follows_log tr s htr).1⟩

end Message

end Tracker

end Traxos
