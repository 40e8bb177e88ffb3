import Traxos.Lockseq.Deployment
import Traxos.Lockseq.FirstTry
import Traxos.Lockseq.Timing
import Traxos.Service.InFlight

/-! # The deployment runs the protocol

Every run of the test on the simulated network is a run of `Lockseq.machine`: what the channels of
the machine hold is what is in flight in the network, and the schedule of the network becomes the
scheduler's choice which channel a receiver takes from (`exists_trace_of_deployment`). Steps of the
network itself are no steps of the protocol.

The machine knows no time. But a client spends a millisecond on every message it sends, so in a run
that follows one of the network a counter `tries` can have wrapped round only after `2 ^ 32`
milliseconds. -/

namespace Traxos

namespace Lockseq

open Service Netsim

/-! ## The two directions -/

/-- The channels of the requests, at whose ends the replicas listen. -/
def requestsTo (su : Setup) : Direction Channel Loc where
  channel c r := (su.channelPair c r).map (·.1)
  listener _ r := r
  port r := (Deployment.fromClients su r).map ServerPort.loc

/-- The channels of the replies, at whose ends the clients listen. -/
def repliesTo (su : Setup) : Direction Channel Loc where
  channel c r := (su.channelPair c r).map (·.2)
  listener c _ := c
  port c := (su.clients.clients[c]?).map ClientInfo.responsePort

section Directions

variable {nreplicas initialLeader nclients : ℕ} {su : Setup}

theorem sound_requestsTo (hsu : su.Sound nreplicas initialLeader nclients) :
    (requestsTo su).Sound wires := by
  have hconsistent := hsu.clients.consistent
  constructor
  · intro c r c' r' ch h h'
    obtain ⟨⟨chan, reply⟩, hpair, rfl⟩ := Option.map_eq_some_iff.mp h
    obtain ⟨⟨chan', reply'⟩, hpair', hchan⟩ := Option.map_eq_some_iff.mp h'
    exact (hsu.link hpair).inj hconsistent (hsu.link hpair') (.inl hchan.symm)
  · intro c r o ch d h hport
    obtain ⟨⟨chan, reply⟩, hpair, rfl⟩ := Option.map_eq_some_iff.mp h
    obtain ⟨p, hp, hloc⟩ := Option.map_eq_some_iff.mp (hsu.link hpair).destination
    obtain ⟨q, hq, rfl⟩ := Option.map_eq_some_iff.mp hport
    obtain ⟨ports, hports, hfound⟩ := Option.bind_eq_some_iff.mp hq
    rw [(hsu.replica o ports hports).fromClients_eq] at hfound
    rw [show wires.destination chan = p.loc from hloc.symm]
    constructor
    · exact fun heq => replicaAddr_injective (hconsistent.ports.loc_inj _ _ p q hp hfound heq)
    · rintro rfl
      rw [Option.some.inj (hp.symm.trans hfound)]

theorem sound_repliesTo (hsu : su.Sound nreplicas initialLeader nclients) :
    (repliesTo su).Sound wires := by
  have hconsistent := hsu.clients.consistent
  constructor
  · intro c r c' r' ch h h'
    obtain ⟨⟨chan, reply⟩, hpair, rfl⟩ := Option.map_eq_some_iff.mp h
    obtain ⟨⟨chan', reply'⟩, hpair', hreply⟩ := Option.map_eq_some_iff.mp h'
    exact (hsu.link hpair).inj hconsistent (hsu.link hpair') (.inr hreply.symm)
  · intro c r o ch d h hport
    obtain ⟨⟨chan, reply⟩, hpair, rfl⟩ := Option.map_eq_some_iff.mp h
    have hdestination : (repliesTo su).port c = some reply.destination :=
      (hsu.link hpair).replyDestination
    constructor
    · rintro rfl
      -- clients have different response ports
      obtain ⟨info, hinfo, hloc⟩ := Option.map_eq_some_iff.mp hdestination
      obtain ⟨info', hinfo', hloc'⟩ := Option.map_eq_some_iff.mp hport
      obtain ⟨q, hq, hown⟩ :=
        Option.map_eq_some_iff.mp (hsu.clients.clients c info hinfo).responsePort
      obtain ⟨q', hq', hown'⟩ :=
        Option.map_eq_some_iff.mp (hsu.clients.clients o info' hinfo').responsePort
      refine clientAddr_injective (hconsistent.responsePorts.loc_inj _ _ q q' hq hq' ?_)
      rw [hown, hown', hloc, hloc']
      rfl
    · rintro rfl
      exact Option.some.inj (hdestination.symm.trans hport)

end Directions

/-! ## What the machine sees -/

/-- The state `t` of the machine is what it sees of the state `s` of the deployment. -/
structure Represents (su : Setup) (s : Deployment.State) (t : State) : Prop where
  nonexistentVv : t.net.nonexistentVv = s.nonexistentVv
  replicas : t.net.replicas = s.replicas
  clients : t.clients = s.clients
  requests : t.net.requests = (requestsTo su).inFlight wires s.requests s.servers
  replies : t.net.replies = (repliesTo su).inFlight wires s.responses s.listeners

/-- What is observed of a step of the deployment. -/
def Deployment.occurrence (su : Setup) (s : Deployment.State) : Deployment.Action → Option Occurrence
  | .send c false =>
    match (s.clients c).pc with
    | .send ph => some (.sent c (s.clients c).leader ((s.clients c).request ph))
    | _ => none
  | .handle r _ => (s.receivedWithChannel su r).map fun p => .handled r p.1.message
  | _ => none

/-- What is observed of a step of the machine. -/
def occurrence (s : State) : Action → Option Occurrence
  | .send c false =>
    match (s.clients c).pc with
    | .send ph => some (.sent c (s.clients c).leader ((s.clients c).request ph))
    | _ => none
  | .handle r c _ => (s.net.requests c r).head?.map (.handled r)
  | _ => none

/-- Only channels that the setup has created are used. -/
structure OwnChannels (su : Setup) (s : Deployment.State) : Prop where
  requests : Reached wires (fun ch _ => (requestsTo su).Uses ch) s.requests
  responses : Reached wires (fun ch _ => (repliesTo su).Uses ch) s.responses

/-- The machine can follow from `t` to a state that represents `s'`; what is observed on the way is `e`,
and no counter wraps round unless it is late. -/
def Followed (cfg : Config) (su : Setup) (now : ℕ) (e : Option Occurrence) (s' : Deployment.State)
    (t : State) : Prop :=
  ∃ bs tr t', (machine cfg).record t bs = some (tr, t') ∧ Represents su s' t' ∧
    (tr.filterMap fun p => occurrence p.1 p.2) = e.toList ∧
    ∀ p ∈ tr, ∀ ph, Exhausts ph p.1 p.2 → 2 ^ 32 ≤ now

section Follow

variable {cfg : Config} {su : Setup} {now : ℕ} {s s' : Deployment.State} {t u : State}

theorem followed_of_eq (h : Represents su s' t) : Followed cfg su now none s' t :=
  ⟨[], [], t, rfl, h, rfl, List.forall_mem_nil _⟩

theorem followed_of_step {b : Action} {e : Option Occurrence} (hstep : step cfg t b = some u)
    (h : Represents su s' u) (he : occurrence t b = e)
    (hlate : ∀ ph, Exhausts ph t b → 2 ^ 32 ≤ now) : Followed cfg su now e s' t := by
  refine ⟨[b], _, u, Machine.record_singleton hstep, h, ?_, fun p hp => ?_⟩
  · subst he
    cases h : occurrence t b <;> simp [h]
  · obtain rfl := List.mem_singleton.mp hp
    exact hlate

/-- What a step is seen from: the deployment has come to `s`, which the machine represents by `t`. -/
structure Following (cfg : Config) (su : Setup) (s : Deployment.State) (t : State) : Prop where
  setup : su.Sound cfg.nreplicas cfg.initialLeader cfg.nclients
  own : OwnChannels su s
  timed : Deployment.Timed s
  represents : Represents su s t
  serial : ∀ c, c < cfg.nclients → (s.clients c).serial &&& clientMask = c
  absent : ∀ c, cfg.nclients ≤ c → (s.clients c).pc = .delay

variable {c r : ℕ} {ph : Phase}

namespace Following

theorem lt_nclients (h : Following cfg su s t) (hpc : (s.clients c).pc ≠ .delay) :
    c < cfg.nclients :=
  Nat.lt_of_not_le fun hle => hpc (h.absent c hle)

/-- The client whose serial it is. -/
theorem port_of_clientInfo (h : Following cfg su s t) (hpc : (s.clients c).pc ≠ .delay)
    {info : ClientInfo} (hinfo : Deployment.clientInfo su (s.clients c).serial = some info) :
    su.clients.clients[c]? = some info ∧ (repliesTo su).port c = some info.responsePort := by
  rw [Deployment.clientInfo, h.serial c (h.lt_nclients hpc)] at hinfo
  exact ⟨hinfo, Option.map_eq_some_iff.mpr ⟨info, hinfo, rfl⟩⟩

/-- A client that is about to leave its initial delay. -/
theorem step_begin (h : Following cfg su s t) {gid x nvalues : ℕ}
    (hstep : Deployment.step cfg su s (.begin c gid x nvalues) = some s') :
    Followed cfg su s.now none s' t := by
  simp only [Deployment.step, Option.ite_none_right_eq_some, Option.some.injEq] at hstep
  obtain ⟨hguard, rfl⟩ := hstep
  have hclients := h.represents.clients
  refine followed_of_step (b := .begin c gid x nvalues)
    (u := t.setClient c ((t.clients c).begin c gid x nvalues)) ?_ ?_ rfl fun ph hex => hex.elim
  · rw [step, if_pos (by rwa [hclients])]
  · exact { h.represents with
      clients := by rw [State.setClient, hclients]; rfl
      replies := by
        show t.net.replies = (repliesTo su).inFlight wires s.responses
          (Function.update s.listeners c (s.listeners c))
        rw [Function.update_eq_self]
        exact h.represents.replies }

/-- **A transmission**: the message goes on the channel that the setup has made for the client and the
replica. -/
theorem step_send (h : Following cfg su s t) {lost : Bool}
    (hstep : Deployment.step cfg su s (.send c lost) = some s') :
    Followed cfg su s.now (Deployment.occurrence su s (.send c lost)) s' t := by
  simp only [Deployment.step] at hstep
  split at hstep
  · rename_i ph hpc
    obtain ⟨info, hinfo, chan, hchan, net, hnet, hs'⟩ := by
      simpa only [Deployment.State.sendRequest, Option.bind_eq_bind, Option.bind_eq_some_iff]
        using hstep
    obtain rfl := Option.some.inj hs'
    have hdelay : (s.clients c).pc ≠ .delay := by rw [hpc]; simp
    have hclients := h.represents.clients
    have hserial : ((s.clients c).request ph).messageSerial &&& clientMask = c := by
      rw [Client.messageSerial_request]
      exact h.serial c (h.lt_nclients hdelay)
    obtain ⟨hown, -⟩ := h.port_of_clientInfo hdelay hinfo
    have hfound : su.channel c (s.clients c).leader = some chan := by
      rw [Setup.channel, hown]
      exact hchan
    obtain ⟨reply, hpair⟩ := h.setup.channelPair_of_channel hfound
    have hchannel : (requestsTo su).channel c (s.clients c).leader = some chan :=
      Option.map_eq_some_iff.mpr ⟨_, hpair, rfl⟩
    have hrequests := (sound_requestsTo h.setup).inFlight_send (l := s.servers) h.own.requests
      hchannel hnet
    refine followed_of_step (b := .send c lost) (u := { t.setClient c
        { t.clients c with pc := .receive ph } with
        net := t.net.sendRequest (t.clients c).leader ((t.clients c).request ph) lost })
      ?_ ?_ ?_ fun ph hex => hex.elim
    · simp only [step, hclients, hpc]
    · refine ⟨?_, ?_, ?_, ?_, ?_⟩
      · rw [← h.represents.nonexistentVv]
        cases lost <;> rfl
      · exact (Network.replicas_sendRequest ..).trans h.represents.replicas
      · rw [State.setClient, hclients]
        rfl
      · show (t.net.sendRequest _ _ lost).requests = _
        rw [hclients]
        refine Eq.trans ?_ hrequests.symm
        cases lost with
        | true => exact h.represents.requests
        | false =>
          rw [Network.sendRequest, hserial, if_neg Bool.false_ne_true, if_neg Bool.false_ne_true,
            h.represents.requests]
      · rw [Network.replies_sendRequest, h.represents.replies]
        exact (Direction.Sound.inFlight_readyAt c (s.now + Deployment.sendDelay)).symm
    · cases lost with
      | true => rfl
      | false => simp only [occurrence, Deployment.occurrence, hclients]
  · cases hstep

/-- A step of the call of a client: the machine does not see it. -/
theorem followed_callReceive (h : Following cfg su s t) (hpc : (s.clients c).pc ≠ .delay)
    {b : CallAction} (hcall : b.call = (s.listeners c).calls) {net : NetState Response Channel Loc}
    (hnet : s.callReceive su c b = some net) :
    Followed cfg su s.now none ({ s with responses := net }.setClient c (s.clients c)
      { s.listeners c with receiving := true }) t := by
  obtain ⟨info, hinfo, hnet⟩ := Option.bind_eq_some_iff.mp hnet
  have hreplies := (sound_repliesTo h.setup).inFlight_call h.own.responses
    (h.port_of_clientInfo hpc hinfo).2 hnet hcall
  exact followed_of_eq { h.represents with
    clients := by
      show t.clients = Function.update s.clients c (s.clients c)
      rw [Function.update_eq_self, h.represents.clients]
    replies := h.represents.replies.trans hreplies.symm }

theorem step_listen (h : Following cfg su s t)
    (hstep : Deployment.step cfg su s (.listen c) = some s') : Followed cfg su s.now none s' t := by
  simp only [Deployment.step] at hstep
  split at hstep
  · rename_i ph hpc
    simp only [Option.ite_none_right_eq_some, Option.map_eq_some_iff] at hstep
    obtain ⟨-, net, hnet, rfl⟩ := hstep
    exact h.followed_callReceive (by rw [hpc]; simp) rfl hnet
  · cases hstep

theorem step_resume (h : Following cfg su s t)
    (hstep : Deployment.step cfg su s (.resume c) = some s') : Followed cfg su s.now none s' t := by
  simp only [Deployment.step, Option.ite_none_right_eq_some, Option.map_eq_some_iff] at hstep
  obtain ⟨hreceiving, net, hnet, rfl⟩ := hstep
  obtain ⟨-, ph, hpc⟩ := (h.timed c).receiving hreceiving
  have hfollowed := h.followed_callReceive (by rw [hpc]; simp) rfl hnet
  -- the call was under way before
  have hlistener : ({ s.listeners c with receiving := true } : Listener) = s.listeners c := by
    rw [← hreceiving]
  rw [hlistener, Deployment.State.setClient, Function.update_eq_self, Function.update_eq_self]
    at hfollowed
  exact hfollowed

/-- What a call has returned to a client came on one of its channels. -/
theorem channel_of_received (h : Following cfg su s t) (hpc : (s.clients c).pc ≠ .delay)
    {m : MessageFrom Response Channel} (hm : s.received su c = some m) :
    ∃ d r, (repliesTo su).port c = some d ∧
      (s.listeners c).result (s.responses.receivers d) = some m ∧
      (repliesTo su).channel c r = some m.channel := by
  obtain ⟨info, hinfo, hresult⟩ := Option.bind_eq_some_iff.mp hm
  have hport := (h.port_of_clientInfo hpc hinfo).2
  have hcall := hresult
  rw [Listener.result, Option.ite_none_right_eq_some] at hcall
  obtain ⟨hgenuine, c', r, hchannel⟩ := h.own.responses.of_result hcall.2
  obtain rfl : c' = c :=
    ((sound_repliesTo h.setup).destination hchannel hport).mp hgenuine.destination
  exact ⟨_, r, hport, hresult, hchannel⟩

/-- A counter that wraps round has come a long way. -/
theorem late (h : Following cfg su s t) (hpc : (s.clients c).pc = .receive ph)
    (hready : (s.listeners c).readyAt ≤ s.now) (hwrap : ((s.clients c).tries + 1) % 2 ^ 32 = 0) :
    2 ^ 32 ≤ s.now := by
  have htries := (h.timed c).tries
  rw [Deployment.TriesOnTime, hpc] at htries
  have hle := Nat.le_of_dvd (Nat.succ_pos _) (Nat.dvd_of_mod_eq_zero hwrap)
  exact Nat.le_trans hle (Nat.le_trans htries hready)

/-- **A message is received**: for the machine it is the oldest one of the channel that it came on. -/
theorem step_receive (h : Following cfg su s t) {randomReplica : ℕ}
    (hstep : Deployment.step cfg su s (.receive c randomReplica) = some s') :
    Followed cfg su s.now none s' t := by
  simp only [Deployment.step] at hstep
  split at hstep
  · rename_i ph hpc
    simp only [Option.ite_none_right_eq_some, Option.map_eq_some_iff] at hstep
    obtain ⟨hrandom, m, hm, rfl⟩ := hstep
    obtain ⟨d, r, hport, hresult, hchannel⟩ := h.channel_of_received (by rw [hpc]; simp) hm
    have hclients := h.represents.clients
    have hreceiving : (s.listeners c).receiving = true := by
      rw [Listener.result, Option.ite_none_right_eq_some] at hresult
      exact hresult.1
    let cl := (s.clients c).receive cfg c ph m.message randomReplica
    obtain ⟨rest, hhead, hrest⟩ := (sound_repliesTo h.setup).inFlight_finish hport hresult hchannel
      rfl (s.now + Deployment.minDelay cl.pc)
    rw [← h.represents.replies] at hhead hrest
    have htake : t.net.takeReply c r =
        some (m.message, { t.net with replies := setChannel t.net.replies c r rest }) := by
      rw [Network.takeReply, hhead]
    refine followed_of_step (b := .receive c r randomReplica) (u := { t.setClient c cl with
        net := { t.net with replies := setChannel t.net.replies c r rest } }) ?_ ?_ rfl ?_
    · simp only [step, hclients, hpc, htake, if_pos hrandom, cl]
    · exact { h.represents with
        clients := by
          show Function.update t.clients c cl = Function.update s.clients c cl
          rw [hclients]
        replies := hrest.symm }
    · rintro ph' ⟨-, hwrap, -⟩
      rw [hclients] at hwrap
      exact h.late hpc ((h.timed c).receiving hreceiving).1 hwrap
  · cases hstep

/-- The machine's step for a timeout. -/
theorem step_timeout_eq (hpc : (t.clients c).pc = .receive ph) {randomReplica : ℕ}
    (hrandom : randomReplica < cfg.nreplicas) : step cfg t (.timeout c randomReplica) =
      some (t.setClient c ((t.clients c).retry ph randomReplica)) := by
  simp only [step, hpc, if_pos hrandom]

/-- **A timeout**: a message that the call has returned already is lost. -/
theorem step_timeout (h : Following cfg su s t) {randomReplica : ℕ}
    (hstep : Deployment.step cfg su s (.timeout c randomReplica) = some s') :
    Followed cfg su s.now none s' t := by
  simp only [Deployment.step] at hstep
  split at hstep
  · rename_i ph hpc
    simp only [Option.ite_none_right_eq_some, Option.some.injEq] at hstep
    obtain ⟨⟨hready, hrandom⟩, rfl⟩ := hstep
    have hdelay : (s.clients c).pc ≠ .delay := by rw [hpc]; simp
    have hclients := h.represents.clients
    have hpc' : (t.clients c).pc = .receive ph := by rw [hclients, hpc]
    have hlate : ∀ (u : State) ph', u.clients = s.clients →
        Exhausts ph' u (.timeout c randomReplica) → 2 ^ 32 ≤ s.now := by
      rintro u ph' hu ⟨-, hwrap⟩
      rw [hu] at hwrap
      exact h.late hpc hready hwrap
    let cl := (s.clients c).retry ph randomReplica
    let readyAt := s.now + Deployment.minDelay cl.pc
    let ls := Function.update s.listeners c ((s.listeners c).finish readyAt)
    -- what the machine sees of the network afterwards
    have hsees : ∀ (net : NetState Response Channel Loc),
        (repliesTo su).inFlight wires net ls = t.net.replies →
        Followed cfg su s.now none ({ s with responses := net }.finishClient c cl) t := by
      intro net hnet
      refine followed_of_step (step_timeout_eq hpc' hrandom) ?_ rfl fun ph' => hlate t ph' hclients
      exact { h.represents with
        clients := by
          show Function.update t.clients c _ = Function.update s.clients c cl
          rw [hclients]
        replies := hnet.symm }
    cases hcall : s.callReceive su c (.cancel (s.listeners c).calls) with
    | some net =>
      obtain ⟨info, hinfo, hnet⟩ := Option.bind_eq_some_iff.mp hcall
      refine hsees net ?_
      rw [h.represents.replies]
      exact (sound_repliesTo h.setup).inFlight_cancel h.own.responses
        (h.port_of_clientInfo hdelay hinfo).2 hnet readyAt
    | none =>
      show Followed cfg su s.now none ({ s with responses := s.responses }.finishClient c cl) t
      cases hm : s.received su c with
      | none =>
        refine hsees s.responses ?_
        rw [h.represents.replies]
        obtain ⟨info, hinfo⟩ : ∃ info, su.clients.clients[c]? = some info :=
          ⟨_, List.getElem?_eq_getElem
            (by rw [h.setup.length_clients]; exact h.lt_nclients hdelay)⟩
        refine (sound_repliesTo h.setup).inFlight_finish_none
          (Option.map_eq_some_iff.mpr ⟨info, hinfo, rfl⟩) ?_ readyAt
        rw [Deployment.State.received, Deployment.clientInfo, h.serial c (h.lt_nclients hdelay),
          hinfo] at hm
        exact hm
      | some m =>
        -- the attempt is over before `receive_response` sees the message
        obtain ⟨d, r, hport, hresult, hchannel⟩ := h.channel_of_received hdelay hm
        obtain ⟨rest, hhead, hrest⟩ := (sound_repliesTo h.setup).inFlight_finish hport hresult
          hchannel rfl readyAt
        rw [← h.represents.replies] at hhead hrest
        let u : State := { t with net := t.net.dropReply c r 0 }
        have hdrop : (machine cfg).step t (.dropReply c r 0) = some u := rfl
        have hu : u.net.replies = setChannel t.net.replies c r rest := by
          show setChannel t.net.replies c r ((t.net.replies c r).eraseIdx 0) = _
          rw [hhead, List.eraseIdx_cons_zero]
        refine ⟨[.dropReply c r 0, .timeout c randomReplica], _, _,
          Machine.record_pair hdrop (step_timeout_eq (t := u) hpc' hrandom), ?_, rfl, ?_⟩
        · exact {
            nonexistentVv := h.represents.nonexistentVv
            replicas := h.represents.replicas
            clients := by
              show Function.update t.clients c _ = Function.update s.clients c cl
              rw [hclients]
            requests := h.represents.requests
            replies := hu.trans hrest.symm }
        · intro p hp ph' hex
          rcases List.mem_cons.mp hp with rfl | hp
          · exact hex.elim
          · obtain rfl := List.mem_singleton.mp hp
            exact hlate u ph' hclients hex
  · cases hstep

theorem step_wake (h : Following cfg su s t)
    (hstep : Deployment.step cfg su s (.wake c) = some s') : Followed cfg su s.now none s' t := by
  simp only [Deployment.step, Option.ite_none_right_eq_some, Option.map_eq_some_iff] at hstep
  obtain ⟨-, cl, hwake, rfl⟩ := hstep
  have hclients := h.represents.clients
  refine followed_of_step (b := .wake c) (u := t.setClient c cl) ?_ ?_ rfl fun ph hex => hex.elim
  · rw [step, hclients, hwake, Option.map_some]
  · exact { h.represents with
      clients := by rw [State.setClient, hclients]; rfl
      replies := by
        show t.net.replies = (repliesTo su).inFlight wires s.responses
          (Function.update s.listeners c (s.listeners c))
        rw [Function.update_eq_self]
        exact h.represents.replies }

/-- A step of the call of a replica. -/
theorem followed_callReceiveWithChannel (h : Following cfg su s t) {b : CallAction}
    (hcall : b.call = (s.servers r).calls) {net : NetState Request Channel Loc}
    (hnet : s.callReceiveWithChannel su r b = some net) :
    Followed cfg su s.now none { s with
      requests := net
      servers := Function.update s.servers r { s.servers r with receiving := true } } t := by
  obtain ⟨port, hport, hnet⟩ := Option.bind_eq_some_iff.mp hnet
  have hrequests := (sound_requestsTo h.setup).inFlight_call h.own.requests
    (Option.map_eq_some_iff.mpr ⟨port, hport, rfl⟩) hnet hcall
  exact followed_of_eq { h.represents with
    requests := h.represents.requests.trans hrequests.symm }

theorem step_serve (h : Following cfg su s t)
    (hstep : Deployment.step cfg su s (.serve r) = some s') : Followed cfg su s.now none s' t := by
  simp only [Deployment.step, Option.ite_none_right_eq_some, Option.map_eq_some_iff] at hstep
  obtain ⟨-, net, hnet, rfl⟩ := hstep
  exact h.followed_callReceiveWithChannel rfl hnet

theorem step_resumeServer (h : Following cfg su s t)
    (hstep : Deployment.step cfg su s (.resumeServer r) = some s') :
    Followed cfg su s.now none s' t := by
  simp only [Deployment.step, Option.ite_none_right_eq_some, Option.map_eq_some_iff] at hstep
  obtain ⟨hreceiving, net, hnet, rfl⟩ := hstep
  have hfollowed := h.followed_callReceiveWithChannel rfl hnet
  have hlistener : ({ s.servers r with receiving := true } : Listener) = s.servers r := by
    rw [← hreceiving]
  rw [hlistener, Function.update_eq_self] at hfollowed
  exact hfollowed

/-- **What `receive_with_channel` returns**: the oldest request of a client, and the channel that
replies to that client go on. -/
theorem channel_of_receivedWithChannel (h : Following cfg su s t)
    {m : MessageFrom Request Channel} {found : Option Channel}
    (hm : s.receivedWithChannel su r = some (m, found)) :
    ∃ d c reply, (requestsTo su).port r = some d ∧ r < cfg.nreplicas ∧
      (s.servers r).result (s.requests.receivers d) = some m ∧
      (requestsTo su).channel c r = some m.channel ∧
      found = some reply ∧ (repliesTo su).channel c r = some reply := by
  obtain ⟨port, hfrom, hm⟩ := Option.bind_eq_some_iff.mp hm
  obtain ⟨m', hresult, heq⟩ := Option.bind_eq_some_iff.mp hm
  obtain ⟨rfl, rfl⟩ := Prod.mk.inj (Option.some.inj heq)
  obtain ⟨ports, hports, hfound⟩ := Option.bind_eq_some_iff.mp hfrom
  rw [(h.setup.replica r ports hports).fromClients_eq] at hfound
  have hr : r < cfg.nreplicas := by
    rw [← h.setup.length_replicas]
    exact (List.getElem?_eq_some_iff.mp hports).1
  have hport : (requestsTo su).port r = some port.loc :=
    Option.map_eq_some_iff.mpr ⟨port, hfrom, rfl⟩
  have hcall := hresult
  rw [Listener.result, Option.ite_none_right_eq_some] at hcall
  obtain ⟨hgenuine, c, r', hchannel⟩ := h.own.requests.of_result hcall.2
  obtain rfl : r' = r :=
    ((sound_requestsTo h.setup).destination hchannel hport).mp hgenuine.destination
  obtain ⟨⟨chan, reply⟩, hpair, hchan⟩ := Option.map_eq_some_iff.mp hchannel
  obtain rfl : chan = m'.channel := hchan
  -- the table of the port has the channel under the address of the client
  have hlink := h.setup.link hpair
  have haddress : m'.address = clientAddr c := hgenuine.address.trans hlink.source
  have htable : port.channels[clientAddr c]? = some (m'.channel, reply) := by
    have hnet := hlink.pair
    rwa [Registry.channelPair, show su.clients.net.ports[replicaAddr r']? = some port from hfound,
      Option.bind_some] at hnet
  refine ⟨_, c, reply, hport, hr, hresult, hchannel, ?_,
    Option.map_eq_some_iff.mpr ⟨_, hpair, rfl⟩⟩
  rw [haddress, htable, Option.map_some]

/-- A loop turn changes only what `process_req` may change. -/
theorem reply_state (s : Deployment.State) (r : ℕ) (req : Request) : ∃ vv replicas,
    (s.reply r req).2 = { s with nonexistentVv := vv, replicas := replicas } := by
  rw [Deployment.State.reply]
  split
  · exact ⟨s.nonexistentVv, s.replicas, rfl⟩
  · exact ⟨_, _, rfl⟩

/-- The loop turn of a replica, seen by the machine. -/
theorem run_eq {w : Service.Network} {m : Request} {rest : List Request}
    (hvv : w.nonexistentVv = s.nonexistentVv) (hreplicas : w.replicas = s.replicas)
    (hrequests : w.requests c r = m :: rest) (lost : Bool) :
    ∃ w' : Service.Network, w.run r c lost = some (w'.sendReply r c (s.reply r m).1 lost) ∧
      w'.nonexistentVv = (s.reply r m).2.nonexistentVv ∧
      w'.replicas = (s.reply r m).2.replicas ∧
      w'.requests = setChannel w.requests c r rest ∧ w'.replies = w.replies := by
  rw [Network.run, hrequests, Deployment.State.reply]
  by_cases hindex : (s.replicas r).index = (s.replicas r).leaderIndex
  · refine ⟨({ w with requests := setChannel w.requests c r rest }).setHeap r
      ((w.heap r).processReq m).2, ?_, ?_, ?_, rfl, rfl⟩
    · simp only [hreplicas, hindex, ne_eq, not_true, if_false, Network.heap, hvv]
    · simp only [hindex, ne_eq, not_true, if_false, Network.setHeap, Network.heap, hvv, hreplicas]
    · simp only [hindex, ne_eq, not_true, if_false, Network.setHeap, Network.heap, hvv, hreplicas]
  · refine ⟨{ w with requests := setChannel w.requests c r rest }, ?_, ?_, ?_, rfl, rfl⟩
    · simp only [hreplicas, hindex, ne_eq, not_false_eq_true, if_true]
    · simp only [hindex, ne_eq, not_false_eq_true, if_true, hvv]
    · simp only [hindex, ne_eq, not_false_eq_true, if_true, hreplicas]

/-- **A replica handles a request**: the oldest one of a client, and replies to that client. -/
theorem step_handle (h : Following cfg su s t) {lost : Bool}
    (hstep : Deployment.step cfg su s (.handle r lost) = some s') :
    Followed cfg su s.now (Deployment.occurrence su s (.handle r lost)) s' t := by
  obtain ⟨⟨m, found⟩, hm, replyChan, hfound, net, hnet, hs'⟩ := by
    simpa only [Deployment.step, Option.bind_eq_bind, Option.bind_eq_some_iff] using hstep
  obtain rfl := Option.some.inj hs'
  obtain ⟨d, c, reply, hport, hr, hresult, hchannel, hreply, hback⟩ :=
    h.channel_of_receivedWithChannel hm
  obtain rfl : reply = replyChan := Option.some.inj (hreply.symm.trans hfound)
  obtain ⟨rest, hhead, hrest⟩ := (sound_requestsTo h.setup).inFlight_finish hport hresult hchannel
    rfl (s.now + Deployment.sendDelay)
  rw [← h.represents.requests] at hhead hrest
  obtain ⟨w', hrun, hvv, hreplicas, hrequests, hsame⟩ :=
    run_eq (s := s) h.represents.nonexistentVv h.represents.replicas hhead lost
  obtain ⟨vv, replicas, hstate⟩ := reply_state s r m.message
  simp only [hstate] at hnet hvv hreplicas ⊢
  have hreplies := (sound_repliesTo h.setup).inFlight_send (l := s.listeners) h.own.responses
    hback hnet
  rw [← h.represents.replies] at hreplies
  refine followed_of_step (b := .handle r c lost)
    (u := { t with net := w'.sendReply r c (s.reply r m.message).1 lost }) ?_ ?_ ?_
    fun ph hex => hex.elim
  · rw [step, if_pos hr, hrun, Option.map_some]
  · refine ⟨?_, ?_, h.represents.clients, ?_, ?_⟩
    · rw [← hvv]
      cases lost <;> rfl
    · exact (Network.replicas_sendReply ..).trans hreplicas
    · rw [Network.requests_sendReply, hrequests]
      exact hrest.symm
    · refine Eq.trans ?_ hreplies.symm
      cases lost with
      | true => exact hsame
      | false =>
        rw [Network.sendReply, if_neg Bool.false_ne_true, if_neg Bool.false_ne_true, hsame]
  · rw [occurrence, hhead, Deployment.occurrence, hm, List.head?_cons, Option.map_some, Option.map_some]

/-- **Every step is followed.** -/
theorem step_followed (h : Following cfg su s t) {a : Deployment.Action}
    (hstep : Deployment.step cfg su s a = some s') :
    Followed cfg su s.now (Deployment.occurrence su s a) s' t := by
  cases a with
  | begin c gid x nvalues => exact h.step_begin hstep
  | send c lost => exact h.step_send hstep
  | listen c => exact h.step_listen hstep
  | resume c => exact h.step_resume hstep
  | receive c randomReplica => exact h.step_receive hstep
  | timeout c randomReplica => exact h.step_timeout hstep
  | wake c => exact h.step_wake hstep
  | serve r => exact h.step_serve hstep
  | resumeServer r => exact h.step_resumeServer hstep
  | handle r lost => exact h.step_handle hstep
  | fireRequest i =>
    obtain ⟨net, hnet, rfl⟩ := Option.map_eq_some_iff.mp hstep
    exact followed_of_eq { h.represents with
      requests := h.represents.requests.trans
        (Direction.Sound.inFlight_of_quiet h.own.requests hnet (.inl ⟨i, rfl⟩)).symm }
  | fireResponse i =>
    obtain ⟨net, hnet, rfl⟩ := Option.map_eq_some_iff.mp hstep
    exact followed_of_eq { h.represents with
      replies := h.represents.replies.trans
        (Direction.Sound.inFlight_of_quiet h.own.responses hnet (.inl ⟨i, rfl⟩)).symm }
  | tick n =>
    obtain ⟨requests, hrequests, responses, hresponses, hs'⟩ := by
      simpa only [Deployment.step, Option.bind_eq_bind, Option.bind_eq_some_iff] using hstep
    obtain rfl := Option.some.inj hs'
    exact followed_of_eq { h.represents with
      requests := h.represents.requests.trans
        (Direction.Sound.inFlight_of_quiet h.own.requests hrequests (.inr ⟨n, rfl⟩)).symm
      replies := h.represents.replies.trans
        (Direction.Sound.inFlight_of_quiet h.own.responses hresponses (.inr ⟨n, rfl⟩)).symm }

/-- **Every step keeps to the channels of the setup.** -/
theorem step_own (h : Following cfg su s t) {a : Deployment.Action}
    (hstep : Deployment.step cfg su s a = some s') : OwnChannels su s' := by
  cases a with
  | begin c gid x nvalues =>
    simp only [Deployment.step, Option.ite_none_right_eq_some, Option.some.injEq] at hstep
    obtain ⟨-, rfl⟩ := hstep
    exact ⟨h.own.requests, h.own.responses⟩
  | send c lost =>
    simp only [Deployment.step] at hstep
    split at hstep
    · rename_i ph hpc
      obtain ⟨info, hinfo, chan, hchan, net, hnet, hs'⟩ := by
        simpa only [Deployment.State.sendRequest, Option.bind_eq_bind, Option.bind_eq_some_iff]
          using hstep
      obtain rfl := Option.some.inj hs'
      obtain ⟨hown, -⟩ := h.port_of_clientInfo (by rw [hpc]; simp) hinfo
      have hfound : su.channel c (s.clients c).leader = some chan := by
        rw [Setup.channel, hown]
        exact hchan
      obtain ⟨reply, hpair⟩ := h.setup.channelPair_of_channel hfound
      refine ⟨h.own.requests.step hnet fun ch m heq => ?_, h.own.responses⟩
      obtain ⟨rfl, -, -⟩ := NetAction.send.inj heq
      exact ⟨c, _, Option.map_eq_some_iff.mpr ⟨_, hpair, rfl⟩⟩
    · cases hstep
  | listen c =>
    simp only [Deployment.step] at hstep
    split at hstep
    · simp only [Option.ite_none_right_eq_some, Option.map_eq_some_iff] at hstep
      obtain ⟨-, net, hnet, rfl⟩ := hstep
      obtain ⟨info, -, hnet⟩ := Option.bind_eq_some_iff.mp hnet
      exact ⟨h.own.requests, h.own.responses.step hnet fun ch m heq => by cases heq⟩
    · cases hstep
  | resume c =>
    simp only [Deployment.step, Option.ite_none_right_eq_some, Option.map_eq_some_iff] at hstep
    obtain ⟨-, net, hnet, rfl⟩ := hstep
    obtain ⟨info, -, hnet⟩ := Option.bind_eq_some_iff.mp hnet
    exact ⟨h.own.requests, h.own.responses.step hnet fun ch m heq => by cases heq⟩
  | receive c randomReplica =>
    simp only [Deployment.step] at hstep
    split at hstep
    · simp only [Option.ite_none_right_eq_some, Option.map_eq_some_iff] at hstep
      obtain ⟨-, m, -, rfl⟩ := hstep
      exact ⟨h.own.requests, h.own.responses⟩
    · cases hstep
  | timeout c randomReplica =>
    simp only [Deployment.step] at hstep
    split at hstep
    · simp only [Option.ite_none_right_eq_some, Option.some.injEq] at hstep
      obtain ⟨-, rfl⟩ := hstep
      refine ⟨h.own.requests, ?_⟩
      show Reached wires _ ((s.callReceive su c _).getD s.responses)
      cases hcall : s.callReceive su c (.cancel (s.listeners c).calls) with
      | none => exact h.own.responses
      | some net =>
        obtain ⟨info, -, hnet⟩ := Option.bind_eq_some_iff.mp hcall
        exact h.own.responses.step hnet fun ch m heq => by cases heq
    · cases hstep
  | wake c =>
    simp only [Deployment.step, Option.ite_none_right_eq_some, Option.map_eq_some_iff] at hstep
    obtain ⟨-, cl, -, rfl⟩ := hstep
    exact ⟨h.own.requests, h.own.responses⟩
  | serve r =>
    simp only [Deployment.step, Option.ite_none_right_eq_some, Option.map_eq_some_iff] at hstep
    obtain ⟨-, net, hnet, rfl⟩ := hstep
    obtain ⟨port, -, hnet⟩ := Option.bind_eq_some_iff.mp hnet
    exact ⟨h.own.requests.step hnet fun ch m heq => (by cases heq), h.own.responses⟩
  | resumeServer r =>
    simp only [Deployment.step, Option.ite_none_right_eq_some, Option.map_eq_some_iff] at hstep
    obtain ⟨-, net, hnet, rfl⟩ := hstep
    obtain ⟨port, -, hnet⟩ := Option.bind_eq_some_iff.mp hnet
    exact ⟨h.own.requests.step hnet fun ch m heq => (by cases heq), h.own.responses⟩
  | handle r lost =>
    obtain ⟨⟨m, found⟩, hm, replyChan, hfound, net, hnet, hs'⟩ := by
      simpa only [Deployment.step, Option.bind_eq_bind, Option.bind_eq_some_iff] using hstep
    obtain rfl := Option.some.inj hs'
    obtain ⟨d, c, reply, -, -, -, -, hreply, hback⟩ := h.channel_of_receivedWithChannel hm
    obtain rfl : reply = replyChan := Option.some.inj (hreply.symm.trans hfound)
    obtain ⟨vv, replicas, hstate⟩ := reply_state s r m.message
    simp only [hstate] at hnet ⊢
    refine ⟨h.own.requests, h.own.responses.step hnet fun ch m heq => ?_⟩
    obtain ⟨rfl, -, -⟩ := NetAction.send.inj heq
    exact ⟨c, r, hback⟩
  | fireRequest i =>
    obtain ⟨net, hnet, rfl⟩ := Option.map_eq_some_iff.mp hstep
    exact ⟨h.own.requests.step hnet fun ch m heq => (by cases heq), h.own.responses⟩
  | fireResponse i =>
    obtain ⟨net, hnet, rfl⟩ := Option.map_eq_some_iff.mp hstep
    exact ⟨h.own.requests, h.own.responses.step hnet fun ch m heq => by cases heq⟩
  | tick n =>
    obtain ⟨requests, hrequests, responses, hresponses, hs'⟩ := by
      simpa only [Deployment.step, Option.bind_eq_bind, Option.bind_eq_some_iff] using hstep
    obtain rfl := Option.some.inj hs'
    exact ⟨h.own.requests.step hrequests fun ch m heq => (by cases heq),
      h.own.responses.step hresponses fun ch m heq => by cases heq⟩

end Following

/-! ## Runs -/

/-- The start states represent each other. -/
theorem represents_init (cfg : Config) (su : Setup) :
    Represents su (deployment cfg su).init (machine cfg).init where
  nonexistentVv := rfl
  replicas := rfl
  clients := rfl
  requests := by
    funext c r
    exact (Direction.inFlight_init _ _ c r).symm
  replies := by
    funext c r
    exact (Direction.inFlight_init _ _ c r).symm

/-- What holds of a run that follows the deployment. -/
structure Followable (su : Setup) (s : Deployment.State) (tr : Steps) (t : State) : Prop where
  own : OwnChannels su s
  represents : Represents su s t
  late : ∀ p ∈ tr, ∀ ph, Exhausts ph p.1 p.2 → 2 ^ 32 ≤ s.now

/-- **Every run of the deployment is followed by a run of the machine**, of which the same is
observed. -/
theorem exists_observed_trace
    (hsu : su.Sound cfg.nreplicas cfg.initialLeader cfg.nclients)
    {tr : List (Deployment.State × Deployment.Action)} (htr : (deployment cfg su).Trace tr s) :
    ∃ tr' t, (machine cfg).Trace tr' t ∧ Following cfg su s t ∧
      (∀ p ∈ tr', ∀ ph, Exhausts ph p.1 p.2 → 2 ^ 32 ≤ s.now) ∧
      (tr'.filterMap fun p => occurrence p.1 p.2) =
        tr.filterMap fun p => Deployment.occurrence su p.1 p.2 := by
  -- what is known of the state of the deployment where the machine has followed it
  have hfollowing : ∀ {tr s tr' t}, (deployment cfg su).Trace tr s → (machine cfg).Trace tr' t →
      Followable su s tr' t → Following cfg su s t := by
    intro tr s tr' t htr htr' h
    obtain ⟨sh, hsim, -⟩ := locking_of_trace htr'
    have hclients := h.represents.clients
    exact {
      setup := hsu
      own := h.own
      timed := Deployment.timed_of_trace htr
      represents := h.represents
      serial := fun c hc => hclients ▸ hsim.serial c hc
      absent := fun c hc => hclients ▸ hsim.absent c hc }
  have hfollow := htr.simulate (N := machine cfg) (R := Followable su)
    (f := fun p => Deployment.occurrence su p.1 p.2) (g := fun p => occurrence p.1 p.2)
    ⟨⟨.init _ _, .init _ _⟩, represents_init cfg su, List.forall_mem_nil _⟩
    fun tr s a s' tr' t htr htr' h hstep => by
      have hf := hfollowing htr htr' h
      obtain ⟨bs, tr'', t', hrecord, hrepresents, hobserved, hlate⟩ := hf.step_followed hstep
      have hnow := (hf.timed.step hstep).2
      refine ⟨bs, tr'', t', hrecord, ⟨hf.step_own hstep, hrepresents, fun p hp ph hex => ?_⟩,
        hobserved⟩
      rcases List.mem_append.mp hp with hp | hp
      · exact Nat.le_trans (h.late p hp ph hex) hnow
      · exact Nat.le_trans (hlate p hp ph hex) hnow
  obtain ⟨tr', t, htr', h, hobserved⟩ := hfollow
  exact ⟨tr', t, htr', hfollowing htr htr' h, h.late, hobserved⟩

theorem exists_trace_of_deployment
    (hsu : su.Sound cfg.nreplicas cfg.initialLeader cfg.nclients)
    {tr : List (Deployment.State × Deployment.Action)} (htr : (deployment cfg su).Trace tr s) :
    ∃ tr' t, (machine cfg).Trace tr' t ∧ Following cfg su s t ∧
      ∀ p ∈ tr', ∀ ph, Exhausts ph p.1 p.2 → 2 ^ 32 ≤ s.now := by
  obtain ⟨tr', t, htr', h, hlate, -⟩ := exists_observed_trace hsu htr
  exact ⟨tr', t, htr', h, hlate⟩

end Follow

end Lockseq

end Traxos
