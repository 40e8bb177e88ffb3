import Traxos.Lockseq.Exclusion
import Traxos.Lockseq.NoFalseAlarm
import Traxos.Lockseq.Simulation

/-! # What holds while a test runs

The properties of the protocol, carried over to the test on the simulated network: it never does
anything undefined (`run_defined`), locks exclude each other (`exclusion_on_network`), and the
database passes the check whenever `clear_after` may end the test before the clock reaches `2 ^ 32`
milliseconds (`passes_check`). -/

namespace Traxos

namespace Lockseq

open Service Netsim

/-! ## Where requests go -/

/-- **Requests go to replicas**: whoever a client takes for the leader is a replica, since every
redirection that it may have followed, or may yet follow, names the leader. -/
structure Routed (cfg : Config) (s : State) : Prop where
  leader : ∀ c, (s.clients c).leader < cfg.nreplicas
  redirection : ∀ c r rp, Response.redirection rp ∈ s.net.replies c r →
    rp.redirection = cfg.initialLeader

section Routing

variable {cfg : Config} {s s' : State} {a : Action} {cl : Client} {ph : Phase}

theorem leader_clearLoop (cfg : Config) (cl : Client) : (cl.clearLoop cfg).leader = cl.leader := by
  rw [Client.clearLoop]
  split <;> rfl

theorem leader_writeLoop (cfg : Config) (cl : Client) : (cl.writeLoop cfg).leader = cl.leader := by
  rw [Client.writeLoop]
  split
  · rfl
  · exact leader_clearLoop cfg cl

/-- A response does not change who is taken for the leader. -/
theorem leader_onResponse (cfg : Config) (cid : ℕ) (cl : Client) (ph : Phase) (resp : Response) :
    (cl.onResponse cfg cid ph resp).leader = cl.leader := by
  unfold Client.onResponse
  split
  · rw [Client.onLock]
    repeat' split
    all_goals first | rfl | exact leader_writeLoop _ _
  · rw [Client.onWrite]
    split <;> rfl
  · rw [Client.onClear]
    repeat' split
    all_goals rfl
  · rw [Client.onUnlock]
    split <;> rfl
  · rfl

theorem leader_retry_lt (h : cl.leader < cfg.nreplicas) {randomReplica : ℕ}
    (hrandom : randomReplica < cfg.nreplicas) (ph : Phase) :
    (cl.retry ph randomReplica).leader < cfg.nreplicas := by
  show (if cl.tries % 3 = 2 then randomReplica else cl.leader) < cfg.nreplicas
  split
  · exact hrandom
  · exact h

theorem leader_receive_lt (h : cl.leader < cfg.nreplicas) {randomReplica : ℕ}
    (hrandom : randomReplica < cfg.nreplicas) {msg : Response}
    (hmsg : ∀ rp, msg = .redirection rp → rp.redirection < cfg.nreplicas) (cid : ℕ) (ph : Phase) :
    (cl.receive cfg cid ph msg randomReplica).leader < cfg.nreplicas := by
  unfold Client.receive
  cases hreceived : receiveResponse ph.kind cl.serial msg with
  | stale => exact h
  | redirected replicaid =>
    -- only a redirection is taken for one
    have hredirection : ∃ rp, msg = .redirection rp ∧ rp.redirection = replicaid := by
      unfold receiveResponse at hreceived
      split at hreceived
      · cases hreceived
      · split at hreceived
        · exact ⟨_, rfl, Received.redirected.inj hreceived⟩
        · split at hreceived <;> cases hreceived
    obtain ⟨rp, hrp, rfl⟩ := hredirection
    have hleader : ({ cl with leader := rp.redirection } : Client).leader < cfg.nreplicas :=
      hmsg rp hrp
    exact leader_retry_lt hleader hrandom ph
  | accepted resp =>
    exact lt_of_eq_of_lt (leader_onResponse cfg cid cl ph resp) h
  | unexpected => exact leader_retry_lt h hrandom ph

theorem leader_wake {cl' : Client} (hwake : cl.wake cfg = some cl') : cl'.leader = cl.leader := by
  unfold Client.wake at hwake
  split at hwake
  · obtain rfl := Option.some.inj hwake
    rfl
  · obtain rfl := Option.some.inj hwake
    exact leader_writeLoop cfg cl
  · obtain rfl := Option.some.inj hwake
    exact leader_clearLoop cfg cl
  · cases hwake

/-- A turn of a replica: its redirection names the leader, and an answer is no redirection. -/
theorem Routed.run (h : Routed cfg s) {r c : ℕ} {lost : Bool} {net : Service.Network}
    (hleader : (s.net.replicas r).leaderIndex = cfg.initialLeader)
    (hrun : s.net.run r c lost = some net) : Routed cfg { s with net := net } := by
  refine ⟨h.leader, fun c' r' rp hmem => ?_⟩
  cases Network.runResult_of_run hrun with
  | @redirect req rest hreq hindex =>
    rcases Network.mem_replies_sendReply hmem with hmem | ⟨-, -, -, heq⟩
    · exact h.redirection c' r' rp hmem
    · obtain rfl := Response.redirection.inj heq
      exact hleader
  | @answer req rest hreq hindex =>
    rcases Network.mem_replies_sendReply hmem with hmem | ⟨-, -, -, heq⟩
    · exact h.redirection c' r' rp hmem
    · have hkind := Heap.kind_processReq (s.net.heap r) req
      rw [← show _ = ((s.net.heap r).processReq req).1 from heq] at hkind
      cases hkind

theorem Routed.setClient (h : Routed cfg s) {c : ℕ} (hcl : cl.leader < cfg.nreplicas) :
    Routed cfg (s.setClient c cl) := by
  refine ⟨?_, h.redirection⟩
  rw [State.setClient, Function.forall_update_iff s.clients fun _ cl => cl.leader < cfg.nreplicas]
  exact ⟨hcl, fun d _ => h.leader d⟩

/-- Losing replies. -/
theorem Routed.replies (h : Routed cfg s) {replies : ℕ → ℕ → List Response}
    (hreplies : ∀ c r, ∀ resp ∈ replies c r, resp ∈ s.net.replies c r) :
    Routed cfg { s with net := { s.net with replies := replies } } :=
  ⟨h.leader, fun c r rp hmem => h.redirection c r rp (hreplies c r _ hmem)⟩

theorem Routed.step (h : Routed cfg s)
    (hleader : ∀ r, (s.net.replicas r).leaderIndex = cfg.initialLeader)
    (hstep : step cfg s a = some s') : Routed cfg s' := by
  cases a with
  | begin c gid x nvalues =>
    simp only [Lockseq.step, Option.ite_none_right_eq_some, Option.some.injEq] at hstep
    obtain ⟨-, rfl⟩ := hstep
    exact h.setClient (h.leader c)
  | send c lost =>
    simp only [Lockseq.step] at hstep
    split at hstep
    · rename_i ph hpc
      obtain rfl := Option.some.inj hstep
      have hsent : Routed cfg (s.setClient c { s.clients c with pc := .receive ph }) :=
        h.setClient (h.leader c)
      cases lost <;> exact ⟨hsent.leader, hsent.redirection⟩
    · cases hstep
  | timeout c randomReplica =>
    simp only [Lockseq.step] at hstep
    split at hstep
    · simp only [Option.ite_none_right_eq_some, Option.some.injEq] at hstep
      obtain ⟨hrandom, rfl⟩ := hstep
      exact h.setClient (leader_retry_lt (h.leader c) hrandom _)
    · cases hstep
  | receive c r randomReplica =>
    simp only [Lockseq.step] at hstep
    split at hstep
    · rename_i ph msg net hpc htake
      simp only [Option.ite_none_right_eq_some, Option.some.injEq] at hstep
      obtain ⟨hrandom, rfl⟩ := hstep
      obtain ⟨rest, hreply, rfl⟩ := Network.takeReply_eq_some htake
      have hmsg : ∀ rp, msg = Response.redirection rp → rp.redirection < cfg.nreplicas := by
        rintro rp rfl
        rw [h.redirection c r rp (hreply ▸ List.mem_cons_self)]
        exact cfg.initialLeader_lt
      refine Routed.replies (h.setClient (leader_receive_lt (h.leader c) hrandom hmsg c ph)) ?_
      intro c' r' resp hmem
      refine mem_setChannel_of_sublist ?_ hmem
      show rest.Sublist (s.net.replies c r)
      rw [hreply]
      exact List.sublist_cons_self _ _
    · cases hstep
  | wake c =>
    simp only [Lockseq.step, Option.map_eq_some_iff] at hstep
    obtain ⟨cl, hwake, rfl⟩ := hstep
    exact h.setClient (lt_of_eq_of_lt (leader_wake hwake) (h.leader c))
  | handle r c lost =>
    simp only [Lockseq.step, Option.ite_none_right_eq_some, Option.map_eq_some_iff] at hstep
    obtain ⟨-, net, hrun, rfl⟩ := hstep
    exact h.run (hleader r) hrun
  | dropRequest c r i =>
    obtain rfl := Option.some.inj hstep
    exact ⟨h.leader, h.redirection⟩
  | dropReply c r i =>
    obtain rfl := Option.some.inj hstep
    exact h.replies fun c' r' resp hmem =>
      mem_setChannel_of_sublist (List.eraseIdx_sublist _ _) hmem

theorem routed_of_trace {tr : Steps} (htr : (machine cfg).Trace tr s) : Routed cfg s := by
  induction htr with
  | init => exact ⟨cfg.firstLeader_lt, fun _ _ _ hmem => absurd hmem List.not_mem_nil⟩
  | snoc htr hstep ih =>
    obtain ⟨sh, hsim, -⟩ := locking_of_trace htr
    exact ih.step hsim.leaderIndex hstep

end Routing

/-! ## Runs of the deployment -/

section Runs

variable {cfg : Config} {su : Setup} {s : Deployment.State} {t : State} {tr : Steps} {c r : ℕ}
  {ph : Phase} {m : MessageFrom Request Channel} {found : Option Channel}

/-- A client sends on its own channel to the replica that it takes for the leader. -/
theorem Following.exists_send (h : Following cfg su s t) (hrouted : Routed cfg t)
    (hpc : (s.clients c).pc = .send ph) : ∃ info chan reply,
      Deployment.clientInfo su (s.clients c).serial = some info ∧
      info.channels[(s.clients c).leader]? = some chan ∧
      su.Link c (s.clients c).leader chan reply := by
  have hc : c < cfg.nclients := h.lt_nclients (by rw [hpc]; simp)
  have hleader : (s.clients c).leader < cfg.nreplicas := h.represents.clients ▸ hrouted.leader c
  obtain ⟨chan, reply, hchan, hlink⟩ := h.setup.exists_link hc hleader
  obtain ⟨info, hinfo, hchan⟩ := Option.bind_eq_some_iff.mp hchan
  exact ⟨info, chan, reply, by rw [Deployment.clientInfo, h.serial c hc, hinfo], hchan, hlink⟩

/-- What a replica receives is the first of the requests in flight to it from a client, and the channel
that it finds leads back there. -/
theorem Following.exists_request (h : Following cfg su s t)
    (hm : s.receivedWithChannel su r = some (m, found)) : ∃ c reply rest,
      found = some reply ∧ m.address = clientAddr c ∧ su.Link c r m.channel reply ∧
      t.net.requests c r = m.message :: rest := by
  obtain ⟨d, c, reply, hport, -, hresult, hchannel, rfl, hback⟩ :=
    h.channel_of_receivedWithChannel hm
  obtain ⟨rest, hhead, -⟩ := (sound_requestsTo h.setup).inFlight_finish hport hresult hchannel rfl 0
  obtain ⟨⟨chan, back⟩, hpair, hchan⟩ := Option.map_eq_some_iff.mp hchannel
  obtain ⟨⟨chan', back'⟩, hpair', hreply⟩ := Option.map_eq_some_iff.mp hback
  obtain ⟨rfl, rfl⟩ := Prod.mk.inj (Option.some.inj (hpair.symm.trans hpair'))
  obtain rfl : chan = m.channel := hchan
  obtain rfl : back = reply := hreply
  have hlink := h.setup.link hpair
  rw [Listener.result, Option.ite_none_right_eq_some] at hresult
  have hgenuine := (h.own.requests.of_result hresult.2).1
  exact ⟨c, back, rest, rfl, hgenuine.address.trans hlink.source, hlink,
    h.represents.requests ▸ hhead⟩

/-- What a client receives is the first of the replies in flight to it from a replica. -/
theorem Following.exists_response (h : Following cfg su s t) (hpc : (s.clients c).pc = .receive ph)
    {m : MessageFrom Response Channel} (hm : s.received su c = some m) :
    ∃ r chan rest, m.address = replicaAddr r ∧ su.Link c r chan m.channel ∧
      t.net.replies c r = m.message :: rest := by
  obtain ⟨d, r, hport, hresult, hchannel⟩ := h.channel_of_received (by rw [hpc]; simp) hm
  obtain ⟨rest, hhead, -⟩ := (sound_repliesTo h.setup).inFlight_finish hport hresult hchannel rfl 0
  obtain ⟨⟨chan, back⟩, hpair, hback⟩ := Option.map_eq_some_iff.mp hchannel
  obtain rfl : back = m.channel := hback
  have hlink := h.setup.link hpair
  rw [Listener.result, Option.ite_none_right_eq_some] at hresult
  have hgenuine := (h.own.responses.of_result hresult.2).1
  exact ⟨r, chan, rest, hgenuine.address.trans hlink.replySource, hlink,
    h.represents.replies ▸ hhead⟩

end Runs

/-! ## A first run -/

/-- One client, one replica, one group. -/
def smallConfig : Config :=
  .oneReplica 1 1 1 (Nat.le_of_ble_eq_true rfl) (Nat.le_of_ble_eq_true rfl)
    (Nat.le_of_ble_eq_true rfl)

/-- Its network. -/
def smallSetup : Setup :=
  (setup smallConfig.nreplicas smallConfig.initialLeader smallConfig.nclients).toOption.get
    (by decide)

theorem eq_ok_get {x : Except SetupError Setup} (h : x.toOption.isSome = true) :
    x = .ok (x.toOption.get h) := by
  cases x with
  | error e => cases h
  | ok su => rfl

theorem setup_small : setup smallConfig.nreplicas smallConfig.initialLeader smallConfig.nclients =
    .ok smallSetup := eq_ok_get _

/-- The client obtains the lock, and its put lies before the replica: it has been sent again, since the
first transmission was lost. -/
theorem exists_run_small : ∃ tr s, (deployment smallConfig smallSetup).Trace tr s ∧
    (s.clients 0).pc = .receive .write ∧ s.now = 19 ∧
    (s.receivedWithChannel smallSetup 0).any fun (m, _) =>
      decide (m.message = (s.clients 0).request .write) :=
  Machine.exists_trace_of_record
    (M := deployment smallConfig smallSetup)
    [.serve 0, .begin 0 0 5 1, .send 0 false, .tick 1, .listen 0, .tick 4, .fireRequest 0,
      .resumeServer 0, .tick 1, .fireRequest 0, .resumeServer 0, .resumeServer 0, .handle 0 false,
      .tick 1, .serve 0, .tick 4, .fireResponse 0, .resume 0, .tick 1, .fireResponse 0, .resume 0,
      .resume 0, .receive 0 0, .send 0 true, .tick 1, .listen 0, .timeout 0 0, .send 0 false,
      .tick 1, .listen 0, .tick 4, .fireRequest 0, .resumeServer 0, .tick 1, .fireRequest 0,
      .resumeServer 0, .resumeServer 0]
    (P := fun _ s => (s.clients 0).pc = .receive .write ∧ s.now = 19 ∧
      (s.receivedWithChannel smallSetup 0).any fun (m, _) =>
        decide (m.message = (s.clients 0).request .write))
    (by decide)

/-- **The test runs the protocol**: whatever the network does with the messages, what the clients and
the replicas have come to is what they come to in some run of the protocol, and what is in flight
there is what waits in the network. -/
theorem network_run_refines (cfg : Config) (su : Setup)
    (hsu : setup cfg.nreplicas cfg.initialLeader cfg.nclients = .ok su)
    (tr : List (Deployment.State × Deployment.Action)) (s : Deployment.State)
    (htr : (deployment cfg su).Trace tr s) :
    ∃ tr' t, (machine cfg).Trace tr' t ∧ Represents su s t := by
  obtain ⟨tr', t, htr', h, -⟩ := exists_trace_of_deployment (sound_of_setup hsu) htr
  exact ⟨tr', t, htr', h.represents⟩

theorem network_run_refines_small : ∃ tr t, (machine smallConfig).Trace tr t ∧
    (t.clients 0).pc = .receive .write := by
  obtain ⟨tr, s, htr, hpc, -⟩ := exists_run_small
  obtain ⟨tr', t, htr', h⟩ := network_run_refines smallConfig smallSetup setup_small tr s htr
  exact ⟨tr', t, htr', by rw [h.clients, hpc]⟩

/-- **The test does nothing undefined**: a client that is about to send has a channel to the replica
that it takes for the leader; a replica that has received finds the channel back to the client that
sent; a client receives only what a replica has sent to it; and no call takes a message out of an
empty queue. -/
theorem run_defined (cfg : Config) (su : Setup)
    (hsu : setup cfg.nreplicas cfg.initialLeader cfg.nclients = .ok su)
    (tr : List (Deployment.State × Deployment.Action)) (s : Deployment.State)
    (htr : (deployment cfg su).Trace tr s) :
    (∀ c ph, (s.clients c).pc = .send ph → ∃ info chan reply,
      Deployment.clientInfo su (s.clients c).serial = some info ∧
      info.channels[(s.clients c).leader]? = some chan ∧
      su.Link c (s.clients c).leader chan reply) ∧
    (∀ r m found, s.receivedWithChannel su r = some (m, found) → ∃ c reply,
      found = some reply ∧ m.address = clientAddr c ∧ su.Link c r m.channel reply) ∧
    (∀ c ph m, (s.clients c).pc = .receive ph → s.received su c = some m → ∃ r chan,
      m.address = replicaAddr r ∧ su.Link c r chan m.channel) ∧
    (∀ d n, (s.requests.receivers d).calls n ≠ .undefined) ∧
    ∀ d n, (s.responses.receivers d).calls n ≠ .undefined := by
  obtain ⟨tr', t, htr', h, -⟩ := exists_trace_of_deployment (sound_of_setup hsu) htr
  have hrouted := routed_of_trace htr'
  obtain ⟨trq, hrequests, -⟩ := h.own.requests
  obtain ⟨trp, hresponses, -⟩ := h.own.responses
  refine ⟨fun c ph hpc => h.exists_send hrouted hpc, fun r m found hm => ?_,
    fun c ph m hpc hm => ?_, fun d => (awake_of_trace hrequests d).defined,
    fun d => (awake_of_trace hresponses d).defined⟩
  · obtain ⟨c, reply, rest, hfound, haddress, hlink, -⟩ := h.exists_request hm
    exact ⟨c, reply, hfound, haddress, hlink⟩
  · obtain ⟨r, chan, rest, haddress, hlink, -⟩ := h.exists_response hpc hm
    exact ⟨r, chan, haddress, hlink⟩

theorem run_defined_small : ∃ tr s m reply, (deployment smallConfig smallSetup).Trace tr s ∧
    s.receivedWithChannel smallSetup 0 = some (m, some reply) := by
  obtain ⟨tr, s, htr, -, -, hm⟩ := exists_run_small
  obtain ⟨⟨m, found⟩, hm, -⟩ := (Option.any_eq_true _ _).mp hm
  obtain ⟨c, reply, rfl, -⟩ :=
    (run_defined smallConfig smallSetup setup_small tr s htr).2.1 0 m found hm
  exact ⟨tr, s, m, reply, htr, hm⟩

/-- **Locks exclude each other on the network**: clients in the write or clear phase are in different
groups, and a put or remove of a value that the leader has received, however late, is of the group
that its sender is in, whose lock has the sender's value at the version that the sender recorded. -/
theorem exclusion_on_network (cfg : Config) (su : Setup)
    (hsu : setup cfg.nreplicas cfg.initialLeader cfg.nclients = .ok su)
    (tr : List (Deployment.State × Deployment.Action)) (s : Deployment.State)
    (htr : (deployment cfg su).Trace tr s) :
    (∀ c d, c ≠ d → (s.clients c).Modifying → (s.clients d).Modifying →
      (s.clients c).gid ≠ (s.clients d).gid) ∧
    ∀ m found gid, s.receivedWithChannel su cfg.initialLeader = some (m, found) →
      ModifiesValue gid m.message → ∃ c, m.address = clientAddr c ∧ (s.clients c).gid = gid ∧
        (s.replicas cfg.initialLeader).db.db[makeLockKey gid]? =
          some ⟨(s.clients c).value, (s.clients c).lockVersion⟩ := by
  obtain ⟨tr', t, htr', h, -⟩ := exists_trace_of_deployment (sound_of_setup hsu) htr
  obtain ⟨sh, hsim, hlocking⟩ := locking_of_trace htr'
  have hclients := h.represents.clients
  constructor
  · intro c d hne hc hd hgid
    rw [← hclients] at hc hd hgid
    have hcheld := (hlocking.client c).held hc
    have hdheld := (hlocking.client d).held hd
    exact hne (hlocking.eq_of_held hcheld hdheld hc.mode_ne_idle hd.mode_ne_idle hgid)
  · intro m found gid hm hmod
    obtain ⟨c, reply, rest, -, haddress, -, hreq⟩ := h.exists_request hm
    have hin : m.message ∈ (t.view cfg c).requests := by
      show m.message ∈ t.net.requests c cfg.initialLeader
      rw [hreq]
      exact List.mem_cons_self
    obtain ⟨hgid, hheld⟩ := (hlocking.client c).held_of_modifies hin hmod
    have hentry := hsim.heap.db_of_some hheld
    refine ⟨c, haddress, hclients ▸ hgid, ?_⟩
    rw [← hgid, ← hclients, ← h.represents.replicas]
    exact hentry

theorem exclusion_on_network_small : ∃ tr s m found c,
    (deployment smallConfig smallSetup).Trace tr s ∧
    s.receivedWithChannel smallSetup 0 = some (m, found) ∧ m.address = clientAddr c ∧
    ((s.replicas 0).db.db[makeLockKey (s.clients 0).gid]?).map Vv.value =
      some (s.clients c).value := by
  obtain ⟨tr, s, htr, -, -, hm⟩ := exists_run_small
  obtain ⟨⟨m, found⟩, hm, hmessage⟩ := (Option.any_eq_true _ _).mp hm
  have hmod : ModifiesValue (s.clients 0).gid m.message := by
    rw [of_decide_eq_true hmessage]
    exact .put rfl
  obtain ⟨c, haddress, -, hentry⟩ :=
    (exclusion_on_network smallConfig smallSetup setup_small tr s htr).2 m found _ hm hmod
  exact ⟨tr, s, m, found, c, htr, hm, haddress, congrArg (Option.map Vv.value) hentry⟩

/-- Before the clock reaches `2 ^ 32` milliseconds, a client does not get round to `2 ^ 32` tries. -/
theorem sequences_of_deployment {cfg : Config} {su : Setup}
    (hsu : setup cfg.nreplicas cfg.initialLeader cfg.nclients = .ok su)
    {tr : List (Deployment.State × Deployment.Action)} {s : Deployment.State}
    (htr : (deployment cfg su).Trace tr s) (hnow : s.now < 2 ^ 32) : ∃ tr' t sh,
      Represents su s t ∧ Simulates cfg tr' t sh ∧ Locking sh (t.view cfg) ∧
      Sequences cfg sh (t.view cfg) := by
  obtain ⟨tr', t, htr', h, hlate⟩ := exists_trace_of_deployment (sound_of_setup hsu) htr
  have hretries : ∀ p ∈ tr', ¬ Exhausts .clear p.1 p.2 := fun p hp hex =>
    Nat.not_lt_of_le (hlate p hp .clear hex) hnow
  obtain ⟨sh, hinvariant⟩ := sequences_of_trace htr' hretries
  exact ⟨tr', t, sh, h.represents, hinvariant⟩

/-- **The database passes the check** in every state before the clock reaches `2 ^ 32` milliseconds,
long after `clear_after(100s)`. -/
theorem passes_check (cfg : Config) (hngroups : 1 ≤ cfg.ngroups)
    (hmax : cfg.maxSequenceLength ≤ 1000) (su : Setup)
    (hsu : setup cfg.nreplicas cfg.initialLeader cfg.nclients = .ok su)
    (tr : List (Deployment.State × Deployment.Action)) (s : Deployment.State)
    (htr : (deployment cfg su).Trace tr s) (hnow : s.now < 2 ^ 32) :
    check (s.replicas cfg.initialLeader).db = none := by
  obtain ⟨tr', t, sh, h, hsim, hlocking, hseq⟩ := sequences_of_deployment hsu htr hnow
  rw [← h.replicas]
  exact check_eq_none_of_sequences hsim.heap hlocking hseq hngroups hmax

theorem passes_check_small : ∃ tr s, (deployment smallConfig smallSetup).Trace tr s ∧
    s.now = 19 ∧ check (s.replicas 0).db = none := by
  obtain ⟨tr, s, htr, -, hnow, -⟩ := exists_run_small
  exact ⟨tr, s, htr, hnow, passes_check smallConfig (by decide) (by decide) smallSetup setup_small
    tr s htr (by rw [hnow]; decide)⟩

end Lockseq

end Traxos
