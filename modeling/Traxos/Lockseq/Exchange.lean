import Mathlib.Tactic.ByContra
import Traxos.Lockseq.Client
import Traxos.Pancy.Refinement

/-! # The exchange between a client and the leader

What matters for the lock protocol is one abstract database (`Shared`) and, for each client, its
local state with the messages in flight between it and the leader (`View`). `Move` lists what one
step can do to these; `simulates_step` shows that every step of the machine is such a move of one
client that leaves the views of all others alone. Everything about the protocol is then proved about
moves, by `exchange_invariant`. -/

namespace Traxos

namespace Lockseq

open Service

/-- The leader's database, and for each group the value and the length that the client whose unlock
was applied last had drawn. -/
structure Shared where
  store : Store
  lastUnlock : ℕ → Option (Str × ℕ)

/-- A client and what is in flight between it and the leader, oldest first. -/
structure View where
  loc : Client
  replies : List Response
  requests : List Request

/-- The serials in flight, in the order in which their requests were sent. -/
def View.serials (v : View) : List ℕ :=
  v.replies.map Response.messageSerial ++ v.requests.map Request.messageSerial

/-- The request removes the lock of group `gid`. -/
def unlocks (m : Store) (gid : ℕ) : Request → Bool
  | .remove req =>
    req.key = makeLockKey gid ∧ responseErrcode ((Request.remove req).answer m) = .ok
  | _ => false

/-- The leader processes a request of the client `cl`. -/
def Shared.process (sh : Shared) (cl : Client) (req : Request) : Shared where
  store := sh.store.apply (req.change sh.store)
  lastUnlock := fun gid =>
    if unlocks sh.store gid req then some (cl.value, cl.nvalues) else sh.lastUnlock gid

/-- What a step can do to the view of client `c`. -/
inductive Move (cfg : Config) (c : ℕ) (sh : Shared) (v : View) : Shared → View → Prop
  /-- A new sequence. -/
  | begin {gid x nvalues : ℕ} (hpc : v.loc.pc = .delay) (hgid : cfg.admitsGid gid)
      (hnvalues : cfg.admitsNvalues nvalues) :
      Move cfg c sh v sh { v with loc := v.loc.begin c gid x nvalues }
  /-- A transmission, `sent` unless it was lost or went to another replica. -/
  | send {ph : Phase} (hpc : v.loc.pc = .send ph) {sent : List Request}
      (hsent : sent = [] ∨ sent = [v.loc.request ph]) :
      Move cfg c sh v sh { v with
        loc := { v.loc with pc := .receive ph }, requests := v.requests ++ sent }
  /-- A timeout, a redirection or an unexpected message. -/
  | retry {ph : Phase} {leader randomReplica : ℕ} {replies : List Response}
      (hpc : v.loc.pc = .receive ph) (hreplies : replies.Sublist v.replies) :
      Move cfg c sh v sh { v with
        loc := ({ v.loc with leader := leader }).retry ph randomReplica, replies := replies }
  /-- A response of the leader to the current request. -/
  | accept {ph : Phase} {resp : Response} {rest : List Response} (hpc : v.loc.pc = .receive ph)
      (hreply : v.replies = resp :: rest) (hserial : resp.messageSerial = v.loc.serial)
      (hkind : resp.kind = some ph.kind) :
      Move cfg c sh v sh { v with loc := v.loc.onResponse cfg c ph resp, replies := rest }
  /-- The end of another delay. -/
  | wake {loc : Client} (hwake : v.loc.wake cfg = some loc) : Move cfg c sh v sh { v with loc := loc }
  /-- The leader processes the oldest request; the answer may be lost. -/
  | handle {req : Request} {rest : List Request} (hreq : v.requests = req :: rest)
      {answer : List Response} (hanswer : answer = [] ∨ answer = [req.answer sh.store]) :
      Move cfg c sh v (sh.process v.loc req)
        { v with replies := v.replies ++ answer, requests := rest }
  /-- Messages are lost, or stale ones dropped. -/
  | lose {replies : List Response} {requests : List Request}
      (hreplies : replies.Sublist v.replies) (hrequests : requests.Sublist v.requests) :
      Move cfg c sh v sh { v with replies := replies, requests := requests }

/-! ## Views of the machine's states -/

/-- The view of client `c`. -/
def State.view (cfg : Config) (s : State) (c : ℕ) : View where
  loc := s.clients c
  replies := s.net.replies c cfg.initialLeader
  requests := s.net.requests c cfg.initialLeader

/-- The value and length of the client whose unlock of group `gid` the leader applies in a step. -/
def unlockOf (cfg : Config) (gid : ℕ) (s : State) : Action → Option (Str × ℕ)
  | .handle r c _ =>
    if r = cfg.initialLeader then
      match s.net.requests c r with
      | .remove req :: _ =>
        if req.key = makeLockKey gid ∧ ((s.net.heap r).processRemove req).1.errcode = .ok then
          some ((s.clients c).value, (s.clients c).nvalues)
        else none
      | _ => none
    else none
  | _ => none

/-- The value and length of the client whose unlock of group `gid` was the last one applied. -/
def lastUnlock (cfg : Config) (gid : ℕ) (tr : Steps) : Option (Str × ℕ) :=
  tr.foldl (fun u p => (unlockOf cfg gid p.1 p.2).or u) none

theorem lastUnlock_concat (cfg : Config) (gid : ℕ) (tr : Steps) (s : State) (a : Action) :
    lastUnlock cfg gid (tr ++ [(s, a)]) =
      (unlockOf cfg gid s a).or (lastUnlock cfg gid tr) := by
  rw [lastUnlock, List.foldl_append]
  rfl

/-- The state after the run `tr` shows the shared state `sh`. -/
structure Simulates (cfg : Config) (tr : Steps) (s : State) (sh : Shared) : Prop where
  index : ∀ r, (s.net.replicas r).index = r
  leaderIndex : ∀ r, (s.net.replicas r).leaderIndex = cfg.initialLeader
  heap : (s.net.heap cfg.initialLeader).Refines sh.store
  lastUnlock : ∀ gid, lastUnlock cfg gid tr = sh.lastUnlock gid
  redirections : ∀ {c r resp}, r ≠ cfg.initialLeader → resp ∈ s.net.replies c r → resp.kind = none
  serial : ∀ c, c < cfg.nclients → (s.clients c).serial &&& clientMask = c
  absent : ∀ c, cfg.nclients ≤ c → (s.clients c).pc = .delay

/-- Nothing has happened yet. -/
def Shared.init : Shared := { store := StampedMap.empty, lastUnlock := fun _ => none }

theorem simulates_init (cfg : Config) : Simulates cfg [] (machine cfg).init Shared.init where
  index := fun _ => rfl
  leaderIndex := fun _ => rfl
  heap := Heap.refines_empty
  lastUnlock := fun _ => rfl
  redirections := fun _ hmem => absurd hmem List.not_mem_nil
  serial := fun _ hc => and_clientMask_of_lt (Nat.lt_of_lt_of_le hc cfg.nclients_le)
  absent := fun _ _ => rfl

/-! ## Steps are moves -/

section Steps

variable {cfg : Config} {tr : Steps} {s s' : State} {sh : Shared} {c r : ℕ}

namespace Client

variable (cl : Client)

@[simp] theorem messageSerial_request (ph : Phase) : (cl.request ph).messageSerial = cl.serial := by
  cases ph <;> rfl

theorem serial_nextStep (ph : Phase) :
    (cl.nextStep ph).serial &&& clientMask = cl.serial &&& clientMask :=
  nextSerial_and_clientMask cl.serial

theorem serial_clearLoop (cfg : Config) :
    (cl.clearLoop cfg).serial &&& clientMask = cl.serial &&& clientMask := by
  unfold clearLoop
  split <;> exact cl.serial_nextStep _

theorem serial_writeLoop (cfg : Config) :
    (cl.writeLoop cfg).serial &&& clientMask = cl.serial &&& clientMask := by
  unfold writeLoop
  split
  · exact cl.serial_nextStep _
  · exact cl.serial_clearLoop cfg

theorem serial_onLock (cfg : Config) (cid : ℕ) (resp : CasResponse) :
    (cl.onLock cfg cid resp).serial &&& clientMask = cl.serial &&& clientMask := by
  unfold onLock
  split
  · exact serial_writeLoop _ cfg
  split
  · rfl
  split
  · exact serial_writeLoop _ cfg
  split <;> rfl

theorem serial_onClear (resp : RemoveResponse) :
    (cl.onClear resp).serial &&& clientMask = cl.serial &&& clientMask := by
  unfold onClear
  split
  · rfl
  split
  · rfl
  split
  · exact cl.serial_nextStep _
  · rfl

/-- Whatever a response makes a client do, its id stays in the low bits of its serial. -/
theorem serial_onResponse (cfg : Config) (cid : ℕ) (ph : Phase) (resp : Response) :
    (cl.onResponse cfg cid ph resp).serial &&& clientMask = cl.serial &&& clientMask := by
  unfold onResponse
  split
  · exact cl.serial_onLock cfg cid _
  · unfold onWrite
    split <;> rfl
  · exact cl.serial_onClear _
  · unfold onUnlock
    split <;> rfl
  · rfl

theorem serial_receive (cfg : Config) (cid : ℕ) (ph : Phase) (msg : Response) (randomReplica : ℕ) :
    (cl.receive cfg cid ph msg randomReplica).serial &&& clientMask = cl.serial &&& clientMask := by
  unfold receive
  split
  · rfl
  · rfl
  · exact cl.serial_onResponse cfg cid ph _
  · rfl

theorem serial_wake {cl' : Client} (h : cl.wake cfg = some cl') :
    cl'.serial &&& clientMask = cl.serial &&& clientMask := by
  unfold wake at h
  split at h
  · obtain rfl := Option.some.inj h
    rfl
  · obtain rfl := Option.some.inj h
    exact cl.serial_writeLoop cfg
  · obtain rfl := Option.some.inj h
    exact cl.serial_clearLoop cfg
  · cases h

end Client

/-- A step that touches neither the databases nor the channels of replies from other replicas. -/
theorem Simulates.quiet (h : Simulates cfg tr s sh) {a : Action}
    (ha : ∀ gid, unlockOf cfg gid s a = none)
    (hreplicas : s'.net.replicas = s.net.replicas)
    (hheap : s'.net.heap cfg.initialLeader = s.net.heap cfg.initialLeader)
    (hreplies : ∀ c r resp, resp ∈ s'.net.replies c r → resp ∈ s.net.replies c r)
    (hserial : ∀ c, (s'.clients c).serial &&& clientMask = (s.clients c).serial &&& clientMask)
    (habsent : ∀ c, cfg.nclients ≤ c → (s'.clients c).pc = .delay) :
    Simulates cfg (tr ++ [(s, a)]) s' sh where
  index := by rw [hreplicas]; exact h.index
  leaderIndex := by rw [hreplicas]; exact h.leaderIndex
  heap := by rw [hheap]; exact h.heap
  lastUnlock := fun gid => by
    rw [lastUnlock_concat, ha, Option.none_or]
    exact h.lastUnlock gid
  redirections := fun hr hmem => h.redirections hr (hreplies _ _ _ hmem)
  serial := fun c hc => (hserial c).trans (h.serial c hc)
  absent := habsent

/-- A client that is not in its initial delay is one of the test's. -/
theorem Simulates.lt_nclients (h : Simulates cfg tr s sh) (hpc : (s.clients c).pc ≠ .delay) :
    c < cfg.nclients := by
  by_contra hle
  exact hpc (h.absent c (Nat.le_of_not_lt hle))

/-- A step of one client, possibly taking or sending messages. -/
theorem Simulates.client (h : Simulates cfg tr s sh) {a : Action} {cl : Client} {net : Network}
    (ha : ∀ gid, unlockOf cfg gid s a = none) (hc : c < cfg.nclients)
    (hreplicas : net.replicas = s.net.replicas)
    (hheap : net.heap cfg.initialLeader = s.net.heap cfg.initialLeader)
    (hreplies : ∀ c r resp, resp ∈ net.replies c r → resp ∈ s.net.replies c r)
    (hserial : cl.serial &&& clientMask = (s.clients c).serial &&& clientMask) :
    Simulates cfg (tr ++ [(s, a)])
      { net := net, clients := Function.update s.clients c cl } sh := by
  refine h.quiet ha hreplicas hheap hreplies (fun d => ?_) fun d hd => ?_
  · by_cases hdc : d = c
    · subst hdc
      simpa using hserial
    · simp [Function.update_of_ne hdc]
  · have hdc : d ≠ c := by omega
    simpa [Function.update_of_ne hdc] using h.absent d hd

/-- The view of a client that a step concerns. -/
theorem view_self {cl : Client} {net : Network} :
    State.view cfg { net := net, clients := Function.update s.clients c cl } c =
      { loc := cl
        replies := net.replies c cfg.initialLeader
        requests := net.requests c cfg.initialLeader } := by
  simp [State.view]

/-- The views of the clients that a step does not concern. -/
theorem view_of_ne {d : ℕ} {cl : Client} {net : Network} (hdc : d ≠ c)
    (hreq : net.requests d cfg.initialLeader = s.net.requests d cfg.initialLeader)
    (hrep : net.replies d cfg.initialLeader = s.net.replies d cfg.initialLeader) :
    State.view cfg { net := net, clients := Function.update s.clients c cl } d = s.view cfg d := by
  simp [State.view, Function.update_of_ne hdc, hreq, hrep]

/-- The step from `s` to `s'` is a move of client `c`. -/
def MoveOf (cfg : Config) (tr : Steps) (s : State) (a : Action) (s' : State) (sh : Shared) (c : ℕ) :
    Prop :=
  ∃ sh', Simulates cfg (tr ++ [(s, a)]) s' sh' ∧
    Move cfg c sh (s.view cfg c) sh' (s'.view cfg c) ∧ ∀ d, d ≠ c → s'.view cfg d = s.view cfg d

theorem Simulates.begin (h : Simulates cfg tr s sh) {gid x nvalues : ℕ}
    (hstep : step cfg s (.begin c gid x nvalues) = some s') :
    MoveOf cfg tr s (.begin c gid x nvalues) s' sh c := by
  simp only [step, Option.ite_none_right_eq_some, Option.some.injEq] at hstep
  obtain ⟨⟨hc, hpc, hgid, -, hnvalues⟩, rfl⟩ := hstep
  have hmask := nextSerial_and_clientMask (s.clients c).serial
  refine ⟨sh, h.client (fun _ => rfl) hc rfl rfl (fun _ _ _ hm => hm) hmask, ?_,
    fun d hd => view_of_ne hd rfl rfl⟩
  rw [State.setClient, view_self]
  exact Move.begin hpc hgid hnvalues

/-- What the leader's channel from a client holds after the client sent a request: the request is
there when it is not lost and meant for the leader. -/
theorem requests_sendRequest_leader (cfg : Config) (s : State) {req : Request} (leader : ℕ)
    (lost : Bool) (hchannel : req.messageSerial &&& clientMask = c) :
    ∃ sent, (sent = [] ∨ sent = [req]) ∧
      (s.net.sendRequest leader req lost).requests c cfg.initialLeader =
        s.net.requests c cfg.initialLeader ++ sent := by
  cases lost with
  | true => exact ⟨[], Or.inl rfl, (List.append_nil _).symm⟩
  | false =>
    by_cases hl : leader = cfg.initialLeader
    · refine ⟨[req], Or.inr rfl, ?_⟩
      rw [hl, Network.sendRequest]
      simp [hchannel]
    · -- it goes to another replica, whose channels the view does not show
      refine ⟨[], Or.inl rfl, ?_⟩
      rw [Network.sendRequest]
      simp [setChannel_of_replica_ne _ (Ne.symm hl)]

theorem Simulates.send (h : Simulates cfg tr s sh) {lost : Bool}
    (hstep : step cfg s (.send c lost) = some s') : MoveOf cfg tr s (.send c lost) s' sh c := by
  simp only [step] at hstep
  cases hpc : (s.clients c).pc with
  | send ph =>
    rw [hpc] at hstep
    obtain rfl := Option.some.inj hstep
    have hc : c < cfg.nclients := h.lt_nclients (by simp [hpc])
    have hchannel : ((s.clients c).request ph).messageSerial &&& clientMask = c := by
      rw [Client.messageSerial_request, h.serial c hc]
    refine ⟨sh, h.client (fun _ => rfl) hc (by simp) (by simp) (by simp) rfl, ?_, fun d hd => ?_⟩
    · obtain ⟨sent, hsent, hreq⟩ :=
        requests_sendRequest_leader cfg s (s.clients c).leader lost hchannel
      rw [State.setClient, view_self, hreq]
      simpa [State.view] using (Move.send hpc hsent : Move cfg c sh (s.view cfg c) sh _)
    · -- the serial names client `c`, so no other client's channel is used
      refine view_of_ne hd ?_ (by simp)
      cases lost with
      | true => rfl
      | false =>
        rw [Network.sendRequest, hchannel]
        simp [setChannel_of_client_ne _ hd]
  | _ => rw [hpc] at hstep; cases hstep

theorem Simulates.timeout (h : Simulates cfg tr s sh) {randomReplica : ℕ}
    (hstep : step cfg s (.timeout c randomReplica) = some s') :
    MoveOf cfg tr s (.timeout c randomReplica) s' sh c := by
  simp only [step] at hstep
  cases hpc : (s.clients c).pc with
  | receive ph =>
    rw [hpc] at hstep
    simp only [Option.ite_none_right_eq_some, Option.some.injEq] at hstep
    obtain ⟨-, rfl⟩ := hstep
    have hc : c < cfg.nclients := h.lt_nclients (by simp [hpc])
    refine ⟨sh, h.client (fun _ => rfl) hc rfl rfl (fun _ _ _ hm => hm) rfl, ?_,
      fun d hd => view_of_ne hd rfl rfl⟩
    rw [State.setClient, view_self]
    exact Move.retry hpc (List.Sublist.refl _)
  | _ => rw [hpc] at hstep; cases hstep

theorem Simulates.wake (h : Simulates cfg tr s sh) (hstep : step cfg s (.wake c) = some s') :
    MoveOf cfg tr s (.wake c) s' sh c := by
  simp only [step, Option.map_eq_some_iff] at hstep
  obtain ⟨cl, hwake, rfl⟩ := hstep
  have hc : c < cfg.nclients := h.lt_nclients fun hpc => by simp [Client.wake, hpc] at hwake
  refine ⟨sh, h.client (fun _ => rfl) hc rfl rfl (fun _ _ _ hm => hm)
    (Client.serial_wake _ hwake), ?_, fun d hd => view_of_ne hd rfl rfl⟩
  rw [State.setClient, view_self]
  exact Move.wake hwake

theorem Simulates.drop (h : Simulates cfg tr s sh) {a : Action} {net : Network}
    (ha : ∀ gid, unlockOf cfg gid s a = none) (hreplicas : net.replicas = s.net.replicas)
    (hheap : net.heap cfg.initialLeader = s.net.heap cfg.initialLeader)
    (hreplies : ∀ c r, (net.replies c r).Sublist (s.net.replies c r))
    (hrequests : (net.requests c cfg.initialLeader).Sublist (s.net.requests c cfg.initialLeader))
    (hother : ∀ d, d ≠ c → net.requests d cfg.initialLeader = s.net.requests d cfg.initialLeader ∧
      net.replies d cfg.initialLeader = s.net.replies d cfg.initialLeader) :
    MoveOf cfg tr s a { s with net := net } sh c := by
  refine ⟨sh, h.quiet ha hreplicas hheap (fun _ _ _ hm => (hreplies _ _).mem hm) (fun _ => rfl)
    h.absent, ?_, fun d hd => ?_⟩
  · exact Move.lose (v := s.view cfg c) (hreplies c cfg.initialLeader) hrequests
  · simp [State.view, (hother d hd).1, (hother d hd).2]

theorem Simulates.receive (h : Simulates cfg tr s sh) {randomReplica : ℕ}
    (hstep : step cfg s (.receive c r randomReplica) = some s') :
    MoveOf cfg tr s (.receive c r randomReplica) s' sh c := by
  simp only [step] at hstep
  cases hpc : (s.clients c).pc with
  | receive ph =>
    cases htake : s.net.takeReply c r with
    | none => rw [hpc, htake] at hstep; cases hstep
    | some p =>
      obtain ⟨msg, net⟩ := p
      rw [hpc, htake] at hstep
      simp only [Option.ite_none_right_eq_some, Option.some.injEq] at hstep
      obtain ⟨-, rfl⟩ := hstep
      obtain ⟨rest, hreply, rfl⟩ := Network.takeReply_eq_some htake
      have hc : c < cfg.nclients := h.lt_nclients (by simp [hpc])
      have hrest : rest.Sublist (s.net.replies c r) := hreply ▸ List.sublist_cons_self _ _
      refine ⟨sh, h.client (fun _ => rfl) hc rfl rfl
        (fun _ _ _ hm => mem_setChannel_of_sublist hrest hm) (Client.serial_receive ..), ?_,
        fun d hd => view_of_ne hd rfl (setChannel_of_client_ne _ hd _ _ _)⟩
      rw [State.setClient, view_self]
      by_cases hr : r = cfg.initialLeader
      · -- a reply of the leader: `receive_response` decides which move it is
        subst hr
        simp only [setChannel_self, Client.receive]
        cases hreceived : receiveResponse ph.kind (s.clients c).serial msg with
        | stale => exact Move.lose hrest (List.Sublist.refl _)
        | redirected replicaid => exact Move.retry hpc hrest
        | unexpected => exact Move.retry hpc hrest
        | accepted resp =>
          obtain ⟨rfl, hserial, hkind⟩ := receiveResponse_eq_accepted hreceived
          exact Move.accept hpc hreply hserial hkind
      · -- a reply of another replica is a redirection, so it is never accepted
        have hnone : msg.kind = none := h.redirections hr (hreply ▸ List.mem_cons_self)
        simp only [setChannel_of_replica_ne _ (Ne.symm hr), Client.receive]
        cases hreceived : receiveResponse ph.kind (s.clients c).serial msg with
        | stale => exact Move.lose (List.Sublist.refl _) (List.Sublist.refl _)
        | redirected replicaid => exact Move.retry hpc (List.Sublist.refl _)
        | unexpected => exact Move.retry hpc (List.Sublist.refl _)
        | accepted resp =>
          have hkind := (receiveResponse_eq_accepted hreceived).2.2
          rw [hnone] at hkind
          cases hkind
  | _ => rw [hpc] at hstep; cases hstep

/-- What a step says about unlocks is what the request it handles says. -/
theorem Simulates.unlockOf_handle (h : Simulates cfg tr s sh) {req : Request}
    {rest : List Request} {lost : Bool} (hreq : s.net.requests c cfg.initialLeader = req :: rest)
    (gid : ℕ) : unlockOf cfg gid s (.handle cfg.initialLeader c lost) =
      if unlocks sh.store gid req then some ((s.clients c).value, (s.clients c).nvalues)
      else none := by
  simp only [unlockOf, hreq, if_true]
  cases req with
  | remove req =>
    have hresp : responseErrcode ((Request.remove req).answer sh.store) =
        ((s.net.heap cfg.initialLeader).processRemove req).1.errcode := by
      rw [← (h.heap.processRemove req).1]
      rfl
    simp [unlocks, hresp]
  | _ => rfl

/-- A turn of a replica that is not the leader changes no view. -/
theorem view_redirect (hr : r ≠ cfg.initialLeader) (rest : List Request) (resp : Response)
    (lost : Bool) (d : ℕ) :
    State.view cfg
      { net := Network.sendReply { s.net with requests := setChannel s.net.requests c r rest }
          r c resp lost
        clients := s.clients } d = s.view cfg d := by
  cases lost <;>
    simp [State.view, Network.sendReply, setChannel_of_replica_ne _ (Ne.symm hr)]

/-- The network after a turn of the leader. -/
def answered (cfg : Config) (s : State) (c : ℕ) (rest : List Request) (h' : Heap) (resp : Response)
    (lost : Bool) : Network :=
  (Network.setHeap { s.net with requests := setChannel s.net.requests c cfg.initialLeader rest }
    cfg.initialLeader h').sendReply cfg.initialLeader c resp lost

/-- A turn of the leader takes the oldest request and may add the answer. -/
theorem view_answered_self (cfg : Config) (s : State) (c : ℕ) (rest : List Request) (h' : Heap)
    (resp : Response) (lost : Bool) :
    State.view cfg { net := answered cfg s c rest h' resp lost, clients := s.clients } c =
      { s.view cfg c with
        replies := (s.view cfg c).replies ++ if lost then [] else [resp]
        requests := rest } := by
  cases lost <;> simp [State.view, answered, Network.sendReply]

theorem view_answered_of_ne {d : ℕ} (hd : d ≠ c) (rest : List Request) (h' : Heap)
    (resp : Response) (lost : Bool) :
    State.view cfg { net := answered cfg s c rest h' resp lost, clients := s.clients } d =
      s.view cfg d := by
  cases lost <;>
    simp [State.view, answered, Network.sendReply, setChannel_of_client_ne _ hd]

/-- Another replica takes a request and redirects, which the views do not show. -/
theorem Simulates.redirect (h : Simulates cfg tr s sh) {rest : List Request} {lost : Bool}
    (hr : r ≠ cfg.initialLeader) (rp : RedirectionResponse) :
    Simulates cfg (tr ++ [(s, .handle r c lost)]) { s with
      net := Network.sendReply { s.net with requests := setChannel s.net.requests c r rest }
        r c (.redirection rp) lost } sh where
  index := by simpa using h.index
  leaderIndex := by simpa using h.leaderIndex
  heap := by
    rw [Network.heap_sendReply]
    exact h.heap
  lastUnlock := fun gid => by
    rw [lastUnlock_concat, unlockOf, if_neg hr, Option.none_or]
    exact h.lastUnlock gid
  redirections := by
    intro d r' resp hr' hmem
    rcases Network.mem_replies_sendReply hmem with hold | ⟨-, -, -, rfl⟩
    · exact h.redirections hr' hold
    · rfl
  serial := h.serial
  absent := h.absent

/-- The leader does with its database what the abstract map does. -/
theorem Simulates.answer (h : Simulates cfg tr s sh) {req : Request} {rest : List Request}
    {lost : Bool} (hreq : s.net.requests c cfg.initialLeader = req :: rest) :
    Simulates cfg (tr ++ [(s, .handle cfg.initialLeader c lost)]) { s with
      net := answered cfg s c rest ((s.net.heap cfg.initialLeader).processReq req).2
        ((s.net.heap cfg.initialLeader).processReq req).1 lost } (sh.process (s.clients c) req) where
  index := by simpa [answered] using h.index
  leaderIndex := by simpa [answered] using h.leaderIndex
  heap := by
    rw [answered, Network.heap_sendReply, Network.heap_setHeap]
    exact (h.heap.processReq req).2
  lastUnlock := fun gid => by
    rw [lastUnlock_concat, h.unlockOf_handle hreq, h.lastUnlock]
    simp only [Shared.process]
    split <;> rfl
  redirections := by
    intro d r' resp hr' hmem
    rcases Network.mem_replies_sendReply hmem with hold | ⟨-, -, rfl, -⟩
    · exact h.redirections hr' hold
    · exact absurd rfl hr'
  serial := h.serial
  absent := h.absent

theorem Simulates.handle (h : Simulates cfg tr s sh) {lost : Bool}
    (hstep : step cfg s (.handle r c lost) = some s') :
    MoveOf cfg tr s (.handle r c lost) s' sh c := by
  simp only [step, Option.ite_none_right_eq_some, Option.map_eq_some_iff] at hstep
  obtain ⟨-, w', hrun, rfl⟩ := hstep
  rcases Network.runResult_of_run hrun with
    @⟨req, rest, hreq, hindex⟩ | @⟨req, rest, hreq, hindex⟩
  · rw [h.index, h.leaderIndex] at hindex
    refine ⟨sh, h.redirect hindex _, ?_, fun d _ => view_redirect hindex _ _ _ _⟩
    rw [view_redirect hindex]
    exact Move.lose (List.Sublist.refl _) (List.Sublist.refl _)
  · rw [h.index, h.leaderIndex] at hindex
    subst hindex
    refine ⟨sh.process (s.clients c) req, h.answer hreq, ?_,
      fun d hd => view_answered_of_ne hd _ _ _ _⟩
    have hanswer := (h.heap.processReq req).1
    have hview := view_answered_self cfg s c rest
      ((s.net.heap cfg.initialLeader).processReq req).2
      ((s.net.heap cfg.initialLeader).processReq req).1 lost
    rw [answered, hanswer] at hview
    rw [hanswer, hview]
    refine Move.handle hreq ?_
    cases lost <;> simp

/-- **Every step is a move** of one client's view. -/
theorem simulates_step (h : Simulates cfg tr s sh) {a : Action} (hstep : step cfg s a = some s') :
    ∃ c, MoveOf cfg tr s a s' sh c := by
  cases a with
  | begin c gid x nvalues => exact ⟨c, h.begin hstep⟩
  | send c lost => exact ⟨c, h.send hstep⟩
  | timeout c randomReplica => exact ⟨c, h.timeout hstep⟩
  | receive c r randomReplica => exact ⟨c, h.receive hstep⟩
  | wake c => exact ⟨c, h.wake hstep⟩
  | handle r c lost => exact ⟨c, h.handle hstep⟩
  | dropRequest c r i =>
    obtain rfl := Option.some.inj hstep
    refine ⟨c, h.drop (fun _ => rfl) rfl rfl (fun _ _ => List.Sublist.refl _) ?_ fun d hd => ?_⟩
    · exact sublist_setChannel (List.eraseIdx_sublist _ _) _ _
    · exact ⟨setChannel_of_client_ne _ hd _ _ _, rfl⟩
  | dropReply c r i =>
    obtain rfl := Option.some.inj hstep
    refine ⟨c, h.drop (fun _ => rfl) rfl rfl (fun _ _ => ?_) (List.Sublist.refl _) fun d hd => ?_⟩
    · exact sublist_setChannel (List.eraseIdx_sublist _ _) _ _
    · exact ⟨rfl, setChannel_of_client_ne _ hd _ _ _⟩

/-- **Invariants of the exchange.** A property of the shared state and the views that holds at the
start and that every move keeps, provided the changes of views meet a condition `C`, holds in every
state that a run reaches by steps meeting `C`. -/
theorem exchange_invariant {C : View → View → Prop} {I : Shared → (ℕ → View) → Prop}
    (hinit : I Shared.init ((machine cfg).init.view cfg))
    (hkeep : ∀ c sh views sh' v', I sh views → Move cfg c sh (views c) sh' v' →
      C (views c) v' → I sh' (Function.update views c v'))
    (htr : (machine cfg).Trace tr s)
    (hC : ∀ p ∈ tr, ∀ s' c, step cfg p.1 p.2 = some s' → C (p.1.view cfg c) (s'.view cfg c)) :
    ∃ sh, Simulates cfg tr s sh ∧ I sh (s.view cfg) := by
  refine htr.invariant_of_steps
    (C := fun s a => ∀ s' c, step cfg s a = some s' → C (s.view cfg c) (s'.view cfg c))
    (I := fun tr s => ∃ sh, Simulates cfg tr s sh ∧ I sh (s.view cfg))
    ⟨Shared.init, simulates_init cfg, hinit⟩ ?_ hC
  rintro tr s a s' ⟨sh, hsim, hinv⟩ hchange hstep
  obtain ⟨c, sh', hsim', hmove, hother⟩ := simulates_step hsim hstep
  refine ⟨sh', hsim', ?_⟩
  have hviews := hkeep c _ _ _ _ hinv hmove (hchange s' c hstep)
  -- only the view of client `c` has changed
  convert hviews using 1
  funext d
  by_cases hd : d = c
  · rw [hd, Function.update_self]
  · rw [Function.update_of_ne hd, hother d hd]

end Steps

end Lockseq

end Traxos
