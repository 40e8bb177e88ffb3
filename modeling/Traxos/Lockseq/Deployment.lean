import Traxos.Lockseq.Client
import Traxos.Netsim.ClientServer
import Traxos.Netsim.Transit
import Traxos.Service.Setup

/-! # The test on the simulated network

`try_one_seed` from where its coroutines start: the clients of `lockseq_model` and the replicas'
`run` over the network that `setup` has built. Unlike `Lockseq.machine` this has everything that
lies between a `send` and the loop turn that its message ends up in: channels are found through
pointers and tables, messages wait for the link delay, then in the queue of a port, and are taken out
by calls of `receive_from` that suspend, resume and are cancelled.

Time is in milliseconds. A coroutine that waits in `cot::after` may go on at the end of its delay or
any time later; the delays that are random are bounded from below by what they may be at least. -/

namespace Traxos

namespace Lockseq

open Service Netsim

namespace Deployment

/-! ## The source -/

/-- `send_delay_`. -/
def sendDelay : ℕ := 1

/-- How long a client waits at least where it stands. -/
def minDelay : Pc → ℕ
  -- `uniform(50ms, 200ms)`
  | .backoff => 50
  | .pause _ => 1
  | _ => 0

/-- The networks, the replicas and the clients. -/
structure State where
  requests : NetState Request Channel Loc := {}
  responses : NetState Response Channel Loc := {}
  nonexistentVv : Vv
  replicas : ℕ → Replica
  servers : ℕ → Listener
  clients : ℕ → Client
  listeners : ℕ → Listener

/-- `cot::now()`. -/
def State.now (s : State) : ℕ := s.requests.timers.now

/-- What happens next. -/
inductive Action
  /-- The initial delay of client `c` ends. -/
  | begin (c gid x nvalues : ℕ)
  /-- Client `c` sends. -/
  | send (c : ℕ) (lost : Bool)
  /-- `receive_response` of client `c` calls `receive`. -/
  | listen (c : ℕ)
  /-- That call goes on. -/
  | resume (c : ℕ)
  /-- That call has returned, and `receive_response` goes on. -/
  | receive (c randomReplica : ℕ)
  /-- The attempt of client `c` times out. -/
  | timeout (c randomReplica : ℕ)
  /-- Another delay of client `c` ends. -/
  | wake (c : ℕ)
  /-- `run` of replica `r` calls `receive_with_channel`. -/
  | serve (r : ℕ)
  /-- That call goes on. -/
  | resumeServer (r : ℕ)
  /-- That call has returned, and `run` goes on. -/
  | handle (r : ℕ) (lost : Bool)
  | fireRequest (i : ℕ)
  | fireResponse (i : ℕ)
  | tick (n : ℕ)
  deriving DecidableEq, Repr

/-- Client `c` and its listener are replaced. -/
def State.setClient (s : State) (c : ℕ) (cl : Client) (l : Listener) : State :=
  { s with clients := Function.update s.clients c cl, listeners := Function.update s.listeners c l }

/-- `clients_[serial & client_mask()]`. -/
def clientInfo (su : Setup) (serial : ℕ) : Option ClientInfo :=
  su.clients.clients[serial &&& clientMask]?

/-- `from_clients_` of the replica `r`. -/
def fromClients (su : Setup) (r : ℕ) : Option ServerPort :=
  (su.replicas[r]?).bind fun p => su.clients.net.findPort p.fromClients

/-- The loop of `run`, when its replica `r` has received `req`: the reply. -/
def State.reply (s : State) (r : ℕ) (req : Request) : Response × State :=
  let replica := s.replicas r
  -- if not leader, redirect
  if replica.index ≠ replica.leaderIndex then
    (.redirection { toResponseBase := responseHeader req.base .redirect
                    redirection := replica.leaderIndex }, s)
  else
    -- if leader, process message and send response
    let (resp, h) :=
      ({ nonexistentVv := s.nonexistentVv, self := replica.db } : Heap).processReq req
    (resp, { s with
      nonexistentVv := h.nonexistentVv
      replicas := Function.update s.replicas r { replica with db := h.self } })

/-- `send_request`, as client `c` calls it in phase `ph`. -/
def State.sendRequest (su : Setup) (s : State) (c : ℕ) (ph : Phase) (lost : Bool) :
    Option State := do
  let cl := s.clients c
  let info ← clientInfo su cl.serial
  let chan ← info.channels[cl.leader]?
  let net ← netStep wires s.requests (.send chan (cl.request ph) lost)
  some ({ s with requests := net }.setClient c { cl with pc := .receive ph }
    { s.listeners c with readyAt := s.now + sendDelay })

/-- The call of `receive_from` of the response port of client `c` acts. -/
def State.callReceive (su : Setup) (s : State) (c : ℕ) (a : CallAction) :
    Option (NetState Response Channel Loc) := do
  let info ← clientInfo su (s.clients c).serial
  netStep wires s.responses (.call info.responsePort a)

/-- The call of `receive_from` of `from_clients_` of replica `r` acts. -/
def State.callReceiveWithChannel (su : Setup) (s : State) (r : ℕ) (a : CallAction) :
    Option (NetState Request Channel Loc) := do
  let port ← fromClients su r
  netStep wires s.requests (.call port.loc a)

/-- What `receive` has returned to client `c`. -/
def State.received (su : Setup) (s : State) (c : ℕ) : Option (MessageFrom Response Channel) := do
  let info ← clientInfo su (s.clients c).serial
  (s.listeners c).result (s.responses.receivers info.responsePort)

/-- What `receive_with_channel` has returned to replica `r`: a request and the channel to reply on,
which it has looked up under the address of the sender. -/
def State.receivedWithChannel (su : Setup) (s : State) (r : ℕ) :
    Option (MessageFrom Request Channel × Option Channel) := do
  let port ← fromClients su r
  let m ← (s.servers r).result (s.requests.receivers port.loc)
  some (m, (port.channels[m.address]?).map (·.2))

/-- Client `c` goes on as `cl`, and its call is over. -/
def State.finishClient (s : State) (c : ℕ) (cl : Client) : State :=
  s.setClient c cl ((s.listeners c).finish (s.now + minDelay cl.pc))

/-- The state after an action, `none` when it is not possible. -/
def step (cfg : Config) (su : Setup) (s : State) : Action → Option State
  | .begin c gid x nvalues =>
    if c < cfg.nclients ∧ (s.clients c).pc = .delay ∧ cfg.admitsGid gid ∧ x < 2 ^ 28 ∧
        cfg.admitsNvalues nvalues then
      some (s.setClient c ((s.clients c).begin c gid x nvalues) (s.listeners c))
    else none
  | .send c lost =>
    match (s.clients c).pc with
    | .send ph => s.sendRequest su c ph lost
    | _ => none
  | .listen c =>
    match (s.clients c).pc with
    | .receive _ =>
      let l := s.listeners c
      if l.receiving = false ∧ l.readyAt ≤ s.now then
        (s.callReceive su c (.start l.calls)).map fun net =>
          { s with responses := net }.setClient c (s.clients c) { l with receiving := true }
      else none
    | _ => none
  | .resume c =>
    let l := s.listeners c
    if l.receiving then
      (s.callReceive su c (.resume l.calls)).map fun net => { s with responses := net }
    else none
  | .receive c randomReplica =>
    match (s.clients c).pc with
    | .receive ph =>
      if randomReplica < cfg.nreplicas then
        (s.received su c).map fun m =>
          s.finishClient c ((s.clients c).receive cfg c ph m.message randomReplica)
      else none
    | _ => none
  | .timeout c randomReplica =>
    match (s.clients c).pc with
    | .receive ph =>
      let l := s.listeners c
      if l.readyAt ≤ s.now ∧ randomReplica < cfg.nreplicas then
        -- the call is destroyed where it is suspended, if it is
        let net := (s.callReceive su c (.cancel l.calls)).getD s.responses
        some ({ s with responses := net }.finishClient c ((s.clients c).retry ph randomReplica))
      else none
    | _ => none
  | .wake c =>
    if (s.listeners c).readyAt ≤ s.now then
      ((s.clients c).wake cfg).map fun cl => s.setClient c cl (s.listeners c)
    else none
  | .serve r =>
    let l := s.servers r
    if l.receiving = false ∧ l.readyAt ≤ s.now then
      (s.callReceiveWithChannel su r (.start l.calls)).map fun net => { s with
        requests := net
        servers := Function.update s.servers r { l with receiving := true } }
    else none
  | .resumeServer r =>
    let l := s.servers r
    if l.receiving then
      (s.callReceiveWithChannel su r (.resume l.calls)).map fun net => { s with requests := net }
    else none
  | .handle r lost => do
    let (m, found) ← s.receivedWithChannel su r
    -- `reply_chan->send`
    let replyChan ← found
    let (resp, s) := s.reply r m.message
    let net ← netStep wires s.responses (.send replyChan resp lost)
    some { s with
      responses := net
      servers := Function.update s.servers r ((s.servers r).finish (s.now + sendDelay)) }
  | .fireRequest i =>
    (netStep wires s.requests (.fire i)).map fun net => { s with requests := net }
  | .fireResponse i =>
    (netStep wires s.responses (.fire i)).map fun net => { s with responses := net }
  | .tick n => do
    let requests ← netStep wires s.requests (.tick n)
    let responses ← netStep wires s.responses (.tick n)
    some { s with requests := requests, responses := responses }

end Deployment

/-- The test on the network `su`. -/
def deployment (cfg : Config) (su : Setup) : Machine Deployment.State Deployment.Action where
  init := {
    nonexistentVv := Vv.nonexistentVv
    replicas := fun r => { index := r, leaderIndex := cfg.initialLeader, db := Pancydb.empty }
    servers := fun _ => {}
    clients := Client.start cfg
    listeners := fun _ => {} }
  step := Deployment.step cfg su

end Lockseq

end Traxos
