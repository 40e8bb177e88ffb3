import Traxos.Core.Machine
import Traxos.Lockseq.Keys
import Traxos.Service.Network

/-! # The clients of the lock protocol

The coroutine `lockseq_model::client` as a state machine. A client stands at one of the points where
the coroutine is suspended or about to send (`Pc`); the functions below are the pieces of its body
between two such points. `Lockseq.machine` puts the clients together with the replicas and the
network: any action that is possible may come next, so its runs cover every interleaving, every
choice of random values and every pattern of losses and timeouts. -/

namespace Traxos

namespace Lockseq

/-- A test setup. `ngroups` and `maxSequenceLength` are `unsigned`; `firstLeader c` is the replica
that `start` draws for client `c`. -/
structure Config extends Service.Config where
  ngroups : ℕ
  maxSequenceLength : ℕ
  firstLeader : ℕ → ℕ
  firstLeader_lt : ∀ c, firstLeader c < nreplicas
  ngroups_lt : ngroups < 2 ^ 32
  maxSequenceLength_lt : maxSequenceLength < 2 ^ 32

/-- A setup with one replica. -/
def Config.oneReplica (nclients ngroups maxSequenceLength : ℕ) (hc : nclients ≤ Service.maxClients)
    (hg : ngroups < 2 ^ 32) (hm : maxSequenceLength < 2 ^ 32) : Config where
  nreplicas := 1
  nclients := nclients
  initialLeader := 0
  initialLeader_lt := Nat.one_pos
  nclients_le := hc
  ngroups := ngroups
  maxSequenceLength := maxSequenceLength
  firstLeader := fun _ => 0
  firstLeader_lt := fun _ => Nat.one_pos
  ngroups_lt := hg
  maxSequenceLength_lt := hm

/-- The phases of a locked sequence. -/
inductive Phase
  | lock
  | write
  | clear
  | unlock
  deriving DecidableEq, Repr

/-- The type of the requests of a phase. -/
def Phase.kind : Phase → Kind
  | .lock => .cas
  | .write => .put
  | .clear => .remove
  | .unlock => .remove

/-- Where a client stands. -/
inductive Pc
  /-- In the delay before a new sequence. -/
  | delay
  /-- About to send the request of the current step of a phase. -/
  | send (phase : Phase)
  /-- Waiting for a response to it, or for the timeout. -/
  | receive (phase : Phase)
  /-- In the delay before the next attempt to obtain the lock. -/
  | backoff
  /-- In the delay after a completed step of the write or clear phase. -/
  | pause (phase : Phase)
  /-- The coroutine has ended by an exception. -/
  | thrown (phase : Phase) (errcode : Errc)
  deriving DecidableEq, Repr

/-- The local variables of a client, and its `cstate`'s idea of the current leader. -/
structure Client where
  pc : Pc
  serial : ℕ
  leader : ℕ
  gid : ℕ
  value : Str
  nvalues : ℕ
  lockVersion : ℤ
  tries : ℕ
  n : ℕ

namespace Client

/-- A client that has just been started. -/
def start (cfg : Config) (cid : ℕ) : Client where
  pc := .delay
  serial := cid
  leader := cfg.firstLeader cid
  gid := 0
  value := []
  nvalues := 0
  lockVersion := 0
  tries := 0
  n := 0

/-- The end of the initial delay: pick a group, a value and a sequence length, and enter the lock
phase. `x` is the random number of `uniform_hex`. -/
def begin (cl : Client) (cid gid x nvalues : ℕ) : Client :=
  { cl with
    gid := gid
    value := clientKeyPrefix cid ++ uniformHex7 x
    nvalues := nvalues
    lockVersion := 0
    serial := Service.nextSerial cl.serial
    tries := 0
    pc := .send .lock }

/-- The request that the loop of a phase sends. -/
def request (cl : Client) : Phase → Request
  | .lock =>
    .cas { serial := cl.serial, key := makeLockKey cl.gid, expected := [], desired := cl.value }
  | .write => .put { serial := cl.serial, key := makeValueKey cl.gid cl.n, value := cl.value }
  | .clear => .remove { serial := cl.serial, key := makeValueKey cl.gid cl.n }
  | .unlock =>
    .remove { serial := cl.serial, key := makeLockKey cl.gid, versionMatch := cl.lockVersion }

/-- `continue` with `++tries`; `tries` is `unsigned`. -/
def again (cl : Client) (ph : Phase) : Client :=
  { cl with tries := (cl.tries + 1) % 2 ^ 32, pc := .send ph }

/-- An attempt that yielded no response: try a new leader every 3 retries. -/
def retry (cl : Client) (ph : Phase) (randomReplica : ℕ) : Client :=
  ({ cl with leader := if cl.tries % 3 = 2 then randomReplica else cl.leader }).again ph

/-- The next step of a phase: a new serial and a new loop over `tries`. -/
def nextStep (cl : Client) (ph : Phase) : Client :=
  { cl with serial := Service.nextSerial cl.serial, tries := 0, pc := .send ph }

/-- The head of the clear phase's loop. -/
def clearLoop (cfg : Config) (cl : Client) : Client :=
  if cl.n < cfg.maxSequenceLength then cl.nextStep .clear else cl.nextStep .unlock

/-- The head of the write phase's loop. -/
def writeLoop (cfg : Config) (cl : Client) : Client :=
  if cl.n ≠ cl.nvalues then cl.nextStep .write else cl.clearLoop cfg

/-- `goto write_phase`. -/
def writePhase (cfg : Config) (cl : Client) (lockVersion : ℤ) : Client :=
  ({ cl with lockVersion := lockVersion, n := 0 }).writeLoop cfg

/-- A response in the lock phase. -/
def onLock (cfg : Config) (cid : ℕ) (cl : Client) (resp : CasResponse) : Client :=
  if resp.errcode = .ok then
    -- CAS success: we obtained the lock
    cl.writePhase cfg resp.version
  else if resp.errcode ≠ .noMatch then { cl with pc := .thrown .lock resp.errcode }
  else if resp.actual = cl.value ∧ 0 < cl.tries then
    -- an earlier CAS succeeded, but the reply was lost
    cl.writePhase cfg resp.version
  else if !(clientKeyPrefix cid).isPrefixOf resp.actual then
    -- under the comment "must not be waiting for ourselves"
    { cl with pc := .thrown .lock .noMatch }
  else
    -- delay then retry
    { cl with pc := .backoff }

/-- A response in the write phase. -/
def onWrite (cl : Client) (resp : PutResponse) : Client :=
  if resp.errcode ≠ .ok then { cl with pc := .thrown .write resp.errcode }
  else { cl with n := cl.n + 1, pc := .pause .write }

/-- A response in the clear phase. -/
def onClear (cl : Client) (resp : RemoveResponse) : Client :=
  if resp.errcode = .ok then
    -- successful remove; go to next `n`
    { cl with n := cl.n + 1, pc := .pause .clear }
  else if resp.errcode ≠ .notFound then { cl with pc := .thrown .clear resp.errcode }
  else if cl.tries = 0 then
    -- nothing there on our first try: the end of the previous client's values
    cl.nextStep .unlock
  else
    -- our previous attempt may have succeeded with a lost reply
    { cl with n := cl.n + 1, pc := .pause .clear }

/-- A response in the unlock phase. -/
def onUnlock (cl : Client) (resp : RemoveResponse) : Client :=
  -- any response indicates success, but on the first try only `ok` is allowed
  if resp.errcode ≠ .ok ∧ cl.tries = 0 then { cl with pc := .thrown .unlock resp.errcode }
  else { cl with pc := .delay }

/-- A response returned by `receive_response`; it is of the type of the phase's requests. -/
def onResponse (cfg : Config) (cid : ℕ) (cl : Client) (ph : Phase) (resp : Response) : Client :=
  match ph, resp with
  | .lock, .cas resp => cl.onLock cfg cid resp
  | .write, .put resp => cl.onWrite resp
  | .clear, .remove resp => cl.onClear resp
  | .unlock, .remove resp => cl.onUnlock resp
  | _, _ => cl

/-- A message taken from the response port while waiting in a phase. -/
def receive (cfg : Config) (cid : ℕ) (cl : Client) (ph : Phase) (msg : Response)
    (randomReplica : ℕ) : Client :=
  match Service.receiveResponse ph.kind cl.serial msg with
  | .stale => cl
  | .redirected replicaid => ({ cl with leader := replicaid }).retry ph randomReplica
  | .accepted resp => cl.onResponse cfg cid ph resp
  | .unexpected => cl.retry ph randomReplica

/-- The end of a delay within a sequence. -/
def wake (cfg : Config) (cl : Client) : Option Client :=
  match cl.pc with
  | .backoff => some (cl.again .lock)
  | .pause .write => some (cl.writeLoop cfg)
  | .pause .clear => some (cl.clearLoop cfg)
  | _ => none

end Client

/-! ## The machine -/

/-- The network and the clients. -/
structure State where
  net : Service.Network
  clients : ℕ → Client

/-- What can happen next. -/
inductive Action
  /-- The initial delay of client `c` ends. -/
  | begin (c gid x nvalues : ℕ)
  /-- Client `c` sends. -/
  | send (c : ℕ) (lost : Bool)
  /-- The attempt of client `c` times out. -/
  | timeout (c randomReplica : ℕ)
  /-- Client `c` takes the oldest reply of replica `r`. -/
  | receive (c r randomReplica : ℕ)
  /-- Another delay of client `c` ends. -/
  | wake (c : ℕ)
  /-- Replica `r` takes the oldest request of client `c`. -/
  | handle (r c : ℕ) (lost : Bool)
  | dropRequest (c r i : ℕ)
  | dropReply (c r i : ℕ)
  deriving DecidableEq

/-- Replace client `c`. -/
def State.setClient (s : State) (c : ℕ) (cl : Client) : State :=
  { s with clients := Function.update s.clients c cl }

theorem State.clients_setClient (s : State) (c : ℕ) (cl : Client) :
    (s.setClient c cl).clients c = cl := Function.update_self ..

/-- `uniform(0U, ngroups_ - 1)` can be `gid`. -/
def Config.admitsGid (cfg : Config) (gid : ℕ) : Prop :=
  gid ≤ (cfg.ngroups + (2 ^ 32 - 1)) % 2 ^ 32

/-- `uniform(1U, max_sequence_length_)` can be `nvalues`. -/
def Config.admitsNvalues (cfg : Config) (nvalues : ℕ) : Prop :=
  1 ≤ nvalues ∧ nvalues ≤ max 1 cfg.maxSequenceLength

instance (cfg : Config) (gid : ℕ) : Decidable (cfg.admitsGid gid) :=
  inferInstanceAs (Decidable (_ ≤ _))

instance (cfg : Config) (nvalues : ℕ) : Decidable (cfg.admitsNvalues nvalues) :=
  inferInstanceAs (Decidable (_ ∧ _))

/-- The state after an action, `none` when it is not possible. -/
def step (cfg : Config) (s : State) : Action → Option State
  | .begin c gid x nvalues =>
    if c < cfg.nclients ∧ (s.clients c).pc = .delay ∧ cfg.admitsGid gid ∧ x < 2 ^ 28 ∧
        cfg.admitsNvalues nvalues then
      some (s.setClient c ((s.clients c).begin c gid x nvalues))
    else none
  | .send c lost =>
    let cl := s.clients c
    match cl.pc with
    | .send ph =>
      some { s.setClient c { cl with pc := .receive ph } with
        net := s.net.sendRequest cl.leader (cl.request ph) lost }
    | _ => none
  | .timeout c randomReplica =>
    match (s.clients c).pc with
    | .receive ph =>
      if randomReplica < cfg.nreplicas then
        some (s.setClient c ((s.clients c).retry ph randomReplica))
      else none
    | _ => none
  | .receive c r randomReplica =>
    match (s.clients c).pc, s.net.takeReply c r with
    | .receive ph, some (msg, net) =>
      if randomReplica < cfg.nreplicas then
        some { s.setClient c ((s.clients c).receive cfg c ph msg randomReplica) with net := net }
      else none
    | _, _ => none
  | .wake c => ((s.clients c).wake cfg).map (s.setClient c)
  | .handle r c lost =>
    if r < cfg.nreplicas then (s.net.run r c lost).map fun net => { s with net := net } else none
  | .dropRequest c r i => some { s with net := s.net.dropRequest c r i }
  | .dropReply c r i => some { s with net := s.net.dropReply c r i }

/-- The clients and replicas of a test. -/
def machine (cfg : Config) : Machine State Action where
  init := { net := Service.Network.init cfg.toConfig, clients := Client.start cfg }
  step := step cfg

/-- A run of the test: its steps, each with the state before it. -/
abbrev Steps : Type := List (State × Action)

/-! ## What a step does to one client -/

section Acted

variable {cfg : Config} {s s' : State} {a : Action}

/-- What a step can do to client `c`. -/
inductive Acted (cfg : Config) (s : State) (c : ℕ) : Action → Client → Prop
  | nothing {a : Action} : Acted cfg s c a (s.clients c)
  | begin {gid x nvalues : ℕ} (hpc : (s.clients c).pc = .delay) :
      Acted cfg s c (.begin c gid x nvalues) ((s.clients c).begin c gid x nvalues)
  | send {ph : Phase} {lost : Bool} (hpc : (s.clients c).pc = .send ph) :
      Acted cfg s c (.send c lost) { s.clients c with pc := .receive ph }
  | timeout {ph : Phase} {randomReplica : ℕ} (hpc : (s.clients c).pc = .receive ph) :
      Acted cfg s c (.timeout c randomReplica) ((s.clients c).retry ph randomReplica)
  | receive {ph : Phase} {r randomReplica : ℕ} {msg : Response}
      (hpc : (s.clients c).pc = .receive ph) (hhead : (s.net.replies c r).head? = some msg) :
      Acted cfg s c (.receive c r randomReplica)
        ((s.clients c).receive cfg c ph msg randomReplica)
  | wake {cl : Client} (hwake : (s.clients c).wake cfg = some cl) : Acted cfg s c (.wake c) cl

theorem acted_of_step (hstep : step cfg s a = some s') (c : ℕ) : Acted cfg s c a (s'.clients c) := by
  -- a step of client `d` is either one of `c` or leaves `c` alone
  have hother : ∀ (d : ℕ) (cl : Client), (d = c → Acted cfg s c a cl) →
      Acted cfg s c a (Function.update s.clients d cl c) := by
    intro d cl hcl
    by_cases hd : c = d
    · subst hd
      rw [Function.update_self]
      exact hcl rfl
    · rw [Function.update_of_ne hd]
      exact .nothing
  cases a with
  | begin d gid x nvalues =>
    simp only [step, Option.ite_none_right_eq_some, Option.some.injEq] at hstep
    obtain ⟨⟨-, hpc, -⟩, rfl⟩ := hstep
    refine hother d _ fun hd => ?_
    subst hd
    exact .begin hpc
  | send d lost =>
    simp only [step] at hstep
    split at hstep
    · rename_i hpc
      obtain rfl := Option.some.inj hstep
      refine hother d _ fun hd => ?_
      subst hd
      exact .send hpc
    · cases hstep
  | timeout d randomReplica =>
    simp only [step] at hstep
    split at hstep
    · rename_i hpc
      simp only [Option.ite_none_right_eq_some, Option.some.injEq] at hstep
      obtain ⟨-, rfl⟩ := hstep
      refine hother d _ fun hd => ?_
      subst hd
      exact .timeout hpc
    · cases hstep
  | receive d r randomReplica =>
    simp only [step] at hstep
    split at hstep
    · rename_i hpc htake
      simp only [Option.ite_none_right_eq_some, Option.some.injEq] at hstep
      obtain ⟨-, rfl⟩ := hstep
      refine hother d _ fun hd => ?_
      subst hd
      obtain ⟨rest, hreply, -⟩ := Service.Network.takeReply_eq_some htake
      exact .receive hpc (by rw [hreply, List.head?_cons])
    · cases hstep
  | wake d =>
    simp only [step, Option.map_eq_some_iff] at hstep
    obtain ⟨cl, hwake, rfl⟩ := hstep
    refine hother d _ fun hd => ?_
    subst hd
    exact .wake hwake
  | handle r d lost =>
    simp only [step, Option.ite_none_right_eq_some, Option.map_eq_some_iff] at hstep
    obtain ⟨-, net, -, rfl⟩ := hstep
    exact .nothing
  | dropRequest d r i =>
    obtain rfl := Option.some.inj hstep
    exact .nothing
  | dropReply d r i =>
    obtain rfl := Option.some.inj hstep
    exact .nothing

end Acted

end Lockseq

end Traxos
