import Traxos.Core.Observation
import Traxos.Lockseq.TestRun
import Traxos.Pancy.Replay
import Traxos.Service.Linearizability

/-! # Lock clients are clients of the service

A client of the lock protocol keeps to the rules of `client_model`: the requests that it sends are of
one type and under one serial until it goes on to the next (`Serves`). So its runs are runs of the
service, of which the same is observed, and what is known of the service holds on the network: the
requests that the leader handled were sent by clients, in one order they explain its database, and every
response that a client accepts is the answer at a place in that order to a request of its own
(`answers_explained`). -/

namespace Traxos

namespace Service

/-- What is observed of a step of the service. -/
def occurrence (s : State) : Action → Option Occurrence
  | .send c r req false => some (.sent c r req)
  | .handle r c _ => (s.net.requests c r).head?.map (.handled r)
  | _ => none

/-- A request that the leader handles. -/
def Occurrence.atLeader (cfg : Config) : Occurrence → Option Request
  | .sent _ _ _ => none
  | .handled r req => if r = cfg.initialLeader then some req else none

/-- The log of the leader, as it is observed. -/
theorem map_leaderLog (cfg : Config) (tr : Steps) : (leaderLog cfg tr).map (·.2) =
    (tr.filterMap fun p => occurrence p.1 p.2).filterMap (Occurrence.atLeader cfg) := by
  rw [leaderLog, List.map_filterMap, List.filterMap_filterMap]
  congr 1
  funext p
  obtain ⟨s, a⟩ := p
  cases a with
  | send c r req lost => cases lost <;> rfl
  | handle r c lost =>
    by_cases hr : r = cfg.initialLeader
    · cases h : (s.net.requests c r).head? with
      | none => simp only [handled, if_pos hr, occurrence, h, Option.map_none, Option.bind_none]
      | some req =>
        simp only [handled, if_pos hr, occurrence, h, Option.map_some, Option.bind_some,
          Occurrence.atLeader]
    · cases h : (s.net.requests c r).head? with
      | none => simp only [handled, if_neg hr, occurrence, h, Option.map_none, Option.bind_none]
      | some req =>
        simp only [handled, if_neg hr, occurrence, h, Option.map_none, Option.map_some,
          Option.bind_some, Occurrence.atLeader]
  | _ => rfl

theorem processLog_eq_serve (log : List (ℕ × Request)) :
    processLog log = ({} : Heap).serve (log.map (·.2)) := by
  rw [processLog, Heap.serve, List.foldl_map]

end Service

namespace Lockseq

open Service Netsim

/-- The phase whose current request the client sends, waits for or will send again. -/
def Client.phase (cl : Client) : Option Phase :=
  match cl.pc with
  | .send ph => some ph
  | .receive ph => some ph
  | .backoff => some .lock
  | _ => none

/-- What a client may do between two points: keep its request, finish with it, or go on to the next
one. -/
inductive Client.Goes (cl : Client) : Client → Prop
  | stays {cl' : Client} (hserial : cl'.serial = cl.serial)
      (hphase : ∀ ph, cl'.phase = some ph → cl.phase = some ph) : Goes cl cl'
  | advances {cl' : Client} {ph : Phase} (hserial : cl'.serial = nextSerial cl.serial)
      (hphase : cl'.phase = some ph) : Goes cl cl'

section Clients

variable {cfg : Config} {cl cl' : Client} {ph : Phase} {c : ℕ}

theorem Client.Goes.nextStep (h : cl'.serial = cl.serial) (ph : Phase) : cl.Goes (cl'.nextStep ph) :=
  .advances (congrArg nextSerial h) rfl

theorem Client.Goes.clearLoop (h : cl'.serial = cl.serial) : cl.Goes (cl'.clearLoop cfg) := by
  rw [Client.clearLoop]
  split
  · exact .nextStep h .clear
  · exact .nextStep h .unlock

theorem Client.Goes.writeLoop (h : cl'.serial = cl.serial) : cl.Goes (cl'.writeLoop cfg) := by
  rw [Client.writeLoop]
  split
  · exact .nextStep h .write
  · exact .clearLoop h

/-- A client that has no request any more. -/
theorem Client.Goes.finished (h : cl'.serial = cl.serial) (hphase : cl'.phase = none) :
    cl.Goes cl' := by
  refine .stays h fun ph hph => ?_
  rw [hphase] at hph
  cases hph

theorem Client.Goes.retry (hpc : cl.pc = .receive ph) (leader randomReplica : ℕ) :
    cl.Goes (({ cl with leader := leader }).retry ph randomReplica) := by
  refine .stays rfl fun ph' hph' => ?_
  rw [← hph', Client.phase, hpc]
  rfl

theorem Client.Goes.onResponse (hpc : cl.pc = .receive ph) (resp : Response) :
    cl.Goes (cl.onResponse cfg c ph resp) := by
  unfold Client.onResponse
  split
  · unfold Client.onLock
    split
    · exact .writeLoop rfl
    split
    · exact .finished rfl rfl
    split
    · exact .writeLoop rfl
    split
    · exact .finished rfl rfl
    · -- the same request will be sent again
      refine .stays rfl fun ph' hph' => ?_
      rw [← hph', Client.phase, hpc]
      rfl
  · unfold Client.onWrite
    split <;> exact .finished rfl rfl
  · unfold Client.onClear
    split
    · exact .finished rfl rfl
    split
    · exact .finished rfl rfl
    split
    · exact .nextStep rfl .unlock
    · exact .finished rfl rfl
  · unfold Client.onUnlock
    split <;> exact .finished rfl rfl
  · exact .stays rfl fun _ hph' => hph'

theorem Client.Goes.receive (hpc : cl.pc = .receive ph) (msg : Response) (randomReplica : ℕ) :
    cl.Goes (cl.receive cfg c ph msg randomReplica) := by
  unfold Client.receive
  split
  · exact .stays rfl fun _ hph' => hph'
  · exact .retry hpc _ randomReplica
  · exact .onResponse hpc _
  · exact .retry hpc cl.leader randomReplica

theorem Client.Goes.wake (h : cl.wake cfg = some cl') : cl.Goes cl' := by
  unfold Client.wake at h
  split at h
  · rename_i hpc
    obtain rfl := Option.some.inj h
    refine .stays rfl fun ph' hph' => ?_
    rw [← hph', Client.phase, hpc]
    rfl
  · obtain rfl := Option.some.inj h
    exact .writeLoop rfl
  · obtain rfl := Option.some.inj h
    exact .clearLoop rfl
  · cases h

end Clients

/-! ## The service -/

/-- What the service sees of a client: its serial, and the type of the request that it is after. -/
structure SessionOf (cl : Client) (session : Session) : Prop where
  serial : session.serial = cl.serial
  kind : ∀ ph, cl.phase = some ph → session.kind = ph.kind

/-- The state `u` of the service is what it sees of the state `s` of the protocol. -/
structure Serves (s : State) (u : Service.State) : Prop where
  net : u.net = s.net
  session : ∀ c, SessionOf (s.clients c) (u.sessions c)

/-- One client and its session. -/
theorem sessionOf_update {clients : ℕ → Client} {sessions : ℕ → Session} {cl : Client}
    {session : Session} (h : ∀ d, SessionOf (clients d) (sessions d)) (c : ℕ)
    (hc : SessionOf cl session) (d : ℕ) :
    SessionOf (Function.update clients c cl d) (Function.update sessions c session d) := by
  by_cases hd : d = c
  · subst hd
    rw [Function.update_self, Function.update_self]
    exact hc
  · rw [Function.update_of_ne hd, Function.update_of_ne hd]
    exact h d

/-- The service with as many clients. -/
def service (cfg : Config) : Machine Service.State Service.Action :=
  Service.machine cfg.toConfig fun _ => .cas

section Steps

variable {cfg : Config} {s s' : State} {u : Service.State} {c : ℕ} {cl : Client}

/-- The service can follow from `u` to a state that it sees of `s'`; what is observed on the way is `e`. -/
def ServesNext (cfg : Config) (u : Service.State) (e : Option Occurrence) (s' : State) : Prop :=
  ∃ bs tr u', (service cfg).record u bs = some (tr, u') ∧ Serves s' u' ∧
    (tr.filterMap fun p => Service.occurrence p.1 p.2) = e.toList

theorem ServesNext.cons {v : Service.State} {b : Service.Action} {e : Option Occurrence}
    (hstep : Service.step cfg.toConfig u b = some v) (he : Service.occurrence u b = e)
    (h : ServesNext cfg v none s') : ServesNext cfg u e s' := by
  obtain ⟨bs, tr, u', hrecord, hserves, hobserved⟩ := h
  refine ⟨b :: bs, (u, b) :: tr, u', ?_, hserves, ?_⟩
  · have hstep' : (service cfg).step u b = some v := hstep
    simp only [Machine.record, hstep', hrecord, Option.bind_eq_bind, Option.bind_some]
  · subst he
    rw [List.filterMap_cons, hobserved]
    cases h : Service.occurrence u b <;> rfl

theorem ServesNext.refl (h : Serves s u) : ServesNext cfg u none s := ⟨[], [], u, rfl, h, rfl⟩

/-- A step of the network alone. -/
theorem Serves.network (h : Serves s u) (net : Service.Network) :
    Serves { s with net := net } { u with net := net } := ⟨rfl, h.session⟩

/-- **A client goes on**, to the next request if it likes. -/
theorem Serves.goes (h : Serves s u) (hc : c < cfg.nclients) (hgoes : (s.clients c).Goes cl) :
    ServesNext cfg u none (s.setClient c cl) := by
  have hsession := h.session c
  cases hgoes with
  | stays hserial hphase =>
    have hkept : SessionOf cl (u.sessions c) :=
      ⟨hsession.serial.trans hserial.symm, fun ph hph => hsession.kind ph (hphase ph hph)⟩
    have hall := sessionOf_update h.session c hkept
    rw [Function.update_eq_self] at hall
    exact .refl ⟨h.net, hall⟩
  | @advances ph hserial hphase =>
    have hstep : Service.step cfg.toConfig u (.advance c ph.kind) = some { u with
        sessions := Function.update u.sessions c
          { serial := nextSerial (u.sessions c).serial, kind := ph.kind } } := by
      rw [Service.step, if_pos hc]
    refine .cons hstep rfl (.refl ⟨h.net, sessionOf_update h.session c ⟨?_, fun ph' hph' => ?_⟩⟩)
    · rw [hserial, hsession.serial]
    · obtain rfl := Option.some.inj (hphase.symm.trans hph')
      rfl

/-- **Every step of the protocol is one of the service**, after which a client may go on. -/
theorem Serves.step (h : Serves s u) (hrouted : Routed cfg s)
    (habsent : ∀ c, cfg.nclients ≤ c → (s.clients c).pc = .delay) {a : Action}
    (hstep : step cfg s a = some s') : ServesNext cfg u (occurrence s a) s' := by
  have hlt : ∀ {c}, (s.clients c).pc ≠ .delay → c < cfg.nclients := fun hpc =>
    Nat.lt_of_not_le fun hle => hpc (habsent _ hle)
  cases a with
  | begin c gid x nvalues =>
    simp only [Lockseq.step, Option.ite_none_right_eq_some, Option.some.injEq] at hstep
    obtain ⟨⟨hc, -⟩, rfl⟩ := hstep
    exact h.goes hc (.advances rfl rfl)
  | send c lost =>
    simp only [Lockseq.step] at hstep
    split at hstep
    · rename_i ph hpc
      obtain rfl := Option.some.inj hstep
      have hc : c < cfg.nclients := hlt (by rw [hpc]; simp)
      have hphase : (s.clients c).phase = some ph := by rw [Client.phase, hpc]
      have hguard : c < cfg.nclients ∧ (s.clients c).leader < cfg.nreplicas ∧
          ((s.clients c).request ph).messageSerial = (u.sessions c).serial ∧
          ((s.clients c).request ph).kind = (u.sessions c).kind := by
        refine ⟨hc, hrouted.leader c, ?_, ?_⟩
        · rw [Client.messageSerial_request, (h.session c).serial]
        · rw [(h.session c).kind ph hphase]
          cases ph <;> rfl
      have hsent : Service.step cfg.toConfig u
          (.send c (s.clients c).leader ((s.clients c).request ph) lost) = some { u with
            net := s.net.sendRequest (s.clients c).leader ((s.clients c).request ph) lost } := by
        rw [Service.step, if_pos hguard, h.net]
      refine .cons hsent ?_ ((h.network _).goes hc (.stays rfl fun ph' hph' => ?_))
      · cases lost with
        | true => rfl
        | false => simp only [Service.occurrence, occurrence, hpc]
      · rw [← hph']
        exact hphase
    · cases hstep
  | timeout c randomReplica =>
    simp only [Lockseq.step] at hstep
    split at hstep
    · rename_i ph hpc
      simp only [Option.ite_none_right_eq_some, Option.some.injEq] at hstep
      obtain ⟨-, rfl⟩ := hstep
      exact h.goes (hlt (by rw [hpc]; simp)) (.retry hpc (s.clients c).leader randomReplica)
    · cases hstep
  | receive c r randomReplica =>
    simp only [Lockseq.step] at hstep
    split at hstep
    · rename_i ph msg net hpc htake
      simp only [Option.ite_none_right_eq_some, Option.some.injEq] at hstep
      obtain ⟨-, rfl⟩ := hstep
      have hc : c < cfg.nclients := hlt (by rw [hpc]; simp)
      have htaken : Service.step cfg.toConfig u (.receive c r) = some { u with net := net } := by
        rw [Service.step, if_pos hc, h.net, htake, Option.map_some]
      exact .cons htaken rfl ((h.network net).goes hc (.receive hpc msg randomReplica))
    · cases hstep
  | wake c =>
    simp only [Lockseq.step, Option.map_eq_some_iff] at hstep
    obtain ⟨cl, hwake, rfl⟩ := hstep
    refine h.goes (hlt fun hpc => ?_) (.wake hwake)
    rw [Client.wake, hpc] at hwake
    cases hwake
  | handle r c lost =>
    simp only [Lockseq.step, Option.ite_none_right_eq_some, Option.map_eq_some_iff] at hstep
    obtain ⟨hr, net, hrun, rfl⟩ := hstep
    refine .cons (b := .handle r c lost) ?_ ?_ (.refl (h.network net))
    · rw [Service.step, if_pos hr, h.net, hrun, Option.map_some]
    · rw [Service.occurrence, occurrence, h.net]
  | dropRequest c r i =>
    obtain rfl := Option.some.inj hstep
    refine .cons (b := .dropRequest c r i) ?_ rfl (.refl (h.network _))
    rw [Service.step, h.net]
  | dropReply c r i =>
    obtain rfl := Option.some.inj hstep
    refine .cons (b := .dropReply c r i) ?_ rfl (.refl (h.network _))
    rw [Service.step, h.net]

/-- **Every run of the protocol is a run of the service**, of which the same is observed. -/
theorem exists_service_of_trace {tr : Steps} (htr : (machine cfg).Trace tr s) :
    ∃ tr' u, (service cfg).Trace tr' u ∧ Serves s u ∧
      (tr'.filterMap fun p => Service.occurrence p.1 p.2) =
        tr.filterMap fun p => occurrence p.1 p.2 := by
  refine htr.simulate (N := service cfg) (R := fun s _ u => Serves s u)
    (f := fun p => occurrence p.1 p.2) (g := fun p => Service.occurrence p.1 p.2)
    ⟨rfl, fun _ => ⟨rfl, fun _ hph => by cases hph⟩⟩ ?_
  intro tr s a s' tr' u htr htr' h hstep
  obtain ⟨sh, hsim, -⟩ := locking_of_trace htr
  exact h.step (routed_of_trace htr) hsim.absent hstep

end Steps

/-! ## One order of requests -/

namespace Deployment

variable (cfg : Config) (su : Setup) (tr : List (State × Action))

/-- The request that the leader handles in a step. -/
def handled (s : State) : Action → Option Request
  | .handle r _ =>
    if r = cfg.initialLeader then (s.receivedWithChannel su r).map (·.1.message) else none
  | _ => none

/-- The requests that the leader handles in a run, in order. -/
def leaderLog : List Request := tr.filterMap fun p => handled cfg su p.1 p.2

/-- Client `c` sends `req` to the leader in step `i`. -/
def SentAt (c : ℕ) (req : Request) (i : ℕ) : Prop :=
  ∃ s ph, tr[i]? = some (s, .send c false) ∧ (s.clients c).pc = .send ph ∧
    (s.clients c).leader = cfg.initialLeader ∧ (s.clients c).request ph = req

/-- The leader handles `req` in step `j`, as entry `p` of its log. -/
def HandledAt (req : Request) (p j : ℕ) : Prop :=
  ∃ s lost, tr[j]? = some (s, .handle cfg.initialLeader lost) ∧
    handled cfg su s (.handle cfg.initialLeader lost) = some req ∧
    (leaderLog cfg su (tr.take j)).length = p

variable {cfg su tr} {s : State} {a : Action} {c r : ℕ} {req : Request}

theorem leaderLog_eq : leaderLog cfg su tr =
    (tr.filterMap fun p => occurrence su p.1 p.2).filterMap (Occurrence.atLeader cfg.toConfig) := by
  rw [leaderLog, List.filterMap_filterMap]
  congr 1
  funext p
  obtain ⟨s, a⟩ := p
  cases a with
  | send c lost =>
    cases lost with
    | true => rfl
    | false => cases h : (s.clients c).pc <;> simp [handled, occurrence, Occurrence.atLeader, h]
  | handle r lost =>
    cases h : s.receivedWithChannel su r with
    | none => simp only [handled, occurrence, h, Option.map_none, Option.bind_none, ite_self]
    | some p => simp only [handled, occurrence, h, Option.map_some, Option.bind_some,
        Occurrence.atLeader]
  | _ => rfl

theorem occurrence_eq_sent (h : occurrence su s a = some (.sent c r req)) : a = .send c false ∧
    ∃ ph, (s.clients c).pc = .send ph ∧ (s.clients c).leader = r ∧ (s.clients c).request ph = req := by
  cases a with
  | send d lost =>
    cases lost with
    | true => cases h
    | false =>
      simp only [occurrence] at h
      split at h
      · rename_i ph hpc
        obtain ⟨rfl, rfl, rfl⟩ := Occurrence.sent.inj (Option.some.inj h)
        exact ⟨rfl, ph, hpc, rfl, rfl⟩
      · cases h
  | handle d lost =>
    obtain ⟨p, -, heq⟩ := Option.map_eq_some_iff.mp h
    cases heq
  | _ => cases h

theorem occurrence_eq_handled (h : occurrence su s a = some (.handled r req)) :
    ∃ lost m found, a = .handle r lost ∧ s.receivedWithChannel su r = some (m, found) ∧
      m.message = req := by
  cases a with
  | send d lost =>
    cases lost with
    | true => cases h
    | false =>
      simp only [occurrence] at h
      split at h <;> cases h
  | handle d lost =>
    obtain ⟨⟨m, found⟩, hm, heq⟩ := Option.map_eq_some_iff.mp h
    obtain ⟨rfl, rfl⟩ := Occurrence.handled.inj heq
    exact ⟨lost, m, found, rfl, hm, rfl⟩
  | _ => cases h

end Deployment

section Answers

variable {cfg : Config} {su : Setup} {tr : List (Deployment.State × Deployment.Action)}
  {tru : Service.Steps} {u : Service.State} {c r i j p : ℕ} {req : Request} {kind : Kind}
  {msg resp : Response}

/-- An entry of the log of the service was sent by a client, and then handled. -/
theorem steps_of_entry (htr : (service cfg).Trace tru u)
    (hp : (Service.leaderLog cfg.toConfig tru)[p]? = some (c, req)) :
    ∃ i j, i < j ∧ Service.SentAt tru c cfg.initialLeader req i ∧
      Service.AnsweredAt cfg.toConfig tru c req
        ((processLog (Service.leaderLog cfg.toConfig (tru.take j))).processReq req).1 j ∧
      (Service.leaderLog cfg.toConfig (tru.take j)).length = p := by
  obtain ⟨j, ⟨sj, a⟩, hj, hhandled, hlength⟩ := exists_step_of_observed hp
  cases a with
  | handle r c' lost =>
    have hhandled' := hhandled
    rw [Service.handled, Option.ite_none_right_eq_some] at hhandled'
    obtain ⟨rfl, hhead⟩ := hhandled'
    obtain ⟨req', hreq, heq⟩ := Option.map_eq_some_iff.mp hhead
    obtain ⟨rfl, rfl⟩ := Prod.mk.inj heq
    -- it was in flight when the leader handled it, so it had been sent
    obtain ⟨i, si, hi⟩ := (accounted_of_trace (htr.take hj)).requests (List.mem_of_mem_head? hreq)
    have hij : i < j := by
      have := (List.getElem?_eq_some_iff.mp hi).1
      rw [List.length_take] at this
      omega
    rw [List.getElem?_take_of_lt hij] at hi
    exact ⟨i, j, hij, ⟨si, hi⟩, ⟨sj, lost, hj, hhandled, rfl⟩, hlength⟩
  | _ => cases hhandled

/-- Who sends to the service is a client, and its serials are its own. -/
theorem client_of_sentAt (htr : (service cfg).Trace tru u) (h : Service.SentAt tru c r req i) :
    c < cfg.nclients ∧ req.messageSerial &&& clientMask = c := by
  obtain ⟨si, hi⟩ := h
  obtain ⟨hc, hserial, -⟩ := session_of_sent htr hi
  refine ⟨hc, ?_⟩
  rw [hserial, (accounted_of_trace (htr.take hi)).serial c hc]
  exact serial_and_clientMask (Nat.lt_of_lt_of_le hc cfg.nclients_le) _

/-- A reply that is accepted is the answer to a request in the log. -/
theorem answer_of_accepted {cfg : Service.Config} (h : Accounted cfg tru u)
    (hmem : msg ∈ u.net.replies c r) {serial : ℕ}
    (haccepted : receiveResponse kind serial msg = .accepted resp) :
    r = cfg.initialLeader ∧ ∃ i j req, i < j ∧ Service.SentAt tru c cfg.initialLeader req i ∧
      Service.AnsweredAt cfg tru c req resp j ∧ req.messageSerial = serial ∧ req.kind = kind := by
  obtain ⟨rfl, hserial, hkind⟩ := receiveResponse_eq_accepted haccepted
  rcases h.replies hmem with hnone | ⟨rfl, i, j, req, hij, hsent, hans⟩
  · rw [hnone] at hkind
    cases hkind
  obtain ⟨sj, lost, hj, hhandled, hresp⟩ := id hans
  have hreqkind : some req.kind = some kind := by
    rw [← hkind, hresp, Heap.kind_processReq]
  refine ⟨rfl, i, j, req, hij, hsent, hans, ?_, Option.some.inj hreqkind⟩
  rw [← hserial, hresp, Heap.messageSerial_processReq]

/-- **What is observed of the service was done on the network**: a transmission, and the turn in which
the leader handles it, as the same entry of its log. -/
theorem exists_steps_of_service
    (hobserved : (tru.filterMap fun p => Service.occurrence p.1 p.2) =
      tr.filterMap fun p => Deployment.occurrence su p.1 p.2)
    (hsent : Service.SentAt tru c cfg.initialLeader req i)
    (hanswered : Service.AnsweredAt cfg.toConfig tru c req resp j) (hij : i < j) :
    ∃ i' j', i' < j' ∧ Deployment.SentAt cfg tr c req i' ∧
      Deployment.HandledAt cfg su tr req (Service.leaderLog cfg.toConfig (tru.take j)).length j' := by
  obtain ⟨si, hi⟩ := hsent
  obtain ⟨sj, lost, hj, hhandled, -⟩ := hanswered
  have hhead : Service.occurrence sj (.handle cfg.initialLeader c lost) =
      some (.handled cfg.initialLeader req) := by
    rw [Service.handled, Option.ite_none_right_eq_some] at hhandled
    obtain ⟨req', hreq, heq⟩ := Option.map_eq_some_iff.mp hhandled.2
    obtain ⟨-, rfl⟩ := Prod.mk.inj heq
    rw [Service.occurrence, hreq, Option.map_some]
  obtain ⟨i', j', ⟨si', a⟩, ⟨sj', b⟩, hi', ha, hj', hb, hij', htake⟩ :=
    exists_steps_of_observed_eq hobserved hi rfl hj hhead hij
  obtain ⟨rfl, ph, hpc, hleader, hreq⟩ := Deployment.occurrence_eq_sent ha
  obtain ⟨lost', m, found, rfl, hm, hmessage⟩ := Deployment.occurrence_eq_handled hb
  refine ⟨i', j', hij', ⟨si', ph, hi', hpc, hleader, hreq⟩, sj', lost', hj', ?_, ?_⟩
  · rw [Deployment.handled, if_pos rfl, hm, Option.map_some, hmessage]
  · rw [Deployment.leaderLog_eq, htake, ← map_leaderLog, List.length_map]

end Answers

/-- **One order of requests explains the test**: the leader's database is the result of the requests that
it handled, each of which a client had sent to it before; and whenever a client is about to accept a
response, it is the answer, at some place of that order, to a request that the client sent under its
current serial in its current phase, given by the database as it was then. -/
theorem answers_explained (cfg : Config) (su : Setup)
    (hsu : setup cfg.nreplicas cfg.initialLeader cfg.nclients = .ok su)
    (tr : List (Deployment.State × Deployment.Action)) (s : Deployment.State)
    (htr : (deployment cfg su).Trace tr s) :
    ({ nonexistentVv := s.nonexistentVv, self := (s.replicas cfg.initialLeader).db } : Heap) =
      ({} : Heap).serve (Deployment.leaderLog cfg su tr) ∧
    (∀ p req, (Deployment.leaderLog cfg su tr)[p]? = some req → ∃ c i j, i < j ∧
      c < cfg.nclients ∧ req.messageSerial &&& clientMask = c ∧
      Deployment.SentAt cfg tr c req i ∧ Deployment.HandledAt cfg su tr req p j) ∧
    ∀ c ph m resp, (s.clients c).pc = .receive ph → s.received su c = some m →
      receiveResponse ph.kind (s.clients c).serial m.message = .accepted resp →
      m.address = replicaAddr cfg.initialLeader ∧ ∃ p req i j, i < j ∧
        (Deployment.leaderLog cfg su tr)[p]? = some req ∧
        Deployment.SentAt cfg tr c req i ∧ Deployment.HandledAt cfg su tr req p j ∧
        req.messageSerial = (s.clients c).serial ∧ req.kind = ph.kind ∧
        resp = ((({} : Heap).serve ((Deployment.leaderLog cfg su tr).take p)).processReq req).1 := by
  obtain ⟨trt, t, htrt, h, -, hobservedt⟩ := exists_observed_trace (sound_of_setup hsu) htr
  obtain ⟨tru, u, htru, hserves, hobservedu⟩ := exists_service_of_trace htrt
  have haccounted := accounted_of_trace htru
  have hobserved := hobservedu.trans hobservedt
  have hlog : Deployment.leaderLog cfg su tr = (Service.leaderLog cfg.toConfig tru).map (·.2) := by
    rw [Deployment.leaderLog_eq, map_leaderLog, hobserved]
  refine ⟨?_, fun p req hp => ?_, fun c ph m resp hpc hm haccepted => ?_⟩
  · rw [hlog, ← processLog_eq_serve, ← haccounted.heap, hserves.net, ← h.represents.replicas,
      ← h.represents.nonexistentVv]
    rfl
  · rw [hlog, List.getElem?_map, Option.map_eq_some_iff] at hp
    obtain ⟨⟨c, req'⟩, hp, rfl⟩ := hp
    obtain ⟨i, j, hij, hsent, hanswered, rfl⟩ := steps_of_entry htru hp
    obtain ⟨hc, hserial⟩ := client_of_sentAt htru hsent
    obtain ⟨i', j', hij', hsent', hhandled'⟩ := exists_steps_of_service hobserved hsent hanswered hij
    exact ⟨c, i', j', hij', hc, hserial, hsent', hhandled'⟩
  · obtain ⟨r, chan, rest, haddress, -, hreply⟩ := h.exists_response hpc hm
    have hmem : m.message ∈ u.net.replies c r := by
      rw [hserves.net, hreply]
      exact List.mem_cons_self
    obtain ⟨rfl, i, j, req, hij, hsent, hanswered, hserial, hkind⟩ :=
      answer_of_accepted haccounted hmem haccepted
    obtain ⟨i', j', hij', hsent', hhandled'⟩ := exists_steps_of_service hobserved hsent hanswered hij
    obtain ⟨sj, lost, hj, hhandled, hresp⟩ := hanswered
    refine ⟨haddress, _, req, i', j', hij', ?_, hsent', hhandled', hserial, hkind, ?_⟩
    · rw [hlog, List.getElem?_map, leaderLog_getElem? hj hhandled, Option.map_some]
    · have hprefix := List.prefix_iff_eq_take.mp (prefix_leaderLog_take cfg.toConfig tru j)
      rw [hlog, ← List.map_take, ← hprefix, ← processLog_eq_serve, hresp]

/-- The client is about to learn that it has obtained the lock. -/
theorem answers_explained_lock : ∃ tr s m p req i resp,
    (deployment smallConfig smallSetup).Trace tr s ∧ s.received smallSetup 0 = some m ∧
    receiveResponse .cas (s.clients 0).serial m.message = .accepted resp ∧
    Deployment.SentAt smallConfig tr 0 req i ∧
    (Deployment.leaderLog smallConfig smallSetup tr)[p]? = some req ∧
    resp = ((({} : Heap).serve
      ((Deployment.leaderLog smallConfig smallSetup tr).take p)).processReq req).1 := by
  obtain ⟨tr, s, htr, hpc, hm⟩ := Machine.exists_trace_of_record
    (M := deployment smallConfig smallSetup)
    [.serve 0, .begin 0 0 5 1, .send 0 false, .tick 1, .listen 0, .tick 4, .fireRequest 0,
      .resumeServer 0, .tick 1, .fireRequest 0, .resumeServer 0, .resumeServer 0, .handle 0 false,
      .tick 1, .tick 4, .fireResponse 0, .resume 0, .tick 1, .fireResponse 0, .resume 0, .resume 0]
    (P := fun _ s => (s.clients 0).pc = .receive .lock ∧ (s.received smallSetup 0).any fun m =>
      decide (receiveResponse .cas (s.clients 0).serial m.message = .accepted m.message))
    (by decide)
  obtain ⟨m, hm, haccepted⟩ := (Option.any_eq_true _ _).mp hm
  obtain ⟨-, p, req, i, j, -, hlog, hsent, -, -, -, hresp⟩ :=
    (answers_explained smallConfig smallSetup setup_small tr s htr).2.2 0 .lock m m.message hpc hm
      (of_decide_eq_true haccepted)
  exact ⟨tr, s, m, p, req, i, m.message, htr, hm, of_decide_eq_true haccepted, hsent, hlog, hresp⟩

end Lockseq

end Traxos
