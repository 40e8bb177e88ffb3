import Traxos.Core.Machine
import Traxos.Service.Network

/-! # Linearizability of the service as clients see it

The service with arbitrary clients of `client_model`: a client sends requests of one type under one
serial, as often and to whichever replicas it likes, receives, and advances its serial. The leader
handles transmissions one at a time, and their order is the one order that explains every response
a client accepts.

* **`leaderLog`** — the transmissions the leader handled in a run, in order.
* **`linearizable`** — the leader's database is the result of that log, and every accepted response
  is the answer, at its place in the log, to a transmission of the accepting client's own request,
  made under its current serial. -/

namespace Traxos

namespace Service

open Network

/-- What a client knows when it calls `send_request` and `receive_response`: the serial of its
current request and that request's type. -/
structure Session where
  serial : ℕ
  kind : Kind

/-- The network and the clients. -/
structure State where
  net : Network
  sessions : ℕ → Session

/-- What can happen next. -/
inductive Action
  /-- Client `c` goes on to its next request, of type `kind`. -/
  | advance (c : ℕ) (kind : Kind)
  /-- Client `c` transmits its request to replica `r`. -/
  | send (c r : ℕ) (req : Request) (lost : Bool)
  /-- Client `c`, in `receive_response`, takes the oldest reply of replica `r`. -/
  | receive (c r : ℕ)
  /-- Replica `r` takes the oldest request of client `c`. -/
  | handle (r c : ℕ) (lost : Bool)
  | dropRequest (c r i : ℕ)
  | dropReply (c r i : ℕ)

/-- The state after an action, `none` when it is not possible. -/
def step (cfg : Config) (s : State) : Action → Option State
  | .advance c kind =>
    if c < cfg.nclients then
      some { s with
        sessions := Function.update s.sessions c
          { serial := nextSerial (s.sessions c).serial, kind := kind } }
    else none
  | .send c r req lost =>
    if c < cfg.nclients ∧ r < cfg.nreplicas ∧ req.messageSerial = (s.sessions c).serial ∧
        req.kind = (s.sessions c).kind then
      some { s with net := s.net.sendRequest r req lost }
    else none
  | .receive c r =>
    if c < cfg.nclients then (s.net.takeReply c r).map fun (_, net) => { s with net := net }
    else none
  | .handle r c lost =>
    if r < cfg.nreplicas then (s.net.run r c lost).map fun net => { s with net := net } else none
  | .dropRequest c r i => some { s with net := s.net.dropRequest c r i }
  | .dropReply c r i => some { s with net := s.net.dropReply c r i }

/-- The service with clients whose first request is of type `firstKind c`. -/
def machine (cfg : Config) (firstKind : ℕ → Kind) : Machine State Action where
  init := { net := Network.init cfg, sessions := fun c => { serial := c, kind := firstKind c } }
  step := step cfg

/-- A run of the service: its steps, each with the state before it. -/
abbrev Steps : Type := List (State × Action)

/-- The response that `receive_response` returns to client `c` on the oldest reply of replica `r`,
if it returns one. -/
def State.accepts (s : State) (c r : ℕ) : Option Response :=
  match s.net.takeReply c r with
  | none => none
  | some (msg, _) =>
    match receiveResponse (s.sessions c).kind (s.sessions c).serial msg with
    | .accepted resp => some resp
    | _ => none

/-- The transmission that the leader handles in a step: the client and the request. -/
def handled (cfg : Config) (s : State) : Action → Option (ℕ × Request)
  | .handle r c _ =>
    if r = cfg.initialLeader then (s.net.requests c r).head?.map fun req => (c, req) else none
  | _ => none

/-- The transmissions that the leader handled, in order. -/
def leaderLog (cfg : Config) (tr : Steps) : List (ℕ × Request) :=
  tr.filterMap fun p => handled cfg p.1 p.2

/-- A new database after a sequence of requests, by `process_req`. -/
def processLog (log : List (ℕ × Request)) : Heap :=
  log.foldl (fun h q => (h.processReq q.2).2) {}

/-- How often a step advances the serial of client `c`. -/
def advances (c : ℕ) (tr : Steps) : ℕ :=
  tr.countP fun p =>
    match p.2 with
    | .advance c' _ => c' == c
    | _ => false

@[simp] theorem leaderLog_append (cfg : Config) (tr tr' : Steps) :
    leaderLog cfg (tr ++ tr') = leaderLog cfg tr ++ leaderLog cfg tr' :=
  List.filterMap_append

theorem processLog_append_singleton (log : List (ℕ × Request)) (q : ℕ × Request) :
    processLog (log ++ [q]) = ((processLog log).processReq q.2).2 := by
  rw [processLog, processLog, List.foldl_append]
  rfl

@[simp] theorem advances_append (c : ℕ) (tr tr' : Steps) :
    advances c (tr ++ tr') = advances c tr + advances c tr' :=
  List.countP_append

/-! ## Where messages come from -/

/-- Client `c` sent `req` to replica `r` in step `i`. -/
def SentAt (tr : Steps) (c r : ℕ) (req : Request) (i : ℕ) : Prop :=
  ∃ s, tr[i]? = some (s, .send c r req false)

/-- The leader handled `req` of client `c` in step `j` and answered `resp`. -/
def AnsweredAt (cfg : Config) (tr : Steps) (c : ℕ) (req : Request) (resp : Response) (j : ℕ) :
    Prop :=
  ∃ s lost, tr[j]? = some (s, .handle cfg.initialLeader c lost) ∧
    handled cfg s (.handle cfg.initialLeader c lost) = some (c, req) ∧
    resp = ((processLog (leaderLog cfg (tr.take j))).processReq req).1

/-- What a run says about the state it reached. -/
structure Accounted (cfg : Config) (tr : Steps) (s : State) : Prop where
  index : ∀ r, (s.net.replicas r).index = r
  leaderIndex : ∀ r, (s.net.replicas r).leaderIndex = cfg.initialLeader
  heap : s.net.heap cfg.initialLeader = processLog (leaderLog cfg tr)
  serial : ∀ c, c < cfg.nclients → (s.sessions c).serial = (c + 4096 * advances c tr) % 2 ^ 64
  requests : ∀ {c r req}, req ∈ s.net.requests c r → ∃ i, SentAt tr c r req i
  replies : ∀ {c r resp}, resp ∈ s.net.replies c r → resp.kind = none ∨
    r = cfg.initialLeader ∧
      ∃ i j req, i < j ∧ SentAt tr c r req i ∧ AnsweredAt cfg tr c req resp j

section Accounted

variable {cfg : Config} {tr : Steps} {s s' : State} {c r i j : ℕ} {req : Request} {resp : Response}

theorem SentAt.append (h : SentAt tr c r req i) (tr' : Steps) : SentAt (tr ++ tr') c r req i := by
  obtain ⟨si, hi⟩ := h
  have hlt := (List.getElem?_eq_some_iff.mp hi).1
  exact ⟨si, by rw [List.getElem?_append_left hlt, hi]⟩

theorem AnsweredAt.append (h : AnsweredAt cfg tr c req resp j) (tr' : Steps) :
    AnsweredAt cfg (tr ++ tr') c req resp j := by
  obtain ⟨sj, lost, hj, hreq, hresp⟩ := h
  have hlt := (List.getElem?_eq_some_iff.mp hj).1
  refine ⟨sj, lost, by rw [List.getElem?_append_left hlt, hj], hreq, ?_⟩
  rwa [List.take_append_of_le_length (Nat.le_of_lt hlt)]

/-- The last step of a run is found at its end. -/
theorem getElem?_concat_length (tr : Steps) (p : State × Action) :
    (tr ++ [p])[tr.length]? = some p := by
  simp

/-- The account of a reply that was in flight before holds after any further step. -/
theorem replies_append (h : resp.kind = none ∨ r = cfg.initialLeader ∧
      ∃ i j req, i < j ∧ SentAt tr c r req i ∧ AnsweredAt cfg tr c req resp j) (tr' : Steps) :
    resp.kind = none ∨ r = cfg.initialLeader ∧
      ∃ i j req, i < j ∧ SentAt (tr ++ tr') c r req i ∧ AnsweredAt cfg (tr ++ tr') c req resp j := by
  rcases h with hnone | ⟨hr, i, j, req, hij, hsent, hans⟩
  · exact Or.inl hnone
  · exact Or.inr ⟨hr, i, j, req, hij, hsent.append tr', hans.append tr'⟩

/-- A step in which nothing is added to a channel, no database changes and no serial advances keeps
the account. -/
theorem Accounted.of_shrunk (h : Accounted cfg tr s) {a : Action}
    (hindex : s'.net.replicas = s.net.replicas)
    (hheap : s'.net.heap cfg.initialLeader = s.net.heap cfg.initialLeader)
    (hhandled : handled cfg s a = none)
    (hserial : ∀ c, c < cfg.nclients →
      (s'.sessions c).serial = (c + 4096 * advances c (tr ++ [(s, a)])) % 2 ^ 64)
    (hreq : ∀ c r req, req ∈ s'.net.requests c r → req ∈ s.net.requests c r)
    (hresp : ∀ c r resp, resp ∈ s'.net.replies c r → resp ∈ s.net.replies c r) :
    Accounted cfg (tr ++ [(s, a)]) s' where
  index := by rw [hindex]; exact h.index
  leaderIndex := by rw [hindex]; exact h.leaderIndex
  heap := by
    have hlog : leaderLog cfg [(s, a)] = [] := by simp [leaderLog, hhandled]
    rw [hheap, h.heap, leaderLog_append, hlog, List.append_nil]
  serial := hserial
  requests := by
    intro c r req hmem
    obtain ⟨i, hi⟩ := h.requests (hreq c r req hmem)
    exact ⟨i, hi.append _⟩
  replies := fun hmem => replies_append (h.replies (hresp _ _ _ hmem)) _

/-- A step that advances no serial leaves the count of advances. -/
theorem advances_concat {a : Action} (ha : ∀ kind, a ≠ .advance c kind) (s : State) (tr : Steps) :
    advances c (tr ++ [(s, a)]) = advances c tr := by
  rw [advances_append]
  cases a with
  | advance c' kind =>
    have hne : (c' == c) = false := by
      refine beq_false_of_ne ?_
      rintro rfl
      exact ha kind rfl
    simp [advances, hne]
  | _ => rfl

/-- The low bits of every serial of a client are its id. -/
theorem serial_and_clientMask (hc : c < maxClients) (k : ℕ) :
    (c + 4096 * k) % 2 ^ 64 &&& clientMask = c := by
  have hmask : (c + 4096 * k) % 2 ^ 64 &&& clientMask = (c + 4096 * k) % 2 ^ 64 % 4096 :=
    Nat.and_two_pow_sub_one_eq_mod _ 12
  have hlt : c < 4096 := hc
  rw [hmask]
  omega

theorem accounted_init (cfg : Config) (firstKind : ℕ → Kind) :
    Accounted cfg [] (machine cfg firstKind).init where
  index := fun _ => rfl
  leaderIndex := fun _ => rfl
  heap := rfl
  serial := by
    intro c hc
    have hle := cfg.nclients_le
    rw [maxClients] at hle
    show c = (c + 4096 * 0) % 2 ^ 64
    omega
  requests := fun hmem => absurd hmem List.not_mem_nil
  replies := fun hmem => absurd hmem List.not_mem_nil

theorem Accounted.advance (h : Accounted cfg tr s) {kind : Kind}
    (hstep : step cfg s (.advance c kind) = some s') :
    Accounted cfg (tr ++ [(s, .advance c kind)]) s' := by
  simp only [step, Option.ite_none_right_eq_some, Option.some.injEq] at hstep
  obtain ⟨hc, rfl⟩ := hstep
  refine h.of_shrunk rfl rfl rfl (fun d hd => ?_) (fun _ _ _ hm => hm) (fun _ _ _ hm => hm)
  rw [advances_append]
  by_cases hdc : d = c
  · -- the serial of `c` moves on by one step
    subst hdc
    have hone : advances d [(s, Action.advance d kind)] = 1 := by simp [advances]
    have hserial := h.serial d hd
    simp only [Function.update_self, nextSerial, serialStep, hone, hserial]
    omega
  · have hzero : advances d [(s, Action.advance c kind)] = 0 := by
      simp [advances, beq_false_of_ne (Ne.symm hdc)]
    simp only [Function.update_of_ne hdc, hzero, Nat.add_zero]
    exact h.serial d hd

theorem Accounted.send (h : Accounted cfg tr s) {lost : Bool}
    (hstep : step cfg s (.send c r req lost) = some s') :
    Accounted cfg (tr ++ [(s, .send c r req lost)]) s' := by
  simp only [step, Option.ite_none_right_eq_some, Option.some.injEq] at hstep
  obtain ⟨⟨hc, -, hserial, -⟩, rfl⟩ := hstep
  -- the serial says whose channel is used: the client's own
  have hchannel : req.messageSerial &&& clientMask = c := by
    rw [hserial, h.serial c hc]
    exact serial_and_clientMask (Nat.lt_of_lt_of_le hc cfg.nclients_le) _
  exact {
    index := by simpa using h.index
    leaderIndex := by simpa using h.leaderIndex
    heap := by
      rw [heap_sendRequest, h.heap, leaderLog_append]
      simp [leaderLog, handled]
    serial := fun d hd => by
      rw [advances_concat (by simp)]
      exact h.serial d hd
    requests := by
      intro d r' req' hmem
      rcases mem_requests_sendRequest hmem with hold | ⟨rfl, hd, rfl, rfl⟩
      · obtain ⟨i, hi⟩ := h.requests hold
        exact ⟨i, hi.append _⟩
      · -- the transmission made in this step
        obtain rfl := hd.trans hchannel
        exact ⟨tr.length, s, getElem?_concat_length _ _⟩
    replies := fun hmem => replies_append (h.replies (by simpa using hmem)) _ }

/-- What is left of a channel after its oldest request was taken was sent before. -/
theorem Accounted.requests_taken (h : Accounted cfg tr s) {rest : List Request}
    (hreq : s.net.requests c r = req :: rest) (a : Action) {d r' : ℕ} {req' : Request}
    (hmem : req' ∈ setChannel s.net.requests c r rest d r') :
    ∃ i, SentAt (tr ++ [(s, a)]) d r' req' i := by
  have hrest : rest.Sublist (s.net.requests c r) := by
    rw [hreq]
    exact List.sublist_cons_self _ _
  obtain ⟨i, hi⟩ := h.requests (mem_setChannel_of_sublist hrest hmem)
  exact ⟨i, hi.append _⟩

/-- Another replica redirects: the log does not grow, and a redirection is of no type. -/
theorem Accounted.redirect (h : Accounted cfg tr s) {rest : List Request} {lost : Bool}
    (hreq : s.net.requests c r = req :: rest) (hr : r ≠ cfg.initialLeader)
    (rp : RedirectionResponse) :
    Accounted cfg (tr ++ [(s, .handle r c lost)]) { s with
      net := (({ s.net with requests := setChannel s.net.requests c r rest } : Network).sendReply
        r c (.redirection rp) lost) } where
  index := by simpa using h.index
  leaderIndex := by simpa using h.leaderIndex
  heap := by
    have hlog : leaderLog cfg [(s, .handle r c lost)] = [] := by
      simp [leaderLog, handled, hr]
    rw [heap_sendReply, leaderLog_append, hlog, List.append_nil]
    exact h.heap
  serial := fun d hd => by
    rw [advances_concat (by simp)]
    exact h.serial d hd
  requests := by
    intro d r' req' hmem
    rw [requests_sendReply] at hmem
    exact h.requests_taken hreq _ hmem
  replies := by
    intro d r' resp hmem
    rcases mem_replies_sendReply hmem with hold | ⟨-, -, -, rfl⟩
    · exact replies_append (h.replies hold) _
    · exact Or.inl rfl

/-- The leader answers: the log grows by the request, which was sent earlier. -/
theorem Accounted.answer (h : Accounted cfg tr s) {rest : List Request} {lost : Bool}
    (hreq : s.net.requests c cfg.initialLeader = req :: rest) :
    Accounted cfg (tr ++ [(s, .handle cfg.initialLeader c lost)]) { s with
      net := ((({ s.net with
          requests := setChannel s.net.requests c cfg.initialLeader rest } : Network).setHeap
        cfg.initialLeader ((s.net.heap cfg.initialLeader).processReq req).2).sendReply
          cfg.initialLeader c ((s.net.heap cfg.initialLeader).processReq req).1 lost) } := by
  have hhandled : handled cfg s (.handle cfg.initialLeader c lost) = some (c, req) := by
    simp [handled, hreq]
  have hlog : leaderLog cfg [(s, .handle cfg.initialLeader c lost)] = [(c, req)] := by
    simp [leaderLog, hhandled]
  exact {
    index := by simpa using h.index
    leaderIndex := by simpa using h.leaderIndex
    heap := by
      rw [heap_sendReply, heap_setHeap, leaderLog_append, hlog, processLog_append_singleton,
        h.heap]
    serial := fun d hd => by
      rw [advances_concat (by simp)]
      exact h.serial d hd
    requests := by
      intro d r' req' hmem
      rw [requests_sendReply] at hmem
      exact h.requests_taken hreq _ hmem
    replies := by
      intro d r' resp hmem
      rcases mem_replies_sendReply hmem with hold | ⟨-, rfl, rfl, rfl⟩
      · exact replies_append (h.replies hold) _
      · obtain ⟨i, hi⟩ := h.requests (hreq ▸ List.mem_cons_self)
        have hlt : i < tr.length := by
          obtain ⟨si, hsi⟩ := hi
          exact (List.getElem?_eq_some_iff.mp hsi).1
        refine Or.inr ⟨rfl, i, tr.length, req, hlt, hi.append _, s, lost,
          getElem?_concat_length _ _, hhandled, ?_⟩
        rw [List.take_append_of_le_length (Nat.le_refl _), List.take_length, h.heap] }

theorem Accounted.handle (h : Accounted cfg tr s) {lost : Bool}
    (hstep : step cfg s (.handle r c lost) = some s') :
    Accounted cfg (tr ++ [(s, .handle r c lost)]) s' := by
  simp only [step, Option.ite_none_right_eq_some, Option.map_eq_some_iff] at hstep
  obtain ⟨-, w', hrun, rfl⟩ := hstep
  rcases runResult_of_run hrun with @⟨req, rest, hreq, hindex⟩ | @⟨req, rest, hreq, hindex⟩
  · rw [h.index, h.leaderIndex] at hindex
    exact h.redirect hreq hindex _
  · rw [h.index, h.leaderIndex] at hindex
    subst hindex
    exact h.answer hreq

/-- **One step keeps the account**, whatever it is. -/
theorem Accounted.step (h : Accounted cfg tr s) {a : Action}
    (hstep : Service.step cfg s a = some s') : Accounted cfg (tr ++ [(s, a)]) s' := by
  cases a with
  | advance c kind => exact h.advance hstep
  | send c r req lost => exact h.send hstep
  | handle r c lost => exact h.handle hstep
  | receive c r =>
    simp only [Service.step, Option.ite_none_right_eq_some, Option.map_eq_some_iff] at hstep
    obtain ⟨-, ⟨msg, w'⟩, htake, rfl⟩ := hstep
    obtain ⟨rest, hreply, rfl⟩ := takeReply_eq_some htake
    refine h.of_shrunk rfl rfl rfl (fun d hd => ?_) (fun _ _ _ hm => hm) fun _ _ _ hm => ?_
    · rw [advances_concat (by simp)]
      exact h.serial d hd
    · exact mem_setChannel_of_sublist (hreply ▸ List.sublist_cons_self _ _) hm
  | dropRequest c r i =>
    obtain rfl := Option.some.inj hstep
    refine h.of_shrunk rfl rfl rfl (fun d hd => ?_) (fun _ _ _ hm => ?_) fun _ _ _ hm => hm
    · rw [advances_concat (by simp)]
      exact h.serial d hd
    · exact mem_setChannel_of_sublist (List.eraseIdx_sublist _ _) hm
  | dropReply c r i =>
    obtain rfl := Option.some.inj hstep
    refine h.of_shrunk rfl rfl rfl (fun d hd => ?_) (fun _ _ _ hm => hm) fun _ _ _ hm => ?_
    · rw [advances_concat (by simp)]
      exact h.serial d hd
    · exact mem_setChannel_of_sublist (List.eraseIdx_sublist _ _) hm

/-- **Every run accounts for its state.** -/
theorem accounted_of_trace {firstKind : ℕ → Kind} (h : (machine cfg firstKind).Trace tr s) :
    Accounted cfg tr s :=
  h.invariant (accounted_init cfg firstKind) fun _ _ _ _ hs hstep => hs.step hstep

end Accounted

/-! ## Linearizability -/

section Linearizability

variable {cfg : Config} {tr : Steps} {s : State} {c r i j k : ℕ}

/-- What a client accepts is a reply in flight to it, with its serial and type. -/
theorem State.mem_replies_of_accepts {resp : Response} (h : s.accepts c r = some resp) :
    resp ∈ s.net.replies c r ∧ resp.messageSerial = (s.sessions c).serial ∧
      resp.kind = some (s.sessions c).kind := by
  unfold State.accepts at h
  split at h
  · -- no reply is waiting
    cases h
  · rename_i msg w' htake
    obtain ⟨rest, hreply, -⟩ := takeReply_eq_some htake
    split at h
    · rename_i resp' hreceived
      obtain rfl := Option.some.inj h
      obtain ⟨rfl, hserial, hkind⟩ := receiveResponse_eq_accepted hreceived
      exact ⟨hreply ▸ List.mem_cons_self, hserial, hkind⟩
    · cases h

/-- A client that advances between two moments has advanced more often at the later one. -/
theorem advances_take_lt {n : ℕ} {sn : State} {kind : Kind} (hin : i ≤ n) (hnk : n < k)
    (hn : tr[n]? = some (sn, .advance c kind)) :
    advances c (tr.take i) < advances c (tr.take k) := by
  have hsplit : tr.take k = tr.take i ++ (tr.take k).drop i := by
    have htake : tr.take i = (tr.take k).take i := by
      rw [List.take_take, Nat.min_eq_left (by omega)]
    rw [htake, List.take_append_drop]
  have hmem : (sn, Action.advance c kind) ∈ (tr.take k).drop i := by
    refine List.mem_iff_getElem?.mpr ⟨n - i, ?_⟩
    rw [List.getElem?_drop, Nat.add_sub_cancel' hin, List.getElem?_take_of_lt hnk, hn]
  have hpos : 0 < advances c ((tr.take k).drop i) :=
    List.countP_pos_iff.mpr ⟨_, hmem, by simp⟩
  rw [hsplit, advances_append]
  omega

theorem advances_take_le (c k : ℕ) (tr : Steps) : advances c (tr.take k) ≤ advances c tr :=
  (List.take_sublist k tr).countP_le

/-- The log of a run's beginning is the beginning of its log. -/
theorem prefix_leaderLog_take (cfg : Config) (tr : Steps) (j : ℕ) :
    leaderLog cfg (tr.take j) <+: leaderLog cfg tr := by
  refine ⟨leaderLog cfg (tr.drop j), ?_⟩
  rw [← leaderLog_append, List.take_append_drop]

/-- The transmission handled in a step comes next in the log. -/
theorem leaderLog_getElem? {sj : State} {a : Action} {q : ℕ × Request} (hj : tr[j]? = some (sj, a))
    (hq : handled cfg sj a = some q) :
    (leaderLog cfg tr)[(leaderLog cfg (tr.take j)).length]? = some q := by
  have hlt := (List.getElem?_eq_some_iff.mp hj).1
  have hsplit : leaderLog cfg tr =
      leaderLog cfg (tr.take j) ++ q :: leaderLog cfg (tr.drop (j + 1)) := by
    have hdrop : tr.drop j = (sj, a) :: tr.drop (j + 1) := by
      rw [List.drop_eq_getElem_cons hlt]
      exact congrArg (· :: _) (List.getElem?_eq_some_iff.mp hj).2
    calc leaderLog cfg tr
        = leaderLog cfg (tr.take j) ++ leaderLog cfg (tr.drop j) := by
          rw [← leaderLog_append, List.take_append_drop]
      _ = _ := by
          rw [hdrop]
          simp [leaderLog, hq]
  rw [hsplit, List.getElem?_append_right (Nat.le_refl _), Nat.sub_self]
  rfl

/-- What the guard of `send` says of a transmission. -/
theorem session_of_sent {firstKind : ℕ → Kind} (h : (machine cfg firstKind).Trace tr s)
    {req : Request} {lost : Bool} {si : State} (hi : tr[i]? = some (si, .send c r req lost)) :
    c < cfg.nclients ∧ req.messageSerial = (si.sessions c).serial ∧
      req.kind = (si.sessions c).kind := by
  obtain ⟨tr', s', -, hstep⟩ := h.exists_step (List.mem_of_getElem? hi)
  simp only [machine, Service.step, Option.ite_none_right_eq_some] at hstep
  exact ⟨hstep.1.1, hstep.1.2.2⟩

end Linearizability

/-- **Linearizability.** In every run in which no client advances its serial `2 ^ 52` times, the
leader's database is the result of `process_req` over the transmissions the leader handled, in the
order of `leaderLog`; and a response that client `c` accepts in step `k` is the answer to a
transmission at some place of that log: `c` sent it to the leader in an earlier step `i`, under the
serial and with the type of step `k`, the leader handled it in between, and `c` has not gone on to
another request since it sent it. -/
theorem linearizable (cfg : Config) (firstKind : ℕ → Kind) (tr : Steps) (s : State)
    (h : (machine cfg firstKind).Trace tr s)
    (hfew : ∀ c, c < cfg.nclients → advances c tr < 2 ^ 52) :
    s.net.heap cfg.initialLeader = processLog (leaderLog cfg tr) ∧
    ∀ (k c r : ℕ) (sk : State) (resp : Response), tr[k]? = some (sk, .receive c r) →
      sk.accepts c r = some resp →
      r = cfg.initialLeader ∧ resp.messageSerial = (sk.sessions c).serial ∧
      resp.kind = some (sk.sessions c).kind ∧
      ∃ (p i j : ℕ) (req : Request) (si sj : State) (lost : Bool),
        (leaderLog cfg tr)[p]? = some (c, req) ∧
        resp = ((processLog ((leaderLog cfg tr).take p)).processReq req).1 ∧
        tr[i]? = some (si, .send c cfg.initialLeader req false) ∧
        tr[j]? = some (sj, .handle cfg.initialLeader c lost) ∧ i < j ∧ j < k ∧
        p = (leaderLog cfg (tr.take j)).length ∧
        req.messageSerial = (sk.sessions c).serial ∧ req.kind = (sk.sessions c).kind ∧
        ∀ n sn kind, i ≤ n → n < k → tr[n]? ≠ some (sn, .advance c kind) := by
  refine ⟨(accounted_of_trace h).heap, fun k c r sk resp hk haccepts => ?_⟩
  have hsk := accounted_of_trace (h.take hk)
  obtain ⟨hmem, hserial, hkind⟩ := State.mem_replies_of_accepts haccepts
  rcases hsk.replies hmem with hnone | ⟨rfl, i, j, req, hij, hsent, hans⟩
  · -- a redirection is never accepted
    rw [hnone] at hkind
    cases hkind
  obtain ⟨si, hi⟩ := hsent
  obtain ⟨sj, lost, hj, hhandled, hresp⟩ := hans
  -- the steps found in the run up to `k` are steps of the whole run
  have hjk : j < k := by
    have := (List.getElem?_eq_some_iff.mp hj).1
    rw [List.length_take] at this
    omega
  rw [List.getElem?_take_of_lt (by omega)] at hi
  rw [List.getElem?_take_of_lt hjk] at hj
  rw [List.take_take, Nat.min_eq_left (by omega)] at hresp
  have hreqserial : req.messageSerial = resp.messageSerial := by
    rw [hresp, Heap.messageSerial_processReq]
  have hreqkind : some req.kind = resp.kind := by
    rw [hresp, Heap.kind_processReq]
  obtain ⟨hc, hsi, -⟩ := session_of_sent h hi
  have hlog : (leaderLog cfg tr).take (leaderLog cfg (tr.take j)).length =
      leaderLog cfg (tr.take j) :=
    (List.prefix_iff_eq_take.mp (prefix_leaderLog_take cfg tr j)).symm
  refine ⟨rfl, hserial, hkind, _, i, j, req, si, sj, lost, leaderLog_getElem? hj hhandled,
    by rw [hlog, hresp], hi, hj, hij, hjk, rfl, hreqserial.trans hserial,
    Option.some.inj (hreqkind.trans hkind), fun n sn kind hin hnk hn => ?_⟩
  -- an advance in between would have changed the serial, which does not come round again
  have hlt := advances_take_lt hin hnk hn
  have hle := advances_take_le c k tr
  have hbound := hfew c hc
  have hcmax := Nat.lt_of_lt_of_le hc cfg.nclients_le
  have hat_i := (accounted_of_trace (h.take hi)).serial c hc
  have hat_k := hsk.serial c hc
  rw [← hsi, hreqserial, hserial, hat_k] at hat_i
  rw [maxClients] at hcmax
  omega

/-- A client retransmits its put and goes on to the next one; the second answer to the first put comes
late and is stale, and then the client accepts the answer to the next one. -/
theorem linearizable_put : ∃ (tr : Steps) (s : State) (k : ℕ) (sk : State) (resp : Response) (p : ℕ)
    (req : Request),
    (machine ⟨3, 1, 0, by decide, by decide⟩ fun _ => .put).Trace tr s ∧
    (leaderLog ⟨3, 1, 0, by decide, by decide⟩ tr).length = 3 ∧
    (tr[7]?.any fun q => (q.1.accepts 0 0).isNone) ∧
    tr[k]? = some (sk, .receive 0 0) ∧ (sk.sessions 0).serial = 4096 ∧
    sk.accepts 0 0 = some resp ∧
    (leaderLog ⟨3, 1, 0, by decide, by decide⟩ tr)[p]? = some (0, req) ∧
    req.messageSerial = 4096 ∧
    resp = ((processLog
      ((leaderLog ⟨3, 1, 0, by decide, by decide⟩ tr).take p)).processReq req).1 := by
  obtain ⟨tr, s, htr, hlength, hstale, hfew, haccepts⟩ := Machine.exists_trace_of_record
    (M := machine ⟨3, 1, 0, by decide, by decide⟩ fun _ => .put)
    [.send 0 0 (.put { serial := 0, key := ['k'], value := ['x'] }) false,
      .send 0 0 (.put { serial := 0, key := ['k'], value := ['x'] }) false,
      .handle 0 0 false, .receive 0 0, .advance 0 .put,
      .send 0 0 (.put { serial := 4096, key := ['k'], value := ['y'] }) false,
      .handle 0 0 false, .receive 0 0, .handle 0 0 false, .receive 0 0]
    (P := fun tr _ => (leaderLog ⟨3, 1, 0, by decide, by decide⟩ tr).length = 3 ∧
      (tr[7]?.any fun q => (q.1.accepts 0 0).isNone) ∧ (∀ c, c < 1 → advances c tr < 2 ^ 52) ∧
      tr[9]?.any fun q =>
        match q with
        | (sk, .receive 0 0) => decide ((sk.sessions 0).serial = 4096) && (sk.accepts 0 0).isSome
        | _ => false) (by decide)
  obtain ⟨⟨sk, a⟩, hk, haccepts⟩ := (Option.any_eq_true _ _).mp haccepts
  split at haccepts
  · rename_i heq
    obtain ⟨rfl, rfl⟩ := Prod.mk.inj heq
    obtain ⟨hserial, hsome⟩ := (Bool.and_eq_true _ _).mp haccepts
    obtain ⟨resp, hresp⟩ := Option.isSome_iff_exists.mp hsome
    obtain ⟨-, -, -, p, i, j, req, si, sj, lost, hp, hanswer, -, -, -, -, -, hreq, -⟩ :=
      (linearizable _ _ tr s htr hfew).2 9 0 0 sk resp hk hresp
    rw [of_decide_eq_true hserial] at hreq
    exact ⟨tr, s, 9, sk, resp, p, req, htr, hlength, hstale, hk, of_decide_eq_true hserial, hresp, hp,
      hreq, hanswer⟩
  · cases haccepts

end Service

end Traxos
