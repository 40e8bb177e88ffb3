import Mathlib.Data.List.Basic
import Traxos.Pancy.Database

/-! # The replicas and the client network

`pt_paxos_replica::run` and the channels between it and the clients of a `client_model`. A client
`c` and a replica `r` are joined by a channel of requests and a channel of replies, both FIFO; a
message is lost when it is sent (the coin flip of `channel::send`) or later. The order in which
messages of different channels reach one port is left open: a receiver takes the oldest message of
any of its channels.

The functions below are the parts of the source that touch the network; who calls them when is for
the machines built on them. -/

namespace Traxos

namespace Service

/-- `max_clients()`. -/
def maxClients : ℕ := 4096

/-- `client_mask()`: these bits of a serial are the client's id. -/
def clientMask : ℕ := maxClients - 1

/-- `serial_step()`. -/
def serialStep : ℕ := 4096

/-- `serial += serial_step()` on a `uint64_t`. -/
def nextSerial (serial : ℕ) : ℕ := (serial + serialStep) % 2 ^ 64

/-- A test setup: `nreplicas` replicas that all take `initialLeader` for the leader, and as many
clients as `set_nclients` admits. -/
structure Config where
  nreplicas : ℕ
  nclients : ℕ
  initialLeader : ℕ
  initialLeader_lt : initialLeader < nreplicas
  nclients_le : nclients ≤ maxClients

/-- A `pt_paxos_replica`. -/
structure Replica where
  index : ℕ
  leaderIndex : ℕ
  db : Pancydb

/-- The replicas and the messages in flight: `requests c r` from client `c` to replica `r` and
`replies c r` back, oldest first. The content of `vv::nonexistent_vv` belongs to the process, not to
a replica. -/
structure Network where
  nonexistentVv : Vv
  replicas : ℕ → Replica
  requests : ℕ → ℕ → List Request
  replies : ℕ → ℕ → List Response

/-- The channels `f` with the content of one replaced. -/
def setChannel {γ : Type} (f : ℕ → ℕ → List γ) (c r : ℕ) (l : List γ) : ℕ → ℕ → List γ :=
  fun c' r' => if c' = c ∧ r' = r then l else f c' r'

@[simp] theorem setChannel_self {γ : Type} (f : ℕ → ℕ → List γ) (c r : ℕ) (l : List γ) :
    setChannel f c r l c r = l := by
  simp [setChannel]

theorem setChannel_of_client_ne {γ : Type} (f : ℕ → ℕ → List γ) {c c' : ℕ} (h : c' ≠ c)
    (r r' : ℕ) (l : List γ) : setChannel f c r l c' r' = f c' r' := by
  simp [setChannel, h]

theorem setChannel_of_replica_ne {γ : Type} (f : ℕ → ℕ → List γ) {r r' : ℕ} (h : r' ≠ r)
    (c c' : ℕ) (l : List γ) : setChannel f c r l c' r' = f c' r' := by
  simp [setChannel, h]

namespace Network

/-- No messages, and every database empty. -/
def init (cfg : Config) : Network where
  nonexistentVv := Vv.nonexistentVv
  replicas := fun r => { index := r, leaderIndex := cfg.initialLeader, db := Pancydb.empty }
  requests := fun _ _ => []
  replies := fun _ _ => []

/-- The database of a replica, with the content of `vv::nonexistent_vv`. -/
def heap (w : Network) (r : ℕ) : Heap :=
  { nonexistentVv := w.nonexistentVv, self := (w.replicas r).db }

/-- Write a replica's database back. -/
def setHeap (w : Network) (r : ℕ) (h : Heap) : Network :=
  { w with
    nonexistentVv := h.nonexistentVv
    replicas := Function.update w.replicas r { w.replicas r with db := h.self } }

/-- `send_request`: the serial says which client's channels to use. -/
def sendRequest (w : Network) (replicaid : ℕ) (req : Request) (lost : Bool) : Network :=
  let cid := req.messageSerial &&& clientMask
  if lost then w
  else
    { w with
      requests := setChannel w.requests cid replicaid (w.requests cid replicaid ++ [req]) }

/-- `reply_chan->send`. -/
def sendReply (w : Network) (r c : ℕ) (resp : Response) (lost : Bool) : Network :=
  if lost then w
  else { w with replies := setChannel w.replies c r (w.replies c r ++ [resp]) }

/-- `pt_paxos_replica::run`: one turn of the loop of replica `r`, on the oldest request from client
`c`. -/
def run (w : Network) (r c : ℕ) (lost : Bool) : Option Network :=
  match w.requests c r with
  | [] => none
  | req :: rest =>
    let w := { w with requests := setChannel w.requests c r rest }
    let replica := w.replicas r
    -- if not leader, redirect
    if replica.index ≠ replica.leaderIndex then
      some (w.sendReply r c
        (.redirection { toResponseBase := responseHeader req.base .redirect
                        redirection := replica.leaderIndex }) lost)
    else
      -- if leader, process message and send response
      let (resp, h) := (w.heap r).processReq req
      some ((w.setHeap r h).sendReply r c resp lost)

/-- `response_port->receive`: client `c` takes the oldest reply of replica `r`. -/
def takeReply (w : Network) (c r : ℕ) : Option (Response × Network) :=
  match w.replies c r with
  | [] => none
  | msg :: rest => some (msg, { w with replies := setChannel w.replies c r rest })

/-- The network loses a request in flight. -/
def dropRequest (w : Network) (c r i : ℕ) : Network :=
  { w with requests := setChannel w.requests c r ((w.requests c r).eraseIdx i) }

/-- The network loses a reply in flight. -/
def dropReply (w : Network) (c r i : ℕ) : Network :=
  { w with replies := setChannel w.replies c r ((w.replies c r).eraseIdx i) }

end Network

/-- What `receive_response` makes of a message. -/
inductive Received
  /-- A stale response from an earlier request: dropped, keep waiting. -/
  | stale
  /-- `std::nullopt`, with `replicaid` changed. -/
  | redirected (replicaid : ℕ)
  /-- The response. -/
  | accepted (resp : Response)
  /-- `std::nullopt`: unexpected response type for this serial. -/
  | unexpected
  deriving DecidableEq, Repr

/-- `receive_response` returns `std::nullopt`. -/
def Received.isNullopt : Received → Bool
  | .redirected _ => true
  | .unexpected => true
  | _ => false

/-- `receive_response`: one turn of its loop, for a response of type `kind` to request `serial`. -/
def receiveResponse (kind : Kind) (serial : ℕ) (msg : Response) : Received :=
  if msg.messageSerial ≠ serial then .stale
  else
    match msg with
    | .redirection rp => .redirected rp.redirection
    | _ => if msg.kind = some kind then .accepted msg else .unexpected

/-- What is observed of a run of the service: the transmissions that get through, and the requests that
replicas handle. -/
inductive Occurrence
  | sent (c r : ℕ) (req : Request)
  | handled (r : ℕ) (req : Request)
  deriving DecidableEq

/-! ## What the network functions do -/

/-- The low bits of a serial are unchanged by a step. -/
theorem nextSerial_and_clientMask (serial : ℕ) :
    nextSerial serial &&& clientMask = serial &&& clientMask := by
  have hmask : ∀ n, n &&& clientMask = n % 4096 := fun n => Nat.and_two_pow_sub_one_eq_mod n 12
  rw [hmask, hmask, nextSerial, serialStep]
  omega

/-- A client's id is its own low bits. -/
theorem and_clientMask_of_lt {c : ℕ} (h : c < maxClients) : c &&& clientMask = c := by
  have hmask : c &&& clientMask = c % 4096 := Nat.and_two_pow_sub_one_eq_mod c 12
  rw [hmask]
  exact Nat.mod_eq_of_lt h

/-- A step changes the serial. -/
theorem nextSerial_ne (serial : ℕ) : nextSerial serial ≠ serial := by
  rw [nextSerial, serialStep]
  omega

/-- What `receive_response` returns is a response of the awaited type with the awaited serial. -/
theorem receiveResponse_eq_accepted {kind : Kind} {serial : ℕ} {msg resp : Response}
    (h : receiveResponse kind serial msg = .accepted resp) :
    resp = msg ∧ msg.messageSerial = serial ∧ msg.kind = some kind := by
  unfold receiveResponse at h
  by_cases hserial : msg.messageSerial = serial
  · rw [if_neg (not_not_intro hserial)] at h
    by_cases hkind : msg.kind = some kind
    · cases msg <;> simp_all [Response.kind]
    · cases msg <;> simp_all
  · rw [if_pos hserial] at h
    cases h

section Network

variable {w w' : Network} {c c' r r' : ℕ} {lost : Bool}

/-- Cutting one of the channels to a part of what it held leaves every channel a part of what it
held. -/
theorem sublist_setChannel {γ : Type} {f : ℕ → ℕ → List γ} {l : List γ} (hl : l.Sublist (f c r))
    (c' r' : ℕ) : (setChannel f c r l c' r').Sublist (f c' r') := by
  unfold setChannel
  split
  · rename_i h
    obtain ⟨rfl, rfl⟩ := h
    exact hl
  · exact List.Sublist.refl _

/-- What a channel holds after one of the channels was cut to a part of what it held. -/
theorem mem_setChannel_of_sublist {γ : Type} {f : ℕ → ℕ → List γ} {l : List γ}
    (hl : l.Sublist (f c r)) {x : γ} (hx : x ∈ setChannel f c r l c' r') : x ∈ f c' r' :=
  (sublist_setChannel hl c' r').mem hx

/-- What a channel holds after a message was added to one of the channels. -/
theorem mem_setChannel_append {γ : Type} {f : ℕ → ℕ → List γ} {x y : γ}
    (hx : x ∈ setChannel f c r (f c r ++ [y]) c' r') :
    x ∈ f c' r' ∨ c' = c ∧ r' = r ∧ x = y := by
  unfold setChannel at hx
  split at hx
  · rename_i h
    obtain ⟨rfl, rfl⟩ := h
    rcases List.mem_append.mp hx with hx | hx
    · exact Or.inl hx
    · exact Or.inr ⟨rfl, rfl, List.mem_singleton.mp hx⟩
  · exact Or.inl hx

namespace Network

@[simp] theorem heap_setHeap (w : Network) (r : ℕ) (h : Heap) : (w.setHeap r h).heap r = h := by
  simp [heap, setHeap]

@[simp] theorem requests_setHeap (w : Network) (r : ℕ) (h : Heap) :
    (w.setHeap r h).requests = w.requests := rfl

@[simp] theorem replies_setHeap (w : Network) (r : ℕ) (h : Heap) :
    (w.setHeap r h).replies = w.replies := rfl

@[simp] theorem index_setHeap (w : Network) (r r' : ℕ) (h : Heap) :
    ((w.setHeap r h).replicas r').index = (w.replicas r').index := by
  by_cases hr : r' = r
  · subst hr
    simp [setHeap]
  · simp [setHeap, Function.update_of_ne hr]

@[simp] theorem leaderIndex_setHeap (w : Network) (r r' : ℕ) (h : Heap) :
    ((w.setHeap r h).replicas r').leaderIndex = (w.replicas r').leaderIndex := by
  by_cases hr : r' = r
  · subst hr
    simp [setHeap]
  · simp [setHeap, Function.update_of_ne hr]

@[simp] theorem replicas_sendRequest (w : Network) (r : ℕ) (req : Request) (lost : Bool) :
    (w.sendRequest r req lost).replicas = w.replicas := by
  cases lost <;> rfl

@[simp] theorem heap_sendRequest (w : Network) (r r' : ℕ) (req : Request) (lost : Bool) :
    (w.sendRequest r req lost).heap r' = w.heap r' := by
  cases lost <;> rfl

@[simp] theorem replies_sendRequest (w : Network) (r : ℕ) (req : Request) (lost : Bool) :
    (w.sendRequest r req lost).replies = w.replies := by
  cases lost <;> rfl

@[simp] theorem replicas_sendReply (w : Network) (r c : ℕ) (resp : Response) (lost : Bool) :
    (w.sendReply r c resp lost).replicas = w.replicas := by
  cases lost <;> rfl

@[simp] theorem heap_sendReply (w : Network) (r r' c : ℕ) (resp : Response) (lost : Bool) :
    (w.sendReply r c resp lost).heap r' = w.heap r' := by
  cases lost <;> rfl

@[simp] theorem requests_sendReply (w : Network) (r c : ℕ) (resp : Response) (lost : Bool) :
    (w.sendReply r c resp lost).requests = w.requests := by
  cases lost <;> rfl

/-- A request in flight was in flight before, or is the one just sent. -/
theorem mem_requests_sendRequest {req x : Request}
    (hx : x ∈ (w.sendRequest r req lost).requests c' r') :
    x ∈ w.requests c' r' ∨
      lost = false ∧ c' = req.messageSerial &&& clientMask ∧ r' = r ∧ x = req := by
  cases lost with
  | true => exact Or.inl hx
  | false => exact (mem_setChannel_append hx).imp_right fun h => ⟨rfl, h⟩

/-- A reply in flight was in flight before, or is the one just sent. -/
theorem mem_replies_sendReply {resp x : Response}
    (hx : x ∈ (w.sendReply r c resp lost).replies c' r') :
    x ∈ w.replies c' r' ∨ lost = false ∧ c' = c ∧ r' = r ∧ x = resp := by
  cases lost with
  | true => exact Or.inl hx
  | false => exact (mem_setChannel_append hx).imp_right fun h => ⟨rfl, h⟩

/-- What a turn of a replica does: a replica that does not take itself for the leader redirects, one
that does processes the request and answers it. -/
inductive RunResult (w : Network) (r c : ℕ) (lost : Bool) : Network → Prop
  | redirect {req : Request} {rest : List Request} (hreq : w.requests c r = req :: rest)
      (hindex : (w.replicas r).index ≠ (w.replicas r).leaderIndex) :
      RunResult w r c lost (({ w with requests := setChannel w.requests c r rest }).sendReply r c
        (.redirection { toResponseBase := responseHeader req.base .redirect
                        redirection := (w.replicas r).leaderIndex }) lost)
  | answer {req : Request} {rest : List Request} (hreq : w.requests c r = req :: rest)
      (hindex : (w.replicas r).index = (w.replicas r).leaderIndex) :
      RunResult w r c lost ((({ w with requests := setChannel w.requests c r rest }).setHeap r
        ((w.heap r).processReq req).2).sendReply r c ((w.heap r).processReq req).1 lost)

theorem runResult_of_run (h : w.run r c lost = some w') : RunResult w r c lost w' := by
  unfold run at h
  cases hreq : w.requests c r with
  | nil =>
    rw [hreq] at h
    cases h
  | cons req rest =>
    rw [hreq] at h
    by_cases hindex : (w.replicas r).index = (w.replicas r).leaderIndex
    · obtain rfl := Option.some.inj ((if_neg (not_not_intro hindex)).symm.trans h)
      exact .answer hreq hindex
    · obtain rfl := Option.some.inj ((if_pos hindex).symm.trans h)
      exact .redirect hreq hindex

/-- Taking a reply removes the oldest one. -/
theorem takeReply_eq_some {msg : Response} (h : w.takeReply c r = some (msg, w')) :
    ∃ rest, w.replies c r = msg :: rest ∧
      w' = { w with replies := setChannel w.replies c r rest } := by
  unfold takeReply at h
  cases hreply : w.replies c r with
  | nil =>
    rw [hreply] at h
    cases h
  | cons msg' rest =>
    rw [hreply] at h
    obtain ⟨rfl, rfl⟩ := Prod.mk.inj (Option.some.inj h)
    exact ⟨rest, rfl, rfl⟩

end Network

end Network

end Service

end Traxos
