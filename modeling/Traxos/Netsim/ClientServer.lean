import Traxos.Netsim.Delivery
import Traxos.Netsim.Registry

/-! # Clients and servers

A program that uses a `network<Req, Resp>`: it asks the registry for ports and channels, sends on
the channels it was given, and receives at ports. `receive_with_channel` pairs a request with the
channel to reply on, which it looks up under the sender's address in the table of the port.

To the wires (`Traxos.Netsim.Delivery`) all this is sending and receiving: the requests of a run,
and likewise its responses, are a run of the simulated network (`requests_of_trace`). What the
registry keeps (`ClientServer.Sound`) then says where a reply goes (`replies_go_back`). -/

namespace Traxos

namespace Netsim

variable {Req Resp : Type}

/-! ## The source -/

/-- How the channels of a registry deliver. -/
def wires : Network Channel Loc where
  source := Channel.source
  destination := Channel.destination
  linkDelay _ := 5
  receiveDelay _ := 1

/-- A `network<Req, Resp>` at work. Requests and responses have timers of their own, so they may
overtake each other more freely than on one clock. -/
structure ClientServer (Req Resp : Type) where
  registry : Registry := {}
  requests : NetState Req Channel Loc := {}
  responses : NetState Resp Channel Loc := {}
  /-- The channels that `find_channel` has returned. -/
  requestChannels : List Channel := []
  /-- The channels to reply on that the program has been given. -/
  responseChannels : List Channel := []

/-- What the program does, or the simulated network. -/
inductive ClientServerAction (Req Resp : Type)
  | port (addr : Str)
  | responsePort (addr : Str)
  | findPort (addr : Str)
  | findResponsePort (addr : Str)
  | findChannel (src dst : Str)
  | findResponseChannel (src dst : Str)
  /-- `send` of a request on a channel that `find_channel` has returned. -/
  | send (c : Channel) (m : Req) (lost : Bool)
  /-- `send` of a response. -/
  | respond (c : Channel) (m : Resp) (lost : Bool)
  /-- A call of `receive_from` of the server port `d`, by itself or for `receive_with_channel`. -/
  | receive (d : Str) (a : CallAction)
  /-- `receive_with_channel` of the server port `d` goes on after its call `r` of `receive_from`. -/
  | pairWithChannel (d : Str) (r : ℕ)
  /-- A call of `receive_from` of the response port `addr`. -/
  | receiveResponse (addr : Str) (a : CallAction)
  | fireRequest (i : ℕ)
  | fireResponse (i : ℕ)
  | tick (n : ℕ)
  deriving DecidableEq, Repr

namespace ClientServer

/-- `receive_with_channel`, when its call `r` of `receive_from` has returned. The channel is `none`
if `end()` is dereferenced. -/
def receiveWithChannel (s : ClientServer Req Resp) (d : Str) (r : ℕ) :
    Option (MessageFrom Req Channel × Option Channel) := do
  let p ← s.registry.findPort d
  let m ← ((s.requests.receivers p.loc).calls r).result
  some (m, (p.channels[m.address]?).map (·.2))

/-- One step. -/
def step (s : ClientServer Req Resp) :
    ClientServerAction Req Resp → Option (ClientServer Req Resp)
  | .port addr => some { s with registry := (s.registry.port addr).2 }
  | .responsePort addr => some { s with registry := (s.registry.responsePort addr).2 }
  | .findPort _ => some s
  | .findResponsePort _ => some s
  | .findChannel src dst =>
    let found := s.registry.findChannel src dst
    some { s with
      registry := found.2
      requestChannels := found.1.toList ++ s.requestChannels }
  | .findResponseChannel src dst =>
    let found := s.registry.findResponseChannel src dst
    some { s with responseChannels := found.toList ++ s.responseChannels }
  | .send c m lost =>
    if c ∈ s.requestChannels then
      (netStep wires s.requests (.send c m lost)).map fun net => { s with requests := net }
    else none
  | .respond c m lost =>
    if c ∈ s.responseChannels then
      (netStep wires s.responses (.send c m lost)).map fun net => { s with responses := net }
    else none
  | .receive d a => do
    let p ← s.registry.findPort d
    let net ← netStep wires s.requests (.call p.loc a)
    some { s with requests := net }
  | .pairWithChannel d r => do
    let received ← s.receiveWithChannel d r
    some { s with responseChannels := received.2.toList ++ s.responseChannels }
  | .receiveResponse addr a => do
    let q ← s.registry.findResponsePort addr
    let net ← netStep wires s.responses (.call q.loc a)
    some { s with responses := net }
  | .fireRequest i =>
    (netStep wires s.requests (.fire i)).map fun net => { s with requests := net }
  | .fireResponse i =>
    (netStep wires s.responses (.fire i)).map fun net => { s with responses := net }
  | .tick n => do
    let requests ← netStep wires s.requests (.tick n)
    let responses ← netStep wires s.responses (.tick n)
    some { s with requests := requests, responses := responses }

end ClientServer

/-- Every run of a program with a `network<Req, Resp>`. -/
def clientServer (Req Resp : Type) :
    Machine (ClientServer Req Resp) (ClientServerAction Req Resp) :=
  { init := {}, step := ClientServer.step }

/-! ## The simulated network -/

/-- What a step is to the network of the requests. -/
def onRequests : ClientServer Req Resp × ClientServerAction Req Resp →
    Option (NetAction Req Channel Loc)
  | (_, .send c m lost) => some (.send c m lost)
  | (s, .receive d a) => (s.registry.findPort d).map fun p => .call p.loc a
  | (_, .fireRequest i) => some (.fire i)
  | (_, .tick n) => some (.tick n)
  | _ => none

/-- What a step is to the network of the responses. -/
def onResponses : ClientServer Req Resp × ClientServerAction Req Resp →
    Option (NetAction Resp Channel Loc)
  | (_, .respond c m lost) => some (.send c m lost)
  | (s, .receiveResponse addr a) => (s.registry.findResponsePort addr).map fun q => .call q.loc a
  | (_, .fireResponse i) => some (.fire i)
  | (_, .tick n) => some (.tick n)
  | _ => none

/-- The steps of the network of the requests. -/
def requestSteps (tr : List (ClientServer Req Resp × ClientServerAction Req Resp)) :
    List (NetState Req Channel Loc × NetAction Req Channel Loc) :=
  tr.filterMap fun p => (onRequests p).map fun b => (p.1.requests, b)

/-- The steps of the network of the responses. -/
def responseSteps (tr : List (ClientServer Req Resp × ClientServerAction Req Resp)) :
    List (NetState Resp Channel Loc × NetAction Resp Channel Loc) :=
  tr.filterMap fun p => (onResponses p).map fun b => (p.1.responses, b)

section

variable {s s' : ClientServer Req Resp} {a : ClientServerAction Req Resp}
  {tr : List (ClientServer Req Resp × ClientServerAction Req Resp)}

namespace ClientServer

/-- The channel `c` and its reply channel are in the table of a port. -/
def Paired (net : Registry) (c reply : Channel) : Prop :=
  ∃ dst src, net.channelPair dst src = some (c, reply)

/-- What a step can do: ask the registry, which grows and hands out channels that are there, or be a
step of one network or of both. -/
inductive Steps (s : ClientServer Req Resp) (a : ClientServerAction Req Resp) :
    ClientServer Req Resp → Prop
  | asks {net : Registry} {requestChannels responseChannels : List Channel}
      (hrequests : onRequests (s, a) = none) (hresponses : onResponses (s, a) = none)
      (hextends : net.Extends s.registry) (hconsistent : s.registry.Consistent → net.Consistent)
      (hgiven : ∀ c ∈ requestChannels, c ∈ s.requestChannels ∨ ∃ reply, Paired net c reply)
      (hreplies : ∀ c ∈ responseChannels, c ∈ s.responseChannels ∨ ∃ c', Paired net c' c) :
      Steps s a { s with
        registry := net
        requestChannels := requestChannels
        responseChannels := responseChannels }
  | request {b : NetAction Req Channel Loc} {net : NetState Req Channel Loc}
      (hrequests : onRequests (s, a) = some b) (hresponses : onResponses (s, a) = none)
      (hnet : netStep wires s.requests b = some net) : Steps s a { s with requests := net }
  | response {b : NetAction Resp Channel Loc} {net : NetState Resp Channel Loc}
      (hrequests : onRequests (s, a) = none) (hresponses : onResponses (s, a) = some b)
      (hnet : netStep wires s.responses b = some net) : Steps s a { s with responses := net }
  | both {b : NetAction Req Channel Loc} {b' : NetAction Resp Channel Loc}
      {net : NetState Req Channel Loc} {net' : NetState Resp Channel Loc}
      (hrequests : onRequests (s, a) = some b) (hresponses : onResponses (s, a) = some b')
      (hnet : netStep wires s.requests b = some net)
      (hnet' : netStep wires s.responses b' = some net') :
      Steps s a { s with requests := net, responses := net' }

theorem paired_of_findResponseChannel {net : Registry} {src dst : Str} {reply : Channel}
    (h : net.findResponseChannel src dst = some reply) : ∃ c, Paired net c reply := by
  obtain ⟨p, hp, ⟨c, reply'⟩, hpair, heq⟩ := by
    simpa only [Registry.findResponseChannel, Option.bind_eq_bind, Option.bind_eq_some_iff] using h
  obtain rfl : reply' = reply := Option.some.inj heq
  exact ⟨c, src, dst, Option.bind_eq_some_iff.mpr ⟨p, hp, hpair⟩⟩

theorem paired_of_receiveWithChannel {d : Str} {r : ℕ} {m : MessageFrom Req Channel}
    {reply : Channel} (h : s.receiveWithChannel d r = some (m, some reply)) :
    ∃ c, Paired s.registry c reply := by
  obtain ⟨p, hp, m', -, heq⟩ := by
    simpa only [receiveWithChannel, Option.bind_eq_bind, Option.bind_eq_some_iff] using h
  obtain ⟨rfl, hreply⟩ := Prod.mk.inj (Option.some.inj heq)
  obtain ⟨⟨c, reply'⟩, hpair, rfl⟩ := Option.map_eq_some_iff.mp hreply
  exact ⟨c, d, m'.address, Option.bind_eq_some_iff.mpr ⟨p, hp, hpair⟩⟩

theorem step_cases (h : s.step a = some s') : s.Steps a s' := by
  cases a with
  | port addr =>
    obtain rfl := Option.some.inj h
    exact .asks rfl rfl (s.registry.extends_port addr) (fun hs => hs.port addr)
      (fun _ hc => .inl hc) fun _ hc => .inl hc
  | responsePort addr =>
    obtain rfl := Option.some.inj h
    exact .asks rfl rfl (s.registry.extends_responsePort addr) (fun hs => hs.responsePort addr)
      (fun _ hc => .inl hc) fun _ hc => .inl hc
  | findPort addr =>
    obtain rfl := Option.some.inj h
    exact .asks rfl rfl (.refl _) id (fun _ hc => .inl hc) fun _ hc => .inl hc
  | findResponsePort addr =>
    obtain rfl := Option.some.inj h
    exact .asks rfl rfl (.refl _) id (fun _ hc => .inl hc) fun _ hc => .inl hc
  | findChannel src dst =>
    obtain rfl := Option.some.inj h
    refine .asks rfl rfl (s.registry.extends_findChannel src dst) (fun hs => hs.findChannel src dst)
      (fun c hc => ?_) fun _ hc => .inl hc
    rcases List.mem_append.mp hc with hc | hc
    · obtain ⟨reply, hreply⟩ := Registry.channelPair_findChannel (Option.mem_toList.mp hc)
      exact Or.inr ⟨reply, dst, src, hreply⟩
    · exact Or.inl hc
  | findResponseChannel src dst =>
    obtain rfl := Option.some.inj h
    refine .asks rfl rfl (.refl _) id (fun _ hc => .inl hc) fun reply hreply => ?_
    rcases List.mem_append.mp hreply with hreply | hreply
    · exact Or.inr (paired_of_findResponseChannel (Option.mem_toList.mp hreply))
    · exact Or.inl hreply
  | send c m lost =>
    rw [step] at h
    split at h
    · obtain ⟨net, hnet, rfl⟩ := Option.map_eq_some_iff.mp h
      exact .request rfl rfl hnet
    · cases h
  | respond c m lost =>
    rw [step] at h
    split at h
    · obtain ⟨net, hnet, rfl⟩ := Option.map_eq_some_iff.mp h
      exact .response rfl rfl hnet
    · cases h
  | receive d a =>
    obtain ⟨p, hp, net, hnet, heq⟩ := by
      simpa only [step, Option.bind_eq_bind, Option.bind_eq_some_iff] using h
    obtain rfl := Option.some.inj heq
    exact .request (by rw [onRequests, hp, Option.map_some]) rfl hnet
  | pairWithChannel d r =>
    obtain ⟨⟨m, found⟩, hreceived, heq⟩ := by
      simpa only [step, Option.bind_eq_bind, Option.bind_eq_some_iff] using h
    obtain rfl := Option.some.inj heq
    refine .asks rfl rfl (.refl _) id (fun _ hc => .inl hc) fun reply hreply => ?_
    rcases List.mem_append.mp hreply with hreply | hreply
    · obtain rfl : found = some reply := Option.mem_toList.mp hreply
      exact Or.inr (paired_of_receiveWithChannel hreceived)
    · exact Or.inl hreply
  | receiveResponse addr a =>
    obtain ⟨q, hq, net, hnet, heq⟩ := by
      simpa only [step, Option.bind_eq_bind, Option.bind_eq_some_iff] using h
    obtain rfl := Option.some.inj heq
    exact .response rfl (by rw [onResponses, hq, Option.map_some]) hnet
  | fireRequest i =>
    obtain ⟨net, hnet, rfl⟩ := Option.map_eq_some_iff.mp h
    exact .request rfl rfl hnet
  | fireResponse i =>
    obtain ⟨net, hnet, rfl⟩ := Option.map_eq_some_iff.mp h
    exact .response rfl rfl hnet
  | tick n =>
    obtain ⟨net, hnet, net', hnet', heq⟩ := by
      simpa only [step, Option.bind_eq_bind, Option.bind_eq_some_iff] using h
    obtain rfl := Option.some.inj heq
    exact .both rfl rfl hnet hnet'

/-- A channel that is sent on was given to the program. -/
theorem mem_of_send {c : Channel} {m : Req} {lost : Bool} (h : s.step (.send c m lost) = some s') :
    c ∈ s.requestChannels := by
  rw [step] at h
  split at h
  · assumption
  · cases h

/-! ### What every run keeps -/

theorem extends_of_step (h : s.step a = some s') : s'.registry.Extends s.registry := by
  cases step_cases h with
  | asks hrequests hresponses hextends hconsistent hgiven hreplies => exact hextends
  | request hrequests hresponses hnet => exact .refl _
  | response hrequests hresponses hnet => exact .refl _
  | both hrequests hresponses hnet hnet' => exact .refl _

theorem Paired.mono {net net' : Registry} {c reply : Channel} (h : Paired net c reply)
    (hextends : net'.Extends net) : Paired net' c reply := by
  obtain ⟨dst, src, hpair⟩ := h
  exact ⟨dst, src, hextends.channelPair hpair⟩

/-- **The invariant of a program with a network**: the registry is consistent, and the channels that
the program was given are in it. -/
structure Sound (s : ClientServer Req Resp) : Prop where
  consistent : s.registry.Consistent
  requestChannels : ∀ c ∈ s.requestChannels, ∃ reply, Paired s.registry c reply
  responseChannels : ∀ reply ∈ s.responseChannels, ∃ c, Paired s.registry c reply

theorem Sound.init : Sound ({} : ClientServer Req Resp) :=
  ⟨.empty, List.forall_mem_nil _, List.forall_mem_nil _⟩

theorem Sound.step (h : s.Sound) (hstep : s.step a = some s') : s'.Sound := by
  cases step_cases hstep with
  | asks hrequests hresponses hextends hconsistent hgiven hreplies =>
    refine ⟨hconsistent h.consistent, fun c hc => ?_, fun c hc => ?_⟩
    · refine (hgiven c hc).elim (fun hold => ?_) id
      obtain ⟨reply, hpaired⟩ := h.requestChannels c hold
      exact ⟨reply, hpaired.mono hextends⟩
    · refine (hreplies c hc).elim (fun hold => ?_) id
      obtain ⟨c', hpaired⟩ := h.responseChannels c hold
      exact ⟨c', hpaired.mono hextends⟩
  | request hrequests hresponses hnet =>
    exact ⟨h.consistent, h.requestChannels, h.responseChannels⟩
  | response hrequests hresponses hnet =>
    exact ⟨h.consistent, h.requestChannels, h.responseChannels⟩
  | both hrequests hresponses hnet hnet' =>
    exact ⟨h.consistent, h.requestChannels, h.responseChannels⟩

end ClientServer

theorem sound_of_trace (h : (clientServer Req Resp).Trace tr s) : s.Sound :=
  h.invariant (I := fun _ s => s.Sound) .init fun _ _ _ _ hs hstep => hs.step hstep

/-- Whatever a step of a run leaves in the registry stays there. -/
theorem extends_of_trace (h : (clientServer Req Resp).Trace tr s)
    {p : ClientServer Req Resp × ClientServerAction Req Resp} (hp : p ∈ tr)
    {s₁ : ClientServer Req Resp} (hstep : p.1.step p.2 = some s₁) :
    s.registry.Extends s₁.registry := by
  refine h.invariant (I := fun tr s => ∀ p ∈ tr, ∀ s₁, p.1.step p.2 = some s₁ →
    s.registry.Extends s₁.registry) ?_ ?_ p hp s₁ hstep
  · intro p hp
    cases hp
  · intro tr s a s' hs hstep p hp s₁ hs₁
    rcases List.mem_append.mp hp with hp | hp
    · exact (ClientServer.extends_of_step hstep).trans (hs p hp s₁ hs₁)
    · obtain rfl := List.mem_singleton.mp hp
      obtain rfl := Option.some.inj (hstep.symm.trans hs₁)
      exact .refl _

theorem extends_of_mem (h : (clientServer Req Resp).Trace tr s)
    {p : ClientServer Req Resp × ClientServerAction Req Resp} (hp : p ∈ tr) :
    s.registry.Extends p.1.registry := by
  obtain ⟨-, s₁, -, hstep⟩ := h.exists_step hp
  exact (extends_of_trace h hp hstep).trans (ClientServer.extends_of_step hstep)

/-- The channels that a program was given to send requests on are in the registry for ever. -/
theorem paired_of_requestChannels (h : (clientServer Req Resp).Trace tr s)
    {p : ClientServer Req Resp × ClientServerAction Req Resp} (hp : p ∈ tr) {c : Channel}
    (hc : c ∈ p.1.requestChannels) : ∃ reply, ClientServer.Paired s.registry c reply := by
  obtain ⟨tr₀, -, htr₀, -⟩ := h.exists_step hp
  obtain ⟨reply, hpaired⟩ := (sound_of_trace htr₀).requestChannels c hc
  exact ⟨reply, hpaired.mono (extends_of_mem h hp)⟩

/-- **The requests of a run are a run of the simulated network.** -/
theorem requests_of_trace (h : (clientServer Req Resp).Trace tr s) :
    (network Req wires).Trace (requestSteps tr) s.requests := by
  refine h.view ClientServer.requests onRequests rfl fun s a s' hstep => ?_
  cases ClientServer.step_cases hstep with
  | asks hrequests hresponses hextends hconsistent hgiven hreplies =>
    rw [hrequests]
    rfl
  | request hrequests hresponses hnet =>
    rw [hrequests]
    exact hnet
  | response hrequests hresponses hnet =>
    rw [hrequests]
    rfl
  | both hrequests hresponses hnet hnet' =>
    rw [hrequests]
    exact hnet

/-- **The responses of a run are a run of the simulated network.** -/
theorem responses_of_trace (h : (clientServer Req Resp).Trace tr s) :
    (network Resp wires).Trace (responseSteps tr) s.responses := by
  refine h.view ClientServer.responses onResponses rfl fun s a s' hstep => ?_
  cases ClientServer.step_cases hstep with
  | asks hrequests hresponses hextends hconsistent hgiven hreplies =>
    rw [hresponses]
    rfl
  | request hrequests hresponses hnet =>
    rw [hresponses]
    rfl
  | response hrequests hresponses hnet =>
    rw [hresponses]
    exact hnet
  | both hrequests hresponses hnet hnet' =>
    rw [hresponses]
    exact hnet'

/-! ## What is received -/

/-- What the network of the requests was sent on a channel is a request of the program, on a channel
that is in the registry. -/
theorem exists_send_of_requestSteps (h : (clientServer Req Resp).Trace tr s) {c : Channel} {m : Req}
    (hm : m ∈ sentOn (requestSteps tr) c) :
    (∃ p ∈ tr, p.2 = .send c m false) ∧ ∃ reply, ClientServer.Paired s.registry c reply := by
  obtain ⟨net, hsend⟩ := exists_send_of_sentOn hm
  obtain ⟨⟨s₀, a⟩, hp, hon⟩ := List.mem_filterMap.mp hsend
  obtain ⟨b, hb, heq⟩ := Option.map_eq_some_iff.mp hon
  obtain rfl : b = .send c m false := congrArg Prod.snd heq
  obtain rfl : a = .send c m false := by
    cases a with
    | send c' m' lost =>
      obtain ⟨rfl, rfl, rfl⟩ := NetAction.send.inj (Option.some.inj hb)
      rfl
    | receive d a =>
      obtain ⟨p, -, hcall⟩ := Option.map_eq_some_iff.mp hb
      cases hcall
    | _ => cases hb
  obtain ⟨-, s₁, -, hstep⟩ := h.exists_step hp
  exact ⟨⟨_, hp, rfl⟩, paired_of_requestChannels h hp (ClientServer.mem_of_send hstep)⟩

/-- **What `receive_with_channel` returns**: a request that was sent to this port, and the reply
channel of the channel it was sent on. -/
theorem channelPair_of_receiveWithChannel (h : (clientServer Req Resp).Trace tr s) {d : Str} {r : ℕ}
    {m : MessageFrom Req Channel} {found : Option Channel}
    (hreceived : s.receiveWithChannel d r = some (m, found)) :
    (∃ p ∈ tr, p.2 = .send m.channel m.message false) ∧
    ∃ reply, found = some reply ∧
      s.registry.channelPair d m.channel.source = some (m.channel, reply) := by
  obtain ⟨p, hp, m', hresult, heq⟩ := by
    simpa only [ClientServer.receiveWithChannel, Option.bind_eq_bind, Option.bind_eq_some_iff]
      using hreceived
  obtain ⟨rfl, hfound⟩ := Prod.mk.inj (Option.some.inj heq)
  have hmem := mem_returned_of_result (requests_of_trace h) hresult
  have hgenuine := genuine_of_returned (requests_of_trace h) hmem
  obtain ⟨hsent, reply, dst, src, hpair⟩ :=
    exists_send_of_requestSteps h (mem_sentOn_of_returned (requests_of_trace h) hmem)
  refine ⟨hsent, reply, ?_⟩
  have hconsistent := (sound_of_trace h).consistent
  obtain ⟨p', hp', hmatches⟩ := hconsistent.matches_of_channelPair hpair
  -- the channel leads to the port that received the request
  have hloc : p'.loc = p.loc := hmatches.destination.symm.trans hgenuine.destination
  obtain rfl : dst = d := hconsistent.ports.loc_inj dst d p' p hp' hp hloc
  obtain rfl : p' = p := Option.some.inj (hp'.symm.trans hp)
  have hsource : m'.channel.source = src := hmatches.source
  have haddress : m'.address = src := hgenuine.address.trans hsource
  rw [hsource]
  refine ⟨?_, hpair⟩
  have hchannels : p'.channels[src]? = some (m'.channel, reply) := by
    rwa [Registry.channelPair, hp', Option.bind_some] at hpair
  rw [← hfound, haddress, hchannels, Option.map_some]

end

/-- **Replies go back to the sender**, in every run. A request that `receive_with_channel` returns
comes with a channel from this port to the response port of its sender; a channel that
`find_channel` has returned is found again for ever, with the same reply channel; and the null
channel means that a port is missing. -/
theorem replies_go_back (tr : List (ClientServer Req Resp × ClientServerAction Req Resp))
    (s : ClientServer Req Resp) (htr : (clientServer Req Resp).Trace tr s) :
    (∀ d r m found, s.receiveWithChannel d r = some (m, found) →
      (∃ p ∈ tr, p.2 = .send m.channel m.message false) ∧
      ∃ reply q, found = some reply ∧ reply.source = d ∧
        s.registry.findResponsePort m.channel.source = some q ∧ reply.destination = q.loc) ∧
    (∀ p ∈ tr, ∀ src dst c, p.2 = .findChannel src dst →
      (p.1.registry.findChannel src dst).1 = some c →
      ∃ reply, (p.1.registry.findChannel src dst).2.channelPair dst src = some (c, reply) ∧
        s.registry.channelPair dst src = some (c, reply) ∧
        s.registry.findChannel src dst = (some c, s.registry) ∧ c.source = src) ∧
    ∀ src dst,
      ((s.registry.findChannel src dst).1 = none ↔ s.registry.findPort dst = none ∨
        s.registry.channelPair dst src = none ∧ s.registry.findResponsePort src = none) ∧
      ((s.registry.findChannel src dst).1 = none →
        (s.registry.findChannel src dst).2 = s.registry) := by
  have hconsistent := (sound_of_trace htr).consistent
  refine ⟨fun d r m found hreceived => ?_, fun p hp src dst c haction hfound => ?_, fun src dst =>
    ⟨s.registry.findChannel_eq_none_iff src dst, Registry.findChannel_of_none⟩⟩
  · obtain ⟨hsent, reply, hfound, hpair⟩ := channelPair_of_receiveWithChannel htr hreceived
    obtain ⟨p, -, hmatches⟩ := hconsistent.matches_of_channelPair hpair
    obtain ⟨q, hq, hloc⟩ := Option.map_eq_some_iff.mp hmatches.replyDestination
    exact ⟨hsent, reply, q, hfound, hmatches.replySource, hq, hloc.symm⟩
  · obtain ⟨reply, hreply⟩ := Registry.channelPair_findChannel hfound
    -- the step leaves behind what `find_channel` registered
    obtain ⟨-, s₁, -, hstep⟩ := htr.exists_step hp
    have hregistry : s₁.registry = (p.1.registry.findChannel src dst).2 := by
      replace hstep : p.1.step p.2 = some s₁ := hstep
      rw [haction] at hstep
      obtain rfl := Option.some.inj hstep
      rfl
    have hpair := (extends_of_trace htr hp hstep).channelPair (hregistry ▸ hreply)
    obtain ⟨p', -, hmatches⟩ := hconsistent.matches_of_channelPair hpair
    exact ⟨reply, hreply, hpair, Registry.findChannel_of_channelPair hpair, hmatches.source⟩

/-- A client asks for a server that is not there yet, then for its channel twice, and the server
receives its request. -/
theorem replies_go_back_one : ∃ (tr : _) (s : ClientServer ℕ ℕ),
    (clientServer ℕ ℕ).Trace tr s ∧
      ∃ m found, s.receiveWithChannel "d".toList 0 = some (m, found) ∧ m.message = 7 ∧
        ∃ reply q, found = some reply ∧ reply.source = "d".toList ∧
          s.registry.findResponsePort m.channel.source = some q ∧ reply.destination = q.loc := by
  let c : Channel := {
    loc := 2
    source := "c".toList
    destination := 1
    destinationAddress := "d".toList }
  obtain ⟨tr, s, htr, hreceived⟩ := Machine.exists_trace_of_record
    (M := clientServer ℕ ℕ)
    [.responsePort "c".toList, .findChannel "c".toList "d".toList, .port "d".toList,
      .findChannel "c".toList "d".toList, .findChannel "c".toList "d".toList, .send c 7 false,
      .tick 5, .fireRequest 0, .receive "d".toList (.start 0), .receive "d".toList (.resume 0)]
    (P := fun _ s => (s.receiveWithChannel "d".toList 0).map (fun p => p.1.message) = some 7)
    (by decide)
  obtain ⟨⟨m, found⟩, hm, hmessage⟩ := Option.map_eq_some_iff.mp hreceived
  obtain ⟨-, hreply⟩ := (replies_go_back tr s htr).1 _ _ m found hm
  exact ⟨tr, s, htr, m, found, hm, hmessage, hreply⟩

end Netsim

end Traxos
