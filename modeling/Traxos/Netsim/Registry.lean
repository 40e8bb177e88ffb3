import Traxos.Core.OrderedWalk
import Traxos.Pancy.Messages

/-! # The registry of a network

`network<Req, Resp>` hands out server ports, response ports and channels, creating what is not there
yet. A channel from a client to a server port is created together with its reply channel, which
leads to the client's response port; both are kept in the table of the server port under the address
of the client.

Entries of a `std::map` stay where they are, so a pointer is a `Loc` that an object gets when it is
created. Whatever is asked of a registry extends it (`Registry.Extends`) and keeps it consistent
(`Registry.Consistent`). -/

namespace Traxos

namespace Netsim

/-! ## The source -/

/-- A place in memory. -/
abbrev Loc : Type := ℕ

/-- `channel<T>`, as it is constructed. -/
structure Channel where
  loc : Loc
  /-- `source_address_`. -/
  source : Str
  /-- `destination_`, the receiver of a port. -/
  destination : Loc
  destinationAddress : Str
  deriving DecidableEq, Repr

/-- `port<Req, Resp>`. The channels are paired with their reply channels. -/
structure ServerPort where
  loc : Loc
  address : Str
  channels : Std.ExtTreeMap Str (Channel × Channel) := ∅

/-- The port `p'` is `p` with the channels of `p`, and maybe more. -/
structure ServerPort.Extends (p' p : ServerPort) : Prop where
  loc : p'.loc = p.loc
  channels : ∀ (src : Str) (pair : Channel × Channel), p.channels[src]? = some pair →
    p'.channels[src]? = some pair

/-- `port<Resp>`. -/
structure ResponsePort where
  loc : Loc
  address : Str
  deriving DecidableEq, Repr

/-- `network<Req, Resp>` with its `response_network_`. -/
structure Registry where
  ports : Std.ExtTreeMap Str ServerPort := ∅
  /-- `response_network_.ports_`. -/
  responsePorts : Std.ExtTreeMap Str ResponsePort := ∅
  /-- The objects created so far. -/
  allocated : ℕ := 0

namespace Registry

/-- `port`: register or find a server port. -/
def port (net : Registry) (addr : Str) : Loc × Registry :=
  match net.ports[addr]? with
  | some p => (p.loc, net)
  | none =>
    (net.allocated, { net with
      ports := net.ports.insert addr { loc := net.allocated, address := addr }
      allocated := net.allocated + 1 })

/-- `response_port`: register or find a response port. -/
def responsePort (net : Registry) (addr : Str) : Loc × Registry :=
  match net.responsePorts[addr]? with
  | some p => (p.loc, net)
  | none =>
    (net.allocated, { net with
      responsePorts := net.responsePorts.insert addr { loc := net.allocated, address := addr }
      allocated := net.allocated + 1 })

/-- `find_port`. -/
def findPort (net : Registry) (addr : Str) : Option ServerPort := net.ports[addr]?

/-- `find_response_port`. -/
def findResponsePort (net : Registry) (addr : Str) : Option ResponsePort :=
  net.responsePorts[addr]?

/-- `find_response_channel`. -/
def findResponseChannel (net : Registry) (src dst : Str) : Option Channel := do
  let server ← net.findPort src
  let pair ← server.channels[dst]?
  some pair.2

/-- `req_chan`. -/
def reqChan (net : Registry) (src : Str) (dest : ServerPort) : Channel :=
  { loc := net.allocated
    source := src
    destination := dest.loc
    destinationAddress := dest.address }

/-- `resp_chan`. -/
def respChan (net : Registry) (src dst : Str) (srcResp : ResponsePort) : Channel :=
  { loc := net.allocated + 1
    source := dst
    destination := srcResp.loc
    destinationAddress := src }

/-- `find_channel`, `none` for a null pointer. -/
def findChannel (net : Registry) (src dst : Str) : Option Channel × Registry :=
  match net.findPort dst with
  | none => (none, net)
  | some dest =>
    match dest.channels[src]? with
    | some pair => (some pair.1, net)
    | none =>
      -- the source's response port, for the matching reply channel
      match net.findResponsePort src with
      | none => (none, net)
      | some srcResp =>
        let pair := (net.reqChan src dest, net.respChan src dst srcResp)
        (some pair.1, { net with
          ports := net.ports.insert dst { dest with channels := dest.channels.insert src pair }
          allocated := net.allocated + 2 })

/-! ## What is registered -/

/-- The channel from `src` to the server port `dst` and its reply channel. -/
def channelPair (net : Registry) (dst src : Str) : Option (Channel × Channel) :=
  (net.ports[dst]?).bind fun p => p.channels[src]?

/-- Objects are registered under their own addresses, each at a place of its own below `bound`. -/
structure Addressed {π : Type} (loc : π → Loc) (address : π → Str) (bound : Loc)
    (ports : Std.ExtTreeMap Str π) : Prop where
  address_eq : ∀ (a : Str) (p : π), ports[a]? = some p → address p = a
  loc_lt : ∀ (a : Str) (p : π), ports[a]? = some p → loc p < bound
  loc_inj : ∀ (a a' : Str) (p p' : π), ports[a]? = some p → ports[a']? = some p' →
    loc p = loc p' → a = a'

/-- The channel `c` leads from `src` to the server port `p` at `dst`, and `reply` back to the
response port of `src`. -/
structure Matches (net : Registry) (dst src : Str) (p : ServerPort) (c reply : Channel) : Prop where
  source : c.source = src
  destination : c.destination = p.loc
  destinationAddress : c.destinationAddress = dst
  replySource : reply.source = dst
  replyDestination : (net.responsePorts[src]?).map ResponsePort.loc = some reply.destination
  replyDestinationAddress : reply.destinationAddress = src

/-- **The registry invariant**: ports are registered under their addresses, and the channels in
their tables lead from and to the ports that they are registered for. -/
structure Consistent (net : Registry) : Prop where
  ports : Addressed ServerPort.loc ServerPort.address net.allocated net.ports
  responsePorts : Addressed ResponsePort.loc ResponsePort.address net.allocated net.responsePorts
  pair : ∀ (d src : Str) (p : ServerPort) (c reply : Channel), net.ports[d]? = some p →
    p.channels[src]? = some (c, reply) → net.Matches d src p c reply

/-- Ports and channels of `net` are still there in `net'`. -/
structure Extends (net' net : Registry) : Prop where
  port : ∀ (d : Str) (p : ServerPort), net.ports[d]? = some p →
    ∃ p' : ServerPort, net'.ports[d]? = some p' ∧ p'.Extends p
  responsePort : ∀ (a : Str) (q : ResponsePort), net.responsePorts[a]? = some q →
    net'.responsePorts[a]? = some q

/-! ## What every operation keeps -/

variable {net net' net'' : Registry} {src dst : Str}

theorem getElem?_insert_eq_some {π : Type} {ports : Std.ExtTreeMap Str π} {k a : Str} {p q : π} :
    (ports.insert k p)[a]? = some q ↔ a = k ∧ q = p ∨ a ≠ k ∧ ports[a]? = some q := by
  rw [getElem?_insert_ite]
  by_cases h : a = k
  · simp [h, @eq_comm _ p]
  · simp [h]

namespace Addressed

variable {π : Type} {loc : π → Loc} {address : π → Str} {bound bound' : Loc}
  {ports : Std.ExtTreeMap Str π} {a : Str} {p : π}

theorem empty (loc : π → Loc) (address : π → Str) (bound : Loc) :
    Addressed loc address bound ∅ where
  address_eq a p h := by cases Std.ExtTreeMap.getElem?_empty.symm.trans h
  loc_lt a p h := by cases Std.ExtTreeMap.getElem?_empty.symm.trans h
  loc_inj a a' p p' h := by cases Std.ExtTreeMap.getElem?_empty.symm.trans h

theorem mono (h : Addressed loc address bound ports) (hle : bound ≤ bound') :
    Addressed loc address bound' ports :=
  ⟨h.address_eq, fun a p hp => Nat.lt_of_lt_of_le (h.loc_lt a p hp) hle, h.loc_inj⟩

/-- An object may be registered anew when no other one is at its place. -/
theorem insert (h : Addressed loc address bound ports) (haddress : address p = a)
    (hlt : loc p < bound) (hfree : ∀ a' q, ports[a']? = some q → loc q = loc p → a' = a) :
    Addressed loc address bound (ports.insert a p) := by
  refine ⟨fun a' q hq => ?_, fun a' q hq => ?_, fun a₁ a₂ q₁ q₂ h₁ h₂ hloc => ?_⟩
  · rcases getElem?_insert_eq_some.mp hq with ⟨rfl, rfl⟩ | ⟨-, hq⟩
    · exact haddress
    · exact h.address_eq a' q hq
  · rcases getElem?_insert_eq_some.mp hq with ⟨rfl, rfl⟩ | ⟨-, hq⟩
    · exact hlt
    · exact h.loc_lt a' q hq
  · rcases getElem?_insert_eq_some.mp h₁ with ⟨rfl, rfl⟩ | ⟨-, hold₁⟩ <;>
      rcases getElem?_insert_eq_some.mp h₂ with ⟨rfl, rfl⟩ | ⟨-, hold₂⟩
    · rfl
    · exact (hfree a₂ q₂ hold₂ hloc.symm).symm
    · exact hfree a₁ q₁ hold₁ hloc
    · exact h.loc_inj a₁ a₂ q₁ q₂ hold₁ hold₂ hloc

end Addressed

namespace Extends

theorem refl (net : Registry) : net.Extends net :=
  ⟨fun _ p hp => ⟨p, hp, rfl, fun _ _ h => h⟩, fun _ _ h => h⟩

theorem trans (h' : net''.Extends net') (h : net'.Extends net) : net''.Extends net := by
  refine ⟨fun d p hp => ?_, fun a q hq => h'.responsePort a q (h.responsePort a q hq)⟩
  obtain ⟨p', hp', hloc, hchannels⟩ := h.port d p hp
  obtain ⟨p'', hp'', hloc', hchannels'⟩ := h'.port d p' hp'
  exact ⟨p'', hp'', hloc'.trans hloc, fun src pair hpair => hchannels' src pair
    (hchannels src pair hpair)⟩

theorem channelPair (h : net'.Extends net) {pair : Channel × Channel}
    (hpair : net.channelPair dst src = some pair) : net'.channelPair dst src = some pair := by
  obtain ⟨p, hp, hpair⟩ := Option.bind_eq_some_iff.mp hpair
  obtain ⟨p', hp', -, hchannels⟩ := h.port dst p hp
  exact Option.bind_eq_some_iff.mpr ⟨p', hp', hchannels src pair hpair⟩

end Extends

/-- Channels still match when more is registered. -/
theorem Matches.mono {p : ServerPort} {c reply : Channel} (h : net.Matches dst src p c reply)
    (hnet : net'.Extends net) : net'.Matches dst src p c reply := by
  obtain ⟨q, hq, hloc⟩ := Option.map_eq_some_iff.mp h.replyDestination
  exact { h with
    replyDestination := Option.map_eq_some_iff.mpr ⟨q, hnet.responsePort src q hq, hloc⟩ }

theorem Consistent.empty : Consistent {} where
  ports := .empty _ _ _
  responsePorts := .empty _ _ _
  pair d src p c reply hp := by cases Std.ExtTreeMap.getElem?_empty.symm.trans hp

/-! ### `port` -/

theorem extends_port (net : Registry) (addr : Str) : (net.port addr).2.Extends net := by
  rw [port]
  split
  · exact .refl net
  · rename_i hnone
    refine ⟨fun d p hp => ⟨p, getElem?_insert_eq_some.mpr (.inr ⟨?_, hp⟩), rfl, fun _ _ h => h⟩,
      fun _ _ h => h⟩
    rintro rfl
    cases hnone.symm.trans hp

theorem Consistent.port (h : net.Consistent) (addr : Str) : (net.port addr).2.Consistent := by
  have hextends := net.extends_port addr
  cases hport : net.ports[addr]? with
  | some p =>
    rw [Registry.port, hport]
    exact h
  | none =>
    rw [Registry.port, hport] at hextends ⊢
    refine ⟨?_, h.responsePorts.mono (Nat.le_succ _), ?_⟩
    · refine (h.ports.mono (Nat.le_succ _)).insert rfl (Nat.lt_succ_self _) fun a q hq hloc => ?_
      -- no port is where the new one is created
      exact absurd hloc (Nat.ne_of_lt (h.ports.loc_lt a q hq))
    · intro d src p c reply hp hpair
      rcases getElem?_insert_eq_some.mp hp with ⟨rfl, rfl⟩ | ⟨-, hp⟩
      · cases Std.ExtTreeMap.getElem?_empty.symm.trans hpair
      · exact (h.pair d src p c reply hp hpair).mono hextends

/-! ### `response_port` -/

theorem extends_responsePort (net : Registry) (addr : Str) :
    (net.responsePort addr).2.Extends net := by
  rw [responsePort]
  split
  · exact .refl net
  · rename_i hnone
    refine ⟨fun d p hp => ⟨p, hp, rfl, fun _ _ h => h⟩,
      fun a q hq => getElem?_insert_eq_some.mpr (.inr ⟨?_, hq⟩)⟩
    rintro rfl
    cases hnone.symm.trans hq

theorem Consistent.responsePort (h : net.Consistent) (addr : Str) :
    (net.responsePort addr).2.Consistent := by
  have hextends := net.extends_responsePort addr
  cases hport : net.responsePorts[addr]? with
  | some p =>
    rw [Registry.responsePort, hport]
    exact h
  | none =>
    rw [Registry.responsePort, hport] at hextends ⊢
    refine ⟨h.ports.mono (Nat.le_succ _), ?_, fun d src p c reply hp hpair =>
      (h.pair d src p c reply hp hpair).mono hextends⟩
    refine (h.responsePorts.mono (Nat.le_succ _)).insert rfl (Nat.lt_succ_self _)
      fun a q hq hloc => ?_
    exact absurd hloc (Nat.ne_of_lt (h.responsePorts.loc_lt a q hq))

/-! ### `find_channel` -/

/-- **What `find_channel` does**: it finds the channel, or finds no port to connect, or connects two
ports that are there. -/
theorem findChannel_cases (net : Registry) (src dst : Str) :
    (∃ pair, net.channelPair dst src = some pair ∧
      net.findChannel src dst = (some pair.1, net)) ∨
    ((net.findPort dst = none ∨
        net.channelPair dst src = none ∧ net.findResponsePort src = none) ∧
      net.findChannel src dst = (none, net)) ∨
    ∃ dest srcResp, net.ports[dst]? = some dest ∧ dest.channels[src]? = none ∧
      net.responsePorts[src]? = some srcResp ∧
      net.findChannel src dst = (some (net.reqChan src dest), { net with
        ports := net.ports.insert dst { dest with
          channels := dest.channels.insert src
            (net.reqChan src dest, net.respChan src dst srcResp) }
        allocated := net.allocated + 2 }) := by
  cases hdest : net.ports[dst]? with
  | none =>
    refine Or.inr (Or.inl ⟨Or.inl hdest, ?_⟩)
    simp only [findChannel, findPort, hdest]
  | some dest =>
    have hchannelPair : net.channelPair dst src = dest.channels[src]? := by
      rw [channelPair, hdest, Option.bind_some]
    cases hpair : dest.channels[src]? with
    | some pair =>
      refine Or.inl ⟨pair, hchannelPair.trans hpair, ?_⟩
      simp only [findChannel, findPort, hdest, hpair]
    | none =>
      cases hsrcResp : net.responsePorts[src]? with
      | none =>
        refine Or.inr (Or.inl ⟨Or.inr ⟨hchannelPair.trans hpair, hsrcResp⟩, ?_⟩)
        simp only [findChannel, findPort, findResponsePort, hdest, hpair, hsrcResp]
      | some srcResp =>
        refine Or.inr (Or.inr ⟨dest, srcResp, rfl, hpair, rfl, ?_⟩)
        simp only [findChannel, findPort, findResponsePort, hdest, hpair, hsrcResp]

theorem extends_findChannel (net : Registry) (src dst : Str) :
    (net.findChannel src dst).2.Extends net := by
  obtain ⟨pair, -, heq⟩ | ⟨-, heq⟩ | ⟨dest, srcResp, hdest, hpair, -, heq⟩ :=
    net.findChannel_cases src dst
  · rw [heq]
    exact .refl net
  · rw [heq]
    exact .refl net
  · rw [heq]
    refine ⟨fun d p hp => ?_, fun _ _ h => h⟩
    by_cases hd : d = dst
    · -- the table of the destination gets an entry that it did not have
      subst hd
      obtain rfl : dest = p := Option.some.inj (hdest.symm.trans hp)
      refine ⟨_, getElem?_insert_eq_some.mpr (.inl ⟨rfl, rfl⟩), rfl, fun src' pair' hpair' => ?_⟩
      refine getElem?_insert_eq_some.mpr (.inr ⟨?_, hpair'⟩)
      rintro rfl
      cases hpair.symm.trans hpair'
    · exact ⟨p, getElem?_insert_eq_some.mpr (.inr ⟨hd, hp⟩), rfl, fun _ _ h => h⟩

theorem Consistent.findChannel (h : net.Consistent) (src dst : Str) :
    (net.findChannel src dst).2.Consistent := by
  have hextends := net.extends_findChannel src dst
  obtain ⟨pair, -, heq⟩ | ⟨-, heq⟩ | ⟨dest, srcResp, hdest, hpair, hsrcResp, heq⟩ :=
    net.findChannel_cases src dst
  · rw [heq]
    exact h
  · rw [heq]
    exact h
  · rw [heq] at hextends ⊢
    refine ⟨?_, h.responsePorts.mono (Nat.le_add_right _ _), fun d src' p c reply hp hc => ?_⟩
    · -- the destination stays where it is
      refine (h.ports.mono (Nat.le_add_right _ _)).insert (h.ports.address_eq dst dest hdest)
        (Nat.lt_add_right _ (h.ports.loc_lt dst dest hdest)) fun a q hq hloc => ?_
      exact h.ports.loc_inj a dst q dest hq hdest hloc
    · rcases getElem?_insert_eq_some.mp hp with ⟨rfl, rfl⟩ | ⟨-, hp⟩
      · rcases getElem?_insert_eq_some.mp hc with ⟨rfl, hnew⟩ | ⟨-, hold⟩
        · obtain ⟨rfl, rfl⟩ := Prod.mk.inj hnew
          exact ⟨rfl, rfl, h.ports.address_eq d dest hdest, rfl,
            congrArg (Option.map ResponsePort.loc) hsrcResp, rfl⟩
        · exact { (h.pair d src' dest c reply hdest hold).mono hextends with }
      · exact (h.pair d src' p c reply hp hc).mono hextends

/-- **A null channel**: the server port is not there, or the response port is not and there is no
channel yet. -/
theorem findChannel_eq_none_iff (net : Registry) (src dst : Str) :
    (net.findChannel src dst).1 = none ↔ net.findPort dst = none ∨
      net.channelPair dst src = none ∧ net.findResponsePort src = none := by
  obtain ⟨pair, hpair, heq⟩ | ⟨hnone, heq⟩ | ⟨dest, srcResp, hdest, -, hsrcResp, heq⟩ :=
    net.findChannel_cases src dst
  · obtain ⟨dest, hdest, -⟩ := Option.bind_eq_some_iff.mp hpair
    simp [heq, hpair, findPort, hdest]
  · simp [heq, hnone]
  · simp [heq, findPort, findResponsePort, hdest, hsrcResp]

theorem findChannel_of_none (h : (net.findChannel src dst).1 = none) :
    (net.findChannel src dst).2 = net := by
  obtain ⟨pair, -, heq⟩ | ⟨-, heq⟩ | ⟨dest, srcResp, -, -, -, heq⟩ :=
    net.findChannel_cases src dst
  · rw [heq]
  · rw [heq]
  · rw [heq] at h
    cases h

/-- A channel that is there is found and nothing is created. -/
theorem findChannel_of_channelPair {pair : Channel × Channel}
    (h : net.channelPair dst src = some pair) :
    net.findChannel src dst = (some pair.1, net) := by
  obtain ⟨p, hp, hpair⟩ := Option.bind_eq_some_iff.mp h
  simp only [Registry.findChannel, findPort, hp, hpair]

/-- A channel that was found is there, with a reply channel. -/
theorem channelPair_findChannel {c : Channel} (h : (net.findChannel src dst).1 = some c) :
    ∃ reply, (net.findChannel src dst).2.channelPair dst src = some (c, reply) := by
  obtain ⟨pair, hpair, heq⟩ | ⟨-, heq⟩ | ⟨dest, srcResp, -, -, -, heq⟩ :=
    net.findChannel_cases src dst
  · rw [heq] at h ⊢
    obtain rfl := Option.some.inj h
    exact ⟨pair.2, hpair⟩
  · rw [heq] at h
    cases h
  · rw [heq] at h ⊢
    obtain rfl := Option.some.inj h
    refine ⟨net.respChan src dst srcResp, Option.bind_eq_some_iff.mpr ⟨_,
      getElem?_insert_eq_some.mpr (.inl ⟨rfl, rfl⟩), getElem?_insert_eq_some.mpr (.inl ⟨rfl, rfl⟩)⟩⟩

/-- Channels in the tables match their reply channels. -/
theorem Consistent.matches_of_channelPair (h : net.Consistent) {c reply : Channel}
    (hpair : net.channelPair dst src = some (c, reply)) :
    ∃ p, net.ports[dst]? = some p ∧ net.Matches dst src p c reply := by
  obtain ⟨p, hp, hpair⟩ := Option.bind_eq_some_iff.mp hpair
  exact ⟨p, hp, h.pair dst src p c reply hp hpair⟩

end Registry

end Netsim

end Traxos
