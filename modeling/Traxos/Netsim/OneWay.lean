import Traxos.Core.Machine
import Traxos.Netsim.Registry

/-! # One-way networks

`network<T>` is a registry of ports that only receive. A channel is kept in the table of the port
that it leads to, under the address of its source, and created when it is first asked for. Unlike
the channels of `network<Req, Resp>` it needs nothing of its source but a port of that name.

In every run the null channel means that one of the two ports is missing, and a channel that was
found is found for ever (`one_way_channels`). -/

namespace Traxos

namespace Netsim

/-! ## The source -/

/-- `port<T>` of a `network<T>`, with its channels. -/
structure OneWayPort where
  loc : Loc
  address : Str
  channels : Std.ExtTreeMap Str Channel := ∅

/-- `network<T>`. -/
structure OneWay where
  ports : Std.ExtTreeMap Str OneWayPort := ∅
  /-- The objects created so far. -/
  allocated : ℕ := 0

namespace OneWay

/-- `port`: register or find a port. -/
def port (net : OneWay) (addr : Str) : Loc × OneWay :=
  match net.ports[addr]? with
  | some p => (p.loc, net)
  | none =>
    (net.allocated, { net with
      ports := net.ports.insert addr { loc := net.allocated, address := addr }
      allocated := net.allocated + 1 })

/-- `find_port`. -/
def findPort (net : OneWay) (addr : Str) : Option OneWayPort := net.ports[addr]?

/-- The channel that `find_channel_from` creates, from the port `q` to the port `p`. -/
def newChannel (net : OneWay) (q p : OneWayPort) : Channel :=
  { loc := net.allocated
    source := q.address
    destination := p.loc
    destinationAddress := p.address }

/-- `find_channel_from` of the port `p`, which is registered at `dst`; `none` for a null pointer. -/
def findChannelFrom (net : OneWay) (dst : Str) (p : OneWayPort) (src : Str) :
    Option Channel × OneWay :=
  match p.channels[src]? with
  | some c => (some c, net)
  | none =>
    match net.findPort src with
    | none => (none, net)
    | some q =>
      let c := net.newChannel q p
      (some c, { net with
        ports := net.ports.insert dst { p with channels := p.channels.insert src c }
        allocated := net.allocated + 1 })

/-- `find_channel`. -/
def findChannel (net : OneWay) (src dst : Str) : Option Channel × OneWay :=
  match net.ports[dst]? with
  | none => (none, net)
  | some p => net.findChannelFrom dst p src

/-! ## What is registered -/

/-- The channel from `src` to the port at `dst`. -/
def channel (net : OneWay) (dst src : Str) : Option Channel :=
  (net.ports[dst]?).bind fun p => p.channels[src]?

/-- The channel `c` leads from a port at `src` to the port `p` at `dst`. -/
structure Joins (net : OneWay) (dst src : Str) (p : OneWayPort) (c : Channel) : Prop where
  source : c.source = src
  destination : c.destination = p.loc
  destinationAddress : c.destinationAddress = dst
  registered : (net.findPort src).isSome

/-- **The invariant of a one-way network**: ports are registered under their addresses, and the
channels in their tables join the ports that they are registered for. -/
structure Consistent (net : OneWay) : Prop where
  ports : Registry.Addressed OneWayPort.loc OneWayPort.address net.allocated net.ports
  joins : ∀ (d src : Str) (p : OneWayPort) (c : Channel), net.ports[d]? = some p →
    p.channels[src]? = some c → net.Joins d src p c

/-- Ports and channels of `net` are still there in `net'`. -/
def Extends (net' net : OneWay) : Prop :=
  ∀ (d : Str) (p : OneWayPort), net.ports[d]? = some p →
    ∃ p' : OneWayPort, net'.ports[d]? = some p' ∧ p'.loc = p.loc ∧
      ∀ (src : Str) (c : Channel), p.channels[src]? = some c → p'.channels[src]? = some c

variable {net net' net'' : OneWay} {src dst : Str}

namespace Extends

theorem refl (net : OneWay) : net.Extends net := fun _ p hp => ⟨p, hp, rfl, fun _ _ h => h⟩

theorem trans (h' : net''.Extends net') (h : net'.Extends net) : net''.Extends net := by
  intro d p hp
  obtain ⟨p', hp', hloc, hchannels⟩ := h d p hp
  obtain ⟨p'', hp'', hloc', hchannels'⟩ := h' d p' hp'
  exact ⟨p'', hp'', hloc'.trans hloc, fun src c hc => hchannels' src c (hchannels src c hc)⟩

theorem channel (h : net'.Extends net) {c : Channel} (hc : net.channel dst src = some c) :
    net'.channel dst src = some c := by
  obtain ⟨p, hp, hc⟩ := Option.bind_eq_some_iff.mp hc
  obtain ⟨p', hp', -, hchannels⟩ := h dst p hp
  exact Option.bind_eq_some_iff.mpr ⟨p', hp', hchannels src c hc⟩

theorem findPort (h : net'.Extends net) (hp : (net.findPort dst).isSome) :
    (net'.findPort dst).isSome := by
  obtain ⟨p, hp⟩ := Option.isSome_iff_exists.mp hp
  obtain ⟨p', hp', -⟩ := h dst p hp
  exact Option.isSome_iff_exists.mpr ⟨p', hp'⟩

end Extends

theorem Joins.mono {p : OneWayPort} {c : Channel} (h : net.Joins dst src p c)
    (hnet : net'.Extends net) : net'.Joins dst src p c :=
  { h with registered := hnet.findPort h.registered }

theorem Consistent.empty : Consistent {} where
  ports := .empty _ _ _
  joins d src p c hp := by cases Std.ExtTreeMap.getElem?_empty.symm.trans hp

/-! ### `port` -/

theorem extends_port (net : OneWay) (addr : Str) : (net.port addr).2.Extends net := by
  rw [port]
  split
  · exact .refl net
  · rename_i hnone
    refine fun d p hp => ⟨p, Registry.getElem?_insert_eq_some.mpr (.inr ⟨?_, hp⟩), rfl,
      fun _ _ h => h⟩
    rintro rfl
    cases hnone.symm.trans hp

theorem isSome_findPort_port (net : OneWay) (addr : Str) :
    ((net.port addr).2.findPort addr).isSome := by
  rw [port]
  split
  · rename_i p hp
    exact Option.isSome_iff_exists.mpr ⟨p, hp⟩
  · exact Option.isSome_iff_exists.mpr ⟨_, Registry.getElem?_insert_eq_some.mpr (.inl ⟨rfl, rfl⟩)⟩

theorem Consistent.port (h : net.Consistent) (addr : Str) : (net.port addr).2.Consistent := by
  have hextends := net.extends_port addr
  cases hport : net.ports[addr]? with
  | some p =>
    rw [OneWay.port, hport]
    exact h
  | none =>
    rw [OneWay.port, hport] at hextends ⊢
    constructor
    · refine (h.ports.mono (Nat.le_succ _)).insert rfl (Nat.lt_succ_self _) fun a q hq hloc => ?_
      -- no port is where the new one is created
      exact absurd hloc (Nat.ne_of_lt (h.ports.loc_lt a q hq))
    · intro d src p c hp hc
      rcases Registry.getElem?_insert_eq_some.mp hp with ⟨rfl, rfl⟩ | ⟨-, hp⟩
      · cases Std.ExtTreeMap.getElem?_empty.symm.trans hc
      · exact (h.joins d src p c hp hc).mono hextends

/-! ### `find_channel` -/

/-- **What `find_channel` does**: it finds the channel, or misses a port, or joins two ports. -/
theorem findChannel_cases (net : OneWay) (src dst : Str) :
    (∃ c, net.channel dst src = some c ∧ net.findChannel src dst = (some c, net)) ∨
    (net.channel dst src = none ∧ (net.findPort src = none ∨ net.findPort dst = none) ∧
      net.findChannel src dst = (none, net)) ∨
    ∃ p q, net.ports[dst]? = some p ∧ p.channels[src]? = none ∧ net.ports[src]? = some q ∧
      net.findChannel src dst = (some (net.newChannel q p), { net with
        ports := net.ports.insert dst { p with
          channels := p.channels.insert src (net.newChannel q p) }
        allocated := net.allocated + 1 }) := by
  cases hp : net.ports[dst]? with
  | none =>
    refine Or.inr (Or.inl ⟨?_, Or.inr hp, ?_⟩)
    · rw [channel, hp, Option.bind_none]
    · simp only [findChannel, hp]
  | some p =>
    have hchannel : net.channel dst src = p.channels[src]? := by
      rw [channel, hp, Option.bind_some]
    cases hc : p.channels[src]? with
    | some c =>
      refine Or.inl ⟨c, hchannel.trans hc, ?_⟩
      simp only [findChannel, hp, findChannelFrom, hc]
    | none =>
      cases hq : net.ports[src]? with
      | none =>
        refine Or.inr (Or.inl ⟨hchannel.trans hc, Or.inl hq, ?_⟩)
        simp only [findChannel, hp, findChannelFrom, hc, findPort, hq]
      | some q =>
        refine Or.inr (Or.inr ⟨p, q, rfl, hc, rfl, ?_⟩)
        simp only [findChannel, hp, findChannelFrom, hc, findPort, hq]

theorem extends_findChannel (net : OneWay) (src dst : Str) :
    (net.findChannel src dst).2.Extends net := by
  obtain ⟨c, -, heq⟩ | ⟨-, -, heq⟩ | ⟨p, q, hp, hc, -, heq⟩ := net.findChannel_cases src dst
  · rw [heq]
    exact .refl net
  · rw [heq]
    exact .refl net
  · rw [heq]
    intro d p' hp'
    by_cases hd : d = dst
    · -- the table of the destination gets an entry that it did not have
      subst hd
      obtain rfl : p = p' := Option.some.inj (hp.symm.trans hp')
      refine ⟨_, Registry.getElem?_insert_eq_some.mpr (.inl ⟨rfl, rfl⟩), rfl, fun src' c' hc' => ?_⟩
      refine Registry.getElem?_insert_eq_some.mpr (.inr ⟨?_, hc'⟩)
      rintro rfl
      cases hc.symm.trans hc'
    · exact ⟨p', Registry.getElem?_insert_eq_some.mpr (.inr ⟨hd, hp'⟩), rfl, fun _ _ h => h⟩

theorem Consistent.findChannel (h : net.Consistent) (src dst : Str) :
    (net.findChannel src dst).2.Consistent := by
  have hextends := net.extends_findChannel src dst
  obtain ⟨c, -, heq⟩ | ⟨-, -, heq⟩ | ⟨p, q, hp, hc, hq, heq⟩ := net.findChannel_cases src dst
  · rw [heq]
    exact h
  · rw [heq]
    exact h
  · rw [heq] at hextends ⊢
    have hregistered : (net.findPort src).isSome := Option.isSome_iff_exists.mpr ⟨q, hq⟩
    refine ⟨?_, fun d src' p' c' hp' hc' => ?_⟩
    · -- the destination stays where it is
      refine (h.ports.mono (Nat.le_succ _)).insert (h.ports.address_eq dst p hp)
        (Nat.lt_succ_of_lt (h.ports.loc_lt dst p hp)) fun a q' hq' hloc => ?_
      exact h.ports.loc_inj a dst q' p hq' hp hloc
    · rcases Registry.getElem?_insert_eq_some.mp hp' with ⟨rfl, rfl⟩ | ⟨-, hp'⟩
      · rcases Registry.getElem?_insert_eq_some.mp hc' with ⟨rfl, rfl⟩ | ⟨-, hold⟩
        · exact ⟨h.ports.address_eq src' q hq, rfl, h.ports.address_eq d p hp,
            hextends.findPort hregistered⟩
        · exact { (h.joins d src' p c' hp hold).mono hextends with }
      · exact (h.joins d src' p' c' hp' hc').mono hextends

/-- **A null channel**: one of the two ports is not there. -/
theorem Consistent.findChannel_eq_none_iff (h : net.Consistent) (src dst : Str) :
    (net.findChannel src dst).1 = none ↔ net.findPort src = none ∨ net.findPort dst = none := by
  obtain ⟨c, hc, heq⟩ | ⟨-, hnone, heq⟩ | ⟨p, q, hp, -, hq, heq⟩ := net.findChannel_cases src dst
  · -- a channel that is there has both its ports
    obtain ⟨p, hp, hc⟩ := Option.bind_eq_some_iff.mp hc
    obtain ⟨q, hq⟩ : ∃ q, net.ports[src]? = some q :=
      Option.isSome_iff_exists.mp (h.joins dst src p c hp hc).registered
    simp [heq, findPort, hp, hq]
  · simp [heq, hnone]
  · simp [heq, findPort, hp, hq]

theorem findChannel_of_channel {c : Channel} (h : net.channel dst src = some c) :
    net.findChannel src dst = (some c, net) := by
  obtain ⟨p, hp, hc⟩ := Option.bind_eq_some_iff.mp h
  simp only [OneWay.findChannel, hp, findChannelFrom, hc]

/-- A channel that was found is there. -/
theorem channel_findChannel {c : Channel} (h : (net.findChannel src dst).1 = some c) :
    (net.findChannel src dst).2.channel dst src = some c := by
  obtain ⟨c', hc', heq⟩ | ⟨-, -, heq⟩ | ⟨p, q, -, -, -, heq⟩ := net.findChannel_cases src dst
  · rw [heq] at h ⊢
    obtain rfl := Option.some.inj h
    exact hc'
  · rw [heq] at h
    cases h
  · rw [heq] at h ⊢
    obtain rfl := Option.some.inj h
    exact Option.bind_eq_some_iff.mpr ⟨_, Registry.getElem?_insert_eq_some.mpr (.inl ⟨rfl, rfl⟩),
      Registry.getElem?_insert_eq_some.mpr (.inl ⟨rfl, rfl⟩)⟩

theorem Consistent.joins_of_channel (h : net.Consistent) {c : Channel}
    (hc : net.channel dst src = some c) :
    ∃ p, net.findPort dst = some p ∧ net.Joins dst src p c := by
  obtain ⟨p, hp, hc⟩ := Option.bind_eq_some_iff.mp hc
  exact ⟨p, hp, h.joins dst src p c hp hc⟩

end OneWay

/-! ## Runs -/

/-- What a program asks of a one-way network. -/
inductive OneWayAction
  | port (addr : Str)
  | findChannel (src dst : Str)
  deriving DecidableEq, Repr

/-- Every run of a program with a `network<T>`. -/
def oneWay : Machine OneWay OneWayAction where
  init := {}
  step net
    | .port addr => some (net.port addr).2
    | .findChannel src dst => some (net.findChannel src dst).2

section

variable {tr : List (OneWay × OneWayAction)} {net net' : OneWay} {a : OneWayAction}

theorem OneWay.extends_of_step (h : oneWay.step net a = some net') : net'.Extends net := by
  cases a with
  | port addr =>
    obtain rfl := Option.some.inj h
    exact net.extends_port addr
  | findChannel src dst =>
    obtain rfl := Option.some.inj h
    exact net.extends_findChannel src dst

theorem OneWay.consistent_of_trace (h : oneWay.Trace tr net) : net.Consistent := by
  refine h.invariant (I := fun _ net => net.Consistent) .empty fun _ net a net' hnet hstep => ?_
  cases a with
  | port addr =>
    obtain rfl := Option.some.inj hstep
    exact hnet.port addr
  | findChannel src dst =>
    obtain rfl := Option.some.inj hstep
    exact hnet.findChannel src dst

/-- Whatever a step of a run leaves in the network stays there. -/
theorem OneWay.extends_of_trace (h : oneWay.Trace tr net) {p : OneWay × OneWayAction} (hp : p ∈ tr)
    {net₁ : OneWay} (hstep : oneWay.step p.1 p.2 = some net₁) : net.Extends net₁ := by
  refine h.invariant (I := fun tr net => ∀ p ∈ tr, ∀ net₁, oneWay.step p.1 p.2 = some net₁ →
    net.Extends net₁) ?_ ?_ p hp net₁ hstep
  · exact List.forall_mem_nil _
  · intro tr net a net' ih hlast p hp net₁ hnet₁
    rcases List.mem_append.mp hp with hp | hp
    · exact (OneWay.extends_of_step hlast).trans (ih p hp net₁ hnet₁)
    · obtain rfl := List.mem_singleton.mp hp
      obtain rfl := Option.some.inj (hlast.symm.trans hnet₁)
      exact .refl _

/-- **The channels of a one-way network**, in every run: a null channel means that one of the ports
is missing, and nothing is created then; a channel that was found is found for ever, creating
nothing, and leads from the address that was asked for to the port at the other. -/
theorem one_way_channels (tr : List (OneWay × OneWayAction)) (net : OneWay)
    (htr : oneWay.Trace tr net) :
    (∀ src dst, ((net.findChannel src dst).1 = none ↔
        net.findPort src = none ∨ net.findPort dst = none) ∧
      ((net.findChannel src dst).1 = none → (net.findChannel src dst).2 = net)) ∧
    ∀ p ∈ tr, ∀ src dst c, p.2 = .findChannel src dst →
      (p.1.findChannel src dst).1 = some c →
      net.findChannel src dst = (some c, net) ∧ c.source = src ∧ c.destinationAddress = dst ∧
        ∃ q, net.findPort dst = some q ∧ c.destination = q.loc := by
  have hconsistent := OneWay.consistent_of_trace htr
  refine ⟨fun src dst => ⟨hconsistent.findChannel_eq_none_iff src dst, fun hnone => ?_⟩, ?_⟩
  · obtain ⟨c, -, heq⟩ | ⟨-, -, heq⟩ | ⟨p, q, -, -, -, heq⟩ := net.findChannel_cases src dst
    · rw [heq]
    · rw [heq]
    · rw [heq] at hnone
      cases hnone
  · intro p hp src dst c haction hfound
    obtain ⟨-, net₁, -, hstep⟩ := htr.exists_step hp
    -- the step leaves behind what `find_channel` registered
    have hnet₁ : net₁ = (p.1.findChannel src dst).2 := by
      rw [haction] at hstep
      exact (Option.some.inj hstep).symm
    have hthen : net₁.channel dst src = some c := hnet₁ ▸ OneWay.channel_findChannel hfound
    have hchannel := (OneWay.extends_of_trace htr hp hstep).channel hthen
    obtain ⟨q, hq, hjoins⟩ := hconsistent.joins_of_channel hchannel
    exact ⟨OneWay.findChannel_of_channel hchannel, hjoins.source, hjoins.destinationAddress, q, hq,
      hjoins.destination⟩

/-- A port that asks for a channel to itself, as a replica does, and before for one to a port that
is not there. -/
theorem one_way_channels_itself : ∃ (tr : _) (net : OneWay) (c : Channel), oneWay.Trace tr net ∧
    net.findChannel "a".toList "a".toList = (some c, net) := by
  let c : Channel := {
    loc := 1
    source := "a".toList
    destination := 0
    destinationAddress := "a".toList }
  obtain ⟨tr, net, htr, p, hp, haction, hfound⟩ := Machine.exists_trace_of_record (M := oneWay)
    [.port "a".toList, .findChannel "a".toList "b".toList, .findChannel "a".toList "a".toList,
      .port "b".toList]
    (P := fun tr _ => ∃ p ∈ tr, p.2 = .findChannel "a".toList "a".toList ∧
      (p.1.findChannel "a".toList "a".toList).1 = some c)
    (by decide)
  exact ⟨tr, net, c, htr, ((one_way_channels tr net htr).2 p hp _ _ c haction hfound).1⟩

end

end Netsim

end Traxos
