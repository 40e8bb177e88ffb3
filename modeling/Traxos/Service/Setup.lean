import Traxos.Service.Wiring

/-! # The setup of a test

What `try_one_seed` builds before its coroutines start: the ports of the replicas in both networks,
the client model, the `pt_paxos_instance` with its replicas, and then the clients of `start`. The
order matters: a replica looks up its ports when it is constructed, and a client its channels when
it is added.

`setup_outcome` says that nothing goes wrong as long as there is a replica, and `Setup.Link` how a
client and a replica are joined then. -/

namespace Traxos

namespace Service

open Netsim

/-! ## The source -/

/-- A `pt_paxos_replica` as it is constructed. A reference to a port is the address that the port is
registered at. -/
structure ReplicaPorts where
  index : ℕ
  nreplicas : ℕ
  leaderIndex : ℕ
  fromClients : Str
  fromReplicas : Str
  /-- `to_replicas_`, `none` for a null pointer. -/
  toReplicas : List (Option Channel) := []
  deriving DecidableEq, Repr

namespace ReplicaPorts

/-- The loop of the constructor: the channels to the replicas below `n`. -/
def findChannels (index : ℕ) : ℕ → OneWay → List (Option Channel) × OneWay
  | 0, net => ([], net)
  | s + 1, net =>
    let (toReplicas, net) := findChannels index s net
    let (c, net) := net.findChannel (interreplicaAddr index) (interreplicaAddr s)
    (toReplicas ++ [c], net)

/-- The constructor. -/
def new (nreplicas initialLeader : ℕ) (clientNetwork : Registry) (interreplica : OneWay)
    (index : ℕ) : Except SetupError (ReplicaPorts × OneWay) :=
  match clientNetwork.findPort (replicaAddr index),
      interreplica.findPort (interreplicaAddr index) with
  | some _, some _ =>
    let (toReplicas, interreplica) := findChannels index nreplicas interreplica
    .ok ({
      index := index
      nreplicas := nreplicas
      leaderIndex := initialLeader
      fromClients := replicaAddr index
      fromReplicas := interreplicaAddr index
      toReplicas := toReplicas }, interreplica)
  -- `*find_port(..)`
  | _, _ => .error .nullDereference

end ReplicaPorts

/-- The constructor of `pt_paxos_instance`: the replicas, in the network between them. -/
def newInstance (nreplicas initialLeader : ℕ) (clientNetwork : Registry) (interreplica : OneWay) :
    Except SetupError (List ReplicaPorts × OneWay) :=
  countedLoop (fun p s =>
    (ReplicaPorts.new nreplicas initialLeader clientNetwork p.2 s).map fun q =>
      (p.1 ++ [q.1], q.2)) nreplicas ([], interreplica)

/-- What `try_one_seed` has built when its coroutines start. -/
structure Setup where
  clients : ClientModel
  replicas : List ReplicaPorts
  interreplica : OneWay

/-- The first loop of `try_one_seed`: the ports of `n` replicas. -/
def registerPorts : ℕ → Registry × OneWay
  | 0 => ({}, {})
  | s + 1 =>
    let (clientNetwork, interreplica) := registerPorts s
    ((clientNetwork.port (replicaAddr s)).2, (interreplica.port (interreplicaAddr s)).2)

/-- `try_one_seed` up to where its coroutines start, with `nclients` clients. -/
def setup (nreplicas initialLeader nclients : ℕ) : Except SetupError Setup := do
  let (clientNetwork, interreplica) := registerPorts nreplicas
  let clients ← ClientModel.new nreplicas clientNetwork
  let (replicas, interreplica) ← newInstance nreplicas initialLeader clients.net interreplica
  -- `clients.start()`
  let clients ← clients.setNclients nclients
  return { clients := clients, replicas := replicas, interreplica := interreplica }

/-! ## What is there -/

/-- What the replica `r` of `nreplicas` has: its ports are registered, and its channels lead to each
replica. -/
structure ReplicaPorts.Wired (nreplicas initialLeader : ℕ) (clientNetwork : Registry)
    (interreplica : OneWay) (r : ℕ) (p : ReplicaPorts) : Prop where
  index_eq : p.index = r
  nreplicas_eq : p.nreplicas = nreplicas
  leaderIndex_eq : p.leaderIndex = initialLeader
  fromClients_eq : p.fromClients = replicaAddr r
  fromReplicas_eq : p.fromReplicas = interreplicaAddr r
  clientPort : (clientNetwork.findPort p.fromClients).isSome
  replicaPort : (interreplica.findPort p.fromReplicas).isSome
  length : p.toReplicas.length = nreplicas
  channel : ∀ (t : ℕ) (c : Option Channel), p.toReplicas[t]? = some c →
    ∃ c', c = some c' ∧ interreplica.channel (interreplicaAddr t) (interreplicaAddr r) = some c'

/-- **What a test finds when its coroutines start.** -/
structure Setup.Sound (nreplicas initialLeader nclients : ℕ) (su : Setup) : Prop where
  clients : su.clients.Wired
  nreplicas_eq : su.clients.nreplicas = nreplicas
  length_clients : su.clients.clients.length = nclients
  consistent : su.interreplica.Consistent
  length_replicas : su.replicas.length = nreplicas
  replica : ∀ (r : ℕ) (p : ReplicaPorts), su.replicas[r]? = some p →
    p.Wired nreplicas initialLeader su.clients.net su.interreplica r

section

variable {nreplicas initialLeader nclients n r : ℕ} {clientNetwork clientNetwork' : Registry}
  {interreplica interreplica' : OneWay} {p : ReplicaPorts}

theorem ReplicaPorts.Wired.mono (h : p.Wired nreplicas initialLeader clientNetwork interreplica r)
    (hclients : clientNetwork'.Extends clientNetwork)
    (hinterreplica : interreplica'.Extends interreplica) :
    p.Wired nreplicas initialLeader clientNetwork' interreplica' r := by
  refine { h with clientPort := ?_, replicaPort := ?_, channel := ?_ }
  · have hport := h.clientPort
    rw [h.fromClients_eq] at hport ⊢
    exact HasReplica.mono hport hclients
  · exact hinterreplica.findPort h.replicaPort
  · intro t c hc
    obtain ⟨c', rfl, hchannel⟩ := h.channel t c hc
    exact ⟨c', rfl, hinterreplica.channel hchannel⟩

/-- The ports of the first replicas. -/
structure Registered (n : ℕ) (clientNetwork : Registry) (interreplica : OneWay) : Prop where
  consistent : clientNetwork.Consistent
  consistent' : interreplica.Consistent
  clientPort : ∀ r < n, HasReplica clientNetwork r
  replicaPort : ∀ r < n, (interreplica.findPort (interreplicaAddr r)).isSome

theorem isSome_findPort_port (net : Registry) (addr : Str) :
    ((net.port addr).2.findPort addr).isSome := by
  rw [Registry.port]
  split
  · rename_i p hp
    exact Option.isSome_iff_exists.mpr ⟨p, hp⟩
  · exact Option.isSome_iff_exists.mpr ⟨_, Registry.getElem?_insert_eq_some.mpr (.inl ⟨rfl, rfl⟩)⟩

theorem registered_registerPorts (n : ℕ) :
    Registered n (registerPorts n).1 (registerPorts n).2 := by
  induction n with
  | zero =>
    exact ⟨.empty, .empty, fun r hr => absurd hr (Nat.not_lt_zero r),
      fun r hr => absurd hr (Nat.not_lt_zero r)⟩
  | succ n ih =>
    refine ⟨ih.consistent.port _, ih.consistent'.port _, fun r hr => ?_, fun r hr => ?_⟩
    · rcases Nat.lt_succ_iff_lt_or_eq.mp hr with hlt | rfl
      · exact (ih.clientPort r hlt).mono (Registry.extends_port _ _)
      · exact isSome_findPort_port _ _
    · rcases Nat.lt_succ_iff_lt_or_eq.mp hr with hlt | rfl
      · exact (OneWay.extends_port _ _).findPort (ih.replicaPort r hlt)
      · exact OneWay.isSome_findPort_port _ _

/-- The channels that the loop of the constructor finds. -/
structure Channels (interreplica : OneWay) (index n : ℕ) (q : List (Option Channel) × OneWay) :
    Prop where
  extends_ : q.2.Extends interreplica
  consistent : q.2.Consistent
  length : q.1.length = n
  channel : ∀ (t : ℕ) (c : Option Channel), q.1[t]? = some c →
    ∃ c', c = some c' ∧ q.2.channel (interreplicaAddr t) (interreplicaAddr index) = some c'

theorem channels_findChannels (h : interreplica.Consistent)
    (hsource : (interreplica.findPort (interreplicaAddr r)).isSome)
    (hports : ∀ t < n, (interreplica.findPort (interreplicaAddr t)).isSome) :
    Channels interreplica r n (ReplicaPorts.findChannels r n interreplica) := by
  induction n with
  | zero => exact ⟨.refl _, h, rfl, fun t c hc => by cases hc⟩
  | succ n ih =>
    have hbefore := ih fun t ht => hports t (Nat.lt_succ_of_lt ht)
    rw [ReplicaPorts.findChannels]
    generalize ReplicaPorts.findChannels r n interreplica = q at hbefore ⊢
    have hextends := q.2.extends_findChannel (interreplicaAddr r) (interreplicaAddr n)
    have hconsistent := hbefore.consistent.findChannel (interreplicaAddr r) (interreplicaAddr n)
    have hnull := hbefore.consistent.findChannel_eq_none_iff (interreplicaAddr r)
      (interreplicaAddr n)
    refine ⟨hextends.trans hbefore.extends_, hconsistent, ?_, fun t c hc => ?_⟩
    · rw [List.length_append, List.length_singleton, hbefore.length]
    · rcases getElem?_concat_eq_some.mp hc with hold | ⟨rfl, rfl⟩
      · obtain ⟨c', rfl, hchannel⟩ := hbefore.channel t c hold
        exact ⟨c', rfl, hextends.channel hchannel⟩
      · -- both ports are there, so the channel is not null
        rw [hbefore.length] at *
        cases hfound : (q.2.findChannel (interreplicaAddr r) (interreplicaAddr n)).1 with
        | none =>
          rcases hnull.mp hfound with hnone | hnone
          · exact absurd (hbefore.extends_.findPort hsource) (by rw [hnone]; simp)
          · exact absurd (hbefore.extends_.findPort (hports n (Nat.lt_succ_self n)))
              (by rw [hnone]; simp)
        | some c' => exact ⟨c', rfl, OneWay.channel_findChannel hfound⟩

/-- What holds before turn `n` of the loop that constructs the replicas. -/
structure Constructed (nreplicas initialLeader : ℕ) (clientNetwork : Registry)
    (interreplica : OneWay) (n : ℕ) (q : List ReplicaPorts × OneWay) : Prop where
  extends_ : q.2.Extends interreplica
  consistent : q.2.Consistent
  length : q.1.length = n
  replica : ∀ (r : ℕ) (p : ReplicaPorts), q.1[r]? = some p →
    p.Wired nreplicas initialLeader clientNetwork q.2 r

theorem exists_newInstance (h : Registered nreplicas clientNetwork interreplica)
    (initialLeader : ℕ) :
    ∃ q, newInstance nreplicas initialLeader clientNetwork interreplica = .ok q ∧
      Constructed nreplicas initialLeader clientNetwork interreplica nreplicas q := by
  refine countedLoop_ok ⟨.refl _, h.consistent', rfl, fun r p hp => by cases hp⟩ ?_
  intro r hr q hq
  obtain ⟨p₁, hp₁⟩ := Option.isSome_iff_exists.mp (h.clientPort r hr)
  have hsource := hq.extends_.findPort (h.replicaPort r hr)
  obtain ⟨p₂, hp₂⟩ := Option.isSome_iff_exists.mp hsource
  have hchannels := channels_findChannels (n := nreplicas) hq.consistent hsource
    fun t ht => hq.extends_.findPort (h.replicaPort t ht)
  refine ⟨_, by rw [ReplicaPorts.new, hp₁, hp₂]; rfl, hchannels.extends_.trans hq.extends_,
    hchannels.consistent, ?_, fun r' p hp => ?_⟩
  · rw [List.length_append, List.length_singleton, hq.length]
  · rcases getElem?_concat_eq_some.mp hp with hold | ⟨rfl, rfl⟩
    · exact (hq.replica r' p hold).mono (.refl _) hchannels.extends_
    · rw [hq.length] at *
      exact {
        index_eq := rfl
        nreplicas_eq := rfl
        leaderIndex_eq := rfl
        fromClients_eq := rfl
        fromReplicas_eq := rfl
        clientPort := h.clientPort r hr
        replicaPort := hchannels.extends_.findPort hsource
        length := hchannels.length
        channel := hchannels.channel }

/-- Nothing goes wrong when there is a replica and not too many clients. -/
theorem exists_setup (nreplicas initialLeader nclients : ℕ) (hnreplicas : 0 < nreplicas)
    (hnclients : nclients ≤ maxClients) :
    ∃ su, setup nreplicas initialLeader nclients = .ok su ∧
      su.Sound nreplicas initialLeader nclients := by
  have hregistered := registered_registerPorts nreplicas
  have hnew : ClientModel.new nreplicas (registerPorts nreplicas).1 =
      .ok { net := (registerPorts nreplicas).1, nreplicas := nreplicas } :=
    if_neg (Nat.ne_of_gt hnreplicas)
  obtain ⟨⟨replicas, interreplica⟩, hinstance, hconstructed⟩ :=
    exists_newInstance hregistered initialLeader
  obtain ⟨m, hm, hwired, hextends, hm', hlength⟩ :=
    (ClientModel.wired_of_nil (m := { net := (registerPorts nreplicas).1, nreplicas := nreplicas })
      hregistered.consistent rfl).setNclients hnclients fun _ => hregistered.clientPort
  refine ⟨⟨m, replicas, interreplica⟩, ?_, hwired, hm', hlength, hconstructed.consistent,
    hconstructed.length, fun r p hp => (hconstructed.replica r p hp).mono hextends (.refl _)⟩
  simp only [setup, hnew, hinstance, hm, bind, Except.bind, pure, Except.pure]

theorem setup_zero (initialLeader nclients : ℕ) : setup 0 initialLeader nclients =
    .error (.outOfRange "nreplicas must not be zero".toList) := rfl

theorem setup_of_lt (hnreplicas : 0 < nreplicas) (hnclients : maxClients < nclients) :
    setup nreplicas initialLeader nclients =
      .error (.outOfRange "nclients out of range".toList) := by
  have hnew : ClientModel.new nreplicas (registerPorts nreplicas).1 =
      .ok { net := (registerPorts nreplicas).1, nreplicas := nreplicas } :=
    if_neg (Nat.ne_of_gt hnreplicas)
  obtain ⟨⟨replicas, interreplica⟩, hinstance, -⟩ :=
    exists_newInstance (registered_registerPorts nreplicas) initialLeader
  simp only [setup, hnew, hinstance, ClientModel.setNclients_of_lt hnclients, bind, Except.bind]

theorem sound_of_setup {su : Setup} (h : setup nreplicas initialLeader nclients = .ok su) :
    su.Sound nreplicas initialLeader nclients := by
  rcases Nat.eq_zero_or_pos nreplicas with rfl | hnreplicas
  · cases (setup_zero initialLeader nclients).symm.trans h
  · rcases Nat.lt_or_ge maxClients nclients with hlt | hle
    · cases (setup_of_lt hnreplicas hlt).symm.trans h
    · obtain ⟨su', hsu', hsound⟩ := exists_setup nreplicas initialLeader nclients hnreplicas hle
      obtain rfl : su' = su := Except.ok.inj (hsu'.symm.trans h)
      exact hsound

/-! ## The links of a test -/

/-- The client `c` and the replica `r` are joined by the channel `chan` and its reply channel. -/
structure Setup.Link (su : Setup) (c r : ℕ) (chan reply : Channel) : Prop where
  pair : su.clients.net.channelPair (replicaAddr r) (clientAddr c) = some (chan, reply)
  source : chan.source = clientAddr c
  destination : (su.clients.net.findPort (replicaAddr r)).map ServerPort.loc =
    some chan.destination
  replySource : reply.source = replicaAddr r
  replyDestination : (su.clients.clients[c]?).map ClientInfo.responsePort = some reply.destination

/-- The channel that client `c` sends to the replica `r` on. -/
def Setup.channel (su : Setup) (c r : ℕ) : Option Channel :=
  (su.clients.clients[c]?).bind fun info => info.channels[r]?

/-- That channel and its reply channel, as the network has them. -/
def Setup.channelPair (su : Setup) (c r : ℕ) : Option (Channel × Channel) :=
  (su.clients.clients[c]?).bind fun _ =>
    su.clients.net.channelPair (replicaAddr r) (clientAddr c)

theorem Setup.Sound.channelPair_of_channel {su : Setup}
    (h : su.Sound nreplicas initialLeader nclients) {c : ℕ} {chan : Channel}
    (hchan : su.channel c r = some chan) : ∃ reply, su.channelPair c r = some (chan, reply) := by
  obtain ⟨info, hinfo, hchan⟩ := Option.bind_eq_some_iff.mp hchan
  obtain ⟨reply, hpair⟩ := (h.clients.clients c info hinfo).channel r chan hchan
  exact ⟨reply, by rw [Setup.channelPair, hinfo]; exact hpair⟩

/-- What the network has for a client and a replica joins them. -/
theorem Setup.Sound.link {su : Setup} (h : su.Sound nreplicas initialLeader nclients) {c : ℕ}
    {chan reply : Channel} (hpair : su.channelPair c r = some (chan, reply)) :
    su.Link c r chan reply := by
  obtain ⟨info, hinfo, hpair⟩ := Option.bind_eq_some_iff.mp hpair
  have hwired := h.clients.clients c info hinfo
  obtain ⟨p, hp, hmatches⟩ := h.clients.consistent.matches_of_channelPair hpair
  refine ⟨hpair, hmatches.source, ?_, hmatches.replySource, ?_⟩
  · rw [Registry.findPort, hp, Option.map_some, hmatches.destination]
  · rw [hinfo, Option.map_some, ← hwired.responsePort, hmatches.replyDestination]

/-- Every client and every replica are joined. -/
theorem Setup.Sound.exists_link {su : Setup} (h : su.Sound nreplicas initialLeader nclients) {c : ℕ}
    (hc : c < nclients) (hr : r < nreplicas) :
    ∃ chan reply, su.channel c r = some chan ∧ su.Link c r chan reply := by
  obtain ⟨info, hinfo⟩ : ∃ info, su.clients.clients[c]? = some info :=
    ⟨_, List.getElem?_eq_getElem (h.length_clients ▸ hc)⟩
  have hlength : r < info.channels.length := by
    rw [(h.clients.clients c info hinfo).length, h.nreplicas_eq]
    exact hr
  obtain ⟨chan, hchan⟩ : ∃ chan, info.channels[r]? = some chan :=
    ⟨_, List.getElem?_eq_getElem hlength⟩
  have hchannel : su.channel c r = some chan := by rw [Setup.channel, hinfo]; exact hchan
  obtain ⟨reply, hpair⟩ := h.channelPair_of_channel hchannel
  exact ⟨chan, reply, hchannel, h.link hpair⟩

/-- A channel joins one client and one replica. -/
theorem Setup.Link.inj {su : Setup} {c c' r' : ℕ} {chan reply chan' reply' : Channel}
    (hnet : su.clients.net.Consistent) (h : su.Link c r chan reply)
    (h' : su.Link c' r' chan' reply') (heq : chan = chan' ∨ reply = reply') : c = c' ∧ r = r' := by
  obtain ⟨p, hp, hmatches⟩ := hnet.matches_of_channelPair h.pair
  obtain ⟨p', hp', hmatches'⟩ := hnet.matches_of_channelPair h'.pair
  rcases heq with rfl | rfl
  · exact ⟨clientAddr_injective (h.source.symm.trans h'.source), replicaAddr_injective
      (hmatches.destinationAddress.symm.trans hmatches'.destinationAddress)⟩
  · exact ⟨clientAddr_injective
      (hmatches.replyDestinationAddress.symm.trans hmatches'.replyDestinationAddress),
      replicaAddr_injective (h.replySource.symm.trans h'.replySource)⟩

/-- **A test comes up** exactly when it has a replica and not too many clients; else an exception is
thrown, and no null pointer is ever followed. Once it is up, each client and each replica are joined
by a channel and a reply channel of their own, and each replica and each replica by one more, itself
included. -/
theorem setup_outcome (nreplicas initialLeader nclients : ℕ) :
    ((∃ su, setup nreplicas initialLeader nclients = .ok su) ↔
      0 < nreplicas ∧ nclients ≤ maxClients) ∧
    setup nreplicas initialLeader nclients ≠ .error .nullDereference ∧
    ∀ su, setup nreplicas initialLeader nclients = .ok su →
      (∀ c < nclients, ∀ r < nreplicas, ∃ chan reply,
        su.channel c r = some chan ∧ su.Link c r chan reply ∧
        ∀ c' r' chan' reply', su.Link c' r' chan' reply' → chan = chan' ∨ reply = reply' →
          c = c' ∧ r = r') ∧
      ∀ r < nreplicas, ∃ p, su.replicas[r]? = some p ∧
        p.Wired nreplicas initialLeader su.clients.net su.interreplica r := by
  have houtcome : ((∃ su, setup nreplicas initialLeader nclients = .ok su) ↔
      0 < nreplicas ∧ nclients ≤ maxClients) ∧
      setup nreplicas initialLeader nclients ≠ .error .nullDereference := by
    rcases Nat.eq_zero_or_pos nreplicas with rfl | hnreplicas
    · rw [setup_zero]
      simp
    · rcases Nat.lt_or_ge maxClients nclients with hlt | hle
      · rw [setup_of_lt hnreplicas hlt]
        simp [Nat.not_le.mpr hlt]
      · obtain ⟨su, hsu, -⟩ := exists_setup nreplicas initialLeader nclients hnreplicas hle
        rw [hsu]
        simp [hnreplicas, hle]
  refine ⟨houtcome.1, houtcome.2, fun su hsu => ?_⟩
  have hsound := sound_of_setup hsu
  refine ⟨fun c hc r hr => ?_, fun r hr => ?_⟩
  · obtain ⟨chan, reply, hchan, hlink⟩ := hsound.exists_link hc hr
    exact ⟨chan, reply, hchan, hlink, fun c' r' chan' reply' hlink' heq =>
      hlink.inj hsound.clients.consistent hlink' heq⟩
  · have hlength : r < su.replicas.length := by rw [hsound.length_replicas]; exact hr
    exact ⟨_, List.getElem?_eq_getElem hlength,
      hsound.replica r _ (List.getElem?_eq_getElem hlength)⟩

end

end Service

end Traxos
