import Traxos.Core.CountedLoop
import Traxos.Lockseq.Keys
import Traxos.Netsim.OneWay
import Traxos.Service.Network

/-! # Wiring

How a test is put together before anything runs: `client_model::set_nclients` gives every client a
response port and a channel to each replica, `pt_paxos_replica` looks up its ports and its channels
to the other replicas, and `try_one_seed` creates the ports first. Pointers that the code follows
without a test may be null here (`SetupError.nullDereference`), and exceptions may be thrown.

`ClientModel.Wired` is what `set_nclients` keeps, and `set_nclients_outcome` says exactly when it
gets through. -/

namespace Traxos

namespace Service

open Netsim

/-! ## The source -/

/-- The address `c{cid}` of a client. -/
def clientAddr (cid : ℕ) : Str := 'c' :: Nat.toDigits 10 cid

/-- The address `R{r}` of a replica. -/
def replicaAddr (r : ℕ) : Str := 'R' :: Nat.toDigits 10 r

/-- The address `R{r}/r` of a replica in the network between the replicas. -/
def interreplicaAddr (r : ℕ) : Str := replicaAddr r ++ ['/', 'r']

/-- How the setup of a test may fail. -/
inductive SetupError
  /-- `std::out_of_range`. -/
  | outOfRange (what : Str)
  /-- A null pointer is followed. -/
  | nullDereference
  deriving DecidableEq, Repr

/-- `clientinfo`. The response port is a pointer. -/
structure ClientInfo where
  channels : List Channel
  responsePort : Loc
  deriving DecidableEq, Repr

/-- `client_model`, with the network that it refers to. -/
structure ClientModel where
  net : Registry
  nreplicas : ℕ
  clients : List ClientInfo := []

namespace ClientModel

/-- The constructor. -/
def new (nreplicas : ℕ) (net : Registry) : Except SetupError ClientModel :=
  if nreplicas = 0 then .error (.outOfRange "nreplicas must not be zero".toList)
  else .ok { net := net, nreplicas := nreplicas }

/-- One turn of the inner loop of `set_nclients`, for the client at `addr`: the channels that it has
so far, and another one. -/
def connect (addr : Str) (p : Registry × List Channel) (r : ℕ) :
    Except SetupError (Registry × List Channel) :=
  match p.1.findChannel addr (replicaAddr r) with
  | (some c, net) => .ok (net, p.2 ++ [c])
  -- `channels[r]->set_verbose(false)`
  | (none, _) => .error .nullDereference

/-- One turn of the outer loop. -/
def addClient (m : ClientModel) : Except SetupError ClientModel :=
  let addr := clientAddr m.clients.length
  let (responsePort, net) := m.net.responsePort addr
  (countedLoop (connect addr) m.nreplicas (net, [])).map fun p => { m with
    net := p.1
    clients := m.clients ++ [{ channels := p.2, responsePort := responsePort }] }

/-- `set_nclients`. -/
def setNclients (m : ClientModel) (n : ℕ) : Except SetupError ClientModel :=
  if maxClients < n then .error (.outOfRange "nclients out of range".toList)
  else
    (countedLoop (fun m _ => m.addClient) (n - m.clients.length) m).map fun m =>
      -- there are `n` clients by now, so `resize` adds none
      { m with clients := m.clients.take n }

/-- `set_nclients` called again and again. -/
def setNclientsAll (m : ClientModel) : List ℕ → Except SetupError ClientModel
  | [] => .ok m
  | n :: ns => (m.setNclients n).bind fun m => m.setNclientsAll ns

end ClientModel

/-! ## What `set_nclients` keeps -/

/-- What the client `cid` has: its own response port, and a channel to each replica. -/
structure ClientInfo.Wired (net : Registry) (nreplicas cid : ℕ) (info : ClientInfo) : Prop where
  responsePort :
    (net.responsePorts[clientAddr cid]?).map ResponsePort.loc = some info.responsePort
  length : info.channels.length = nreplicas
  channel : ∀ (r : ℕ) (c : Channel), info.channels[r]? = some c →
    ∃ reply, net.channelPair (replicaAddr r) (clientAddr cid) = some (c, reply)

/-- **The invariant of a client model.** -/
structure ClientModel.Wired (m : ClientModel) : Prop where
  consistent : m.net.Consistent
  clients : ∀ (cid : ℕ) (info : ClientInfo), m.clients[cid]? = some info →
    info.Wired m.net m.nreplicas cid

/-- The replica `r` has its port. -/
def HasReplica (net : Registry) (r : ℕ) : Prop := (net.findPort (replicaAddr r)).isSome

instance (net : Registry) (r : ℕ) : Decidable (HasReplica net r) :=
  inferInstanceAs (Decidable (_ = true))

section

variable {net net' : Registry} {m m' : ClientModel} {n k nreplicas cid r : ℕ} {info : ClientInfo}

theorem getElem?_concat_eq_some {α : Type} {l : List α} {x y : α} {i : ℕ} :
    (l ++ [x])[i]? = some y ↔ l[i]? = some y ∨ i = l.length ∧ x = y := by
  rw [List.getElem?_append]
  split
  · rename_i hlt
    simp [Nat.ne_of_lt hlt]
  · rename_i hge
    rw [List.getElem?_eq_none (Nat.le_of_not_lt hge), List.getElem?_singleton]
    have : i - l.length = 0 ↔ i = l.length := by omega
    simp [this]

theorem clientAddr_injective : Function.Injective clientAddr := fun _ _ h =>
  Lockseq.toDigits_ten_injective (List.cons.inj h).2

theorem replicaAddr_injective : Function.Injective replicaAddr := fun _ _ h =>
  Lockseq.toDigits_ten_injective (List.cons.inj h).2

theorem ClientInfo.Wired.mono (h : info.Wired net nreplicas cid) (hnet : net'.Extends net) :
    info.Wired net' nreplicas cid := by
  refine ⟨?_, h.length, fun r c hc => ?_⟩
  · obtain ⟨q, hq, hloc⟩ := Option.map_eq_some_iff.mp h.responsePort
    exact Option.map_eq_some_iff.mpr ⟨q, hnet.responsePort _ q hq, hloc⟩
  · obtain ⟨reply, hpair⟩ := h.channel r c hc
    exact ⟨reply, hnet.channelPair hpair⟩

/-- What a client has is what the network has for it. -/
theorem ClientInfo.Wired.ext {info' : ClientInfo} (h : info.Wired net nreplicas cid)
    (h' : info'.Wired net nreplicas cid) : info = info' := by
  have hresponsePort := Option.some.inj (h.responsePort.symm.trans h'.responsePort)
  have hchannels : info.channels = info'.channels := by
    refine List.ext_getElem (h.length.trans h'.length.symm) fun r hr hr' => ?_
    obtain ⟨reply, hpair⟩ := h.channel r _ (List.getElem?_eq_getElem hr)
    obtain ⟨reply', hpair'⟩ := h'.channel r _ (List.getElem?_eq_getElem hr')
    exact congrArg Prod.fst (Option.some.inj (hpair.symm.trans hpair'))
  cases info
  cases info'
  simp only [ClientInfo.mk.injEq]
  exact ⟨hchannels, hresponsePort⟩

theorem HasReplica.mono (h : HasReplica net r) (hnet : net'.Extends net) : HasReplica net' r := by
  obtain ⟨p, hp⟩ := Option.isSome_iff_exists.mp h
  obtain ⟨p', hp', -⟩ := hnet.port _ p hp
  exact Option.isSome_iff_exists.mpr ⟨p', hp'⟩

/-- `find_channel` creates no ports. -/
theorem hasReplica_findChannel (net : Registry) (src dst : Str) (r : ℕ) :
    HasReplica (net.findChannel src dst).2 r ↔ HasReplica net r := by
  refine ⟨fun h => ?_, fun h => h.mono (net.extends_findChannel src dst)⟩
  obtain ⟨pair, -, heq⟩ | ⟨-, heq⟩ | ⟨dest, srcResp, hdest, -, -, heq⟩ :=
    net.findChannel_cases src dst
  · rwa [heq] at h
  · rwa [heq] at h
  · rw [heq] at h
    obtain ⟨p, hp⟩ := Option.isSome_iff_exists.mp h
    rcases Registry.getElem?_insert_eq_some.mp hp with ⟨hr, -⟩ | ⟨-, hp⟩
    · exact Option.isSome_iff_exists.mpr ⟨dest, hr ▸ hdest⟩
    · exact Option.isSome_iff_exists.mpr ⟨p, hp⟩

theorem hasReplica_responsePort (net : Registry) (addr : Str) (r : ℕ) :
    HasReplica (net.responsePort addr).2 r ↔ HasReplica net r := by
  rw [Registry.responsePort]
  split <;> rfl

/-- The response port that `response_port` returns is registered. -/
theorem responsePorts_responsePort (net : Registry) (addr : Str) :
    ((net.responsePort addr).2.responsePorts[addr]?).map ResponsePort.loc =
      some (net.responsePort addr).1 := by
  rw [Registry.responsePort]
  split
  · rename_i q hq
    rw [hq, Option.map_some]
  · rw [Registry.getElem?_insert_eq_some.mpr (.inl ⟨rfl, rfl⟩), Option.map_some]

namespace ClientModel

theorem wired_of_nil (hnet : m.net.Consistent) (hclients : m.clients = []) : m.Wired :=
  ⟨hnet, fun cid info hinfo => by rw [hclients] at hinfo; cases hinfo⟩

/-! ### One client -/

/-- What holds before turn `r` of the inner loop: the network has grown by the channels to the
replicas before. -/
structure Connected (addr : Str) (net : Registry) (r : ℕ) (p : Registry × List Channel) : Prop where
  extends_ : p.1.Extends net
  consistent : p.1.Consistent
  hasReplica : ∀ r, HasReplica p.1 r ↔ HasReplica net r
  length : p.2.length = r
  channel : ∀ (r : ℕ) (c : Channel), p.2[r]? = some c →
    ∃ reply, p.1.channelPair (replicaAddr r) addr = some (c, reply)

theorem Connected.start (addr : Str) (h : net.Consistent) : Connected addr net 0 (net, []) :=
  ⟨.refl net, h, fun _ => Iff.rfl, rfl, fun r c hc => by cases hc⟩

/-- A turn adds the channel to a replica that has its port. -/
theorem Connected.connect {addr : Str} {p : Registry × List Channel}
    (h : Connected addr net r p) (hsource : (net.findResponsePort addr).isSome)
    (hr : HasReplica net r) :
    ∃ p', ClientModel.connect addr p r = .ok p' ∧ Connected addr net (r + 1) p' := by
  have hextends := p.1.extends_findChannel addr (replicaAddr r)
  have hhasReplica := hasReplica_findChannel p.1 addr (replicaAddr r)
  have hconsistent := h.consistent.findChannel addr (replicaAddr r)
  cases hfound : (p.1.findChannel addr (replicaAddr r)).1 with
  | none =>
    -- both ends are there
    obtain ⟨q, hq⟩ := Option.isSome_iff_exists.mp hsource
    obtain ⟨p', hp'⟩ := Option.isSome_iff_exists.mp ((h.hasReplica r).mpr hr)
    rcases (p.1.findChannel_eq_none_iff addr (replicaAddr r)).mp hfound with hport | ⟨-, hport⟩
    · cases hp'.symm.trans hport
    · cases (h.extends_.responsePort addr q hq).symm.trans hport
  | some c =>
    obtain ⟨reply, hpair⟩ := Registry.channelPair_findChannel hfound
    refine ⟨((p.1.findChannel addr (replicaAddr r)).2, p.2 ++ [c]), ?_, ?_⟩
    · rw [ClientModel.connect, show p.1.findChannel addr (replicaAddr r) =
        (some c, (p.1.findChannel addr (replicaAddr r)).2) from Prod.ext hfound rfl]
    · refine ⟨hextends.trans h.extends_, hconsistent,
        fun r => (hhasReplica r).trans (h.hasReplica r), ?_, fun r' c' hc' => ?_⟩
      · rw [List.length_append, List.length_singleton, h.length]
      · rcases getElem?_concat_eq_some.mp hc' with hold | ⟨hr', rfl⟩
        · obtain ⟨reply', hpair'⟩ := h.channel r' c' hold
          exact ⟨reply', hextends.channelPair hpair'⟩
        · obtain rfl : r' = r := hr'.trans h.length
          exact ⟨reply, hpair⟩

/-- A turn for a replica without a port follows a null pointer. -/
theorem Connected.connect_error {addr : Str} {p : Registry × List Channel}
    (h : Connected addr net r p) (hr : ¬ HasReplica net r) :
    ClientModel.connect addr p r = .error .nullDereference := by
  have hport : p.1.findPort (replicaAddr r) = none :=
    Option.not_isSome_iff_eq_none.mp fun hsome => hr ((h.hasReplica r).mp hsome)
  have hnone := (p.1.findChannel_eq_none_iff addr (replicaAddr r)).mpr (.inl hport)
  rw [ClientModel.connect, show p.1.findChannel addr (replicaAddr r) =
    (none, (p.1.findChannel addr (replicaAddr r)).2) from Prod.ext hnone rfl]

/-- **What one client more takes**: a port for each replica. The clients that are there stay as they
are. -/
theorem Wired.addClient (h : m.Wired) (hports : ∀ r < m.nreplicas, HasReplica m.net r) :
    ∃ m', m.addClient = .ok m' ∧ m'.Wired ∧ m'.net.Extends m.net ∧ m'.nreplicas = m.nreplicas ∧
      ∃ info, m'.clients = m.clients ++ [info] := by
  have hextends := m.net.extends_responsePort (clientAddr m.clients.length)
  have hconsistent := h.consistent.responsePort (clientAddr m.clients.length)
  have hresponsePort := responsePorts_responsePort m.net (clientAddr m.clients.length)
  have hsource : ((m.net.responsePort (clientAddr m.clients.length)).2.findResponsePort
      (clientAddr m.clients.length)).isSome := by
    obtain ⟨q, hq, -⟩ := Option.map_eq_some_iff.mp hresponsePort
    exact Option.isSome_iff_exists.mpr ⟨q, hq⟩
  obtain ⟨p, hp, hconnected⟩ := countedLoop_ok
    (f := connect (clientAddr m.clients.length)) (n := m.nreplicas)
    (Connected.start (clientAddr m.clients.length) hconsistent)
    fun r hr p hp => hp.connect hsource ((hports r hr).mono hextends)
  refine ⟨_, congrArg (Except.map _) hp, ⟨hconnected.consistent, fun cid info hinfo => ?_⟩,
    hconnected.extends_.trans hextends, rfl, _, rfl⟩
  rcases getElem?_concat_eq_some.mp hinfo with hold | ⟨rfl, rfl⟩
  · exact (h.clients cid info hold).mono (hconnected.extends_.trans hextends)
  · refine ⟨?_, hconnected.length, hconnected.channel⟩
    obtain ⟨q, hq, hloc⟩ := Option.map_eq_some_iff.mp hresponsePort
    exact Option.map_eq_some_iff.mpr ⟨q, hconnected.extends_.responsePort _ q hq, hloc⟩

theorem Wired.addClient_error (h : m.Wired) (hport : ∃ r < m.nreplicas, ¬ HasReplica m.net r) :
    m.addClient = .error .nullDereference := by
  have hconsistent := h.consistent.responsePort (clientAddr m.clients.length)
  have hsource : ((m.net.responsePort (clientAddr m.clients.length)).2.findResponsePort
      (clientAddr m.clients.length)).isSome := by
    obtain ⟨q, hq, -⟩ := Option.map_eq_some_iff.mp
      (responsePorts_responsePort m.net (clientAddr m.clients.length))
    exact Option.isSome_iff_exists.mpr ⟨q, hq⟩
  have hloop := countedLoop_first_error (f := connect (clientAddr m.clients.length))
    hport (Connected.start (clientAddr m.clients.length) hconsistent)
    (fun r _ hr p hp => hp.connect hsource
      ((hasReplica_responsePort m.net _ r).mpr (not_not.mp hr)))
    (fun r _ hr p hp => hp.connect_error (mt (hasReplica_responsePort m.net _ r).mp hr))
  exact congrArg (Except.map _) hloop

/-! ### Any number of clients -/

/-- What holds before turn `k` of the outer loop. -/
structure Grown (m : ClientModel) (k : ℕ) (m' : ClientModel) : Prop where
  wired : m'.Wired
  extends_ : m'.net.Extends m.net
  nreplicas : m'.nreplicas = m.nreplicas
  clients : ∃ infos, m'.clients = m.clients ++ infos ∧ infos.length = k

theorem Wired.grown (h : m.Wired) : Grown m 0 m := ⟨h, .refl _, rfl, [], by simp⟩

theorem Grown.addClient (h : Grown m k m') (hports : ∀ r < m.nreplicas, HasReplica m.net r) :
    ∃ m'', m'.addClient = .ok m'' ∧ Grown m (k + 1) m'' := by
  obtain ⟨infos, hclients, hlength⟩ := h.clients
  obtain ⟨m'', hm'', hwired, hextends, hnreplicas, info, hinfo⟩ := h.wired.addClient fun r hr =>
    (hports r (h.nreplicas ▸ hr)).mono h.extends_
  refine ⟨m'', hm'', hwired, hextends.trans h.extends_, hnreplicas.trans h.nreplicas,
    infos ++ [info], ?_, ?_⟩
  · rw [hinfo, hclients, List.append_assoc]
  · rw [List.length_append, List.length_singleton, hlength]

theorem setNclients_of_lt (h : maxClients < n) :
    m.setNclients n = .error (.outOfRange "nclients out of range".toList) := if_pos h

theorem setNclients_of_le (h : n ≤ maxClients) : m.setNclients n =
    (countedLoop (fun m _ => m.addClient) (n - m.clients.length) m).map fun m =>
      { m with clients := m.clients.take n } := if_neg (Nat.not_lt.mpr h)

/-- The clients that `set_nclients` does not take away stay as they are. -/
theorem Wired.setNclients (h : m.Wired) (hn : n ≤ maxClients)
    (hports : m.clients.length < n → ∀ r < m.nreplicas, HasReplica m.net r) :
    ∃ m', m.setNclients n = .ok m' ∧ m'.Wired ∧ m'.net.Extends m.net ∧
      m'.nreplicas = m.nreplicas ∧ m'.clients.length = n := by
  obtain ⟨m', hm', hgrown⟩ := countedLoop_ok (f := fun m _ => ClientModel.addClient m)
    (n := n - m.clients.length) h.grown fun k hk m' hm' => hm'.addClient (hports (by omega))
  obtain ⟨infos, hclients, hlength⟩ := hgrown.clients
  have hset : m.setNclients n = .ok { m' with clients := m'.clients.take n } := by
    rw [setNclients_of_le hn, hm']
    rfl
  refine ⟨_, hset, ⟨hgrown.wired.consistent, ?_⟩, hgrown.extends_, hgrown.nreplicas, ?_⟩
  · intro cid info hinfo
    rw [List.getElem?_take, Option.ite_none_right_eq_some] at hinfo
    exact hgrown.wired.clients cid info hinfo.2
  · rw [List.length_take, hclients, List.length_append, hlength]
    omega

/-- **When `set_nclients` gets through**, for a client model that is wired: the number is not too
large, and if there are clients to be added each replica has its port. Otherwise it throws or
follows a null pointer. -/
theorem set_nclients_outcome (m : ClientModel) (hm : m.Wired) (n : ℕ) :
    (m.setNclients n = .error (.outOfRange "nclients out of range".toList) ↔ maxClients < n) ∧
    (m.setNclients n = .error .nullDereference ↔
      n ≤ maxClients ∧ m.clients.length < n ∧ ∃ r < m.nreplicas, ¬ HasReplica m.net r) ∧
    ((∃ m', m.setNclients n = .ok m') ↔
      n ≤ maxClients ∧ (m.clients.length < n → ∀ r < m.nreplicas, HasReplica m.net r)) := by
  rcases Nat.lt_or_ge maxClients n with hlt | hle
  · have hnle : ¬ n ≤ maxClients := Nat.not_le.mpr hlt
    rw [setNclients_of_lt hlt]
    simp [hlt, hnle]
  · have hnlt : ¬ maxClients < n := Nat.not_lt.mpr hle
    by_cases hports : m.clients.length < n → ∀ r < m.nreplicas, HasReplica m.net r
    · obtain ⟨m', hm', -⟩ := hm.setNclients hle hports
      have hnone : ¬ (n ≤ maxClients ∧ m.clients.length < n ∧
          ∃ r < m.nreplicas, ¬ HasReplica m.net r) := by
        rintro ⟨-, hgrows, r, hr, hmissing⟩
        exact hmissing (hports hgrows r hr)
      rw [hm']
      exact ⟨iff_of_false (by simp) hnlt, iff_of_false (by simp) hnone,
        iff_of_true ⟨m', rfl⟩ ⟨hle, hports⟩⟩
    · obtain ⟨hgrows, hmissing⟩ := Classical.not_imp.mp hports
      have hport : ∃ r < m.nreplicas, ¬ HasReplica m.net r := by
        simpa only [not_forall, exists_prop] using hmissing
      -- the first client that is added fails
      have hloop := countedLoop_error (f := fun m _ => ClientModel.addClient m)
        (P := fun _ m' => m' = m) (b := m) (i := 0) (n := n - m.clients.length)
        (Nat.sub_pos_of_lt hgrows) rfl (fun j hj => absurd hj (Nat.not_lt_zero j))
        fun m' hm' => by rw [hm']; exact hm.addClient_error hport
      have herror : m.setNclients n = .error .nullDereference := by
        rw [setNclients_of_le hle, hloop]
        rfl
      rw [herror]
      exact ⟨iff_of_false (by simp) hnlt, iff_of_true rfl ⟨hle, hgrows, hport⟩,
        iff_of_false (by simp) fun hok => hports hok.2⟩

/-- Two replicas, of which one has no port: the model may have no clients but no first one. -/
theorem set_nclients_outcome_missing : ∃ m : ClientModel, m.Wired ∧
    m.setNclients 0 ≠ .error .nullDereference ∧ m.setNclients 1 = .error .nullDereference := by
  let m : ClientModel := { net := ((({} : Registry).port (replicaAddr 0)).2), nreplicas := 2 }
  have hm : m.Wired := wired_of_nil (Registry.Consistent.empty.port _) rfl
  refine ⟨m, hm, fun hnull => ?_, ?_⟩
  · exact absurd ((set_nclients_outcome m hm 0).2.1.mp hnull).2.1 (Nat.not_lt_zero _)
  · exact (set_nclients_outcome m hm 1).2.1.mpr ⟨by decide, by decide, 1, by decide, by decide⟩

/-- **Clients come and go**: whatever numbers `set_nclients` is called with, none above the maximum,
it gets through; in the end there are as many clients as the last call asked for, all wired, and a
client that was there before has the response port and the channels that it had then, even if it
was taken away in between. -/
theorem set_nclients_again (m : ClientModel) (hm : m.Wired)
    (hports : ∀ r < m.nreplicas, HasReplica m.net r) (ns : List ℕ)
    (hns : ∀ n ∈ ns, n ≤ maxClients) :
    ∃ m', m.setNclientsAll ns = .ok m' ∧ m'.Wired ∧ m'.nreplicas = m.nreplicas ∧
      m'.clients.length = ns.getLast?.getD m.clients.length ∧
      ∀ (cid : ℕ) (info info' : ClientInfo), m.clients[cid]? = some info →
        m'.clients[cid]? = some info' → info' = info := by
  -- the network that is left grows out of the one before, and that is all that counts in the end
  have hall : ∃ m', m.setNclientsAll ns = .ok m' ∧ m'.Wired ∧ m'.net.Extends m.net ∧
      m'.nreplicas = m.nreplicas ∧ m'.clients.length = ns.getLast?.getD m.clients.length := by
    induction ns generalizing m with
    | nil => exact ⟨m, rfl, hm, .refl _, rfl, rfl⟩
    | cons n ns ih =>
      obtain ⟨m₁, hm₁, hwired, hextends, hnreplicas, hlength⟩ :=
        hm.setNclients (hns n (List.mem_cons_self ..)) fun _ => hports
      obtain ⟨m', hm', hwired', hextends', hnreplicas', hlength'⟩ := ih m₁ hwired
        (fun r hr => (hports r (hnreplicas ▸ hr)).mono hextends)
        fun n' hn' => hns n' (List.mem_cons_of_mem _ hn')
      refine ⟨m', ?_, hwired', hextends'.trans hextends, hnreplicas'.trans hnreplicas, ?_⟩
      · rw [setNclientsAll, hm₁]
        exact hm'
      · rw [hlength', List.getLast?_cons, hlength, Option.getD_some]
  obtain ⟨m', hm', hwired, hextends, hnreplicas, hlength⟩ := hall
  refine ⟨m', hm', hwired, hnreplicas, hlength, fun cid info info' hinfo hinfo' => ?_⟩
  have hnew := hwired.clients cid info' hinfo'
  rw [hnreplicas] at hnew
  exact hnew.ext ((hm.clients cid info hinfo).mono hextends)

/-- One replica and three clients, of which two are taken away and come back as they were. -/
theorem set_nclients_again_three : ∃ m m' : ClientModel, ∃ info,
    m.Wired ∧ m.clients.length = 3 ∧ m.setNclientsAll [1, 3] = .ok m' ∧ m'.Wired ∧
    m'.nreplicas = 1 ∧ m.clients[2]? = some info ∧ m'.clients[2]? = some info := by
  let m₀ : ClientModel := { net := ((({} : Registry).port (replicaAddr 0)).2), nreplicas := 1 }
  have hm₀ : m₀.Wired := wired_of_nil (Registry.Consistent.empty.port _) rfl
  have hports : ∀ r < m₀.nreplicas, HasReplica m₀.net r := by decide
  obtain ⟨m, -, hm, hextends, hnreplicas, hlength⟩ :=
    hm₀.setNclients (n := 3) (by decide) fun _ => hports
  obtain ⟨m', hm', hwired, hnreplicas', hlength', hkept⟩ := set_nclients_again m hm
    (fun r hr => (hports r (hnreplicas ▸ hr)).mono hextends) [1, 3] (by decide)
  have hinfo := List.getElem?_eq_getElem (l := m.clients) (i := 2) (by rw [hlength]; decide)
  have hinfo' := List.getElem?_eq_getElem (l := m'.clients) (i := 2)
    (by rw [hlength']; exact Nat.lt_succ_self 2)
  have heq := hkept 2 _ _ hinfo hinfo'
  exact ⟨m, m', _, hm, hlength, hm', hwired, hnreplicas'.trans hnreplicas, hinfo,
    hinfo'.trans (congrArg some heq)⟩

end ClientModel

end

end Service

end Traxos
