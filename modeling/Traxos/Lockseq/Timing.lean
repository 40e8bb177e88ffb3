import Traxos.Lockseq.Deployment

/-! # The clients' clocks

Every message that a client sends costs it `send_delay_`, so its counter `tries` never runs ahead of
the clock (`OnTime`). The counter is reset with every new request, and what it counts are the
transmissions of one request that are over. -/

namespace Traxos

namespace Lockseq

open Service Netsim

namespace Deployment

/-- The counter `tries` is not ahead of the time `now`: a transmission that is over has taken a
millisecond, and the one that has begun takes until `readyAt`. -/
def TriesOnTime (now readyAt : ℕ) (cl : Client) : Prop :=
  match cl.pc with
  | .send _ => cl.tries ≤ now
  | .receive _ => cl.tries + 1 ≤ readyAt
  | .backoff => cl.tries + 1 ≤ now
  | _ => True

/-- **The invariant of a client's clock**: a call is under way only after the delay of the last
transmission, while the client waits for a response. -/
structure OnTime (now : ℕ) (cl : Client) (l : Listener) : Prop where
  tries : TriesOnTime now l.readyAt cl
  receiving : l.receiving = true → l.readyAt ≤ now ∧ ∃ ph, cl.pc = .receive ph

section Clients

variable {now now' readyAt : ℕ} {cl : Client} {l : Listener} {ph : Phase}

theorem OnTime.mono (h : OnTime now cl l) (hle : now ≤ now') : OnTime now' cl l := by
  refine ⟨?_, fun hl => ⟨Nat.le_trans (h.receiving hl).1 hle, (h.receiving hl).2⟩⟩
  have htries := h.tries
  rw [TriesOnTime] at htries ⊢
  split at htries
  · exact Nat.le_trans htries hle
  · exact htries
  · exact Nat.le_trans htries hle
  · trivial

/-- A client that does not wait for a response has no call under way. -/
theorem OnTime.not_receiving (h : OnTime now cl l) (hpc : ∀ ph, cl.pc ≠ .receive ph) :
    l.receiving = false :=
  Bool.eq_false_iff.mpr fun hl => by
    obtain ⟨-, ph, hph⟩ := h.receiving hl
    exact hpc ph hph

theorem OnTime.of_not_receiving (h : TriesOnTime now l.readyAt cl) (hl : l.receiving = false) :
    OnTime now cl l :=
  ⟨h, fun hl' => absurd (hl.symm.trans hl') Bool.false_ne_true⟩

/-- A new request starts the counter at 0. -/
theorem onTime_nextStep (now readyAt : ℕ) (cl : Client) (ph : Phase) :
    TriesOnTime now readyAt (cl.nextStep ph) := Nat.zero_le _

theorem onTime_clearLoop (now readyAt : ℕ) (cfg : Config) (cl : Client) :
    TriesOnTime now readyAt (cl.clearLoop cfg) := by
  rw [Client.clearLoop]
  split <;> exact onTime_nextStep _ _ _ _

theorem onTime_writeLoop (now readyAt : ℕ) (cfg : Config) (cl : Client) :
    TriesOnTime now readyAt (cl.writeLoop cfg) := by
  rw [Client.writeLoop]
  split
  · exact onTime_nextStep _ _ _ _
  · exact onTime_clearLoop _ _ _ _

/-- The next attempt, when the last one is over. -/
theorem onTime_again (h : cl.tries + 1 ≤ now) (readyAt : ℕ) (ph : Phase) :
    TriesOnTime now readyAt (cl.again ph) :=
  Nat.le_trans (Nat.mod_le _ _) h

theorem onTime_retry (h : cl.tries + 1 ≤ now) (readyAt : ℕ) (ph : Phase) (randomReplica : ℕ) :
    TriesOnTime now readyAt (cl.retry ph randomReplica) :=
  Nat.le_trans (Nat.mod_le _ _) h

theorem onTime_onResponse (h : cl.tries + 1 ≤ now) (hready : now ≤ readyAt)
    (hpc : cl.pc = .receive ph) (cfg : Config) (cid : ℕ) (resp : Response) :
    TriesOnTime now readyAt (cl.onResponse cfg cid ph resp) := by
  unfold Client.onResponse
  split
  · rw [Client.onLock]
    split
    · exact onTime_writeLoop _ _ _ _
    split
    · trivial
    split
    · exact onTime_writeLoop _ _ _ _
    split
    · trivial
    · exact h
  · rw [Client.onWrite]
    split <;> trivial
  · rw [Client.onClear]
    split
    · trivial
    split
    · trivial
    split
    · exact onTime_nextStep _ _ _ _
    · trivial
  · rw [Client.onUnlock]
    split <;> trivial
  · rw [TriesOnTime, hpc]
    exact Nat.le_trans h hready

/-- Whatever message a client takes, its counter is not ahead of the clock. -/
theorem onTime_receive (h : cl.tries + 1 ≤ now) (hready : now ≤ readyAt)
    (hpc : cl.pc = .receive ph) (cfg : Config) (cid : ℕ) (msg : Response) (randomReplica : ℕ) :
    TriesOnTime now readyAt (cl.receive cfg cid ph msg randomReplica) := by
  rw [Client.receive]
  split
  · rw [TriesOnTime, hpc]
    exact Nat.le_trans h hready
  · exact onTime_retry h readyAt ph randomReplica
  · exact onTime_onResponse h hready hpc cfg cid _
  · exact onTime_retry h readyAt ph randomReplica

theorem onTime_wake {cfg : Config} {cl' : Client} (h : TriesOnTime now readyAt cl)
    (hwake : cl.wake cfg = some cl') : TriesOnTime now readyAt cl' := by
  rw [Client.wake] at hwake
  split at hwake
  · rename_i hpc
    obtain rfl := Option.some.inj hwake
    rw [TriesOnTime, hpc] at h
    exact onTime_again h readyAt _
  · obtain rfl := Option.some.inj hwake
    exact onTime_writeLoop _ _ _ _
  · obtain rfl := Option.some.inj hwake
    exact onTime_clearLoop _ _ _ _
  · cases hwake

end Clients

/-! ## Every step of the deployment -/

section Steps

variable {cfg : Config} {su : Setup} {s s' : State} {a : Action} {c : ℕ}

/-- The clocks of all clients. -/
def Timed (s : State) : Prop := ∀ c, OnTime s.now (s.clients c) (s.listeners c)

theorem timed_init : Timed (deployment cfg su).init := fun _ =>
  ⟨trivial, fun h => absurd h Bool.false_ne_true⟩

@[simp] theorem now_setClient (s : State) (c : ℕ) (cl : Client) (l : Listener) :
    (s.setClient c cl l).now = s.now := rfl

/-- The step of one client. -/
theorem Timed.setClient (h : Timed s) {cl : Client} {l : Listener} (hc : OnTime s.now cl l) :
    Timed (s.setClient c cl l) := by
  intro d
  show OnTime s.now (Function.update s.clients c cl d) (Function.update s.listeners c l d)
  by_cases hd : d = c
  · subst hd
    rw [Function.update_self, Function.update_self]
    exact hc
  · rw [Function.update_of_ne hd, Function.update_of_ne hd]
    exact h d

/-- A client that goes on has no call under way. -/
theorem Timed.finishClient (h : Timed s) {cl : Client}
    (hc : TriesOnTime s.now (s.now + minDelay cl.pc) cl) : Timed (s.finishClient c cl) :=
  h.setClient (.of_not_receiving hc rfl)

theorem now_netStep {net : NetState Request Channel Loc} {b : NetAction Request Channel Loc}
    (h : netStep wires s.requests b = some net) : s.now ≤ net.timers.now := by
  cases b with
  | send c m lost =>
    obtain rfl := Option.some.inj h
    cases lost <;> exact Nat.le_refl _
  | call d b =>
    obtain ⟨rc, -, rfl⟩ := Option.map_eq_some_iff.mp h
    rw [NetState.startDelay]
    split <;> exact Nat.le_refl _
  | fire i =>
    obtain ⟨⟨e, timers⟩, hfire, rfl⟩ := Option.map_eq_some_iff.mp h
    obtain ⟨before, t, after, -, -, -, rfl⟩ := Timers.exists_of_fire hfire
    rw [NetState.timers_happen]
    exact Nat.le_refl _
  | tick n =>
    obtain rfl := Option.some.inj h
    exact Nat.le_add_right _ _

/-- A step of the network of the requests. -/
theorem Timed.requests (h : Timed s) {net : NetState Request Channel Loc}
    (hnow : s.now ≤ net.timers.now) : Timed { s with requests := net } :=
  fun c => (h c).mono hnow

theorem now_reply (s : State) (r : ℕ) (req : Request) : (s.reply r req).2.now = s.now := by
  rw [State.reply]
  split <;> rfl

theorem Timed.reply (h : Timed s) (r : ℕ) (req : Request) : Timed (s.reply r req).2 := by
  rw [State.reply]
  split <;> exact h

theorem Timed.step (h : Timed s) (hstep : Deployment.step cfg su s a = some s') :
    Timed s' ∧ s.now ≤ s'.now := by
  cases a with
  | begin c gid x nvalues =>
    simp only [Deployment.step, Option.ite_none_right_eq_some, Option.some.injEq] at hstep
    obtain ⟨⟨-, hpc, -⟩, rfl⟩ := hstep
    exact ⟨h.setClient (.of_not_receiving (Nat.zero_le _)
      ((h c).not_receiving fun ph => by rw [hpc]; simp)), Nat.le_refl _⟩
  | send c lost =>
    simp only [Deployment.step] at hstep
    split at hstep
    · rename_i ph hpc
      obtain ⟨info, -, chan, -, net, hnet, hs'⟩ := by
        simpa only [State.sendRequest, Option.bind_eq_bind, Option.bind_eq_some_iff] using hstep
      obtain rfl := Option.some.inj hs'
      have hnow := now_netStep hnet
      have htries := (h c).tries
      rw [TriesOnTime, hpc] at htries
      refine ⟨(h.requests hnow).setClient (.of_not_receiving ?_
        ((h c).not_receiving fun ph => by rw [hpc]; simp)), hnow⟩
      -- the transmission takes until `readyAt`
      exact Nat.succ_le_succ htries
    · cases hstep
  | listen c =>
    simp only [Deployment.step] at hstep
    split at hstep
    · rename_i ph hpc
      simp only [Option.ite_none_right_eq_some, Option.map_eq_some_iff] at hstep
      obtain ⟨⟨-, hready⟩, net, -, rfl⟩ := hstep
      exact ⟨Timed.setClient (s := { s with responses := net }) h
        ⟨(h c).tries, fun _ => ⟨hready, ph, hpc⟩⟩, Nat.le_refl _⟩
    · cases hstep
  | resume c =>
    simp only [Deployment.step, Option.ite_none_right_eq_some, Option.map_eq_some_iff] at hstep
    obtain ⟨-, net, -, rfl⟩ := hstep
    exact ⟨h, Nat.le_refl _⟩
  | receive c randomReplica =>
    simp only [Deployment.step] at hstep
    split at hstep
    · rename_i ph hpc
      simp only [Option.ite_none_right_eq_some, Option.map_eq_some_iff] at hstep
      obtain ⟨-, m, hm, rfl⟩ := hstep
      -- the call has returned, so it was under way
      have hreceiving : (s.listeners c).receiving = true := by
        obtain ⟨info, -, hresult⟩ := by
          simpa only [State.received, Option.bind_eq_bind, Option.bind_eq_some_iff] using hm
        rw [Listener.result, Option.ite_none_right_eq_some] at hresult
        exact hresult.1
      have htries := (h c).tries
      rw [TriesOnTime, hpc] at htries
      have hover : (s.clients c).tries + 1 ≤ s.now :=
        Nat.le_trans htries ((h c).receiving hreceiving).1
      exact ⟨h.finishClient (onTime_receive hover (Nat.le_add_right _ _) hpc cfg c _ _),
        Nat.le_refl _⟩
    · cases hstep
  | timeout c randomReplica =>
    simp only [Deployment.step] at hstep
    split at hstep
    · rename_i ph hpc
      simp only [Option.ite_none_right_eq_some, Option.some.injEq] at hstep
      obtain ⟨⟨hready, -⟩, rfl⟩ := hstep
      have htries := (h c).tries
      rw [TriesOnTime, hpc] at htries
      have hover : (s.clients c).tries + 1 ≤ s.now := Nat.le_trans htries hready
      generalize (s.callReceive su c (.cancel (s.listeners c).calls)).getD s.responses = net
      exact ⟨Timed.finishClient (s := { s with responses := net }) h
        (onTime_retry hover _ ph randomReplica), Nat.le_refl _⟩
    · cases hstep
  | wake c =>
    simp only [Deployment.step, Option.ite_none_right_eq_some, Option.map_eq_some_iff] at hstep
    obtain ⟨-, cl, hwake, rfl⟩ := hstep
    refine ⟨h.setClient (.of_not_receiving (onTime_wake (h c).tries hwake) ?_), Nat.le_refl _⟩
    refine (h c).not_receiving fun ph hpc => ?_
    rw [Client.wake, hpc] at hwake
    cases hwake
  | serve r =>
    simp only [Deployment.step, Option.ite_none_right_eq_some, Option.map_eq_some_iff] at hstep
    obtain ⟨-, net, hnet, rfl⟩ := hstep
    obtain ⟨port, -, hnet⟩ := Option.bind_eq_some_iff.mp hnet
    have hnow := now_netStep hnet
    exact ⟨h.requests hnow, hnow⟩
  | resumeServer r =>
    simp only [Deployment.step, Option.ite_none_right_eq_some, Option.map_eq_some_iff] at hstep
    obtain ⟨-, net, hnet, rfl⟩ := hstep
    obtain ⟨port, -, hnet⟩ := Option.bind_eq_some_iff.mp hnet
    have hnow := now_netStep hnet
    exact ⟨h.requests hnow, hnow⟩
  | handle r lost =>
    obtain ⟨⟨m, found⟩, -, replyChan, -, net, -, hs'⟩ := by
      simpa only [Deployment.step, Option.bind_eq_bind, Option.bind_eq_some_iff] using hstep
    obtain rfl := Option.some.inj hs'
    exact ⟨h.reply r m.message, Nat.le_of_eq (now_reply s r m.message).symm⟩
  | fireRequest i =>
    obtain ⟨net, hnet, rfl⟩ := Option.map_eq_some_iff.mp hstep
    have hnow := now_netStep hnet
    exact ⟨h.requests hnow, hnow⟩
  | fireResponse i =>
    obtain ⟨net, -, rfl⟩ := Option.map_eq_some_iff.mp hstep
    exact ⟨h, Nat.le_refl _⟩
  | tick n =>
    obtain ⟨requests, hrequests, responses, -, hs'⟩ := by
      simpa only [Deployment.step, Option.bind_eq_bind, Option.bind_eq_some_iff] using hstep
    obtain rfl := Option.some.inj hs'
    have hnow := now_netStep hrequests
    exact ⟨Timed.requests (s := { s with responses := responses }) h hnow, hnow⟩

theorem timed_of_trace {tr : List (State × Action)} (htr : (deployment cfg su).Trace tr s) :
    Timed s :=
  htr.invariant (I := fun _ s => Timed s) timed_init fun _ _ _ _ hs hstep => (hs.step hstep).1

end Steps

end Deployment

end Lockseq

end Traxos
