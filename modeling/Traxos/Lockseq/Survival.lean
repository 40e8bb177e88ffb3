import Traxos.Lockseq.FirstTry

/-! # Which answers make a client throw

Of the throws of the client coroutine those in the write and clear phases are never reached: their
requests are always carried out. That of the unlock phase is guarded by `tries == 0`, and the first
try of an unlock succeeds (`FirstUnlock`). The second one of the lock phase is reached whenever a
client finds the lock taken by another client (`FindsOther`): the condition under the comment that
one must not be waiting for oneself is the wrong way round. So clients survive exactly as long as
this does not happen (`clients_survive_iff`, `waiting_client_throws`). -/

namespace Traxos

namespace Lockseq

open Service

/-- In the step a client in its lock phase accepts the answer `no_match` with an `actual` value that
does not start with its own key: another client has the lock. -/
def FindsOther (s : State) : Action → Prop
  | .receive c r _ =>
    (s.clients c).pc = .receive .lock ∧
      ((s.net.replies c r).head?.any fun msg =>
        match receiveResponse .cas (s.clients c).serial msg with
        | .accepted (.cas resp) =>
          resp.errcode = .noMatch ∧ (clientKeyPrefix c).isPrefixOf resp.actual = false
        | _ => false) = true
  | _ => False

instance (s : State) : (a : Action) → Decidable (FindsOther s a)
  | .receive _ _ _ => inferInstanceAs (Decidable (_ ∧ _))
  | .begin _ _ _ _ => inferInstanceAs (Decidable False)
  | .send _ _ => inferInstanceAs (Decidable False)
  | .timeout _ _ => inferInstanceAs (Decidable False)
  | .wake _ => inferInstanceAs (Decidable False)
  | .handle _ _ _ => inferInstanceAs (Decidable False)
  | .dropRequest _ _ _ => inferInstanceAs (Decidable False)
  | .dropReply _ _ _ => inferInstanceAs (Decidable False)

/-- The client does not throw because the lock is taken. -/
def NoOther (v v' : View) : Prop :=
  v.loc.pc = .receive .lock → v'.loc.pc ≠ .thrown .lock .noMatch

section Steps

variable {cfg : Config} {c : ℕ} {s s' : State} {a : Action}

/-- The second throw of the lock phase needs the answer of `FindsOther`. -/
theorem Client.pc_onLock {cl : Client} {resp : CasResponse}
    (h : (cl.onLock cfg c resp).pc = .thrown .lock .noMatch) :
    resp.errcode = .noMatch ∧ (clientKeyPrefix c).isPrefixOf resp.actual = false := by
  have hwrite : ∀ lockVersion, (cl.writePhase cfg lockVersion).pc ≠ .thrown .lock .noMatch := by
    intro lockVersion hpc
    rcases Client.pc_writeLoop cfg { cl with lockVersion := lockVersion, n := 0 } with hs | hs | hs
    · cases hs.symm.trans hpc
    · cases hs.symm.trans hpc
    · cases hs.symm.trans hpc
  unfold onLock at h
  split at h
  · exact absurd h (hwrite _)
  split at h
  · rename_i hne
    simp only [Pc.thrown.injEq, true_and] at h
    exact absurd h hne
  rename_i hno
  split at h
  · exact absurd h (hwrite _)
  split at h
  · -- the throw under the comment that we must not be waiting for ourselves
    rename_i hprefix
    exact ⟨not_not.mp hno, by simpa using hprefix⟩
  · cases h

/-- A step that is not of `FindsOther` does not make any client throw because the lock is taken. -/
theorem noOther_of_step (hstep : step cfg s a = some s') (hC : ¬ FindsOther s a) :
    NoOther (s.view cfg c) (s'.view cfg c) := by
  intro hpc hthrown
  have hacted := acted_of_step hstep c
  replace hpc : (s.clients c).pc = .receive .lock := hpc
  replace hthrown : (s'.clients c).pc = .thrown .lock .noMatch := hthrown
  generalize s'.clients c = cl at hacted hthrown
  -- only a response accepted in the lock phase can make the client throw there
  cases hacted with
  | nothing => cases hpc.symm.trans hthrown
  | begin => cases hthrown
  | send => cases hthrown
  | timeout => cases hthrown
  | wake hwake =>
    rw [Client.wake_of_receive hpc] at hwake
    cases hwake
  | @receive ph r randomReplica msg hpc' hhead =>
    obtain rfl := Pc.receive.inj (hpc.symm.trans hpc')
    unfold Client.receive at hthrown
    cases hreceived : receiveResponse Phase.lock.kind (s.clients c).serial msg with
    | stale =>
      rw [hreceived] at hthrown
      cases hpc.symm.trans hthrown
    | redirected replicaid =>
      rw [hreceived] at hthrown
      cases hthrown
    | unexpected =>
      rw [hreceived] at hthrown
      cases hthrown
    | accepted resp =>
      rw [hreceived] at hthrown
      cases resp with
      | cas resp =>
        refine hC ⟨hpc, ?_⟩
        rw [hhead, Option.any_some]
        show (match receiveResponse Phase.lock.kind (s.clients c).serial msg with
          | .accepted (.cas resp) => _ | _ => _) = true
        rw [hreceived]
        exact decide_eq_true (Client.pc_onLock hthrown)
      | _ => cases hpc.symm.trans hthrown

/-- A client that has thrown does nothing more. -/
theorem thrown_of_step (hstep : step cfg s a = some s') {ph : Phase} {e : Errc}
    (hpc : (s.clients c).pc = .thrown ph e) : (s'.clients c).pc = .thrown ph e := by
  have hacted := acted_of_step hstep c
  generalize s'.clients c = cl at hacted
  cases hacted with
  | nothing => exact hpc
  | begin hpc' => cases hpc.symm.trans hpc'
  | send hpc' => cases hpc.symm.trans hpc'
  | timeout hpc' => cases hpc.symm.trans hpc'
  | receive hpc' => cases hpc.symm.trans hpc'
  | wake hwake => simp [Client.wake, hpc] at hwake

/-- A value that names a client starts with the client's key. -/
theorem Named.isPrefixOf {cl : Client} (h : Named c cl) :
    (clientKeyPrefix c).isPrefixOf cl.value = true := by
  obtain ⟨l, hl⟩ := h
  rw [hl, List.isPrefixOf_iff_prefix]
  exact List.prefix_append _ _

/-- A client whose lock is taken throws. -/
theorem thrown_of_findsOther (hstep : step cfg s a = some s') (hfinds : FindsOther s a)
    (hnamed : ∀ c, (s.clients c).pc.mode ≠ .idle → Named c (s.clients c)) :
    ∃ c, (s'.clients c).pc = .thrown .lock .noMatch := by
  cases a with
  | receive c r randomReplica =>
    obtain ⟨hpc, hany⟩ := hfinds
    have hname := hnamed c (by simp [hpc])
    simp only [step, hpc] at hstep
    split at hstep
    · rename_i htake
      rename_i ph msg net hph
      obtain rfl := Pc.receive.inj hph
      simp only [Option.ite_none_right_eq_some, Option.some.injEq] at hstep
      obtain ⟨-, rfl⟩ := hstep
      obtain ⟨rest, hreply, -⟩ := Network.takeReply_eq_some htake
      rw [hreply, List.head?_cons, Option.any_some] at hany
      refine ⟨c, ?_⟩
      show (Function.update s.clients c _ c).pc = _
      rw [Function.update_self]
      split at hany
      · rename_i resp hreceived
        obtain ⟨hno, hprefix⟩ := of_decide_eq_true hany
        have hreceived' : receiveResponse Phase.lock.kind (s.clients c).serial msg = _ := hreceived
        -- a value that does not start with the client's key is not its own
        have hother : resp.actual ≠ (s.clients c).value := by
          intro heq
          rw [heq, hname.isPrefixOf] at hprefix
          cases hprefix
        simp only [Client.receive, hreceived', Client.onResponse, Client.onLock, hno, hprefix,
          hother]
        simp
      · cases hany
    · cases hstep
  | _ => exact hfinds.elim

/-- After it has thrown, it stays so. -/
theorem exists_thrown_of_trace {tr : Steps} (htr : (machine cfg).Trace tr s) {p : State × Action}
    (hp : p ∈ tr) (hfinds : FindsOther p.1 p.2) :
    ∃ c, (s.clients c).pc = .thrown .lock .noMatch := by
  induction htr with
  | init => cases hp
  | snoc htr hstep ih =>
    rcases List.mem_append.mp hp with hp | hp
    · obtain ⟨c, hc⟩ := ih hp
      exact ⟨c, thrown_of_step hstep hc⟩
    · obtain rfl := List.mem_singleton.mp hp
      obtain ⟨sh, -, hlocking⟩ := locking_of_trace htr
      exact thrown_of_findsOther hstep hfinds fun c => (hlocking.client c).named

end Steps

/-! ## The first try of an unlock -/

/-- Before the current removal of the unlock phase is handled the client holds its lock; its answer
is `ok`. -/
def FirstUnlock (m : Store) (v : View) : Prop :=
  FirstTry .unlock (Held m v.loc) (fun resp => responseErrcode resp = .ok) v

/-- The client has not thrown, and will not in its unlock phase. -/
structure Alive (m : Store) (v : View) : Prop where
  pc : ∀ ph e, v.loc.pc ≠ .thrown ph e
  firstUnlock : FirstUnlock m v

section Alive

variable {cfg : Config} {c : ℕ} {sh sh' : Shared} {m m' : Store} {v v' : View} {ph : Phase}
  {cl : Client} {req : Request} {rest : List Request} {answer : List Response}

/-- A client that is neither sending nor waiting in its unlock phase. -/
theorem firstUnlock_of_mode (hmode : v.loc.pc.mode ≠ .busy .unlock) : FirstUnlock m v := by
  refine FirstTry.of_pc (fun hpc => hmode ?_) fun hpc => hmode ?_
  · rw [hpc]
    rfl
  · rw [hpc]
    rfl

section Loops

variable {replies : List Response} {requests : List Request}

/-- The next step of a client that holds its lock. -/
theorem Alive.nextStep (hheld : Held m cl)
    (hsettled : ∀ a ∈ (View.mk cl replies requests).serials, a = cl.serial) (ph : Phase) :
    Alive m ⟨cl.nextStep ph, replies, requests⟩ where
  pc := fun _ _ => by simp [Client.nextStep]
  firstUnlock := FirstTry.nextStep (v := ⟨cl, replies, requests⟩) hsettled rfl rfl fun _ => hheld

theorem Alive.clearLoop (hheld : Held m cl)
    (hsettled : ∀ a ∈ (View.mk cl replies requests).serials, a = cl.serial) :
    Alive m ⟨cl.clearLoop cfg, replies, requests⟩ := by
  unfold Client.clearLoop
  split
  · exact Alive.nextStep hheld hsettled .clear
  · exact Alive.nextStep hheld hsettled .unlock

theorem Alive.writeLoop (hheld : Held m cl)
    (hsettled : ∀ a ∈ (View.mk cl replies requests).serials, a = cl.serial) :
    Alive m ⟨cl.writeLoop cfg, replies, requests⟩ := by
  unfold Client.writeLoop
  split
  · exact Alive.nextStep hheld hsettled .write
  · exact Alive.clearLoop hheld hsettled

end Loops

/-- A response to the current request. -/
theorem Alive.accept (h : Alive m v) (hlock : LockInv c m v) (hpc : v.loc.pc = .receive ph)
    {resp : Response} {rest : List Response} (hreply : v.replies = resp :: rest)
    (hserial : resp.messageSerial = v.loc.serial)
    (hother : NoOther v ⟨v.loc.onResponse cfg c ph resp, rest, v.requests⟩) :
    Alive m ⟨v.loc.onResponse cfg c ph resp, rest, v.requests⟩ := by
  have hmem : resp ∈ v.replies := hreply ▸ List.mem_cons_self
  have hb := hlock.busy (show v.loc.pc.mode = .busy ph by rw [hpc]; rfl)
  have hreacts : Reacts cfg c m v.loc ph resp (v.loc.onResponse cfg c ph resp) :=
    hb.reacts hmem hserial
  generalize v.loc.onResponse cfg c ph resp = loc at hreacts hother ⊢
  cases hreacts with
  | @obtained resp howns =>
    have hheld : Held m { v.loc with lockVersion := resp.version, n := 0 } := howns
    exact Alive.writeLoop hheld (hb.settled_of_head hreply hserial _)
  | refused =>
    -- the throw that the hypothesis excludes
    exact absurd rfl (hother hpc)
  | delayed => exact ⟨fun _ _ => by simp, firstUnlock_of_mode (by simp)⟩
  | written => exact ⟨fun _ _ => by simp, firstUnlock_of_mode (by simp)⟩
  | cleared => exact ⟨fun _ _ => by simp, firstUnlock_of_mode (by simp)⟩
  | ended => exact Alive.nextStep hb.secured (hb.settled_of_head hreply hserial _) .unlock
  | failed herr htries =>
    -- not reached: the answer to the only transmission is `ok`
    exact absurd (FirstTry.accept h.firstUnlock hpc htries hmem hserial) herr
  | released => exact ⟨fun _ _ => by simp, firstUnlock_of_mode (by simp)⟩

/-- The end of a delay within a sequence. -/
theorem LockInv.alive_wake (h : LockInv c m v) {loc : Client} (hwake : v.loc.wake cfg = some loc) :
    Alive m ⟨loc, v.replies, v.requests⟩ := by
  unfold Client.wake at hwake
  split at hwake
  · obtain rfl := Option.some.inj hwake
    exact ⟨fun _ _ => by simp [Client.again], firstUnlock_of_mode (by simp [Client.again])⟩
  · rename_i hpc
    obtain rfl := Option.some.inj hwake
    have hrest := h.resting (by rw [hpc]; rfl)
    exact Alive.writeLoop hrest.held hrest.settled
  · rename_i hpc
    obtain rfl := Option.some.inj hwake
    have hrest := h.resting (by rw [hpc]; rfl)
    exact Alive.clearLoop hrest.held hrest.settled
  · cases hwake

/-- The leader handles a request of the client. -/
theorem Alive.handle (h : Alive m v) (hlock : LockInv c m v) (hhandled : Handled m v req)
    (hreq : v.requests = req :: rest) (hanswer : answer = [] ∨ answer = [req.answer m]) :
    Alive (m.apply (req.change m)) ⟨v.loc, v.replies ++ answer, rest⟩ where
  pc := h.pc
  firstUnlock := by
    refine FirstTry.handle h.firstUnlock hreq hanswer ?_ ?_
    · -- requests of earlier steps leave the lock alone
      intro hmode hserial hheld
      cases hhandled with
      | noop happly => rwa [happly]
      | rewrite _ _ _ happly =>
        rw [happly, Held, Owns, entry_lockKey_write_valueKey]
        exact hheld
      | release _ _ hcurrent =>
        rw [hcurrent] at hserial
        exact absurd (v.loc.messageSerial_request .unlock) hserial
      | write hmode' => simp [hmode] at hmode'
      | clear hmode' => simp [hmode] at hmode'
      | acquire hmode' => simp [hmode] at hmode'
    · -- the current removal finds the lock held and gives it back
      intro hmode hserial hheld
      have hmem : req ∈ v.requests := hreq ▸ List.mem_cons_self
      obtain rfl := (hlock.busy hmode).current req hmem hserial
      rw [(apply_unlock hheld).2.1]
      rfl

/-- The leader handles a request of another client. -/
theorem Alive.other {u : View} (h : Alive m u) (hhandled : Handled m v req)
    (hne : u.loc.pc.mode ≠ .idle → v.loc.pc.mode ≠ .idle → v.loc.value ≠ u.loc.value) :
    Alive (m.apply (req.change m)) u where
  pc := h.pc
  firstUnlock := by
    refine FirstTry.imp h.firstUnlock (fun hmode hheld => ?_) fun _ _ hQ => hQ
    exact (hhandled.quiet (hne (by simp [hmode]))).owns.mpr hheld

/-- An attempt that yielded no response. -/
theorem alive_retry (hpc : v.loc.pc = .receive ph) {leader randomReplica : ℕ}
    {replies : List Response} (hnowrap : NoWrap .unlock v
      { v with
        loc := ({ v.loc with leader := leader }).retry ph randomReplica, replies := replies }) :
    Alive m ⟨({ v.loc with leader := leader }).retry ph randomReplica, replies, v.requests⟩ where
  pc := fun _ _ => by simp [Client.retry, Client.again]
  firstUnlock := by
    by_cases hph : ph = .unlock
    · -- the counter has not wrapped round, so the next attempt is no first try
      subst hph
      exact FirstTry.of_tries (hnowrap hpc rfl)
    · exact firstUnlock_of_mode (by simp [Client.retry, Client.again, hph])

/-- A transmission. -/
theorem Alive.send (h : Alive m v) (hpc : v.loc.pc = .send ph) {sent : List Request}
    (hsent : sent = [] ∨ sent = [v.loc.request ph]) :
    Alive m ⟨{ v.loc with pc := .receive ph }, v.replies, v.requests ++ sent⟩ where
  pc := fun _ _ => by simp
  firstUnlock := FirstTry.send h.firstUnlock hpc hsent

/-- **Every move keeps all clients alive**, unless it wraps the retry counter of an unlock phase or
finds a lock taken. -/
theorem alive_move {views : ℕ → View} (h : ∀ d, Alive sh.store (views d))
    (hlocking : Locking sh views) (hmove : Move cfg c sh (views c) sh' v')
    (hnowrap : NoWrap .unlock (views c) v') (hother : NoOther (views c) v') :
    ∀ d, Alive sh'.store (Function.update views c v' d) := by
  have hc := h c
  have hlock := hlocking.client c
  rw [Function.forall_update_iff views fun _ v => Alive sh'.store v]
  cases hmove with
  | begin hpc =>
    refine ⟨⟨fun _ _ => by simp [Client.begin], ?_⟩, fun d _ => h d⟩
    exact firstUnlock_of_mode (by simp [Client.begin])
  | send hpc hsent => exact ⟨hc.send hpc hsent, fun d _ => h d⟩
  | retry hpc => exact ⟨alive_retry hpc hnowrap, fun d _ => h d⟩
  | accept hpc hreply hserial =>
    exact ⟨hc.accept hlock hpc hreply hserial hother, fun d _ => h d⟩
  | wake hwake => exact ⟨hlock.alive_wake hwake, fun d _ => h d⟩
  | handle hreq hanswer =>
    -- the other clients have other values, so they notice nothing
    have hhandled := hlock.handled (fun _ _ he => hlocking.value_ne_nil he) hreq
    refine ⟨hc.handle hlock hhandled hreq hanswer, fun d hd => ?_⟩
    refine (h d).other hhandled fun hdmode hcmode hvalue => hd ?_
    exact ((hlocking.client d).named hdmode).eq (hlock.named hcmode) hvalue.symm
  | lose hreplies hrequests =>
    exact ⟨⟨hc.pc, FirstTry.lose hc.firstUnlock hreplies hrequests⟩, fun d _ => h d⟩

theorem alive_init (d : ℕ) : Alive Shared.init.store ((machine cfg).init.view cfg d) where
  pc := fun _ _ hpc => by cases hpc
  firstUnlock := firstUnlock_of_mode fun hmode => by cases hmode

theorem alive_of_trace {tr : Steps} {s : State} (htr : (machine cfg).Trace tr s)
    (hother : ∀ p ∈ tr, ¬ FindsOther p.1 p.2) (hretries : ∀ p ∈ tr, ¬ Exhausts .unlock p.1 p.2) :
    ∃ sh, Simulates cfg tr s sh ∧ Locking sh (s.view cfg) ∧ ∀ d, Alive sh.store (s.view cfg d) := by
  refine exchange_invariant (C := fun v v' => NoWrap .unlock v v' ∧ NoOther v v')
    (I := fun sh views => Locking sh views ∧ ∀ d, Alive sh.store (views d))
    ⟨locking_init cfg, alive_init⟩ ?_ htr ?_
  · rintro c sh views sh' v' ⟨hlocking, halive⟩ hmove ⟨hnowrap, hfinds⟩
    exact ⟨hlocking.move hmove, alive_move halive hlocking hmove hnowrap hfinds⟩
  · intro p hp s' c hstep
    exact ⟨noWrap_of_step hstep (hretries p hp), noOther_of_step hstep (hother p hp)⟩

end Alive

/-- **When clients survive.** In a run in which no removal of an unlock phase fails `2 ^ 32` times,
no client throws exactly if no client finds a lock taken by another one. -/
theorem clients_survive_iff (cfg : Config) (tr : Steps) (s : State) (htr : (machine cfg).Trace tr s)
    (hretries : ∀ p ∈ tr, ¬ Exhausts .unlock p.1 p.2) :
    (∀ c ph errcode, (s.clients c).pc ≠ .thrown ph errcode) ↔ ∀ p ∈ tr, ¬ FindsOther p.1 p.2 := by
  constructor
  · intro hsurvive p hp hfinds
    obtain ⟨c, hc⟩ := exists_thrown_of_trace htr hp hfinds
    exact hsurvive c _ _ hc
  · intro hother c
    obtain ⟨sh, -, -, halive⟩ := alive_of_trace htr hother hretries
    exact (halive c).pc

/-- Two clients, one after the other; the first one's first reply is lost, and it learns from a
`no_match` that it has the lock. -/
theorem clients_survive_iff_lost_reply : ∃ tr s,
    (machine (.oneReplica 2 1 1 (by decide) (by decide) (by decide))).Trace tr s ∧
      (s.clients 1).pc = .send .write ∧ ∀ c ph errcode, (s.clients c).pc ≠ .thrown ph errcode := by
  obtain ⟨tr, s, htr, hpc, hother, hretries⟩ := Machine.exists_trace_of_record
    (M := machine (.oneReplica 2 1 1 (by decide) (by decide) (by decide)))
    [.begin 0 0 5 1, .send 0 false, .handle 0 0 true, .timeout 0 0, .send 0 false,
      .handle 0 0 false, .receive 0 0 0, .send 0 false, .handle 0 0 false, .receive 0 0 0, .wake 0,
      .send 0 false, .handle 0 0 false, .begin 1 0 6 1, .send 1 false, .handle 0 1 false,
      .receive 1 0 0]
    (P := fun tr s => (s.clients 1).pc = .send .write ∧ (∀ p ∈ tr, ¬ FindsOther p.1 p.2) ∧
      ∀ p ∈ tr, ¬ Exhausts .unlock p.1 p.2) (by decide)
  exact ⟨tr, s, htr, hpc, (clients_survive_iff _ tr s htr hretries).mpr hother⟩

/-- **A client that finds the lock taken throws**: client 1 asks while client 0 has the lock. -/
theorem waiting_client_throws : ∃ cfg tr s c ph errcode, (machine cfg).Trace tr s ∧
    (s.clients c).pc = .thrown ph errcode := by
  obtain ⟨tr, s, htr, hpc⟩ := Machine.exists_trace_of_record
    (M := machine (.oneReplica 2 1 1 (by decide) (by decide) (by decide)))
    [.begin 0 0 5 1, .send 0 false, .handle 0 0 false, .begin 1 0 6 1, .send 1 false,
      .handle 0 1 false, .receive 1 0 0]
    (P := fun _ s => (s.clients 1).pc = .thrown .lock .noMatch) (by decide)
  exact ⟨_, tr, s, 1, .lock, .noMatch, htr, hpc⟩

end Lockseq

end Traxos
