import Traxos.Lockseq.Progress

/-! # First tries

In the clear and unlock phases a client reads more out of a response when `tries` is 0: it takes it
for the answer to the only transmission of the current request. That is sound as long as the counter
does not wrap round (`Exhausts`): then nothing of the current step was in flight before the first
transmission, and at most one message is before the first timeout (`FirstTry`). -/

namespace Traxos

namespace Lockseq

open Service

/-- The step ends an attempt of phase `ph` without a response, and `++tries` wraps round to 0: the
`2 ^ 32`-th attempt of one request has failed. -/
def Exhausts (ph : Phase) (s : State) : Action → Prop
  | .timeout c _ => (s.clients c).pc = .receive ph ∧ ((s.clients c).tries + 1) % 2 ^ 32 = 0
  | .receive c r _ =>
    (s.clients c).pc = .receive ph ∧ ((s.clients c).tries + 1) % 2 ^ 32 = 0 ∧
      ((s.net.replies c r).head?.any fun msg =>
        (receiveResponse ph.kind (s.clients c).serial msg).isNullopt) = true
  | _ => False

instance (ph : Phase) (s : State) : (a : Action) → Decidable (Exhausts ph s a)
  | .timeout _ _ => inferInstanceAs (Decidable (_ ∧ _))
  | .receive _ _ _ => inferInstanceAs (Decidable (_ ∧ _ ∧ _))
  | .begin _ _ _ _ => inferInstanceAs (Decidable False)
  | .send _ _ => inferInstanceAs (Decidable False)
  | .wake _ => inferInstanceAs (Decidable False)
  | .handle _ _ _ => inferInstanceAs (Decidable False)
  | .dropRequest _ _ _ => inferInstanceAs (Decidable False)
  | .dropReply _ _ _ => inferInstanceAs (Decidable False)

/-- The counter does not wrap round when the client sends again. -/
def NoWrap (ph : Phase) (v v' : View) : Prop :=
  v.loc.pc = .receive ph → v'.loc.pc = .send ph → (v.loc.tries + 1) % 2 ^ 32 ≠ 0

section Responses

variable (cfg : Config) (cl : Client)

/-- The loops of the write and clear phases go on to a step of a later phase. -/
theorem Client.pc_clearLoop : (cl.clearLoop cfg).pc = .send .clear ∨
    (cl.clearLoop cfg).pc = .send .unlock := by
  unfold clearLoop
  split
  · exact Or.inl rfl
  · exact Or.inr rfl

theorem Client.pc_writeLoop : (cl.writeLoop cfg).pc = .send .write ∨
    (cl.writeLoop cfg).pc = .send .clear ∨ (cl.writeLoop cfg).pc = .send .unlock := by
  unfold writeLoop
  split
  · exact Or.inl rfl
  · exact Or.inr (cl.pc_clearLoop cfg)

theorem Client.pc_writePhase_ne (lockVersion : ℤ) :
    (cl.writePhase cfg lockVersion).pc ≠ .send .lock := by
  intro hpc
  rcases Client.pc_writeLoop cfg { cl with lockVersion := lockVersion, n := 0 } with h | h | h
  · cases h.symm.trans hpc
  · cases h.symm.trans hpc
  · cases h.symm.trans hpc

/-- After a response a client does not send the same request again. -/
theorem Client.pc_onResponse_ne {cid : ℕ} {ph : Phase} {resp : Response}
    (hpc : cl.pc = .receive ph) : (cl.onResponse cfg cid ph resp).pc ≠ .send ph := by
  unfold onResponse
  split
  · unfold onLock
    split
    · exact cl.pc_writePhase_ne cfg _
    split
    · simp
    split
    · exact cl.pc_writePhase_ne cfg _
    split <;> simp
  · unfold onWrite
    split <;> simp
  · unfold onClear
    split
    · simp
    split
    · simp
    split <;> simp [nextStep]
  · unfold onUnlock
    split <;> simp
  · simp [hpc]

end Responses

section Steps

variable {cfg : Config} {c : ℕ} {s s' : State} {a : Action} {ph : Phase}

/-- A client in its loop does not wake up. -/
theorem Client.wake_of_receive {cl : Client} (hpc : cl.pc = .receive ph) : cl.wake cfg = none := by
  simp [wake, hpc]

/-- A step that is not the end of the last attempt does not wrap the counter of any client. -/
theorem noWrap_of_step (hstep : step cfg s a = some s') (hC : ¬ Exhausts ph s a) :
    NoWrap ph (s.view cfg c) (s'.view cfg c) := by
  intro hpc hsend hwrap
  have hacted := acted_of_step hstep c
  replace hpc : (s.clients c).pc = .receive ph := hpc
  replace hsend : (s'.clients c).pc = .send ph := hsend
  generalize s'.clients c = cl at hacted hsend
  -- only an attempt that yields no response is followed by a transmission in the same phase
  cases hacted with
  | nothing => cases hpc.symm.trans hsend
  | begin hpc' => cases hpc.symm.trans hpc'
  | send hpc' => cases hpc.symm.trans hpc'
  | timeout => exact hC ⟨hpc, hwrap⟩
  | wake hwake =>
    rw [Client.wake_of_receive hpc] at hwake
    cases hwake
  | @receive ph' r randomReplica msg hpc' hhead =>
    obtain rfl := Pc.receive.inj (hpc.symm.trans hpc')
    have hexhausts : (receiveResponse ph.kind (s.clients c).serial msg).isNullopt ≠ true := by
      intro hnull
      refine hC ⟨hpc, hwrap, ?_⟩
      rw [hhead, Option.any_some, hnull]
    unfold Client.receive at hsend
    cases hreceived : receiveResponse ph.kind (s.clients c).serial msg with
    | stale =>
      rw [hreceived] at hsend
      cases hpc.symm.trans hsend
    | redirected replicaid => exact hexhausts (by rw [hreceived]; rfl)
    | accepted resp =>
      rw [hreceived] at hsend
      exact (s.clients c).pc_onResponse_ne cfg hpc hsend
    | unexpected => exact hexhausts (by rw [hreceived]; rfl)

end Steps

/-! ## Before the first timeout -/

/-- The client's current request of phase `ph` has not been sent twice while `tries` is 0. `P` holds
until the leader handles it, and its answer meets `Q`. -/
structure FirstTry (ph : Phase) (P : Prop) (Q : Response → Prop) (v : View) : Prop where
  unsent : v.loc.pc = .send ph → v.loc.tries = 0 → v.loc.serial ∉ v.serials ∧ P
  sent : v.loc.pc = .receive ph → v.loc.tries = 0 →
    v.serials.count v.loc.serial ≤ 1 ∧
      (∀ q ∈ v.requests, q.messageSerial = v.loc.serial → P) ∧
      ∀ p ∈ v.replies, p.messageSerial = v.loc.serial → Q p

namespace FirstTry

variable {cfg : Config} {c : ℕ} {m : Store} {v : View} {ph ph' : Phase} {P R : Prop}
  {Q Q' : Response → Prop}

/-- A client elsewhere has no first try to account for. -/
theorem of_pc (hsend : v.loc.pc ≠ .send ph) (hreceive : v.loc.pc ≠ .receive ph) :
    FirstTry ph P Q v where
  unsent := fun h => absurd h hsend
  sent := fun h => absurd h hreceive

/-- Nor has one that has tried before. -/
theorem of_tries (h : v.loc.tries ≠ 0) : FirstTry ph P Q v where
  unsent := fun _ h₀ => absurd h₀ h
  sent := fun _ h₀ => absurd h₀ h

theorem imp (h : FirstTry ph P Q v)
    (hP : v.loc.pc.mode = .busy ph → P → R)
    (hQ : v.loc.pc.mode = .busy ph → ∀ p, Q p → Q' p) : FirstTry ph R Q' v where
  unsent := fun hpc h₀ => (h.unsent hpc h₀).imp_right (hP (by rw [hpc]; rfl))
  sent := fun hpc h₀ => by
    obtain ⟨hcount, hrequests, hreplies⟩ := h.sent hpc h₀
    have hmode : v.loc.pc.mode = .busy ph := by rw [hpc]; rfl
    exact ⟨hcount, fun q hq hs => hP hmode (hrequests q hq hs),
      fun p hp hs => hQ hmode p (hreplies p hp hs)⟩

/-- Losing messages. -/
theorem lose (h : FirstTry ph P Q v) {replies : List Response} {requests : List Request}
    (hreplies : replies.Sublist v.replies) (hrequests : requests.Sublist v.requests) :
    FirstTry ph P Q ⟨v.loc, replies, requests⟩ := by
  have hserials := serials_sublist v.loc hreplies hrequests
  constructor
  · intro hpc h₀
    exact (h.unsent hpc h₀).imp_left fun hnot hmem => hnot (hserials.mem hmem)
  · intro hpc h₀
    obtain ⟨hcount, hreq, hrep⟩ := h.sent hpc h₀
    exact ⟨Nat.le_trans (hserials.count_le _) hcount, fun q hq => hreq q (hrequests.mem hq),
      fun p hp => hrep p (hreplies.mem hp)⟩

/-- A transmission. -/
theorem send (h : FirstTry ph P Q v) (hpc : v.loc.pc = .send ph') {sent : List Request}
    (hsent : sent = [] ∨ sent = [v.loc.request ph']) :
    FirstTry ph P Q ⟨{ v.loc with pc := .receive ph' }, v.replies, v.requests ++ sent⟩ := by
  refine ⟨fun h₁ => absurd h₁ (by simp), fun h₁ h₀ => ?_⟩
  obtain rfl : ph' = ph := Pc.receive.inj h₁
  obtain ⟨hnew, hP⟩ := h.unsent hpc h₀
  refine ⟨?_, fun _ _ _ => hP, fun p hp hs => ?_⟩
  · -- nothing with the serial was in flight, and at most one copy is now
    have hone : (sent.map Request.messageSerial).count v.loc.serial ≤ 1 := by
      rcases hsent with rfl | rfl
      · exact Nat.zero_le _
      · simp
    have hzero := List.count_eq_zero.mpr hnew
    rw [View.serials, List.count_append] at hzero ⊢
    rw [List.map_append, List.count_append]
    simp only
    omega
  · -- nor is there a reply yet
    exact absurd (List.mem_append_left _ (List.mem_map.mpr ⟨p, hp, hs⟩)) hnew

/-- A new step of the serial. -/
theorem nextStep (hsettled : ∀ a ∈ v.serials, a = v.loc.serial) {loc : Client}
    (hserial : loc.serial = nextSerial v.loc.serial) (hpc : loc.pc = .send ph') (hP : ph' = ph → P) :
    FirstTry ph P Q ⟨loc, v.replies, v.requests⟩ := by
  constructor
  · intro h₁ _
    refine ⟨fun hmem => ?_, hP (Pc.send.inj (hpc.symm.trans h₁))⟩
    have hold : loc.serial = v.loc.serial := hsettled loc.serial hmem
    exact nextSerial_ne v.loc.serial (hserial.symm.trans hold)
  · intro h₁ _
    exact absurd (hpc.symm.trans h₁) (by simp)

/-- The leader handles the oldest request of the client. -/
theorem handle {req : Request} {rest : List Request} {answer : List Response}
    (h : FirstTry ph P Q v) (hreq : v.requests = req :: rest)
    (hanswer : answer = [] ∨ answer = [req.answer m])
    (hP : v.loc.pc.mode = .busy ph → req.messageSerial ≠ v.loc.serial → P → R)
    (hQ : v.loc.pc.mode = .busy ph → req.messageSerial = v.loc.serial → P → Q (req.answer m)) :
    FirstTry ph R Q ⟨v.loc, v.replies ++ answer, rest⟩ := by
  have hserials := serials_handle (v := v) hreq hanswer
  have hmem : req ∈ v.requests := hreq ▸ List.mem_cons_self
  constructor
  · intro hpc h₀
    obtain ⟨hnew, hp⟩ := h.unsent hpc h₀
    -- a request with the current serial would be in flight before the first transmission
    refine ⟨fun hin => hnew (hserials.mem hin), hP (by rw [hpc]; rfl) (fun heq => hnew ?_) hp⟩
    exact List.mem_append_right _ (List.mem_map.mpr ⟨req, hmem, heq⟩)
  · intro hpc h₀
    have hmode : v.loc.pc.mode = .busy ph := by rw [hpc]; rfl
    obtain ⟨hcount, hrequests, hreplies⟩ := h.sent hpc h₀
    refine ⟨Nat.le_trans (hserials.count_le _) hcount, fun q hq hs => ?_, fun p hp hs => ?_⟩
    · have hne : req.messageSerial ≠ v.loc.serial := by
        -- a second message with the current serial is in flight
        intro heq
        have hq' : v.loc.serial ∈ rest.map Request.messageSerial := List.mem_map.mpr ⟨q, hq, hs⟩
        have hpos := List.count_pos_iff.mpr hq'
        rw [View.serials, hreq, List.map_cons, List.count_append, heq, List.count_cons_self]
          at hcount
        omega
      exact hP hmode hne (hrequests q (hreq ▸ List.mem_cons_of_mem _ hq) hs)
    · rcases mem_replies_handle hanswer hp with hold | rfl
      · exact hreplies p hold hs
      · -- the answer just added is to the only transmission
        have heq := (messageSerial_answer req m).symm.trans hs
        exact hQ hmode heq (hrequests req hmem heq)

/-- The response to the only transmission. -/
theorem accept (h : FirstTry ph P Q v) (hpc : v.loc.pc = .receive ph) (h₀ : v.loc.tries = 0)
    {resp : Response} (hmem : resp ∈ v.replies) (hserial : resp.messageSerial = v.loc.serial) :
    Q resp :=
  (h.sent hpc h₀).2.2 resp hmem hserial

end FirstTry

end Lockseq

end Traxos
