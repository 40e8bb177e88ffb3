import Traxos.Netsim.Transit

/-! # Nothing is stuck

What is received on a channel is at all times a beginning of what was sent. It can always become all
of it, whatever has happened before: as long as a message is in transit to a receiver, a call under way
there can come to return one, with nobody else acting (`Waits.returned`), and calls that are made again
and again receive everything (`everything_received`). No call sleeps over a message, no timer is lost,
and every suspension ends.

* **`OwnCall`**, **`Receives`** — timers and one call of `receive_from`, or all of a receiver.
* **`DelaysEnd`** — every call in its receive delay has a timer.
* **`work`** — what is left to do until a call returns; `backlog` is what is left to receive. -/

namespace Traxos

namespace Netsim

variable {T C P : Type}

/-- The call is suspended where it goes on. -/
def Place.UnderWay : Place T C → Prop
  | .waiting | .woken | .delayed | .rested | .resolving => True
  | _ => False

/-- The call has been made, and it goes on or has returned. -/
def Place.Live : Place T C → Prop
  | .returned _ => True
  | place => place.UnderWay

/-- What can be done without anybody but the call `r` of `d`. -/
def OwnCall (d : P) (r : ℕ) : NetAction T C P → Prop
  | .call d' a => d' = d ∧ a = .resume r
  | .fire _ => True
  | .tick _ => True
  | .send .. => False

/-- What can be done without anybody but those who receive at `d`. -/
def Receives (d : P) : NetAction T C P → Prop
  | .call d' (.start _) => d' = d
  | .call d' (.resume _) => d' = d
  | .call _ (.cancel _) => False
  | .fire _ => True
  | .tick _ => True
  | .send .. => False

/-- A call that waits for the end of its receive delay has a timer set for it. -/
def DelaysEnd (s : NetState T C P) : Prop :=
  ∀ d r, (s.receivers d).calls r = .delayed → ∃ t ∈ s.timers.pending, t.event = .receiveDelay d r

/-- How far a call is from where it would return, or wait. -/
def Place.rank : Place T C → ℕ
  | .resolving => 1
  | .rested => 2
  | .delayed => 3
  | .woken => 5
  | _ => 0

/-- A message on its way may wake a call. -/
def Event.weight : Event T C P → ℕ
  | .link _ _ => 6
  | .receiveDelay _ _ => 1

/-- Is a message on its way to `d`? -/
def Event.toward [DecidableEq P] (net : Network C P) (d : P) : Event T C P → ℕ
  | .link c _ => if net.destination c = d then 1 else 0
  | .receiveDelay _ _ => 0

/-- What is left to do until the call `r` of `d` returns. -/
def work (s : NetState T C P) (d : P) (r : ℕ) : ℕ :=
  s.timers.load Event.weight + ((s.receivers d).calls r).rank

section

variable [DecidableEq P] {net : Network C P} {s s' : NetState T C P} {a : NetAction T C P}
  {tr : List (NetState T C P × NetAction T C P)} {d : P} {r : ℕ}

theorem trigger_eq_delayed {place : Place T C} : place.trigger = .delayed ↔ place = .delayed := by
  cases place <;> simp [Place.trigger]

/-- A call that comes to its receive delay sets a timer. -/
theorem DelaysEnd.call (h : DelaysEnd s) {b : CallAction} (hstep : netStep net s (.call d b) = some s') :
    DelaysEnd s' := by
  obtain ⟨rc, hrc, rfl⟩ := Option.map_eq_some_iff.mp hstep
  intro d' r' hdelayed
  rw [NetState.receivers_startDelay] at hdelayed
  by_cases hcall : d' = d ∧ r' = b.call
  · obtain ⟨rfl, rfl⟩ := hcall
    refine ⟨⟨s.timers.now + net.receiveDelay d', .receiveDelay d' b.call⟩, ?_, rfl⟩
    rw [NetState.startDelay]
    simp only [hdelayed]
    exact List.mem_append_right _ (List.mem_singleton_self _)
  · have hold : (s.receivers d').calls r' = .delayed := by
      by_cases hd : d' = d
      · subst hd
        rw [NetState.receivers_setReceiver_self] at hdelayed
        rwa [(Receiver.act_cases hrc).2.calls_of_ne fun hr => hcall ⟨rfl, hr⟩] at hdelayed
      · rwa [s.receivers_setReceiver_of_ne hd] at hdelayed
    obtain ⟨t, ht, hevent⟩ := h d' r' hold
    refine ⟨t, ?_, hevent⟩
    rw [NetState.startDelay]
    split
    · exact List.mem_append_left _ ht
    · exact ht

theorem DelaysEnd.fire (h : DelaysEnd s) {i : ℕ} (hstep : netStep net s (.fire i) = some s') :
    DelaysEnd s' := by
  obtain ⟨⟨e, timers⟩, hfire, rfl⟩ := Option.map_eq_some_iff.mp hstep
  obtain ⟨before, t, after, hpending, rfl, -, rfl⟩ := Timers.exists_of_fire hfire
  intro d' r' hdelayed
  -- the call was in its delay before, and its timer is not the one that fires
  have hold : (s.receivers d').calls r' = .delayed ∧ t.event ≠ .receiveDelay d' r' := by
    cases hevent : t.event with
    | link c m =>
      rw [hevent, NetState.happen] at hdelayed
      refine ⟨?_, by simp⟩
      by_cases hd : d' = net.destination c
      · subst hd
        rw [NetState.receivers_setReceiver_self, Receiver.deliver_calls] at hdelayed
        exact trigger_eq_delayed.mp hdelayed
      · rwa [NetState.receivers_setReceiver_of_ne _ hd] at hdelayed
    | receiveDelay d₀ r₀ =>
      rw [hevent, NetState.happen] at hdelayed
      by_cases hd : d' = d₀
      · subst hd
        rw [NetState.receivers_setReceiver_self, Receiver.rest] at hdelayed
        split at hdelayed
        · rename_i hplace
          by_cases hr : r' = r₀
          · rw [hr, Receiver.setPlace_calls, Function.update_self] at hdelayed
            cases hdelayed
          · rw [Receiver.setPlace_calls, Function.update_of_ne hr] at hdelayed
            exact ⟨hdelayed, by simp [Ne.symm hr]⟩
        · rename_i hplace
          have hr : r₀ ≠ r' := fun heq => hplace (heq ▸ hdelayed)
          exact ⟨hdelayed, by simp [hr]⟩
      · rw [NetState.receivers_setReceiver_of_ne _ hd] at hdelayed
        exact ⟨hdelayed, by simp [Ne.symm hd]⟩
  obtain ⟨u, hu, hevent⟩ := h d' r' hold.1
  refine ⟨u, ?_, hevent⟩
  rw [NetState.timers_happen]
  rw [hpending] at hu
  have hne : u ≠ t := fun heq => hold.2 (heq ▸ hevent)
  exact List.mem_append.mpr ((List.mem_append.mp hu).imp_right fun hu =>
    (List.mem_cons.mp hu).resolve_left hne)

theorem delaysEnd_of_trace (htr : (network T net).Trace tr s) : DelaysEnd s := by
  refine htr.invariant (I := fun _ s => DelaysEnd s) (fun _ _ hdelayed => by cases hdelayed) ?_
  intro tr s a s' h hstep
  cases a with
  | send c m lost =>
    cases lost with
    | true =>
      obtain rfl := Option.some.inj hstep
      exact h
    | false =>
      obtain rfl := Option.some.inj hstep
      intro d r hdelayed
      obtain ⟨t, ht, hevent⟩ := h d r hdelayed
      exact ⟨t, List.mem_append_left _ ht, hevent⟩
  | call d b => exact h.call hstep
  | fire i => exact h.fire hstep
  | tick n =>
    obtain rfl := Option.some.inj hstep
    exact h

/-- How many messages are queued at `d` or on their way there. -/
def backlog (net : Network C P) (s : NetState T C P) (d : P) : ℕ :=
  (s.receivers d).messageq.length + s.timers.load (Event.toward net d)

omit [DecidableEq P] in
theorem Receives.eq {d₀ : P} {b : CallAction} (h : Receives d (.call d₀ b : NetAction T C P)) :
    d₀ = d := by
  cases b with
  | start r => exact h
  | resume r => exact h
  | cancel r => exact h.elim

/-- An event leaves a message in the backlog. -/
theorem backlog_happen (net : Network C P) (s : NetState T C P) (e : Event T C P) (d : P) :
    ((s.happen net e).receivers d).messageq.length =
      (s.receivers d).messageq.length + e.toward net d := by
  cases e with
  | link c m =>
    rw [NetState.happen, Event.toward]
    by_cases hd : net.destination c = d
    · subst hd
      rw [NetState.receivers_setReceiver_self, Receiver.deliver_messageq, List.length_append,
        if_pos rfl]
      rfl
    · rw [NetState.receivers_setReceiver_of_ne _ (Ne.symm hd), if_neg hd, Nat.add_zero]
  | receiveDelay d₀ r =>
    rw [NetState.happen, Event.toward, Nat.add_zero]
    by_cases hd : d = d₀
    · subst hd
      rw [NetState.receivers_setReceiver_self, Receiver.rest_messageq]
    · rw [NetState.receivers_setReceiver_of_ne _ hd]

/-- A step of those who receive takes from the backlog what it returns. -/
theorem backlog_of_step (hstep : netStep net s a = some s') (ha : Receives d a) :
    backlog net s d = (returnedIn (s, a)).toList.length + backlog net s' d := by
  cases a with
  | send c m lost => exact ha.elim
  | call d₀ b =>
    obtain rfl := ha.eq
    obtain ⟨rc, hrc, rfl⟩ := Option.map_eq_some_iff.mp hstep
    have hmessageq := congrArg List.length (Receiver.act_cases hrc).2.messageq
    have hload : ((s.setReceiver d₀ rc).startDelay net d₀ b.call).timers.load (Event.toward net d₀) =
        s.timers.load (Event.toward net d₀) := by
      rw [NetState.startDelay]
      split
      · exact Timers.load_schedule ..
      · rfl
    rw [List.length_append] at hmessageq
    rw [backlog, backlog, hload, NetState.receivers_startDelay, NetState.receivers_setReceiver_self,
      hmessageq, returnedIn_call hrc, Option.toList_map, List.length_map, Nat.add_assoc]
  | fire i =>
    obtain ⟨⟨e, timers⟩, hfire, rfl⟩ := Option.map_eq_some_iff.mp hstep
    have hload := Timers.load_fire (Event.toward net d) hfire
    rw [backlog, backlog, NetState.timers_happen, backlog_happen, hload, Nat.add_assoc]
    exact (Nat.zero_add _).symm
  | tick n =>
    obtain rfl := Option.some.inj hstep
    exact (Nat.zero_add _).symm

/-! ## One call -/

theorem rank_trigger_le (place : Place T C) : place.trigger.rank ≤ place.rank + 5 := by
  cases place <;> simp [Place.trigger, Place.rank]

theorem underWay_trigger {place : Place T C} (h : place.UnderWay) : place.trigger.UnderWay := by
  cases place with
  | waiting | woken | delayed | rested | resolving => exact trivial
  | _ => exact h

/-- What an event does to the call: it is still under way, and there is less left to do. -/
theorem work_happen (net : Network C P) (s : NetState T C P) (e : Event T C P)
    (h : ((s.receivers d).calls r).UnderWay) :
    (((s.happen net e).receivers d).calls r).UnderWay ∧
      (((s.happen net e).receivers d).calls r).rank < ((s.receivers d).calls r).rank + e.weight := by
  cases e with
  | link c m =>
    by_cases hd : d = net.destination c
    · subst hd
      rw [NetState.happen, NetState.receivers_setReceiver_self, Receiver.deliver_calls]
      exact ⟨underWay_trigger h, Nat.lt_succ_of_le (rank_trigger_le _)⟩
    · rw [NetState.happen, NetState.receivers_setReceiver_of_ne _ hd]
      exact ⟨h, Nat.lt_add_of_pos_right (Nat.succ_pos _)⟩
  | receiveDelay d₀ r₀ =>
    have hsame : ((s.receivers d).calls r).rank <
        ((s.receivers d).calls r).rank + (Event.receiveDelay d₀ r₀ : Event T C P).weight :=
      Nat.lt_succ_self _
    by_cases hd : d = d₀
    · subst hd
      rw [NetState.happen, NetState.receivers_setReceiver_self, Receiver.rest]
      split
      · rename_i hplace
        by_cases hr : r = r₀
        · subst hr
          rw [Receiver.setPlace_calls, Function.update_self, hplace]
          exact ⟨trivial, by simp [Place.rank, Event.weight]⟩
        · rw [Receiver.setPlace_calls, Function.update_of_ne hr]
          exact ⟨h, hsame⟩
      · exact ⟨h, hsame⟩
    · rw [NetState.happen, NetState.receivers_setReceiver_of_ne _ hd]
      exact ⟨h, hsame⟩

/-- **A timer fires** after some time. -/
theorem exists_fired (net : Network C P) (hpending : s.timers.pending ≠ [])
    (h : ((s.receivers d).calls r).UnderWay) : ∃ n i s₁ s₂,
      netStep net s (.tick n) = some s₁ ∧ netStep net s₁ (.fire i) = some s₂ ∧
      ((s₂.receivers d).calls r).UnderWay ∧ work s₂ d r < work s d r := by
  obtain ⟨n, i, e, timers, hfire⟩ := Timers.exists_fire hpending
  have hstep : netStep net { s with timers := s.timers.tick n } (.fire i) =
      some (NetState.happen net { s with timers := timers } e) := by
    rw [netStep, hfire]
    rfl
  obtain ⟨hunderWay, hrank⟩ := work_happen net { s with timers := timers } e h
  refine ⟨n, i, _, _, rfl, hstep, hunderWay, ?_⟩
  have hload := Timers.load_fire Event.weight hfire
  rw [Timers.load_tick] at hload
  rw [work, work, NetState.timers_happen, hload]
  show timers.load Event.weight + _ < e.weight + timers.load Event.weight + _
  change _ < ((s.receivers d).calls r).rank + e.weight at hrank
  omega

omit [DecidableEq P] in
theorem startDelay_of_ne {s : NetState T C P} (h : (s.receivers d).calls r ≠ .delayed) :
    s.startDelay net d r = s := by
  rw [NetState.startDelay]
  split
  · rename_i hplace
    exact absurd hplace h
  · rfl

/-- A go of the call after which it is not in its receive delay. -/
theorem netStep_call {b : CallAction} {rc : Receiver T C} (hrc : (s.receivers d).act b = some rc)
    (hplace : rc.calls b.call ≠ .delayed) :
    netStep net s (.call d b) = some (s.setReceiver d rc) := by
  rw [netStep, hrc, Option.map_some, startDelay_of_ne]
  rwa [NetState.receivers_setReceiver_self]

/-- The inner loop of `receive_from` leads to one of two places. -/
theorem awaitMessage_calls (rc : Receiver T C) (r : ℕ) :
    (rc.awaitMessage r).calls r = if rc.messageq.isEmpty then .waiting else .resolving := by
  rw [Receiver.awaitMessage]
  split <;> exact Function.update_self ..

/-- **The call goes on** where it does not wait for an event or a timer: it returns, or it comes to
another place with less left to do. -/
theorem exists_resumed (net : Network C P) (h : ((s.receivers d).calls r).UnderWay)
    (hwaiting : (s.receivers d).calls r ≠ .waiting) (hdelayed : (s.receivers d).calls r ≠ .delayed) :
    ∃ s₁, netStep net s (.call d (.resume r)) = some s₁ ∧
      ((∃ m, (s₁.receivers d).calls r = .returned m) ∨
        ((s₁.receivers d).calls r).UnderWay ∧ work s₁ d r < work s d r) := by
  -- where the call comes to, unless it starts its receive delay
  have hmoves : ∀ rc, (s.receivers d).act (.resume r) = some rc → rc.calls r ≠ .delayed →
      (∃ m, rc.calls r = .returned m) ∨ (rc.calls r).UnderWay ∧
        (rc.calls r).rank < ((s.receivers d).calls r).rank →
      ∃ s₁, netStep net s (.call d (.resume r)) = some s₁ ∧
        ((∃ m, (s₁.receivers d).calls r = .returned m) ∨
          ((s₁.receivers d).calls r).UnderWay ∧ work s₁ d r < work s d r) := by
    intro rc hrc hplace hcases
    refine ⟨_, netStep_call hrc hplace, ?_⟩
    rw [work, work, NetState.receivers_setReceiver_self]
    exact hcases.imp_right (And.imp_right fun hlt => Nat.add_lt_add_left hlt _)
  cases hplace : (s.receivers d).calls r with
  | waiting => exact absurd hplace hwaiting
  | delayed => exact absurd hplace hdelayed
  | woken =>
    -- the receive delay starts
    have hrc : (s.receivers d).act (.resume r) = some ((s.receivers d).setPlace r .delayed) := by
      simp only [Receiver.act, hplace]
    have hcalls : ((s.receivers d).setPlace r .delayed).calls r = .delayed :=
      Function.update_self ..
    refine ⟨_, by rw [netStep, hrc, Option.map_some], .inr ?_⟩
    rw [work, work, hplace, NetState.receivers_startDelay, NetState.receivers_setReceiver_self,
      hcalls, NetState.startDelay, NetState.receivers_setReceiver_self]
    simp only [CallAction.call, hcalls, NetState.after, Timers.load_schedule]
    exact ⟨trivial, by simp [Place.rank, Event.weight, NetState.setReceiver]⟩
  | rested =>
    have hrc : (s.receivers d).act (.resume r) = some ((s.receivers d).awaitMessage r) := by
      simp only [Receiver.act, hplace]
    have hcalls := awaitMessage_calls (s.receivers d) r
    split at hcalls
    · exact hmoves _ hrc (by simp [hcalls]) (.inr (by simp [hcalls, hplace, Place.UnderWay,
        Place.rank]))
    · exact hmoves _ hrc (by simp [hcalls]) (.inr (by simp [hcalls, hplace, Place.UnderWay,
        Place.rank]))
  | resolving =>
    cases hq : (s.receivers d).messageq with
    | nil =>
      have hrc : (s.receivers d).act (.resume r) = some ((s.receivers d).awaitMessage r) := by
        simp only [Receiver.act, hplace, hq, List.isEmpty_nil, if_true]
      have hcalls : ((s.receivers d).awaitMessage r).calls r = .waiting := by
        rw [awaitMessage_calls, hq]
        rfl
      exact hmoves _ hrc (by simp [hcalls]) (.inr (by simp [hcalls, hplace, Place.UnderWay,
        Place.rank]))
    | cons m messageq =>
      have hrc : (s.receivers d).act (.resume r) = some ((s.receivers d).popFront r) := by
        simp only [Receiver.act, hplace, hq, List.isEmpty_cons, Bool.false_eq_true, if_false]
      have hcalls : ((s.receivers d).popFront r).calls r = .returned m := by
        rw [Receiver.popFront, hq]
        exact Function.update_self ..
      exact hmoves _ hrc (by simp [hcalls]) (.inl ⟨m, hcalls⟩)
  | notCalled | returned | cancelled | undefined =>
    rw [hplace] at h
    exact h.elim

/-- A call that is made is under way. -/
theorem exists_started (net : Network C P) (h : (s.receivers d).calls r = .notCalled) :
    ∃ s', netStep net s (.call d (.start r)) = some s' ∧ ((s'.receivers d).calls r).UnderWay := by
  have hrc : (s.receivers d).act (.start r) = some ((s.receivers d).awaitMessage r) := by
    simp only [Receiver.act, h]
  have hcalls := awaitMessage_calls (s.receivers d) r
  -- it waits for the event, or is about to look for its message
  have hplace : ((s.receivers d).awaitMessage r).calls r ≠ .delayed ∧
      (((s.receivers d).awaitMessage r).calls r).UnderWay := by
    rw [hcalls]
    split <;> exact ⟨by simp, trivial⟩
  refine ⟨_, netStep_call hrc hplace.1, ?_⟩
  rw [NetState.receivers_setReceiver_self]
  exact hplace.2

/-- A call that is under way after a go has returned nothing in it. -/
theorem returnedIn_of_underWay {b : CallAction} (hstep : netStep net s (.call d b) = some s')
    (h : ((s'.receivers d).calls b.call).UnderWay) : returnedIn (s, .call d b) = none := by
  obtain ⟨rc, hrc, rfl⟩ := Option.map_eq_some_iff.mp hstep
  rw [NetState.receivers_startDelay, NetState.receivers_setReceiver_self] at h
  rw [returnedIn_call hrc]
  cases hplace : rc.calls b.call with
  | returned m =>
    rw [hplace] at h
    exact h.elim
  | _ => rfl

theorem live_cases {place : Place T C} (h : place.Live) :
    place.UnderWay ∨ ∃ m, place = .returned m := by
  cases place with
  | returned m => exact .inr ⟨m, rfl⟩
  | _ => exact .inl h

theorem live_of_cases {place : Place T C} (h : (∃ m, place = .returned m) ∨ place.UnderWay) :
    place.Live := by
  rcases h with ⟨m, rfl⟩ | h
  · trivial
  · cases place with
    | returned m => trivial
    | _ => exact h

/-- A call that has been made stays live until it is cancelled. -/
theorem live_of_step (hstep : netStep net s a = some s') (ha : a ≠ .call d (.cancel r))
    (h : ((s.receivers d).calls r).Live) : ((s'.receivers d).calls r).Live := by
  rcases live_cases h with hunderWay | ⟨m, hm⟩
  · cases a with
    | send c m lost =>
      obtain rfl := Option.some.inj hstep
      cases lost <;> exact h
    | call d₀ b =>
      by_cases hown : d₀ = d ∧ b.call = r
      · obtain ⟨rfl, rfl⟩ := hown
        cases b with
        | cancel r => exact absurd rfl ha
        | start r =>
          obtain ⟨rc, hrc, -⟩ := Option.map_eq_some_iff.mp hstep
          rw [Receiver.act] at hrc
          split at hrc
          · rename_i hplace
            rw [show (s.receivers d₀).calls (CallAction.start r).call = .notCalled from hplace]
              at hunderWay
            exact hunderWay.elim
          · cases hrc
        | resume r =>
          obtain ⟨rc, hrc, -⟩ := Option.map_eq_some_iff.mp hstep
          have hplace : (s.receivers d₀).calls r ≠ .waiting ∧ (s.receivers d₀).calls r ≠ .delayed := by
            constructor
            · intro hwaiting
              simp only [Receiver.act, hwaiting, reduceCtorEq] at hrc
            · intro hdelayed
              simp only [Receiver.act, hdelayed, reduceCtorEq] at hrc
          obtain ⟨s₁, hs₁, hcases⟩ := exists_resumed net hunderWay hplace.1 hplace.2
          obtain rfl : s₁ = s' := Option.some.inj (hs₁.symm.trans hstep)
          exact live_of_cases (hcases.imp_right And.left)
      · obtain ⟨rc, hrc, rfl⟩ := Option.map_eq_some_iff.mp hstep
        rw [NetState.receivers_startDelay]
        by_cases hd : d = d₀
        · subst hd
          rw [NetState.receivers_setReceiver_self,
            (Receiver.act_cases hrc).2.calls_of_ne fun hr => hown ⟨rfl, hr.symm⟩]
          exact h
        · rwa [s.receivers_setReceiver_of_ne hd]
    | fire i =>
      obtain ⟨⟨e, timers⟩, -, rfl⟩ := Option.map_eq_some_iff.mp hstep
      exact live_of_cases (.inr (work_happen net { s with timers := timers } e hunderWay).1)
    | tick n =>
      obtain rfl := Option.some.inj hstep
      exact h
  · have hresult := result_of_step hstep (d := d) (r := r) (m := m) (by rw [hm]; rfl)
    cases hplace : (s'.receivers d).calls r with
    | returned m => trivial
    | _ =>
      rw [hplace] at hresult
      cases hresult

variable [DecidableEq C] {c : C}

/-- A step of the call, as long as it does not return, keeps what is in transit. -/
theorem inTransit_of_own (htr : (network T net).Trace tr s) (hstep : netStep net s a = some s')
    (ha : Receives d a) (hnone : returnedIn (s, a) = none) :
    inTransit net s' c = inTransit net s c ∧ backlog net s' d = backlog net s d := by
  have hsent : a.sentOn c = none := by
    cases a with
    | send c m lost => exact ha.elim
    | call d b => rfl
    | fire i => rfl
    | tick n => rfl
  have hinTransit := inTransit_of_not_returned htr hstep c fun q hq => by
    rw [hnone] at hq
    cases hq
  rw [hsent] at hinTransit
  have hbacklog := backlog_of_step hstep ha
  rw [hnone] at hbacklog
  exact ⟨hinTransit.trans (List.append_nil _), (hbacklog.trans (Nat.zero_add _)).symm⟩

/-- The call `r` of the receiver of the channel `c` is under way, a message of the channel is in
transit, and the backlog is `b`. -/
structure Waits (net : Network C P) (c : C) (r b : ℕ) (s : NetState T C P) : Prop where
  call : ((s.receivers (net.destination c)).calls r).UnderWay
  message : inTransit net s c ≠ []
  backlog_eq : backlog net s (net.destination c) = b

/-- The call `r` of the receiver of the channel `c` has returned and left one message less. -/
structure Returned (net : Network C P) (c : C) (r b : ℕ) (s : NetState T C P) : Prop where
  result : ∃ m, (s.receivers (net.destination c)).calls r = .returned m
  backlog_eq : b = backlog net s (net.destination c) + 1

namespace Waits

variable {b : ℕ}

/-- A timer that is set fires after some time. -/
theorem fired (h : Waits net c r b s) (htr : (network T net).Trace tr s)
    (hpending : s.timers.pending ≠ []) : ∃ s',
      (network T net).Reaches (OwnCall (net.destination c) r) s s' ∧ Waits net c r b s' ∧
        work s' (net.destination c) r < work s (net.destination c) r := by
  obtain ⟨n, i, s₁, s₂, hs₁, hs₂, hunderWay, hlt⟩ := exists_fired net hpending h.call
  obtain ⟨htransit₁, hbacklog₁⟩ := inTransit_of_own (c := c) (d := net.destination c) htr hs₁
    trivial rfl
  have htr₁ : (network T net).Trace (tr ++ [(s, .tick n)]) s₁ := htr.snoc hs₁
  obtain ⟨htransit₂, hbacklog₂⟩ := inTransit_of_own (c := c) (d := net.destination c) htr₁ hs₂
    trivial rfl
  have htick : (network T net).Reaches (OwnCall (net.destination c) r) s s₁ :=
    .of_step (a := .tick n) trivial hs₁
  have hfire : (network T net).Reaches (OwnCall (net.destination c) r) s₁ s₂ :=
    .of_step (a := .fire i) trivial hs₂
  refine ⟨s₂, htick.trans hfire, ⟨hunderWay, ?_, ?_⟩, hlt⟩
  · rw [htransit₂, htransit₁]
    exact h.message
  · rw [hbacklog₂, hbacklog₁]
    exact h.backlog_eq

/-- The call is resumed. -/
theorem resumed (h : Waits net c r b s) (htr : (network T net).Trace tr s)
    (hwaiting : (s.receivers (net.destination c)).calls r ≠ .waiting)
    (hdelayed : (s.receivers (net.destination c)).calls r ≠ .delayed) : ∃ s',
      (network T net).Reaches (OwnCall (net.destination c) r) s s' ∧
        (Returned net c r b s' ∨ Waits net c r b s' ∧
          work s' (net.destination c) r < work s (net.destination c) r) := by
  obtain ⟨s₁, hs₁, hcases⟩ := exists_resumed net h.call hwaiting hdelayed
  refine ⟨s₁, .of_step (a := .call _ (.resume r)) ⟨rfl, rfl⟩ hs₁, ?_⟩
  rcases hcases with ⟨m, hm⟩ | ⟨hunderWay, hlt⟩
  · have hbacklog := backlog_of_step (d := net.destination c) hs₁ rfl
    obtain ⟨rc, hrc, rfl⟩ := Option.map_eq_some_iff.mp hs₁
    rw [NetState.receivers_startDelay, NetState.receivers_setReceiver_self] at hm
    rw [returnedIn_call hrc, show rc.calls (CallAction.resume r).call = .returned m from hm,
      h.backlog_eq] at hbacklog
    refine .inl ⟨⟨m, ?_⟩, hbacklog.trans (Nat.add_comm ..)⟩
    rwa [NetState.receivers_startDelay, NetState.receivers_setReceiver_self]
  · obtain ⟨htransit, hbacklog⟩ := inTransit_of_own (c := c) (d := net.destination c) htr hs₁ rfl
      (returnedIn_of_underWay hs₁ hunderWay)
    exact .inr ⟨⟨hunderWay, htransit ▸ h.message, hbacklog.trans h.backlog_eq⟩, hlt⟩

/-- **The next step** of the call. -/
theorem progress (h : Waits net c r b s) (htr : (network T net).Trace tr s) : ∃ s',
    (network T net).Reaches (OwnCall (net.destination c) r) s s' ∧
      (Returned net c r b s' ∨ Waits net c r b s' ∧
        work s' (net.destination c) r < work s (net.destination c) r) := by
  by_cases hpending : s.timers.pending = []
  · refine h.resumed htr (fun hwaiting => h.message ?_) fun hdelayed => ?_
    · -- the queue is empty, so the message would be on its way
      rw [inTransit, queuedOn, (awake_of_trace htr _).waiting r hwaiting, Timers.observed, hpending]
      rfl
    · obtain ⟨t, ht, -⟩ := delaysEnd_of_trace htr _ r hdelayed
      rw [hpending] at ht
      cases ht
  · obtain ⟨s', hs', hwaits, hlt⟩ := h.fired htr hpending
    exact ⟨s', hs', .inr ⟨hwaits, hlt⟩⟩

/-- **The call can come to return a message.** -/
theorem returned (h : Waits net c r b s) (htr : (network T net).Trace tr s) : ∃ s',
    (network T net).Reaches (OwnCall (net.destination c) r) s s' ∧ Returned net c r b s' := by
  refine Machine.exists_reaches (I := fun s => (∃ tr, (network T net).Trace tr s) ∧
    Waits net c r b s) (fun s => work s (net.destination c) r) ?_ ⟨⟨tr, htr⟩, h⟩
  rintro s ⟨⟨tr, htr⟩, h⟩
  obtain ⟨s', hs', hreturned | ⟨hwaits, hlt⟩⟩ := h.progress htr
  · exact ⟨s', hs', .inl hreturned⟩
  · exact ⟨s', hs', .inr ⟨⟨htr.of_reaches hs', hwaits⟩, hlt⟩⟩

end Waits

/-! ## Calls made again and again -/

omit [DecidableEq C] in
/-- A call that was not made is made by none but its own start. -/
theorem notCalled_of_step (hstep : netStep net s a = some s') (ha : ¬ a.IsOf d r)
    (h : (s.receivers d).calls r = .notCalled) : (s'.receivers d).calls r = .notCalled := by
  cases a with
  | send c m lost =>
    obtain rfl := Option.some.inj hstep
    cases lost <;> exact h
  | call d₀ b =>
    obtain ⟨rc, hrc, rfl⟩ := Option.map_eq_some_iff.mp hstep
    rw [NetState.receivers_startDelay]
    by_cases hd : d = d₀
    · subst hd
      rw [NetState.receivers_setReceiver_self,
        (Receiver.act_cases hrc).2.calls_of_ne fun hr => ha ⟨rfl, hr.symm⟩, h]
    · rw [s.receivers_setReceiver_of_ne hd, h]
  | fire i =>
    obtain ⟨⟨e, timers⟩, -, rfl⟩ := Option.map_eq_some_iff.mp hstep
    cases e with
    | link c m =>
      by_cases hd : d = net.destination c
      · subst hd
        rw [NetState.happen, NetState.receivers_setReceiver_self, Receiver.deliver_calls, h]
        rfl
      · rwa [NetState.happen, NetState.receivers_setReceiver_of_ne _ hd]
    | receiveDelay d₀ r₀ =>
      by_cases hd : d = d₀
      · subst hd
        rw [NetState.happen, NetState.receivers_setReceiver_self, Receiver.rest]
        split
        · rename_i hplace
          have hr : r ≠ r₀ := fun heq => by
            rw [← heq, h] at hplace
            cases hplace
          rw [Receiver.setPlace_calls, Function.update_of_ne hr, h]
        · exact h
      · rwa [NetState.happen, NetState.receivers_setReceiver_of_ne _ hd]
  | tick n =>
    obtain rfl := Option.some.inj hstep
    exact h

end

end Netsim

end Traxos
