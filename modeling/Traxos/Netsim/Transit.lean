import Traxos.Netsim.Delivery

/-! # Messages in transit

The account of a channel, step by step: what a step returns from it comes off the front of what is in
transit, and what a step sends on it goes to the back (`inTransit_step`). A program that listens at a
receiver has at most one call of `receive_from` under way there (`Listener`); what is `pending` for
it on a channel is what the call has returned, then what is in transit. -/

namespace Traxos

namespace Netsim

variable {T C P : Type}

/-- What is queued or on its way on the channel `c`, oldest first. -/
def inTransit [DecidableEq C] (net : Network C P) (s : NetState T C P) (c : C) : List T :=
  queuedOn net s c ++ s.timers.observed (Event.on c)

/-- A coroutine that calls `receive_from` again and again: the calls that are over, whether another
one is under way, and the end of the last `cot::after`. -/
structure Listener where
  calls : ℕ := 0
  receiving : Bool := false
  readyAt : ℕ := 0
  deriving DecidableEq, Repr

/-- What the call that is under way has returned. -/
def Listener.result (l : Listener) (rc : Receiver T C) : Option (MessageFrom T C) :=
  if l.receiving then (rc.calls l.calls).result else none

/-- The call is over. -/
def Listener.finish (l : Listener) (readyAt : ℕ) : Listener :=
  { calls := l.calls + 1, receiving := false, readyAt := readyAt }

/-- What is pending on the channel `c` for a listener at its destination. -/
def pending [DecidableEq C] (net : Network C P) (s : NetState T C P) (l : Listener) (c : C) :
    List T :=
  (l.result (s.receivers (net.destination c))).toList.filterMap (MessageFrom.on c) ++
    inTransit net s c

section

variable [DecidableEq C] [DecidableEq P] {net : Network C P} {s s' : NetState T C P}
  {a : NetAction T C P} {tr : List (NetState T C P × NetAction T C P)} {d : P} {r : ℕ}
  {m : MessageFrom T C} {l : Listener} {c : C}

/-- **The account of a channel**: first in, first out. -/
theorem inTransit_step (h : (network T net).Trace tr s) (hstep : netStep net s a = some s')
    (c : C) :
    (returnedIn (s, a)).toList.filterMap (fun q => q.2.on c) ++ inTransit net s' c =
      inTransit net s c ++ (a.sentOn c).toList := by
  have hbefore : sentOn tr c = returnedOn tr c ++ inTransit net s c :=
    (conserves_of_trace h).fifo c
  have hafter : sentOn (tr ++ [(s, a)]) c =
      returnedOn (tr ++ [(s, a)]) c ++ inTransit net s' c :=
    ((conserves_of_trace h).step hstep).fifo c
  rw [sentOn_snoc, returnedOn_snoc, hbefore, List.append_assoc, List.append_assoc] at hafter
  exact (List.append_cancel_left hafter).symm

/-- A step that returns nothing from a channel. -/
theorem inTransit_of_not_returned (h : (network T net).Trace tr s)
    (hstep : netStep net s a = some s') (c : C)
    (hnone : ∀ q, returnedIn (s, a) = some q → q.2.channel ≠ c) :
    inTransit net s' c = inTransit net s c ++ (a.sentOn c).toList := by
  have hnil : (returnedIn (s, a)).toList.filterMap (fun q => q.2.on c) = [] := by
    refine List.filterMap_eq_nil_iff.mpr fun q hq => ?_
    exact if_neg (hnone q (Option.mem_toList.mp hq))
  have haccount := inTransit_step h hstep c
  rwa [hnil, List.nil_append] at haccount

omit [DecidableEq C] in
/-- A step that is not one of a call leaves alone what the call has returned. -/
theorem result_of_not_isOf (hstep : netStep net s a = some s') (hnot : ¬ a.IsOf d r) :
    ((s'.receivers d).calls r).result = ((s.receivers d).calls r).result := by
  cases a with
  | send c m lost =>
    obtain rfl := Option.some.inj hstep
    cases lost <;> rfl
  | call d₀ b =>
    obtain ⟨rc, hrc, rfl⟩ := Option.map_eq_some_iff.mp hstep
    rw [NetState.receivers_startDelay]
    by_cases hd : d = d₀
    · subst hd
      have hr : r ≠ b.call := fun heq => hnot ⟨rfl, heq.symm⟩
      rw [NetState.receivers_setReceiver_self, (Receiver.act_cases hrc).2.calls_of_ne hr]
    · rw [s.receivers_setReceiver_of_ne hd]
  | fire i =>
    obtain ⟨⟨e, timers⟩, -, rfl⟩ := Option.map_eq_some_iff.mp hstep
    cases e with
    | link c m =>
      by_cases hd : d = net.destination c
      · subst hd
        rw [NetState.happen, NetState.receivers_setReceiver_self, Receiver.deliver_calls,
          Receiver.result_trigger]
      · rw [NetState.happen, NetState.receivers_setReceiver_of_ne _ hd]
    | receiveDelay d₀ r₀ =>
      by_cases hd : d = d₀
      · subst hd
        rw [NetState.happen, NetState.receivers_setReceiver_self, Receiver.result_rest]
      · rw [NetState.happen, NetState.receivers_setReceiver_of_ne _ hd]
  | tick n =>
    obtain rfl := Option.some.inj hstep
    rfl

/-- What a step of a call at `d` returns came to `d`. -/
theorem destination_of_returnedIn (h : (network T net).Trace tr s)
    (hstep : netStep net s a = some s') {q : P × MessageFrom T C}
    (hq : returnedIn (s, a) = some q) : ∃ b, a = .call q.1 b ∧ net.destination q.2.channel = q.1 := by
  have hmem : q ∈ returned (tr ++ [(s, a)]) := by
    rw [returned_snoc]
    exact List.mem_append_right _ (Option.mem_toList.mpr hq)
  have hgenuine := genuine_of_returned (h.snoc hstep) hmem
  cases a with
  | call d b =>
    obtain ⟨rc, hrc, -⟩ := Option.map_eq_some_iff.mp hstep
    rw [returnedIn_call hrc] at hq
    obtain ⟨m, -, rfl⟩ := Option.map_eq_some_iff.mp hq
    exact ⟨b, rfl, hgenuine.destination⟩
  | send c m lost => cases hq
  | fire i => cases hq
  | tick n => cases hq

/-! ## A listener -/

/-- **A step elsewhere**: what it sends is added to what is pending. -/
theorem pending_of_elsewhere (h : (network T net).Trace tr s) (hstep : netStep net s a = some s')
    (hnot : ∀ b, a ≠ .call (net.destination c) b) :
    pending net s' l c = pending net s l c ++ (a.sentOn c).toList := by
  have hresult : l.result (s'.receivers (net.destination c)) =
      l.result (s.receivers (net.destination c)) := by
    rw [Listener.result, Listener.result, result_of_not_isOf hstep]
    cases a with
    | call d b => exact fun hof => hnot b (by rw [hof.1])
    | send c m lost => exact id
    | fire i => exact id
    | tick n => exact id
  have hinTransit := inTransit_of_not_returned h hstep c fun q hq hc => by
    obtain ⟨b, rfl, hdest⟩ := destination_of_returnedIn h hstep hq
    exact hnot b (by rw [← hc, hdest])
  rw [pending, pending, hresult, hinTransit, List.append_assoc]

/-- **A step of the call of the listener**: nothing is lost. -/
theorem pending_of_call (h : (network T net).Trace tr s) {b : CallAction}
    (hstep : netStep net s (.call (net.destination c) b) = some s') (hcall : b.call = l.calls) :
    pending net s' { l with receiving := true } c = pending net s l c := by
  obtain ⟨rc, hrc, hs'⟩ := Option.map_eq_some_iff.mp hstep
  have hbefore := (Receiver.act_cases hrc).1
  have haccount := inTransit_step h hstep c
  rw [returnedIn_call hrc, show NetAction.sentOn c (.call (net.destination c) b) =
    (none : Option T) from rfl, Option.toList_none, List.append_nil] at haccount
  -- the call had returned nothing before
  have hnone : l.result (s.receivers (net.destination c)) = none := by
    rw [Listener.result, ← hcall, hbefore, ite_self]
  have hresult : ({ l with receiving := true } : Listener).result
      (s'.receivers (net.destination c)) = (rc.calls b.call).result := by
    rw [Listener.result, if_pos rfl, ← hs', NetState.receivers_startDelay,
      NetState.receivers_setReceiver_self, hcall]
  rw [pending, pending, hnone, hresult, ← haccount]
  cases (rc.calls b.call).result <;> rfl

omit [DecidableEq P] in
/-- The call is over after it has returned. -/
theorem pending_of_result (hresult : l.result (s.receivers (net.destination c)) = some m)
    (readyAt : ℕ) :
    pending net s l c = (m.on c).toList ++ pending net s (l.finish readyAt) c := by
  rw [pending, pending, hresult]
  cases hm : m.on c with
  | none => simp [hm, Listener.result, Listener.finish]
  | some x => simp [hm, Listener.result, Listener.finish]

omit [DecidableEq P] in
/-- The call is over without having returned. -/
theorem pending_of_no_result (hresult : l.result (s.receivers (net.destination c)) = none)
    (readyAt : ℕ) : pending net s (l.finish readyAt) c = pending net s l c := by
  rw [pending, pending, hresult]
  rfl

omit [DecidableEq C] [DecidableEq P] in
/-- Cancelling a call loses nothing. -/
theorem returnedIn_cancel (s : NetState T C P) (d : P) (r : ℕ) :
    returnedIn (s, .call d (.cancel r)) = none := by
  rw [returnedIn]
  cases hrc : (s.receivers d).act (.cancel r) with
  | none => simp only [hrc, Option.bind_none]
  | some rc =>
    have hcancelled : rc = (s.receivers d).setPlace r .cancelled := by
      rw [Receiver.act] at hrc
      split at hrc
      any_goals
        obtain rfl := Option.some.inj hrc
        rfl
      cases hrc
    simp only [hrc, Option.bind_some, hcancelled, CallAction.call, Receiver.setPlace_calls,
      Function.update_self]
    rfl

/-! ## What may be received -/

/-- The states that a program reaches which sends only what `ok` allows. -/
def Reached (net : Network C P) (ok : C → T → Prop) (s : NetState T C P) : Prop :=
  ∃ tr, (network T net).Trace tr s ∧ ∀ p ∈ tr, ∀ c m, p.2 = .send c m false → ok c m

variable {ok : C → T → Prop}

omit [DecidableEq C] in
theorem Reached.init (net : Network C P) (ok : C → T → Prop) :
    Reached net ok ({} : NetState T C P) := ⟨[], .init, List.forall_mem_nil _⟩

omit [DecidableEq C] in
theorem Reached.step (h : Reached net ok s) (hstep : netStep net s a = some s')
    (ha : ∀ c m, a = .send c m false → ok c m) : Reached net ok s' := by
  obtain ⟨tr, htr, hok⟩ := h
  refine ⟨tr ++ [(s, a)], htr.snoc hstep, fun p hp => ?_⟩
  rcases List.mem_append.mp hp with hp | hp
  · exact hok p hp
  · obtain rfl := List.mem_singleton.mp hp
    exact ha

/-- **What a call returns** was sent on a channel to its receiver, and allowed. -/
theorem Reached.of_result (h : Reached net ok s)
    (hresult : ((s.receivers d).calls r).result = some m) :
    Genuine net d m ∧ ok m.channel m.message := by
  obtain ⟨tr, htr, hok⟩ := h
  have hmem := mem_returned_of_result htr hresult
  refine ⟨genuine_of_returned htr hmem, ?_⟩
  obtain ⟨s₀, hsend⟩ := exists_send_of_sentOn (mem_sentOn_of_returned htr hmem)
  exact hok _ hsend _ _ rfl

end

end Netsim

end Traxos
