import Traxos.Core.Machine
import Traxos.Core.Timers
import Traxos.Netsim.Receiver

/-! # Delivery

The simulated network: channels lead to receivers, a message that is not lost arrives after the link
delay of its channel, and any number of calls of `receive_from` take messages from each receiver.
The channels, their delays and the receivers are arbitrary. What suspends is resumed in any order,
except that timers fire in the order of `Timers.fire`; a sender is resumed by its timer and delivers
at once.

On each channel, what was sent is at all times what was returned, then what is queued, then what is
on the way (`Conserves.fifo`), so messages are received in order (`receive_in_order`). -/

namespace Traxos

namespace Netsim

variable {T C P : Type}

/-! ## The source -/

/-- The channels `C` and receivers `P` of a network, with their constants. -/
structure Network (C P : Type) where
  /-- `source_address_`. -/
  source : C → Str
  /-- `destination_`. -/
  destination : C → P
  linkDelay : C → ℕ
  receiveDelay : P → ℕ

/-- What a timer resumes. -/
inductive Event (T C P : Type)
  /-- `send_after` on the channel `c`. -/
  | link (c : C) (m : T)
  /-- The call `r` of `receive_from` of `d`, after its receive delay. -/
  | receiveDelay (d : P) (r : ℕ)
  deriving DecidableEq, Repr

/-- The state of a network. -/
structure NetState (T C P : Type) where
  timers : Timers (Event T C P) := {}
  receivers : P → Receiver T C := fun _ => {}

/-- What happens next. -/
inductive NetAction (T C P : Type)
  /-- `send` on the channel `c`; the coin flip says whether the message is lost. -/
  | send (c : C) (m : T) (lost : Bool)
  /-- A call of `receive_from` of `d`. -/
  | call (d : P) (a : CallAction)
  /-- The `i`th timer fires. -/
  | fire (i : ℕ)
  | tick (n : ℕ)
  deriving DecidableEq, Repr

namespace NetState

variable [DecidableEq P]

/-- Replace a receiver. -/
def setReceiver (s : NetState T C P) (d : P) (rc : Receiver T C) : NetState T C P :=
  { s with receivers := Function.update s.receivers d rc }

/-- `cot::after`. -/
def after (s : NetState T C P) (delay : ℕ) (e : Event T C P) : NetState T C P :=
  { s with timers := s.timers.schedule delay e }

/-- What an event does when its timer fires. -/
def happen (net : Network C P) (s : NetState T C P) : Event T C P → NetState T C P
  | .link c m =>
    let d := net.destination c
    s.setReceiver d ((s.receivers d).deliver ⟨m, net.source c, c⟩)
  | .receiveDelay d r => s.setReceiver d ((s.receivers d).rest r)

/-- The call `r` of `d` starts its receive delay if that is where it has come. -/
def startDelay (net : Network C P) (s : NetState T C P) (d : P) (r : ℕ) : NetState T C P :=
  match (s.receivers d).calls r with
  | .delayed => s.after (net.receiveDelay d) (.receiveDelay d r)
  | _ => s

end NetState

section

variable [DecidableEq P]

/-- One step of a network. -/
def netStep (net : Network C P) (s : NetState T C P) : NetAction T C P → Option (NetState T C P)
  | .send c m lost => some (if lost then s else s.after (net.linkDelay c) (.link c m))
  | .call d a =>
    ((s.receivers d).act a).map fun rc => (s.setReceiver d rc).startDelay net d a.call
  | .fire i =>
    (s.timers.fire i).map fun fired => { s with timers := fired.2 }.happen net fired.1
  | .tick n => some { s with timers := s.timers.tick n }

/-- A network at work. -/
def network (T : Type) (net : Network C P) : Machine (NetState T C P) (NetAction T C P) :=
  { init := {}, step := netStep net }

end

/-! ## Sent and received -/

section

variable [DecidableEq C]

/-- What is sent on the channel `c` and not lost. -/
def NetAction.sentOn (c : C) : NetAction T C P → Option T
  | .send c' m false => if c' = c then some m else none
  | _ => none

/-- The message if it came on the channel `c`. -/
def MessageFrom.on (c : C) (m : MessageFrom T C) : Option T :=
  if m.channel = c then some m.message else none

/-- The message if it is on its way on the channel `c`. -/
def Event.on (c : C) : Event T C P → Option T
  | .link c' m => if c' = c then some m else none
  | .receiveDelay _ _ => none

/-- The messages sent on the channel `c` in a run that were not lost. -/
def sentOn (tr : List (NetState T C P × NetAction T C P)) (c : C) : List T :=
  tr.filterMap fun p => p.2.sentOn c

end

/-- What a call of `receive_from` returns in a step, and from which receiver. -/
def returnedIn (p : NetState T C P × NetAction T C P) : Option (P × MessageFrom T C) :=
  match p.2 with
  | .call d a =>
    ((p.1.receivers d).act a).bind fun rc => (rc.calls a.call).result.map fun m => (d, m)
  | _ => none

/-- The messages that `receive_from` returned in a run. -/
def returned (tr : List (NetState T C P × NetAction T C P)) : List (P × MessageFrom T C) :=
  tr.filterMap returnedIn

/-- Those of them that came on the channel `c`. -/
def returnedOn [DecidableEq C] (tr : List (NetState T C P × NetAction T C P)) (c : C) : List T :=
  (returned tr).filterMap fun p => p.2.on c

/-- The messages of the channel `c` that are queued at its destination. -/
def queuedOn [DecidableEq C] (net : Network C P) (s : NetState T C P) (c : C) : List T :=
  (s.receivers (net.destination c)).messageq.filterMap (MessageFrom.on c)

/-- A message is at the destination of its channel and names the source of it. -/
structure Genuine (net : Network C P) (d : P) (m : MessageFrom T C) : Prop where
  destination : net.destination m.channel = d
  address : m.address = net.source m.channel

/-- The action is one of the call `r` of `d`. -/
def NetAction.IsOf (d : P) (r : ℕ) : NetAction T C P → Prop
  | .call d' a => d' = d ∧ a.call = r
  | _ => False

/-- The step changes no queue. -/
def KeepsQueues [DecidableEq P] (net : Network C P) (p : NetState T C P × NetAction T C P) : Prop :=
  ∀ s', netStep net p.1 p.2 = some s' →
    ∀ d, (s'.receivers d).messageq = (p.1.receivers d).messageq

/-! ## One step -/

section Steps

variable [DecidableEq P] {net : Network C P} {s s' : NetState T C P} {a : NetAction T C P}
  {d : P} {r : ℕ} {m : MessageFrom T C}

namespace NetState

@[simp] theorem receivers_setReceiver_self (s : NetState T C P) (d : P) (rc : Receiver T C) :
    (s.setReceiver d rc).receivers d = rc := Function.update_self ..

theorem receivers_setReceiver_of_ne (s : NetState T C P) {d d' : P} (h : d' ≠ d)
    (rc : Receiver T C) : (s.setReceiver d rc).receivers d' = s.receivers d' :=
  Function.update_of_ne h ..

omit [DecidableEq P] in
@[simp] theorem receivers_startDelay (net : Network C P) (s : NetState T C P) (d : P) (r : ℕ) :
    (s.startDelay net d r).receivers = s.receivers := by
  rw [startDelay]
  split <;> rfl

@[simp] theorem timers_happen (net : Network C P) (s : NetState T C P) (e : Event T C P) :
    (s.happen net e).timers = s.timers := by
  cases e <;> rfl

end NetState

/-- What every change of a receiver keeps, every step of the network keeps. -/
theorem keeps_of_step {Q : P → Receiver T C → Prop} (h : netStep net s a = some s')
    (hdeliver : ∀ c m, Q (net.destination c) (s.receivers (net.destination c)) →
      Q (net.destination c) ((s.receivers (net.destination c)).deliver ⟨m, net.source c, c⟩))
    (hrest : ∀ d r, Q d (s.receivers d) → Q d ((s.receivers d).rest r))
    (hact : ∀ d b rc, (s.receivers d).act b = some rc → Q d (s.receivers d) → Q d rc)
    (hQ : ∀ d, Q d (s.receivers d)) (d : P) : Q d (s'.receivers d) := by
  -- a step replaces at most one receiver
  have hset : ∀ d₀ rc, Q d₀ rc → Q d ((s.setReceiver d₀ rc).receivers d) := by
    intro d₀ rc hrc
    by_cases heq : d = d₀
    · rw [heq, NetState.receivers_setReceiver_self]
      exact hrc
    · rw [s.receivers_setReceiver_of_ne heq]
      exact hQ d
  cases a with
  | send c m lost =>
    obtain rfl := Option.some.inj h
    cases lost <;> exact hQ d
  | call d₀ b =>
    obtain ⟨rc, hrc, rfl⟩ := Option.map_eq_some_iff.mp h
    rw [NetState.receivers_startDelay]
    exact hset d₀ rc (hact d₀ b rc hrc (hQ d₀))
  | fire i =>
    obtain ⟨⟨e, timers⟩, -, rfl⟩ := Option.map_eq_some_iff.mp h
    cases e with
    | link c m => exact hset _ _ (hdeliver c m (hQ _))
    | receiveDelay d₀ r => exact hset _ _ (hrest d₀ r (hQ d₀))
  | tick n =>
    obtain rfl := Option.some.inj h
    exact hQ d

/-- **No call waits for the event while there is a message**, in any state of a run. -/
theorem awake_of_trace {tr : List (NetState T C P × NetAction T C P)}
    (h : (network T net).Trace tr s) (d : P) : (s.receivers d).Awake := by
  refine h.invariant (I := fun _ s => ∀ d, (s.receivers d).Awake) (fun _ => .start) ?_ d
  intro tr s a s' hs hstep
  refine keeps_of_step (Q := fun _ rc => rc.Awake) hstep ?_ ?_ ?_ hs
  · intro c m hawake
    exact hawake.deliver _
  · intro d r hawake
    exact hawake.rest r
  · intro d b rc hrc hawake
    exact hawake.acts (Receiver.act_cases hrc).2

/-- What a call has returned stays. -/
theorem result_of_step (h : netStep net s a = some s')
    (hr : ((s.receivers d).calls r).result = some m) :
    ((s'.receivers d).calls r).result = some m := by
  refine keeps_of_step (Q := fun d' rc => d' = d → (rc.calls r).result = some m)
    h ?_ ?_ ?_ (fun d' heq => heq ▸ hr) d rfl
  · intro c m' hQ heq
    rw [Receiver.deliver_calls, Receiver.result_trigger]
    exact hQ heq
  · intro d' r' hQ heq
    rw [Receiver.result_rest]
    exact hQ heq
  · intro d' b rc hrc hQ heq
    exact Receiver.result_act hrc (hQ heq)

/-- A call that has returned did so before or in this step. -/
theorem result_or_returnedIn (h : netStep net s a = some s')
    (hr : ((s'.receivers d).calls r).result = some m) :
    ((s.receivers d).calls r).result = some m ∨ returnedIn (s, a) = some (d, m) := by
  cases a with
  | send c m lost =>
    obtain rfl := Option.some.inj h
    cases lost <;> exact Or.inl hr
  | call d₀ b =>
    obtain ⟨rc, hrc, rfl⟩ := Option.map_eq_some_iff.mp h
    rw [NetState.receivers_startDelay] at hr
    by_cases hd : d = d₀
    · subst hd
      rw [NetState.receivers_setReceiver_self] at hr
      by_cases hcall : r = b.call
      · refine Or.inr ?_
        rw [hcall] at hr
        simp only [returnedIn, hrc, Option.bind_some, hr, Option.map_some]
      · rw [(Receiver.act_cases hrc).2.calls_of_ne hcall] at hr
        exact Or.inl hr
    · rw [s.receivers_setReceiver_of_ne hd] at hr
      exact Or.inl hr
  | fire i =>
    obtain ⟨⟨e, timers⟩, -, rfl⟩ := Option.map_eq_some_iff.mp h
    refine Or.inl ?_
    cases e with
    | link c m' =>
      by_cases hd : d = net.destination c
      · subst hd
        rwa [NetState.happen, NetState.receivers_setReceiver_self, Receiver.deliver_calls,
          Receiver.result_trigger] at hr
      · rwa [NetState.happen, NetState.receivers_setReceiver_of_ne _ hd] at hr
    | receiveDelay d₀ r₀ =>
      by_cases hd : d = d₀
      · subst hd
        rwa [NetState.happen, NetState.receivers_setReceiver_self, Receiver.result_rest] at hr
      · rwa [NetState.happen, NetState.receivers_setReceiver_of_ne _ hd] at hr
  | tick n =>
    obtain rfl := Option.some.inj h
    exact Or.inl hr

/-- What a call has returned is among what was returned. -/
theorem mem_returned_of_result {tr : List (NetState T C P × NetAction T C P)}
    (h : (network T net).Trace tr s) (hr : ((s.receivers d).calls r).result = some m) :
    (d, m) ∈ returned tr := by
  refine h.invariant (I := fun tr s => ((s.receivers d).calls r).result = some m →
    (d, m) ∈ returned tr) ?_ ?_ hr
  · intro hr
    cases hr
  · intro tr s a s' ih hstep hr
    rw [returned, List.filterMap_append]
    rcases result_or_returnedIn hstep hr with hr | hreturned
    · exact List.mem_append_left _ (ih hr)
    · exact List.mem_append_right _ (List.mem_filterMap.mpr ⟨(s, a), List.mem_singleton_self _,
        hreturned⟩)

/-- A step of a call that does not return changes no queue. -/
theorem keepsQueues_or_returns (h : netStep net s a = some s') (hof : a.IsOf d r) :
    KeepsQueues net (s, a) ∨ ∃ m, ((s'.receivers d).calls r).result = some m := by
  cases a with
  | call d₀ b =>
    obtain ⟨rfl, rfl⟩ := hof
    obtain ⟨rc, hrc, rfl⟩ := Option.map_eq_some_iff.mp h
    have hmessageq := (Receiver.act_cases hrc).2.messageq
    rw [NetState.receivers_startDelay, NetState.receivers_setReceiver_self]
    cases hresult : (rc.calls b.call).result with
    | some m => exact Or.inr ⟨m, rfl⟩
    | none =>
      rw [hresult, Option.toList_none, List.nil_append] at hmessageq
      refine Or.inl fun s' hs' d => ?_
      obtain rfl := Option.some.inj (h.symm.trans hs')
      rw [NetState.receivers_startDelay]
      by_cases heq : d = d₀
      · rw [heq, NetState.receivers_setReceiver_self, hmessageq]
      · rw [s.receivers_setReceiver_of_ne heq]
  | send c m lost => cases hof
  | fire i => cases hof
  | tick n => cases hof

/-- What is in a queue is genuine. -/
theorem genuine_of_step (h : netStep net s a = some s')
    (hs : ∀ d, ∀ m ∈ (s.receivers d).messageq, Genuine net d m) (d : P) :
    ∀ m ∈ (s'.receivers d).messageq, Genuine net d m := by
  refine keeps_of_step (Q := fun d rc => ∀ m ∈ rc.messageq, Genuine net d m) h ?_ ?_ ?_ hs d
  · intro c m hQ m' hm'
    rcases List.mem_append.mp hm' with hm' | hm'
    · exact hQ m' hm'
    · obtain rfl := List.mem_singleton.mp hm'
      exact ⟨rfl, rfl⟩
  · intro d r hQ
    rwa [Receiver.rest_messageq]
  · intro d b rc hrc hQ m hm
    refine hQ m ?_
    rw [(Receiver.act_cases hrc).2.messageq]
    exact List.mem_append_right _ hm

/-- **What a cancelled call did changed no queue.** -/
theorem keepsQueues_of_trace {tr : List (NetState T C P × NetAction T C P)}
    (h : (network T net).Trace tr s) {p : NetState T C P × NetAction T C P} (hp : p ∈ tr)
    (hof : p.2.IsOf d r) :
    KeepsQueues net p ∨ ∃ m, ((s.receivers d).calls r).result = some m := by
  refine h.invariant (I := fun tr s => ∀ p ∈ tr, p.2.IsOf d r →
    KeepsQueues net p ∨ ∃ m, ((s.receivers d).calls r).result = some m) ?_ ?_ p hp hof
  · intro p hp
    cases hp
  · intro tr s a s' hs hstep p hp hof
    rcases List.mem_append.mp hp with hp | hp
    · refine (hs p hp hof).imp_right fun ⟨m, hm⟩ => ⟨m, result_of_step hstep hm⟩
    · obtain rfl := List.mem_singleton.mp hp
      exact keepsQueues_or_returns hstep hof

end Steps

/-! ## Messages are conserved -/

section Observations

variable [DecidableEq C] {net : Network C P} {s : NetState T C P} {a : NetAction T C P}
  {tr : List (NetState T C P × NetAction T C P)}

theorem sentOn_snoc (tr : List (NetState T C P × NetAction T C P)) (s : NetState T C P)
    (a : NetAction T C P) (c : C) :
    sentOn (tr ++ [(s, a)]) c = sentOn tr c ++ (a.sentOn c).toList := by
  rw [sentOn, List.filterMap_append]
  rfl

/-- What is sent on a channel was an argument of `send`. -/
theorem eq_send_of_sentOn {c : C} {m : T} (h : a.sentOn c = some m) : a = .send c m false := by
  cases a with
  | send c' m' lost =>
    cases lost with
    | true => cases h
    | false =>
      obtain ⟨rfl, hm⟩ := Option.ite_none_right_eq_some.mp h
      rw [Option.some.inj hm]
  | call d b => cases h
  | fire i => cases h
  | tick n => cases h

/-- What was sent on a channel was an argument of `send` in some step. -/
theorem exists_send_of_sentOn {c : C} {m : T} (h : m ∈ sentOn tr c) :
    ∃ s, (s, .send c m false) ∈ tr := by
  obtain ⟨⟨s, a⟩, hp, hsent⟩ := List.mem_filterMap.mp h
  obtain rfl : a = .send c m false := eq_send_of_sentOn hsent
  exact ⟨s, hp⟩

omit [DecidableEq C] in
theorem returned_snoc (tr : List (NetState T C P × NetAction T C P)) (s : NetState T C P)
    (a : NetAction T C P) :
    returned (tr ++ [(s, a)]) = returned tr ++ (returnedIn (s, a)).toList := by
  rw [returned, List.filterMap_append]
  rfl

theorem returnedOn_snoc (tr : List (NetState T C P × NetAction T C P)) (s : NetState T C P)
    (a : NetAction T C P) (c : C) : returnedOn (tr ++ [(s, a)]) c =
      returnedOn tr c ++ (returnedIn (s, a)).toList.filterMap fun p => p.2.on c := by
  rw [returnedOn, returned_snoc, List.filterMap_append]
  rfl

/-- A step that is not one of a call returns nothing. -/
theorem returnedOn_snoc_of_none (h : returnedIn (s, a) = none) (c : C) :
    returnedOn (tr ++ [(s, a)]) c = returnedOn tr c := by
  rw [returnedOn_snoc, h]
  exact List.append_nil _

theorem sentOn_snoc_of_none {c : C} (h : a.sentOn c = none) :
    sentOn (tr ++ [(s, a)]) c = sentOn tr c := by
  rw [sentOn_snoc, h]
  exact List.append_nil _

omit [DecidableEq C] in
theorem returnedIn_call {d : P} {b : CallAction} {rc : Receiver T C}
    (hrc : (s.receivers d).act b = some rc) :
    returnedIn (s, .call d b) = (rc.calls b.call).result.map fun m => (d, m) := by
  rw [returnedIn]
  simp only [hrc, Option.bind_some]

/-- Starting a receive delay puts no message on the way. -/
theorem observed_startDelay (net : Network C P) (s : NetState T C P) (d : P) (r : ℕ) (c : C) :
    (s.startDelay net d r).timers.observed (Event.on c) = s.timers.observed (Event.on c) := by
  rw [NetState.startDelay]
  split
  · rw [NetState.after, Timers.observed_schedule]
    exact List.append_nil _
  · rfl

/-- **Every message that was sent and not lost** was returned, is queued or is on the way, and on
each channel in this order. -/
structure Conserves (net : Network C P) (tr : List (NetState T C P × NetAction T C P))
    (s : NetState T C P) : Prop where
  fifo : ∀ c, sentOn tr c =
    returnedOn tr c ++ (queuedOn net s c ++ s.timers.observed (Event.on c))
  steady : ∀ c, s.timers.Steady (Event.on c) (net.linkDelay c)
  genuine : ∀ d, ∀ m ∈ (s.receivers d).messageq, Genuine net d m

theorem Conserves.start : Conserves net [] ({} : NetState T C P) :=
  ⟨fun _ => rfl, fun c => Timers.steady_empty _ _, fun _ _ hm => by cases hm⟩

end Observations

section Conservation

variable [DecidableEq C] [DecidableEq P] {net : Network C P} {s s' : NetState T C P}
  {a : NetAction T C P} {tr : List (NetState T C P × NetAction T C P)}

/-- An event that happens queues the message that was on its way. -/
theorem queuedOn_happen (net : Network C P) (s : NetState T C P) (e : Event T C P) (c : C) :
    queuedOn net (s.happen net e) c = queuedOn net s c ++ (e.on c).toList := by
  cases e with
  | link c₀ m =>
    rw [queuedOn, queuedOn, NetState.happen]
    by_cases hd : net.destination c = net.destination c₀
    · rw [hd, NetState.receivers_setReceiver_self, Receiver.deliver_messageq,
        List.filterMap_append]
      rfl
    · -- a message for another receiver is on another channel
      have hc : c₀ ≠ c := fun heq => hd (by rw [heq])
      rw [s.receivers_setReceiver_of_ne hd, Event.on, if_neg hc]
      exact (List.append_nil _).symm
  | receiveDelay d r =>
    rw [queuedOn, queuedOn, NetState.happen]
    rw [show (Event.receiveDelay d r : Event T C P).on c = none from rfl, Option.toList_none,
      List.append_nil]
    by_cases hd : net.destination c = d
    · rw [← hd, NetState.receivers_setReceiver_self, Receiver.rest_messageq]
    · rw [s.receivers_setReceiver_of_ne hd]

/-- The messages that a step of a call returns are those that the queue loses. -/
theorem queuedOn_call {d : P} {b : CallAction} {rc : Receiver T C}
    (hrc : (s.receivers d).act b = some rc)
    (hgenuine : ∀ m ∈ (s.receivers d).messageq, Genuine net d m) (c : C) :
    queuedOn net s c = ((returnedIn (s, .call d b)).toList.filterMap fun p => p.2.on c) ++
      queuedOn net ((s.setReceiver d rc).startDelay net d b.call) c := by
  have hmessageq := (Receiver.act_cases hrc).2.messageq
  rw [returnedIn_call hrc, queuedOn, queuedOn, NetState.receivers_startDelay]
  by_cases hd : net.destination c = d
  · rw [hd, NetState.receivers_setReceiver_self, hmessageq, List.filterMap_append]
    cases (rc.calls b.call).result <;> rfl
  · rw [s.receivers_setReceiver_of_ne hd]
    cases hresult : (rc.calls b.call).result with
    | none => rfl
    | some m =>
      -- what another receiver returns did not come on this channel
      have hm : m ∈ (s.receivers d).messageq := by
        rw [hmessageq, hresult]
        exact List.mem_cons_self ..
      have hne : m.channel ≠ c := fun heq => hd (heq ▸ (hgenuine m hm).destination)
      have hon : m.on c = none := if_neg hne
      show _ = List.filterMap (fun p => p.2.on c) [(d, m)] ++ _
      rw [List.filterMap_cons, hon]
      rfl

namespace Conserves

theorem send (h : Conserves net tr s) {c₀ : C} {m : T} {lost : Bool}
    (hstep : netStep net s (.send c₀ m lost) = some s') :
    Conserves net (tr ++ [(s, .send c₀ m lost)]) s' := by
  cases lost with
  | true =>
    obtain rfl : s = s' := Option.some.inj hstep
    refine ⟨fun c => ?_, h.steady, h.genuine⟩
    rw [sentOn_snoc_of_none rfl, returnedOn_snoc_of_none rfl]
    exact h.fifo c
  | false =>
    obtain rfl : s.after (net.linkDelay c₀) (.link c₀ m) = s' := Option.some.inj hstep
    refine ⟨fun c => ?_, fun c => (h.steady c).schedule fun hc => ?_, h.genuine⟩
    · -- the message comes last on both sides
      rw [sentOn_snoc, returnedOn_snoc_of_none rfl, h.fifo c, NetState.after,
        Timers.observed_schedule, List.append_assoc, List.append_assoc]
      rfl
    · -- a channel has one delay
      rw [Event.on] at hc
      by_cases heq : c₀ = c
      · rw [heq]
      · rw [if_neg heq] at hc
        cases hc

theorem fire (h : Conserves net tr s) {i : ℕ} (hstep : netStep net s (.fire i) = some s') :
    Conserves net (tr ++ [(s, .fire i)]) s' := by
  have hgenuine := genuine_of_step hstep h.genuine
  obtain ⟨⟨e, timers⟩, hfire, rfl⟩ := Option.map_eq_some_iff.mp hstep
  refine ⟨fun c => ?_, fun c => ?_, hgenuine⟩
  · rw [sentOn_snoc_of_none rfl, returnedOn_snoc_of_none rfl, h.fifo c,
      (h.steady c).observed_fire hfire, queuedOn_happen, NetState.timers_happen, List.append_assoc]
    rfl
  · rw [NetState.timers_happen]
    exact (h.steady c).fire hfire

/-- A call returns the first message of the queue or leaves all where they are. -/
theorem call (h : Conserves net tr s) {d : P} {b : CallAction}
    (hstep : netStep net s (.call d b) = some s') :
    Conserves net (tr ++ [(s, .call d b)]) s' := by
  have hgenuine := genuine_of_step hstep h.genuine
  obtain ⟨rc, hrc, rfl⟩ := Option.map_eq_some_iff.mp hstep
  refine ⟨fun c => ?_, fun c => ?_, hgenuine⟩
  · rw [sentOn_snoc_of_none rfl, returnedOn_snoc, h.fifo c, observed_startDelay,
      queuedOn_call hrc (h.genuine d) c, List.append_assoc, List.append_assoc]
    rfl
  · rw [NetState.startDelay]
    split
    · exact (h.steady c).schedule fun hc => by cases hc
    · exact h.steady c

theorem step (h : Conserves net tr s) (hstep : netStep net s a = some s') :
    Conserves net (tr ++ [(s, a)]) s' := by
  cases a with
  | send c m lost => exact h.send hstep
  | call d b => exact h.call hstep
  | fire i => exact h.fire hstep
  | tick n =>
    obtain rfl := Option.some.inj hstep
    refine ⟨fun c => ?_, fun c => (h.steady c).tick n, h.genuine⟩
    rw [sentOn_snoc_of_none rfl, returnedOn_snoc_of_none rfl]
    exact h.fifo c

end Conserves

theorem conserves_of_trace (h : (network T net).Trace tr s) : Conserves net tr s :=
  h.invariant .start fun _ _ _ _ hs hstep => hs.step hstep

/-- What is returned was queued at the receiver that returns it. -/
theorem genuine_of_returned (h : (network T net).Trace tr s) {q : P × MessageFrom T C}
    (hq : q ∈ returned tr) : Genuine net q.1 q.2 := by
  obtain ⟨⟨s₀, a⟩, hp, hreturned⟩ := List.mem_filterMap.mp hq
  obtain ⟨tr₀, s₁, htr₀, hstep⟩ := h.exists_step hp
  cases a with
  | call d b =>
    obtain ⟨rc, hrc, -⟩ := Option.map_eq_some_iff.mp hstep
    rw [returnedIn_call hrc] at hreturned
    obtain ⟨m, hm, rfl⟩ := Option.map_eq_some_iff.mp hreturned
    refine (conserves_of_trace htr₀).genuine d m ?_
    rw [(Receiver.act_cases hrc).2.messageq, hm]
    exact List.mem_cons_self ..
  | send c m lost => cases hreturned
  | fire i => cases hreturned
  | tick n => cases hreturned

/-- What is returned was sent on the channel that it names. -/
theorem mem_sentOn_of_returned (h : (network T net).Trace tr s) {q : P × MessageFrom T C}
    (hq : q ∈ returned tr) : q.2.message ∈ sentOn tr q.2.channel := by
  rw [(conserves_of_trace h).fifo q.2.channel]
  exact List.mem_append_left _ (List.mem_filterMap.mpr ⟨q, hq, if_pos rfl⟩)

end Conservation

/-- **Messages are received in order, at most once, and wake their receivers**, in every run of
every network, whatever is lost, delayed or cancelled. -/
theorem receive_in_order [DecidableEq C] [DecidableEq P] (net : Network C P)
    (tr : List (NetState T C P × NetAction T C P)) (s : NetState T C P)
    (htr : (network T net).Trace tr s) :
    (∀ c, returnedOn tr c <+: sentOn tr c) ∧
    (∀ q ∈ returned tr, Genuine net q.1 q.2) ∧
    (∀ d r, (s.receivers d).calls r = .cancelled → ∀ p ∈ tr, p.2.IsOf d r → KeepsQueues net p) ∧
    (∀ d r, (s.receivers d).calls r ≠ .undefined) ∧
    ∀ d r, (s.receivers d).calls r = .waiting → (s.receivers d).messageq = [] := by
  refine ⟨fun c => ?_, fun q hq => genuine_of_returned htr hq, fun d r hcancelled p hp hof => ?_,
    fun d => (awake_of_trace htr d).defined, fun d => (awake_of_trace htr d).waiting⟩
  · rw [(conserves_of_trace htr).fifo c]
    exact List.prefix_append _ _
  · refine (keepsQueues_of_trace htr hp hof).resolve_right fun ⟨m, hm⟩ => ?_
    rw [hcancelled] at hm
    cases hm

/-- Two channels into one receiver, with two calls that the first delivery wakes. One of them is
cancelled, the other takes the first message. -/
theorem receive_in_order_two : ∃ (net : Network Bool Unit) (tr : _) (s : NetState ℕ Bool Unit),
    (network ℕ net).Trace tr s ∧ returnedOn tr true = [1] ∧
      (s.receivers ()).calls 1 = .cancelled ∧ returnedOn tr true <+: sentOn tr true := by
  let net : Network Bool Unit := {
    source := fun c => if c then "a".toList else "b".toList
    destination := fun _ => ()
    linkDelay := fun _ => 5
    receiveDelay := fun _ => 1 }
  obtain ⟨tr, s, htr, hreturned, hcancelled⟩ := Machine.exists_trace_of_record
    (M := network ℕ net)
    [.send true 1 false, .send false 2 false, .send true 3 true, .send true 4 false,
      .call () (.start 0), .call () (.start 1), .tick 5, .fire 0, .call () (.resume 0),
      .call () (.cancel 1), .fire 0, .tick 1, .fire 0, .fire 0, .call () (.resume 0),
      .call () (.resume 0)]
    (P := fun tr s => returnedOn tr true = [1] ∧ (s.receivers ()).calls 1 = .cancelled)
    (by decide)
  exact ⟨net, tr, s, htr, hreturned, hcancelled, (receive_in_order net tr s htr).1 true⟩

end Netsim

end Traxos
