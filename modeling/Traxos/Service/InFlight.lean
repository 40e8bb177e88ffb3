import Traxos.Netsim.Transit
import Traxos.Service.Network

/-! # What is in flight between clients and replicas

One direction of the traffic: the channel from each client to each replica, or back, and the
coroutines that listen at their ends. What is in flight for a client and a replica is what is
pending on their channel (`Direction.inFlight`). Every step of the simulated network, and every turn
of a listener, changes it as a step on lists would: a `send` appends to one of them, a call that is
over takes the first message of one, and all else leaves them alone. -/

namespace Traxos

namespace Service

open Netsim

variable {T C P : Type}

/-- One direction: the channel between client `c` and replica `r`, who listens at its end, and the
receivers that listeners listen at. -/
structure Direction (C P : Type) where
  channel : ℕ → ℕ → Option C
  listener : ℕ → ℕ → ℕ
  port : ℕ → Option P

/-- No channel is used twice, and channels lead to those who listen at their ends. -/
structure Direction.Sound (D : Direction C P) (net : Netsim.Network C P) : Prop where
  inj : ∀ {c r c' r' : ℕ} {ch : C}, D.channel c r = some ch → D.channel c' r' = some ch →
    c = c' ∧ r = r'
  destination : ∀ {c r o : ℕ} {ch : C} {d : P}, D.channel c r = some ch → D.port o = some d →
    (net.destination ch = d ↔ D.listener c r = o)

/-- The channel is one of the direction. -/
def Direction.Uses (D : Direction C P) (ch : C) : Prop := ∃ c r, D.channel c r = some ch

section

variable [DecidableEq C] [DecidableEq P]

/-- What is in flight between client `c` and replica `r`, oldest first. -/
def Direction.inFlight (D : Direction C P) (net : Netsim.Network C P) (s : NetState T C P)
    (l : ℕ → Listener) (c r : ℕ) : List T :=
  (D.channel c r).elim [] fun ch => pending net s (l (D.listener c r)) ch

variable {D : Direction C P} {net : Netsim.Network C P} {s s' : NetState T C P} {a : NetAction T C P}
  {l l' : ℕ → Listener} {c r o : ℕ} {ch : C} {d : P} {m : MessageFrom T C} {ok : C → T → Prop}

omit [DecidableEq P] in
theorem Direction.inFlight_of_channel (h : D.channel c r = some ch) (s : NetState T C P)
    (l : ℕ → Listener) :
    D.inFlight net s l c r = pending net s (l (D.listener c r)) ch := by
  rw [inFlight, h, Option.elim_some]

omit [DecidableEq P] in
/-- What is in flight changes channel by channel. -/
theorem Direction.inFlight_congr
    (h : ∀ c r ch, D.channel c r = some ch →
      pending net s' (l' (D.listener c r)) ch = pending net s (l (D.listener c r)) ch) :
    D.inFlight net s' l' = D.inFlight net s l := by
  funext c r
  rw [inFlight, inFlight]
  cases hch : D.channel c r with
  | none => rfl
  | some ch => exact h c r ch hch

omit [DecidableEq P] in
theorem Direction.inFlight_init (D : Direction C P) (net : Netsim.Network C P) (c r : ℕ) :
    D.inFlight net ({} : NetState T C P) (fun _ => {}) c r = [] := by
  rw [inFlight]
  cases D.channel c r with
  | none => rfl
  | some ch => rfl

namespace Direction.Sound

variable (hD : D.Sound net)

include hD

omit [DecidableEq C] [DecidableEq P] in
/-- A call at another receiver. -/
theorem call_ne (hport : D.port o = some d) (hch : D.channel c r = some ch)
    (hne : D.listener c r ≠ o) (b b' : CallAction) :
    (.call d b : NetAction T C P) ≠ .call (net.destination ch) b' := by
  intro heq
  exact hne ((hD.destination hch hport).mp (NetAction.call.inj heq).1.symm)

/-- **The call of a listener** goes on. -/
theorem inFlight_call (hs : Reached net ok s) (hport : D.port o = some d) {b : CallAction}
    (hstep : netStep net s (.call d b) = some s') (hcall : b.call = (l o).calls) :
    D.inFlight net s' (Function.update l o { l o with receiving := true }) =
      D.inFlight net s l := by
  obtain ⟨tr, htr, -⟩ := hs
  refine inFlight_congr fun c r ch hch => ?_
  by_cases ho : D.listener c r = o
  · rw [ho, Function.update_self]
    obtain rfl := (hD.destination hch hport).mpr ho
    exact pending_of_call htr hstep hcall
  · rw [Function.update_of_ne ho, pending_of_elsewhere htr hstep (hD.call_ne hport hch ho _)]
    exact List.append_nil _

/-- **A call is cancelled.** -/
theorem inFlight_cancel (hs : Reached net ok s) (hport : D.port o = some d)
    (hstep : netStep net s (.call d (.cancel (l o).calls)) = some s') (readyAt : ℕ) :
    D.inFlight net s' (Function.update l o ((l o).finish readyAt)) = D.inFlight net s l := by
  obtain ⟨tr, htr, -⟩ := hs
  refine inFlight_congr fun c r ch hch => ?_
  by_cases ho : D.listener c r = o
  · rw [ho, Function.update_self]
    obtain rfl := (hD.destination hch hport).mpr ho
    -- the call had not returned
    obtain ⟨rc, hrc, -⟩ := Option.map_eq_some_iff.mp hstep
    have hnone : (l o).result (s.receivers (net.destination ch)) = none := by
      rw [Listener.result, show ((s.receivers (net.destination ch)).calls (l o).calls).result = none
        from (Receiver.act_cases hrc).1, ite_self]
    have hinTransit := inTransit_of_not_returned htr hstep ch fun q hq => by
      cases (returnedIn_cancel s _ _).symm.trans hq
    rw [pending, pending, hnone, hinTransit]
    exact congrArg _ (List.append_nil _)
  · rw [Function.update_of_ne ho, pending_of_elsewhere htr hstep (hD.call_ne hport hch ho _)]
    exact List.append_nil _

/-- **A message is sent.** -/
theorem inFlight_send (hs : Reached net ok s) (hch : D.channel c r = some ch) {m : T} {lost : Bool}
    (hstep : netStep net s (.send ch m lost) = some s') :
    D.inFlight net s' l =
      if lost then D.inFlight net s l
      else setChannel (D.inFlight net s l) c r (D.inFlight net s l c r ++ [m]) := by
  obtain ⟨tr, htr, -⟩ := hs
  cases lost with
  | true =>
    obtain rfl := Option.some.inj hstep
    rfl
  | false =>
    funext c' r'
    rw [if_neg (Bool.false_ne_true), setChannel]
    cases hch' : D.channel c' r' with
    | none =>
      have hne : ¬ (c' = c ∧ r' = r) := by
        rintro ⟨rfl, rfl⟩
        cases hch.symm.trans hch'
      rw [if_neg hne, inFlight, inFlight, hch']
      rfl
    | some ch' =>
      have hpending : pending net s' (l (D.listener c' r')) ch' =
          pending net s (l (D.listener c' r')) ch' ++
            (NetAction.sentOn ch' (.send ch m false : NetAction T C P)).toList :=
        pending_of_elsewhere htr hstep fun b heq => by cases heq
      rw [inFlight_of_channel hch', hpending]
      by_cases heq : c' = c ∧ r' = r
      · obtain ⟨rfl, rfl⟩ := heq
        obtain rfl : ch = ch' := Option.some.inj (hch.symm.trans hch')
        rw [if_pos ⟨rfl, rfl⟩, inFlight_of_channel hch, NetAction.sentOn, if_pos rfl]
        rfl
      · have hne : ch ≠ ch' := by
          rintro rfl
          exact heq (hD.inj hch' hch)
        rw [if_neg heq, inFlight_of_channel hch', NetAction.sentOn, if_neg hne]
        exact List.append_nil _

omit [DecidableEq P] in
/-- **A listener goes on with what its call has returned**: the oldest message of one channel. -/
theorem inFlight_finish (hport : D.port o = some d)
    (hresult : (l o).result (s.receivers d) = some m) (hch : D.channel c r = some m.channel)
    (ho : D.listener c r = o) (readyAt : ℕ) :
    ∃ rest, D.inFlight net s l c r = m.message :: rest ∧
      D.inFlight net s (Function.update l o ((l o).finish readyAt)) =
        setChannel (D.inFlight net s l) c r rest := by
  have hd : net.destination m.channel = d := (hD.destination hch hport).mpr ho
  have hhere : pending net s (l o) m.channel =
      m.message :: pending net s ((l o).finish readyAt) m.channel := by
    have hresult' : (l o).result (s.receivers (net.destination m.channel)) = some m := by
      rw [hd, hresult]
    rw [pending_of_result hresult' readyAt, MessageFrom.on, if_pos rfl]
    rfl
  refine ⟨_, by rw [inFlight_of_channel hch, ho, hhere], ?_⟩
  funext c' r'
  rw [setChannel]
  by_cases heq : c' = c ∧ r' = r
  · obtain ⟨rfl, rfl⟩ := heq
    rw [if_pos ⟨rfl, rfl⟩, inFlight_of_channel hch, ho, Function.update_self]
  · rw [if_neg heq, inFlight, inFlight]
    cases hch' : D.channel c' r' with
    | none => rfl
    | some ch' =>
      rw [Option.elim_some, Option.elim_some]
      by_cases ho' : D.listener c' r' = o
      · -- the message came on another channel
        have hd' : net.destination ch' = d := (hD.destination hch' hport).mpr ho'
        have hresult' : (l o).result (s.receivers (net.destination ch')) = some m := by
          rw [hd', hresult]
        have hne : m.channel ≠ ch' := fun h => heq (hD.inj hch' (h ▸ hch))
        rw [ho', Function.update_self, pending_of_result hresult' readyAt, MessageFrom.on,
          if_neg hne]
        rfl
      · rw [Function.update_of_ne ho']

omit [DecidableEq P] in
/-- A listener whose call has not returned gives up. -/
theorem inFlight_finish_none (hport : D.port o = some d)
    (hresult : (l o).result (s.receivers d) = none) (readyAt : ℕ) :
    D.inFlight net s (Function.update l o ((l o).finish readyAt)) = D.inFlight net s l := by
  refine inFlight_congr fun c r ch hch => ?_
  by_cases ho : D.listener c r = o
  · obtain rfl := (hD.destination hch hport).mpr ho
    rw [ho, Function.update_self, pending_of_no_result hresult]
  · rw [Function.update_of_ne ho]

omit hD

/-- Timers and the clock move nothing. -/
theorem inFlight_of_quiet (hs : Reached net ok s) (hstep : netStep net s a = some s')
    (hquiet : (∃ i, a = .fire i) ∨ ∃ n, a = .tick n) :
    D.inFlight net s' l = D.inFlight net s l := by
  obtain ⟨tr, htr, -⟩ := hs
  refine inFlight_congr fun c r ch hch => ?_
  rcases hquiet with ⟨i, rfl⟩ | ⟨n, rfl⟩
  · rw [pending_of_elsewhere htr hstep fun b heq => by cases heq]
    exact List.append_nil _
  · rw [pending_of_elsewhere htr hstep fun b heq => by cases heq]
    exact List.append_nil _

omit [DecidableEq P] in
/-- When a listener may go on is no matter of messages. -/
theorem inFlight_readyAt (o readyAt : ℕ) :
    D.inFlight net s (Function.update l o { l o with readyAt := readyAt }) =
      D.inFlight net s l := by
  refine inFlight_congr fun c r ch hch => ?_
  by_cases ho : D.listener c r = o
  · rw [ho, Function.update_self]
    rfl
  · rw [Function.update_of_ne ho]

end Direction.Sound

end

end Service

end Traxos
