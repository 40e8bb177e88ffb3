import Mathlib.Logic.Function.Basic
import Mathlib.Data.List.Basic
import Traxos.Pancy.Messages

/-! # Receivers

`receiver<T>` is the receive side of a port: a queue of messages and an event that wakes the calls
of `receive_from` that wait for one. Such a call suspends for the event, for the receive delay and
once more before it takes its message, and other calls, deliveries and its own cancellation may come
in between. `Receiver.act_cases` says what a call can do in one go: move on, or take the first
message; `Receiver.Awake` is the invariant that no call sleeps over a message.

Coroutines and events are those of cotamer, a submodule that is not under `src/`. What is assumed of
them: one coroutine runs at a time, up to where it suspends; `arm()` returns an event, and the next
`trigger()` of `receivable_` fires it for every call that waits; and of `cot::after` the order of
`Timers`. -/

namespace Traxos

namespace Netsim

variable {T C : Type}

/-- `message_from_type`. The channel that the message came on is not part of it: only statements
look at it. -/
structure MessageFrom (T C : Type) where
  message : T
  address : Str
  channel : C
  deriving DecidableEq, Repr

/-- Where a call of `receive_from` is. -/
inductive Place (T C : Type)
  | notCalled
  /-- In `receivable_.arm()`. -/
  | waiting
  /-- There still, but the event was triggered. -/
  | woken
  /-- In `cot::after(receive_delay_)`. -/
  | delayed
  /-- There still, but the time is over. -/
  | rested
  /-- In `cot::resolve`. -/
  | resolving
  | returned (m : MessageFrom T C)
  | cancelled
  /-- After `front` of an empty queue. -/
  | undefined
  deriving DecidableEq, Repr

/-- What the call has returned. -/
def Place.result : Place T C → Option (MessageFrom T C)
  | .returned m => some m
  | _ => none

/-- What `receivable_.trigger()` means for a call. -/
def Place.trigger : Place T C → Place T C
  | .waiting => .woken
  | place => place

/-- The queue of a receiver and the calls of its `receive_from`, in no particular order. -/
structure Receiver (T C : Type) where
  messageq : List (MessageFrom T C) := []
  calls : ℕ → Place T C := fun _ => .notCalled

/-- What a call of `receive_from` does next. -/
inductive CallAction
  | start (r : ℕ)
  | resume (r : ℕ)
  /-- The coroutine is destroyed where it is suspended. -/
  | cancel (r : ℕ)
  deriving DecidableEq, Repr

/-- The call that acts. -/
def CallAction.call : CallAction → ℕ
  | .start r => r
  | .resume r => r
  | .cancel r => r

namespace Receiver

/-- The call `r` comes to another place. -/
def setPlace (rc : Receiver T C) (r : ℕ) (place : Place T C) : Receiver T C :=
  { rc with calls := Function.update rc.calls r place }

/-- Enqueue an incoming message and wake all blocked calls. -/
def deliver (rc : Receiver T C) (m : MessageFrom T C) : Receiver T C :=
  { messageq := rc.messageq ++ [m], calls := fun r => (rc.calls r).trigger }

/-- The receive delay of the call `r` is over. -/
def rest (rc : Receiver T C) (r : ℕ) : Receiver T C :=
  match rc.calls r with
  | .delayed => rc.setPlace r .rested
  | _ => rc

/-- The inner loop of `receive_from`, from its test to the next suspension. -/
def awaitMessage (rc : Receiver T C) (r : ℕ) : Receiver T C :=
  if rc.messageq.isEmpty then rc.setPlace r .waiting else rc.setPlace r .resolving

/-- `receive_from` after its loops. -/
def popFront (rc : Receiver T C) (r : ℕ) : Receiver T C :=
  match rc.messageq with
  | [] => rc.setPlace r .undefined
  | m :: messageq => { rc with messageq := messageq }.setPlace r (.returned m)

/-- One go of a call of `receive_from`, `none` when it cannot be. -/
def act (rc : Receiver T C) : CallAction → Option (Receiver T C)
  | .start r =>
    match rc.calls r with
    | .notCalled => some (rc.awaitMessage r)
    | _ => none
  | .resume r =>
    match rc.calls r with
    | .woken => some (rc.setPlace r .delayed)
    | .rested => some (rc.awaitMessage r)
    | .resolving => some (if rc.messageq.isEmpty then rc.awaitMessage r else rc.popFront r)
    | _ => none
  | .cancel r =>
    match rc.calls r with
    | .waiting | .woken | .delayed | .rested | .resolving => some (rc.setPlace r .cancelled)
    | _ => none

section

variable {rc rc' : Receiver T C} {a : CallAction} {r : ℕ} {m : MessageFrom T C}

@[simp] theorem setPlace_messageq (rc : Receiver T C) (r : ℕ) (place : Place T C) :
    (rc.setPlace r place).messageq = rc.messageq := rfl

@[simp] theorem setPlace_calls (rc : Receiver T C) (r : ℕ) (place : Place T C) :
    (rc.setPlace r place).calls = Function.update rc.calls r place := rfl

@[simp] theorem deliver_messageq (rc : Receiver T C) (m : MessageFrom T C) :
    (rc.deliver m).messageq = rc.messageq ++ [m] := rfl

@[simp] theorem deliver_calls (rc : Receiver T C) (m : MessageFrom T C) (r : ℕ) :
    (rc.deliver m).calls r = (rc.calls r).trigger := rfl

/-- A call may come to `place` without taking a message: it waits for the event only if there is
none. -/
structure MayReach (rc : Receiver T C) (place : Place T C) : Prop where
  result : place.result = none
  defined : place ≠ .undefined
  waiting : place = .waiting → rc.messageq = []

/-- What a call can do in one go: it moves on to a place, or takes the first message of the queue.
-/
inductive Acts (rc : Receiver T C) (r : ℕ) : Receiver T C → Prop
  | moves {place : Place T C} (h : rc.MayReach place) : Acts rc r (rc.setPlace r place)
  | takes {m : MessageFrom T C} {messageq : List (MessageFrom T C)}
      (h : rc.messageq = m :: messageq) :
      Acts rc r ({ rc with messageq := messageq }.setPlace r (.returned m))

theorem acts_awaitMessage (rc : Receiver T C) (r : ℕ) : rc.Acts r (rc.awaitMessage r) := by
  rw [awaitMessage]
  split
  · rename_i hempty
    exact .moves ⟨rfl, by simp, fun _ => List.isEmpty_iff.mp hempty⟩
  · exact .moves ⟨rfl, by simp, by simp⟩

/-- Past the outer loop there is a message to take. -/
theorem acts_popFront (hne : ¬ rc.messageq.isEmpty) (r : ℕ) : rc.Acts r (rc.popFront r) := by
  rw [popFront]
  cases hq : rc.messageq with
  | nil => exact absurd (List.isEmpty_iff.mpr hq) hne
  | cons m messageq => exact .takes hq

/-- **What one go of a call does.** A call that has returned does nothing more. -/
theorem act_cases (h : rc.act a = some rc') :
    (rc.calls a.call).result = none ∧ rc.Acts a.call rc' := by
  cases a with
  | start r =>
    rw [act] at h
    show (rc.calls r).result = none ∧ rc.Acts r rc'
    split at h
    · rename_i hplace
      obtain rfl := Option.some.inj h
      exact ⟨by rw [hplace]; rfl, rc.acts_awaitMessage r⟩
    · cases h
  | resume r =>
    rw [act] at h
    show (rc.calls r).result = none ∧ rc.Acts r rc'
    split at h
    · rename_i hplace
      obtain rfl := Option.some.inj h
      exact ⟨by rw [hplace]; rfl, .moves ⟨rfl, by simp, by simp⟩⟩
    · rename_i hplace
      obtain rfl := Option.some.inj h
      exact ⟨by rw [hplace]; rfl, rc.acts_awaitMessage r⟩
    · rename_i hplace
      obtain rfl := Option.some.inj h
      refine ⟨by rw [hplace]; rfl, ?_⟩
      -- the test of the outer loop
      split
      · exact rc.acts_awaitMessage r
      · rename_i hne
        exact acts_popFront hne r
    · cases h
  | cancel r =>
    rw [act] at h
    show (rc.calls r).result = none ∧ rc.Acts r rc'
    have hmoves : rc.Acts r (rc.setPlace r .cancelled) := .moves ⟨rfl, by simp, by simp⟩
    split at h
    any_goals
      rename_i hplace
      obtain rfl := Option.some.inj h
      exact ⟨by rw [hplace]; rfl, hmoves⟩
    cases h

namespace Acts

/-- What the call has returned is what the queue has lost. -/
theorem messageq (h : rc.Acts r rc') :
    rc.messageq = (rc'.calls r).result.toList ++ rc'.messageq := by
  cases h with
  | moves hplace => simp [hplace.result]
  | takes hq => simp [hq, Place.result]

/-- The other calls stay where they are. -/
theorem calls_of_ne (h : rc.Acts r rc') {r' : ℕ} (hne : r' ≠ r) : rc'.calls r' = rc.calls r' := by
  cases h with
  | moves hplace => exact Function.update_of_ne hne _ _
  | takes hq => exact Function.update_of_ne hne _ _

end Acts

/-- What a call has returned stays. -/
theorem result_act (h : rc.act a = some rc') (hr : (rc.calls r).result = some m) :
    (rc'.calls r).result = some m := by
  obtain ⟨hnone, hacts⟩ := act_cases h
  have hne : r ≠ a.call := fun heq => by
    rw [heq, hnone] at hr
    cases hr
  rw [hacts.calls_of_ne hne, hr]

theorem result_trigger (place : Place T C) : place.trigger.result = place.result := by
  cases place <;> rfl

theorem result_rest (rc : Receiver T C) (r r' : ℕ) :
    ((rc.rest r).calls r').result = (rc.calls r').result := by
  rw [rest]
  split
  · rename_i hplace
    by_cases heq : r' = r
    · rw [heq, setPlace_calls, Function.update_self, hplace]
      rfl
    · rw [setPlace_calls, Function.update_of_ne heq]
  · rfl

@[simp] theorem rest_messageq (rc : Receiver T C) (r : ℕ) :
    (rc.rest r).messageq = rc.messageq := by
  rw [rest]
  split <;> rfl

/-- **No call waits for the event while there is a message**, and none has looked at the front of an
empty queue. -/
structure Awake (rc : Receiver T C) : Prop where
  waiting : ∀ r, rc.calls r = .waiting → rc.messageq = []
  defined : ∀ r, rc.calls r ≠ .undefined

namespace Awake

theorem start : Awake ({} : Receiver T C) := ⟨fun _ h => (by cases h), fun _ h => (by cases h)⟩

/-- A delivery wakes all calls that wait. -/
theorem deliver (h : rc.Awake) (m : MessageFrom T C) : (rc.deliver m).Awake := by
  constructor
  · intro r hr
    rw [deliver_calls] at hr
    cases hplace : rc.calls r <;> rw [hplace] at hr <;> cases hr
  · intro r hr
    rw [deliver_calls] at hr
    cases hplace : rc.calls r <;> rw [hplace] at hr
    case undefined => exact h.defined r hplace
    all_goals cases hr

theorem setPlace (h : rc.Awake) {place : Place T C} (hdefined : place ≠ .undefined)
    (hwaiting : place = .waiting → rc.messageq = []) (r : ℕ) :
    (rc.setPlace r place).Awake := by
  constructor
  · intro r' hr'
    by_cases heq : r' = r
    · rw [heq, setPlace_calls, Function.update_self] at hr'
      exact hwaiting hr'
    · rw [setPlace_calls, Function.update_of_ne heq] at hr'
      exact h.waiting r' hr'
  · intro r' hr'
    by_cases heq : r' = r
    · rw [heq, setPlace_calls, Function.update_self] at hr'
      exact hdefined hr'
    · rw [setPlace_calls, Function.update_of_ne heq] at hr'
      exact h.defined r' hr'

theorem rest (h : rc.Awake) (r : ℕ) : (rc.rest r).Awake := by
  rw [Receiver.rest]
  split
  · exact h.setPlace (by simp) (by simp) r
  · exact h

theorem acts (h : rc.Awake) (hacts : rc.Acts r rc') : rc'.Awake := by
  cases hacts with
  | moves hplace => exact h.setPlace hplace.defined hplace.waiting r
  | @takes m messageq hq =>
    -- nobody waits, as there was a message
    have hrest : Awake { rc with messageq := messageq } := by
      refine ⟨fun r' hr' => ?_, h.defined⟩
      rw [h.waiting r' hr'] at hq
      cases hq
    exact hrest.setPlace (by simp) (by simp) r

end Awake

end

end Receiver

end Netsim

end Traxos
