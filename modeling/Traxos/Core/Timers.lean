import Mathlib.Data.Nat.Notation
import Mathlib.Data.List.Basic
import Mathlib.Data.List.TakeDrop

/-! # Timers

A queue of **timers**: each has a deadline and an event. Timers fire in the order of their
deadlines, those with one deadline in the order in which they were set, and none fires early. How
late a timer fires is left open. The network uses such a queue for the timers of cotamer, a submodule
that is not under `src/`: this order is what is assumed of them.

* **`Timers.schedule`**, **`Timers.fire`**, **`Timers.tick`** — set a timer, let one fire, let time
  pass.
* **`Timers.exists_fire`** — when a timer is set, one of them can fire after some time.
* **`Timers.load`** — the weights of the events that are still to come.
* **`Timers.observed`** — what a partial function `f` sees of the events that are still to come.
* **`Timers.Steady`** — the events that `f` sees are all set with one delay.
* **`Timers.Steady.observed_fire`** — such events fire in the order in which they were set. -/

namespace Traxos

variable {ε β : Type}

/-- An event that is to happen. -/
structure Timer (ε : Type) where
  deadline : ℕ
  event : ε

/-- The time and the timers still set, in the order in which they were set. -/
structure Timers (ε : Type) where
  now : ℕ := 0
  pending : List (Timer ε) := []

namespace Timers

/-- Set a timer. -/
def schedule (q : Timers ε) (delay : ℕ) (e : ε) : Timers ε :=
  { q with pending := q.pending ++ [⟨q.now + delay, e⟩] }

/-- Let time pass. -/
def tick (q : Timers ε) (n : ℕ) : Timers ε := { q with now := q.now + n }

/-- The timer `t` is the `i`th and may fire: its time has come, no timer has an earlier deadline,
and none that was set before it has the same. -/
def Due (q : Timers ε) (i : ℕ) (t : Timer ε) : Prop :=
  t.deadline ≤ q.now ∧ (∀ u ∈ q.pending.take i, t.deadline < u.deadline) ∧
    ∀ u ∈ q.pending.drop (i + 1), t.deadline ≤ u.deadline

instance (q : Timers ε) (i : ℕ) (t : Timer ε) : Decidable (q.Due i t) :=
  inferInstanceAs (Decidable (_ ∧ _ ∧ _))

/-- Let the `i`th timer fire: its event and the timers left, `none` when it may not. -/
def fire (q : Timers ε) (i : ℕ) : Option (ε × Timers ε) :=
  (q.pending[i]?).bind fun t =>
    if q.Due i t then some (t.event, { q with pending := q.pending.eraseIdx i }) else none

/-- The sum of the weights `w` of the events to come. -/
def load (w : ε → ℕ) (q : Timers ε) : ℕ := q.pending.foldr (fun t n => w t.event + n) 0

/-- What `f` sees of the events to come. -/
def observed (f : ε → Option β) (q : Timers ε) : List β := q.pending.filterMap fun t => f t.event

/-- The events that `f` sees are all set with the delay `L`. -/
structure Steady (f : ε → Option β) (L : ℕ) (q : Timers ε) : Prop where
  ordered : q.pending.Pairwise fun t u => (f t.event).isSome → (f u.event).isSome →
    t.deadline ≤ u.deadline
  bounded : ∀ t ∈ q.pending, (f t.event).isSome → t.deadline ≤ q.now + L

section

variable {f : ε → Option β} {L i : ℕ} {q q' : Timers ε} {e : ε}

/-- **What firing does**: it takes one timer out, and those set before it have later deadlines. -/
theorem exists_of_fire (h : q.fire i = some (e, q')) : ∃ before t after,
    q.pending = before ++ t :: after ∧ t.event = e ∧ (∀ u ∈ before, t.deadline < u.deadline) ∧
      q' = { q with pending := before ++ after } := by
  obtain ⟨t, ht, h⟩ := Option.bind_eq_some_iff.mp h
  rw [Option.ite_none_right_eq_some] at h
  obtain ⟨hdue, heq⟩ := h
  obtain ⟨rfl, rfl⟩ := Prod.mk.inj (Option.some.inj heq)
  obtain ⟨hi, rfl⟩ := List.getElem?_eq_some_iff.mp ht
  refine ⟨q.pending.take i, _, q.pending.drop (i + 1), ?_, rfl, hdue.2.1, ?_⟩
  · rw [List.getElem_cons_drop, List.take_append_drop]
  · rw [List.eraseIdx_eq_take_drop_succ]

/-- Some timer comes first: those set before it are due later, and none is due earlier. -/
theorem exists_first {pending : List (Timer ε)} (h : pending ≠ []) : ∃ before t after,
    pending = before ++ t :: after ∧ (∀ u ∈ before, t.deadline < u.deadline) ∧
      ∀ u ∈ after, t.deadline ≤ u.deadline := by
  induction pending with
  | nil => exact absurd rfl h
  | cons v pending ih =>
    by_cases hnil : pending = []
    · exact ⟨[], v, [], by rw [hnil]; rfl, by simp, by simp⟩
    · obtain ⟨before, t, after, rfl, hbefore, hafter⟩ := ih hnil
      by_cases hlt : t.deadline < v.deadline
      · exact ⟨v :: before, t, after, rfl, List.forall_mem_cons.mpr ⟨hlt, hbefore⟩, hafter⟩
      · have hle : v.deadline ≤ t.deadline := Nat.le_of_not_lt hlt
        refine ⟨[], v, before ++ t :: after, rfl, by simp, fun u hu => ?_⟩
        rcases List.mem_append.mp hu with hu | hu
        · exact Nat.le_trans hle (Nat.le_of_lt (hbefore u hu))
        · rcases List.mem_cons.mp hu with rfl | hu
          · exact hle
          · exact Nat.le_trans hle (hafter u hu)

/-- **Time goes on**: when a timer is set, one can fire after some time. -/
theorem exists_fire (h : q.pending ≠ []) : ∃ n i e q', (q.tick n).fire i = some (e, q') := by
  obtain ⟨before, t, after, hpending, hbefore, hafter⟩ := exists_first h
  have ht : (q.tick t.deadline).pending[before.length]? = some t := by
    show q.pending[before.length]? = some t
    simp [hpending]
  have hdue : (q.tick t.deadline).Due before.length t := by
    refine ⟨Nat.le_add_left .., ?_, ?_⟩
    · show ∀ u ∈ q.pending.take before.length, t.deadline < u.deadline
      rwa [hpending, List.take_left]
    · show ∀ u ∈ q.pending.drop (before.length + 1), t.deadline ≤ u.deadline
      rwa [hpending, ← List.drop_drop, List.drop_left]
  refine ⟨t.deadline, before.length, t.event, { q.tick t.deadline with
    pending := (q.tick t.deadline).pending.eraseIdx before.length }, ?_⟩
  rw [fire, ht, Option.bind_some, if_pos hdue]

theorem load_append (w : ε → ℕ) (q : Timers ε) (before after : List (Timer ε)) :
    load w { q with pending := before ++ after } =
      load w { q with pending := before } + load w { q with pending := after } := by
  induction before with
  | nil => exact (Nat.zero_add _).symm
  | cons t before ih =>
    show w t.event + load w { q with pending := before ++ after } = _
    rw [ih, ← Nat.add_assoc]
    rfl

theorem load_schedule (w : ε → ℕ) (q : Timers ε) (delay : ℕ) (e : ε) :
    (q.schedule delay e).load w = q.load w + w e :=
  load_append w q q.pending [⟨q.now + delay, e⟩]

@[simp] theorem load_tick (w : ε → ℕ) (q : Timers ε) (n : ℕ) : (q.tick n).load w = q.load w := rfl

/-- Firing takes the weight of the event away. -/
theorem load_fire (w : ε → ℕ) (hfire : q.fire i = some (e, q')) : q.load w = w e + q'.load w := by
  obtain ⟨before, t, after, hpending, rfl, -, rfl⟩ := exists_of_fire hfire
  have hload : q.load w = load w { q with pending := before ++ t :: after } := by rw [← hpending]
  have hcons : load w { q with pending := t :: after } =
      w t.event + load w { q with pending := after } := rfl
  rw [hload, load_append, load_append, hcons]
  omega

theorem observed_schedule (f : ε → Option β) (q : Timers ε) (delay : ℕ) (e : ε) :
    (q.schedule delay e).observed f = q.observed f ++ (f e).toList := by
  rw [observed, schedule, List.filterMap_append, observed]
  rfl

theorem steady_empty (f : ε → Option β) (L : ℕ) : Steady f L {} :=
  ⟨List.Pairwise.nil, fun _ h => by cases h⟩

namespace Steady

theorem tick (h : Steady f L q) (n : ℕ) : Steady f L (q.tick n) := by
  refine ⟨h.ordered, fun t ht hf => ?_⟩
  have := h.bounded t ht hf
  show t.deadline ≤ q.now + n + L
  omega

/-- A timer that is set now comes after those set before, as they have the same delay. -/
theorem schedule (h : Steady f L q) {delay : ℕ} (hdelay : (f e).isSome → delay = L) :
    Steady f L (q.schedule delay e) := by
  constructor
  · refine List.pairwise_append.mpr ⟨h.ordered, List.pairwise_singleton _ _, ?_⟩
    intro t ht u hu hft hfu
    obtain rfl := List.mem_singleton.mp hu
    have hbound := h.bounded t ht hft
    have := hdelay hfu
    show t.deadline ≤ q.now + delay
    omega
  · intro t ht hf
    rcases List.mem_append.mp ht with ht | ht
    · exact h.bounded t ht hf
    · obtain rfl := List.mem_singleton.mp ht
      have := hdelay hf
      show q.now + delay ≤ q.now + L
      omega

theorem fire (h : Steady f L q) (hfire : q.fire i = some (e, q')) : Steady f L q' := by
  obtain ⟨before, t, after, hpending, -, -, rfl⟩ := exists_of_fire hfire
  have hsub : List.Sublist (before ++ after) q.pending := by
    rw [hpending]
    exact (List.sublist_cons_self t after).append_left before
  exact ⟨h.ordered.sublist hsub, fun u hu => h.bounded u (hsub.subset hu)⟩

/-- **Events with one delay fire in the order in which they were set.** -/
theorem observed_fire (h : Steady f L q) (hfire : q.fire i = some (e, q')) :
    q.observed f = (f e).toList ++ q'.observed f := by
  obtain ⟨before, t, after, hpending, rfl, hlater, rfl⟩ := exists_of_fire hfire
  have hordered := h.ordered
  rw [hpending, List.pairwise_append] at hordered
  rw [observed, observed, hpending, List.filterMap_append, List.filterMap_append]
  cases hf : f t.event with
  | none => rw [List.filterMap_cons, hf, Option.toList_none, List.nil_append]
  | some b =>
    -- what was set before is due later, so `f` sees nothing of it
    have hnone : before.filterMap (fun u => f u.event) = [] := by
      refine List.filterMap_eq_nil_iff.mpr fun u hu => ?_
      refine Option.not_isSome_iff_eq_none.mp fun hfu => ?_
      have hle := hordered.2.2 u hu t (List.mem_cons_self ..) hfu (by rw [hf]; rfl)
      exact absurd (hlater u hu) (Nat.not_lt.mpr hle)
    rw [hnone, List.filterMap_cons, hf]
    rfl

end Steady

end

end Timers

end Traxos
