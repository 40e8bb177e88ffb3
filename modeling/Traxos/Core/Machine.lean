import Mathlib.Data.Nat.Notation
import Mathlib.Data.List.Basic
import Mathlib.Data.List.TakeDrop
import Mathlib.Logic.Relation

/-! # Machines driven by a schedule

A **machine** is a start state and a partial step function: which step is taken is the scheduler's
choice, whether it is possible the machine's. A run is recorded as the list of its steps, each with
the state it was taken in, so a property may speak about any earlier moment of the run.

* **`Machine.Trace`** — the runs from the start state.
* **`Machine.Trace.invariant`** — what every step keeps holds of every run;
  `Machine.Trace.invariant_of_steps` is the same for runs whose steps all meet a condition.
* **`Machine.Trace.view`** — the runs of a machine are runs of another one that sees some of its
  steps.
* **`Machine.record`** — run a schedule; `Machine.Trace.record` extends a trace by it.
* **`Machine.Trace.simulate`** — a machine that can follow every step of another one by a schedule of
  its own can follow its runs.
* **`Machine.Reaches`** — what a scheduler that keeps to some of the actions can bring about;
  `Machine.exists_reaches` is the rule for a measure that it can lower. -/

namespace Traxos

variable {σ α : Type}

/-- A machine driven by a schedule of actions `α`. -/
structure Machine (σ α : Type) where
  /-- The start state. -/
  init : σ
  /-- The state after an action, `none` when it is not possible. -/
  step : σ → α → Option σ

namespace Machine

variable {M : Machine σ α}

/-- The runs of a machine: the steps taken, oldest first, each with the state before it, and the
state reached. -/
inductive Trace (M : Machine σ α) : List (σ × α) → σ → Prop
  | init : Trace M [] M.init
  | snoc {tr : List (σ × α)} {s s' : σ} {a : α} (htr : Trace M tr s)
      (hstep : M.step s a = some s') : Trace M (tr ++ [(s, a)]) s'

namespace Trace

/-- What the start state satisfies and every step that meets a condition `C` keeps holds of every
run whose steps all meet it. The invariant may speak about the steps taken so far. -/
theorem invariant_of_steps {C : σ → α → Prop} {I : List (σ × α) → σ → Prop}
    (hinit : I [] M.init)
    (hkeep : ∀ tr s a s', I tr s → C s a → M.step s a = some s' → I (tr ++ [(s, a)]) s')
    {tr : List (σ × α)} {s : σ} (h : M.Trace tr s) (hC : ∀ p ∈ tr, C p.1 p.2) : I tr s := by
  induction h with
  | init => exact hinit
  | snoc _ hstep ih =>
    refine hkeep _ _ _ _ (ih fun p hp => hC p (List.mem_append_left _ hp)) ?_ hstep
    exact hC _ (List.mem_append_right _ (List.mem_singleton_self _))

/-- What the start state satisfies and every step keeps holds of every run. -/
theorem invariant {I : List (σ × α) → σ → Prop} (hinit : I [] M.init)
    (hkeep : ∀ tr s a s', I tr s → M.step s a = some s' → I (tr ++ [(s, a)]) s')
    {tr : List (σ × α)} {s : σ} (h : M.Trace tr s) : I tr s :=
  h.invariant_of_steps (C := fun _ _ => True) hinit
    (fun tr s a s' hs _ => hkeep tr s a s' hs) fun _ _ => trivial

/-- The steps before a moment of a run are a run to the state of that moment. -/
theorem take {tr : List (σ × α)} {s : σ} (h : M.Trace tr s) {j : ℕ} {sj : σ} {a : α}
    (hj : tr[j]? = some (sj, a)) : M.Trace (tr.take j) sj := by
  induction h with
  | init => simp at hj
  | @snoc tr s s' b htr hstep ih =>
    by_cases hlt : j < tr.length
    · -- the moment lies before the last step
      rw [List.getElem?_append_left hlt] at hj
      rw [List.take_append_of_le_length (Nat.le_of_lt hlt)]
      exact ih hj
    · -- it is the moment of the last step
      obtain rfl : j = tr.length := by
        have := (List.getElem?_eq_some_iff.mp hj).1
        rw [List.length_append, List.length_singleton] at this
        omega
      obtain ⟨rfl, rfl⟩ : s = sj ∧ b = a := by simpa using hj
      rwa [List.take_append_of_le_length (Nat.le_refl _), List.take_length]

/-- The state after the step taken at a moment of a run. -/
theorem exists_step {tr : List (σ × α)} {s : σ} (h : M.Trace tr s) {p : σ × α} (hp : p ∈ tr) :
    ∃ tr' s', M.Trace tr' p.1 ∧ M.step p.1 p.2 = some s' := by
  induction h with
  | init => cases hp
  | snoc htr hstep ih =>
    rcases List.mem_append.mp hp with hp | hp
    · exact ih hp
    · obtain rfl := List.mem_singleton.mp hp
      exact ⟨_, _, htr, hstep⟩

/-- A run seen through `f` by another machine, to which a step is the step `g` says or none at all,
is a run of that machine. -/
theorem view {τ β : Type} {N : Machine τ β} (f : σ → τ) (g : σ × α → Option β)
    (hinit : f M.init = N.init)
    (hstep : ∀ s a s', M.step s a = some s' →
      (g (s, a)).elim (some (f s)) (N.step (f s)) = some (f s'))
    {tr : List (σ × α)} {s : σ} (h : M.Trace tr s) :
    N.Trace (tr.filterMap fun p => (g p).map fun b => (f p.1, b)) (f s) := by
  induction h with
  | init =>
    rw [hinit]
    exact .init
  | @snoc tr s s' a htr hlast ih =>
    have hsees := hstep s a s' hlast
    rw [List.filterMap_append, List.filterMap_cons, List.filterMap_nil]
    cases hg : g (s, a) with
    | none =>
      -- nothing has changed
      rw [hg] at hsees
      obtain heq : f s = f s' := Option.some.inj hsees
      rw [Option.map_none, List.append_nil, ← heq]
      exact ih
    | some b =>
      rw [hg] at hsees
      rw [Option.map_some]
      exact ih.snoc hsees

end Trace

/-- Run a schedule: the steps taken and the state reached, `none` when an action is not possible. -/
def record (M : Machine σ α) (s : σ) : List α → Option (List (σ × α) × σ)
  | [] => some ([], s)
  | a :: as => do
    let s' ← M.step s a
    let (tr, t) ← M.record s' as
    some ((s, a) :: tr, t)

/-- A schedule of one action. -/
theorem record_singleton {s s' : σ} {a : α} (h : M.step s a = some s') :
    M.record s [a] = some ([(s, a)], s') := by
  simp only [Machine.record, h, Option.bind_eq_bind, Option.bind_some]

/-- A schedule of two actions. -/
theorem record_pair {s s' s'' : σ} {a b : α} (h : M.step s a = some s')
    (h' : M.step s' b = some s'') : M.record s [a, b] = some ([(s, a), (s', b)], s'') := by
  simp only [Machine.record, h, h', Option.bind_eq_bind, Option.bind_some]

/-- The steps recorded from a state reached extend the run to it. -/
theorem Trace.record {tr tr' : List (σ × α)} {s t : σ} (h : M.Trace tr s) {as : List α}
    (hr : M.record s as = some (tr', t)) : M.Trace (tr ++ tr') t := by
  induction as generalizing tr s tr' with
  | nil =>
    obtain ⟨rfl, rfl⟩ : [] = tr' ∧ s = t := by simpa [Machine.record] using hr
    rwa [List.append_nil]
  | cons a as ih =>
    -- the first step extends the run to `s'`, and the rest is recorded from there
    obtain ⟨s', hs', ⟨tr₁, t₁⟩, hrest, heq⟩ : ∃ s', M.step s a = some s' ∧
        ∃ p, M.record s' as = some p ∧ some ((s, a) :: p.1, p.2) = some (tr', t) := by
      simpa only [Machine.record, Option.bind_eq_bind, Option.bind_eq_some_iff] using hr
    obtain ⟨rfl, rfl⟩ : (s, a) :: tr₁ = tr' ∧ t₁ = t := by simpa using heq
    have := ih (h.snoc hs') hrest
    rwa [List.append_assoc, List.singleton_append] at this

/-- **The simulation rule**: when another machine can follow every step by a schedule of its own, it
can follow every run. The relation may speak about the steps that it has taken. What `f` observes of
the steps of the one machine, `g` observes of the steps of the other. -/
theorem Trace.simulate {τ β ε : Type} {N : Machine τ β} {R : σ → List (τ × β) → τ → Prop}
    {f : σ × α → Option ε} {g : τ × β → Option ε} (hinit : R M.init [] N.init)
    (hstep : ∀ tr s a s' tr' t, M.Trace tr s → N.Trace tr' t → R s tr' t → M.step s a = some s' →
      ∃ bs tr'' t', N.record t bs = some (tr'', t') ∧ R s' (tr' ++ tr'') t' ∧
        tr''.filterMap g = (f (s, a)).toList)
    {tr : List (σ × α)} {s : σ} (h : M.Trace tr s) :
    ∃ tr' t, N.Trace tr' t ∧ R s tr' t ∧ tr'.filterMap g = tr.filterMap f := by
  induction h with
  | init => exact ⟨[], N.init, .init, hinit, rfl⟩
  | @snoc tr s s' a htr hlast ih =>
    obtain ⟨tr', t, htr', hR, hobserved⟩ := ih
    obtain ⟨bs, tr'', t', hrecord, hR', hobserved'⟩ := hstep _ _ _ _ tr' t htr htr' hR hlast
    refine ⟨tr' ++ tr'', t', htr'.record hrecord, hR', ?_⟩
    rw [List.filterMap_append, List.filterMap_append, hobserved, hobserved']
    cases h : f (s, a) <;> simp [h]

/-- What a schedule shows of its steps and the state it reaches holds of some run. -/
theorem exists_trace_of_record (as : List α) {P : List (σ × α) → σ → Prop}
    [∀ tr s, Decidable (P tr s)]
    (h : (M.record M.init as).any (fun p => decide (P p.1 p.2)) = true) :
    ∃ tr s, M.Trace tr s ∧ P tr s := by
  obtain ⟨⟨tr, s⟩, hrecord, hP⟩ := (Option.any_eq_true _ _).mp h
  exact ⟨tr, s, Trace.init.record hrecord, of_decide_eq_true hP⟩

/-! ## What can be reached -/

/-- A schedule of actions with the property `ok` leads from one state to another. -/
def Reaches (M : Machine σ α) (ok : α → Prop) : σ → σ → Prop :=
  Relation.ReflTransGen fun s s' => ∃ a, ok a ∧ M.step s a = some s'

section Reaches

variable {ok : α → Prop} {s s' : σ}

theorem Reaches.of_step {a : α} (hok : ok a) (hstep : M.step s a = some s') : M.Reaches ok s s' :=
  .single ⟨a, hok, hstep⟩

theorem Reaches.mono {ok' : α → Prop} (h : M.Reaches ok s s') (hok : ∀ a, ok a → ok' a) :
    M.Reaches ok' s s' :=
  Relation.ReflTransGen.mono (fun _ _ ⟨a, ha, hstep⟩ => ⟨a, hok a ha, hstep⟩) _ _ h

/-- A run goes on to what is reached from its state. -/
theorem Trace.exists_append_of_reaches {tr : List (σ × α)} (htr : M.Trace tr s)
    (h : M.Reaches ok s s') : ∃ tr', M.Trace (tr ++ tr') s' ∧ ∀ p ∈ tr', ok p.2 := by
  induction h with
  | refl => exact ⟨[], by rwa [List.append_nil], List.forall_mem_nil _⟩
  | @tail s₁ s₂ _ hstep ih =>
    obtain ⟨tr', htr', hok⟩ := ih
    obtain ⟨a, ha, hstep⟩ := hstep
    refine ⟨tr' ++ [(s₁, a)], ?_, fun p hp => ?_⟩
    · rw [← List.append_assoc]
      exact htr'.snoc hstep
    · rcases List.mem_append.mp hp with hp | hp
      · exact hok p hp
      · obtain rfl := List.mem_singleton.mp hp
        exact ha

/-- What is reached from a state of a run is a state of a run. -/
theorem Trace.of_reaches {tr : List (σ × α)} (htr : M.Trace tr s) (h : M.Reaches ok s s') :
    ∃ tr', M.Trace tr' s' := by
  obtain ⟨tr', htr', -⟩ := htr.exists_append_of_reaches h
  exact ⟨_, htr'⟩

/-- **The measure rule**: a goal can be reached when every state short of it leads on to one with a
smaller measure. -/
theorem exists_reaches {I goal : σ → Prop} (μ : σ → ℕ)
    (h : ∀ s, I s → ∃ s', M.Reaches ok s s' ∧ (goal s' ∨ I s' ∧ μ s' < μ s)) (hI : I s) :
    ∃ s', M.Reaches ok s s' ∧ goal s' := by
  induction hn : μ s using Nat.strongRecOn generalizing s with
  | ind n ih =>
    obtain ⟨s₁, hs₁, hgoal | ⟨hI₁, hlt⟩⟩ := h s hI
    · exact ⟨s₁, hs₁, hgoal⟩
    · obtain ⟨s', hs', hgoal⟩ := ih (μ s₁) (hn ▸ hlt) hI₁ rfl
      exact ⟨s', hs₁.trans hs', hgoal⟩

end Reaches

end Machine

end Traxos
