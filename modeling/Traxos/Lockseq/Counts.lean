import Mathlib.Algebra.BigOperators.Group.Finset.Piecewise
import Traxos.Lockseq.Exclusion
import Traxos.Lockseq.Simulation

/-! # What the counters count

`lockseq_model::client` counts the phases that have been completed, in `lock_complete` to
`unlock_complete`. A step of a client completes a list of phases: more than one when a loop of the
write or clear phase has nothing to do.

* **`Passes`** — a client completes its phases in order, round after round.
* **`completions`** — all completions of a run, so the counters are the numbers of their phases,
  modulo `2 ^ 64`.

The counters say how many clients are in a phase (`toNat_count_sub`). -/

namespace Traxos

namespace Lockseq

open Service Netsim

/-! ## The source -/

namespace Client

variable (cfg : Config) (cl : Client)

/-- The increments that `clearLoop` passes. -/
def clearLoopCompletes : List Phase :=
  if cl.n < cfg.maxSequenceLength then [] else [.clear]

/-- The increments that `writeLoop` passes. -/
def writeLoopCompletes : List Phase :=
  if cl.n ≠ cl.nvalues then [] else .write :: cl.clearLoopCompletes cfg

/-- The increments that `goto write_phase` passes. -/
def writePhaseCompletes (lockVersion : ℤ) : List Phase :=
  .lock :: ({ cl with lockVersion := lockVersion, n := 0 }).writeLoopCompletes cfg

/-- The increments that `onLock` passes. -/
def onLockCompletes (cid : ℕ) (resp : CasResponse) : List Phase :=
  if resp.errcode = .ok then cl.writePhaseCompletes cfg resp.version
  else if resp.errcode ≠ .noMatch then []
  else if resp.actual = cl.value ∧ 0 < cl.tries then cl.writePhaseCompletes cfg resp.version
  else if !(clientKeyPrefix cid).isPrefixOf resp.actual then []
  else []

/-- The increments that `onClear` passes. -/
def onClearCompletes (resp : RemoveResponse) : List Phase :=
  if resp.errcode = .ok then []
  else if resp.errcode ≠ .notFound then []
  else if cl.tries = 0 then [.clear]
  else []

/-- The increments that `onUnlock` passes. -/
def onUnlockCompletes (resp : RemoveResponse) : List Phase :=
  if resp.errcode ≠ .ok ∧ cl.tries = 0 then [] else [.unlock]

/-- The increments that `onResponse` passes; `onWrite` passes none. -/
def onResponseCompletes (cid : ℕ) (ph : Phase) (resp : Response) : List Phase :=
  match ph, resp with
  | .lock, .cas resp => cl.onLockCompletes cfg cid resp
  | .clear, .remove resp => cl.onClearCompletes resp
  | .unlock, .remove resp => cl.onUnlockCompletes resp
  | _, _ => []

/-- The increments that `receive` passes. -/
def receiveCompletes (cid : ℕ) (ph : Phase) (msg : Response) : List Phase :=
  match receiveResponse ph.kind cl.serial msg with
  | .accepted resp => cl.onResponseCompletes cfg cid ph resp
  | _ => []

/-- The increments that `wake` passes. -/
def wakeCompletes : List Phase :=
  match cl.pc with
  | .pause .write => cl.writeLoopCompletes cfg
  | .pause .clear => cl.clearLoopCompletes cfg
  | _ => []

end Client

namespace Deployment

/-- The increments of a step, and whose they are. -/
def completes (cfg : Config) (su : Setup) (s : State) : Action → List (ℕ × Phase)
  | .receive c _ =>
    match (s.clients c).pc, s.received su c with
    | .receive ph, some m => ((s.clients c).receiveCompletes cfg c ph m.message).map fun ph => (c, ph)
    | _, _ => []
  | .wake c => ((s.clients c).wakeCompletes cfg).map fun ph => (c, ph)
  | _ => []

/-- The increments of a run, in order. -/
def completions (cfg : Config) (su : Setup) (tr : List (State × Action)) : List (ℕ × Phase) :=
  tr.flatMap fun p => completes cfg su p.1 p.2

/-- How often phase `ph` has been completed. -/
def completed (cfg : Config) (su : Setup) (tr : List (State × Action)) (ph : Phase) : ℕ :=
  (completions cfg su tr).countP fun p => p.2 = ph

/-- `lock_complete` to `unlock_complete`, which are `unsigned long` and wrap round. -/
def count (cfg : Config) (su : Setup) (tr : List (State × Action)) (ph : Phase) : UInt64 :=
  .ofNat (completed cfg su tr ph)

end Deployment

/-! ## Rounds -/

/-- The phases of a round. -/
def Phase.round : List Phase := [.lock, .write, .clear, .unlock]

/-- The phases of a round before this one. -/
def Phase.before : Phase → List Phase
  | .lock => []
  | .write => [.lock]
  | .clear => [.lock, .write]
  | .unlock => [.lock, .write, .clear]

/-- What a client at `pc` has completed of its round. -/
def Pc.behind : Pc → List Phase
  | .delay => []
  | .send ph => ph.before
  | .receive ph => ph.before
  | .backoff => Phase.lock.before
  | .pause ph => ph.before
  | .thrown ph _ => ph.before

/-- Completing the phases `done` takes a client from `pc` to `pc'`, in its round or to its end. -/
inductive Passes (pc : Pc) (done : List Phase) : Pc → Prop
  | within {pc' : Pc} (h : pc.behind ++ done = pc'.behind) : Passes pc done pc'
  | ends (h : pc.behind ++ done = Phase.round) : Passes pc done .delay

section Clients

variable {cfg : Config} {cl cl' : Client} {ph : Phase} {pc : Pc} {c : ℕ}

/-- A step without increments stays in its phase. -/
theorem Passes.stay {pc' : Pc} (h : pc'.behind = pc.behind) : Passes pc [] pc' :=
  .within (by rw [List.append_nil, h])

theorem passes_clearLoop (h : pc.behind = Phase.clear.before) :
    Passes pc (cl.clearLoopCompletes cfg) (cl.clearLoop cfg).pc := by
  rw [Client.clearLoopCompletes, Client.clearLoop]
  split
  · exact .stay h.symm
  · exact .within (by rw [h]; rfl)

/-- Passing an increment first. -/
theorem Passes.cons {pc₀ pc' : Pc} {done : List Phase} (h : Passes pc done pc')
    (hpc : pc₀.behind ++ [ph] = pc.behind) : Passes pc₀ (ph :: done) pc' := by
  have hcons : pc₀.behind ++ ph :: done = pc.behind ++ done := by
    rw [← hpc, List.append_assoc, List.singleton_append]
  cases h with
  | within h => exact .within (hcons.trans h)
  | ends h => exact .ends (hcons.trans h)

theorem passes_writeLoop (h : pc.behind = Phase.write.before) :
    Passes pc (cl.writeLoopCompletes cfg) (cl.writeLoop cfg).pc := by
  rw [Client.writeLoopCompletes, Client.writeLoop]
  split
  · exact .stay h.symm
  · have hclear : Passes (.send .clear) _ (cl.clearLoop cfg).pc := passes_clearLoop rfl
    exact hclear.cons (by rw [h]; rfl)

theorem passes_writePhase (h : pc.behind = Phase.lock.before) (lockVersion : ℤ) :
    Passes pc (cl.writePhaseCompletes cfg lockVersion) (cl.writePhase cfg lockVersion).pc := by
  have hwrite : Passes (.send .write) _ (cl.writePhase cfg lockVersion).pc := passes_writeLoop rfl
  exact hwrite.cons (by rw [h]; rfl)

/-- Each of the two ways to the write phase passes the increment of the lock phase. -/
theorem passes_onLock (hpc : cl.pc = .receive .lock) (resp : CasResponse) :
    Passes cl.pc (cl.onLockCompletes cfg c resp) (cl.onLock cfg c resp).pc := by
  have hlock : cl.pc.behind = Phase.lock.before := by rw [hpc]; rfl
  rw [Client.onLockCompletes, Client.onLock]
  split
  · exact passes_writePhase hlock _
  split
  · exact .stay hlock.symm
  split
  · exact passes_writePhase hlock _
  split <;> exact .stay hlock.symm

theorem passes_onWrite (hpc : cl.pc = .receive .write) (resp : PutResponse) :
    Passes cl.pc [] (cl.onWrite resp).pc := by
  rw [Client.onWrite]
  split <;> exact .stay (by rw [hpc]; rfl)

theorem passes_onClear (hpc : cl.pc = .receive .clear) (resp : RemoveResponse) :
    Passes cl.pc (cl.onClearCompletes resp) (cl.onClear resp).pc := by
  have hclear : cl.pc.behind = Phase.clear.before := by rw [hpc]; rfl
  rw [Client.onClearCompletes, Client.onClear]
  split
  · exact .stay hclear.symm
  split
  · exact .stay hclear.symm
  split
  · exact .within (by rw [hclear]; rfl)
  · exact .stay hclear.symm

theorem passes_onUnlock (hpc : cl.pc = .receive .unlock) (resp : RemoveResponse) :
    Passes cl.pc (cl.onUnlockCompletes resp) (cl.onUnlock resp).pc := by
  rw [Client.onUnlockCompletes, Client.onUnlock]
  split
  · exact .stay (by rw [hpc]; rfl)
  · exact .ends (by rw [hpc]; rfl)

theorem passes_onResponse (hpc : cl.pc = .receive ph) (resp : Response) :
    Passes cl.pc (cl.onResponseCompletes cfg c ph resp) (cl.onResponse cfg c ph resp).pc := by
  cases ph with
  | lock =>
    cases resp with
    | cas resp => exact passes_onLock hpc resp
    | _ => exact .stay rfl
  | write =>
    cases resp with
    | put resp => exact passes_onWrite hpc resp
    | _ => exact .stay rfl
  | clear =>
    cases resp with
    | remove resp => exact passes_onClear hpc resp
    | _ => exact .stay rfl
  | unlock =>
    cases resp with
    | remove resp => exact passes_onUnlock hpc resp
    | _ => exact .stay rfl

theorem passes_retry (hpc : cl.pc = .receive ph) (leader randomReplica : ℕ) :
    Passes cl.pc [] (({ cl with leader := leader }).retry ph randomReplica).pc :=
  .stay (by rw [hpc]; rfl)

theorem passes_receive (hpc : cl.pc = .receive ph) (msg : Response) (randomReplica : ℕ) :
    Passes cl.pc (cl.receiveCompletes cfg c ph msg) (cl.receive cfg c ph msg randomReplica).pc := by
  unfold Client.receiveCompletes Client.receive
  cases receiveResponse ph.kind cl.serial msg with
  | stale => exact .stay rfl
  | redirected replicaid => exact passes_retry hpc replicaid randomReplica
  | accepted resp => exact passes_onResponse hpc resp
  | unexpected => exact passes_retry hpc cl.leader randomReplica

theorem passes_wake (hwake : cl.wake cfg = some cl') :
    Passes cl.pc (cl.wakeCompletes cfg) cl'.pc := by
  unfold Client.wake at hwake
  unfold Client.wakeCompletes
  split at hwake
  · rename_i hpc
    obtain rfl := Option.some.inj hwake
    rw [hpc]
    exact .stay rfl
  · rename_i hpc
    obtain rfl := Option.some.inj hwake
    rw [hpc]
    exact passes_writeLoop rfl
  · rename_i hpc
    obtain rfl := Option.some.inj hwake
    rw [hpc]
    exact passes_clearLoop rfl
  · cases hwake

end Clients

/-! ## Every client goes its rounds -/

/-- The increments of client `c`. -/
def completionsOf (c : ℕ) (l : List (ℕ × Phase)) : List Phase :=
  l.filterMap fun p => if p.1 = c then some p.2 else none

@[simp] theorem completionsOf_nil (c : ℕ) : completionsOf c [] = [] := rfl

theorem completionsOf_map (c d : ℕ) (done : List Phase) :
    completionsOf d (done.map fun ph => (c, ph)) = if c = d then done else [] := by
  rw [completionsOf, List.filterMap_map]
  by_cases h : c = d
  · rw [if_pos h]
    simp [h]
  · rw [if_neg h]
    simp [h]

section Steps

variable {cfg : Config} {su : Setup} {s s' : Deployment.State} {a : Deployment.Action}
  {tr : List (Deployment.State × Deployment.Action)} {c : ℕ}

/-- The step of one client. -/
theorem passes_update {clients : ℕ → Client} {cl : Client} (done : List Phase)
    (h : Passes (clients c).pc done cl.pc) (d : ℕ) :
    Passes (clients d).pc (completionsOf d (done.map fun ph => (c, ph)))
      (Function.update clients c cl d).pc := by
  rw [completionsOf_map]
  by_cases hd : d = c
  · subst hd
    rw [if_pos rfl, Function.update_self]
    exact h
  · rw [if_neg (Ne.symm hd), Function.update_of_ne hd]
    exact .stay rfl

theorem passes_step (hstep : Deployment.step cfg su s a = some s') (d : ℕ) :
    Passes (s.clients d).pc (completionsOf d (Deployment.completes cfg su s a)) (s'.clients d).pc := by
  cases a with
  | begin c gid x nvalues =>
    simp only [Deployment.step, Option.ite_none_right_eq_some, Option.some.injEq] at hstep
    obtain ⟨⟨-, hpc, -⟩, rfl⟩ := hstep
    exact passes_update [] (.stay (by rw [hpc]; rfl)) d
  | send c lost =>
    simp only [Deployment.step] at hstep
    split at hstep
    · rename_i ph hpc
      obtain ⟨info, -, chan, -, net, -, hs'⟩ := by
        simpa only [Deployment.State.sendRequest, Option.bind_eq_bind, Option.bind_eq_some_iff]
          using hstep
      obtain rfl := Option.some.inj hs'
      exact passes_update [] (.stay (by rw [hpc]; rfl)) d
    · cases hstep
  | listen c =>
    simp only [Deployment.step] at hstep
    split at hstep
    · simp only [Option.ite_none_right_eq_some, Option.map_eq_some_iff] at hstep
      obtain ⟨-, net, -, rfl⟩ := hstep
      exact passes_update [] (.stay rfl) d
    · cases hstep
  | resume c =>
    simp only [Deployment.step, Option.ite_none_right_eq_some, Option.map_eq_some_iff] at hstep
    obtain ⟨-, net, -, rfl⟩ := hstep
    exact .stay rfl
  | receive c randomReplica =>
    simp only [Deployment.step] at hstep
    split at hstep
    · rename_i ph hpc
      simp only [Option.ite_none_right_eq_some, Option.map_eq_some_iff] at hstep
      obtain ⟨-, m, hm, rfl⟩ := hstep
      have hcompletes : Deployment.completes cfg su s (.receive c randomReplica) =
          ((s.clients c).receiveCompletes cfg c ph m.message).map fun ph => (c, ph) := by
        simp only [Deployment.completes, hpc, hm]
      rw [hcompletes]
      exact passes_update _ (passes_receive hpc m.message randomReplica) d
    · cases hstep
  | timeout c randomReplica =>
    simp only [Deployment.step] at hstep
    split at hstep
    · rename_i ph hpc
      simp only [Option.ite_none_right_eq_some, Option.some.injEq] at hstep
      obtain ⟨-, rfl⟩ := hstep
      exact passes_update [] (passes_retry hpc _ randomReplica) d
    · cases hstep
  | wake c =>
    simp only [Deployment.step, Option.ite_none_right_eq_some, Option.map_eq_some_iff] at hstep
    obtain ⟨-, cl, hwake, rfl⟩ := hstep
    exact passes_update _ (passes_wake hwake) d
  | serve r =>
    simp only [Deployment.step, Option.ite_none_right_eq_some, Option.map_eq_some_iff] at hstep
    obtain ⟨-, net, -, rfl⟩ := hstep
    exact .stay rfl
  | resumeServer r =>
    simp only [Deployment.step, Option.ite_none_right_eq_some, Option.map_eq_some_iff] at hstep
    obtain ⟨-, net, -, rfl⟩ := hstep
    exact .stay rfl
  | handle r lost =>
    obtain ⟨⟨m, found⟩, -, replyChan, -, net, -, hs'⟩ := by
      simpa only [Deployment.step, Option.bind_eq_bind, Option.bind_eq_some_iff] using hstep
    obtain rfl := Option.some.inj hs'
    obtain ⟨vv, replicas, hreply⟩ := Following.reply_state s r m.message
    show Passes _ _ (((s.reply r m.message).2).clients d).pc
    rw [hreply]
    exact .stay rfl
  | fireRequest i =>
    obtain ⟨net, -, rfl⟩ := Option.map_eq_some_iff.mp hstep
    exact .stay rfl
  | fireResponse i =>
    obtain ⟨net, -, rfl⟩ := Option.map_eq_some_iff.mp hstep
    exact .stay rfl
  | tick n =>
    obtain ⟨requests, -, responses, -, hs'⟩ := by
      simpa only [Deployment.step, Option.bind_eq_bind, Option.bind_eq_some_iff] using hstep
    obtain rfl := Option.some.inj hs'
    exact .stay rfl

/-- **Every client completes its phases in order**: so many full rounds, and what it has done of the
present one. -/
theorem exists_rounds (htr : (deployment cfg su).Trace tr s) (c : ℕ) :
    ∃ k, completionsOf c (Deployment.completions cfg su tr) =
      (List.replicate k Phase.round).flatten ++ (s.clients c).pc.behind := by
  induction htr with
  | init => exact ⟨0, rfl⟩
  | @snoc tr s s' a htr hstep ih =>
    obtain ⟨k, hk⟩ := ih
    have hsnoc : completionsOf c (Deployment.completions cfg su (tr ++ [(s, a)])) =
        (List.replicate k Phase.round).flatten ++ ((s.clients c).pc.behind ++
          completionsOf c (Deployment.completes cfg su s a)) := by
      rw [Deployment.completions, List.flatMap_append, List.flatMap_singleton, completionsOf,
        List.filterMap_append, ← List.append_assoc, ← hk]
      rfl
    have hpasses := passes_step hstep c
    rw [hsnoc]
    generalize (s'.clients c).pc = pc at hpasses ⊢
    cases hpasses with
    | within h => exact ⟨k, by rw [h]⟩
    | ends h =>
      refine ⟨k + 1, ?_⟩
      rw [h, List.replicate_succ', List.flatten_append, List.flatten_singleton]
      exact (List.append_nil _).symm

/-- Increments are those of clients. -/
theorem lt_nclients_of_mem_completes (habsent : ∀ c, cfg.nclients ≤ c → (s.clients c).pc = .delay)
    {p : ℕ × Phase} (hp : p ∈ Deployment.completes cfg su s a) : p.1 < cfg.nclients := by
  have hpresent : ∀ {c}, (s.clients c).pc ≠ .delay → c < cfg.nclients := fun hpc =>
    Nat.lt_of_not_le fun hle => hpc (habsent _ hle)
  cases a with
  | receive c randomReplica =>
    simp only [Deployment.completes] at hp
    split at hp
    · rename_i hpc _
      obtain ⟨ph, -, rfl⟩ := List.mem_map.mp hp
      exact hpresent (by rw [hpc]; simp)
    · cases hp
  | wake c =>
    obtain ⟨ph, hph, rfl⟩ := List.mem_map.mp hp
    refine hpresent fun hpc => ?_
    rw [Client.wakeCompletes, hpc] at hph
    cases hph
  | _ => cases hp

/-- The increments of all clients together. -/
theorem countP_eq_sum {n : ℕ} {l : List (ℕ × Phase)} (hl : ∀ p ∈ l, p.1 < n) (ph : Phase) :
    l.countP (fun p => p.2 = ph) = ∑ c ∈ Finset.range n, (completionsOf c l).count ph := by
  induction l with
  | nil => simp
  | cons p l ih =>
    obtain ⟨c, ph'⟩ := p
    have hc : c < n := hl _ List.mem_cons_self
    have hcons : ∀ d, (completionsOf d ((c, ph') :: l)).count ph =
        (completionsOf d l).count ph + if c = d then (if ph' = ph then 1 else 0) else 0 := by
      intro d
      by_cases hd : c = d
      · simp [completionsOf, hd, List.count_cons]
      · simp [completionsOf, hd]
    simp only [hcons, Finset.sum_add_distrib, Finset.sum_ite_eq, Finset.mem_range, hc, if_true]
    rw [List.countP_cons, ih fun p hp => hl p (List.mem_cons_of_mem _ hp)]
    simp only [decide_eq_true_eq]

/-- How many clients have completed phase `ph` of their round. -/
def behindCount (cfg : Config) (s : Deployment.State) (ph : Phase) : ℕ :=
  ((Finset.range cfg.nclients).filter fun c => ph ∈ (s.clients c).pc.behind).card

theorem count_behind (pc : Pc) (ph : Phase) : pc.behind.count ph = if ph ∈ pc.behind then 1 else 0 := by
  have hnodup : pc.behind.Nodup := by
    have hbefore : ∀ ph : Phase, ph.before.Nodup := by
      intro ph
      cases ph <;> decide
    cases pc with
    | delay => exact List.nodup_nil
    | backoff => exact hbefore .lock
    | send ph => exact hbefore ph
    | receive ph => exact hbefore ph
    | pause ph => exact hbefore ph
    | thrown ph e => exact hbefore ph
  exact List.Nodup.count hnodup

/-- **What is completed**: the phases of full rounds, as many of each kind, and those of the present
rounds. -/
theorem exists_rounds_completed (htr : (deployment cfg su).Trace tr s)
    (habsent : ∀ p ∈ tr, ∀ c, cfg.nclients ≤ c → (p.1.clients c).pc = .delay) :
    ∃ rounds, ∀ ph, Deployment.completed cfg su tr ph = rounds + behindCount cfg s ph := by
  choose k hk using fun c => exists_rounds htr c
  refine ⟨∑ c ∈ Finset.range cfg.nclients, k c, fun ph => ?_⟩
  have hclients : ∀ p ∈ Deployment.completions cfg su tr, p.1 < cfg.nclients := by
    intro p hp
    obtain ⟨q, hq, hp⟩ := List.mem_flatMap.mp hp
    exact lt_nclients_of_mem_completes (habsent q hq) hp
  have hround : Phase.round.count ph = 1 := by cases ph <;> rfl
  rw [Deployment.completed, countP_eq_sum hclients, behindCount, Finset.card_filter,
    ← Finset.sum_add_distrib]
  refine Finset.sum_congr rfl fun c _ => ?_
  rw [hk, List.count_append, List.count_flatten, List.map_replicate, List.sum_replicate_nat,
    hround, Nat.mul_one, count_behind]

/-- A counter less one of a later phase: how many clients are between the two phases, also when the
counters have wrapped round. -/
theorem toNat_count_sub (htr : (deployment cfg su).Trace tr s)
    (habsent : ∀ p ∈ tr, ∀ c, cfg.nclients ≤ c → (p.1.clients c).pc = .delay) {ph ph' : Phase}
    (hle : behindCount cfg s ph' ≤ behindCount cfg s ph) :
    (Deployment.count cfg su tr ph - Deployment.count cfg su tr ph').toNat =
      behindCount cfg s ph - behindCount cfg s ph' := by
  obtain ⟨rounds, hrounds⟩ := exists_rounds_completed htr habsent
  have hclients : behindCount cfg s ph ≤ cfg.nclients :=
    Nat.le_trans (Finset.card_filter_le _ _) (Nat.le_of_eq (Finset.card_range _))
  have hmax : cfg.nclients ≤ 4096 := cfg.nclients_le
  rw [Deployment.count, Deployment.count, hrounds, hrounds, ← UInt64.ofNat_sub (by omega),
    Nat.add_sub_add_left, UInt64.toNat_ofNat_of_lt' (show _ < 2 ^ 64 by omega)]

end Steps

end Lockseq

end Traxos
