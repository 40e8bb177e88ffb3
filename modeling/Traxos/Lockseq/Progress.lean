import Traxos.Lockseq.Handling

/-! # The lock invariant in every run

The steps of a client itself keep its invariant: within the loop of a step only the retry count, the
leader and the place in the loop change (`Busy.relocate`); a response to the current request leaves
only messages of the current step in flight (`Busy.settled_of_head`), which the next serial makes
stale (`Resting.nextStep`). Together with the leader's steps this gives `Locking.move`, and with
`exchange_invariant` the invariant of every reachable state, `locking_of_trace`. -/

namespace Traxos

namespace Lockseq

/-! ## Own steps: the client goes on -/

section Client

variable {cfg : Config} {c : ℕ} {m : Store} {v v' : View} {ph : Phase}

/-- Redundancy depends on the client's group and value. -/
theorem Redundant.congr {cl cl' : Client} {b b' : ℕ} {q : Request} (h : Redundant m cl b q)
    (hgid : cl'.gid = cl.gid) (hvalue : cl'.value = cl.value) (hb : b ≤ b') :
    Redundant m cl' b' q := by
  cases h with
  | cas =>
    rw [← hgid, ← hvalue]
    exact .cas
  | @put serial i hi hv =>
    have hv' : HasValue m cl' i := by rwa [HasValue, hgid, hvalue]
    rw [← hgid, ← hvalue]
    exact .put (Nat.lt_of_lt_of_le hi hb) hv'
  | @remove serial i hi habsent =>
    have habsent' : m.entry (makeValueKey cl'.gid i) = none := by rwa [hgid]
    rw [← hgid]
    exact .remove (Nat.lt_of_lt_of_le hi hb) habsent'

/-- Within the loop of a step only the retry count, the leader and the place in the loop change. -/
theorem Busy.relocate (h : Busy c m v ph) (pc : Pc) (tries leader : ℕ) :
    Busy c m
      ⟨{ v.loc with pc := pc, tries := tries, leader := leader }, v.replies, v.requests⟩ ph where
  named := h.named
  order := h.order
  current := fun q hq hs => (h.current q hq hs).trans (by cases ph <;> rfl)
  answers := fun p hp hs => by
    have hans := h.answers p hp hs
    cases ph <;> cases p <;> try exact hans
    -- `Released` does not mention the place in the loop
    exact ⟨hans.dead, hans.not_owns⟩
  stale := fun q hq hs => by
    have hst := h.stale q hq hs
    cases ph with
    | lock => exact hst
    | write => exact Redundant.congr hst rfl rfl (Nat.le_refl _)
    | clear => exact Redundant.congr hst rfl rfl (Nat.le_refl _)
    | unlock => exact Redundant.congr hst rfl rfl (Nat.le_refl _)
  secured := by
    have hs := h.secured
    cases ph with
    | lock => trivial
    | write => exact hs
    | clear => exact hs
    | unlock => exact hs.imp_right fun ⟨hr, hall⟩ => ⟨⟨hr.dead, hr.not_owns⟩, hall⟩

/-- A part of the messages in flight has a part of their serials. -/
theorem serials_sublist {replies : List Response} {requests : List Request} (loc : Client)
    (hreplies : replies.Sublist v.replies) (hrequests : requests.Sublist v.requests) :
    (View.mk loc replies requests).serials.Sublist v.serials :=
  (hreplies.map _).append (hrequests.map _)

/-- Losing messages. -/
theorem Busy.lose (h : Busy c m v ph) {replies : List Response} {requests : List Request}
    (hreplies : replies.Sublist v.replies) (hrequests : requests.Sublist v.requests) :
    Busy c m ⟨v.loc, replies, requests⟩ ph :=
  h.messages (fun _ hp => Or.inl (hreplies.mem hp)) (fun _ hq => hrequests.mem hq)
    (serials_sublist _ hreplies hrequests)

theorem LockInv.lose (h : LockInv c m v) {replies : List Response} {requests : List Request}
    (hreplies : replies.Sublist v.replies) (hrequests : requests.Sublist v.requests) :
    LockInv c m ⟨v.loc, replies, requests⟩ := by
  have hserials := serials_sublist v.loc hreplies hrequests
  cases hm : v.loc.pc.mode with
  | idle =>
    have hi := h.idle hm
    exact Idle.lockInv ⟨fun a ha => hi.settled a (hserials.mem ha),
      fun q hq => hi.dead q (hrequests.mem hq)⟩ hm
  | rest =>
    have hr := h.resting hm
    exact Resting.lockInv ⟨hr.named, fun a ha => hr.settled a (hserials.mem ha), hr.held,
      fun q hq => hr.redundant q (hrequests.mem hq)⟩ hm
  | busy ph => exact ((h.busy hm).lose hreplies hrequests).lockInv hm

/-- A new sequence: everything in flight is of the last one. -/
theorem Idle.begin (h : Idle m v) (cid gid x nvalues : ℕ) :
    Busy cid m ⟨v.loc.begin cid gid x nvalues, v.replies, v.requests⟩ .lock := by
  -- what is in flight has the old serial
  have hold : ∀ a ∈ v.serials, a ≠ Service.nextSerial v.loc.serial := fun a ha heq =>
    Service.nextSerial_ne v.loc.serial (heq.symm.trans (h.settled a ha))
  exact {
    named := ⟨x, rfl⟩
    order := List.Pairwise.imp_of_mem (fun ha _ _ heq => absurd heq (hold _ ha))
      (List.pairwise_of_forall (R := fun _ _ => True) fun _ _ => trivial)
    current := fun q hq hs =>
      absurd hs (hold _ (List.mem_append_right _ (List.mem_map_of_mem hq)))
    answers := fun p hp hs =>
      absurd hs (hold _ (List.mem_append_left _ (List.mem_map_of_mem hp)))
    stale := fun q hq _ => h.dead q hq
    secured := trivial }

/-- After a step of the serial nothing in flight is current any more. -/
theorem Resting.nextStep {b : ℕ} (h : Resting c m v b)
    (hstale : ∀ q ∈ v.requests, Stale m (v.loc.nextStep ph) ph q)
    (hsecured : Secured m ⟨v.loc.nextStep ph, v.replies, v.requests⟩ ph) :
    Busy c m ⟨v.loc.nextStep ph, v.replies, v.requests⟩ ph := by
  -- what is in flight has the old serial
  have hold : ∀ a ∈ v.serials, a ≠ Service.nextSerial v.loc.serial := fun a ha heq =>
    Service.nextSerial_ne v.loc.serial (heq.symm.trans (h.settled a ha))
  exact {
    named := h.named
    order := List.Pairwise.imp_of_mem (fun ha _ _ heq => absurd heq (hold _ ha))
      (List.pairwise_of_forall (R := fun _ _ => True) fun _ _ => trivial)
    current := fun q hq hs =>
      absurd hs (hold _ (List.mem_append_right _ (List.mem_map_of_mem hq)))
    answers := fun p hp hs =>
      absurd hs (hold _ (List.mem_append_left _ (List.mem_map_of_mem hp)))
    stale := fun q hq _ => hstale q hq
    secured := hsecured }

theorem Resting.nextUnlock {b : ℕ} (h : Resting c m v b) (hb : b ≤ v.loc.n + 1) :
    Busy c m ⟨v.loc.nextStep .unlock, v.replies, v.requests⟩ .unlock :=
  h.nextStep (fun q hq => (h.redundant q hq).congr rfl rfl hb) (Or.inl h.held)

/-- The head of the clear phase's loop. -/
theorem Resting.clearLoop (h : Resting c m v v.loc.n) :
    LockInv c m ⟨v.loc.clearLoop cfg, v.replies, v.requests⟩ := by
  unfold Client.clearLoop
  split
  · have hb : Busy c m ⟨v.loc.nextStep .clear, v.replies, v.requests⟩ .clear :=
      h.nextStep (fun q hq => (h.redundant q hq).congr rfl rfl (Nat.le_refl _)) h.held
    exact hb.lockInv rfl
  · exact (h.nextUnlock (Nat.le_succ _)).lockInv rfl

/-- The head of the write phase's loop. -/
theorem Resting.writeLoop (h : Resting c m v v.loc.n) :
    LockInv c m ⟨v.loc.writeLoop cfg, v.replies, v.requests⟩ := by
  unfold Client.writeLoop
  split
  · have hb : Busy c m ⟨v.loc.nextStep .write, v.replies, v.requests⟩ .write :=
      h.nextStep (fun q hq => (h.redundant q hq).congr rfl rfl (Nat.le_refl _)) h.held
    exact hb.lockInv rfl
  · exact h.clearLoop

section Accept

variable {resp : Response} {rest : List Response}

/-- Behind a response to the current request everything in flight is of the current step. -/
theorem Busy.settled_of_head (h : Busy c m v ph) (hreply : v.replies = resp :: rest)
    (hserial : resp.messageSerial = v.loc.serial) (loc : Client) :
    ∀ a ∈ (View.mk loc rest v.requests).serials, a = v.loc.serial := by
  have horder := h.order
  rw [View.serials, hreply, List.map_cons, List.cons_append, List.pairwise_cons] at horder
  exact fun a ha => horder.1 a ha hserial

/-- Then all requests in flight are copies of the current one. -/
theorem Busy.requests_of_head (h : Busy c m v ph) (hreply : v.replies = resp :: rest)
    (hserial : resp.messageSerial = v.loc.serial) :
    ∀ q ∈ v.requests, q = v.loc.request ph := fun q hq =>
  h.current q hq (h.settled_of_head hreply hserial v.loc _
    (List.mem_append_right _ (List.mem_map_of_mem hq)))

/-- A client that learns that it owns the lock starts its write phase. -/
theorem Busy.writePhase (h : Busy c m v .lock) (hreply : v.replies = resp :: rest)
    (hserial : resp.messageSerial = v.loc.serial) {w : ℤ} (howns : Owns m v.loc w) :
    LockInv c m ⟨v.loc.writePhase cfg w, rest, v.requests⟩ := by
  have hrest : Resting c m ⟨{ v.loc with lockVersion := w, n := 0 }, rest, v.requests⟩ 0 := {
    named := h.named
    settled := h.settled_of_head hreply hserial _
    held := howns
    redundant := fun q hq => by
      rw [h.requests_of_head hreply hserial q hq]
      exact .cas }
  exact hrest.writeLoop

/-- What a response to the current request makes a client do, and what the client then knows. -/
inductive Reacts (cfg : Config) (c : ℕ) (m : Store) (cl : Client) : Phase → Response → Client → Prop
  /-- The client obtained the lock, by this attempt or an earlier one. -/
  | obtained {resp : CasResponse} (howns : Owns m cl resp.version) :
      Reacts cfg c m cl .lock (.cas resp) (cl.writePhase cfg resp.version)
  /-- The lock has the value of another client. -/
  | refused {resp : CasResponse} :
      Reacts cfg c m cl .lock (.cas resp) { cl with pc := .thrown .lock .noMatch }
  /-- The lock has a value of the client that does not count as its own. -/
  | delayed {resp : CasResponse} : Reacts cfg c m cl .lock (.cas resp) { cl with pc := .backoff }
  /-- The current value was written. -/
  | written {resp : PutResponse} (hvalue : HasValue m cl cl.n) :
      Reacts cfg c m cl .write (.put resp) { cl with n := cl.n + 1, pc := .pause .write }
  /-- The current value was removed, perhaps by an earlier attempt. -/
  | cleared {resp : RemoveResponse} (habsent : m.entry (makeValueKey cl.gid cl.n) = none) :
      Reacts cfg c m cl .clear (.remove resp) { cl with n := cl.n + 1, pc := .pause .clear }
  /-- There was nothing to remove on the first try. -/
  | ended {resp : RemoveResponse} (habsent : m.entry (makeValueKey cl.gid cl.n) = none)
      (hnotFound : resp.errcode = .notFound) (htries : cl.tries = 0) :
      Reacts cfg c m cl .clear (.remove resp) (cl.nextStep .unlock)
  /-- The unlock failed on the first try. -/
  | failed {resp : RemoveResponse} (herr : resp.errcode ≠ .ok) (htries : cl.tries = 0) :
      Reacts cfg c m cl .unlock (.remove resp) { cl with pc := .thrown .unlock resp.errcode }
  /-- The lock was given back. -/
  | released {resp : RemoveResponse} (hreleased : Released m cl) :
      Reacts cfg c m cl .unlock (.remove resp) { cl with pc := .delay }

section Reacts

variable {cl : Client}

theorem Answers.onLock {resp : CasResponse} (h : Answers m cl .lock (.cas resp)) :
    Reacts cfg c m cl .lock (.cas resp) (cl.onLock cfg c resp) := by
  unfold Client.onLock
  split
  · -- CAS success: the client owns the lock
    rename_i hok
    rcases h with ⟨-, howns⟩ | ⟨hno, -⟩
    · exact .obtained howns
    · rw [hok] at hno
      cases hno
  rename_i hok
  obtain ⟨hno, howns⟩ := h.resolve_left fun hleft => hok hleft.1
  split
  · -- not reached: a compare-and-swap is answered `ok` or `no_match`
    rename_i hne
    exact absurd hno hne
  split
  · -- an earlier CAS succeeded, but the reply was lost
    rename_i hown
    exact .obtained (howns hown.1)
  split
  · exact .refused
  · exact .delayed

theorem Answers.onWrite {resp : PutResponse} (h : Answers m cl .write (.put resp)) :
    Reacts cfg c m cl .write (.put resp) (cl.onWrite resp) := by
  obtain ⟨hok, hvalue⟩ := h
  rw [Client.onWrite, if_neg (not_not_intro hok)]
  exact .written hvalue

theorem Answers.onClear {resp : RemoveResponse} (h : Answers m cl .clear (.remove resp)) :
    Reacts cfg c m cl .clear (.remove resp) (cl.onClear resp) := by
  obtain ⟨herrcode, habsent⟩ := h
  unfold Client.onClear
  split
  · exact .cleared habsent
  rename_i hok
  have hnotFound := herrcode.resolve_left hok
  rw [if_neg (not_not_intro hnotFound)]
  split
  · rename_i htries
    exact .ended habsent hnotFound htries
  · exact .cleared habsent

theorem Answers.onUnlock {resp : RemoveResponse} (h : Answers m cl .unlock (.remove resp)) :
    Reacts cfg c m cl .unlock (.remove resp) (cl.onUnlock resp) := by
  unfold Client.onUnlock
  split
  · rename_i hthrow
    exact .failed hthrow.1 hthrow.2
  · exact .released h

end Reacts

/-- What a client does on a response to its current request. -/
theorem Busy.reacts (h : Busy c m v ph) (hmem : resp ∈ v.replies)
    (hserial : resp.messageSerial = v.loc.serial) :
    Reacts cfg c m v.loc ph resp (v.loc.onResponse cfg c ph resp) := by
  have hans := h.answers resp hmem hserial
  -- a response of another type than the phase's answers nothing
  cases ph <;> cases resp <;> try exact hans.elim
  · exact hans.onLock
  · exact hans.onWrite
  · exact hans.onClear
  · exact hans.onUnlock

/-- When the current value is gone, so is every reason for the requests in flight. -/
theorem Busy.resting_of_absent (h : Busy c m v .clear) (hreply : v.replies = resp :: rest)
    (hserial : resp.messageSerial = v.loc.serial)
    (habsent : m.entry (makeValueKey v.loc.gid v.loc.n) = none) (n : ℕ) (pc : Pc) :
    Resting c m ⟨{ v.loc with n := n, pc := pc }, rest, v.requests⟩ (v.loc.n + 1) where
  named := h.named
  settled := h.settled_of_head hreply hserial _
  held := h.secured
  redundant := fun q hq => by
    rw [h.requests_of_head hreply hserial q hq]
    exact .remove (Nat.lt_succ_self _) habsent

/-- **A response to the current request** keeps the client's invariant. -/
theorem Busy.accept (h : Busy c m v ph) (hreply : v.replies = resp :: rest)
    (hserial : resp.messageSerial = v.loc.serial) :
    LockInv c m ⟨v.loc.onResponse cfg c ph resp, rest, v.requests⟩ := by
  have hreacts : Reacts cfg c m v.loc ph resp (v.loc.onResponse cfg c ph resp) :=
    h.reacts (hreply ▸ List.mem_cons_self) hserial
  have hlose : Busy c m ⟨v.loc, rest, v.requests⟩ ph :=
    h.lose (hreply ▸ List.sublist_cons_self _ _) (List.Sublist.refl _)
  generalize v.loc.onResponse cfg c ph resp = loc at hreacts ⊢
  cases hreacts with
  | obtained howns => exact h.writePhase hreply hserial howns
  | refused => exact (hlose.relocate (.thrown .lock .noMatch) v.loc.tries v.loc.leader).lockInv rfl
  | delayed => exact (hlose.relocate .backoff v.loc.tries v.loc.leader).lockInv rfl
  | written hvalue =>
    refine Resting.lockInv
      ⟨h.named, h.settled_of_head hreply hserial _, h.secured, fun q hq => ?_⟩ rfl
    rw [h.requests_of_head hreply hserial q hq]
    exact .put (Nat.lt_succ_self _) hvalue
  | cleared habsent =>
    exact (h.resting_of_absent hreply hserial habsent (v.loc.n + 1) (.pause .clear)).lockInv rfl
  | ended habsent =>
    have hrest := h.resting_of_absent hreply hserial habsent v.loc.n v.loc.pc
    exact (hrest.nextUnlock (Nat.le_refl _)).lockInv rfl
  | @failed resp =>
    exact (hlose.relocate (.thrown .unlock resp.errcode) v.loc.tries v.loc.leader).lockInv rfl
  | released hreleased =>
    -- the sequence is over, and copies of its unlock are of a version that is gone
    refine Idle.lockInv ⟨h.settled_of_head hreply hserial _, fun q hq => ?_⟩ rfl
    rw [h.requests_of_head hreply hserial q hq]
    exact .mk hreleased.dead

end Accept

/-- The end of a delay within a sequence. -/
theorem LockInv.wake (h : LockInv c m v) {loc : Client} (hwake : v.loc.wake cfg = some loc) :
    LockInv c m ⟨loc, v.replies, v.requests⟩ := by
  unfold Client.wake at hwake
  split at hwake
  · -- the next attempt to obtain the lock
    rename_i hpc
    obtain rfl := Option.some.inj hwake
    have hb := h.busy (by rw [hpc]; rfl)
    exact (hb.relocate (.send .lock) ((v.loc.tries + 1) % 2 ^ 32) v.loc.leader).lockInv rfl
  · -- after a put
    rename_i hpc
    obtain rfl := Option.some.inj hwake
    exact (h.resting (by rw [hpc]; rfl)).writeLoop
  · -- after a removal
    rename_i hpc
    obtain rfl := Option.some.inj hwake
    exact (h.resting (by rw [hpc]; rfl)).clearLoop
  · cases hwake

/-- A transmission of the current request. -/
theorem Busy.send (h : Busy c m v ph) {sent : List Request}
    (hsent : sent = [] ∨ sent = [v.loc.request ph]) :
    Busy c m ⟨v.loc, v.replies, v.requests ++ sent⟩ ph := by
  rcases hsent with rfl | rfl
  · simpa using h
  have hserial : (v.loc.request ph).messageSerial = v.loc.serial := v.loc.messageSerial_request ph
  have hcases : ∀ q ∈ v.requests ++ [v.loc.request ph], q ∈ v.requests ∨ q = v.loc.request ph :=
    fun q hq => (List.mem_append.mp hq).imp_right List.mem_singleton.mp
  exact {
    named := h.named
    order := by
      -- the copy comes last and has the current serial
      have hser : (View.mk v.loc v.replies (v.requests ++ [v.loc.request ph])).serials =
          v.serials ++ [v.loc.serial] := by
        simp [View.serials]
      rw [hser]
      refine List.pairwise_append.mpr ⟨h.order, List.pairwise_singleton _ _, ?_⟩
      intro a _ b hb _
      exact List.mem_singleton.mp hb
    current := fun q hq hs => (hcases q hq).elim (fun hold => h.current q hold hs) id
    answers := h.answers
    stale := fun q hq hs => (hcases q hq).elim (fun hold => h.stale q hold hs)
      fun heq => absurd (heq ▸ hserial) hs
    secured := by
      have hs := h.secured
      cases ph with
      | lock => trivial
      | write => exact hs
      | clear => exact hs
      | unlock =>
        rcases hs with hheld | ⟨hr, hall⟩
        · exact Or.inl hheld
        · exact Or.inr ⟨hr, fun q hq => (hcases q hq).elim (hall q) fun heq => heq ▸ hserial⟩ }

end Client

/-! ## Moves -/

section Moves

variable {cfg : Config} {c : ℕ} {sh sh' : Shared} {v v' : View} {views : ℕ → View}

namespace Client

variable (cl : Client)

theorem gid_writeLoop (cfg : Config) :
    (cl.writeLoop cfg).gid = cl.gid ∧ (cl.writeLoop cfg).value = cl.value ∧
      (cl.writeLoop cfg).pc.mode ≠ .idle := by
  unfold writeLoop clearLoop
  split
  · simp [nextStep]
  · split <;> simp [nextStep]

theorem gid_clearLoop (cfg : Config) :
    (cl.clearLoop cfg).gid = cl.gid ∧ (cl.clearLoop cfg).value = cl.value ∧
      (cl.clearLoop cfg).pc.mode ≠ .idle := by
  unfold clearLoop
  split <;> simp [nextStep]

theorem gid_wake {cl' : Client} (h : cl.wake cfg = some cl') :
    cl'.gid = cl.gid ∧ cl'.value = cl.value ∧ cl'.pc.mode ≠ .idle := by
  unfold wake at h
  split at h
  · obtain rfl := Option.some.inj h
    simp [again]
  · obtain rfl := Option.some.inj h
    exact cl.gid_writeLoop cfg
  · obtain rfl := Option.some.inj h
    exact cl.gid_clearLoop cfg
  · cases h

end Client

/-- The owner of a lock stays one: only a client that has given its lock back becomes idle. -/
theorem Reacts.of_owns {m : Store} {cl loc : Client} {ph : Phase} {resp : Response}
    (h : Reacts cfg c m cl ph resp loc) {w : ℤ} (howns : Owns m cl w) :
    loc.pc.mode ≠ .idle ∧ loc.gid = cl.gid ∧ loc.value = cl.value := by
  cases h with
  | @obtained resp =>
    obtain ⟨hgid, hvalue, hmode⟩ :=
      Client.gid_writeLoop { cl with lockVersion := resp.version, n := 0 } cfg
    exact ⟨hmode, hgid, hvalue⟩
  | refused => exact ⟨by simp, rfl, rfl⟩
  | delayed => exact ⟨by simp, rfl, rfl⟩
  | written => exact ⟨by simp, rfl, rfl⟩
  | cleared => exact ⟨by simp, rfl, rfl⟩
  | ended => exact ⟨by simp [Client.nextStep], rfl, rfl⟩
  | failed => exact ⟨by simp, rfl, rfl⟩
  | released hreleased => exact absurd howns (hreleased.not_owns w)

/-- A step of a client that leaves the database alone keeps the owners, when the client does not
leave a sequence as an owner. -/
theorem Locking.of_local (h : Locking sh views) (hclient : LockInv c sh.store v')
    (howner : ∀ w, Owns sh.store (views c).loc w → (views c).loc.pc.mode ≠ .idle →
      v'.loc.pc.mode ≠ .idle ∧ v'.loc.gid = (views c).loc.gid ∧
        v'.loc.value = (views c).loc.value) :
    Locking sh (Function.update views c v') where
  client := by
    rw [Function.forall_update_iff views fun d v => LockInv d sh.store v]
    exact ⟨hclient, fun d _ => h.client d⟩
  owner := by
    intro gid e he
    obtain ⟨d, hmode, hgid, hvalue⟩ := h.owner he
    refine ⟨d, ?_⟩
    by_cases hd : d = c
    · -- the owner is the client that takes the step
      subst hd
      have howns : Owns sh.store (views d).loc e.stamp := by
        rw [Owns, hgid, hvalue]
        exact he
      obtain ⟨hmode', hgid', hvalue'⟩ := howner _ howns hmode
      rw [Function.update_self]
      exact ⟨hmode', hgid'.trans hgid, hvalue'.trans hvalue⟩
    · rw [Function.update_of_ne hd]
      exact ⟨hmode, hgid, hvalue⟩

/-- A lock that is taken after the leader has handled a request was taken before with the same
value, or the client has just taken it. -/
theorem Handled.entry_lockKey {m : Store} {req : Request} (h : Handled m v req) {gid : ℕ}
    {e : Stamped Str} (he : (m.apply (req.change m)).entry (makeLockKey gid) = some e) :
    m.entry (makeLockKey gid) = some e ∨
      v.loc.pc.mode = .busy .lock ∧ gid = v.loc.gid ∧ e.value = v.loc.value := by
  cases h with
  | noop happly => rw [happly] at he; exact Or.inl he
  | rewrite _ _ _ happly => rw [happly, entry_lockKey_write_valueKey] at he; exact Or.inl he
  | write _ _ _ happly => rw [happly, entry_lockKey_write_valueKey] at he; exact Or.inl he
  | clear _ _ _ happly => rw [happly, entry_lockKey_delete_valueKey] at he; exact Or.inl he
  | acquire hmode _ _ happly =>
    rw [happly, entry_lockKey_write_lockKey] at he
    split at he
    · rename_i hgid
      obtain rfl := Option.some.inj he
      exact Or.inr ⟨hmode, hgid, rfl⟩
    · exact Or.inl he
  | release _ _ _ happly =>
    rw [happly, entry_lockKey_delete_lockKey] at he
    split at he
    · cases he
    · exact Or.inl he

/-- The leader handles a request of client `c`. -/
theorem Locking.handle (h : Locking sh views) {req : Request} {rest : List Request}
    {answer : List Response} (hreq : (views c).requests = req :: rest)
    (hanswer : answer = [] ∨ answer = [req.answer sh.store]) :
    Locking (sh.process (views c).loc req) (Function.update views c
      ⟨(views c).loc, (views c).replies ++ answer, rest⟩) := by
  have hne : ∀ g e, sh.store.entry (makeLockKey g) = some e → e.value ≠ [] :=
    fun _ _ he => h.value_ne_nil he
  have hhandled := (h.client c).handled hne hreq
  refine ⟨?_, fun {gid e} he => ?_⟩
  · rw [Function.forall_update_iff views fun d v =>
      LockInv d (sh.process (views c).loc req).store v]
    refine ⟨(h.client c).handle hne hreq hanswer, fun d hd => ?_⟩
    -- another client notices nothing, as its value is another one
    refine (h.client d).keep hhandled.dead fun hnamed => ?_
    refine Quiet.keeps (hhandled.quiet fun hmode hvalue => ?_) hhandled.dead
    exact hd (hnamed.eq ((h.client c).named hmode) hvalue.symm)
  · rcases hhandled.entry_lockKey he with hold | ⟨hmode, rfl, hvalue⟩
    · obtain ⟨d, hd⟩ := h.owner hold
      refine ⟨d, ?_⟩
      by_cases hdc : d = c
      · subst hdc
        rwa [Function.update_self]
      · rwa [Function.update_of_ne hdc]
    · -- the client has just obtained it
      refine ⟨c, ?_⟩
      rw [Function.update_self]
      exact ⟨by simp [hmode], rfl, hvalue.symm⟩

/-- **Every move keeps the lock invariant.** -/
theorem Locking.move (h : Locking sh views) (hmove : Move cfg c sh (views c) sh' v') :
    Locking sh' (Function.update views c v') := by
  have hc := h.client c
  cases hmove with
  | begin hpc =>
    have hmode : (views c).loc.pc.mode = .idle := by rw [hpc]; rfl
    refine h.of_local (((hc.idle hmode).begin c _ _ _).lockInv rfl) ?_
    exact fun _ _ hne => absurd hmode hne
  | @send ph hpc sent hsent =>
    have hmode : (views c).loc.pc.mode = .busy ph := by rw [hpc]; rfl
    refine h.of_local ?_ fun _ _ _ => ⟨by simp, rfl, rfl⟩
    exact (((hc.busy hmode).send hsent).relocate (.receive ph) (views c).loc.tries
      (views c).loc.leader).lockInv rfl
  | @retry ph leader randomReplica replies hpc hreplies =>
    have hmode : (views c).loc.pc.mode = .busy ph := by rw [hpc]; rfl
    refine h.of_local ?_ fun _ _ _ => ⟨by simp [Client.retry, Client.again], rfl, rfl⟩
    have hlose := (hc.busy hmode).lose hreplies (List.Sublist.refl _)
    exact (hlose.relocate (.send ph) _ _).lockInv rfl
  | @accept ph resp rest hpc hreply hserial =>
    have hmode : (views c).loc.pc.mode = .busy ph := by rw [hpc]; rfl
    have hb := hc.busy hmode
    refine h.of_local (hb.accept hreply hserial) fun w howns _ => ?_
    exact (hb.reacts (hreply ▸ List.mem_cons_self) hserial).of_owns howns
  | wake hwake =>
    refine h.of_local (hc.wake hwake) fun _ _ _ => ?_
    obtain ⟨hgid, hvalue, hidle⟩ := (views c).loc.gid_wake hwake
    exact ⟨hidle, hgid, hvalue⟩
  | handle hreq hanswer => exact h.handle hreq hanswer
  | lose hreplies hrequests =>
    exact h.of_local (hc.lose hreplies hrequests) fun _ _ hne => ⟨hne, rfl, rfl⟩

theorem locking_init (cfg : Config) : Locking Shared.init ((machine cfg).init.view cfg) where
  client := fun _ => Idle.lockInv ⟨fun _ ha => absurd ha List.not_mem_nil,
    fun _ hq => absurd hq List.not_mem_nil⟩ rfl
  owner := fun he => by cases he

/-- **The lock invariant holds in every reachable state.** -/
theorem locking_of_trace {tr : Steps} {s : State} (htr : (machine cfg).Trace tr s) :
    ∃ sh, Simulates cfg tr s sh ∧ Locking sh (s.view cfg) :=
  exchange_invariant (C := fun _ _ => True) (locking_init cfg)
    (fun _ _ _ _ _ h hmove _ => h.move hmove) htr fun _ _ _ _ _ => trivial

end Moves

end Lockseq

end Traxos
