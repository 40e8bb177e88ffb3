import Traxos.Lockseq.Locking

/-! # What the leader does with the oldest request of a client

Under the lock invariant a request in flight can do one of six things (`Handled`): nothing, repeat a
write, carry out the current step of the write or clear phase, take a free lock, or give the
client's own lock back. Other clients notice none of it (`Handled.quiet`), and the client's own
invariant is kept together with the truth of the answer (`LockInv.handle`). -/

namespace Traxos

namespace Lockseq

/-! ## What the leader does with a request -/

section Requests

variable {m : Store} {cl : Client}

/-- Without a version to match there is no mismatch. -/
theorem not_mismatch_anyVersion (m : Store) (k : Str) : ¬ m.mismatch k anyVersion := by
  simp [Store.mismatch]

/-- A removal that only one version matches does nothing once that version is gone. -/
theorem DeadUnlock.apply {q : Request} (hq : DeadUnlock m q) :
    m.apply (q.change m) = m ∧ ∀ g, unlocks m g q = false := by
  cases hq with
  | @mk serial gid v hdead =>
    cases hk : m.entry (makeLockKey gid) with
    | none =>
      -- the lock is free: there is nothing to remove
      refine ⟨?_, fun g => ?_⟩
      · simp only [Request.change]
        split
        · rfl
        · exact StampedMap.delete_of_none hk
      · simp [unlocks, Request.answer, hk, Store.notFound, responseErrcode, Response.base]
    | some e =>
      -- the lock has another version, so the removal is refused
      have hmm : m.mismatch (makeLockKey gid) v := by
        refine ⟨hdead.nonneg, ?_⟩
        rw [Store.current_of_some hk]
        exact (hdead.ne_stamp hk).symm
      refine ⟨?_, fun g => ?_⟩
      · simp only [Request.change, if_pos hmm]
        rfl
      · simp [unlocks, Request.answer, hk, hmm, Store.noMatch, responseErrcode, Response.base]

/-- No request on a value key removes a lock. -/
theorem unlocks_valueKey (g gid i serial : ℕ) :
    unlocks m g (.remove { serial := serial, key := makeValueKey gid i }) = false := by
  simp [unlocks, Ne.symm (makeLockKey_ne_makeValueKey g gid i)]

/-- The lock's compare-and-swap succeeds on a free lock. -/
theorem apply_cas_of_none (hfree : m.entry (makeLockKey cl.gid) = none) :
    m.apply ((cl.request .lock).change m) = m.write (makeLockKey cl.gid) cl.value ∧
      (cl.request .lock).answer m =
        .cas ⟨m.done { serial := cl.serial } (makeLockKey cl.gid) m.next⟩ := by
  -- a free lock shows the empty value that the request expects
  have hcond : ¬ ([] ≠ (m.current (makeLockKey cl.gid)).value ∨
      m.mismatch (makeLockKey cl.gid) anyVersion) := by
    rintro (hne | hmm)
    · rw [Store.current_of_none hfree] at hne
      exact hne rfl
    · exact not_mismatch_anyVersion m _ hmm
  simp only [Client.request, Request.change, Request.answer, if_neg hcond]
  exact ⟨rfl, trivial⟩

/-- It fails on a lock that is taken. -/
theorem apply_cas_of_some {e : Stamped Str} {serial : ℕ} {k desired : Str} (hk : m.entry k = some e)
    (hne : e.value ≠ []) :
    m.apply
        ((Request.cas { serial := serial, key := k, expected := [], desired := desired }).change m) =
          m ∧
      (Request.cas { serial := serial, key := k, expected := [], desired := desired }).answer m =
        .cas ⟨m.noMatch { serial := serial } k⟩ := by
  have hcond : [] ≠ (m.current k).value ∨ m.mismatch k anyVersion := by
    rw [Store.current_of_some hk]
    exact Or.inl hne.symm
  simp only [Request.change, Request.answer, if_pos hcond]
  exact ⟨rfl, trivial⟩

/-- A put of any version writes. -/
theorem apply_put (m : Store) (serial : ℕ) (k x : Str) :
    m.apply ((Request.put { serial := serial, key := k, value := x }).change m) = m.write k x ∧
      (Request.put { serial := serial, key := k, value := x }).answer m =
        .put ⟨m.done { serial := serial } k m.next⟩ := by
  have hcond := not_mismatch_anyVersion m k
  simp only [Request.change, Request.answer, if_neg hcond]
  exact ⟨rfl, trivial⟩

/-- A removal of any version deletes. -/
theorem apply_remove (m : Store) (serial : ℕ) (k : Str) :
    m.apply ((Request.remove { serial := serial, key := k }).change m) = m.delete k ∧
      (Request.remove { serial := serial, key := k }).answer m =
        .remove ⟨if m.entry k = none then Store.notFound { serial := serial }
          else m.done { serial := serial } k nonexistentVersion⟩ := by
  have hcond := not_mismatch_anyVersion m k
  simp only [Request.change, Request.answer, if_neg hcond]
  exact ⟨rfl, trivial⟩

/-- An unlock of the version that the lock has deletes the lock. -/
theorem apply_unlock (hheld : Held m cl) :
    m.apply ((cl.request .unlock).change m) = m.delete (makeLockKey cl.gid) ∧
      (cl.request .unlock).answer m =
        .remove ⟨m.done { serial := cl.serial } (makeLockKey cl.gid) nonexistentVersion⟩ ∧
      ∀ g, unlocks m g (cl.request .unlock) = decide (g = cl.gid) := by
  have hcond : ¬ m.mismatch (makeLockKey cl.gid) cl.lockVersion := by
    rw [Store.mismatch, Store.current_of_some hheld]
    simp
  have hsome : ¬ m.entry (makeLockKey cl.gid) = none := by
    rw [hheld]
    simp
  have hanswer : (cl.request .unlock).answer m =
      .remove ⟨m.done { serial := cl.serial } (makeLockKey cl.gid) nonexistentVersion⟩ := by
    simp only [Client.request, Request.answer, if_neg hsome, if_neg hcond]
  refine ⟨?_, hanswer, fun g => ?_⟩
  · simp only [Client.request, Request.change, if_neg hcond]
    rfl
  have hkey : makeLockKey cl.gid = makeLockKey g ↔ g = cl.gid :=
    ⟨fun h => makeLockKey_injective h.symm, fun h => h ▸ rfl⟩
  rw [Client.request] at hanswer
  simp only [Client.request, unlocks, hanswer, hkey]
  simp [responseErrcode, Response.base, Store.done]

end Requests

/-- What the leader does with the oldest request `req` of a client. -/
inductive Handled (m : Store) (v : View) (req : Request) : Prop
  /-- Nothing: the lock is taken, the removed key absent, or the lock version gone. -/
  | noop (happly : m.apply (req.change m) = m) (hunlocks : ∀ g, unlocks m g req = false)
  /-- A value key gets the value that it has. -/
  | rewrite {i : ℕ} (hmode : v.loc.pc.mode ≠ .idle) (hheld : Held m v.loc)
      (hvalue : HasValue m v.loc i)
      (happly : m.apply (req.change m) = m.write (makeValueKey v.loc.gid i) v.loc.value)
      (hunlocks : ∀ g, unlocks m g req = false)
  /-- The current step of the write phase. -/
  | write (hmode : v.loc.pc.mode = .busy .write) (hheld : Held m v.loc)
      (hcurrent : req = v.loc.request .write)
      (happly : m.apply (req.change m) = m.write (makeValueKey v.loc.gid v.loc.n) v.loc.value)
      (hunlocks : ∀ g, unlocks m g req = false)
  /-- The current step of the clear phase. -/
  | clear (hmode : v.loc.pc.mode = .busy .clear) (hheld : Held m v.loc)
      (hcurrent : req = v.loc.request .clear)
      (happly : m.apply (req.change m) = m.delete (makeValueKey v.loc.gid v.loc.n))
      (hunlocks : ∀ g, unlocks m g req = false)
  /-- The client obtains the lock. -/
  | acquire (hmode : v.loc.pc.mode = .busy .lock)
      (hfree : m.entry (makeLockKey v.loc.gid) = none) (hcurrent : req = v.loc.request .lock)
      (happly : m.apply (req.change m) = m.write (makeLockKey v.loc.gid) v.loc.value)
      (hunlocks : ∀ g, unlocks m g req = false)
  /-- The client gives the lock back. -/
  | release (hmode : v.loc.pc.mode = .busy .unlock) (hheld : Held m v.loc)
      (hcurrent : req = v.loc.request .unlock)
      (happly : m.apply (req.change m) = m.delete (makeLockKey v.loc.gid))
      (hunlocks : ∀ g, unlocks m g req = decide (g = v.loc.gid))

section Handled

variable {c : ℕ} {m : Store} {v : View} {ph : Phase} {req : Request} {rest : List Request}

theorem DeadUnlock.handled (h : DeadUnlock m req) : Handled m v req :=
  .noop h.apply.1 h.apply.2

theorem Redundant.handled {b : ℕ} (h : Redundant m v.loc b req) (hmode : v.loc.pc.mode ≠ .idle)
    (hheld : Held m v.loc) (hnamed : Named c v.loc) : Handled m v req := by
  cases h with
  | cas => exact .noop (apply_cas_of_some hheld hnamed.ne_nil).1 fun _ => rfl
  | put hi hvalue => exact .rewrite hmode hheld hvalue (apply_put m _ _ _).1 fun _ => rfl
  | remove hi habsent =>
    refine .noop ?_ fun g => unlocks_valueKey g _ _ _
    exact (apply_remove m _ _).1.trans (StampedMap.delete_of_none habsent)

/-- A request of an earlier step. -/
theorem Busy.handled_stale (h : Busy c m v ph) (hmode : v.loc.pc.mode = .busy ph)
    (hmem : req ∈ v.requests) (hserial : req.messageSerial ≠ v.loc.serial) : Handled m v req := by
  have hst := h.stale req hmem hserial
  have hs := h.secured
  have hidle : v.loc.pc.mode ≠ .idle := by simp [hmode]
  cases ph with
  | lock => exact hst.handled
  | write => exact hst.handled hidle hs h.named
  | clear => exact hst.handled hidle hs h.named
  | unlock =>
    rcases hs with hheld | ⟨-, hall⟩
    · exact hst.handled hidle hheld h.named
    · -- once the lock is given back, only requests of the current step are in flight
      exact absurd (hall req hmem) hserial

/-- The current request. -/
theorem Busy.handled_current (h : Busy c m v ph) (hmode : v.loc.pc.mode = .busy ph)
    (hne : ∀ g e, m.entry (makeLockKey g) = some e → e.value ≠ [])
    (hcurrent : req = v.loc.request ph) : Handled m v req := by
  have hs := h.secured
  subst hcurrent
  cases ph with
  | lock =>
    cases hk : m.entry (makeLockKey v.loc.gid) with
    | none => exact .acquire hmode hk rfl (apply_cas_of_none hk).1 fun _ => rfl
    | some e => exact .noop (apply_cas_of_some hk (hne _ _ hk)).1 fun _ => rfl
  | write => exact .write hmode hs rfl (apply_put m _ _ _).1 fun _ => rfl
  | clear => exact .clear hmode hs rfl (apply_remove m _ _).1 fun g => unlocks_valueKey g _ _ _
  | unlock =>
    rcases hs with hheld | ⟨hr, -⟩
    · exact .release hmode hheld rfl (apply_unlock hheld).1 (apply_unlock hheld).2.2
    · -- an earlier copy of this request gave the lock back
      have hdead : DeadUnlock m (v.loc.request .unlock) := .mk hr.dead
      exact hdead.handled

/-- **What the leader does** with the oldest request of a client. -/
theorem LockInv.handled (h : LockInv c m v)
    (hne : ∀ g e, m.entry (makeLockKey g) = some e → e.value ≠ [])
    (hreq : v.requests = req :: rest) : Handled m v req := by
  have hmem : req ∈ v.requests := hreq ▸ List.mem_cons_self
  cases hm : v.loc.pc.mode with
  | idle => exact ((h.idle hm).dead req hmem).handled
  | rest =>
    have hr := h.resting hm
    exact (hr.redundant req hmem).handled (by simp [hm]) hr.held hr.named
  | busy ph =>
    have hb := h.busy hm
    by_cases hserial : req.messageSerial = v.loc.serial
    · exact hb.handled_current hm hne (hb.current req hmem hserial)
    · exact hb.handled_stale hm hmem hserial

/-! ### What other clients notice of it -/

@[simp] theorem entry_lockKey_write_valueKey (m : Store) (g g' i : ℕ) (x : Str) :
    (m.write (makeValueKey g i) x).entry (makeLockKey g') = m.entry (makeLockKey g') :=
  StampedMap.entry_write_of_ne m x (makeLockKey_ne_makeValueKey g' g i)

@[simp] theorem entry_lockKey_delete_valueKey (m : Store) (g g' i : ℕ) :
    (m.delete (makeValueKey g i)).entry (makeLockKey g') = m.entry (makeLockKey g') :=
  StampedMap.entry_delete_of_ne m (makeLockKey_ne_makeValueKey g' g i)

@[simp] theorem entry_valueKey_write_lockKey (m : Store) (g g' i : ℕ) (x : Str) :
    (m.write (makeLockKey g) x).entry (makeValueKey g' i) = m.entry (makeValueKey g' i) :=
  StampedMap.entry_write_of_ne m x (makeLockKey_ne_makeValueKey g g' i).symm

@[simp] theorem entry_valueKey_delete_lockKey (m : Store) (g g' i : ℕ) :
    (m.delete (makeLockKey g)).entry (makeValueKey g' i) = m.entry (makeValueKey g' i) :=
  StampedMap.entry_delete_of_ne m (makeLockKey_ne_makeValueKey g g' i).symm

theorem entry_valueKey_write_valueKey (m : Store) (g g' i i' : ℕ) (x : Str) :
    (m.write (makeValueKey g i) x).entry (makeValueKey g' i') =
      if g' = g ∧ i' = i then some ⟨x, m.next⟩ else m.entry (makeValueKey g' i') := by
  rw [StampedMap.entry_write]
  simp only [makeValueKey_inj]

theorem entry_valueKey_delete_valueKey (m : Store) (g g' i i' : ℕ) :
    (m.delete (makeValueKey g i)).entry (makeValueKey g' i') =
      if g' = g ∧ i' = i then none else m.entry (makeValueKey g' i') := by
  rw [StampedMap.entry_delete]
  simp only [makeValueKey_inj]

theorem entry_lockKey_write_lockKey (m : Store) (g g' : ℕ) (x : Str) :
    (m.write (makeLockKey g) x).entry (makeLockKey g') =
      if g' = g then some ⟨x, m.next⟩ else m.entry (makeLockKey g') := by
  rw [StampedMap.entry_write]
  simp only [makeLockKey_injective.eq_iff]

theorem entry_lockKey_delete_lockKey (m : Store) (g g' : ℕ) :
    (m.delete (makeLockKey g)).entry (makeLockKey g') =
      if g' = g then none else m.entry (makeLockKey g') := by
  rw [StampedMap.entry_delete]
  simp only [makeLockKey_injective.eq_iff]

/-- Versions that are gone stay gone. -/
theorem Handled.dead (h : Handled m v req) {gid : ℕ} {w : ℤ} (hd : Dead m gid w) :
    Dead (m.apply (req.change m)) gid w := by
  cases h with
  | noop happly => rwa [happly]
  | rewrite _ _ _ happly => rw [happly]; exact hd.write _ _
  | write _ _ _ happly => rw [happly]; exact hd.write _ _
  | clear _ _ _ happly => rw [happly]; exact hd.delete _
  | acquire _ _ _ happly => rw [happly]; exact hd.write _ _
  | release _ _ _ happly => rw [happly]; exact hd.delete _

/-- What a client `cl` notices of a step of a client with another value: nothing of its lock, and
nothing of its group's values as long as the lock has its value. -/
structure Quiet (m m' : Store) (cl : Client) : Prop where
  owns : ∀ {w}, Owns m' cl w ↔ Owns m cl w
  values : ∀ {w}, Owns m cl w → ∀ i,
    m'.entry (makeValueKey cl.gid i) = m.entry (makeValueKey cl.gid i)

/-- A client does not own a lock that has another client's value. -/
theorem not_owns_of_held {cl cl' : Client} (hheld : Held m cl) (hne : cl.value ≠ cl'.value)
    (hgid : cl'.gid = cl.gid) (w : ℤ) : ¬ Owns m cl' w := by
  intro howns
  rw [Owns, hgid] at howns
  have heq := Option.some.inj (hheld.symm.trans howns)
  exact hne (congrArg Stamped.value heq)

/-- A write to a value key of a group whose lock another client holds. -/
theorem quiet_write_valueKey {cl cl' : Client} (hheld : Held m cl) (hne : cl.value ≠ cl'.value)
    (i : ℕ) (x : Str) : Quiet m (m.write (makeValueKey cl.gid i) x) cl' where
  owns := by
    intro w
    rw [Owns, Owns, entry_lockKey_write_valueKey]
  values := by
    intro w howns i'
    rw [entry_valueKey_write_valueKey, if_neg]
    rintro ⟨hgid, -⟩
    exact not_owns_of_held hheld hne hgid w howns

/-- A removal of a value key of a group whose lock another client holds. -/
theorem quiet_delete_valueKey {cl cl' : Client} (hheld : Held m cl) (hne : cl.value ≠ cl'.value)
    (i : ℕ) : Quiet m (m.delete (makeValueKey cl.gid i)) cl' where
  owns := by
    intro w
    rw [Owns, Owns, entry_lockKey_delete_valueKey]
  values := by
    intro w howns i'
    rw [entry_valueKey_delete_valueKey, if_neg]
    rintro ⟨hgid, -⟩
    exact not_owns_of_held hheld hne hgid w howns

/-- Another client obtains a free lock. -/
theorem quiet_write_lockKey {cl cl' : Client} (hfree : m.entry (makeLockKey cl.gid) = none)
    (hne : cl.value ≠ cl'.value) : Quiet m (m.write (makeLockKey cl.gid) cl.value) cl' where
  owns := by
    intro w
    rw [Owns, Owns, entry_lockKey_write_lockKey]
    by_cases hgid : cl'.gid = cl.gid
    · -- before and after, the lock does not have the other client's value
      rw [if_pos hgid, hgid, hfree]
      simp [hne]
    · rw [if_neg hgid]
  values := fun _ i => by rw [entry_valueKey_write_lockKey]

/-- Another client gives its lock back. -/
theorem quiet_delete_lockKey {cl cl' : Client} (hheld : Held m cl) (hne : cl.value ≠ cl'.value) :
    Quiet m (m.delete (makeLockKey cl.gid)) cl' where
  owns := by
    intro w
    by_cases hgid : cl'.gid = cl.gid
    · -- before and after, the lock does not have the other client's value
      refine iff_of_false ?_ (not_owns_of_held hheld hne hgid w)
      rw [Owns, entry_lockKey_delete_lockKey, if_pos hgid]
      simp
    · rw [Owns, Owns, entry_lockKey_delete_lockKey, if_neg hgid]
  values := fun _ i => by rw [entry_valueKey_delete_lockKey]

/-- **Other clients notice nothing.** -/
theorem Handled.quiet (h : Handled m v req) {cl : Client}
    (hne : v.loc.pc.mode ≠ .idle → v.loc.value ≠ cl.value) :
    Quiet m (m.apply (req.change m)) cl := by
  cases h with
  | noop happly => rw [happly]; exact ⟨Iff.rfl, fun _ _ => rfl⟩
  | rewrite hmode hheld _ happly => rw [happly]; exact quiet_write_valueKey hheld (hne hmode) _ _
  | write hmode hheld _ happly =>
    rw [happly]; exact quiet_write_valueKey hheld (hne (by simp [hmode])) _ _
  | clear hmode hheld _ happly =>
    rw [happly]; exact quiet_delete_valueKey hheld (hne (by simp [hmode])) _
  | acquire hmode hfree _ happly =>
    rw [happly]; exact quiet_write_lockKey hfree (hne (by simp [hmode]))
  | release hmode hheld _ happly =>
    rw [happly]; exact quiet_delete_lockKey hheld (hne (by simp [hmode]))

theorem Quiet.keeps {m' : Store} {cl : Client} (h : Quiet m m' cl)
    (hdead : ∀ {gid w}, Dead m gid w → Dead m' gid w) : Keeps m m' cl where
  dead := hdead
  owns := h.owns
  hasValue := fun hheld hvalue => by rwa [HasValue, h.values hheld]
  absent := fun hheld habsent => by rwa [h.values hheld]

end Handled

/-! ## Own steps: the leader handles a request -/

section Handle

variable {c : ℕ} {m m' : Store} {v : View} {ph : Phase} {req : Request} {rest : List Request}
  {answer : List Response}

@[simp] theorem messageSerial_answer (req : Request) (m : Store) :
    (req.answer m).messageSerial = req.messageSerial := by
  cases req with
  | get req => rfl
  | put req => simp only [Request.answer]; split <;> rfl
  | cas req => simp only [Request.answer]; split <;> rfl
  | remove req =>
    simp only [Request.answer]
    split
    · rfl
    · split <;> rfl

/-- Handling a request keeps the order of the serials in flight. -/
theorem serials_handle (hreq : v.requests = req :: rest)
    (hanswer : answer = [] ∨ answer = [req.answer m]) :
    (View.mk v.loc (v.replies ++ answer) rest).serials.Sublist v.serials := by
  rcases hanswer with rfl | rfl
  · -- the answer is lost
    simp only [View.serials, hreq, List.append_nil, List.map_cons]
    exact List.Sublist.append_left (List.sublist_cons_self _ _) _
  · -- the answer takes the place of its request in the order of serials
    simp [View.serials, hreq]

/-- The replies after handling a request. -/
theorem mem_replies_handle (hanswer : answer = [] ∨ answer = [req.answer m]) {p : Response}
    (hp : p ∈ v.replies ++ answer) : p ∈ v.replies ∨ p = req.answer m := by
  rcases List.mem_append.mp hp with hp | hp
  · exact Or.inl hp
  · rcases hanswer with rfl | rfl
    · cases hp
    · exact Or.inr (List.mem_singleton.mp hp)

/-- Other messages: what is left of the requests, and replies that answer truly. -/
theorem Busy.messages (h : Busy c m v ph) {replies : List Response} {requests : List Request}
    (hreplies : ∀ p ∈ replies, p ∈ v.replies ∨
      (p.messageSerial = v.loc.serial → Answers m v.loc ph p))
    (hrequests : ∀ q ∈ requests, q ∈ v.requests)
    (hserials : (View.mk v.loc replies requests).serials.Sublist v.serials) :
    Busy c m ⟨v.loc, replies, requests⟩ ph where
  named := h.named
  order := h.order.sublist hserials
  current := fun q hq hs => h.current q (hrequests q hq) hs
  answers := fun p hp hs => (hreplies p hp).elim (fun hold => h.answers p hold hs) fun hnew => hnew hs
  stale := fun q hq hs => h.stale q (hrequests q hq) hs
  secured := by
    have hs := h.secured
    cases ph with
    | lock => trivial
    | write => exact hs
    | clear => exact hs
    | unlock => exact hs.imp_right fun ⟨hr, hall⟩ => ⟨hr, fun q hq => hall q (hrequests q hq)⟩

/-- Handling the oldest request, when the answer, if it is to the current request, is true. -/
theorem Busy.handle_of_answers (h : Busy c m' v ph) (hreq : v.requests = req :: rest)
    (hanswer : answer = [] ∨ answer = [req.answer m])
    (htrue : req.messageSerial = v.loc.serial → Answers m' v.loc ph (req.answer m)) :
    Busy c m' ⟨v.loc, v.replies ++ answer, rest⟩ ph := by
  refine h.messages (fun p hp => ?_) (fun q hq => ?_) (serials_handle hreq hanswer)
  · rcases mem_replies_handle hanswer hp with hold | rfl
    · exact Or.inl hold
    · exact Or.inr fun hs => htrue ((messageSerial_answer req m).symm.trans hs)
  · rw [hreq]
    exact List.mem_cons_of_mem _ hq

theorem DeadUnlock.keeps (hq : DeadUnlock m req) (cl : Client) :
    Keeps m (m.apply (req.change m)) cl := by
  rw [hq.apply.1]
  exact Keeps.refl m cl

/-- Writing the value that a key of the client's group has. -/
theorem keeps_rewrite {cl : Client} {i : ℕ} (hvalue : HasValue m cl i) :
    Keeps m (m.write (makeValueKey cl.gid i) cl.value) cl where
  dead := fun hd => hd.write _ _
  owns := by
    intro w
    rw [Owns, Owns, entry_lockKey_write_valueKey]
  hasValue := by
    rintro i' - ⟨w, hw⟩
    rw [HasValue, entry_valueKey_write_valueKey]
    split
    · exact ⟨_, rfl⟩
    · exact ⟨w, hw⟩
  absent := by
    intro i' _ habsent
    rw [entry_valueKey_write_valueKey, if_neg, habsent]
    rintro ⟨-, rfl⟩
    obtain ⟨w, hw⟩ := hvalue
    rw [habsent] at hw
    cases hw

theorem Redundant.keeps {cl : Client} {b : ℕ} (hq : Redundant m cl b req) (hheld : Held m cl)
    (hnamed : Named c cl) : Keeps m (m.apply (req.change m)) cl := by
  cases hq with
  | cas =>
    rw [(apply_cas_of_some hheld hnamed.ne_nil).1]
    exact Keeps.refl m cl
  | put hi hvalue =>
    rw [(apply_put m _ _ _).1]
    exact keeps_rewrite hvalue
  | remove hi habsent =>
    rw [(apply_remove m _ _).1, StampedMap.delete_of_none habsent]
    exact Keeps.refl m cl

/-- What happens at the current index is no concern of requests of earlier steps. -/
theorem Redundant.of_below {cl : Client} {b : ℕ} (hq : Redundant m cl b req)
    (hbelow : ∀ i, i < b →
      m'.entry (makeValueKey cl.gid i) = m.entry (makeValueKey cl.gid i)) :
    Redundant m' cl b req := by
  cases hq with
  | cas => exact .cas
  | put hi hvalue =>
    obtain ⟨w, hw⟩ := hvalue
    exact .put hi ⟨w, (hbelow _ hi).trans hw⟩
  | remove hi habsent => exact .remove hi ((hbelow _ hi).trans habsent)

/-- A request of an earlier step changes nothing of the client's concern. -/
theorem Busy.keeps_stale (h : Busy c m v ph) (hmem : req ∈ v.requests)
    (hserial : req.messageSerial ≠ v.loc.serial) : Keeps m (m.apply (req.change m)) v.loc := by
  have hst := h.stale req hmem hserial
  have hs := h.secured
  cases ph with
  | lock => exact DeadUnlock.keeps hst _
  | write => exact Redundant.keeps hst hs h.named
  | clear => exact Redundant.keeps hst hs h.named
  | unlock =>
    rcases hs with hheld | ⟨-, hall⟩
    · exact Redundant.keeps hst hheld h.named
    · exact absurd (hall req hmem) hserial

/-- The leader handles the current compare-and-swap of the lock phase. -/
theorem Busy.handle_lock (h : Busy c m v .lock)
    (hne : ∀ g e, m.entry (makeLockKey g) = some e → e.value ≠ [])
    (hreq : v.requests = v.loc.request .lock :: rest)
    (hanswer : answer = [] ∨ answer = [(v.loc.request .lock).answer m]) :
    Busy c (m.apply ((v.loc.request .lock).change m)) ⟨v.loc, v.replies ++ answer, rest⟩ .lock := by
  cases hk : m.entry (makeLockKey v.loc.gid) with
  | none =>
    -- the lock is free: the client obtains it
    obtain ⟨happly, hans⟩ := apply_cas_of_none hk
    rw [happly]
    have hfree : ∀ w, ¬ Owns m v.loc w := fun w hw => by
      rw [Owns, hk] at hw
      cases hw
    have howns : Owns (m.write (makeLockKey v.loc.gid) v.loc.value) v.loc m.next := by
      rw [Owns, entry_lockKey_write_lockKey, if_pos rfl]
    have hb : Busy c (m.write (makeLockKey v.loc.gid) v.loc.value) v .lock :=
      { h with
        answers := fun p hp hs => by
          -- earlier answers found the lock taken by another client
          have hold := h.answers p hp hs
          cases p with
          | cas resp =>
            rcases hold with ⟨-, ho⟩ | ⟨he, ho⟩
            · exact absurd ho (hfree _)
            · exact Or.inr ⟨he, fun ha => absurd (ho ha) (hfree _)⟩
          | _ => exact hold.elim
        stale := fun q hq hs => by
          cases h.stale q hq hs with
          | mk hd => exact .mk (hd.write _ _) }
    refine hb.handle_of_answers hreq hanswer fun _ => ?_
    rw [hans]
    exact Or.inl ⟨rfl, howns⟩
  | some e =>
    -- the lock is taken, perhaps by an earlier copy of this request: `no_match` says whose it is
    obtain ⟨happly, hans⟩ := apply_cas_of_some hk (hne _ _ hk)
    have happly' : m.apply ((v.loc.request .lock).change m) = m := happly
    have hans' : (v.loc.request .lock).answer m =
      .cas ⟨m.noMatch { serial := v.loc.serial } (makeLockKey v.loc.gid)⟩ := hans
    rw [happly']
    refine h.handle_of_answers hreq hanswer fun _ => ?_
    rw [hans']
    refine Or.inr ⟨rfl, fun hactual => ?_⟩
    have hcur := Store.current_of_some hk
    rw [Store.noMatch] at hactual ⊢
    simp only [hcur] at hactual ⊢
    rw [Owns, hk, ← hactual]

/-- The leader handles the current put of the write phase. -/
theorem Busy.handle_write (h : Busy c m v .write)
    (hreq : v.requests = v.loc.request .write :: rest)
    (hanswer : answer = [] ∨ answer = [(v.loc.request .write).answer m]) :
    Busy c (m.apply ((v.loc.request .write).change m)) ⟨v.loc, v.replies ++ answer, rest⟩ .write := by
  obtain ⟨happly, hans⟩ := apply_put m v.loc.serial (makeValueKey v.loc.gid v.loc.n) v.loc.value
  have happly' : m.apply ((v.loc.request .write).change m) =
    m.write (makeValueKey v.loc.gid v.loc.n) v.loc.value := happly
  have hans' : (v.loc.request .write).answer m =
    .put ⟨m.done { serial := v.loc.serial } (makeValueKey v.loc.gid v.loc.n) m.next⟩ := hans
  rw [happly']
  have hvalue : HasValue (m.write (makeValueKey v.loc.gid v.loc.n) v.loc.value) v.loc v.loc.n :=
    ⟨m.next, by rw [entry_valueKey_write_valueKey, if_pos ⟨rfl, rfl⟩]⟩
  have hb : Busy c (m.write (makeValueKey v.loc.gid v.loc.n) v.loc.value) v .write :=
    { h with
      answers := fun p hp hs => by
        have hold := h.answers p hp hs
        cases p with
        | put resp => exact ⟨hold.1, hvalue⟩
        | _ => exact hold.elim
      stale := fun q hq hs => by
        refine Redundant.of_below (h.stale q hq hs) fun i hi => ?_
        rw [entry_valueKey_write_valueKey, if_neg (by omega)]
      secured := by
        have hs : Held m v.loc := h.secured
        show Held _ v.loc
        rw [Held, Owns, entry_lockKey_write_valueKey]
        exact hs }
  refine hb.handle_of_answers hreq hanswer fun _ => ?_
  rw [hans']
  exact ⟨rfl, hvalue⟩

/-- The leader handles the current removal of the clear phase. -/
theorem Busy.handle_clear (h : Busy c m v .clear)
    (hreq : v.requests = v.loc.request .clear :: rest)
    (hanswer : answer = [] ∨ answer = [(v.loc.request .clear).answer m]) :
    Busy c (m.apply ((v.loc.request .clear).change m)) ⟨v.loc, v.replies ++ answer, rest⟩ .clear := by
  obtain ⟨happly, hans⟩ := apply_remove m v.loc.serial (makeValueKey v.loc.gid v.loc.n)
  have happly' : m.apply ((v.loc.request .clear).change m) =
    m.delete (makeValueKey v.loc.gid v.loc.n) := happly
  rw [happly']
  have habsent : (m.delete (makeValueKey v.loc.gid v.loc.n)).entry
      (makeValueKey v.loc.gid v.loc.n) = none := StampedMap.entry_delete_self ..
  have hb : Busy c (m.delete (makeValueKey v.loc.gid v.loc.n)) v .clear :=
    { h with
      answers := fun p hp hs => by
        have hold := h.answers p hp hs
        cases p with
        | remove resp => exact ⟨hold.1, habsent⟩
        | _ => exact hold.elim
      stale := fun q hq hs => by
        refine Redundant.of_below (h.stale q hq hs) fun i hi => ?_
        rw [entry_valueKey_delete_valueKey, if_neg (by omega)]
      secured := by
        have hs : Held m v.loc := h.secured
        show Held _ v.loc
        rw [Held, Owns, entry_lockKey_delete_valueKey]
        exact hs }
  refine hb.handle_of_answers hreq hanswer fun _ => ?_
  have hans' : (v.loc.request .clear).answer m =
    .remove ⟨if m.entry (makeValueKey v.loc.gid v.loc.n) = none then
        Store.notFound { serial := v.loc.serial }
      else m.done { serial := v.loc.serial } (makeValueKey v.loc.gid v.loc.n)
        nonexistentVersion⟩ := hans
  rw [hans']
  refine ⟨?_, habsent⟩
  split
  · exact Or.inr rfl
  · exact Or.inl rfl

/-- Behind a request of the current step there are only requests of the current step. -/
theorem Busy.current_of_head (h : Busy c m v ph) (hreq : v.requests = req :: rest)
    (hserial : req.messageSerial = v.loc.serial) :
    ∀ q ∈ v.requests, q.messageSerial = v.loc.serial := by
  have horder := (List.pairwise_append.mp h.order).2.1
  rw [hreq, List.map_cons, List.pairwise_cons] at horder
  intro q hq
  rw [hreq] at hq
  rcases List.mem_cons.mp hq with rfl | hq
  · exact hserial
  · exact horder.1 _ (List.mem_map_of_mem hq) hserial

/-- A client that gives its lock back has released it. -/
theorem released_of_delete {cl : Client} (hheld : Held m cl) :
    Released (m.delete (makeLockKey cl.gid)) cl := by
  have hnone : (m.delete (makeLockKey cl.gid)).entry (makeLockKey cl.gid) = none :=
    StampedMap.entry_delete_self ..
  refine ⟨⟨?_, ?_, ?_⟩, fun w hw => ?_⟩
  · have hpos := m.stamp_pos hheld
    exact Int.le_trans (by decide) hpos
  · have hlt := m.stamp_lt hheld
    have hle := StampedMap.next_le_apply m (.delete (makeLockKey cl.gid))
    exact Int.lt_of_lt_of_le hlt hle
  · intro e he
    rw [hnone] at he
    cases he
  · rw [Owns, hnone] at hw
    cases hw

/-- The leader handles the current removal of the unlock phase. -/
theorem Busy.handle_unlock (h : Busy c m v .unlock)
    (hreq : v.requests = v.loc.request .unlock :: rest)
    (hanswer : answer = [] ∨ answer = [(v.loc.request .unlock).answer m]) :
    Busy c (m.apply ((v.loc.request .unlock).change m)) ⟨v.loc, v.replies ++ answer, rest⟩
      .unlock := by
  have hall := h.current_of_head hreq (v.loc.messageSerial_request .unlock)
  have hremove : ∃ resp, (v.loc.request .unlock).answer m = .remove resp := ⟨_, rfl⟩
  obtain ⟨resp, hresp⟩ := hremove
  rcases h.secured with hheld | ⟨hr, -⟩
  · -- the lock is given back; the request came to the front, so everything behind it is of the
    -- current step
    rw [(apply_unlock hheld).1]
    have hreleased := released_of_delete hheld
    have hb : Busy c (m.delete (makeLockKey v.loc.gid)) v .unlock :=
      { h with
        answers := fun p hp hs => by
          have hold := h.answers p hp hs
          cases p with
          | remove resp => exact absurd hheld (hold.not_owns _)
          | _ => exact hold.elim
        stale := fun q hq hs => absurd (hall q hq) hs
        secured := Or.inr ⟨hreleased, hall⟩ }
    refine hb.handle_of_answers hreq hanswer fun _ => ?_
    rw [hresp]
    exact hreleased
  · -- an earlier copy gave it back: this one does nothing
    have hdead : DeadUnlock m (v.loc.request .unlock) := .mk hr.dead
    rw [hdead.apply.1]
    refine h.handle_of_answers hreq hanswer fun _ => ?_
    rw [hresp]
    exact hr

/-- **The leader handles the oldest request of a client**: the client's invariant is kept. -/
theorem LockInv.handle (h : LockInv c m v)
    (hne : ∀ g e, m.entry (makeLockKey g) = some e → e.value ≠ [])
    (hreq : v.requests = req :: rest) (hanswer : answer = [] ∨ answer = [req.answer m]) :
    LockInv c (m.apply (req.change m)) ⟨v.loc, v.replies ++ answer, rest⟩ := by
  have hmem : req ∈ v.requests := hreq ▸ List.mem_cons_self
  have hrest : ∀ q ∈ rest, q ∈ v.requests := fun q hq => hreq ▸ List.mem_cons_of_mem _ hq
  have hserials := serials_handle (v := v) hreq hanswer
  cases hm : v.loc.pc.mode with
  | idle =>
    have hi := h.idle hm
    -- a late unlock, which does nothing
    have hdead := hi.dead req hmem
    refine Idle.lockInv ⟨fun a ha => hi.settled a (hserials.mem ha), fun q hq => ?_⟩ hm
    exact (hdead.keeps v.loc).deadUnlock (hi.dead q (hrest q hq))
  | rest =>
    have hr := h.resting hm
    -- a late copy of an earlier request, which repeats what is there
    have hk := ((hr.redundant req hmem).keeps hr.held hr.named).resting hr
    exact Resting.lockInv ⟨hk.named, fun a ha => hk.settled a (hserials.mem ha), hk.held,
      fun q hq => hk.redundant q (hrest q hq)⟩ hm
  | busy ph =>
    have hb := h.busy hm
    refine Busy.lockInv ?_ hm
    by_cases hserial : req.messageSerial = v.loc.serial
    · -- a transmission of the current request
      obtain rfl := hb.current req hmem hserial
      cases ph with
      | lock => exact hb.handle_lock hne hreq hanswer
      | write => exact hb.handle_write hreq hanswer
      | clear => exact hb.handle_clear hreq hanswer
      | unlock => exact hb.handle_unlock hreq hanswer
    · have hk := (hb.keeps_stale hmem hserial).busy hb
      exact hk.handle_of_answers hreq hanswer fun hs => absurd hs hserial

end Handle

end Lockseq

end Traxos
