import Traxos.Lockseq.FirstTry

/-! # What the values of a group are

Between unlocks the values of a group are those of the last locked sequence (`sequence`); while a
client owns the lock, they are its own sequence spliced onto the old one (`splice`) at the place the
client has got to.

* **`Shape`** — where that place is, in each phase.
* **`SeqInv`** — the invariant of one client, `Sequences` of all.
* **`Sequences.handle`** — the leader's steps keep it. -/

namespace Traxos

namespace Lockseq

/-! ## Sequences -/

/-- The values of group `gid`. -/
def values (m : Store) (gid : ℕ) : ℕ → Option Str :=
  fun i => (m.entry (makeValueKey gid i)).map Stamped.value

/-- The values that a locked sequence leaves: `n` times `x`; before the first one there are none. -/
def sequence : Option (Str × ℕ) → ℕ → Option Str
  | some (x, n) => fun i => if i < n then some x else none
  | none => fun _ => none

/-- The values that a client's sequence will leave. -/
def Client.sequence (cl : Client) : ℕ → Option Str := Lockseq.sequence (some (cl.value, cl.nvalues))

/-- `new` below `b`, from there on `old`. -/
def splice (new old : ℕ → Option Str) (b : ℕ) : ℕ → Option Str :=
  fun i => if i < b then new i else old i

section Splice

variable {f new old : ℕ → Option Str} {n : ℕ}

theorem splice_zero (new old : ℕ → Option Str) : splice new old 0 = old := by
  funext i
  exact if_neg (Nat.not_lt_zero i)

theorem splice_self (new old : ℕ → Option Str) (n : ℕ) : splice new old n n = old n :=
  if_neg (Nat.lt_irrefl n)

/-- Writing the new value at the seam moves the seam on. -/
theorem update_splice (new old : ℕ → Option Str) (n : ℕ) :
    Function.update (splice new old n) n (new n) = splice new old (n + 1) := by
  funext i
  -- below the seam, at it, and beyond it
  rcases Nat.lt_trichotomy i n with h | rfl | h
  · rw [Function.update_of_ne (by omega), splice, splice, if_pos h, if_pos (by omega)]
  · rw [Function.update_self, splice, if_pos (Nat.lt_succ_self _)]
  · rw [Function.update_of_ne (by omega), splice, splice, if_neg (by omega), if_neg (by omega)]

/-- Writing it a second time does nothing. -/
theorem update_splice_succ (new old : ℕ → Option Str) (n : ℕ) :
    Function.update (splice new old (n + 1)) n (new n) = splice new old (n + 1) := by
  rw [← update_splice, Function.update_idem]

/-- When the seam shows the new value, it is past it. -/
theorem eq_splice_succ (h : f = splice new old n ∨ f = splice new old (n + 1)) (hn : f n = new n) :
    f = splice new old (n + 1) := by
  rcases h with h | h
  · rw [← update_splice, ← h, ← hn, Function.update_eq_self]
  · exact h

/-- Past the end of both nothing is left of the old values. -/
theorem splice_eq_new (h : ∀ i, n ≤ i → old i = new i) : splice new old n = new := by
  funext i
  rw [splice]
  split
  · rfl
  · exact h i (by omega)

/-- Sequences have no gaps. -/
theorem sequence_eq_none_of_le {u : Option (Str × ℕ)} {i : ℕ} (h : sequence u n = none)
    (hi : n ≤ i) : sequence u i = none := by
  cases u with
  | none => rfl
  | some p =>
    obtain ⟨x, k⟩ := p
    simp only [sequence, ite_eq_right_iff, reduceCtorEq, imp_false] at h ⊢
    omega

theorem Client.sequence_of_lt {cl : Client} {i : ℕ} (h : i < cl.nvalues) :
    cl.sequence i = some cl.value := if_pos h

theorem Client.sequence_of_le {cl : Client} {i : ℕ} (h : cl.nvalues ≤ i) : cl.sequence i = none :=
  if_neg (Nat.not_lt.mpr h)

end Splice

section Values

variable (m : Store) (g g' i : ℕ) (x : Str)

theorem values_write_valueKey : values (m.write (makeValueKey g i) x) g =
    Function.update (values m g) i (some x) := by
  funext j
  rw [values, entry_valueKey_write_valueKey, Function.update_apply]
  by_cases hj : j = i
  · rw [if_pos ⟨rfl, hj⟩, if_pos hj]
    rfl
  · rw [if_neg fun h => hj h.2, if_neg hj]
    rfl

theorem values_delete_valueKey : values (m.delete (makeValueKey g i)) g =
    Function.update (values m g) i none := by
  funext j
  rw [values, entry_valueKey_delete_valueKey, Function.update_apply]
  by_cases hj : j = i
  · rw [if_pos ⟨rfl, hj⟩, if_pos hj]
    rfl
  · rw [if_neg fun h => hj h.2, if_neg hj]
    rfl

variable {g g'} in
theorem values_write_valueKey_of_ne (h : g' ≠ g) :
    values (m.write (makeValueKey g i) x) g' = values m g' := by
  funext j
  rw [values, entry_valueKey_write_valueKey, if_neg fun hj => h hj.1]
  rfl

variable {g g'} in
theorem values_delete_valueKey_of_ne (h : g' ≠ g) :
    values (m.delete (makeValueKey g i)) g' = values m g' := by
  funext j
  rw [values, entry_valueKey_delete_valueKey, if_neg fun hj => h hj.1]
  rfl

@[simp] theorem values_write_lockKey : values (m.write (makeLockKey g) x) g' = values m g' := by
  funext j
  rw [values, entry_valueKey_write_lockKey]
  rfl

@[simp] theorem values_delete_lockKey : values (m.delete (makeLockKey g)) g' = values m g' := by
  funext j
  rw [values, entry_valueKey_delete_lockKey]
  rfl

variable {m i} in
/-- A value that a client has written shows in the values. -/
theorem HasValue.values_eq {cl : Client} (h : HasValue m cl i) :
    values m cl.gid i = some cl.value := by
  obtain ⟨w, hw⟩ := h
  rw [values, hw]
  rfl

end Values

/-! ## The invariant -/

/-- The client's group and length are among those it may draw, and `n` is on the side of `nvalues`
where its phase has it. -/
structure Client.InBounds (cfg : Config) (cl : Client) : Prop where
  gid : cl.pc.mode ≠ .idle → cfg.admitsGid cl.gid
  nvalues : cl.pc.mode ≠ .idle → cfg.admitsNvalues cl.nvalues
  write : cl.pc.mode = .busy .write → cl.n < cl.nvalues
  clear : cl.pc.mode = .busy .clear → cl.nvalues ≤ cl.n
  pauseWrite : cl.pc = .pause .write → cl.n ≤ cl.nvalues
  pauseClear : cl.pc = .pause .clear → cl.nvalues ≤ cl.n

/-- The bounds of a client that is about to send. -/
theorem Client.inBounds_of_send {cfg : Config} {cl : Client} {ph : Phase} (hpc : cl.pc = .send ph)
    (hgid : cfg.admitsGid cl.gid) (hnvalues : cfg.admitsNvalues cl.nvalues)
    (hwrite : ph = .write → cl.n < cl.nvalues) (hclear : ph = .clear → cl.nvalues ≤ cl.n) :
    cl.InBounds cfg where
  gid := fun _ => hgid
  nvalues := fun _ => hnvalues
  write := by simpa [hpc] using hwrite
  clear := by simpa [hpc] using hclear
  pauseWrite := by simp [hpc]
  pauseClear := by simp [hpc]

/-- Between sequences there is nothing to bound. -/
theorem Client.inBounds_of_idle {cfg : Config} {cl : Client} (hpc : cl.pc = .delay) :
    cl.InBounds cfg where
  gid := by simp [hpc]
  nvalues := by simp [hpc]
  write := by simp [hpc]
  clear := by simp [hpc]
  pauseWrite := by simp [hpc]
  pauseClear := by simp [hpc]

/-- The values of the group of a client that owns the lock, in terms of its own sequence and the
last one before it. -/
def Shape (sh : Shared) (cl : Client) : Prop :=
  let old := sequence (sh.lastUnlock cl.gid)
  match cl.pc.mode with
  | .idle => True
  | .rest => values sh.store cl.gid = splice cl.sequence old cl.n
  | .busy .lock => values sh.store cl.gid = old
  | .busy .write =>
    values sh.store cl.gid = splice cl.sequence old cl.n ∨
      values sh.store cl.gid = splice cl.sequence old (cl.n + 1)
  | .busy .clear =>
    values sh.store cl.gid = splice cl.sequence old cl.n ∨
      values sh.store cl.gid = splice cl.sequence old (cl.n + 1)
  | .busy .unlock => values sh.store cl.gid = cl.sequence

section Shape

variable {sh : Shared} {cl : Client} {ph : Phase}

theorem shape_iff_of_lock (hmode : cl.pc.mode = .busy .lock) :
    Shape sh cl ↔ values sh.store cl.gid = sequence (sh.lastUnlock cl.gid) := by
  rw [Shape, hmode]

theorem shape_iff_of_rest (hmode : cl.pc.mode = .rest) :
    Shape sh cl ↔
      values sh.store cl.gid = splice cl.sequence (sequence (sh.lastUnlock cl.gid)) cl.n := by
  rw [Shape, hmode]

/-- In the write and clear phases the seam is just before or just behind the current value. -/
theorem shape_iff_of_seam (hph : ph = .write ∨ ph = .clear) (hmode : cl.pc.mode = .busy ph) :
    Shape sh cl ↔
      values sh.store cl.gid = splice cl.sequence (sequence (sh.lastUnlock cl.gid)) cl.n ∨
        values sh.store cl.gid =
          splice cl.sequence (sequence (sh.lastUnlock cl.gid)) (cl.n + 1) := by
  rcases hph with rfl | rfl <;> rw [Shape, hmode]

theorem shape_iff_of_unlock (hmode : cl.pc.mode = .busy .unlock) :
    Shape sh cl ↔ values sh.store cl.gid = cl.sequence := by
  rw [Shape, hmode]

end Shape

/-- Before the current removal of the clear phase is handled, value `n` is that of the last
sequence; when its answer says that there was none, the last sequence had none. -/
def FirstClear (sh : Shared) (v : View) : Prop :=
  FirstTry .clear
    (values sh.store v.loc.gid v.loc.n = sequence (sh.lastUnlock v.loc.gid) v.loc.n)
    (fun resp => responseErrcode resp = .notFound →
      sequence (sh.lastUnlock v.loc.gid) v.loc.n = none) v

/-- The invariant of one client. -/
structure SeqInv (cfg : Config) (sh : Shared) (v : View) : Prop where
  inBounds : v.loc.InBounds cfg
  shape : ∀ {w}, Owns sh.store v.loc w → Shape sh v.loc
  firstClear : FirstClear sh v

/-- The last sequences are no longer than a client may draw, and of a value. -/
def LastBounded (cfg : Config) (sh : Shared) : Prop :=
  ∀ gid x n, sh.lastUnlock gid = some (x, n) → n ≤ max 1 cfg.maxSequenceLength ∧ x ≠ []

/-- A key that some client may write. -/
inductive GroupKey (cfg : Config) : Str → Prop
  | lock {gid : ℕ} (hgid : cfg.admitsGid gid) : GroupKey cfg (makeLockKey gid)
  | value {gid i : ℕ} (hgid : cfg.admitsGid gid) (hi : i < max 1 cfg.maxSequenceLength) :
      GroupKey cfg (makeValueKey gid i)

/-- **The invariant of all clients**: a group whose lock is free has the values of its last
sequence. -/
structure Sequences (cfg : Config) (sh : Shared) (views : ℕ → View) : Prop where
  client : ∀ c, SeqInv cfg sh (views c)
  free : ∀ {gid}, sh.store.entry (makeLockKey gid) = none →
    values sh.store gid = sequence (sh.lastUnlock gid)
  last : ∀ {gid x n}, sh.lastUnlock gid = some (x, n) →
    n ≤ max 1 cfg.maxSequenceLength ∧ x ≠ []
  keys : ∀ {k e}, sh.store.entry k = some e → GroupKey cfg k

theorem Sequences.lastBounded {cfg : Config} {sh : Shared} {views : ℕ → View}
    (h : Sequences cfg sh views) : LastBounded cfg sh := fun _ _ _ => h.last

/-! ## The leader handles a request -/

section Process

variable {cfg : Config} {c : ℕ} {sh sh' : Shared} {v : View} {views : ℕ → View} {req : Request}
  {rest : List Request} {answer : List Response}

@[simp] theorem Shared.store_process (sh : Shared) (cl : Client) (req : Request) :
    (sh.process cl req).store = sh.store.apply (req.change sh.store) := rfl

theorem Shared.lastUnlock_process_of_not {cl : Client}
    (h : ∀ g, unlocks sh.store g req = false) : (sh.process cl req).lastUnlock = sh.lastUnlock := by
  funext g
  rw [Shared.process]
  simp [h g]

theorem Shared.lastUnlock_process_of_unlock {cl : Client}
    (h : ∀ g, unlocks sh.store g req = decide (g = cl.gid)) :
    (sh.process cl req).lastUnlock =
      Function.update sh.lastUnlock cl.gid (some (cl.value, cl.nvalues)) := by
  funext g
  rw [Shared.process, Function.update_apply]
  simp [h g]

/-- Shapes depend on the values and the last unlock of the client's group. -/
theorem Shape.congr {cl : Client} (h : Shape sh cl)
    (hvalues : values sh'.store cl.gid = values sh.store cl.gid)
    (hlast : sh'.lastUnlock cl.gid = sh.lastUnlock cl.gid) : Shape sh' cl := by
  unfold Shape at h ⊢
  rwa [hvalues, hlast]

/-- **Clients that notice nothing** keep their invariant. -/
theorem SeqInv.congr (h : SeqInv cfg sh v)
    (howns : ∀ {w}, Owns sh'.store v.loc w ↔ Owns sh.store v.loc w)
    (hvalues : ∀ {w}, Owns sh.store v.loc w →
      values sh'.store v.loc.gid = values sh.store v.loc.gid)
    (hlast : ∀ {w}, Owns sh.store v.loc w → sh'.lastUnlock v.loc.gid = sh.lastUnlock v.loc.gid)
    (hheld : v.loc.pc.mode = .busy .clear → Held sh.store v.loc) : SeqInv cfg sh' v where
  inBounds := h.inBounds
  shape := fun hw => (h.shape (howns.mp hw)).congr (hvalues (howns.mp hw)) (hlast (howns.mp hw))
  firstClear := by
    refine FirstTry.imp h.firstClear (fun hmode hP => ?_) fun hmode p hQ => ?_
    · -- a client in the clear phase holds its lock, so it is one that notices nothing
      rwa [hvalues (hheld hmode), hlast (hheld hmode)]
    · rwa [hlast (hheld hmode)]

/-- So do idle clients, whatever happens. -/
theorem SeqInv.of_idle (h : SeqInv cfg sh v) (hmode : v.loc.pc.mode = .idle) : SeqInv cfg sh' v where
  inBounds := h.inBounds
  shape := fun _ => by
    unfold Shape
    rw [hmode]
    trivial
  firstClear := by
    refine FirstTry.of_pc (fun hpc => ?_) fun hpc => ?_
    · rw [hpc] at hmode
      cases hmode
    · rw [hpc] at hmode
      cases hmode

/-- A client in the clear phase holds its lock. -/
theorem LockInv.held_of_clear {m : Store} (h : LockInv c m v) (hmode : v.loc.pc.mode = .busy .clear) :
    Held m v.loc := (h.busy hmode).secured

/-- Only a client that gives its lock back changes the last unlocks, and only that of its group. -/
theorem Handled.lastUnlock (h : Handled sh.store v req) :
    (sh.process v.loc req).lastUnlock = sh.lastUnlock ∨
      v.loc.pc.mode = .busy .unlock ∧ Held sh.store v.loc ∧
        (sh.process v.loc req).lastUnlock =
          Function.update sh.lastUnlock v.loc.gid (some (v.loc.value, v.loc.nvalues)) := by
  cases h with
  | noop _ hunlocks => exact Or.inl (Shared.lastUnlock_process_of_not hunlocks)
  | rewrite _ _ _ _ hunlocks => exact Or.inl (Shared.lastUnlock_process_of_not hunlocks)
  | write _ _ _ _ hunlocks => exact Or.inl (Shared.lastUnlock_process_of_not hunlocks)
  | clear _ _ _ _ hunlocks => exact Or.inl (Shared.lastUnlock_process_of_not hunlocks)
  | acquire _ _ _ _ hunlocks => exact Or.inl (Shared.lastUnlock_process_of_not hunlocks)
  | release hmode hheld _ _ hunlocks =>
    exact Or.inr ⟨hmode, hheld, Shared.lastUnlock_process_of_unlock hunlocks⟩

/-- Giving a lock back is no concern of the owner of another. -/
theorem Handled.lastUnlock_eq (h : Handled sh.store v req) {cl : Client} {w : ℤ}
    (hne : v.loc.pc.mode ≠ .idle → v.loc.value ≠ cl.value) (howns : Owns sh.store cl w) :
    (sh.process v.loc req).lastUnlock cl.gid = sh.lastUnlock cl.gid := by
  rcases h.lastUnlock with heq | ⟨hmode, hheld, heq⟩
  · rw [heq]
  · rw [heq, Function.update_of_ne]
    -- two owners of one lock would have the same value
    intro hgid
    exact not_owns_of_held hheld (hne (by simp [hmode])) hgid w howns

/-- A request of a client leaves other groups as they are. -/
theorem Handled.other_group {m : Store} (h : Handled m v req) {gid : ℕ} (hgid : gid ≠ v.loc.gid) :
    (m.apply (req.change m)).entry (makeLockKey gid) = m.entry (makeLockKey gid) ∧
      values (m.apply (req.change m)) gid = values m gid := by
  cases h with
  | noop happly => rw [happly]; exact ⟨rfl, rfl⟩
  | rewrite _ _ _ happly =>
    rw [happly, entry_lockKey_write_valueKey, values_write_valueKey_of_ne _ _ _ hgid]
    exact ⟨rfl, rfl⟩
  | write _ _ _ happly =>
    rw [happly, entry_lockKey_write_valueKey, values_write_valueKey_of_ne _ _ _ hgid]
    exact ⟨rfl, rfl⟩
  | clear _ _ _ happly =>
    rw [happly, entry_lockKey_delete_valueKey, values_delete_valueKey_of_ne _ _ hgid]
    exact ⟨rfl, rfl⟩
  | acquire _ _ _ happly =>
    rw [happly, entry_lockKey_write_lockKey, if_neg hgid, values_write_lockKey]
    exact ⟨rfl, rfl⟩
  | release _ _ _ happly =>
    rw [happly, entry_lockKey_delete_lockKey, if_neg hgid, values_delete_lockKey]
    exact ⟨rfl, rfl⟩

/-- The leader handles a request of another client. -/
theorem SeqInv.other {u : View} (h : SeqInv cfg sh u) (hhandled : Handled sh.store v req)
    (hne : v.loc.pc.mode ≠ .idle → v.loc.value ≠ u.loc.value)
    (hheld : u.loc.pc.mode = .busy .clear → Held sh.store u.loc) :
    SeqInv cfg (sh.process v.loc req) u := by
  have hquiet := hhandled.quiet hne
  refine h.congr hquiet.owns (fun howns => ?_) (fun howns => hhandled.lastUnlock_eq hne howns) hheld
  funext i
  rw [values, values, Shared.store_process, hquiet.values howns]

/-- What the leader does for the current step of the write and clear phases moves the seam. -/
theorem update_values_eq {f new old : ℕ → Option Str} {n : ℕ} {x : Option Str}
    (h : f = splice new old n ∨ f = splice new old (n + 1)) (hx : new n = x) :
    Function.update f n x = splice new old (n + 1) := by
  subst hx
  rcases h with rfl | rfl
  · exact update_splice new old n
  · exact update_splice_succ new old n

/-- The values of the client's own group after the leader has handled its request. -/
theorem SeqInv.shape_handle (h : SeqInv cfg sh v)
    (hfree : sh.store.entry (makeLockKey v.loc.gid) = none →
      values sh.store v.loc.gid = sequence (sh.lastUnlock v.loc.gid))
    (hhandled : Handled sh.store v req) {w : ℤ}
    (howns : Owns (sh.process v.loc req).store v.loc w) : Shape (sh.process v.loc req) v.loc := by
  rw [Shared.store_process] at howns
  cases hhandled with
  | noop happly hunlocks =>
    rw [happly] at howns
    refine (h.shape howns).congr ?_ (by rw [Shared.lastUnlock_process_of_not hunlocks])
    rw [Shared.store_process, happly]
  | rewrite _ hheld hvalue happly hunlocks =>
    -- the value written is the one that is there
    refine (h.shape hheld).congr ?_ (by rw [Shared.lastUnlock_process_of_not hunlocks])
    rw [Shared.store_process, happly, values_write_valueKey, ← hvalue.values_eq,
      Function.update_eq_self]
  | write hmode hheld _ happly hunlocks =>
    -- the new value is written at the seam, for the first or a later time
    have hseam := (shape_iff_of_seam (Or.inl rfl) hmode).mp (h.shape hheld)
    rw [shape_iff_of_seam (Or.inl rfl) hmode, Shared.lastUnlock_process_of_not hunlocks,
      Shared.store_process, happly, values_write_valueKey]
    exact Or.inr (update_values_eq hseam (Client.sequence_of_lt (h.inBounds.write hmode)))
  | clear hmode hheld _ happly hunlocks =>
    have hseam := (shape_iff_of_seam (Or.inr rfl) hmode).mp (h.shape hheld)
    rw [shape_iff_of_seam (Or.inr rfl) hmode, Shared.lastUnlock_process_of_not hunlocks,
      Shared.store_process, happly, values_delete_valueKey]
    exact Or.inr (update_values_eq hseam (Client.sequence_of_le (h.inBounds.clear hmode)))
  | acquire hmode hnone _ happly hunlocks =>
    -- the lock was free until now, so the group has the values of its last sequence
    rw [shape_iff_of_lock hmode, Shared.lastUnlock_process_of_not hunlocks,
      Shared.store_process, happly, values_write_lockKey]
    exact hfree hnone
  | release _ _ _ happly _ =>
    -- the client owns the lock no more
    rw [happly, Owns, StampedMap.entry_delete_self] at howns
    cases howns

/-- What the leader does keeps the account of first tries of the clear phase. -/
theorem SeqInv.firstClear_handle (h : SeqInv cfg sh v) (hlock : LockInv c sh.store v)
    (hhandled : Handled sh.store v req) (hreq : v.requests = req :: rest)
    (hanswer : answer = [] ∨ answer = [req.answer sh.store]) :
    FirstClear (sh.process v.loc req) ⟨v.loc, v.replies ++ answer, rest⟩ := by
  have hlast : v.loc.pc.mode = .busy .clear →
      (sh.process v.loc req).lastUnlock v.loc.gid = sh.lastUnlock v.loc.gid := by
    intro hmode
    rcases hhandled.lastUnlock with heq | ⟨hunlock, -⟩
    · rw [heq]
    · rw [hmode] at hunlock
      cases hunlock
  have hhandle := FirstTry.handle (m := sh.store) h.firstClear hreq hanswer
    (R := values (sh.process v.loc req).store v.loc.gid v.loc.n =
      sequence (sh.lastUnlock v.loc.gid) v.loc.n) ?_ ?_
  · refine FirstTry.imp hhandle (fun hmode hP => ?_) fun hmode p hQ => ?_
    · rw [hlast hmode]
      exact hP
    · rw [hlast hmode]
      exact hQ
  · -- requests of earlier steps leave the values as they are
    intro hmode hserial hP
    rw [← hP, Shared.store_process]
    cases hhandled with
    | noop happly => rw [happly]
    | rewrite _ _ hvalue happly =>
      rw [happly, values_write_valueKey, ← hvalue.values_eq, Function.update_eq_self]
    | clear _ _ hcurrent =>
      rw [hcurrent] at hserial
      exact absurd (v.loc.messageSerial_request .clear) hserial
    | write hmode' => simp [hmode] at hmode'
    | acquire hmode' => simp [hmode] at hmode'
    | release hmode' => simp [hmode] at hmode'
  · -- a removal is answered `not_found` when its key is absent
    intro hmode hserial hP hnotFound
    have hmem : req ∈ v.requests := hreq ▸ List.mem_cons_self
    obtain rfl := (hlock.busy hmode).current req hmem hserial
    have hans := (apply_remove sh.store v.loc.serial (makeValueKey v.loc.gid v.loc.n)).2
    rw [Client.request, hans] at hnotFound
    rw [← hP, values]
    cases hentry : sh.store.entry (makeValueKey v.loc.gid v.loc.n) with
    | none => rfl
    | some e => simp [hentry, responseErrcode, Response.base, Store.done] at hnotFound

/-- The leader handles a request of the client. -/
theorem SeqInv.handle (h : SeqInv cfg sh v) (hlock : LockInv c sh.store v)
    (hfree : sh.store.entry (makeLockKey v.loc.gid) = none →
      values sh.store v.loc.gid = sequence (sh.lastUnlock v.loc.gid))
    (hhandled : Handled sh.store v req) (hreq : v.requests = req :: rest)
    (hanswer : answer = [] ∨ answer = [req.answer sh.store]) :
    SeqInv cfg (sh.process v.loc req) ⟨v.loc, v.replies ++ answer, rest⟩ where
  inBounds := h.inBounds
  shape := h.shape_handle hfree hhandled
  firstClear := h.firstClear_handle hlock hhandled hreq hanswer

/-- A group whose lock is free after the leader has handled a request. -/
theorem SeqInv.free_handle (h : SeqInv cfg sh v)
    (hfree : ∀ {gid}, sh.store.entry (makeLockKey gid) = none →
      values sh.store gid = sequence (sh.lastUnlock gid))
    (hhandled : Handled sh.store v req) {gid : ℕ}
    (hnone : (sh.process v.loc req).store.entry (makeLockKey gid) = none) :
    values (sh.process v.loc req).store gid =
      sequence ((sh.process v.loc req).lastUnlock gid) := by
  rw [Shared.store_process] at hnone ⊢
  by_cases hgid : gid = v.loc.gid
  · subst hgid
    have hheld : Held sh.store v.loc → sh.store.entry (makeLockKey v.loc.gid) ≠ none := by
      intro hheld hnone
      rw [Held, Owns, hnone] at hheld
      cases hheld
    cases hhandled with
    | noop happly hunlocks =>
      rw [happly] at hnone ⊢
      rw [Shared.lastUnlock_process_of_not hunlocks]
      exact hfree hnone
    -- in the next four cases the client's lock is taken
    | rewrite _ h' _ happly =>
      rw [happly, entry_lockKey_write_valueKey] at hnone
      exact absurd hnone (hheld h')
    | write _ h' _ happly =>
      rw [happly, entry_lockKey_write_valueKey] at hnone
      exact absurd hnone (hheld h')
    | clear _ h' _ happly =>
      rw [happly, entry_lockKey_delete_valueKey] at hnone
      exact absurd hnone (hheld h')
    | acquire _ _ _ happly =>
      rw [happly, entry_lockKey_write_lockKey, if_pos rfl] at hnone
      cases hnone
    | release hmode h' _ happly hunlocks =>
      -- the client gives its lock back: its sequence is complete
      rw [happly, values_delete_lockKey, Shared.lastUnlock_process_of_unlock hunlocks,
        Function.update_self]
      exact (shape_iff_of_unlock hmode).mp (h.shape h')
  · obtain ⟨hlock, hvalues⟩ := hhandled.other_group hgid
    rw [hlock] at hnone
    rw [hvalues, hfree hnone]
    rcases hhandled.lastUnlock with heq | ⟨-, -, heq⟩
    · rw [heq]
    · rw [heq, Function.update_of_ne hgid]

/-- The keys that are present after the leader has handled a request. -/
theorem SeqInv.keys_handle (h : SeqInv cfg sh v)
    (hkeys : ∀ {k e}, sh.store.entry k = some e → GroupKey cfg k)
    (hhandled : Handled sh.store v req) {k : Str} {e : Stamped Str}
    (he : (sh.process v.loc req).store.entry k = some e) : GroupKey cfg k := by
  rw [Shared.store_process] at he
  -- a write adds its key to those present, a deletion adds none
  have hwrite : ∀ {k' x}, GroupKey cfg k' → (sh.store.write k' x).entry k = some e →
      GroupKey cfg k := by
    intro k' x hk' he'
    rw [StampedMap.entry_write] at he'
    split at he'
    · rename_i heq
      rwa [heq]
    · exact hkeys he'
  have hdelete : ∀ {k'}, (sh.store.delete k').entry k = some e → GroupKey cfg k := by
    intro k' he'
    rw [StampedMap.entry_delete] at he'
    split at he'
    · cases he'
    · exact hkeys he'
  cases hhandled with
  | noop happly =>
    rw [happly] at he
    exact hkeys he
  | rewrite _ _ hvalue happly =>
    rw [happly] at he
    -- the key is present already
    obtain ⟨w, hw⟩ := hvalue
    exact hwrite (hkeys hw) he
  | write hmode _ _ happly =>
    rw [happly] at he
    have hidle : v.loc.pc.mode ≠ .idle := by simp [hmode]
    have hn := h.inBounds.write hmode
    exact hwrite (.value (h.inBounds.gid hidle)
      (Nat.lt_of_lt_of_le hn (h.inBounds.nvalues hidle).2)) he
  | clear _ _ _ happly =>
    rw [happly] at he
    exact hdelete he
  | acquire hmode _ _ happly =>
    rw [happly] at he
    exact hwrite (.lock (h.inBounds.gid (by simp [hmode]))) he
  | release _ _ _ happly =>
    rw [happly] at he
    exact hdelete he

/-- The last unlocks after the leader has handled a request. -/
theorem SeqInv.last_handle (h : SeqInv cfg sh v) (hlock : LockInv c sh.store v)
    (hlast : LastBounded cfg sh) (hhandled : Handled sh.store v req) :
    LastBounded cfg (sh.process v.loc req) := by
  intro gid x n hx
  rcases hhandled.lastUnlock with heq | ⟨hmode, -, heq⟩
  · rw [heq] at hx
    exact hlast _ _ _ hx
  · have hidle : v.loc.pc.mode ≠ .idle := by simp [hmode]
    rw [heq, Function.update_apply] at hx
    split at hx
    · obtain ⟨rfl, rfl⟩ := Prod.mk.inj (Option.some.inj hx)
      exact ⟨(h.inBounds.nvalues hidle).2, (hlock.named hidle).ne_nil⟩
    · exact hlast _ _ _ hx

/-- **The leader's steps** keep the invariant. -/
theorem Sequences.handle (h : Sequences cfg sh views) (hlocking : Locking sh views)
    (hreq : (views c).requests = req :: rest)
    (hanswer : answer = [] ∨ answer = [req.answer sh.store]) :
    Sequences cfg (sh.process (views c).loc req) (Function.update views c
      ⟨(views c).loc, (views c).replies ++ answer, rest⟩) := by
  have hlock := hlocking.client c
  have hhandled := hlock.handled (fun _ _ he => hlocking.value_ne_nil he) hreq
  have hc := h.client c
  have hbounded := hc.last_handle hlock h.lastBounded hhandled
  refine ⟨?_, hc.free_handle h.free hhandled, hbounded _ _ _, hc.keys_handle h.keys hhandled⟩
  rw [Function.forall_update_iff views fun _ v => SeqInv cfg (sh.process (views c).loc req) v]
  refine ⟨hc.handle hlock h.free hhandled hreq hanswer, fun d hd => ?_⟩
  by_cases hmode : (views d).loc.pc.mode = .idle
  · -- an idle client has nothing to lose
    exact (h.client d).of_idle hmode
  · -- any other client has a value of its own
    refine (h.client d).other hhandled (fun hcmode hvalue => hd ?_) fun hclear => ?_
    · exact (((hlocking.client d).named hmode).eq (hlock.named hcmode) hvalue.symm)
    · exact (hlocking.client d).held_of_clear hclear

end Process

end Lockseq

end Traxos
