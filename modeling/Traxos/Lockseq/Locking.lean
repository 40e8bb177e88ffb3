import Traxos.Lockseq.Exchange

/-! # Who holds a lock, and what is in flight

The invariant of the lock protocol. It is about one client at a time and depends on what the client
is doing (`Mode`): between sequences (`Idle`), between two steps of a phase (`Resting`), or in a
loop that sends one request until it is answered (`Busy`). In each it says what the messages in
flight can still do: requests of earlier steps do nothing any more, and responses to the current
request are still true. Retry counts play no role here.

* **`LockInv`** — the invariant of one client.
* **`Keeps`** — the changes of the database that a client's invariant does not notice
  (`LockInv.keep`).
* **`Locking`** — the invariant of all clients, and who owns a lock that is taken. -/

namespace Traxos

namespace Lockseq

/-- What a client is doing. -/
inductive Mode
  /-- Between sequences. -/
  | idle
  /-- Between two steps of the write or clear phase. -/
  | rest
  /-- In the loop of a step, until its request is answered; a client that threw stays there. -/
  | busy (phase : Phase)
  deriving DecidableEq, Repr

/-- What a client at `pc` is doing. -/
def Pc.mode : Pc → Mode
  | .delay => .idle
  | .pause _ => .rest
  | .send ph => .busy ph
  | .receive ph => .busy ph
  | .backoff => .busy .lock
  | .thrown ph _ => .busy ph

@[simp] theorem Pc.mode_delay : Pc.delay.mode = .idle := rfl

@[simp] theorem Pc.mode_pause (ph : Phase) : (Pc.pause ph).mode = .rest := rfl

@[simp] theorem Pc.mode_send (ph : Phase) : (Pc.send ph).mode = .busy ph := rfl

@[simp] theorem Pc.mode_receive (ph : Phase) : (Pc.receive ph).mode = .busy ph := rfl

@[simp] theorem Pc.mode_backoff : Pc.backoff.mode = .busy .lock := rfl

@[simp] theorem Pc.mode_thrown (ph : Phase) (e : Errc) : (Pc.thrown ph e).mode = .busy ph := rfl

/-! ## The lock of a group -/

section Lock

variable (m : Store) (cl : Client)

/-- The lock of the client's group has the client's value, at version `v`. -/
def Owns (v : ℤ) : Prop := m.entry (makeLockKey cl.gid) = some ⟨cl.value, v⟩

/-- The client holds the lock of its group, at the version it recorded. -/
def Held : Prop := Owns m cl cl.lockVersion

/-- Version `v` of the lock of `gid` is gone for good. -/
structure Dead (gid : ℕ) (v : ℤ) : Prop where
  nonneg : 0 ≤ v
  lt_next : v < m.next
  ne_stamp : ∀ {e}, m.entry (makeLockKey gid) = some e → e.stamp ≠ v

/-- The client has given its lock back. -/
structure Released : Prop where
  dead : Dead m cl.gid cl.lockVersion
  not_owns : ∀ v, ¬ Owns m cl v

/-- The value key `i` of the client's group has the client's value. -/
def HasValue (i : ℕ) : Prop := ∃ v, m.entry (makeValueKey cl.gid i) = some ⟨cl.value, v⟩

/-- An unlock of a lock version that is gone. -/
inductive DeadUnlock : Request → Prop
  | mk {serial gid : ℕ} {v : ℤ} (hdead : Dead m gid v) :
      DeadUnlock (.remove { serial := serial, key := makeLockKey gid, versionMatch := v })

/-- A request of the client that has been applied before, on the lock or on a value key below `b`,
and changes nothing while the client holds the lock. -/
inductive Redundant (b : ℕ) : Request → Prop
  | cas {serial : ℕ} :
      Redundant b (.cas
        { serial := serial, key := makeLockKey cl.gid, expected := [], desired := cl.value })
  | put {serial i : ℕ} (hi : i < b) (hvalue : HasValue m cl i) :
      Redundant b (.put { serial := serial, key := makeValueKey cl.gid i, value := cl.value })
  | remove {serial i : ℕ} (hi : i < b) (habsent : m.entry (makeValueKey cl.gid i) = none) :
      Redundant b (.remove { serial := serial, key := makeValueKey cl.gid i })

/-- What a response to the current request of a phase tells, and is still true. -/
def Answers : Phase → Response → Prop
  | .lock, .cas resp =>
    resp.errcode = .ok ∧ Owns m cl resp.version ∨
      resp.errcode = .noMatch ∧ (resp.actual = cl.value → Owns m cl resp.version)
  | .write, .put resp => resp.errcode = .ok ∧ HasValue m cl cl.n
  | .clear, .remove resp =>
    (resp.errcode = .ok ∨ resp.errcode = .notFound) ∧ m.entry (makeValueKey cl.gid cl.n) = none
  | .unlock, .remove _ => Released m cl
  | _, _ => False

/-- What requests of earlier steps can be in a phase. -/
def Stale : Phase → Request → Prop
  | .lock => DeadUnlock m
  | .write => Redundant m cl cl.n
  | .clear => Redundant m cl cl.n
  | .unlock => Redundant m cl (cl.n + 1)

end Lock

/-- What is known of the lock in a phase. -/
def Secured (m : Store) (v : View) : Phase → Prop
  | .lock => True
  | .write => Held m v.loc
  | .clear => Held m v.loc
  | .unlock =>
    Held m v.loc ∨ Released m v.loc ∧ ∀ q ∈ v.requests, q.messageSerial = v.loc.serial

/-- The client's value names it. -/
def Named (c : ℕ) (cl : Client) : Prop := ∃ x, cl.value = clientKeyPrefix c ++ uniformHex7 x

/-- The invariant of a client in the loop of a step of phase `ph`. -/
structure Busy (c : ℕ) (m : Store) (v : View) (ph : Phase) : Prop where
  named : Named c v.loc
  order : v.serials.Pairwise fun a b => a = v.loc.serial → b = v.loc.serial
  current : ∀ q ∈ v.requests, q.messageSerial = v.loc.serial → q = v.loc.request ph
  answers : ∀ p ∈ v.replies, p.messageSerial = v.loc.serial → Answers m v.loc ph p
  stale : ∀ q ∈ v.requests, q.messageSerial ≠ v.loc.serial → Stale m v.loc ph q
  secured : Secured m v ph

/-- The invariant of a client between two steps, when the value keys below `b` are done. -/
structure Resting (c : ℕ) (m : Store) (v : View) (b : ℕ) : Prop where
  named : Named c v.loc
  settled : ∀ a ∈ v.serials, a = v.loc.serial
  held : Held m v.loc
  redundant : ∀ q ∈ v.requests, Redundant m v.loc b q

/-- The invariant of a client between sequences. -/
structure Idle (m : Store) (v : View) : Prop where
  settled : ∀ a ∈ v.serials, a = v.loc.serial
  dead : ∀ q ∈ v.requests, DeadUnlock m q

/-- **The invariant of one client.** -/
def LockInv (c : ℕ) (m : Store) (v : View) : Prop :=
  match v.loc.pc.mode with
  | .idle => Idle m v
  | .rest => Resting c m v v.loc.n
  | .busy ph => Busy c m v ph

section LockInv

variable {c : ℕ} {m m' : Store} {v v' : View} {ph : Phase}

theorem LockInv.idle (h : LockInv c m v) (hmode : v.loc.pc.mode = .idle) : Idle m v := by
  rwa [LockInv, hmode] at h

theorem LockInv.resting (h : LockInv c m v) (hmode : v.loc.pc.mode = .rest) :
    Resting c m v v.loc.n := by
  rwa [LockInv, hmode] at h

theorem LockInv.busy (h : LockInv c m v) (hmode : v.loc.pc.mode = .busy ph) : Busy c m v ph := by
  rwa [LockInv, hmode] at h

theorem Idle.lockInv (h : Idle m v) (hmode : v.loc.pc.mode = .idle) : LockInv c m v := by
  rwa [LockInv, hmode]

theorem Resting.lockInv (h : Resting c m v v.loc.n) (hmode : v.loc.pc.mode = .rest) :
    LockInv c m v := by
  rwa [LockInv, hmode]

theorem Busy.lockInv (h : Busy c m v ph) (hmode : v.loc.pc.mode = .busy ph) : LockInv c m v := by
  rwa [LockInv, hmode]

/-- A client that is not idle has a value that names it. -/
theorem LockInv.named (h : LockInv c m v) (hmode : v.loc.pc.mode ≠ .idle) : Named c v.loc := by
  cases hm : v.loc.pc.mode with
  | idle => exact absurd hm hmode
  | rest => exact (h.resting hm).named
  | busy ph => exact (h.busy hm).named

/-- Named values are not empty. -/
theorem Named.ne_nil {cl : Client} (h : Named c cl) : cl.value ≠ [] := by
  obtain ⟨l, hl⟩ := h
  rw [hl]
  simp [clientKeyPrefix, makeClientKey]

/-- Values that name different clients differ. -/
theorem Named.eq {d : ℕ} {cl cl' : Client} (h : Named c cl) (h' : Named d cl')
    (heq : cl.value = cl'.value) : c = d := by
  obtain ⟨l, hl⟩ := h
  obtain ⟨l', hl'⟩ := h'
  exact client_eq_of_clientKeyPrefix_append (hl.symm.trans (heq.trans hl'))

/-! ## Changes of the database that a client's invariant does not notice -/

/-- The change from `m` to `m'` leaves the client's lock as it is, and what the client knows of its
value keys while it holds the lock. -/
structure Keeps (m m' : Store) (cl : Client) : Prop where
  dead : ∀ {gid v}, Dead m gid v → Dead m' gid v
  owns : ∀ {v}, Owns m' cl v ↔ Owns m cl v
  hasValue : ∀ {i}, Held m cl → HasValue m cl i → HasValue m' cl i
  absent : ∀ {i}, Held m cl → m.entry (makeValueKey cl.gid i) = none →
    m'.entry (makeValueKey cl.gid i) = none

theorem Keeps.refl (m : Store) (cl : Client) : Keeps m m cl where
  dead := id
  owns := Iff.rfl
  hasValue := fun _ h => h
  absent := fun _ h => h

theorem Keeps.held (h : Keeps m m' v.loc) : Held m' v.loc ↔ Held m v.loc := h.owns

theorem Keeps.released (h : Keeps m m' v.loc) (hr : Released m v.loc) : Released m' v.loc where
  dead := h.dead hr.dead
  not_owns := fun w hw => hr.not_owns w (h.owns.mp hw)

theorem Keeps.redundant (h : Keeps m m' v.loc) (hheld : Held m v.loc) {b : ℕ} {q : Request}
    (hq : Redundant m v.loc b q) : Redundant m' v.loc b q := by
  cases hq with
  | cas => exact .cas
  | put hi hvalue => exact .put hi (h.hasValue hheld hvalue)
  | remove hi habsent => exact .remove hi (h.absent hheld habsent)

theorem Keeps.deadUnlock {cl : Client} (h : Keeps m m' cl) {q : Request} (hq : DeadUnlock m q) :
    DeadUnlock m' q := by
  cases hq with
  | mk hdead => exact .mk (h.dead hdead)

theorem Keeps.answers (h : Keeps m m' v.loc) (hsecured : Secured m v ph) {p : Response}
    (hp : Answers m v.loc ph p) : Answers m' v.loc ph p := by
  -- a response of another type than the phase's answers nothing
  cases ph <;> cases p <;> try exact hp.elim
  · exact hp.imp (fun ⟨he, ho⟩ => ⟨he, h.owns.mpr ho⟩)
      fun ⟨he, ho⟩ => ⟨he, fun ha => h.owns.mpr (ho ha)⟩
  · exact ⟨hp.1, h.hasValue hsecured hp.2⟩
  · exact ⟨hp.1, h.absent hsecured hp.2⟩
  · exact h.released hp

theorem Keeps.secured (h : Keeps m m' v.loc) (hs : Secured m v ph) : Secured m' v ph := by
  cases ph with
  | lock => trivial
  | write => exact h.held.mpr hs
  | clear => exact h.held.mpr hs
  | unlock => exact hs.imp h.held.mpr fun ⟨hr, hall⟩ => ⟨h.released hr, hall⟩

theorem Keeps.stale (h : Keeps m m' v.loc) (hs : Secured m v ph) {q : Request}
    (hq : Stale m v.loc ph q) (hmem : q ∈ v.requests) (hserial : q.messageSerial ≠ v.loc.serial) :
    Stale m' v.loc ph q := by
  cases ph with
  | lock => exact h.deadUnlock hq
  | write => exact h.redundant hs hq
  | clear => exact h.redundant hs hq
  | unlock =>
    rcases hs with hheld | ⟨-, hall⟩
    · exact h.redundant hheld hq
    · -- once the lock is given back, only requests of the current step are in flight
      exact absurd (hall q hmem) hserial

theorem Keeps.busy (h : Keeps m m' v.loc) (hb : Busy c m v ph) : Busy c m' v ph :=
  { hb with
    answers := fun p hp hs => h.answers hb.secured (hb.answers p hp hs)
    stale := fun q hq hs => h.stale hb.secured (hb.stale q hq hs) hq hs
    secured := h.secured hb.secured }

theorem Keeps.resting (h : Keeps m m' v.loc) {b : ℕ} (hr : Resting c m v b) : Resting c m' v b :=
  { hr with
    held := h.held.mpr hr.held
    redundant := fun q hq => h.redundant hr.held (hr.redundant q hq) }

/-- **Changes that leave a client's concerns alone keep its invariant.** An idle client has only one
concern: that versions that are gone stay gone. -/
theorem LockInv.keep (h : LockInv c m v) (hdead : ∀ {gid v}, Dead m gid v → Dead m' gid v)
    (hkeeps : Named c v.loc → Keeps m m' v.loc) : LockInv c m' v := by
  cases hm : v.loc.pc.mode with
  | idle =>
    -- only unlocks of versions that are gone are in flight
    have hi := h.idle hm
    refine Idle.lockInv { hi with dead := fun q hq => ?_ } hm
    cases hi.dead q hq with
    | mk hd => exact .mk (hdead hd)
  | rest => exact ((hkeeps (h.resting hm).named).resting (h.resting hm)).lockInv hm
  | busy ph => exact ((hkeeps (h.busy hm).named).busy (h.busy hm)).lockInv hm

/-- Versions that are gone stay gone, whatever is written. -/
theorem Dead.write {gid : ℕ} {w : ℤ} (h : Dead m gid w) (k x : Str) : Dead (m.write k x) gid w where
  nonneg := h.nonneg
  lt_next := by
    have := h.lt_next
    rw [StampedMap.next_write]
    omega
  ne_stamp := by
    intro e he
    rw [StampedMap.entry_write] at he
    split at he
    · -- the version just consumed is not one that was gone before
      obtain rfl := Option.some.inj he
      have := h.lt_next
      simp only [ne_eq]
      omega
    · exact h.ne_stamp he

/-- Versions that are gone stay gone, whatever is deleted. -/
theorem Dead.delete {gid : ℕ} {w : ℤ} (h : Dead m gid w) (k : Str) : Dead (m.delete k) gid w where
  nonneg := h.nonneg
  lt_next := by
    have hle := StampedMap.next_le_apply m (.delete k)
    have := h.lt_next
    rw [StampedMap.apply] at hle
    omega
  ne_stamp := by
    intro e he
    rw [StampedMap.entry_delete] at he
    split at he
    · cases he
    · exact h.ne_stamp he

end LockInv

/-! ## All clients -/

/-- **The invariant of all clients**: a lock that is taken has the value of a client in a sequence
on its group. -/
structure Locking (sh : Shared) (views : ℕ → View) : Prop where
  client : ∀ c, LockInv c sh.store (views c)
  owner : ∀ {gid e}, sh.store.entry (makeLockKey gid) = some e →
    ∃ c, (views c).loc.pc.mode ≠ .idle ∧ (views c).loc.gid = gid ∧ (views c).loc.value = e.value

/-- A lock that is taken has no empty value. -/
theorem Locking.value_ne_nil {sh : Shared} {views : ℕ → View} (h : Locking sh views) {gid : ℕ}
    {e : Stamped Str} (he : sh.store.entry (makeLockKey gid) = some e) : e.value ≠ [] := by
  obtain ⟨c, hmode, -, hvalue⟩ := h.owner he
  rw [← hvalue]
  exact ((h.client c).named hmode).ne_nil

end Lockseq

end Traxos
