import Traxos.Lockseq.Contents
import Traxos.Lockseq.Wraparound

/-! # Locked sequences take effect as a whole

The steps of a client itself keep the invariant of `Contents`, as long as the retry counter of the
clear phase does not wrap round: each response tells the client what the value at its place is now
(`SeqInv.accept`), and the client leaves the clear phase only when nothing of the old sequence is
left behind it (`AtRest.nextUnlock`). Hence `sequences_take_effect`: a group whose lock is free has
exactly the values of its last sequence. Once the counter wraps round this fails
(`sequences_outlived`). -/

namespace Traxos

namespace Lockseq

/-! ## Own steps -/

section Own

variable {cfg : Config} {c : ℕ} {sh : Shared} {v : View} {ph : Phase} {cl : Client}

/-- A client between two steps, whose values are its own below `n` and the old ones from
there on. -/
structure AtRest (cfg : Config) (sh : Shared) (cl : Client) : Prop where
  gid : cfg.admitsGid cl.gid
  nvalues : cfg.admitsNvalues cl.nvalues
  contents : values sh.store cl.gid = splice cl.sequence (sequence (sh.lastUnlock cl.gid)) cl.n

/-- The old values do not reach beyond the longest sequence. -/
theorem AtRest.old_eq_none (h : AtRest cfg sh cl) (hlast : LastBounded cfg sh)
    (hn : cl.nvalues ≤ cl.n) (hmax : cfg.maxSequenceLength ≤ cl.n) :
    sequence (sh.lastUnlock cl.gid) cl.n = none := by
  cases hu : sh.lastUnlock cl.gid with
  | none => rfl
  | some p =>
    -- the old sequence is no longer than the longest, and `n` is past that
    obtain ⟨x, k⟩ := p
    have hk := (hlast _ _ _ hu).1
    have hpos := h.nvalues.1
    exact if_neg (by omega)

section Loops

variable {replies : List Response} {requests : List Request}

/-- The next step of a phase, with a new serial. -/
theorem AtRest.nextStep (h : AtRest cfg sh cl)
    (hsettled : ∀ a ∈ (View.mk cl replies requests).serials, a = cl.serial)
    (hinb : (cl.nextStep ph).InBounds cfg) (hshape : Shape sh (cl.nextStep ph)) :
    SeqInv cfg sh ⟨cl.nextStep ph, replies, requests⟩ where
  inBounds := hinb
  shape := fun _ => hshape
  firstClear := FirstTry.nextStep (v := ⟨cl, replies, requests⟩) hsettled rfl rfl fun _ => by
    rw [Client.nextStep]
    simp only
    rw [h.contents, splice_self]

/-- The last step, when nothing is left of the old values. -/
theorem AtRest.nextUnlock (h : AtRest cfg sh cl)
    (hsettled : ∀ a ∈ (View.mk cl replies requests).serials, a = cl.serial)
    (hn : cl.nvalues ≤ cl.n) (hold : sequence (sh.lastUnlock cl.gid) cl.n = none) :
    SeqInv cfg sh ⟨cl.nextStep .unlock, replies, requests⟩ := by
  refine h.nextStep hsettled ?_ ?_
  · exact Client.inBounds_of_send rfl h.gid h.nvalues (by simp) (by simp)
  · -- the values below `n` are the client's own, and the old sequence does not reach `n`
    show values sh.store cl.gid = cl.sequence
    rw [h.contents]
    refine splice_eq_new fun i hi => ?_
    rw [sequence_eq_none_of_le hold hi, Client.sequence_of_le (by omega)]

/-- The head of the clear phase's loop. -/
theorem AtRest.clearLoop (h : AtRest cfg sh cl) (hlast : LastBounded cfg sh)
    (hsettled : ∀ a ∈ (View.mk cl replies requests).serials, a = cl.serial)
    (hn : cl.nvalues ≤ cl.n) : SeqInv cfg sh ⟨cl.clearLoop cfg, replies, requests⟩ := by
  unfold Client.clearLoop
  split
  · refine h.nextStep hsettled ?_ (Or.inl h.contents)
    exact Client.inBounds_of_send rfl h.gid h.nvalues (by simp) fun _ => hn
  · exact h.nextUnlock hsettled hn (h.old_eq_none hlast hn (by omega))

/-- The head of the write phase's loop. -/
theorem AtRest.writeLoop (h : AtRest cfg sh cl) (hlast : LastBounded cfg sh)
    (hsettled : ∀ a ∈ (View.mk cl replies requests).serials, a = cl.serial)
    (hn : cl.n ≤ cl.nvalues) : SeqInv cfg sh ⟨cl.writeLoop cfg, replies, requests⟩ := by
  unfold Client.writeLoop
  split
  · rename_i hne
    refine h.nextStep hsettled ?_ (Or.inl h.contents)
    exact Client.inBounds_of_send rfl h.gid h.nvalues (fun _ => Nat.lt_of_le_of_ne hn hne) (by simp)
  · exact h.clearLoop hlast hsettled (by omega)

end Loops

/-- Within the loop of a step the client's bounds and shape do not change. -/
theorem SeqInv.relocate (h : SeqInv cfg sh v) (hmode : v.loc.pc.mode = .busy ph) {pc : Pc}
    {tries leader : ℕ} {replies : List Response} {requests : List Request} (hpc : pc.mode = .busy ph)
    (hfirst : FirstClear sh
      ⟨{ v.loc with pc := pc, tries := tries, leader := leader }, replies, requests⟩) :
    SeqInv cfg sh
      ⟨{ v.loc with pc := pc, tries := tries, leader := leader }, replies, requests⟩ where
  inBounds := {
    gid := fun _ => h.inBounds.gid (by simp [hmode])
    nvalues := fun _ => h.inBounds.nvalues (by simp [hmode])
    write := fun hw => h.inBounds.write (hmode.trans (hpc.symm.trans hw))
    clear := fun hc => h.inBounds.clear (hmode.trans (hpc.symm.trans hc))
    pauseWrite := fun hp => by rw [show pc = .pause .write from hp] at hpc; cases hpc
    pauseClear := fun hp => by rw [show pc = .pause .clear from hp] at hpc; cases hpc }
  shape := fun howns => by
    have hshape := h.shape howns
    unfold Shape at hshape ⊢
    rw [hmode] at hshape
    simp only [hpc]
    exact hshape
  firstClear := hfirst

/-- A client that is not in a loop of the clear phase has no first try there. -/
theorem firstClear_of_mode {replies : List Response} {requests : List Request}
    (hmode : cl.pc.mode ≠ .busy .clear) : FirstClear sh ⟨cl, replies, requests⟩ := by
  refine FirstTry.of_pc (fun hpc => hmode ?_) fun hpc => hmode ?_
  · rw [show cl.pc = .send .clear from hpc]
    rfl
  · rw [show cl.pc = .receive .clear from hpc]
    rfl

/-- A client that throws, backs off or waits for its next sequence. -/
theorem SeqInv.of_shape (h : SeqInv cfg sh v) (hmode : v.loc.pc.mode = .busy ph) {pc : Pc}
    {replies : List Response} {requests : List Request} (hpc : pc.mode = .busy ph)
    (hsend : pc ≠ .send .clear) (hreceive : pc ≠ .receive .clear) :
    SeqInv cfg sh ⟨{ v.loc with pc := pc }, replies, requests⟩ := by
  have hfirst : FirstClear sh ⟨{ v.loc with pc := pc }, replies, requests⟩ :=
    FirstTry.of_pc hsend hreceive
  exact h.relocate hmode hpc hfirst

section Accept

variable {replies : List Response}

/-- The client obtained the lock. -/
theorem SeqInv.obtained (h : SeqInv cfg sh v) (hlast : LastBounded cfg sh)
    (hmode : v.loc.pc.mode = .busy .lock)
    (hsettled : ∀ a ∈ (View.mk v.loc replies v.requests).serials, a = v.loc.serial) {w : ℤ}
    (howns : Owns sh.store v.loc w) :
    SeqInv cfg sh ⟨v.loc.writePhase cfg w, replies, v.requests⟩ := by
  have hidle : v.loc.pc.mode ≠ .idle := by simp [hmode]
  have hvalues := (shape_iff_of_lock hmode).mp (h.shape howns)
  -- nothing has been written yet: the seam is at 0
  have hrest : AtRest cfg sh { v.loc with lockVersion := w, n := 0 } := {
    gid := h.inBounds.gid hidle
    nvalues := h.inBounds.nvalues hidle
    contents := by rw [splice_zero]; exact hvalues }
  exact hrest.writeLoop hlast hsettled (Nat.zero_le _)

/-- The current value was written. -/
theorem SeqInv.written (h : SeqInv cfg sh v) (hmode : v.loc.pc.mode = .busy .write)
    (hheld : Held sh.store v.loc) (hvalue : HasValue sh.store v.loc v.loc.n) :
    SeqInv cfg sh ⟨{ v.loc with n := v.loc.n + 1, pc := .pause .write }, replies, v.requests⟩ := by
  have hidle : v.loc.pc.mode ≠ .idle := by simp [hmode]
  have hn := h.inBounds.write hmode
  have hseam := (shape_iff_of_seam (Or.inl rfl) hmode).mp (h.shape hheld)
  exact {
    inBounds := {
      gid := fun _ => h.inBounds.gid hidle
      nvalues := fun _ => h.inBounds.nvalues hidle
      write := by simp
      clear := by simp
      pauseWrite := fun _ => hn
      pauseClear := by simp }
    -- the value at `n` is there, so the seam is past it
    shape := fun _ => eq_splice_succ hseam
      (hvalue.values_eq.trans (Client.sequence_of_lt hn).symm)
    firstClear := firstClear_of_mode (by simp) }

/-- The current value was removed. -/
theorem SeqInv.cleared (h : SeqInv cfg sh v) (hmode : v.loc.pc.mode = .busy .clear)
    (hheld : Held sh.store v.loc)
    (habsent : sh.store.entry (makeValueKey v.loc.gid v.loc.n) = none) :
    SeqInv cfg sh ⟨{ v.loc with n := v.loc.n + 1, pc := .pause .clear }, replies, v.requests⟩ := by
  have hidle : v.loc.pc.mode ≠ .idle := by simp [hmode]
  have hn := h.inBounds.clear hmode
  have hseam := (shape_iff_of_seam (Or.inr rfl) hmode).mp (h.shape hheld)
  -- the value at `n` is gone, as in the client's own sequence, so the seam is past it
  have hgone : values sh.store v.loc.gid v.loc.n = v.loc.sequence v.loc.n := by
    rw [values, habsent, Client.sequence_of_le hn]
    rfl
  exact {
    inBounds := {
      gid := fun _ => h.inBounds.gid hidle
      nvalues := fun _ => h.inBounds.nvalues hidle
      write := by simp
      clear := by simp
      pauseWrite := by simp
      pauseClear := fun _ => Nat.le_succ_of_le hn }
    shape := fun _ => eq_splice_succ hseam hgone
    firstClear := firstClear_of_mode (by simp) }

/-- There was nothing to remove on the first try: the last sequence ended here. -/
theorem SeqInv.ended (h : SeqInv cfg sh v) (hmode : v.loc.pc.mode = .busy .clear)
    (hheld : Held sh.store v.loc)
    (hsettled : ∀ a ∈ (View.mk v.loc replies v.requests).serials, a = v.loc.serial)
    (hold : sequence (sh.lastUnlock v.loc.gid) v.loc.n = none) :
    SeqInv cfg sh ⟨v.loc.nextStep .unlock, replies, v.requests⟩ := by
  have hidle : v.loc.pc.mode ≠ .idle := by simp [hmode]
  have hn := h.inBounds.clear hmode
  have hseam := (shape_iff_of_seam (Or.inr rfl) hmode).mp (h.shape hheld)
  have hrest : AtRest cfg sh v.loc := {
    gid := h.inBounds.gid hidle
    nvalues := h.inBounds.nvalues hidle
    contents := by
      rcases hseam with hs | hs
      · exact hs
      · -- without an old value at `n` it does not matter on which side of it the seam is
        rw [hs, ← update_splice, Client.sequence_of_le hn]
        refine Function.update_eq_self_iff.mpr ?_
        rw [splice_self, hold] }
  exact hrest.nextUnlock hsettled hn hold

/-- **A response to the current request** keeps the client's invariant. -/
theorem SeqInv.accept (h : SeqInv cfg sh v) (hlock : LockInv c sh.store v)
    (hlast : LastBounded cfg sh) (hpc : v.loc.pc = .receive ph) {resp : Response}
    {rest : List Response} (hreply : v.replies = resp :: rest)
    (hserial : resp.messageSerial = v.loc.serial) :
    SeqInv cfg sh ⟨v.loc.onResponse cfg c ph resp, rest, v.requests⟩ := by
  have hmem : resp ∈ v.replies := hreply ▸ List.mem_cons_self
  have hmode : v.loc.pc.mode = .busy ph := by rw [hpc]; rfl
  have hb := hlock.busy hmode
  have hsettled := hb.settled_of_head hreply hserial v.loc
  have hreacts : Reacts cfg c sh.store v.loc ph resp (v.loc.onResponse cfg c ph resp) :=
    hb.reacts hmem hserial
  generalize v.loc.onResponse cfg c ph resp = loc at hreacts ⊢
  cases hreacts with
  | obtained howns => exact h.obtained hlast hmode hsettled howns
  | refused => exact h.of_shape hmode rfl (by simp) (by simp)
  | delayed => exact h.of_shape hmode rfl (by simp) (by simp)
  | written hvalue => exact h.written hmode hb.secured hvalue
  | cleared habsent => exact h.cleared hmode hb.secured habsent
  | ended _ hnotFound htries =>
    -- the answer to the only transmission
    have hold := FirstTry.accept h.firstClear hpc htries hmem hserial hnotFound
    exact h.ended hmode hb.secured hsettled hold
  | failed => exact h.of_shape hmode rfl (by simp) (by simp)
  | released =>
    exact {
      inBounds := Client.inBounds_of_idle rfl
      shape := fun _ => trivial
      firstClear := firstClear_of_mode (by simp) }

end Accept

/-- The end of a delay within a sequence. -/
theorem SeqInv.wake (h : SeqInv cfg sh v) (hlock : LockInv c sh.store v)
    (hlast : LastBounded cfg sh) {loc : Client} (hwake : v.loc.wake cfg = some loc) :
    SeqInv cfg sh ⟨loc, v.replies, v.requests⟩ := by
  -- a client that wakes up between two steps is at rest
  have hrest : v.loc.pc.mode = .rest → AtRest cfg sh v.loc := by
    intro hmode
    have hidle : v.loc.pc.mode ≠ .idle := by simp [hmode]
    have hcontents := (shape_iff_of_rest hmode).mp (h.shape (hlock.resting hmode).held)
    exact ⟨h.inBounds.gid hidle, h.inBounds.nvalues hidle, hcontents⟩
  unfold Client.wake at hwake
  split at hwake
  · rename_i hpc
    obtain rfl := Option.some.inj hwake
    have hmode : v.loc.pc.mode = .busy .lock := by rw [hpc]; rfl
    have hfirst : FirstClear sh ⟨v.loc.again .lock, v.replies, v.requests⟩ :=
      firstClear_of_mode (by simp [Client.again])
    exact h.relocate hmode rfl hfirst
  · rename_i hpc
    obtain rfl := Option.some.inj hwake
    have hmode : v.loc.pc.mode = .rest := by rw [hpc]; rfl
    exact (hrest hmode).writeLoop hlast (hlock.resting hmode).settled (h.inBounds.pauseWrite hpc)
  · rename_i hpc
    obtain rfl := Option.some.inj hwake
    have hmode : v.loc.pc.mode = .rest := by rw [hpc]; rfl
    exact (hrest hmode).clearLoop hlast (hlock.resting hmode).settled (h.inBounds.pauseClear hpc)
  · cases hwake

/-- Losing messages. -/
theorem SeqInv.lose (h : SeqInv cfg sh v) {replies : List Response} {requests : List Request}
    (hreplies : replies.Sublist v.replies) (hrequests : requests.Sublist v.requests) :
    SeqInv cfg sh ⟨v.loc, replies, requests⟩ where
  inBounds := h.inBounds
  shape := h.shape
  firstClear := FirstTry.lose h.firstClear hreplies hrequests

/-- A transmission. -/
theorem SeqInv.send (h : SeqInv cfg sh v) (hpc : v.loc.pc = .send ph) {sent : List Request}
    (hsent : sent = [] ∨ sent = [v.loc.request ph]) :
    SeqInv cfg sh ⟨{ v.loc with pc := .receive ph }, v.replies, v.requests ++ sent⟩ := by
  have hmode : v.loc.pc.mode = .busy ph := by rw [hpc]; rfl
  have hfirst := FirstTry.send h.firstClear hpc hsent
  exact h.relocate hmode rfl hfirst

/-- An attempt that yielded no response. -/
theorem SeqInv.retry (h : SeqInv cfg sh v) (hpc : v.loc.pc = .receive ph)
    {leader randomReplica : ℕ} {replies : List Response} (hnowrap : NoWrap .clear v
      { v with
        loc := ({ v.loc with leader := leader }).retry ph randomReplica, replies := replies }) :
    SeqInv cfg sh
      ⟨({ v.loc with leader := leader }).retry ph randomReplica, replies, v.requests⟩ := by
  have hmode : v.loc.pc.mode = .busy ph := by rw [hpc]; rfl
  have hfirst : FirstClear sh
      ⟨({ v.loc with leader := leader }).retry ph randomReplica, replies, v.requests⟩ := by
    by_cases hph : ph = .clear
    · -- the counter has not wrapped round, so the next attempt is no first try
      subst hph
      exact FirstTry.of_tries (hnowrap hpc rfl)
    · exact firstClear_of_mode (by simp [Client.retry, Client.again, hph])
  exact h.relocate hmode rfl hfirst

/-- A new sequence: nobody has its value yet. -/
theorem SeqInv.begin {gid x nvalues : ℕ} (hgid : cfg.admitsGid gid)
    (hnvalues : cfg.admitsNvalues nvalues)
    (hfree : ∀ {w}, ¬ Owns sh.store (v.loc.begin c gid x nvalues) w) :
    SeqInv cfg sh ⟨v.loc.begin c gid x nvalues, v.replies, v.requests⟩ where
  inBounds := Client.inBounds_of_send rfl hgid hnvalues (by simp) (by simp)
  shape := fun howns => absurd howns hfree
  firstClear := firstClear_of_mode (by simp [Client.begin])

end Own

/-! ## All clients -/

section All

variable {cfg : Config} {c : ℕ} {sh sh' : Shared} {v' : View} {views : ℕ → View}

/-- An idle client's next value is in no lock. -/
theorem Locking.not_owns_begin (h : Locking sh views) (hmode : (views c).loc.pc.mode = .idle)
    (gid x nvalues : ℕ) {w : ℤ} : ¬ Owns sh.store ((views c).loc.begin c gid x nvalues) w := by
  intro howns
  obtain ⟨d, hd, -, hvalue⟩ := h.owner howns
  have hnamed : Named c ((views c).loc.begin c gid x nvalues) := ⟨x, rfl⟩
  -- the owner of such a lock would be the client itself, which is idle
  obtain rfl := hnamed.eq ((h.client d).named hd) hvalue.symm
  exact hd hmode

/-- A step of a client that leaves the database alone. -/
theorem Sequences.of_local (h : Sequences cfg sh views) (hclient : SeqInv cfg sh v') :
    Sequences cfg sh (Function.update views c v') where
  client := by
    rw [Function.forall_update_iff views fun _ v => SeqInv cfg sh v]
    exact ⟨hclient, fun d _ => h.client d⟩
  free := h.free
  last := h.last
  keys := h.keys

/-- **Every move keeps the invariant**, unless it wraps the retry counter of the clear phase. -/
theorem Sequences.move (h : Sequences cfg sh views) (hlocking : Locking sh views)
    (hmove : Move cfg c sh (views c) sh' v') (hnowrap : NoWrap .clear (views c) v') :
    Sequences cfg sh' (Function.update views c v') := by
  have hc := h.client c
  have hlock := hlocking.client c
  cases hmove with
  | begin hpc hgid hnvalues =>
    -- no lock has the value that the client draws
    have hmode : (views c).loc.pc.mode = .idle := by rw [hpc]; rfl
    exact h.of_local (.begin hgid hnvalues (hlocking.not_owns_begin hmode _ _ _))
  | send hpc hsent => exact h.of_local (hc.send hpc hsent)
  | retry hpc => exact h.of_local (hc.retry hpc hnowrap)
  | accept hpc hreply hserial => exact h.of_local (hc.accept hlock h.lastBounded hpc hreply hserial)
  | wake hwake => exact h.of_local (hc.wake hlock h.lastBounded hwake)
  | handle hreq hanswer => exact h.handle hlocking hreq hanswer
  | lose hreplies hrequests => exact h.of_local (hc.lose hreplies hrequests)

theorem sequences_init (cfg : Config) :
    Sequences cfg Shared.init ((machine cfg).init.view cfg) where
  client := fun _ => {
    inBounds := Client.inBounds_of_idle rfl
    shape := fun _ => trivial
    firstClear := FirstTry.of_pc (fun hp => by cases hp) fun hp => by cases hp }
  free := fun _ => rfl
  last := fun hx => by cases hx
  keys := fun he => by cases he

/-- **The invariant holds in every run** in which no removal of a clear phase fails
`2 ^ 32` times. -/
theorem sequences_of_trace {tr : Steps} {s : State} (htr : (machine cfg).Trace tr s)
    (hretries : ∀ p ∈ tr, ¬ Exhausts .clear p.1 p.2) :
    ∃ sh, Simulates cfg tr s sh ∧ Locking sh (s.view cfg) ∧ Sequences cfg sh (s.view cfg) := by
  refine exchange_invariant (C := NoWrap .clear)
    (I := fun sh views => Locking sh views ∧ Sequences cfg sh views)
    ⟨locking_init cfg, sequences_init cfg⟩ ?_ htr ?_
  · rintro c sh views sh' v' ⟨hlocking, hseq⟩ hmove hnowrap
    exact ⟨hlocking.move hmove, hseq.move hlocking hmove hnowrap⟩
  · intro p hp s' c hstep
    exact noWrap_of_step hstep (hretries p hp)

end All

/-! ## What a group holds when its lock is free -/

/-- The value keys of group `gid` are those of its last sequence: none when there was none yet, and
exactly `v000` to `v(n - 1)` with value `x` when it was one of `n` times `x`. -/
def HoldsSequence (gid : ℕ) (db : MapType) : Option (Str × ℕ) → Prop
  | none => ∀ l, db[makeGroupKey gid ++ '/' :: 'v' :: l]? = none
  | some (x, n) =>
    (∀ i, i < n → (db[makeValueKey gid i]?).map Vv.value = some x) ∧
      ∀ l, db[makeGroupKey gid ++ '/' :: 'v' :: l]? ≠ none →
        ∃ i, i < n ∧ makeGroupKey gid ++ '/' :: 'v' :: l = makeValueKey gid i

section Holds

variable {cfg : Config} {h : Heap} {m : Store} {gid : ℕ}

/-- The values of a group as the database shows them. -/
theorem values_eq_of_refines (r : h.Refines m) (gid i : ℕ) :
    values m gid i = (h.self.db[makeValueKey gid i]?).map Vv.value := by
  rw [r.db, values, Option.map_map]
  rfl

/-- Keys that start like value keys are value keys. -/
theorem GroupKey.eq_valueKey {k l : Str} (hk : GroupKey cfg k)
    (heq : k = makeGroupKey gid ++ '/' :: 'v' :: l) : ∃ i, k = makeValueKey gid i := by
  cases hk with
  | lock => exact absurd heq makeLockKey_ne_append
  | @value gid' i =>
    obtain rfl := gid_eq_of_makeValueKey heq
    exact ⟨i, rfl⟩

/-- A database in which a group has the values of a sequence holds that sequence. -/
theorem holdsSequence_of_values (r : h.Refines m)
    (hkeys : ∀ {k e}, m.entry k = some e → GroupKey cfg k) {u : Option (Str × ℕ)}
    (hvalues : values m gid = sequence u) : HoldsSequence gid h.self.db u := by
  -- whatever is present under a key that starts like a value key is one of the group's values
  have hkey : ∀ l, h.self.db[makeGroupKey gid ++ '/' :: 'v' :: l]? ≠ none →
      ∃ i, makeGroupKey gid ++ '/' :: 'v' :: l = makeValueKey gid i ∧ sequence u i ≠ none := by
    intro l hne
    cases he : m.entry (makeGroupKey gid ++ '/' :: 'v' :: l) with
    | none => exact absurd (r.db_of_none he) hne
    | some e =>
      obtain ⟨i, hi⟩ := (hkeys he).eq_valueKey rfl
      refine ⟨i, hi, ?_⟩
      rw [← hvalues, values, ← hi, he]
      simp
  cases u with
  | none =>
    intro l
    by_contra hne
    obtain ⟨i, -, hi⟩ := hkey l hne
    exact hi rfl
  | some p =>
    obtain ⟨x, n⟩ := p
    constructor
    · intro i hi
      rw [← values_eq_of_refines r, hvalues]
      exact if_pos hi
    · intro l hne
      obtain ⟨i, heq, hi⟩ := hkey l hne
      refine ⟨i, ?_, heq⟩
      by_contra hlt
      exact hi (if_neg hlt)

end Holds

/-- **Locked sequences take effect as a whole.** In every run in which no removal of a clear phase
fails `2 ^ 32` times, a group whose lock is free holds exactly the values of the client whose unlock
of the group was the last one applied. -/
theorem sequences_take_effect (cfg : Config) (tr : Steps) (s : State)
    (htr : (machine cfg).Trace tr s) (hretries : ∀ p ∈ tr, ¬ Exhausts .clear p.1 p.2) (gid : ℕ)
    (hfree : (s.net.heap cfg.initialLeader).self.db[makeLockKey gid]? = none) :
    HoldsSequence gid (s.net.heap cfg.initialLeader).self.db (lastUnlock cfg gid tr) := by
  obtain ⟨sh, hsim, -, hseq⟩ := sequences_of_trace htr hretries
  have hnone : sh.store.entry (makeLockKey gid) = none := by
    have hdb := hsim.heap.db (makeLockKey gid)
    rwa [hfree, eq_comm, Option.map_eq_none_iff] at hdb
  rw [hsim.lastUnlock]
  exact holdsSequence_of_values hsim.heap hseq.keys (hseq.free hnone)

/-- A sequence of two values, with a lost reply and a retransmission of the second put. -/
theorem sequences_take_effect_retransmitted : ∃ tr s,
    (machine (.oneReplica 1 1 2 (by decide) (by decide) (by decide))).Trace tr s ∧
      lastUnlock (.oneReplica 1 1 2 (by decide) (by decide) (by decide)) 0 tr =
        some (clientKeyPrefix 0 ++ uniformHex7 5, 2) ∧
      HoldsSequence 0 (s.net.heap 0).self.db (some (clientKeyPrefix 0 ++ uniformHex7 5, 2)) := by
  obtain ⟨tr, s, htr, hlast, hretries, hfree⟩ := Machine.exists_trace_of_record
    (M := machine (.oneReplica 1 1 2 (by decide) (by decide) (by decide)))
    [.begin 0 0 5 2, .send 0 false, .handle 0 0 false, .receive 0 0 0,
      .send 0 false, .handle 0 0 false, .receive 0 0 0, .wake 0,
      .send 0 false, .handle 0 0 true, .timeout 0 0, .send 0 false, .handle 0 0 false,
      .receive 0 0 0, .wake 0, .send 0 false, .handle 0 0 false, .receive 0 0 0]
    (P := fun tr s => lastUnlock (.oneReplica 1 1 2 (by decide) (by decide) (by decide)) 0 tr =
        some (clientKeyPrefix 0 ++ uniformHex7 5, 2) ∧
      (∀ p ∈ tr, ¬ Exhausts .clear p.1 p.2) ∧
      (s.net.heap 0).self.db[makeLockKey 0]? = none) (by decide)
  have hholds := sequences_take_effect _ tr s htr hretries 0 hfree
  rw [hlast] at hholds
  exact ⟨tr, s, htr, hlast, hholds⟩

/-- **When the counter wraps round, a value of an earlier sequence survives.** -/
theorem sequences_outlived : ∃ cfg tr s, (machine cfg).Trace tr s ∧
    (s.net.heap cfg.initialLeader).self.db[makeLockKey 0]? = none ∧
    ¬ HoldsSequence 0 (s.net.heap cfg.initialLeader).self.db (lastUnlock cfg 0 tr) := by
  obtain ⟨tr, s, htr, hlast, hdb⟩ := exists_trace_outlived
  have hmem : ∀ k vv, (s.net.heap 0).self.db[k]? = some vv ↔
      (k, vv) ∈ (s.net.heap 0).self.db.toList :=
    fun _ _ => Std.ExtTreeMap.mem_toList_iff_getElem?_eq_some.symm
  refine ⟨outlivedConfig, tr, s, htr, ?_, ?_⟩
  · show (s.net.heap 0).self.db[makeLockKey 0]? = none
    rw [Option.eq_none_iff_forall_ne_some]
    intro vv hvv
    rw [hmem, hdb] at hvv
    have hkey := List.mem_map_of_mem (f := Prod.fst) hvv
    exact absurd hkey (show makeLockKey 0 ∉ [makeValueKey 0 0, makeValueKey 0 2] by decide)
  · rw [hlast]
    rintro ⟨-, hkeys⟩
    -- `v002` is present, but a sequence of one value has only `v000`
    have hpresent : (s.net.heap 0).self.db[makeValueKey 0 2]? =
        some ⟨clientKeyPrefix 0 ++ uniformHex7 5, 4⟩ := by
      rw [hmem, hdb]
      simp
    obtain ⟨i, hi, heq⟩ := hkeys ['0', '0', '2'] fun hnone => by
      rw [show makeValueKey 0 2 = _ from rfl] at hpresent
      cases hnone.symm.trans hpresent
    have := (makeValueKey_inj.mp (show makeValueKey 0 2 = makeValueKey 0 i from heq)).2
    omega

end Lockseq

end Traxos
