import Traxos.Lockseq.Progress

/-! # Mutual exclusion

What the lock invariant is for. A client that modifies a group holds its lock, and so does a client
one of whose modifications is still in flight when the leader takes it up, however late: the lock's
entry has the client's value at the version that the client recorded. -/

namespace Traxos

namespace Lockseq

/-- The client is in the write or clear phase. -/
inductive Client.Modifying (cl : Client) : Prop
  | send {ph : Phase} (hph : ph = .write ∨ ph = .clear) (hpc : cl.pc = .send ph)
  | receive {ph : Phase} (hph : ph = .write ∨ ph = .clear) (hpc : cl.pc = .receive ph)
  | pause {ph : Phase} (hph : ph = .write ∨ ph = .clear) (hpc : cl.pc = .pause ph)

/-- A put or a remove of a key `g{gid}/v...`. -/
inductive ModifiesValue (gid : ℕ) : Request → Prop
  | put {req : PutRequest} {l : Str} (hkey : req.key = makeGroupKey gid ++ '/' :: 'v' :: l) :
      ModifiesValue gid (.put req)
  | remove {req : RemoveRequest} {l : Str} (hkey : req.key = makeGroupKey gid ++ '/' :: 'v' :: l) :
      ModifiesValue gid (.remove req)

section Exclusion

variable {cfg : Config} {c d gid : ℕ} {m : Store} {v : View} {ph : Phase} {req : Request}
  {tr : Steps} {s : State}

/-- A client in the write or clear phase holds its lock. -/
theorem LockInv.held (h : LockInv c m v) (hmod : v.loc.Modifying) : Held m v.loc := by
  have hbusy : ∀ {ph}, ph = .write ∨ ph = .clear → v.loc.pc.mode = .busy ph → Held m v.loc := by
    intro ph hph hmode
    have hsecured := (h.busy hmode).secured
    rcases hph with rfl | rfl <;> exact hsecured
  cases hmod with
  | send hph hpc => exact hbusy hph (by rw [hpc]; rfl)
  | receive hph hpc => exact hbusy hph (by rw [hpc]; rfl)
  | pause hph hpc => exact (h.resting (by rw [hpc]; rfl)).held

theorem Client.Modifying.mode_ne_idle {cl : Client} (h : cl.Modifying) : cl.pc.mode ≠ .idle := by
  cases h with
  | send _ hpc => simp [hpc]
  | receive _ hpc => simp [hpc]
  | pause _ hpc => simp [hpc]

/-- An unlock modifies no value. -/
theorem DeadUnlock.not_modifiesValue (h : DeadUnlock m req) : ¬ ModifiesValue gid req := by
  intro hmod
  cases h with
  | mk =>
    cases hmod with
    | remove hkey => exact makeLockKey_ne_append hkey

/-- The values that a redundant request modifies are those of the client's group. -/
theorem Redundant.gid_eq {b : ℕ} (h : Redundant m v.loc b req) (hmod : ModifiesValue gid req) :
    v.loc.gid = gid := by
  cases h with
  | cas => cases hmod
  | put =>
    cases hmod with
    | put hkey => exact gid_eq_of_makeValueKey hkey
  | remove =>
    cases hmod with
    | remove hkey => exact gid_eq_of_makeValueKey hkey

/-- So are those that the current request of a phase modifies, and only the write and clear phases
have such requests. -/
theorem ModifiesValue.of_request {cl : Client} (h : ModifiesValue gid (cl.request ph)) :
    cl.gid = gid ∧ (ph = .write ∨ ph = .clear) := by
  cases ph with
  | lock => cases h
  | write =>
    cases h with
    | put hkey => exact ⟨gid_eq_of_makeValueKey hkey, Or.inl rfl⟩
  | clear =>
    cases h with
    | remove hkey => exact ⟨gid_eq_of_makeValueKey hkey, Or.inr rfl⟩
  | unlock =>
    cases h with
    | remove hkey => exact absurd hkey makeLockKey_ne_append

/-- A request of an earlier step that modifies a value finds the client's lock held. -/
theorem Busy.held_of_stale (h : Busy c m v ph) (hmem : req ∈ v.requests)
    (hserial : req.messageSerial ≠ v.loc.serial) (hmod : ModifiesValue gid req) :
    v.loc.gid = gid ∧ Held m v.loc := by
  have hstale := h.stale req hmem hserial
  have hsecured := h.secured
  cases ph with
  | lock => exact absurd hmod (DeadUnlock.not_modifiesValue hstale)
  | write => exact ⟨Redundant.gid_eq hstale hmod, hsecured⟩
  | clear => exact ⟨Redundant.gid_eq hstale hmod, hsecured⟩
  | unlock =>
    rcases hsecured with hheld | ⟨-, hall⟩
    · exact ⟨Redundant.gid_eq hstale hmod, hheld⟩
    · exact absurd (hall req hmem) hserial

/-- **Modifications are covered by the lock**: a request in flight that modifies a value is of the
client's current group, and the client holds the lock. -/
theorem LockInv.held_of_modifies (h : LockInv c m v) (hmem : req ∈ v.requests)
    (hmod : ModifiesValue gid req) : v.loc.gid = gid ∧ Held m v.loc := by
  cases hmode : v.loc.pc.mode with
  | idle => exact absurd hmod ((h.idle hmode).dead req hmem).not_modifiesValue
  | rest =>
    -- between two steps everything in flight is of the group whose lock is held
    have hr := h.resting hmode
    exact ⟨(hr.redundant req hmem).gid_eq hmod, hr.held⟩
  | busy ph =>
    have hb := h.busy hmode
    by_cases hserial : req.messageSerial = v.loc.serial
    · -- a transmission of the current request, in the write or clear phase
      obtain rfl := hb.current req hmem hserial
      obtain ⟨hgid, hph⟩ := hmod.of_request
      have hsecured := hb.secured
      refine ⟨hgid, ?_⟩
      rcases hph with rfl | rfl <;> exact hsecured
    · exact hb.held_of_stale hmem hserial hmod

/-- Two clients that hold the lock of one group are the same. -/
theorem Locking.eq_of_held {sh : Shared} {views : ℕ → View} (h : Locking sh views)
    (hc : Held sh.store (views c).loc) (hd : Held sh.store (views d).loc)
    (hcmode : (views c).loc.pc.mode ≠ .idle) (hdmode : (views d).loc.pc.mode ≠ .idle)
    (hgid : (views c).loc.gid = (views d).loc.gid) : c = d := by
  have hentry := hc
  rw [Held, Owns, hgid, hd] at hentry
  have hvalue := congrArg Stamped.value (Option.some.inj hentry)
  exact ((h.client c).named hcmode).eq ((h.client d).named hdmode) hvalue.symm

end Exclusion

/-- **Mutual exclusion.** In every state reached, clients in the write or clear phase are in
different groups; and whenever the leader takes up a put or remove of a value key of group `gid`,
the issuing client is in a sequence on `gid`, and the lock of `gid` has that client's value at the
version that the client recorded. -/
theorem mutual_exclusion (cfg : Config) (tr : Steps) (s : State) (htr : (machine cfg).Trace tr s) :
    (∀ c d, c ≠ d → (s.clients c).Modifying → (s.clients d).Modifying →
      (s.clients c).gid ≠ (s.clients d).gid) ∧
    ∀ (sj : State) (c : ℕ) (lost : Bool), (sj, .handle cfg.initialLeader c lost) ∈ tr →
      ∀ (req : Request) (rest : List Request),
        sj.net.requests c cfg.initialLeader = req :: rest →
        ∀ gid, ModifiesValue gid req → (sj.clients c).gid = gid ∧
          (sj.net.heap cfg.initialLeader).self.db[makeLockKey gid]? =
            some ⟨(sj.clients c).value, (sj.clients c).lockVersion⟩ := by
  constructor
  · intro c d hne hc hd hgid
    obtain ⟨sh, -, hlock⟩ := locking_of_trace htr
    have hcheld := (hlock.client c).held hc
    have hdheld := (hlock.client d).held hd
    exact hne (hlock.eq_of_held hcheld hdheld hc.mode_ne_idle hd.mode_ne_idle hgid)
  · intro sj c lost hmem req rest hreq gid hmod
    obtain ⟨tr', -, htr', -⟩ := htr.exists_step hmem
    obtain ⟨sh, hsim, hlock⟩ := locking_of_trace htr'
    have hin : req ∈ (sj.view cfg c).requests := by
      show req ∈ sj.net.requests c cfg.initialLeader
      rw [hreq]
      exact List.mem_cons_self
    obtain ⟨rfl, hheld⟩ := (hlock.client c).held_of_modifies hin hmod
    exact ⟨rfl, hsim.heap.db_of_some hheld⟩

/-- Client 0 sends its put twice; the second copy is taken up when it is already in the clear phase
and client 1 has found the lock taken. -/
theorem mutual_exclusion_late_copy :
    ∃ tr s sj, (machine (.oneReplica 2 1 2 (by decide) (by decide) (by decide))).Trace tr s ∧
      (sj, .handle 0 0 false) ∈ tr ∧ (sj.clients 0).pc = .send .clear ∧
      (sj.net.heap 0).self.db[makeLockKey 0]? =
        some ⟨(sj.clients 0).value, (sj.clients 0).lockVersion⟩ := by
  obtain ⟨tr, sj, htr, hpc, hreq, hhandle⟩ := Machine.exists_trace_of_record
    (M := machine (.oneReplica 2 1 2 (by decide) (by decide) (by decide)))
    [.begin 0 0 5 1, .send 0 false, .handle 0 0 false, .receive 0 0 0, .send 0 false,
      .timeout 0 0, .send 0 false, .begin 1 0 6 1, .send 1 false, .handle 0 1 false,
      .handle 0 0 false, .receive 0 0 0, .wake 0]
    (P := fun _ s => (s.clients 0).pc = .send .clear ∧
      s.net.requests 0 0 = [.put
        { serial := 8192, key := makeValueKey 0 0, value := clientKeyPrefix 0 ++ uniformHex7 5 }] ∧
      ((machine (.oneReplica 2 1 2 (by decide) (by decide) (by decide))).step s
        (.handle 0 0 false)).isSome) (by decide)
  obtain ⟨s, hs⟩ := Option.isSome_iff_exists.mp hhandle
  have hnext := htr.snoc hs
  have hmem := List.mem_append_right tr (List.mem_singleton_self (sj, Action.handle 0 0 false))
  have hmod : ModifiesValue 0 (.put
      { serial := 8192, key := makeValueKey 0 0, value := clientKeyPrefix 0 ++ uniformHex7 5 }) :=
    .put (l := ['0', '0', '0']) (by decide)
  refine ⟨_, _, sj, hnext, hmem, hpc, ?_⟩
  exact ((mutual_exclusion _ _ _ hnext).2 sj 0 false hmem _ _ hreq 0 hmod).2

end Lockseq

end Traxos
