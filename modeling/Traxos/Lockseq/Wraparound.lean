import Traxos.Lockseq.Exchange

/-! # Runs in which a retry counter wraps round

An attempt that fails, its request lost and its timeout over, changes nothing but `tries`, and
`2 ^ 32` of them do not even change that (`exists_trace_fail`). A client whose removal was applied
but never answered can thus come to take a later `not_found` for the answer to its first try; in
`exists_trace_outlived` it leaves a value of the previous sequence behind. -/

namespace Traxos

namespace Lockseq

section Fail

variable {cfg : Config} {tr : Steps} {s : State} {c : ℕ} {ph : Phase}

theorem lastUnlock_append (cfg : Config) (gid : ℕ) (tr tr' : Steps) :
    lastUnlock cfg gid (tr ++ tr') = (lastUnlock cfg gid tr').or (lastUnlock cfg gid tr) := by
  induction tr' using List.reverseRecOn with
  | nil => simp [lastUnlock]
  | append_singleton tr' p ih =>
    obtain ⟨s, a⟩ := p
    rw [← List.append_assoc, lastUnlock_concat, lastUnlock_concat, ih, Option.or_assoc]

/-- Client `c` after `k` more failed attempts, each of them to the same replica. -/
def State.fail (s : State) (c k : ℕ) : State :=
  s.setClient c { s.clients c with tries := ((s.clients c).tries + k) % 2 ^ 32 }

theorem State.setClient_setClient (s : State) (c : ℕ) (cl cl' : Client) :
    (s.setClient c cl).setClient c cl' = s.setClient c cl' := by
  rw [setClient, setClient, setClient, Function.update_idem]

/-- One failed attempt. -/
theorem Trace.fail (htr : (machine cfg).Trace tr s) (hpc : (s.clients c).pc = .send ph)
    (hleader : (s.clients c).leader < cfg.nreplicas) :
    ∃ s', (machine cfg).Trace
      (tr ++ [(s, .send c true)] ++ [(s', .timeout c (s.clients c).leader)]) (s.fail c 1) := by
  have hsend : (machine cfg).step s (.send c true) =
      some (s.setClient c { s.clients c with pc := .receive ph }) := by
    show step cfg s (.send c true) = _
    simp only [step, hpc]
    rfl
  refine ⟨_, (htr.snoc hsend).snoc ?_⟩
  show step cfg _ (.timeout c (s.clients c).leader) = _
  simp only [step, State.clients_setClient, if_pos hleader, State.setClient_setClient]
  simp only [State.fail, Client.retry, Client.again, ite_self, hpc]

/-- **Failed attempts** can follow each other without end; only `tries` counts them. -/
theorem exists_trace_fail (htr : (machine cfg).Trace tr s) (hpc : (s.clients c).pc = .send ph)
    (hleader : (s.clients c).leader < cfg.nreplicas) (k : ℕ) :
    ∃ tr', (machine cfg).Trace (tr ++ tr') (s.fail c (k + 1)) ∧
      ∀ gid, lastUnlock cfg gid tr' = none := by
  induction k with
  | zero =>
    obtain ⟨s', htr'⟩ := Trace.fail htr hpc hleader
    rw [List.append_assoc] at htr'
    exact ⟨_, htr', fun _ => rfl⟩
  | succ k ih =>
    obtain ⟨tr', htr', hlast⟩ := ih
    have hclient : (s.fail c (k + 1)).clients c =
        { s.clients c with tries := ((s.clients c).tries + (k + 1)) % 2 ^ 32 } :=
      s.clients_setClient c _
    obtain ⟨s', hnext⟩ := Trace.fail (c := c) htr' (by rw [hclient]; exact hpc)
      (by rw [hclient]; exact hleader)
    -- one more attempt adds one to the counter, which is read modulo `2 ^ 32` throughout
    have hfail : (s.fail c (k + 1)).fail c 1 = s.fail c (k + 1 + 1) := by
      rw [State.fail, hclient, State.fail, State.setClient_setClient, State.fail]
      simp only [Nat.mod_add_mod, Nat.add_assoc]
    rw [hfail, List.append_assoc, List.append_assoc] at hnext
    refine ⟨_, hnext, fun gid => ?_⟩
    rw [lastUnlock_append, hlast, Option.or_none]
    rfl

end Fail

/-! ## An outlived value -/

/-- One client, one group, sequences of up to three values. -/
def outlivedConfig : Config := .oneReplica 1 1 3 (by decide) (by decide) (by decide)

/-- A sequence of three values; then one of a single value, up to the first removal of its clear
phase, which the leader applies without the client learning it. -/
def beforeFailures : List Action :=
  [.begin 0 0 5 3, .send 0 false, .handle 0 0 false, .receive 0 0 0,
    .send 0 false, .handle 0 0 false, .receive 0 0 0, .wake 0,
    .send 0 false, .handle 0 0 false, .receive 0 0 0, .wake 0,
    .send 0 false, .handle 0 0 false, .receive 0 0 0, .wake 0,
    .send 0 false, .handle 0 0 false, .receive 0 0 0,
    .begin 0 0 6 1, .send 0 false, .handle 0 0 false, .receive 0 0 0,
    .send 0 false, .handle 0 0 false, .receive 0 0 0, .wake 0,
    .send 0 false, .handle 0 0 true, .timeout 0 0]

/-- The next transmission gets through, and its answer `not_found` seems to be that of a
first try. -/
def afterFailures : List Action :=
  [.send 0 false, .handle 0 0 false, .receive 0 0 0, .send 0 false, .handle 0 0 false]

/-- **A value outlives the next sequence**: after `2 ^ 32` failed attempts of one removal, the
second sequence ends with the lock free, one value of its own, and value 2 of the first sequence. -/
theorem exists_trace_outlived : ∃ tr s, (machine outlivedConfig).Trace tr s ∧
    lastUnlock outlivedConfig 0 tr = some (clientKeyPrefix 0 ++ uniformHex7 6, 1) ∧
    (s.net.heap 0).self.db.toList = [
      (makeValueKey 0 0, ⟨clientKeyPrefix 0 ++ uniformHex7 6, 7⟩),
      (makeValueKey 0 2, ⟨clientKeyPrefix 0 ++ uniformHex7 5, 4⟩)] := by
  obtain ⟨tr, s, htr, hpc, hleader, hrest⟩ := Machine.exists_trace_of_record
    (M := machine outlivedConfig) beforeFailures
    (P := fun _ s => (s.clients 0).pc = .send .clear ∧ (s.clients 0).leader < 1 ∧
      ((machine outlivedConfig).record (s.fail 0 (2 ^ 32 - 1)) afterFailures).any fun p =>
        decide (lastUnlock outlivedConfig 0 p.1 = some (clientKeyPrefix 0 ++ uniformHex7 6, 1) ∧
          (p.2.net.heap 0).self.db.toList = [
            (makeValueKey 0 0, ⟨clientKeyPrefix 0 ++ uniformHex7 6, 7⟩),
            (makeValueKey 0 2, ⟨clientKeyPrefix 0 ++ uniformHex7 5, 4⟩)])) (by decide)
  obtain ⟨tr', htr', -⟩ := exists_trace_fail htr hpc hleader (2 ^ 32 - 2)
  obtain ⟨⟨tr'', t⟩, hrecord, hfacts⟩ := (Option.any_eq_true _ _).mp hrest
  obtain ⟨hlast, hdb⟩ := of_decide_eq_true hfacts
  refine ⟨_, t, htr'.record hrecord, ?_, hdb⟩
  rw [lastUnlock_append, hlast, Option.some_or]

end Lockseq

end Traxos
