import Traxos.Pancy.Versions

/-! # Conditional updates never lose an update
A client learns a key's value and version from a response (`Request.Learns`) and later makes a
request on the key conditional on that version. If the request is answered `ok`, the key still held
what the client had learnt, and nobody modified it in between; so a version admits one conditional
update. -/

namespace Traxos

/-- The `version_match` of a request; a get has none. -/
def Request.versionMatch : Request → Option ℤ
  | .get _ => none
  | .put req => some req.versionMatch
  | .cas req => some req.versionMatch
  | .remove req => some req.versionMatch

/-- **What a response tells** about the key of its request: it holds value `x` at version `v`, where
version 0 says that it is absent. A get reports it, the `ok` of a put or cas confirms the value that
was written, `noMatch` reports the actual value, and a removal leaves the key absent. -/
def Request.Learns (x : Str) (v : ℤ) : Request → Response → Prop
  | .get _, .get resp => x = resp.value ∧ v = resp.version
  | .put req, .put resp =>
    (resp.errcode = .ok ∧ x = req.value ∨ resp.errcode = .noMatch ∧ x = resp.actual) ∧
      v = resp.version
  | .cas req, .cas resp =>
    (resp.errcode = .ok ∧ x = req.desired ∨ resp.errcode = .noMatch ∧ x = resp.actual) ∧
      v = resp.version
  | .remove _, .remove resp => x = resp.actual ∧ v = resp.version
  | _, _ => False

variable {m : Store}

/-- What the answer to a put or cas tells is what the key shows afterwards. When it is refused, the
answer reports what the key goes on showing; when it is carried out, its version is that of the
entry written. -/
theorem Store.current_of_learns {P : Prop} [Decidable P] {req : RequestBase} {resp : ModResponse}
    {k x y : Str} {v : ℤ} (hresp : resp = if P then m.noMatch req k else m.done req k m.next)
    (h : (resp.errcode = .ok ∧ x = y ∨ resp.errcode = .noMatch ∧ x = resp.actual) ∧
      v = resp.version) :
    Store.current (m.apply (if P then .keep else .write k y)) k = ⟨x, v⟩ := by
  obtain ⟨hx, rfl⟩ := h
  by_cases hP : P
  · rw [if_pos hP] at hresp ⊢
    subst hresp
    simp only [Store.noMatch, responseHeader_errcode, reduceCtorEq, false_and, false_or,
      true_and] at hx
    rw [hx]
    rfl
  · rw [if_neg hP] at hresp ⊢
    subst hresp
    simp only [Store.done, responseHeader_errcode, reduceCtorEq, false_and, or_false,
      true_and] at hx
    rw [hx]
    exact Store.current_of_some (StampedMap.entry_write_self m k y)

/-- What a response tells is what the key shows just after the request. -/
theorem Request.Learns.current {req : Request} {x : Str} {v : ℤ}
    (h : req.Learns x v (req.answer m)) :
    Store.current (m.apply (req.change m)) req.key = ⟨x, v⟩ := by
  cases req with
  | get req =>
    obtain ⟨rfl, rfl⟩ := h
    rfl
  | put req => exact Store.current_of_learns rfl h
  | cas req => exact Store.current_of_learns rfl h
  | remove req =>
    obtain ⟨rfl, rfl⟩ := h
    -- a removal leaves the key absent, unless its version was refused
    have hdel : Store.current (m.delete req.key) req.key = ⟨[], 0⟩ :=
      Store.current_of_none (StampedMap.entry_delete_self m req.key)
    by_cases hk : m.entry req.key = none
    · simp only [if_pos hk, Store.notFound, Request.change]
      split
      · exact Store.current_of_none hk
      · exact hdel
    · by_cases hmm : m.mismatch req.key req.versionMatch
      · simp only [if_neg hk, if_pos hmm, Store.noMatch, Request.change, StampedMap.apply]
        rfl
      · simp only [if_neg hk, if_neg hmm, Store.done, Request.change, StampedMap.apply]
        exact hdel

/-- What `ok` says of a conditional request: the key showed the matched version, and the request
modified it. -/
theorem Request.matched_of_ok {req : Request} {v : ℤ} (hv : req.versionMatch = some v)
    (hpos : 0 ≤ v) (hok : responseErrcode (req.answer m) = .ok) :
    (m.current req.key).stamp = v ∧ m.touched (req.change m) = some req.key := by
  -- `noMatch` is not `ok`, so the version was not refused
  have hmatch : ∀ {k : Str} {w : ℤ}, w = v → ¬ m.mismatch k w → (m.current k).stamp = v := by
    intro k w hw hmm
    by_contra hne
    exact hmm ⟨by omega, by omega⟩
  cases req with
  | get req => cases hv
  | put req =>
    by_cases hmm : m.mismatch req.key req.versionMatch
    · simp only [Request.answer, if_pos hmm] at hok
      cases hok
    · exact ⟨hmatch (Option.some.inj hv) hmm, by simp only [Request.change, if_neg hmm]; rfl⟩
  | cas req =>
    by_cases hmm : req.expected ≠ (m.current req.key).value ∨ m.mismatch req.key req.versionMatch
    · simp only [Request.answer, if_pos hmm] at hok
      cases hok
    · exact ⟨hmatch (Option.some.inj hv) (fun h => hmm (Or.inr h)),
        by simp only [Request.change, if_neg hmm]; rfl⟩
  | remove req =>
    by_cases hk : m.entry req.key = none
    · simp only [Request.answer, if_pos hk] at hok
      cases hok
    · by_cases hmm : m.mismatch req.key req.versionMatch
      · simp only [Request.answer, if_neg hk, if_pos hmm] at hok
        cases hok
      · refine ⟨hmatch (Option.some.inj hv) hmm, ?_⟩
        simp only [Request.change, if_neg hmm, StampedMap.touched]
        rw [if_pos (Option.isSome_iff_ne_none.mpr hk)]
        rfl

namespace Heap

/-- The response that the request at position `i` of a run gets. -/
def responseAt (ops : List Op) (i : ℕ) (req : Request) : Response :=
  ((run (ops.take i)).processReq req).1

theorem responseAt_eq (ops : List Op) (i : ℕ) (req : Request) :
    responseAt ops i req = req.answer (Store.run (ops.take i)) :=
  ((run_refines (ops.take i)).processReq req).1

/-- What a response told is what the key shows when the next call comes. -/
theorem current_run_of_learns {ops : List Op} {i : ℕ} {q : Request} {x : Str} {v : ℤ}
    (hq : ops[i]? = some (.request q)) (hlearn : q.Learns x v (responseAt ops i q)) :
    (Store.run (ops.take (i + 1))).current q.key = ⟨x, v⟩ := by
  rw [responseAt_eq] at hlearn
  rw [Store.run_take_succ hq]
  exact hlearn.current

/-- A version that a key showed at one moment and that a request on it matches at a later one: the
entry is the same, and nobody modified the key in between. -/
theorem matched_learnt {ops : List Op} {i j : ℕ} {q : Request} {x : Str} {v : ℤ} (hij : i ≤ j)
    (hshown : (Store.run (ops.take i)).current q.key = ⟨x, v⟩) (hv : q.versionMatch = some v)
    (hok : responseErrcode (responseAt ops j q) = .ok) :
    (run (ops.take j)).self.db[q.key]? = (if v = 0 then none else some ⟨x, v⟩) ∧
      (1 ≤ v → ∀ n op, i ≤ n → n < j → ops[n]? = some op →
        (run (ops.take n)).modifies op ≠ some q.key) := by
  rw [responseAt_eq] at hok
  have hnonneg : 0 ≤ v := by
    have := Store.stamp_current_nonneg (Store.run (ops.take i)) q.key
    rwa [hshown] at this
  have hstamp := (Request.matched_of_ok hv hnonneg hok).1
  have hdb := (run_refines (ops.take j)).db q.key
  cases he : (Store.run (ops.take j)).entry q.key with
  | none =>
    rw [Store.current_of_none he] at hstamp
    obtain rfl : (0 : ℤ) = v := hstamp
    rw [hdb, he, if_pos rfl]
    exact ⟨rfl, fun h => absurd h (by decide)⟩
  | some e =>
    rw [Store.current_of_some he] at hstamp
    have hpos := StampedMap.stamp_pos _ he
    -- the version shown is positive, so it was an entry's, and that entry is still there
    have hentry : (Store.run (ops.take i)).entry q.key = some ⟨x, v⟩ := by
      cases hc : (Store.run (ops.take i)).entry q.key with
      | none =>
        have := Store.stamp_current_eq_zero.mpr hc
        rw [hshown] at this
        simp only at this
        omega
      | some e' => rw [← hshown, Store.current_of_some hc]
    obtain ⟨hsame, huntouched⟩ := Store.entry_of_old_stamp hij he
      (by have := StampedMap.stamp_lt _ hentry; simp only at this; rw [hstamp]; exact this)
    have heq : e = ⟨x, v⟩ := Option.some.inj (hsame.symm.trans hentry)
    refine ⟨by rw [hdb, he, if_neg (by omega), heq]; rfl, fun _ n op hin hnj hop => ?_⟩
    rw [((run_refines (ops.take n)).modifies_consumes op).1]
    exact huntouched n op hin hnj hop

/-- Of two accepted requests conditional on one version, the earlier one would have changed the
version that the later one matched. -/
theorem not_matched_twice {ops : List Op} {i j : ℕ} {q q' : Request} {v : ℤ} (hv : 1 ≤ v)
    (hij : i < j) (hq : ops[i]? = some (.request q)) (hkey : q'.key = q.key)
    (hvm : q.versionMatch = some v) (hok : responseErrcode (responseAt ops i q) = .ok)
    (hvm' : q'.versionMatch = some v) : responseErrcode (responseAt ops j q') ≠ .ok := by
  intro hok'
  rw [responseAt_eq] at hok
  obtain ⟨hstamp, htouched⟩ := Request.matched_of_ok hvm (by omega) hok
  have hshown : (Store.run (ops.take i)).current q'.key =
      ⟨((Store.run (ops.take i)).current q.key).value, v⟩ := by rw [hkey, ← hstamp]
  have huntouched := (matched_learnt (Nat.le_of_lt hij) hshown hvm' hok').2 hv i _ (Nat.le_refl i)
    hij hq
  rw [((run_refines (ops.take i)).modifies_consumes _).1, hkey] at huntouched
  exact huntouched htouched

end Heap

/-- **Conditional updates never lose an update.** In every run of calls on one database: if the
response to the request at `i` told that `k` holds `x` at version `v`, and a later request at `j` on
`k` with `version_match = v` is answered `ok`, then just before it `k` held `x` at `v` (was absent
when `v = 0`), and for `v ≥ 1` no call in between modified `k`. And for `v ≥ 1` at most one request
on `k` with `version_match = v` in the whole run is answered `ok`. -/
theorem conditional_updates (ops : List Op) :
    (∀ (i j : ℕ) (q q' : Request) (k x : Str) (v : ℤ), i < j →
      ops[i]? = some (.request q) → q.key = k → q.Learns x v (Heap.responseAt ops i q) →
      ops[j]? = some (.request q') → q'.key = k → q'.versionMatch = some v →
      responseErrcode (Heap.responseAt ops j q') = .ok →
      (Heap.run (ops.take j)).self.db[k]? = (if v = 0 then none else some ⟨x, v⟩) ∧
      (1 ≤ v → ∀ n op, i < n → n < j → ops[n]? = some op →
        (Heap.run (ops.take n)).modifies op ≠ some k)) ∧
    (∀ (i j : ℕ) (q q' : Request) (k : Str) (v : ℤ), 1 ≤ v →
      ops[i]? = some (.request q) → q.key = k → q.versionMatch = some v →
      responseErrcode (Heap.responseAt ops i q) = .ok →
      ops[j]? = some (.request q') → q'.key = k → q'.versionMatch = some v →
      responseErrcode (Heap.responseAt ops j q') = .ok → i = j) := by
  constructor
  · rintro i j q q' k x v hij hq rfl hlearn - hkey hv hok
    have hshown := Heap.current_run_of_learns hq hlearn
    rw [← hkey] at hshown ⊢
    exact Heap.matched_learnt hij hshown hv hok
  · intro i j q q' k v hv hq hk hvm hok hq' hk' hvm' hok'
    have hkey : q'.key = q.key := hk'.trans hk.symm
    rcases Nat.lt_trichotomy i j with hij | hij | hij
    · exact absurd hok' (Heap.not_matched_twice hv hij hq hkey hvm hok hvm')
    · exact hij
    · exact absurd hok (Heap.not_matched_twice hv hij hq' hkey.symm hvm' hok' hvm)

end Traxos
