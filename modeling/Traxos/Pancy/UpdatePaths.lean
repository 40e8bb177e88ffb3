import Traxos.Pancy.Refinement

/-! # The update paths agree

The direct `put` and `remove` and the overloads of `process` are six separately written bodies. From
the same state the ones that ask for the same update lead to the same state, and the responses carry
the same error code and versions (`update_paths_agree`). A `cas_request` has a `version_match` as
well, which has to let it through. -/

namespace Traxos

/-- The value and version that a key has in the database, empty and 0 when it is absent. -/
def Pancydb.current (db : Pancydb) (k : Str) : Vv := (db.db[k]?).getD ⟨[], 0⟩

/-- The error code and the versions that a modification reports. -/
def ModResponse.report (resp : ModResponse) : Errc × ℤ × ℤ :=
  (resp.errcode, resp.previousVersion, resp.version)

/-- A `version_match` lets an update of a key with the given version through: it is negative or the
version itself. -/
def VersionAdmits (versionMatch version : ℤ) : Prop := versionMatch < 0 ∨ versionMatch = version

namespace Heap

namespace Refines

variable {h h' : Heap} {m : Store} {k : Str}

/-- The abstract database determines the heap. -/
theorem unique (r : Refines h m) (r' : Refines h' m) : h = h' := by
  obtain ⟨nv, next, db, removes⟩ := h
  obtain ⟨nv', next', db', removes'⟩ := h'
  obtain rfl : nv = nv' := r.nonexistentVv.trans r'.nonexistentVv.symm
  obtain rfl : next = next' := r.nextVersion.trans r'.nextVersion.symm
  obtain rfl : removes = removes' := r.recentRemoves.trans r'.recentRemoves.symm
  obtain rfl : db = db' := Std.ExtTreeMap.ext_getElem? fun k => (r.db k).trans (r'.db k).symm
  rfl

theorem current_eq (r : Refines h m) (k : Str) :
    h.self.current k = Vv.ofStamped (m.current k) := by
  rw [Pancydb.current, r.db, Store.current]
  cases m.entry k with
  | none => rfl
  | some e => rfl

/-- A `version_match` that lets an update through is no mismatch. -/
theorem not_mismatch (r : Refines h m) {versionMatch : ℤ}
    (hv : VersionAdmits versionMatch (h.self.current k).version) : ¬ m.mismatch k versionMatch := by
  rw [r.current_eq] at hv
  rintro ⟨hnonneg, hne⟩
  exact hv.elim (fun hneg => by omega) hne

/-- What a modification that was carried out reports. -/
theorem report_done (r : Refines h m) (req : RequestBase) (k : Str) (version : ℤ) :
    (m.done req k version).report = (.ok, (h.self.current k).version, version) := by
  rw [r.current_eq]
  rfl

theorem processPut_eq_put (r : Refines h m) (req : PutRequest)
    (hv : VersionAdmits req.versionMatch (h.self.current req.key).version) :
    (h.processPut req).2 = h.put req.key req.value ∧ (h.processPut req).1.report =
      (.ok, (h.self.current req.key).version, h.self.nextVersion) := by
  obtain ⟨hresp, hstate⟩ := r.processPut req
  have hresp := congrArg PutResponse.toModResponse (Response.put.inj hresp)
  simp only [Request.change, if_neg (r.not_mismatch hv)] at hstate hresp
  refine ⟨hstate.unique (r.put req.key req.value), ?_⟩
  rw [hresp, r.report_done, r.nextVersion]

theorem processCas_eq_put (r : Refines h m) (req : CasRequest)
    (hexpected : req.expected = (h.self.current req.key).value)
    (hv : VersionAdmits req.versionMatch (h.self.current req.key).version) :
    (h.processCas req).2 = h.put req.key req.desired ∧ (h.processCas req).1.report =
      (.ok, (h.self.current req.key).version, h.self.nextVersion) := by
  have hadmits : ¬ (req.expected ≠ (m.current req.key).value ∨
      m.mismatch req.key req.versionMatch) := by
    rw [r.current_eq] at hexpected
    rintro (hne | hmm)
    · exact hne hexpected
    · exact r.not_mismatch hv hmm
  obtain ⟨hresp, hstate⟩ := r.processCas req
  have hresp := congrArg CasResponse.toModResponse (Response.cas.inj hresp)
  simp only [Request.change, if_neg hadmits] at hstate hresp
  refine ⟨hstate.unique (r.put req.key req.desired), ?_⟩
  rw [hresp, r.report_done, r.nextVersion]

theorem processRemove_eq_remove (r : Refines h m) (req : RemoveRequest)
    (hv : VersionAdmits req.versionMatch (h.self.current req.key).version) :
    (h.processRemove req).2 = (h.remove req.key).2 ∧
      ((h.remove req.key).1 = true ↔ (h.processRemove req).1.errcode = .ok) := by
  obtain ⟨hresp, hstate⟩ := r.processRemove req
  have hresp := congrArg RemoveResponse.toModResponse (Response.remove.inj hresp)
  simp only [Request.change, if_neg (r.not_mismatch hv)] at hstate hresp
  obtain ⟨hremoved, hstate'⟩ := r.remove req.key
  refine ⟨hstate.unique hstate', ?_⟩
  rw [hresp, hremoved, Option.isSome_iff_ne_none]
  by_cases hk : m.entry req.key = none
  · rw [if_pos hk]
    exact ⟨fun hne => absurd hk hne, fun herr => by cases herr⟩
  · rw [if_neg hk]
    exact ⟨fun _ => rfl, fun _ => hk⟩

end Refines

/-- **The update paths agree**: a put and a compare-exchange that the database lets through do what
the direct `put` does and report the same, and a removal what the direct `remove` does. -/
theorem update_paths_agree (ops : List Op) (k x : Str) :
    let h := run ops
    let current := h.self.current k
    (∀ req : PutRequest, req.key = k → req.value = x →
      (req.versionMatch < 0 ∨ req.versionMatch = current.version) →
      (h.processPut req).2 = h.put k x ∧
        (h.processPut req).1.report = (.ok, current.version, h.self.nextVersion)) ∧
    (∀ req : CasRequest, req.key = k → req.desired = x → req.expected = current.value →
      (req.versionMatch < 0 ∨ req.versionMatch = current.version) →
      (h.processCas req).2 = h.put k x ∧
        (h.processCas req).1.report = (.ok, current.version, h.self.nextVersion)) ∧
    (∀ req : RemoveRequest, req.key = k →
      (req.versionMatch < 0 ∨ k ∈ h.self.db ∧ req.versionMatch = current.version) →
      (h.processRemove req).2 = (h.remove k).2 ∧
        ((h.remove k).1 = true ↔ (h.processRemove req).1.errcode = .ok)) := by
  intro h current
  have r : Refines h (Store.run ops) := run_refines ops
  refine ⟨?_, ?_, ?_⟩
  · rintro req rfl rfl hv
    exact r.processPut_eq_put req hv
  · rintro req rfl rfl hexpected hv
    exact r.processCas_eq_put req hexpected hv
  · rintro req rfl hv
    exact r.processRemove_eq_remove req (hv.imp_right And.right)

/-- A `cas_request` that expects the current value, but another version, is refused. -/
theorem cas_refused_by_version : ¬ ∀ (ops : List Op) (k x : Str) (req : CasRequest), req.key = k →
    req.desired = x → req.expected = ((run ops).self.current k).value →
    ((run ops).processCas req).2 = (run ops).put k x := by
  intro hclaim
  have hstate := hclaim [] [] [] ⟨⟨0⟩, [], [], [], 1⟩ rfl rfl (by decide)
  have hnext := congrArg (fun h => h.self.nextVersion) hstate
  exact absurd hnext (by decide)

end Heap

end Traxos
