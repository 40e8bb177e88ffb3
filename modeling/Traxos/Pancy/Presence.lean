import Traxos.Pancy.Refinement

/-! # Asking whether a key exists
A `pancydb` decides in five places whether a key is present: by the key itself (`exists`), by the
version 0 of the placeholder (`version`, `get`), by the end of the map (`remove_request`), and by a
null pointer (`get_request`). The first four agree in every state that refines a stamped map, whose
entries have positive stamps. The last one never finds a null pointer: a `get_request` for an absent
key is answered `ok`, so all five agree on the present keys only (`presence_agrees_iff`). -/

namespace Traxos

namespace Heap

/-- Every way of asking whether the key of a `get_request` exists gives the same answer. -/
structure PresenceAgrees (h : Heap) (req : GetRequest) : Prop where
  notFound : (h.processGet req).errcode = .notFound ↔ h.self.db[req.key]? = none
  ok : (h.processGet req).errcode = .ok ↔ (h.self.db[req.key]?).isSome
  exists_eq_false : h.exists' req.key = false ↔ h.self.db[req.key]? = none
  version_eq_zero : h.version req.key = 0 ↔ h.self.db[req.key]? = none
  get_eq_none : h.get req.key = none ↔ h.self.db[req.key]? = none
  remove_notFound : ∀ serial,
    (h.processRemove { serial := serial, key := req.key, versionMatch := anyVersion }).1.errcode =
      .notFound ↔ h.self.db[req.key]? = none

section Presence

variable {h : Heap} {m : Store}

theorem exists'_eq_false (h : Heap) (k : Str) : h.exists' k = false ↔ h.self.db[k]? = none := by
  rw [exists', ← Std.ExtTreeMap.isSome_getElem?_eq_contains, Option.isSome_eq_false_iff,
    Option.isNone_iff_eq_none]

theorem Refines.version_eq (r : Refines h m) (k : Str) : h.version k = (m.current k).stamp := by
  rw [version, r.deref_findVvptr, Vv.version_ofStamped]

/-- A key shows version 0 exactly when it is absent. -/
theorem Refines.version_eq_zero (r : Refines h m) (k : Str) :
    h.version k = 0 ↔ h.self.db[k]? = none := by
  rw [r.version_eq, Store.stamp_current_eq_zero, r.db, Option.map_eq_none_iff]

theorem get_eq_none (h : Heap) (k : Str) : h.get k = none ↔ h.version k = 0 := by
  simp only [get, version]
  split
  · rename_i hne
    simp [hne]
  · rename_i heq
    simpa using heq

/-- A removal under any version is refused only when the key is absent. -/
theorem processRemove_any_eq_notFound (h : Heap) (serial : ℕ) (k : Str) :
    (h.processRemove { serial := serial, key := k, versionMatch := anyVersion }).1.errcode =
      .notFound ↔ h.self.db[k]? = none := by
  cases hk : h.self.db[k]? with
  | none => simp [processRemove, hk]
  | some v => simp [processRemove, hk, modOk]

/-- A `get_request` is always answered `ok`: the pointer of a lookup is never null. -/
theorem errcode_processGet (h : Heap) (req : GetRequest) : (h.processGet req).errcode = .ok := by
  have hnull : (h.findVvptr req.key).isNull = false := by
    cases h.findVvptr req.key <;> rfl
  simp [processGet, hnull]

end Presence

end Heap

/-- **When all ways of asking agree.** In every reachable state, a `get_request`, `exists`,
`version`, `get` and a `remove_request` of any version agree on whether the key of the request
exists exactly when it does. -/
theorem presence_agrees_iff (ops : List Op) (req : GetRequest) :
    (Heap.run ops).PresenceAgrees req ↔ ((Heap.run ops).self.db[req.key]?).isSome := by
  have hget := Heap.errcode_processGet (Heap.run ops) req
  constructor
  · intro h
    exact h.ok.mp hget
  · intro hpresent
    have hsome : (Heap.run ops).self.db[req.key]? ≠ none := Option.isSome_iff_ne_none.mp hpresent
    have hversion := (Heap.run_refines ops).version_eq_zero req.key
    exact {
      notFound := by simp [hget, hsome]
      ok := by simp [hget, hpresent]
      exists_eq_false := Heap.exists'_eq_false _ _
      version_eq_zero := hversion
      get_eq_none := (Heap.get_eq_none _ _).trans hversion
      remove_notFound := fun serial => Heap.processRemove_any_eq_notFound _ serial _ }

/-- **An absent key is not reported.** A `get_request` on a new database is answered `ok`. -/
theorem get_absent_answers_ok :
    ¬ ∀ (ops : List Op) (req : GetRequest), (Heap.run ops).PresenceAgrees req := by
  intro hclaim
  have habsent := (hclaim [] { serial := 0, key := ['k'] }).notFound.mpr (by decide)
  exact absurd habsent (by decide)

end Traxos
