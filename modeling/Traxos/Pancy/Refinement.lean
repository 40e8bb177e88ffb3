import Traxos.Core.OrderedWalk
import Traxos.Core.StampedMap
import Traxos.Pancy.Database

/-! # The database refines a stamped map
What a `pancydb` is for, said without pointers, bounded logs or placeholders: a `StampedMap` from
keys to values. `Request.change` is the change a request asks for and `Request.answer` its response,
both read off the stamped map; `Heap.Refines` relates the C++ state to it, with the removal log cut
to its capacity. Each `process` overload answers as the abstract map does and keeps the relation
(`Heap.Refines.processReq`), so every run of operations does (`Heap.run_refines`). -/

namespace Traxos

/-! ## Lookups in the map -/

theorem MapType.getElem?_insert (t : MapType) (k a : Str) (v : Vv) :
    (t.insert k v)[a]? = if a = k then some v else t[a]? :=
  getElem?_insert_ite t k a v

theorem MapType.getElem?_erase (t : MapType) (k a : Str) :
    (t.erase k)[a]? = if a = k then none else t[a]? := by
  rw [Std.ExtTreeMap.getElem?_erase]
  simp only [Std.LawfulEqCmp.compare_eq_iff_eq, @eq_comm _ a k]

theorem MapType.getElem?_insertIfNew {t : MapType} {k : Str} (h : t[k]? = none) (a : Str) (v : Vv) :
    (t.insertIfNew k v)[a]? = if a = k then some v else t[a]? := by
  rw [Std.ExtTreeMap.getElem?_insertIfNew]
  have hk : k ∉ t := by simpa using h
  by_cases ha : a = k
  · subst ha
    simp [hk]
  · simp [ha, Ne.symm ha]

theorem MapType.insertIfNew_of_some {t : MapType} {k : Str} {v : Vv} (h : t[k]? = some v)
    (w : Vv) : t.insertIfNew k w = t := by
  refine Std.ExtTreeMap.ext_getElem? fun {a} => ?_
  have hk : k ∈ t := Std.ExtTreeMap.mem_iff_isSome_getElem?.mpr (by simp [h])
  simp [Std.ExtTreeMap.getElem?_insertIfNew, hk]

/-! ## The abstract database -/

/-- The value and version of a stamped entry. -/
def Vv.ofStamped (e : Stamped Str) : Vv := { value := e.value, version := e.stamp }

@[simp] theorem Vv.value_ofStamped (e : Stamped Str) : (Vv.ofStamped e).value = e.value := rfl

@[simp] theorem Vv.version_ofStamped (e : Stamped Str) : (Vv.ofStamped e).version = e.stamp := rfl

/-- The log entry of an abstract deletion. -/
def RecentRemove.ofRemoval (r : Removal Str Str) : RecentRemove :=
  { pair := (r.key, Vv.ofStamped r.old), removeVersion := r.stamp }

/-- The abstract database. -/
abbrev Store : Type := StampedMap Str Str

namespace Store

/-- The value and version a key shows: empty and 0 when it is absent. -/
def current (m : Store) (k : Str) : Stamped Str := (m.entry k).getD ⟨[], 0⟩

theorem current_of_none {m : Store} {k : Str} (h : m.entry k = none) : m.current k = ⟨[], 0⟩ := by
  rw [current, h, Option.getD_none]

theorem current_of_some {m : Store} {k : Str} {e : Stamped Str} (h : m.entry k = some e) :
    m.current k = e := by
  rw [current, h, Option.getD_some]

/-- A key shows version 0 exactly when it is absent. -/
theorem stamp_current_eq_zero {m : Store} {k : Str} :
    (m.current k).stamp = 0 ↔ m.entry k = none := by
  cases h : m.entry k with
  | none => simp [current_of_none h]
  | some e =>
    have := m.stamp_pos h
    simp only [current_of_some h, reduceCtorEq, iff_false]
    omega

theorem stamp_current_nonneg (m : Store) (k : Str) : 0 ≤ (m.current k).stamp := by
  cases h : m.entry k with
  | none => simp [current_of_none h]
  | some e =>
    have := m.stamp_pos h
    simp only [current_of_some h]
    omega

/-- A `version_match` refuses the version a key shows. -/
def mismatch (m : Store) (k : Str) (versionMatch : ℤ) : Prop :=
  0 ≤ versionMatch ∧ versionMatch ≠ (m.current k).stamp

instance (m : Store) (k : Str) (v : ℤ) : Decidable (m.mismatch k v) :=
  inferInstanceAs (Decidable (_ ∧ _))

end Store

/-- The change that a request asks of the database. -/
def Request.change (m : Store) : Request → Change Str Str
  | .get _ => .keep
  | .put req => if m.mismatch req.key req.versionMatch then .keep else .write req.key req.value
  | .cas req =>
    if req.expected ≠ (m.current req.key).value ∨ m.mismatch req.key req.versionMatch then .keep
    else .write req.key req.desired
  | .remove req => if m.mismatch req.key req.versionMatch then .keep else .delete req.key

/-- The answer to a modification that was refused: it reports what the key shows. -/
def Store.noMatch (m : Store) (req : RequestBase) (k : Str) : ModResponse :=
  { toResponseBase := responseHeader req .noMatch
    actual := (m.current k).value
    previousVersion := (m.current k).stamp
    version := (m.current k).stamp }

/-- The answer to a modification that was carried out, leaving `k` at version `version`. -/
def Store.done (m : Store) (req : RequestBase) (k : Str) (version : ℤ) : ModResponse :=
  { toResponseBase := responseHeader req
    actual := []
    previousVersion := (m.current k).stamp
    version := version }

/-- The answer to the removal of an absent key. -/
def Store.notFound (req : RequestBase) : ModResponse :=
  { toResponseBase := responseHeader req .notFound
    actual := []
    previousVersion := nonexistentVersion
    version := nonexistentVersion }

/-- The response that a request gets. -/
def Request.answer (m : Store) : Request → Response
  | .get req =>
    .get { toResponseBase := responseHeader req.toRequestBase
           value := (m.current req.key).value
           version := (m.current req.key).stamp }
  | .put req =>
    .put ⟨if m.mismatch req.key req.versionMatch then m.noMatch req.toRequestBase req.key
      else m.done req.toRequestBase req.key m.next⟩
  | .cas req =>
    .cas ⟨if req.expected ≠ (m.current req.key).value ∨ m.mismatch req.key req.versionMatch then
        m.noMatch req.toRequestBase req.key
      else m.done req.toRequestBase req.key m.next⟩
  | .remove req =>
    .remove ⟨if m.entry req.key = none then Store.notFound req.toRequestBase
      else if m.mismatch req.key req.versionMatch then m.noMatch req.toRequestBase req.key
      else m.done req.toRequestBase req.key nonexistentVersion⟩

/-! ## The refinement relation -/

namespace Heap

/-- A heap holds the abstract database `m`: the placeholder is intact, the counter and the entries
agree, and the removal log is the newest part of the abstract one. -/
structure Refines (h : Heap) (m : Store) : Prop where
  nonexistentVv : h.nonexistentVv = Vv.nonexistentVv
  nextVersion : h.self.nextVersion = m.next
  db : ∀ k, h.self.db[k]? = (m.entry k).map Vv.ofStamped
  recentRemoves : h.self.recentRemoves =
    (m.removals.take Pancydb.maxRecentRemoves).map RecentRemove.ofRemoval

/-- A new database holds the empty map. -/
theorem refines_empty : Refines {} StampedMap.empty where
  nonexistentVv := rfl
  nextVersion := rfl
  db := fun k => by
    rw [StampedMap.entry_empty, Option.map_none]
    exact Pancydb.getElem?_db_empty k
  recentRemoves := rfl

namespace Refines

variable {h h' : Heap} {m : Store} {k : Str}

theorem db_of_none (r : Refines h m) (hk : m.entry k = none) : h.self.db[k]? = none := by
  rw [r.db, hk, Option.map_none]

theorem db_of_some (r : Refines h m) {e : Stamped Str} (hk : m.entry k = some e) :
    h.self.db[k]? = some (Vv.ofStamped e) := by
  rw [r.db, hk, Option.map_some]

theorem findVvptr_of_none (r : Refines h m) (hk : m.entry k = none) :
    h.findVvptr k = .nonexistent := by
  simp [findVvptr, r.db_of_none hk]

theorem findVvptr_of_some (r : Refines h m) {e : Stamped Str} (hk : m.entry k = some e) :
    h.findVvptr k = .entry k := by
  simp [findVvptr, r.db_of_some hk]

/-- Looking a key up and reading through the pointer shows the key's value and version. -/
theorem deref_findVvptr (r : Refines h m) (k : Str) :
    h.deref (h.findVvptr k) = Vv.ofStamped (m.current k) := by
  cases hk : m.entry k with
  | none =>
    rw [r.findVvptr_of_none hk, Store.current_of_none hk, deref, r.nonexistentVv]
    rfl
  | some e =>
    rw [r.findVvptr_of_some hk, Store.current_of_some hk, deref, r.db_of_some hk, Option.getD_some]

/-- A heap that differs by one written entry and one consumed version holds the written map. -/
theorem write (r : Refines h m) (x : Str) (hnv : h'.nonexistentVv = h.nonexistentVv)
    (hnext : h'.self.nextVersion = h.self.nextVersion + 1)
    (hdb : ∀ a, h'.self.db[a]? =
      if a = k then some ⟨x, h.self.nextVersion⟩ else h.self.db[a]?)
    (hrr : h'.self.recentRemoves = h.self.recentRemoves) : Refines h' (m.write k x) where
  nonexistentVv := hnv.trans r.nonexistentVv
  nextVersion := by rw [hnext, r.nextVersion, StampedMap.next_write]
  db := by
    intro a
    rw [hdb, StampedMap.entry_write, r.nextVersion]
    split
    · rfl
    · exact r.db a
  recentRemoves := hrr.trans r.recentRemoves

/-- `do_remove` of a present entry deletes it. -/
theorem doRemove (r : Refines h m) {e : Stamped Str} (hk : m.entry k = some e) :
    Refines (h.doRemove k (Vv.ofStamped e)) (m.delete k) where
  nonexistentVv := r.nonexistentVv
  nextVersion := by
    rw [StampedMap.delete_of_some hk]
    exact congrArg (· + 1) r.nextVersion
  db := by
    intro a
    rw [StampedMap.entry_delete]
    refine (MapType.getElem?_erase h.self.db k a).trans ?_
    split
    · rfl
    · exact r.db a
  recentRemoves := by
    rw [StampedMap.delete_of_some hk]
    simp only [Heap.doRemove, StampedMap.deletePresent, r.recentRemoves, r.nextVersion]
    simp only [Pancydb.maxRecentRemoves, List.take_succ_cons, List.map_cons, List.map_take,
      List.take_take]
    rfl

/-- Emplacing an absent key and consuming a version writes it. -/
theorem emplaceVvptr (r : Refines h m) (hk : m.entry k = none) (x : Str) :
    Refines (h.emplaceVvptr k x).2.incNextVersion (m.write k x) :=
  r.write x rfl rfl (fun a => MapType.getElem?_insertIfNew (r.db_of_none hk) a _) rfl

/-- Overwriting value and version of an entry and consuming a version writes it. -/
theorem overwrite (r : Refines h m) (k x : Str) :
    Refines ((h.setValue (.entry k) x).setVersion (.entry k)
      (h.setValue (.entry k) x).self.nextVersion).incNextVersion (m.write k x) := by
  refine r.write x rfl rfl (fun a => ?_) rfl
  simp only [incNextVersion, setVersion, setValue, assign, deref, MapType.getElem?_insert,
    if_true, Option.getD_some]
  split <;> rfl

/-- In a heap that holds a map with `k` just written, its entry shows the consumed version. -/
theorem version_written (r : Refines h' (m.write k x)) :
    (h'.deref (.entry k)).version = m.next := by
  rw [deref, r.db, StampedMap.entry_write_self]
  rfl

/-! ## The operations -/

theorem modNoMatch (r : Refines h m) (req : RequestBase) (k : Str) :
    h.modNoMatch req (h.findVvptr k) = m.noMatch req k := by
  simp only [Heap.modNoMatch, Store.noMatch, r.deref_findVvptr, Vv.value_ofStamped,
    Vv.version_ofStamped]

/-- Creating an absent key, as the `put` and `cas` overloads do. -/
theorem created (r : Refines h m) (hk : m.entry k = none) (req : RequestBase) (x : Str) :
    (h.emplaceVvptr k x).2.incNextVersion.modOk req nonexistentVersion (h.emplaceVvptr k x).1.1 =
      m.done req k m.next := by
  have hv := (r.emplaceVvptr hk x).version_written
  simp only [Store.done, Store.current_of_none hk, Heap.modOk, ← hv]
  rfl

/-- Overwriting a present key, as the `put` and `cas` overloads do. -/
theorem overwritten (r : Refines h m) {e : Stamped Str} (hk : m.entry k = some e)
    (req : RequestBase) (x : Str) :
    ((h.setValue (.entry k) x).setVersion (.entry k)
      (h.setValue (.entry k) x).self.nextVersion).incNextVersion.modOk req
        (h.deref (.entry k)).version (.entry k) = m.done req k m.next := by
  have hv := (r.overwrite k x).version_written
  have hd := r.deref_findVvptr k
  rw [r.findVvptr_of_some hk] at hd
  rw [Store.done, Heap.modOk, hv, hd, Vv.version_ofStamped]

theorem processGet (r : Refines h m) (req : GetRequest) :
    Response.get (h.processGet req) = (Request.get req).answer m := by
  have hnull : (h.findVvptr req.key).isNull = false := by
    cases h.findVvptr req.key <;> rfl
  simp only [Heap.processGet, hnull, r.deref_findVvptr, Request.answer]
  rfl

/-- The test that makes `put` and `cas` refuse a version. -/
theorem refuses (r : Refines h m) {k : Str} {v : ℤ} :
    (0 ≤ v ∧ v ≠ (h.deref (h.findVvptr k)).version) ↔ m.mismatch k v := by
  rw [r.deref_findVvptr]
  rfl

/-- The test that makes `put` and `cas` create a key. -/
theorem version_eq_nonexistentVersion (r : Refines h m) {k : Str} :
    (h.deref (h.findVvptr k)).version = nonexistentVersion ↔ m.entry k = none := by
  rw [r.deref_findVvptr, ← Store.stamp_current_eq_zero]
  rfl

theorem processPut (r : Refines h m) (req : PutRequest) :
    Response.put (h.processPut req).1 = (Request.put req).answer m ∧
      Refines (h.processPut req).2 (m.apply ((Request.put req).change m)) := by
  by_cases hmm : m.mismatch req.key req.versionMatch
  · -- refused: nothing changes
    simp only [Heap.processPut, Request.answer, Request.change, if_pos (r.refuses.mpr hmm),
      if_pos hmm, r.modNoMatch]
    exact ⟨trivial, r⟩
  · have href := mt r.refuses.mp hmm
    cases hk : m.entry req.key with
    | none =>
      -- absent: the key is created
      simp only [Heap.processPut, Request.answer, Request.change, if_neg href, if_neg hmm,
        if_pos (r.version_eq_nonexistentVersion.mpr hk)]
      exact ⟨congrArg _ (congrArg _ (r.created hk _ _)), r.emplaceVvptr hk req.value⟩
    | some e =>
      -- present: value and version are overwritten
      have hne : ¬ m.entry req.key = none := by simp [hk]
      simp only [Heap.processPut, Request.answer, Request.change, if_neg href, if_neg hmm,
        if_neg (mt r.version_eq_nonexistentVersion.mp hne)]
      rw [r.findVvptr_of_some hk]
      exact ⟨congrArg _ (congrArg _ (r.overwritten hk _ _)), r.overwrite req.key req.value⟩

theorem processCas (r : Refines h m) (req : CasRequest) :
    Response.cas (h.processCas req).1 = (Request.cas req).answer m ∧
      Refines (h.processCas req).2 (m.apply ((Request.cas req).change m)) := by
  -- the two tests of the source are those of the abstract map
  have hrefuses : (req.expected ≠ (h.deref (h.findVvptr req.key)).value ∨
      0 ≤ req.versionMatch ∧ req.versionMatch ≠ (h.deref (h.findVvptr req.key)).version) ↔
      (req.expected ≠ (m.current req.key).value ∨ m.mismatch req.key req.versionMatch) := by
    rw [r.refuses, r.deref_findVvptr, Vv.value_ofStamped]
  by_cases hmm : req.expected ≠ (m.current req.key).value ∨ m.mismatch req.key req.versionMatch
  · simp only [Heap.processCas, Request.answer, Request.change, if_pos (hrefuses.mpr hmm),
      if_pos hmm, r.modNoMatch]
    exact ⟨trivial, r⟩
  · have href := mt hrefuses.mp hmm
    cases hk : m.entry req.key with
    | none =>
      simp only [Heap.processCas, Request.answer, Request.change, if_neg href, if_neg hmm,
        if_pos (r.version_eq_nonexistentVersion.mpr hk)]
      exact ⟨congrArg _ (congrArg _ (r.created hk _ _)), r.emplaceVvptr hk req.desired⟩
    | some e =>
      have hne : ¬ m.entry req.key = none := by simp [hk]
      simp only [Heap.processCas, Request.answer, Request.change, if_neg href, if_neg hmm,
        if_neg (mt r.version_eq_nonexistentVersion.mp hne)]
      rw [r.findVvptr_of_some hk]
      exact ⟨congrArg _ (congrArg _ (r.overwritten hk _ _)), r.overwrite req.key req.desired⟩

theorem processRemove (r : Refines h m) (req : RemoveRequest) :
    Response.remove (h.processRemove req).1 = (Request.remove req).answer m ∧
      Refines (h.processRemove req).2 (m.apply ((Request.remove req).change m)) := by
  cases hk : m.entry req.key with
  | none =>
    -- an absent key is not found, whatever version the request asks for
    simp only [Heap.processRemove, Request.answer, Request.change, r.db_of_none hk, hk, if_true]
    refine ⟨rfl, ?_⟩
    split
    · exact r
    · rw [StampedMap.apply, StampedMap.delete_of_none hk]
      exact r
  | some e =>
    have hrefuses : (0 ≤ req.versionMatch ∧ req.versionMatch ≠ (Vv.ofStamped e).version) ↔
        m.mismatch req.key req.versionMatch := by
      rw [← r.refuses, r.deref_findVvptr, Store.current_of_some hk]
    have hne : ¬ m.entry req.key = none := by simp [hk]
    by_cases hmm : m.mismatch req.key req.versionMatch
    · simp only [Heap.processRemove, Request.answer, Request.change, r.db_of_some hk, if_neg hne,
        if_pos (hrefuses.mpr hmm), if_pos hmm, ← r.findVvptr_of_some hk, r.modNoMatch]
      exact ⟨trivial, r⟩
    · simp only [Heap.processRemove, Request.answer, Request.change, r.db_of_some hk, if_neg hne,
        if_neg (mt hrefuses.mp hmm), if_neg hmm]
      refine ⟨?_, r.doRemove hk⟩
      -- `mod_ok` reads the version of `vv::nonexistent_vv`
      rw [Heap.modOk, deref, (r.doRemove hk).nonexistentVv, Store.done, Store.current_of_some hk]
      rfl

/-- **Processing a request** answers as the abstract map does and applies the change the request
asks for. -/
theorem processReq (r : Refines h m) (req : Request) :
    (h.processReq req).1 = req.answer m ∧
      Refines (h.processReq req).2 (m.apply (req.change m)) := by
  cases req with
  | get req => exact ⟨r.processGet req, r⟩
  | put req => exact r.processPut req
  | cas req => exact r.processCas req
  | remove req => exact r.processRemove req

theorem put (r : Refines h m) (k x : Str) : Refines (h.put k x) (m.write k x) := by
  cases hk : m.entry k with
  | none =>
    -- absent: emplacing writes the entry
    have hins : (h.emplaceVvptr k x).1.2 = true := by
      simp [Heap.emplaceVvptr, r.db_of_none hk]
    simp only [Heap.put, hins]
    exact r.emplaceVvptr hk x
  | some e =>
    -- present: emplacing does nothing, and the entry is overwritten
    have hemp : h.emplaceVvptr k x = ((.entry k, false), h) := by
      simp only [Heap.emplaceVvptr, r.db_of_some hk, MapType.insertIfNew_of_some (r.db_of_some hk)]
      rfl
    simp only [Heap.put, hemp]
    exact r.overwrite k x

theorem remove (r : Refines h m) (k : Str) :
    (h.remove k).1 = (m.entry k).isSome ∧ Refines (h.remove k).2 (m.delete k) := by
  cases hk : m.entry k with
  | none =>
    rw [Heap.remove, r.db_of_none hk, StampedMap.delete_of_none hk]
    exact ⟨rfl, r⟩
  | some e =>
    rw [Heap.remove, r.db_of_some hk]
    exact ⟨rfl, r.doRemove hk⟩

end Refines

end Heap

/-! ## Runs of operations -/

/-- The change that a call asks of the database. -/
def Op.change (m : Store) : Op → Change Str Str
  | .request req => req.change m
  | .put key value => .write key value
  | .remove key => .delete key

/-- The abstract database after a sequence of calls. -/
def Store.run (ops : List Op) : Store := StampedMap.empty.drive Op.change ops

theorem Store.run_take_succ {ops : List Op} {i : ℕ} {op : Op} (hop : ops[i]? = some op) :
    Store.run (ops.take (i + 1)) =
      (Store.run (ops.take i)).apply (op.change (Store.run (ops.take i))) := by
  rw [List.take_add_one, hop]
  exact StampedMap.drive_append Op.change _ _ _

theorem Store.next_run_take_le (ops : List Op) {i j : ℕ} (hij : i ≤ j) :
    (Store.run (ops.take i)).next ≤ (Store.run (ops.take j)).next := by
  rw [Store.run, Store.run, StampedMap.drive_take_of_le Op.change _ ops hij]
  exact StampedMap.next_le_drive ..

/-- The no-reuse theorem for two moments of a run of calls. -/
theorem Store.entry_of_old_stamp {ops : List Op} {i j : ℕ} (hij : i ≤ j) {k : Str}
    {e : Stamped Str} (he : (Store.run (ops.take j)).entry k = some e)
    (hold : e.stamp < (Store.run (ops.take i)).next) :
    (Store.run (ops.take i)).entry k = some e ∧
      ∀ n op, i ≤ n → n < j → ops[n]? = some op →
        (Store.run (ops.take n)).touched (op.change (Store.run (ops.take n))) ≠ some k :=
  StampedMap.entry_of_old_stamp_between Op.change hij he hold

namespace Heap

variable {h : Heap} {m : Store}

namespace Refines

theorem perform (r : Refines h m) (op : Op) : Refines (h.perform op) (m.apply (op.change m)) := by
  cases op with
  | request req => exact (r.processReq req).2
  | put key value => exact r.put key value
  | remove key => exact (r.remove key).2

/-- The key that a call modifies, and the version it consumes, are those of its change. -/
theorem modifies_consumes (r : Refines h m) (op : Op) :
    h.modifies op = m.touched (op.change m) ∧
      h.consumes op = if (m.touched (op.change m)).isSome then some m.next else none := by
  cases op with
  | request req =>
    cases req with
    | get req => exact ⟨rfl, rfl⟩
    | put req =>
      have hresp := Response.put.inj (r.processPut req).1
      by_cases hmm : m.mismatch req.key req.versionMatch <;>
        simp [modifies, consumes, hresp, Op.change, Request.change, StampedMap.touched, hmm,
          Store.noMatch, Store.done]
    | cas req =>
      have hresp := Response.cas.inj (r.processCas req).1
      by_cases hmm : req.expected ≠ (m.current req.key).value ∨
          m.mismatch req.key req.versionMatch
      · simp [modifies, consumes, hresp, Op.change, Request.change, StampedMap.touched, if_pos hmm,
          Store.noMatch]
      · simp [modifies, consumes, hresp, Op.change, Request.change, StampedMap.touched, if_neg hmm,
          Store.done]
    | remove req =>
      have hresp := Response.remove.inj (r.processRemove req).1
      have hheap := (r.processRemove req).2
      cases hk : m.entry req.key with
      | none =>
        simp [modifies, consumes, hresp, Op.change, Request.change, hk, Store.notFound]
        split <;> simp [StampedMap.touched, hk]
      | some e =>
        by_cases hmm : m.mismatch req.key req.versionMatch
        · simp [modifies, consumes, hresp, Op.change, Request.change, StampedMap.touched, hk, hmm,
            Store.noMatch]
        · have hrr := hheap.recentRemoves
          simp only [Request.change, if_neg hmm, StampedMap.apply,
            StampedMap.delete_of_some hk, StampedMap.deletePresent] at hrr
          simp [modifies, consumes, hresp, Op.change, Request.change, StampedMap.touched, hk, hmm,
            Store.done, hrr, Pancydb.maxRecentRemoves, RecentRemove.ofRemoval]
  | put key value =>
    have hput := (r.put key value).db key
    simp [modifies, consumes, Op.change, StampedMap.touched, hput]
  | remove key =>
    obtain ⟨hok, hheap⟩ := r.remove key
    cases hk : m.entry key with
    | none => simp [modifies, consumes, Op.change, StampedMap.touched, hok, hk]
    | some e =>
      have hrr := hheap.recentRemoves
      simp only [StampedMap.delete_of_some hk, StampedMap.deletePresent] at hrr
      simp [modifies, consumes, Op.change, StampedMap.touched, hok, hk, hrr,
        Pancydb.maxRecentRemoves, RecentRemove.ofRemoval]

end Refines

theorem run_append (ops : List Op) (op : Op) : run (ops ++ [op]) = (run ops).perform op := by
  simp [run]

/-- **Every run refines the abstract run.** -/
theorem run_refines (ops : List Op) : Refines (run ops) (Store.run ops) := by
  induction ops using List.reverseRecOn with
  | nil => exact refines_empty
  | append_singleton ops op ih =>
    rw [run_append, Store.run, StampedMap.drive_append]
    exact ih.perform op

end Heap

end Traxos
