import Mathlib.Algebra.Order.Ring.Int
import Traxos.Core.OrderedWalk
import Traxos.Pancy.Versions

/-! # Comparing two databases

`pancydb::diff` walks two databases side by side and reports the first key at which they differ by
more than a version skew explains. A key that one of them lacks is looked up in that database's
bounded removal log.

* **`Pancydb.diffLoop`** — the loop, over what is left of the two iterations;
  `diffLoop_eq_mergeWalk` makes it an instance of the ordered walk, and `diffNewer_leastBad` says
  what it finds.
* **`diff_accepts_lagging`** — a database is never told apart from an earlier state of itself.
* **`diff_detects_old_divergence_iff`** — when an accepted pair agrees on all entries older than the
  window: unless the other database removed one of them within the window. -/

namespace Traxos

namespace Pancydb

/-- `find_recent_remove`: the newest logged removal of `key` that consumed `minVersion` or a later
version. -/
def findRecentRemove (self : Pancydb) (key : Str) (minVersion : ℤ) : Option Vv :=
  (self.recentRemoves.find? fun rr =>
    decide (rr.pair.1 = key) && decide (minVersion ≤ rr.removeVersion)).map (·.pair.2)

/-- `next_version_ - version_skew`: the subtraction is one of `size_t`, converted back to the signed
`version_type`. -/
def minVersion (self : Pancydb) (versionSkew : ℕ) : ℤ :=
  (self.nextVersion - versionSkew).bmod (2 ^ 64)

/-- `a_removes_complete`: the log has not reached capacity, or its oldest entry predates the
window. -/
def removesComplete (self : Pancydb) (minVersion : ℤ) : Bool :=
  decide (self.recentRemoves.length < maxRecentRemoves) ||
    self.recentRemoves.getLast?.any fun rr => decide (rr.removeVersion ≤ minVersion)

/-- The test of the loop of `diff` at one key: whether the two versions found there do not
correspond. -/
def divergent (minVersion : ℤ) (aRemovesComplete : Bool) (avvp bvvp : Option Vv) : Bool :=
  match avvp, bvvp with
  -- key missing from `db`, but maybe added within version_skew: OK
  | some a, none => decide (a.version < minVersion)
  -- key missing from `*this`, but maybe evicted remove: OK
  | none, _ => aRemovesComplete
  | some a, some b =>
    decide (a.version < b.version) ||
      decide (b.version < a.version ∧ a.version < minVersion) ||
      decide (a.version = b.version ∧ a.value ≠ b.value)

/-- The loop of `diff`, on the entries that the two iterators have not passed. -/
def diffLoop (self db : Pancydb) (minVersion : ℤ) (aRemovesComplete : Bool) :
    List (Str × Vv) → List (Str × Vv) → Option Str
  | [], [] => none
  | (ka, a) :: ait, [] =>
    if divergent minVersion aRemovesComplete (some a) (db.findRecentRemove ka minVersion) then
      some ka
    else diffLoop self db minVersion aRemovesComplete ait []
  | [], (kb, b) :: bit =>
    if divergent minVersion aRemovesComplete (self.findRecentRemove kb minVersion) (some b) then
      some kb
    else diffLoop self db minVersion aRemovesComplete [] bit
  | (ka, a) :: ait, (kb, b) :: bit =>
    match compare ka kb with
    | .lt =>
      if divergent minVersion aRemovesComplete (some a) (db.findRecentRemove ka minVersion) then
        some ka
      else diffLoop self db minVersion aRemovesComplete ait ((kb, b) :: bit)
    | .eq =>
      if divergent minVersion aRemovesComplete (some a) (some b) then some ka
      else diffLoop self db minVersion aRemovesComplete ait bit
    | .gt =>
      if divergent minVersion aRemovesComplete (self.findRecentRemove kb minVersion) (some b) then
        some kb
      else diffLoop self db minVersion aRemovesComplete ((ka, a) :: ait) bit
  termination_by ait bit => ait.length + bit.length

/-- `diff` once `self` is known to be the newer database. -/
def diffNewer (self db : Pancydb) (versionSkew : ℕ) : Option Str :=
  let minVersion := self.minVersion versionSkew
  let aRemovesComplete := self.removesComplete minVersion
  diffLoop self db minVersion aRemovesComplete self.db.toList db.db.toList

/-- `diff`: the call with exchanged roles is made at most once. -/
def diff (self db : Pancydb) (versionSkew : ℕ) : Option Str :=
  if self.nextVersion < db.nextVersion then db.diffNewer self versionSkew
  else self.diffNewer db versionSkew

/-- The window never starts later than the exact difference says. -/
theorem minVersion_le (self : Pancydb) (versionSkew : ℕ) (hself : 1 ≤ self.nextVersion)
    (hs : versionSkew < 2 ^ 63) :
    self.minVersion versionSkew ≤ self.nextVersion - versionSkew := by
  rw [minVersion, Int.bmod_def]
  push_cast
  split <;> omega

/-- The window starts where the exact difference says, as long as that is a version number. -/
theorem minVersion_eq (self : Pancydb) (versionSkew : ℕ)
    (hlow : 0 ≤ self.nextVersion - versionSkew) (hhigh : self.nextVersion - versionSkew < 2 ^ 63) :
    self.minVersion versionSkew = self.nextVersion - versionSkew := by
  rw [minVersion, Int.bmod_def]
  push_cast
  split <;> omega

/-! ## What the loop finds -/

/-- What `diff` finds for a key on one side: its entry, or else its logged removal. -/
def found (self : Pancydb) (minVersion : ℤ) (key : Str) : Option Vv :=
  (self.db[key]?).or (self.findRecentRemove key minVersion)

theorem found_of_some {self : Pancydb} {key : Str} {v : Vv} (h : self.db[key]? = some v)
    (minVersion : ℤ) : self.found minVersion key = some v := by
  rw [found, h, Option.some_or]

theorem found_of_none {self : Pancydb} {key : Str} (h : self.db[key]? = none) (minVersion : ℤ) :
    self.found minVersion key = self.findRecentRemove key minVersion := by
  rw [found, h, Option.none_or]

/-- The entries of a map, in iteration order, are increasing. -/
theorem increasing_toList (t : MapType) : Increasing t.toList :=
  Std.ExtTreeMap.ordered_keys_toList

/-- Searching the entries of a map is looking a key up. -/
theorem valueAt_toList (t : MapType) (k : Str) : valueAt t.toList k = t[k]? := by
  have hmem : ∀ v, t[k]? = some v ↔ (k, v) ∈ t.toList := fun v =>
    Std.ExtTreeMap.mem_toList_iff_getElem?_eq_some.symm
  cases h : valueAt t.toList k with
  | some v => exact ((hmem v).mpr (mem_of_valueAt h)).symm
  | none =>
    cases hk : t[k]? with
    | none => rfl
    | some v =>
      obtain ⟨w, hw⟩ := exists_valueAt_of_mem ((hmem v).mp hk)
      rw [h] at hw
      cases hw

/-- The test at a key with entries `a` and `b`: what is absent is looked up in the removal logs. -/
def divergentAt (self db : Pancydb) (minVersion : ℤ) (aRemovesComplete : Bool) (key : Str)
    (a b : Option Vv) : Bool :=
  divergent minVersion aRemovesComplete (a.or (self.findRecentRemove key minVersion))
    (b.or (db.findRecentRemove key minVersion))

/-- **The loop is the ordered walk** with that test. -/
theorem diffLoop_eq_mergeWalk (self db : Pancydb) (minVersion : ℤ) (complete : Bool)
    (ait bit : List (Str × Vv)) :
    self.diffLoop db minVersion complete ait bit =
      mergeWalk (self.divergentAt db minVersion complete) ait bit := by
  -- the two recursions have the same cases; a present entry hides the removal log of its side
  fun_induction diffLoop self db minVersion complete ait bit <;>
    simp_all [mergeWalk, divergentAt]

/-- **What `diff` reports**: the least key, among those present on either side, at which what the
two databases have does not correspond. -/
theorem diffNewer_leastBad (self db : Pancydb) (versionSkew : ℕ) :
    LeastBad (self.divergentAt db (self.minVersion versionSkew)
        (self.removesComplete (self.minVersion versionSkew)))
      (fun k => self.db[k]?) (fun k => db.db[k]?) (self.diffNewer db versionSkew) := by
  have h := mergeWalk_leastBad (self.divergentAt db (self.minVersion versionSkew)
    (self.removesComplete (self.minVersion versionSkew)))
    self.db.toList db.db.toList (increasing_toList _) (increasing_toList _)
  rwa [← diffLoop_eq_mergeWalk, funext (valueAt_toList self.db),
    funext (valueAt_toList db.db)] at h

/-- `diff` accepts a pair exactly when no present key is divergent. -/
theorem diffNewer_eq_none_iff {self db : Pancydb} {versionSkew : ℕ} :
    self.diffNewer db versionSkew = none ↔
      ∀ k, (self.db[k]?).isSome ∨ (db.db[k]?).isSome →
        divergent (self.minVersion versionSkew)
          (self.removesComplete (self.minVersion versionSkew))
          (self.found (self.minVersion versionSkew) k)
          (db.found (self.minVersion versionSkew) k) = false := by
  have h := diffNewer_leastBad self db versionSkew
  constructor
  · intro hnone
    rw [hnone] at h
    exact h
  · intro hall
    cases hk : self.diffNewer db versionSkew with
    | none => rfl
    | some k =>
      rw [hk] at h
      obtain ⟨hpresent, hbad, -⟩ := h
      have hgood := hall k hpresent
      exact absurd (hbad.symm.trans hgood) (by decide)

/-- The same value and version on both sides correspond, and so does a version on the newer side
that no state before the window's start can have had. -/
theorem not_divergent_of_newer {a b : Vv} {minVersion n : ℤ} (h : a = b ∨ n ≤ a.version)
    (hb : b.version < n) (hmin : minVersion ≤ n) (complete : Bool) :
    divergent minVersion complete (some a) (some b) = false := by
  rcases h with rfl | hn
  · simp [divergent]
  · have hab : b.version < a.version := by omega
    have hold : ¬ a.version < minVersion := by omega
    have hne : a.version ≠ b.version := by omega
    simp [divergent, hold, hne, Int.le_of_lt hab]

/-- Versions that correspond, when the newer side's is older than the window, are the same version
with the same value. -/
theorem eq_of_not_divergent {a b : Vv} {minVersion : ℤ} {complete : Bool}
    (h : divergent minVersion complete (some a) (some b) = false) (hold : a.version < minVersion) :
    b.version = a.version ∧ b.value = a.value := by
  obtain ⟨⟨hle, hge⟩, hvalue⟩ : (b.version ≤ a.version ∧ (b.version < a.version →
      minVersion ≤ a.version)) ∧ (a.version = b.version → a.value = b.value) := by
    simpa [divergent] using h
  have heq : b.version = a.version := by
    by_contra hne
    have := hge (by omega)
    omega
  exact ⟨heq, (hvalue heq.symm).symm⟩

/-- What `find_recent_remove` finds is logged, for that key and within the window. -/
theorem exists_of_findRecentRemove {self : Pancydb} {key : Str} {minVersion : ℤ} {v : Vv}
    (h : self.findRecentRemove key minVersion = some v) :
    ∃ rr ∈ self.recentRemoves, rr.pair.1 = key ∧ minVersion ≤ rr.removeVersion := by
  obtain ⟨rr, hrr, -⟩ := Option.map_eq_some_iff.mp h
  have htest := List.find?_some hrr
  simp only [Bool.and_eq_true, decide_eq_true_eq] at htest
  exact ⟨rr, List.mem_of_find?_eq_some hrr, htest⟩

/-- Databases with the same entries are accepted, whatever they removed before. -/
theorem diffNewer_of_db_eq {self db : Pancydb} (h : ∀ k : Str, self.db[k]? = db.db[k]?)
    (versionSkew : ℕ) : self.diffNewer db versionSkew = none := by
  refine diffNewer_eq_none_iff.mpr fun k hpresent => ?_
  have hsome : (self.db[k]?).isSome := by
    rw [← h k] at hpresent
    exact hpresent.elim id id
  obtain ⟨v, hv⟩ := Option.isSome_iff_exists.mp hsome
  rw [found_of_some hv, found_of_some ((h k).symm.trans hv)]
  simp [divergent]

end Pancydb

/-! ## The removal log -/

/-- The first element that passes a test is also the first that passes a stronger one it passes. -/
theorem find?_and_of_find? {γ : Type} {p q : γ → Bool} {l : List γ} {x : γ}
    (h : l.find? p = some x) (hq : q x = true) : l.find? (fun y => p y && q y) = some x := by
  induction l with
  | nil => cases h
  | cons y l ih =>
    rw [List.find?_cons] at h ⊢
    cases hp : p y with
    | true =>
      rw [hp] at h
      obtain rfl := Option.some.inj h
      simp [hq]
    | false =>
      rw [hp] at h
      simpa using ih h

namespace Heap

variable {h h' : Heap} {m : Store}

namespace Refines

/-- The log's lookup is a search among the newest abstract deletions. -/
theorem findRecentRemove_eq (r : Refines h m) (k : Str) (minVersion : ℤ) :
    h.self.findRecentRemove k minVersion =
      ((m.removals.take Pancydb.maxRecentRemoves).find? fun rm =>
        decide (rm.key = k) && decide (minVersion ≤ rm.stamp)).map (Vv.ofStamped ·.old) := by
  rw [Pancydb.findRecentRemove, r.recentRemoves, List.find?_map, Option.map_map]
  rfl

/-- A logged removal was of an entry older than the database. -/
theorem version_of_findRecentRemove (r : Refines h m) {k : Str} {minVersion : ℤ} {v : Vv}
    (hv : h.self.findRecentRemove k minVersion = some v) : v.version < m.next := by
  rw [r.findRecentRemove_eq] at hv
  obtain ⟨rm, hrm, rfl⟩ := Option.map_eq_some_iff.mp hv
  have hmem := List.mem_of_mem_take (List.mem_of_find?_eq_some hrm)
  have hold := m.removal_old_lt hmem
  have hlt := m.removal_lt hmem
  rw [Vv.version_ofStamped]
  omega

/-- The newest deletion of a key, when it is not older than the window, is found in the log, or the
log is known not to be complete for the window. -/
theorem findRecentRemove_or_evicted (r : Refines h m) {k : Str} {rm : Removal Str Str}
    (hlast : m.lastRemoval k = some rm) {minVersion : ℤ} (hmin : minVersion ≤ rm.stamp) :
    h.self.findRecentRemove k minVersion = some (Vv.ofStamped rm.old) ∨
      h.self.findRecentRemove k minVersion = none ∧ h.self.removesComplete minVersion = false := by
  rw [r.findRecentRemove_eq]
  rcases StampedMap.find_take_or_evicted m.removals_sorted hlast Pancydb.maxRecentRemoves with
    hfound | ⟨hnone, hfull, hnewer⟩
  · left
    rw [find?_and_of_find? hfound (by simpa using hmin), Option.map_some]
  · right
    constructor
    · rw [Option.map_eq_none_iff, List.find?_eq_none]
      intro rm' hrm'
      have := List.find?_eq_none.mp hnone rm' hrm'
      simp_all
    · -- every entry still logged is newer than the evicted one, so the oldest does not predate
      -- the window
      rw [Pancydb.removesComplete, r.recentRemoves, List.length_map, hfull]
      have hlog : ∀ rr ∈ (m.removals.take Pancydb.maxRecentRemoves).map RecentRemove.ofRemoval,
          ¬ rr.removeVersion ≤ minVersion := by
        rintro rr hrr
        obtain ⟨rm', hrm', rfl⟩ := List.mem_map.mp hrr
        have := hnewer rm' hrm'
        show ¬ rm'.stamp ≤ minVersion
        omega
      simp only [lt_irrefl, decide_false, Bool.false_or]
      cases hlast : ((m.removals.take Pancydb.maxRecentRemoves).map
          RecentRemove.ofRemoval).getLast? with
      | none => rfl
      | some rr => simpa using hlog rr (List.mem_of_getLast? hlast)

/-- **A lagging database is accepted**: nothing that happens to the newer one after the window
opens makes a key divergent. -/
theorem diffNewer_lagging (rb : Refines h m) {ops : List Op}
    (ra : Refines h' (m.drive Op.change ops)) {versionSkew : ℕ}
    (hmin : h'.self.minVersion versionSkew ≤ m.next) :
    h'.self.diffNewer h.self versionSkew = none := by
  refine Pancydb.diffNewer_eq_none_iff.mpr fun k hpresent => ?_
  generalize h'.self.minVersion versionSkew = minVersion at hmin ⊢
  cases hk : m.entry k with
  | some e =>
    have he := m.stamp_lt hk
    rw [Pancydb.found_of_some (rb.db_of_some hk)]
    -- the older database has the key; in the newer one it is present, or it was removed after the
    -- window had opened
    rcases StampedMap.lagging_entry Op.change hk ops with ⟨hpres, hnew⟩ | ⟨habs, hlast, hr, hold⟩
    · rw [Pancydb.found_of_some (ra.db_of_some hpres)]
      exact Pancydb.not_divergent_of_newer (hnew.imp_left (congrArg Vv.ofStamped)) he hmin _
    · rw [Pancydb.found_of_none (ra.db_of_none habs)]
      rcases ra.findRecentRemove_or_evicted hlast (Int.le_trans hmin hr) with
        hfound | ⟨hnone, hcomplete⟩
      · rw [hfound]
        exact Pancydb.not_divergent_of_newer (hold.imp_left (congrArg Vv.ofStamped)) he hmin _
      · rw [hnone]
        exact hcomplete
  | none =>
    -- the older database lacks the key: the entry of the newer one is from within the window
    rw [Pancydb.found_of_none (rb.db_of_none hk)]
    obtain ⟨a, ha⟩ : ∃ a, h'.self.db[k]? = some a := by
      rw [rb.db_of_none hk] at hpresent
      exact Option.isSome_iff_exists.mp (hpresent.resolve_right (by simp))
    have hnew : m.next ≤ a.version :=
      StampedMap.absent_entry Op.change hk (ra.entry_of_db ha)
    rw [Pancydb.found_of_some ha]
    cases hb : h.self.findRecentRemove k minVersion with
    | none =>
      have hold : ¬ a.version < minVersion := by omega
      simp [Pancydb.divergent, hold]
    | some b =>
      exact Pancydb.not_divergent_of_newer (Or.inr hnew) (rb.version_of_findRecentRemove hb) hmin _

end Refines

/-- A run is the continuation of each of its prefixes. -/
theorem run_refines_drive (ops : List Op) (i : ℕ) :
    Refines (run ops) ((Store.run (ops.take i)).drive Op.change (ops.drop i)) := by
  have hsplit : (Store.run (ops.take i)).drive Op.change (ops.drop i) = Store.run ops := by
    rw [Store.run, ← StampedMap.drive_append, List.take_append_drop, Store.run]
  rw [hsplit]
  exact run_refines ops

end Heap

/-! ## Lagging databases -/

/-- **`diff` accepts every lagging replica.** A database and the state it had after a prefix of its
run are accepted under every skew that covers their version difference, in both orders, whatever
the remaining calls were. -/
theorem diff_accepts_lagging (ops : List Op) (i : ℕ) (versionSkew : ℕ)
    (hfits : versionSkew ≤ 2 ^ 63 - 1)
    (hskew : (Heap.run ops).self.nextVersion - (Heap.run (ops.take i)).self.nextVersion ≤
      versionSkew) :
    (Heap.run ops).self.diff (Heap.run (ops.take i)).self versionSkew = none ∧
      (Heap.run (ops.take i)).self.diff (Heap.run ops).self versionSkew = none := by
  have rb := Heap.run_refines (ops.take i)
  have ra := Heap.run_refines_drive ops i
  have hmono := StampedMap.next_le_drive Op.change (Store.run (ops.take i)) (ops.drop i)
  have hone := StampedMap.one_le_next ((Store.run (ops.take i)).drive Op.change (ops.drop i))
  rw [← ra.nextVersion] at hmono hone
  rw [← rb.nextVersion] at hmono
  have hmin := Pancydb.minVersion_le _ versionSkew hone (by omega)
  have hlagging : (Heap.run ops).self.diffNewer (Heap.run (ops.take i)).self versionSkew = none :=
    rb.diffNewer_lagging ra (by rw [← rb.nextVersion]; omega)
  have hnewer : ¬ (Heap.run ops).self.nextVersion < (Heap.run (ops.take i)).self.nextVersion := by
    omega
  constructor
  · rw [Pancydb.diff, if_neg hnewer]
    exact hlagging
  · rw [Pancydb.diff]
    split
    · exact hlagging
    · -- nothing was modified since the prefix, so the two databases have the same entries
      have hsame : (Store.run (ops.take i)).drive Op.change (ops.drop i) =
          Store.run (ops.take i) := by
        refine StampedMap.drive_of_next_eq Op.change ?_
        rw [← ra.nextVersion, ← rb.nextVersion]
        omega
      refine Pancydb.diffNewer_of_db_eq (fun k => ?_) versionSkew
      rw [ra.db, rb.db, hsame]

/-- A key is written, removed, written and removed again after the prefix. -/
theorem diff_accepts_lagging_recreated :
    let ops : List Op :=
      [.put ['k'] ['x'], .remove ['k'], .put ['k'] ['y'], .remove ['k'], .put ['j'] ['z']]
    (Heap.run ops).self.diff (Heap.run (ops.take 1)).self 4 = none ∧
      (Heap.run (ops.take 1)).self.diff (Heap.run ops).self 4 = none :=
  diff_accepts_lagging
    [.put ['k'] ['x'], .remove ['k'], .put ['k'] ['y'], .remove ['k'], .put ['j'] ['z']] 1 4
    (by decide) (by decide)

/-! ## Divergence older than the window -/

/-- **When `diff` misses no divergence older than the window.** For an accepted pair, the entries of
the newer database from before the window are all in the other one, with the same version and
value, exactly when none of them is a key that the other database lacks and whose removal within
the window it still has in its log. -/
theorem diff_detects_old_divergence_iff (opsA opsB : List Op) (versionSkew : ℕ)
    (hfew : ({} : Heap).modifications opsA < 2 ^ 63 - 1)
    (hnewer : (Heap.run opsB).self.nextVersion ≤ (Heap.run opsA).self.nextVersion)
    (hskew : versionSkew < (Heap.run opsA).self.nextVersion)
    (hdiff : (Heap.run opsA).self.diff (Heap.run opsB).self versionSkew = none) :
    (∀ (k : Str) (a : Vv), (Heap.run opsA).self.db[k]? = some a →
      a.version < (Heap.run opsA).self.nextVersion - versionSkew →
      ∃ b, (Heap.run opsB).self.db[k]? = some b ∧ b.version = a.version ∧ b.value = a.value) ↔
    (∀ rr ∈ (Heap.run opsB).self.recentRemoves,
      (Heap.run opsA).self.nextVersion - versionSkew ≤ rr.removeVersion →
      ∀ a, (Heap.run opsA).self.db[rr.pair.1]? = some a →
        a.version < (Heap.run opsA).self.nextVersion - versionSkew →
        ((Heap.run opsB).self.db[rr.pair.1]?).isSome) := by
  have hcount : (Heap.run opsA).self.nextVersion = 1 + ({} : Heap).modifications opsA := by
    rw [(Heap.run_refines opsA).nextVersion, Store.run, Heap.refines_empty.next_drive opsA,
      StampedMap.next_empty]
  have hmin := Pancydb.minVersion_eq (Heap.run opsA).self versionSkew
    (by omega) (by omega)
  rw [Pancydb.diff, if_neg (by omega)] at hdiff
  have hall := Pancydb.diffNewer_eq_none_iff.mp hdiff
  rw [hmin] at hall
  constructor
  · intro hold rr _ _ a ha hlt
    obtain ⟨b, hb, -⟩ := hold rr.pair.1 a ha hlt
    rw [hb]
    rfl
  · intro hremoved k a ha hlt
    have hk := hall k (Or.inl (by rw [ha]; rfl))
    rw [Pancydb.found_of_some ha] at hk
    cases hb : (Heap.run opsB).self.db[k]? with
    | some b =>
      rw [Pancydb.found_of_some hb] at hk
      refine ⟨b, rfl, ?_⟩
      exact Pancydb.eq_of_not_divergent hk hlt
    | none =>
      rw [Pancydb.found_of_none hb] at hk
      cases hr : (Heap.run opsB).self.findRecentRemove k
          ((Heap.run opsA).self.nextVersion - versionSkew) with
      | none =>
        -- a missing entry that no logged removal stands for is divergent
        rw [hr] at hk
        exact absurd hlt (by simpa [Pancydb.divergent] using hk)
      | some v =>
        -- a logged removal within the window stands for it: what the condition excludes
        obtain ⟨rr, hrr, hkey, hwindow⟩ := Pancydb.exists_of_findRecentRemove hr
        have hpresent := hremoved rr hrr hwindow a (by rw [hkey]; exact ha) hlt
        rw [hkey, hb] at hpresent
        cases hpresent

/-- A database accepts its state before the last modification under skew 1. -/
theorem diff_previous : (Heap.run [.put ['k'] ['x'], .put ['j'] ['y']]).self.diff
    (Heap.run [.put ['k'] ['x']]).self 1 = none := by
  have ha : (Heap.run [.put ['k'] ['x'], .put ['j'] ['y']]).self.db.toList =
      [(['j'], ⟨['y'], 2⟩), (['k'], ⟨['x'], 1⟩)] := by decide
  have hb : (Heap.run [.put ['k'] ['x']]).self.db.toList = [(['k'], ⟨['x'], 1⟩)] := by decide
  rw [Pancydb.diff, if_neg (by decide), Pancydb.diffNewer]
  simp only [ha, hb, Pancydb.diffLoop]
  decide

/-- An accepted pair whose databases differ in nothing but versions within the window. -/
theorem diff_detects_old_divergence_iff_lagging :
    ∃ b, (Heap.run [.put ['k'] ['x']]).self.db[['k']]? = some b ∧ b.version = 1 ∧
      b.value = ['x'] :=
  (diff_detects_old_divergence_iff [.put ['k'] ['x'], .put ['j'] ['y']] [.put ['k'] ['x']] 1
    (by decide) (by decide) (by decide) diff_previous).mpr
    (by decide) ['k'] ⟨['x'], 1⟩ (by decide) (by decide)

/-- **`diff` misses a removal within the window.** The newer database writes `k` and then `j`, the
other one writes `k` and removes it again; under skew 1 the window starts at version 2, and the
entry of `k` with version 1 is compared with the logged removal as if it were still there. -/
theorem diff_misses_recent_removal :
    ¬ ∀ (opsA opsB : List Op) (versionSkew : ℕ),
      (Heap.run opsB).self.nextVersion ≤ (Heap.run opsA).self.nextVersion →
      versionSkew < (Heap.run opsA).self.nextVersion →
      (Heap.run opsA).self.diff (Heap.run opsB).self versionSkew = none →
      ∀ (k : Str) (a : Vv), (Heap.run opsA).self.db[k]? = some a →
        a.version < (Heap.run opsA).self.nextVersion - versionSkew →
        ∃ b, (Heap.run opsB).self.db[k]? = some b ∧ b.version = a.version ∧ b.value = a.value := by
  intro hclaim
  have hdiff : (Heap.run [.put ['k'] ['x'], .put ['j'] ['y']]).self.diff
      (Heap.run [.put ['k'] ['x'], .remove ['k']]).self 1 = none := by
    have ha : (Heap.run [.put ['k'] ['x'], .put ['j'] ['y']]).self.db.toList =
        [(['j'], ⟨['y'], 2⟩), (['k'], ⟨['x'], 1⟩)] := by decide
    have hb : (Heap.run [.put ['k'] ['x'], .remove ['k']]).self.db.toList = [] := by decide
    rw [Pancydb.diff, if_neg (by decide), Pancydb.diffNewer]
    simp only [ha, hb, Pancydb.diffLoop]
    decide
  obtain ⟨b, hb, -⟩ := hclaim [.put ['k'] ['x'], .put ['j'] ['y']]
    [.put ['k'] ['x'], .remove ['k']] 1 (by decide) (by decide) hdiff ['k'] ⟨['x'], 1⟩ (by decide)
    (by decide)
  have habsent : (Heap.run [.put ['k'] ['x'], .remove ['k']]).self.db[['k']]? = none := by decide
  rw [habsent] at hb
  cases hb

end Traxos
