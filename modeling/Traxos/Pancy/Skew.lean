import Traxos.Pancy.Diff

/-! # What the skew decides
`pancydb::diff` reads its `version_skew` in one place only, the start of the window. This file says
how the outcome depends on where the window starts, for any two reachable databases:

* **`Heap.Refines.diffNewer_exact`** — a window that starts after all versions makes `diff` an exact
  comparison, `diff_zero_exact`: every lenient branch of the loop is dead.
* **`Heap.Refines.diffNewer_mono`** — an earlier start never rejects more.
* **`diff_mono_iff`** — so a larger skew never rejects more, unless it is so large that the start
  wraps round to a version above all others. -/

namespace Traxos

/-- The first element that passes two tests is the first that passes one of them, when the other is
passed by everything in front of an element that passes it. -/
theorem find?_of_find?_and {γ : Type} {p q : γ → Bool} {l : List γ} {x : γ}
    (hl : l.Pairwise fun y z => q z = true → q y = true)
    (h : l.find? (fun y => p y && q y) = some x) : l.find? p = some x := by
  induction l with
  | nil => cases h
  | cons y l ih =>
    obtain ⟨hhead, htail⟩ := List.pairwise_cons.mp hl
    have hx : q x = true := by
      have := List.find?_some h
      exact (Bool.and_eq_true_iff.mp this).2
    have hmem := List.mem_of_find?_eq_some h
    rw [List.find?_cons] at h ⊢
    cases hp : p y with
    | false =>
      rw [hp] at h
      exact ih htail h
    | true =>
      -- `y` stands in front of `x`, so it passes the other test as well
      have hy : q y = true := by
        rcases List.mem_cons.mp hmem with rfl | hmem
        · exact hx
        · exact hhead x hmem hx
      rw [hp, hy] at h
      exact h

namespace Pancydb

/-- Up to `2^63` beyond the counter, the start of the window is the exact difference. -/
theorem minVersion_of_le (self : Pancydb) (versionSkew : ℕ) (hself : self.nextVersion < 2 ^ 63)
    (hs : versionSkew ≤ self.nextVersion + 2 ^ 63) :
    self.minVersion versionSkew = self.nextVersion - versionSkew := by
  rw [minVersion, Int.bmod_def]
  push_cast
  split <;> omega

/-- From there on it wraps round, to a version above the counter. -/
theorem lt_minVersion (self : Pancydb) (versionSkew : ℕ) (hself : 0 ≤ self.nextVersion)
    (hs : self.nextVersion + 2 ^ 63 < versionSkew) (hfits : versionSkew < 2 ^ 64) :
    self.nextVersion < self.minVersion versionSkew := by
  rw [minVersion, Int.bmod_def]
  push_cast
  split <;> omega

/-- A window that starts later is easier to log completely. -/
theorem removesComplete_mono {self : Pancydb} {n n' : ℤ} (hle : n' ≤ n)
    (h : self.removesComplete n' = true) : self.removesComplete n = true := by
  rw [removesComplete, Bool.or_eq_true] at h ⊢
  refine h.imp_right fun hlast => ?_
  obtain ⟨rr, hrr, hold⟩ := (Option.any_eq_true _ _).mp hlast
  have : rr.removeVersion ≤ n' := by simpa using hold
  exact (Option.any_eq_true _ _).mpr ⟨rr, hrr, by simpa using Int.le_trans this hle⟩

/-- Two versions that correspond under one window correspond under one that starts earlier. -/
theorem not_divergent_mono {a b : Vv} {n n' : ℤ} {complete complete' : Bool} (hle : n' ≤ n)
    (h : divergent n complete (some a) (some b) = false) :
    divergent n' complete' (some a) (some b) = false := by
  simp only [divergent, Bool.or_eq_false_iff, decide_eq_false_iff_not] at h ⊢
  obtain ⟨⟨hlt, hwindow⟩, hvalue⟩ := h
  exact ⟨⟨hlt, fun hc => hwindow ⟨hc.1, Int.lt_of_lt_of_le hc.2 hle⟩⟩, hvalue⟩

/-- A version that is not older than the window corresponds to every older one. -/
theorem not_divergent_of_le {a b : Vv} {n n' : ℤ} {complete : Bool} (ha : n ≤ a.version)
    (hb : b.version < n) (hle : n' ≤ n) : divergent n' complete (some a) (some b) = false :=
  not_divergent_of_newer (Or.inr ha) hb hle complete

/-- A version older than the window corresponds only to itself. -/
theorem divergent_of_lt {a b : Vv} {n : ℤ} (ha : a.version < n) (complete : Bool) :
    divergent n complete (some a) (some b) = decide (some a ≠ some b) := by
  have hvv : a = b ↔ a.version = b.version ∧ a.value = b.value := by
    constructor
    · rintro rfl
      exact ⟨rfl, rfl⟩
    · obtain ⟨x, v⟩ := a
      obtain ⟨y, w⟩ := b
      rintro ⟨rfl, rfl⟩
      rfl
  simp only [divergent, Option.some.injEq, ne_eq, hvv]
  by_cases hver : a.version = b.version
  · simp [hver]
  · have hor : a.version < b.version ∨ b.version < a.version := by omega
    rcases hor with hlt | hlt
    · simp [hver, hlt]
    · simp [hver, hlt, ha]

end Pancydb

namespace Heap

variable {h h' : Heap} {m m' : Store}

namespace Refines

/-! ## Logged removals -/

/-- What is found in a window is also what is found in one that starts earlier. -/
theorem findRecentRemove_mono (r : Refines h m) {k : Str} {n n' : ℤ} {v : Vv} (hle : n' ≤ n)
    (hv : h.self.findRecentRemove k n = some v) : h.self.findRecentRemove k n' = some v := by
  rw [r.findRecentRemove_eq] at hv ⊢
  obtain ⟨rm, hrm, rfl⟩ := Option.map_eq_some_iff.mp hv
  have hstamp : n ≤ rm.stamp := by
    have := List.find?_some hrm
    simp only [Bool.and_eq_true, decide_eq_true_eq] at this
    exact this.2
  -- newest first, so a removal in the window has only removals in the window in front of it
  have hsorted : (m.removals.take Pancydb.maxRecentRemoves).Pairwise
      fun y z => decide (n ≤ z.stamp) = true → decide (n ≤ y.stamp) = true := by
    refine (m.removals_sorted.sublist (List.take_sublist _ _)).imp fun {y z} hlt hz => ?_
    have hz : n ≤ z.stamp := by simpa using hz
    exact decide_eq_true (by omega)
  have hkey := find?_of_find?_and hsorted hrm
  have hwindow : decide (n' ≤ rm.stamp) = true := decide_eq_true (Int.le_trans hle hstamp)
  rw [find?_and_of_find? hkey hwindow, Option.map_some]

/-- What only an earlier start brings into the window is older than the later one. -/
theorem version_lt_of_findRecentRemove (r : Refines h m) {k : Str} {n n' : ℤ} {v : Vv}
    (hnone : h.self.findRecentRemove k n = none) (hv : h.self.findRecentRemove k n' = some v) :
    v.version < n := by
  rw [r.findRecentRemove_eq] at hnone hv
  obtain ⟨rm, hrm, rfl⟩ := Option.map_eq_some_iff.mp hv
  have hmem := List.mem_of_find?_eq_some hrm
  have htest := List.find?_eq_none.mp (Option.map_eq_none_iff.mp hnone) rm hmem
  have hkey := List.find?_some hrm
  simp only [Bool.and_eq_true, decide_eq_true_eq, not_and] at htest hkey
  have hout := htest hkey.1
  have hold := m.removal_old_lt (List.mem_of_mem_take hmem)
  rw [Vv.version_ofStamped]
  omega

/-- Nothing is logged from a window that has not begun. -/
theorem findRecentRemove_of_next_le (r : Refines h m) {n : ℤ} (hn : m.next ≤ n) (k : Str) :
    h.self.findRecentRemove k n = none := by
  rw [r.findRecentRemove_eq, Option.map_eq_none_iff, List.find?_eq_none]
  intro rm hrm
  have hlt := m.removal_lt (List.mem_of_mem_take hrm)
  have hout : ¬ n ≤ rm.stamp := by omega
  simp [hout]

/-- The log is complete for a window that has not begun. -/
theorem removesComplete_of_next_le (r : Refines h m) {n : ℤ} (hn : m.next ≤ n) :
    h.self.removesComplete n = true := by
  rw [Pancydb.removesComplete, Bool.or_eq_true]
  cases hlast : h.self.recentRemoves.getLast? with
  | none =>
    left
    rw [List.getLast?_eq_none_iff.mp hlast]
    decide
  | some rr =>
    right
    have hmem := List.mem_of_getLast? hlast
    rw [r.recentRemoves] at hmem
    obtain ⟨rm, hrm, rfl⟩ := List.mem_map.mp hmem
    have hlt := m.removal_lt (List.mem_of_mem_take hrm)
    have hold : (RecentRemove.ofRemoval rm).removeVersion ≤ n := by
      show rm.stamp ≤ n
      omega
    simpa using hold

/-- When the log is not complete for the window, all of it is from within. -/
theorem lt_of_removesComplete_eq_false (r : Refines h m) {n : ℤ}
    (hc : h.self.removesComplete n = false) :
    ∀ rm ∈ m.removals.take Pancydb.maxRecentRemoves, n < rm.stamp := by
  intro rm hrm
  rw [Pancydb.removesComplete, Bool.or_eq_false_iff, r.recentRemoves, List.getLast?_map] at hc
  obtain ⟨l, last, hsplit⟩ : ∃ l last,
      m.removals.take Pancydb.maxRecentRemoves = l ++ [last] :=
    ⟨_, _, (List.dropLast_append_getLast (List.ne_nil_of_mem hrm)).symm⟩
  have hsorted := m.removals_sorted.sublist (List.take_sublist Pancydb.maxRecentRemoves _)
  rw [hsplit] at hc hrm hsorted
  have hlast : ¬ last.stamp ≤ n := by simpa [RecentRemove.ofRemoval] using hc.2
  -- the last one is the oldest
  rcases List.mem_append.mp hrm with hrm | hrm
  · have := (List.pairwise_append.mp hsorted).2.2 rm hrm last (List.mem_singleton_self _)
    omega
  · obtain rfl := List.mem_singleton.mp hrm
    omega

/-- A key with no logged removal in a window for which the log is not complete has none at all. -/
theorem findRecentRemove_of_evicted (r : Refines h m) {k : Str} {n : ℤ}
    (hnone : h.self.findRecentRemove k n = none) (hc : h.self.removesComplete n = false) (n' : ℤ) :
    h.self.findRecentRemove k n' = none := by
  have hnew := r.lt_of_removesComplete_eq_false hc
  rw [r.findRecentRemove_eq, Option.map_eq_none_iff, List.find?_eq_none] at hnone ⊢
  intro rm hrm
  have hkey := hnone rm hrm
  have hin : n ≤ rm.stamp := Int.le_of_lt (hnew rm hrm)
  simp only [hin, decide_true, Bool.and_true, decide_eq_true_eq] at hkey
  simp [hkey]

/-! ## A window that has not begun -/

/-- **A window after all versions makes the comparison exact**: what `diff` finds is the least key
at which the two databases differ in presence, version or value. -/
theorem diffNewer_exact (ra : Refines h m) (rb : Refines h' m') (hnewer : m'.next ≤ m.next)
    {versionSkew : ℕ} (hmin : m.next ≤ h.self.minVersion versionSkew) :
    LeastDiff (fun k => h.self.db[k]?) (fun k => h'.self.db[k]?)
      (h.self.diffNewer h'.self versionSkew) := by
  refine (Pancydb.diffNewer_leastBad h.self h'.self versionSkew).congr fun k hpresent => ?_
  generalize h.self.minVersion versionSkew = n at hmin ⊢
  simp only [Pancydb.divergentAt, ra.findRecentRemove_of_next_le hmin,
    rb.findRecentRemove_of_next_le (Int.le_trans hnewer hmin), Option.or_none,
    ra.removesComplete_of_next_le hmin]
  have hold : ∀ {a}, h.self.db[k]? = some a → a.version < n := fun ha =>
    Int.lt_of_lt_of_le (m.stamp_lt (ra.entry_of_db ha)) hmin
  cases ha : h.self.db[k]? with
  | none =>
    cases hb : h'.self.db[k]? with
    | none => simp [ha, hb] at hpresent
    | some b => simp [Pancydb.divergent]
  | some a =>
    cases hb : h'.self.db[k]? with
    | none => simp [Pancydb.divergent, hold ha]
    | some b => exact Pancydb.divergent_of_lt (hold ha) true

/-! ## A window that starts earlier -/

/-- **An earlier start of the window never rejects more.** -/
theorem diffNewer_mono (ra : Refines h m) (rb : Refines h' m') {s s' : ℕ}
    (hle : h.self.minVersion s' ≤ h.self.minVersion s)
    (hdiff : h.self.diffNewer h'.self s = none) : h.self.diffNewer h'.self s' = none := by
  refine Pancydb.diffNewer_eq_none_iff.mpr fun k hpresent => ?_
  have hk := Pancydb.diffNewer_eq_none_iff.mp hdiff k hpresent
  generalize h.self.minVersion s' = n' at hle ⊢
  generalize h.self.minVersion s = n at hle hk
  cases ha : h.self.db[k]? with
  | some a =>
    rw [Pancydb.found_of_some ha] at hk ⊢
    cases hb : h'.self.db[k]? with
    | some b =>
      rw [Pancydb.found_of_some hb] at hk ⊢
      exact Pancydb.not_divergent_mono hle hk
    | none =>
      rw [Pancydb.found_of_none hb] at hk ⊢
      cases hv : h'.self.findRecentRemove k n with
      | some v =>
        rw [rb.findRecentRemove_mono hle hv]
        rw [hv] at hk
        exact Pancydb.not_divergent_mono hle hk
      | none =>
        -- the entry is from within the window, and what the earlier start brings in is older
        rw [hv] at hk
        have hin : n ≤ a.version := by simpa [Pancydb.divergent] using hk
        cases hv' : h'.self.findRecentRemove k n' with
        | none => simpa [Pancydb.divergent] using Int.le_trans hle hin
        | some v =>
          have hold := rb.version_lt_of_findRecentRemove hv hv'
          exact Pancydb.not_divergent_of_le hin hold hle
  | none =>
    rw [Pancydb.found_of_none ha] at hk ⊢
    obtain ⟨b, hb⟩ : ∃ b, h'.self.db[k]? = some b := by
      rw [ha] at hpresent
      exact Option.isSome_iff_exists.mp (hpresent.resolve_left (by simp))
    rw [Pancydb.found_of_some hb] at hk ⊢
    cases hv : h.self.findRecentRemove k n with
    | some v =>
      rw [ra.findRecentRemove_mono hle hv]
      rw [hv] at hk
      exact Pancydb.not_divergent_mono hle hk
    | none =>
      -- the log was not complete for the window, and is not for the longer one
      rw [hv] at hk
      have hc : h.self.removesComplete n = false := hk
      rw [ra.findRecentRemove_of_evicted hv hc n']
      show h.self.removesComplete n' = false
      rw [← Bool.not_eq_true]
      intro hc'
      rw [Pancydb.removesComplete_mono hle hc'] at hc
      cases hc

/-- When the larger of two skews accepts what the smaller one does: unless its window starts after
all versions. -/
theorem diffNewer_mono_iff (ra : Refines h m) (rb : Refines h' m') (hnewer : m'.next ≤ m.next)
    (hfits : m.next < 2 ^ 63) {s s' : ℕ} (hle : s ≤ s') (hs' : s' < 2 ^ 64)
    (hdiff : h.self.diffNewer h'.self s = none) :
    h.self.diffNewer h'.self s' = none ↔
      (s' ≤ m.next + 2 ^ 63 ∨ ∀ k : Str, h.self.db[k]? = h'.self.db[k]?) := by
  have hnext := ra.nextVersion
  have hone := m.one_le_next
  by_cases hwrap : s' ≤ m.next + 2 ^ 63
  · -- neither start wraps round, and the one of the larger skew is the earlier one
    have hmin := h.self.minVersion_of_le s (by omega) (by omega)
    have hmin' := h.self.minVersion_of_le s' (by omega) (by omega)
    have hearlier : h.self.minVersion s' ≤ h.self.minVersion s := by omega
    exact ⟨fun _ => Or.inl hwrap, fun _ => ra.diffNewer_mono rb hearlier hdiff⟩
  · have hlate := h.self.lt_minVersion s' (by omega) (by omega) hs'
    rw [(ra.diffNewer_exact rb hnewer (by omega)).eq_none_iff]
    exact ⟨Or.inr, fun hcases => hcases.resolve_left hwrap⟩

end Refines

theorem Refines.one_le_nextVersion (r : Refines h m) : 1 ≤ h.self.nextVersion := by
  rw [r.nextVersion]
  exact m.one_le_next

/-- Under no skew `diff` finds the least difference, in either order. -/
theorem diff_zero_leastDiff (opsA opsB : List Op) (hA : (run opsA).self.nextVersion < 2 ^ 63)
    (hB : (run opsB).self.nextVersion < 2 ^ 63) :
    LeastDiff (fun k => (run opsA).self.db[k]?) (fun k => (run opsB).self.db[k]?)
      ((run opsA).self.diff (run opsB).self 0) := by
  have ra := run_refines opsA
  have rb := run_refines opsB
  have honeA := ra.one_le_nextVersion
  have honeB := rb.one_le_nextVersion
  have hminA := Pancydb.minVersion_of_le _ 0 hA (by omega)
  have hminB := Pancydb.minVersion_of_le _ 0 hB (by omega)
  rw [ra.nextVersion] at hminA
  rw [rb.nextVersion] at hminB
  rw [Pancydb.diff, ra.nextVersion, rb.nextVersion]
  split
  · exact (rb.diffNewer_exact ra (by omega) (by omega)).symm
  · exact ra.diffNewer_exact rb (by omega) (by omega)

end Heap

/-! ## No skew -/

/-- **`diff` with no skew is exact equality.** For any two reachable databases whose counters fit
their 64-bit type, it accepts exactly the pairs with the same keys, values and versions, and
otherwise returns the least key at which they differ; and the order of the two does not matter. -/
theorem diff_zero_exact (opsA opsB : List Op) (hA : (Heap.run opsA).self.nextVersion < 2 ^ 63)
    (hB : (Heap.run opsB).self.nextVersion < 2 ^ 63) :
    ((Heap.run opsA).self.diff (Heap.run opsB).self 0 = none ↔
      ∀ k : Str, (Heap.run opsA).self.db[k]? = (Heap.run opsB).self.db[k]?) ∧
    (∀ k, (Heap.run opsA).self.diff (Heap.run opsB).self 0 = some k →
      (Heap.run opsA).self.db[k]? ≠ (Heap.run opsB).self.db[k]? ∧
      ∀ k' : Str, compare k' k = .lt →
        (Heap.run opsA).self.db[k']? = (Heap.run opsB).self.db[k']?) ∧
    (Heap.run opsB).self.diff (Heap.run opsA).self 0 =
      (Heap.run opsA).self.diff (Heap.run opsB).self 0 := by
  have hleast := Heap.diff_zero_leastDiff opsA opsB hA hB
  refine ⟨hleast.eq_none_iff, fun k hk => ?_, ?_⟩
  · rw [hk] at hleast
    exact hleast.of_some
  · exact LeastBad.unique (Heap.diff_zero_leastDiff opsB opsA hB hA) hleast.symm

/-- The same entry, but one of the databases has a second one. -/
theorem diff_zero_exact_removed :
    (Heap.run [.put ['k'] ['x'], .put ['j'] ['y']]).self.diff
        (Heap.run [.put ['k'] ['x'], .remove ['k'], .put ['k'] ['x']]).self 0 ≠ none ∧
      (Heap.run [.put ['k'] ['x'], .remove ['k'], .put ['k'] ['x']]).self.diff
        (Heap.run [.put ['k'] ['x'], .put ['j'] ['y']]).self 0 =
      (Heap.run [.put ['k'] ['x'], .put ['j'] ['y']]).self.diff
        (Heap.run [.put ['k'] ['x'], .remove ['k'], .put ['k'] ['x']]).self 0 := by
  obtain ⟨hnone, -, hsymm⟩ := diff_zero_exact [.put ['k'] ['x'], .put ['j'] ['y']]
    [.put ['k'] ['x'], .remove ['k'], .put ['k'] ['x']] (by decide) (by decide)
  exact ⟨fun h => absurd (hnone.mp h ['j']) (by decide), hsymm⟩

/-! ## Larger skews -/

/-- **When a larger skew rejects more.** Of two skews the smaller of which accepts a pair of
reachable databases, the larger one does as well unless it exceeds the newer counter by more than
`2^63` and the databases differ. -/
theorem diff_mono_iff (opsA opsB : List Op) (s s' : ℕ) (hle : s ≤ s') (hs' : s' < 2 ^ 64)
    (hA : (Heap.run opsA).self.nextVersion < 2 ^ 63)
    (hB : (Heap.run opsB).self.nextVersion < 2 ^ 63)
    (hdiff : (Heap.run opsA).self.diff (Heap.run opsB).self s = none) :
    (Heap.run opsA).self.diff (Heap.run opsB).self s' = none ↔
      (s' ≤ max (Heap.run opsA).self.nextVersion (Heap.run opsB).self.nextVersion + 2 ^ 63 ∨
        ∀ k : Str, (Heap.run opsA).self.db[k]? = (Heap.run opsB).self.db[k]?) := by
  have ra := Heap.run_refines opsA
  have rb := Heap.run_refines opsB
  rw [ra.nextVersion] at hA
  rw [rb.nextVersion] at hB
  rw [Pancydb.diff, ra.nextVersion, rb.nextVersion] at hdiff ⊢
  split at hdiff
  · rename_i hlt
    rw [if_pos hlt, rb.diffNewer_mono_iff ra (by omega) hB hle hs' hdiff,
      Int.max_eq_right (by omega)]
    simp only [eq_comm]
  · rename_i hlt
    rw [if_neg hlt, ra.diffNewer_mono_iff rb (by omega) hA hle hs' hdiff,
      Int.max_eq_left (by omega)]

/-- A database and its state one version earlier, under the skews 1 and 2. -/
theorem diff_mono_iff_lagging :
    (Heap.run [.put ['k'] ['x'], .put ['j'] ['y']]).self.diff (Heap.run [.put ['k'] ['x']]).self 2 =
      none :=
  (diff_mono_iff [.put ['k'] ['x'], .put ['j'] ['y']] [.put ['k'] ['x']] 1 2 (by decide)
    (by decide) (by decide) (by decide) diff_previous).mpr (Or.inl (by decide))

/-- **The largest skew rejects more.** Under skew 1 the database of the previous moment is accepted,
under skew `2 ^ 64 - 1` the window starts at version 4, after all versions, and it is rejected. -/
theorem diff_rejects_under_largest_skew :
    ¬ ∀ (opsA opsB : List Op) (s s' : ℕ), s ≤ s' → s' < 2 ^ 64 →
      (Heap.run opsA).self.diff (Heap.run opsB).self s = none →
      (Heap.run opsA).self.diff (Heap.run opsB).self s' = none := by
  intro hclaim
  have ha : (Heap.run [.put ['k'] ['x'], .put ['j'] ['y']]).self.db.toList =
      [(['j'], ⟨['y'], 2⟩), (['k'], ⟨['x'], 1⟩)] := by decide
  have hb : (Heap.run [.put ['k'] ['x']]).self.db.toList = [(['k'], ⟨['x'], 1⟩)] := by decide
  have hmax := hclaim [.put ['k'] ['x'], .put ['j'] ['y']] [.put ['k'] ['x']] 1 (2 ^ 64 - 1)
    (by decide) (by decide) diff_previous
  rw [Pancydb.diff, if_neg (by decide), Pancydb.diffNewer] at hmax
  simp only [ha, hb, Pancydb.diffLoop] at hmax
  exact absurd hmax (by decide)

end Traxos
