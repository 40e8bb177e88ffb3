import Traxos.Pancy.Refinement

/-! # Versions are never reused
The consequences of the refinement for the version numbers of a `pancydb`, over runs of any length
and any mix of requests and direct calls: every modification consumes the next number, a number is
consumed once, and an entry's version identifies one write. The moment `i` of a run `ops` is the
state `Heap.run (ops.take i)`. -/

namespace Traxos

namespace Heap

variable {h : Heap} {m : Store}

/-- The next version counts the successful modifications. -/
theorem Refines.next_drive (r : Refines h m) (ops : List Op) :
    (m.drive Op.change ops).next = m.next + h.modifications ops := by
  induction ops generalizing h m with
  | nil => simp [modifications]
  | cons op ops ih =>
    rw [StampedMap.drive_cons, ih (r.perform op), StampedMap.next_apply, modifications,
      (r.modifies_consumes op).1]
    push_cast
    split <;> omega

/-- The entry that a moment shows for a key, as a stamped entry of the abstract map. -/
theorem Refines.entry_of_db (r : Refines h m) {k : Str} {v : Vv} (hv : h.self.db[k]? = some v) :
    m.entry k = some ⟨v.value, v.version⟩ := by
  rw [r.db] at hv
  obtain ⟨e, he, rfl⟩ := Option.map_eq_some_iff.mp hv
  exact he

/-- A call that modifies a key consumes a number. -/
theorem Refines.exists_consumes (r : Refines h m) {op : Op} (hop : (h.modifies op).isSome) :
    ∃ u, h.consumes op = some u := by
  obtain ⟨hmod, hcons⟩ := r.modifies_consumes op
  rw [hmod] at hop
  exact ⟨m.next, by rw [hcons, if_pos hop]⟩

/-- A later modification consumes a later number. -/
theorem consumes_lt {ops : List Op} {i j : ℕ} {op op' : Op} {u w : ℤ} (hij : i < j)
    (hop : ops[i]? = some op) (hu : (run (ops.take i)).consumes op = some u)
    (hw : (run (ops.take j)).consumes op' = some w) : u < w := by
  have hi := ((run_refines (ops.take i)).modifies_consumes op).2
  have hj := ((run_refines (ops.take j)).modifies_consumes op').2
  rw [hu] at hi
  rw [hw] at hj
  split at hi
  · rename_i ht
    split at hj
    · obtain rfl := Option.some.inj hi
      obtain rfl := Option.some.inj hj
      -- the earlier call moves the counter past its own number
      have hstep : (Store.run (ops.take (i + 1))).next = (Store.run (ops.take i)).next + 1 := by
        rw [Store.run_take_succ hop, StampedMap.next_apply, if_pos ht]
      have hmono := Store.next_run_take_le ops (by omega : i + 1 ≤ j)
      omega
    · cases hj
  · cases hi

/-- An entry shown at two moments under one version is one entry: it carries the same value, and no
call in between modified its key. -/
theorem unmodified_between {ops : List Op} {i j : ℕ} (hij : i ≤ j) {k : Str} {v w : Vv}
    (hv : (run (ops.take i)).self.db[k]? = some v) (hw : (run (ops.take j)).self.db[k]? = some w)
    (hvw : v.version = w.version) :
    v.value = w.value ∧ ∀ n op, i ≤ n → n < j → ops[n]? = some op →
      (run (ops.take n)).modifies op ≠ some k := by
  have hi := (run_refines (ops.take i)).entry_of_db hv
  have hj := (run_refines (ops.take j)).entry_of_db hw
  have hold := StampedMap.stamp_lt _ hi
  -- the version shown at `j` had been consumed at `i`, so nothing touched the key in between
  obtain ⟨hentry, huntouched⟩ := Store.entry_of_old_stamp hij hj
    (by rw [← hvw]; exact hold)
  rw [hi] at hentry
  have heq := Option.some.inj hentry
  refine ⟨congrArg Stamped.value heq, fun n op hin hnj hop => ?_⟩
  rw [((run_refines (ops.take n)).modifies_consumes op).1]
  exact huntouched n op hin hnj hop

end Heap

/-- **Versions are never reused.** In a run of fewer than `2^63 - 1` modifications from a new
database, the counter never leaves its 64-bit type; in the state reached all stored versions are
pairwise distinct and lie in `1 .. nextVersion - 1`, and `nextVersion - 1` counts the successful
modifications; no two modifications consume the same number; and a key that carries one version at
two moments carries one value at both and was not modified in between. -/
theorem versions_never_reused (ops : List Op)
    (hfew : ({} : Heap).modifications ops < 2 ^ 63 - 1) :
    (Heap.run ops).self.nextVersion ≤ 2 ^ 63 - 1 ∧
    (∀ (k k' : Str) (v v' : Vv), (Heap.run ops).self.db[k]? = some v →
      (Heap.run ops).self.db[k']? = some v' → v.version = v'.version → k = k') ∧
    (∀ (k : Str) (v : Vv), (Heap.run ops).self.db[k]? = some v →
      1 ≤ v.version ∧ v.version ≤ (Heap.run ops).self.nextVersion - 1) ∧
    (Heap.run ops).self.nextVersion - 1 = ({} : Heap).modifications ops ∧
    (∀ (i j : ℕ) (op op' : Op), i < j → ops[i]? = some op → ops[j]? = some op' →
      ((Heap.run (ops.take i)).modifies op).isSome → ((Heap.run (ops.take j)).modifies op').isSome →
      ∃ u w, (Heap.run (ops.take i)).consumes op = some u ∧
        (Heap.run (ops.take j)).consumes op' = some w ∧ u ≠ w) ∧
    (∀ (i j : ℕ) (k : Str) (v w : Vv), i ≤ j → (Heap.run (ops.take i)).self.db[k]? = some v →
      (Heap.run (ops.take j)).self.db[k]? = some w → v.version = w.version →
      v.value = w.value ∧ ∀ n op, i ≤ n → n < j → ops[n]? = some op →
        (Heap.run (ops.take n)).modifies op ≠ some k) := by
  have hrun := Heap.run_refines ops
  have hcount : (Heap.run ops).self.nextVersion - 1 = ({} : Heap).modifications ops := by
    rw [hrun.nextVersion, Store.run, Heap.refines_empty.next_drive ops, StampedMap.next_empty]
    omega
  refine ⟨by omega, ?_, ?_, hcount, ?_, ?_⟩
  · intro k k' v v' hv hv' heq
    exact StampedMap.stamp_inj _ (hrun.entry_of_db hv) (hrun.entry_of_db hv') heq
  · intro k v hv
    have hpos := StampedMap.stamp_pos _ (hrun.entry_of_db hv)
    have hlt := StampedMap.stamp_lt _ (hrun.entry_of_db hv)
    rw [hrun.nextVersion]
    exact ⟨hpos, by simp only at hlt; omega⟩
  · intro i j op op' hij hop _ hmod hmod'
    obtain ⟨u, hu⟩ := (Heap.run_refines (ops.take i)).exists_consumes hmod
    obtain ⟨w, hw⟩ := (Heap.run_refines (ops.take j)).exists_consumes hmod'
    exact ⟨u, w, hu, hw, Int.ne_of_lt (Heap.consumes_lt hij hop hu hw)⟩
  · intro i j k v w hij hv hw hvw
    exact Heap.unmodified_between hij hv hw hvw

/-- A key is put, removed and put again: the two writes carry versions 1 and 3. -/
theorem versions_never_reused_recreated :
    let ops : List Op := [.put ['k'] ['x'], .remove ['k'], .put ['k'] ['x']]
    (Heap.run ops).self.nextVersion - 1 = ({} : Heap).modifications ops ∧
      (Heap.run (ops.take 1)).self.db[['k']]? = some ⟨['x'], 1⟩ ∧
      (Heap.run ops).self.db[['k']]? = some ⟨['x'], 3⟩ :=
  ⟨(versions_never_reused [.put ['k'] ['x'], .remove ['k'], .put ['k'] ['x']]
    (by decide)).2.2.2.1, by decide, by decide⟩

end Traxos
