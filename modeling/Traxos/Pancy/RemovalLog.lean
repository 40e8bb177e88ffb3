import Traxos.Pancy.Diff
import Traxos.Pancy.UpdatePaths

/-! # The removal log is the recent past

`recent_removes_` holds the last hundred removals of a run, newest first, each with the entry that
was removed and the version that this consumed. `Heap.removals` collects all of them, from what the
calls answer; `removal_log_exact` compares the two and says what `find_recent_remove` finds. -/

namespace Traxos

/-- The key that a change deletes. -/
def Store.deletes (m : Store) : Change Str Str → Option Str
  | .delete k => if (m.entry k).isSome then some k else none
  | _ => none

namespace Heap

/-- The key that a call removes, if it succeeds in removing one. -/
def removedKey (h : Heap) : Op → Option Str
  | .request (.remove req) => if (h.processRemove req).1.errcode = .ok then some req.key else none
  | .remove key => if (h.remove key).1 then some key else none
  | _ => none

/-- The removal of `key`: its entry just before, and the version number that is consumed. -/
def removal (h : Heap) (key : Str) : RecentRemove :=
  { pair := (key, h.self.current key), removeVersion := h.self.nextVersion }

/-- The successful removals in a sequence of calls, oldest first. -/
def removals (h : Heap) : List Op → List RecentRemove
  | [] => []
  | op :: ops => ((h.removedKey op).map h.removal).toList ++ removals (h.perform op) ops

namespace Refines

variable {h : Heap} {m : Store}

theorem removal_eq (r : Refines h m) {k : Str} {e : Stamped Str} (hk : m.entry k = some e) :
    h.removal k = RecentRemove.ofRemoval ⟨k, e, m.next⟩ := by
  rw [removal, r.current_eq, Store.current_of_some hk, r.nextVersion]
  rfl

/-- Deleting a key adds its removal to the abstract ones. -/
theorem removals_delete (r : Refines h m) (k : Str) :
    (m.delete k).removals.map RecentRemove.ofRemoval =
      (if (m.entry k).isSome then [h.removal k] else []) ++
        m.removals.map RecentRemove.ofRemoval := by
  cases hk : m.entry k with
  | none =>
    rw [StampedMap.delete_of_none hk]
    rfl
  | some e =>
    rw [StampedMap.delete_of_some hk, r.removal_eq hk]
    rfl

/-- The key that a call removes is the one that its change deletes. -/
theorem removedKey_eq (r : Refines h m) (op : Op) : h.removedKey op = m.deletes (op.change m) := by
  have hguard : ∀ {P : Prop} [Decidable P] {k x : Str},
      none = m.deletes (if P then .keep else .write k x) := by
    intro P _ k x
    split <;> rfl
  cases op with
  | request req =>
    cases req with
    | get req => rfl
    | put req => exact hguard
    | cas req => exact hguard
    | remove req =>
      have hresp := congrArg RemoveResponse.toModResponse
        (Response.remove.inj (r.processRemove req).1)
      have hnotFound : ¬ Errc.notFound = Errc.ok := by decide
      have hnoMatch : ¬ Errc.noMatch = Errc.ok := by decide
      simp only [Op.change, Request.change, removedKey, hresp]
      by_cases hmm : m.mismatch req.key req.versionMatch
      · rw [if_pos hmm, if_pos hmm]
        split <;> rfl
      · rw [if_neg hmm, if_neg hmm, Store.deletes]
        cases hk : m.entry req.key with
        | none => rfl
        | some e => rfl
  | put key value => rfl
  | remove key =>
    rw [removedKey, (r.remove key).1]
    rfl

/-- A call adds the removal that it makes, if it makes one. -/
theorem removals_perform (r : Refines h m) (op : Op) :
    (m.apply (op.change m)).removals.map RecentRemove.ofRemoval =
      ((h.removedKey op).map h.removal).toList ++ m.removals.map RecentRemove.ofRemoval := by
  rw [r.removedKey_eq]
  cases op.change m with
  | keep => rfl
  | write k x => rfl
  | delete k =>
    rw [StampedMap.apply, r.removals_delete, Store.deletes]
    split <;> rfl

/-- What a call removes was present, so it had a version. -/
theorem version_removal_pos (r : Refines h m) {op : Op} {k : Str} (hk : h.removedKey op = some k) :
    0 < (h.removal k).pair.2.version := by
  rw [r.removedKey_eq] at hk
  cases hc : op.change m with
  | keep =>
    rw [hc] at hk
    cases hk
  | write a x =>
    rw [hc] at hk
    cases hk
  | delete a =>
    rw [hc, Store.deletes] at hk
    split at hk
    · rename_i hsome
      obtain rfl := Option.some.inj hk
      obtain ⟨e, he⟩ := Option.isSome_iff_exists.mp hsome
      rw [r.removal_eq he]
      exact m.stamp_pos he
    · cases hk

theorem version_pos_of_mem_removals (r : Refines h m) (ops : List Op) :
    ∀ rr ∈ h.removals ops, 0 < rr.pair.2.version := by
  induction ops generalizing h m with
  | nil => exact fun rr hrr => nomatch hrr
  | cons op ops ih =>
    intro rr hrr
    obtain hrr | hrr := List.mem_append.mp hrr
    · rw [Option.mem_toList, Option.map_eq_some_iff] at hrr
      obtain ⟨k, hk, rfl⟩ := hrr
      exact r.version_removal_pos hk
    · exact ih (r.perform op) rr hrr

/-- **The removals of a run** are those of the abstract database. -/
theorem removals_drive (r : Refines h m) (ops : List Op) :
    (m.drive Op.change ops).removals.map RecentRemove.ofRemoval =
      (h.removals ops).reverse ++ m.removals.map RecentRemove.ofRemoval := by
  induction ops generalizing h m with
  | nil => rfl
  | cons op ops ih =>
    rw [StampedMap.drive_cons, ih (r.perform op), r.removals_perform op, removals,
      List.reverse_append, List.append_assoc]
    cases h.removedKey op <;> rfl

end Refines

/-- In a log that goes back in time, the search finds the newest of the removals looked for. -/
theorem find?_eq_some_iff_newest {log : List RecentRemove} {p : RecentRemove → Bool}
    {rr : RecentRemove} (hsorted : log.Pairwise fun r s => s.removeVersion < r.removeVersion) :
    log.find? p = some rr ↔
      rr ∈ log ∧ p rr ∧ ∀ s ∈ log, p s → s.removeVersion ≤ rr.removeVersion := by
  induction log with
  | nil => simp
  | cons r log ih =>
    obtain ⟨hr, hlog⟩ := List.pairwise_cons.mp hsorted
    by_cases hp : p r
    · rw [List.find?_cons_of_pos hp, Option.some.injEq]
      constructor
      · rintro rfl
        refine ⟨List.mem_cons_self, hp, fun s hs _ => ?_⟩
        obtain rfl | hs := List.mem_cons.mp hs
        · exact Int.le_refl _
        · exact Int.le_of_lt (hr s hs)
      · rintro ⟨hmem, -, hnewest⟩
        have hle := hnewest r List.mem_cons_self hp
        obtain rfl | hmem := List.mem_cons.mp hmem
        · rfl
        · have := hr rr hmem
          omega
    · rw [List.find?_cons_of_neg hp, ih hlog]
      constructor
      · rintro ⟨hmem, hprr, hnewest⟩
        refine ⟨List.mem_cons_of_mem _ hmem, hprr, fun s hs hps => ?_⟩
        obtain rfl | hs := List.mem_cons.mp hs
        · exact absurd hps hp
        · exact hnewest s hs hps
      · rintro ⟨hmem, hprr, hnewest⟩
        obtain rfl | hmem := List.mem_cons.mp hmem
        · exact absurd hprr hp
        · exact ⟨hmem, hprr, fun s hs => hnewest s (List.mem_cons_of_mem _ hs)⟩

/-- What the log has dropped is older than what it holds. -/
theorem find?_take_eq_some_iff {log : List RecentRemove} {p : RecentRemove → Bool}
    {rr : RecentRemove} (hsorted : log.Pairwise fun r s => s.removeVersion < r.removeVersion)
    (n : ℕ) : (log.take n).find? p = some rr ↔
      rr ∈ log.take n ∧ p rr ∧ ∀ s ∈ log, p s → s.removeVersion ≤ rr.removeVersion := by
  have hsplit := hsorted
  rw [← List.take_append_drop n log] at hsplit
  obtain ⟨htake, -, hold⟩ := List.pairwise_append.mp hsplit
  rw [find?_eq_some_iff_newest htake]
  constructor
  · rintro ⟨hmem, hp, hnewest⟩
    refine ⟨hmem, hp, fun s hs hps => ?_⟩
    rw [← List.take_append_drop n log] at hs
    obtain hs | hs := List.mem_append.mp hs
    · exact hnewest s hs hps
    · exact Int.le_of_lt (hold rr hmem s hs)
  · rintro ⟨hmem, hp, hnewest⟩
    exact ⟨hmem, hp, fun s hs => hnewest s (List.mem_of_mem_take hs)⟩

theorem reverse_removals_run (ops : List Op) :
    (removals {} ops).reverse = (Store.run ops).removals.map RecentRemove.ofRemoval := by
  rw [Store.run, refines_empty.removals_drive ops, StampedMap.removals_empty, List.map_nil,
    List.append_nil]

/-- The removals of a run, newest first, consumed ever smaller versions. -/
theorem removals_run_sorted (ops : List Op) :
    (removals {} ops).reverse.Pairwise fun r s => s.removeVersion < r.removeVersion := by
  rw [reverse_removals_run, List.pairwise_map]
  exact (Store.run ops).removals_sorted

theorem recentRemoves_run (ops : List Op) :
    (run ops).self.recentRemoves = (removals {} ops).reverse.take 100 := by
  rw [reverse_removals_run, ← List.map_take]
  exact (run_refines ops).recentRemoves

/-- **What `find_recent_remove` finds**: the newest removal of the key from the version on, if it is
among the last hundred. -/
theorem findRecentRemove_run_eq_some_iff (ops : List Op) {k : Str} {minVersion : ℤ} {v : Vv} :
    (run ops).self.findRecentRemove k minVersion = some v ↔
      ∃ rr ∈ (run ops).self.recentRemoves, rr.pair = (k, v) ∧ minVersion ≤ rr.removeVersion ∧
        ∀ s ∈ removals {} ops, s.pair.1 = k → minVersion ≤ s.removeVersion →
          s.removeVersion ≤ rr.removeVersion := by
  rw [Pancydb.findRecentRemove, Option.map_eq_some_iff, recentRemoves_run]
  simp only [find?_take_eq_some_iff (removals_run_sorted ops), List.mem_reverse, Bool.and_eq_true,
    decide_eq_true_eq]
  constructor
  · rintro ⟨rr, ⟨hrr, ⟨rfl, hmin⟩, hnewest⟩, rfl⟩
    exact ⟨rr, hrr, rfl, hmin, fun s hs hk hs' => hnewest s hs ⟨hk, hs'⟩⟩
  · rintro ⟨rr, hrr, hpair, hmin, hnewest⟩
    refine ⟨rr, ⟨hrr, ⟨congrArg Prod.fst hpair, hmin⟩, fun s hs hp => ?_⟩,
      congrArg Prod.snd hpair⟩
    exact hnewest s hs hp.1 hp.2

theorem findRecentRemove_run_eq_none_iff (ops : List Op) {k : Str} {minVersion : ℤ} :
    (run ops).self.findRecentRemove k minVersion = none ↔
      ∀ rr ∈ (removals {} ops).reverse.take 100,
        ¬ (rr.pair.1 = k ∧ minVersion ≤ rr.removeVersion) := by
  rw [Pancydb.findRecentRemove, Option.map_eq_none_iff, List.find?_eq_none, recentRemoves_run]
  simp only [Bool.and_eq_true, decide_eq_true_eq]

/-- Removals are in the past. -/
theorem removeVersion_lt_of_mem_run (ops : List Op) {rr : RecentRemove}
    (hrr : rr ∈ removals {} ops) : rr.removeVersion < (run ops).self.nextVersion := by
  rw [← List.mem_reverse, reverse_removals_run] at hrr
  obtain ⟨r, hr, rfl⟩ := List.mem_map.mp hrr
  rw [(run_refines ops).nextVersion]
  exact (Store.run ops).removal_lt hr

/-- **The removal log is exactly the recent past.** -/
theorem removal_log_exact (ops : List Op) :
    let self := (run ops).self
    let removed := removals {} ops
    self.recentRemoves = removed.reverse.take (min 100 removed.length) ∧
    self.recentRemoves.length = min 100 removed.length ∧
    self.recentRemoves.Pairwise (fun r s => s.removeVersion < r.removeVersion) ∧
    (∀ rr ∈ self.recentRemoves, rr.removeVersion < self.nextVersion ∧ 0 < rr.pair.2.version) ∧
    ∀ (k : Str) (minVersion : ℤ),
      (∀ v, self.findRecentRemove k minVersion = some v ↔
        ∃ rr ∈ self.recentRemoves, rr.pair = (k, v) ∧ minVersion ≤ rr.removeVersion ∧
          ∀ s ∈ removed, s.pair.1 = k → minVersion ≤ s.removeVersion →
            s.removeVersion ≤ rr.removeVersion) ∧
      (self.findRecentRemove k minVersion = none ↔
        ∀ rr ∈ removed.reverse.take 100, ¬ (rr.pair.1 = k ∧ minVersion ≤ rr.removeVersion)) := by
  intro self removed
  have hlog : self.recentRemoves = removed.reverse.take 100 := recentRemoves_run ops
  have hsorted : removed.reverse.Pairwise fun r s => s.removeVersion < r.removeVersion :=
    removals_run_sorted ops
  have hmem : ∀ rr ∈ self.recentRemoves, rr ∈ removed := by
    intro rr hrr
    rw [hlog] at hrr
    exact List.mem_reverse.mp (List.mem_of_mem_take hrr)
  refine ⟨?_, ?_, ?_, fun rr hrr => ⟨?_, ?_⟩, fun k minVersion => ⟨fun v => ?_, ?_⟩⟩
  · rw [hlog, ← List.length_reverse, ← List.take_eq_take_min]
  · rw [hlog, List.length_take, List.length_reverse]
  · rw [hlog]
    exact hsorted.sublist (List.take_sublist _ _)
  · exact removeVersion_lt_of_mem_run ops (hmem rr hrr)
  · exact refines_empty.version_pos_of_mem_removals ops rr (hmem rr hrr)
  · exact findRecentRemove_run_eq_some_iff ops
  · exact findRecentRemove_run_eq_none_iff ops

end Heap

end Traxos
