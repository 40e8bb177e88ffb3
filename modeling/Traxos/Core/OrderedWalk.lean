import Mathlib.Data.List.Basic
import Std.Data.ExtTreeMap

/-! # Walking two ordered maps side by side

Comparing two ordered maps visits the keys of both in increasing order, like the merge step of merge
sort, and stops at the first key that fails a test on the two values. `mergeWalk` is that loop on
the two lists of entries; `mergeWalk_leastBad` says what it finds: the least failing key of the two
maps, or nothing when no key fails. -/

namespace Traxos

universe u v w

variable {κ : Type u} {α : Type v} {β : Type w}

/-- The value that a list of entries has for a key. -/
def valueAt [Ord κ] (l : List (κ × α)) (k : κ) : Option α :=
  (l.find? fun p => compare p.1 k == .eq).map (·.2)

/-- The entries of a list are in strictly increasing key order. -/
def Increasing [Ord κ] (l : List (κ × α)) : Prop :=
  l.Pairwise fun p q => compare p.1 q.1 = .lt

/-- The side-by-side walk: the first key, in increasing order, whose two values fail. -/
def mergeWalk [Ord κ] (bad : κ → Option α → Option β → Bool) :
    List (κ × α) → List (κ × β) → Option κ
  | [], [] => none
  | (k, x) :: as, [] => if bad k (some x) none then some k else mergeWalk bad as []
  | [], (k, y) :: bs => if bad k none (some y) then some k else mergeWalk bad [] bs
  | (k, x) :: as, (k', y) :: bs =>
    match compare k k' with
    | .lt => if bad k (some x) none then some k else mergeWalk bad as ((k', y) :: bs)
    | .eq => if bad k (some x) (some y) then some k else mergeWalk bad as bs
    | .gt => if bad k' none (some y) then some k' else mergeWalk bad ((k, x) :: as) bs
  termination_by as bs => as.length + bs.length

/-- The least key of two partial maps that fails a test, `none` when no present key fails. -/
def LeastBad [Ord κ] (bad : κ → Option α → Option β → Bool) (f : κ → Option α) (g : κ → Option β) :
    Option κ → Prop
  | none => ∀ k, (f k).isSome ∨ (g k).isSome → bad k (f k) (g k) = false
  | some k => ((f k).isSome ∨ (g k).isSome) ∧ bad k (f k) (g k) = true ∧
      ∀ k', compare k' k = .lt → (f k').isSome ∨ (g k').isSome → bad k' (f k') (g k') = false

/-- The least key at which two partial maps differ, `none` when they do not. -/
def LeastDiff [Ord κ] [DecidableEq α] (f g : κ → Option α) (o : Option κ) : Prop :=
  LeastBad (fun _ x y => decide (x ≠ y)) f g o

variable [Ord κ]

@[simp] theorem valueAt_nil (k : κ) : valueAt ([] : List (κ × α)) k = none := rfl

theorem valueAt_cons_self [Std.ReflOrd κ] (k : κ) (x : α) (l : List (κ × α)) :
    valueAt ((k, x) :: l) k = some x := by
  simp [valueAt]

theorem valueAt_cons_of_ne [Std.LawfulEqOrd κ] {k k' : κ} (h : k' ≠ k) (x : α)
    (l : List (κ × α)) : valueAt ((k, x) :: l) k' = valueAt l k' := by
  have hne : (compare k k' == .eq) = false := by
    simpa [Std.LawfulEqCmp.compare_eq_iff_eq] using h.symm
  simp [valueAt, hne]

/-- A list in front of another one hides the values that it has itself. -/
theorem valueAt_append (l l' : List (κ × α)) (k : κ) :
    valueAt (l ++ l') k = (valueAt l k).or (valueAt l' k) := by
  rw [valueAt, valueAt, valueAt, List.find?_append]
  cases l.find? fun p => compare p.1 k == .eq <;> rfl

/-- Values that are taken from each entry in the same way are found where the entries are. -/
theorem valueAt_map (g : α → β) (l : List (κ × α)) (k : κ) :
    valueAt (l.map fun e => (e.1, g e.2)) k = (valueAt l k).map g := by
  rw [valueAt, valueAt, List.find?_map, Option.map_map, Option.map_map]
  rfl

/-- A value of a key occurs in the list. -/
theorem mem_of_valueAt [Std.LawfulEqOrd κ] {l : List (κ × α)} {k : κ} {x : α}
    (h : valueAt l k = some x) : (k, x) ∈ l := by
  obtain ⟨p, hp, rfl⟩ := Option.map_eq_some_iff.mp h
  have hk : p.1 = k := by simpa using List.find?_some hp
  rw [← hk]
  exact List.mem_of_find?_eq_some hp

/-- A key that occurs in the list has a value. -/
theorem exists_valueAt_of_mem [Std.ReflOrd κ] {l : List (κ × α)} {k : κ} {x : α}
    (h : (k, x) ∈ l) : ∃ y, valueAt l k = some y := by
  have hfind : (l.find? fun p => compare p.1 k == .eq).isSome :=
    List.find?_isSome.mpr ⟨(k, x), h, by simp⟩
  obtain ⟨p, hp⟩ := Option.isSome_iff_exists.mp hfind
  exact ⟨p.2, by rw [valueAt, hp, Option.map_some]⟩

theorem compare_self_ne_lt [Std.TransOrd κ] (k : κ) : compare k k ≠ .lt := by
  simp

/-- Below the head of an increasing list there is no value. -/
theorem not_lt_of_valueAt [Std.TransOrd κ] [Std.LawfulEqOrd κ] {k k' : κ} {x : α}
    {l : List (κ × α)} (hs : Increasing ((k, x) :: l)) (h : (valueAt ((k, x) :: l) k').isSome) :
    compare k' k ≠ .lt := by
  intro hlt
  obtain ⟨y, hy⟩ := Option.isSome_iff_exists.mp h
  rcases List.mem_cons.mp (mem_of_valueAt hy) with heq | hp
  · cases heq
    exact compare_self_ne_lt _ hlt
  · exact compare_self_ne_lt _ (Std.TransCmp.lt_trans hlt ((List.pairwise_cons.mp hs).1 _ hp))

/-- Values of the tail of an increasing list lie above its head. -/
theorem lt_of_valueAt_tail [Std.LawfulEqOrd κ] {k k' : κ} {x : α} {l : List (κ × α)}
    (hs : Increasing ((k, x) :: l)) (h : (valueAt l k').isSome) : compare k k' = .lt := by
  obtain ⟨y, hy⟩ := Option.isSome_iff_exists.mp h
  exact (List.pairwise_cons.mp hs).1 _ (mem_of_valueAt hy)

/-- A key below the head of an increasing list has no value in it. -/
theorem valueAt_eq_none_of_lt [Std.TransOrd κ] [Std.LawfulEqOrd κ] {k k' : κ} {x : α}
    {l : List (κ × α)} (hs : Increasing ((k, x) :: l)) (hlt : compare k' k = .lt) :
    valueAt ((k, x) :: l) k' = none := by
  by_contra h
  exact not_lt_of_valueAt hs (Option.isSome_iff_ne_none.mpr h) hlt

/-- Every value of an increasing list lies above a key below its head. -/
theorem lt_of_lt_of_valueAt [Std.TransOrd κ] [Std.LawfulEqOrd κ] {k k' j : κ} {x : α}
    {l : List (κ × α)} (hs : Increasing ((k, x) :: l)) (hlt : compare k' k = .lt)
    (h : (valueAt ((k, x) :: l) j).isSome) : compare k' j = .lt := by
  by_cases hj : j = k
  · rw [hj]; exact hlt
  · rw [valueAt_cons_of_ne hj] at h
    exact Std.TransCmp.lt_trans hlt (lt_of_valueAt_tail hs h)

/-- Behind the leading entries with smaller keys there are no more of these. -/
theorem Increasing.not_lt_of_mem_dropWhile [Std.TransOrd κ] {k : κ} {l : List (κ × α)}
    (hl : Increasing l) :
    ∀ e ∈ l.dropWhile fun e => compare e.1 k == .lt, compare e.1 k ≠ .lt := by
  induction l with
  | nil => simp
  | cons p l ih =>
    obtain ⟨hp, hl⟩ := List.pairwise_cons.mp hl
    by_cases hlt : compare p.1 k = .lt
    · rw [List.dropWhile_cons_of_pos (by simpa using hlt)]
      exact ih hl
    · rw [List.dropWhile_cons_of_neg (by simpa using hlt)]
      intro e he hek
      rcases List.mem_cons.mp he with rfl | he
      · exact hlt hek
      · exact hlt (Std.TransCmp.lt_trans (hp e he) hek)

/-- Behind the first entry whose key is not smaller, all keys are larger. -/
theorem Increasing.lt_of_mem_drop_dropWhile [Std.TransOrd κ] {k : κ} {l : List (κ × α)}
    (hl : Increasing l) {n : ℕ} (hn : 0 < n) :
    ∀ e ∈ (l.dropWhile fun e => compare e.1 k == .lt).drop n, compare k e.1 = .lt := by
  obtain ⟨n, rfl⟩ := Nat.exists_eq_succ_of_ne_zero (Nat.ne_of_gt hn)
  intro e he
  have hnot := hl.not_lt_of_mem_dropWhile (k := k)
  have hsorted := hl.sublist (List.dropWhile_sublist fun e => compare e.1 k == .lt)
  cases hd : l.dropWhile fun e => compare e.1 k == .lt with
  | nil => rw [hd] at he; cases he
  | cons p l' =>
    rw [hd] at he hnot hsorted
    have hp : (compare k p.1).isLE :=
      Std.OrientedCmp.isLE_of_isGE (Ordering.isGE_iff_ne_lt.mpr (hnot p List.mem_cons_self))
    have he' : e ∈ l' := List.mem_of_mem_drop he
    exact Std.TransCmp.lt_of_isLE_of_lt hp ((List.pairwise_cons.mp hsorted).1 e he')

/-- A map after an insertion. -/
theorem getElem?_insert_ite [Std.TransOrd κ] [Std.LawfulEqOrd κ] [DecidableEq κ]
    (t : Std.ExtTreeMap κ α) (k a : κ) (x : α) :
    (t.insert k x)[a]? = if a = k then some x else t[a]? := by
  rw [Std.ExtTreeMap.getElem?_insert]
  simp only [Std.LawfulEqCmp.compare_eq_iff_eq, @eq_comm _ a k]

section LeastBad

variable {bad : κ → Option α → Option β → Bool} {f f' : κ → Option α} {g g' : κ → Option β}

/-- Only what the test says of present keys matters. -/
theorem LeastBad.congr {bad' : κ → Option α → Option β → Bool} {o : Option κ}
    (h : LeastBad bad f g o)
    (heq : ∀ k, (f k).isSome ∨ (g k).isSome → bad k (f k) (g k) = bad' k (f k) (g k)) :
    LeastBad bad' f g o := by
  cases o with
  | none => exact fun k hpresent => (heq k hpresent).symm.trans (h k hpresent)
  | some k =>
    obtain ⟨hpresent, hbad, hleast⟩ := h
    refine ⟨hpresent, (heq k hpresent).symm.trans hbad, fun k' hlt hpresent' => ?_⟩
    exact (heq k' hpresent').symm.trans (hleast k' hlt hpresent')

/-- The two maps may change places together with the arguments of the test. -/
theorem LeastBad.swap {o : Option κ} (h : LeastBad bad f g o) :
    LeastBad (fun k y x => bad k x y) g f o := by
  cases o with
  | none => exact fun k hpresent => h k hpresent.symm
  | some k => exact ⟨h.1.symm, h.2.1, fun k' hlt hpresent => h.2.2 k' hlt hpresent.symm⟩

/-- There is only one least failing key. -/
theorem LeastBad.unique [Std.TransOrd κ] [Std.LawfulEqOrd κ] {o o' : Option κ}
    (h : LeastBad bad f g o) (h' : LeastBad bad f g o') : o = o' := by
  have hnone : ∀ {k}, LeastBad bad f g none → ¬ LeastBad bad f g (some k) := fun hn hs =>
    absurd ((hn _ hs.1).symm.trans hs.2.1) (by decide)
  -- neither of two least failing keys is below the other
  have hnot : ∀ {k k'}, LeastBad bad f g (some k) → LeastBad bad f g (some k') →
      compare k' k ≠ .lt := fun hk hk' hlt =>
    absurd ((hk.2.2 _ hlt hk'.1).symm.trans hk'.2.1) (by decide)
  cases o with
  | none =>
    cases o' with
    | none => rfl
    | some k' => exact absurd h' (hnone h)
  | some k =>
    cases o' with
    | none => exact absurd h (hnone h')
    | some k' =>
      cases hcmp : compare k k' with
      | lt => exact absurd hcmp (hnot h' h)
      | eq => rw [Std.LawfulEqCmp.compare_eq_iff_eq.mp hcmp]
      | gt => exact absurd (Std.OrientedCmp.gt_iff_lt.mp hcmp) (hnot h h')

/-- A failing key below which there is none is the least failing key. -/
theorem LeastBad.head {k : κ} (hk : (f k).isSome ∨ (g k).isSome) (hbad : bad k (f k) (g k) = true)
    (hleast : ∀ k', (f k').isSome ∨ (g k').isSome → compare k' k ≠ .lt) :
    LeastBad bad f g (some k) :=
  ⟨hk, hbad, fun k' hlt hpresent => absurd hlt (hleast k' hpresent)⟩

section LeastDiff

variable [DecidableEq α] {f g : κ → Option α} {o : Option κ}

omit [Ord κ] [DecidableEq α] in
/-- Two maps agree at a key that neither has. -/
theorem eq_of_not_present {k : κ} (h : ¬ ((f k).isSome ∨ (g k).isSome)) : f k = g k := by
  obtain ⟨hf, hg⟩ := not_or.mp h
  rw [Option.not_isSome_iff_eq_none.mp hf, Option.not_isSome_iff_eq_none.mp hg]

/-- Two maps have no least difference exactly when they are equal. -/
theorem LeastDiff.eq_none_iff (h : LeastDiff f g o) : o = none ↔ ∀ k, f k = g k := by
  cases o with
  | none =>
    refine ⟨fun _ k => ?_, fun _ => rfl⟩
    by_cases hpresent : (f k).isSome ∨ (g k).isSome
    · simpa using h k hpresent
    · exact eq_of_not_present hpresent
  | some k =>
    have hne : f k ≠ g k := by simpa using h.2.1
    exact ⟨fun hnone => (Option.some_ne_none k hnone).elim, fun hall => absurd (hall k) hne⟩

/-- Two maps differ at their least difference, and below it they agree. -/
theorem LeastDiff.of_some {k : κ} (h : LeastDiff f g (some k)) :
    f k ≠ g k ∧ ∀ k', compare k' k = .lt → f k' = g k' := by
  refine ⟨by simpa using h.2.1, fun k' hlt => ?_⟩
  by_cases hpresent : (f k').isSome ∨ (g k').isSome
  · simpa using h.2.2 k' hlt hpresent
  · exact eq_of_not_present hpresent

theorem LeastDiff.symm (h : LeastDiff f g o) : LeastDiff g f o :=
  h.swap.congr fun k _ => by simp [eq_comm]

end LeastDiff

variable [Std.TransOrd κ] [Std.LawfulEqOrd κ]

omit [Std.LawfulEqOrd κ] in
/-- A least key that passes can be left out. -/
theorem LeastBad.tail {k : κ} {o : Option κ} (h : LeastBad bad f' g' o)
    (hgood : bad k (f k) (g k) = false) (hf : ∀ k', k' ≠ k → f k' = f' k')
    (hg : ∀ k', k' ≠ k → g k' = g' k')
    (hrest : ∀ k', (f' k').isSome ∨ (g' k').isSome → compare k k' = .lt) :
    LeastBad bad f g o := by
  -- a key other than `k` shows the same two values either way
  have hother : ∀ k', k' ≠ k → ((f k').isSome ∨ (g k').isSome →
      ((f' k').isSome ∨ (g' k').isSome → bad k' (f' k') (g' k') = false) →
      bad k' (f k') (g k') = false) := fun k' hne hpresent himp => by
    rw [hf k' hne, hg k' hne] at hpresent ⊢
    exact himp hpresent
  cases o with
  | none =>
    intro k' hpresent
    by_cases hk : k' = k
    · rw [hk]; exact hgood
    · exact hother k' hk hpresent (h k')
  | some k₀ =>
    obtain ⟨hpresent, hbad, hleast⟩ := h
    -- the key found lies above `k`, so it is another one
    have hne : k₀ ≠ k := by
      rintro rfl
      exact compare_self_ne_lt k₀ (hrest k₀ hpresent)
    refine ⟨by rw [hf k₀ hne, hg k₀ hne]; exact hpresent,
      by rw [hf k₀ hne, hg k₀ hne]; exact hbad, fun k' hlt hpresent' => ?_⟩
    by_cases hk : k' = k
    · rw [hk]; exact hgood
    · exact hother k' hk hpresent' (hleast k' hlt)

/-- **The walk finds the least failing key** of two increasing lists. -/
theorem mergeWalk_leastBad (bad : κ → Option α → Option β → Bool) (as : List (κ × α))
    (bs : List (κ × β)) (ha : Increasing as) (hb : Increasing bs) :
    LeastBad bad (valueAt as) (valueAt bs) (mergeWalk bad as bs) := by
  -- Along the recursion of the walk. The cases come in pairs, for a key only on the left (2, 3, 6,
  -- 7), only on the right (4, 5, 10, 11) and on both sides (8, 9): in the first of a pair the walk
  -- stops at the key (`LeastBad.head`), in the second it leaves it behind (`LeastBad.tail`).
  fun_induction mergeWalk bad as bs with
  | case1 => simp [LeastBad]
  | case2 k x as hbad =>
    have hself := valueAt_cons_self k x as
    refine .head (by simp [hself]) (by rw [hself]; exact hbad) fun k' h => ?_
    exact not_lt_of_valueAt ha (by simpa using h)
  | case3 k x as hgood ih =>
    have hself := valueAt_cons_self k x as
    refine (ih ha.of_cons hb).tail (by rw [hself]; simpa using hgood)
      (fun k' hne => valueAt_cons_of_ne hne x as) (fun k' _ => rfl) fun k' h => ?_
    exact lt_of_valueAt_tail ha (by simpa using h)
  | case4 k y bs hbad =>
    have hself := valueAt_cons_self k y bs
    refine .head (by simp [hself]) (by rw [hself]; exact hbad) fun k' h => ?_
    exact not_lt_of_valueAt hb (by simpa using h)
  | case5 k y bs hgood ih =>
    have hself := valueAt_cons_self k y bs
    refine (ih ha hb.of_cons).tail (by rw [hself]; simpa using hgood) (fun k' _ => rfl)
      (fun k' hne => valueAt_cons_of_ne hne y bs) fun k' h => ?_
    exact lt_of_valueAt_tail hb (by simpa using h)
  | case6 k x as k' y bs hlt hbad =>
    have hself := valueAt_cons_self k x as
    have hother : valueAt ((k', y) :: bs) k = none := valueAt_eq_none_of_lt hb hlt
    refine .head (by simp [hself]) (by rw [hself, hother]; exact hbad) ?_
    rintro j (h | h) hj
    · exact not_lt_of_valueAt ha h hj
    · exact not_lt_of_valueAt hb h (Std.TransCmp.lt_trans hj hlt)
  | case7 k x as k' y bs hlt hgood ih =>
    have hself := valueAt_cons_self k x as
    have hother : valueAt ((k', y) :: bs) k = none := valueAt_eq_none_of_lt hb hlt
    refine (ih ha.of_cons hb).tail (by rw [hself, hother]; simpa using hgood)
      (fun j hne => valueAt_cons_of_ne hne x as) (fun j _ => rfl) ?_
    rintro j (h | h)
    · exact lt_of_valueAt_tail ha h
    · exact lt_of_lt_of_valueAt hb hlt h
  | case8 k x as k' y bs heq hbad =>
    obtain rfl : k = k' := by simpa using heq
    have hself := valueAt_cons_self k x as
    have hself' := valueAt_cons_self k y bs
    refine .head (by simp [hself]) (by rw [hself, hself']; exact hbad) ?_
    rintro j (h | h)
    · exact not_lt_of_valueAt ha h
    · exact not_lt_of_valueAt hb h
  | case9 k x as k' y bs heq hgood ih =>
    obtain rfl : k = k' := by simpa using heq
    have hself := valueAt_cons_self k x as
    have hself' := valueAt_cons_self k y bs
    refine (ih ha.of_cons hb.of_cons).tail (by rw [hself, hself']; simpa using hgood)
      (fun j hne => valueAt_cons_of_ne hne x as) (fun j hne => valueAt_cons_of_ne hne y bs) ?_
    rintro j (h | h)
    · exact lt_of_valueAt_tail ha h
    · exact lt_of_valueAt_tail hb h
  | case10 k x as k' y bs hgt hbad =>
    have hlt : compare k' k = .lt := Std.OrientedCmp.gt_iff_lt.mp hgt
    have hself := valueAt_cons_self k' y bs
    have hother : valueAt ((k, x) :: as) k' = none := valueAt_eq_none_of_lt ha hlt
    refine .head (by simp [hself]) (by rw [hself, hother]; exact hbad) ?_
    rintro j (h | h) hj
    · exact not_lt_of_valueAt ha h (Std.TransCmp.lt_trans hj hlt)
    · exact not_lt_of_valueAt hb h hj
  | case11 k x as k' y bs hgt hgood ih =>
    have hlt : compare k' k = .lt := Std.OrientedCmp.gt_iff_lt.mp hgt
    have hself := valueAt_cons_self k' y bs
    have hother : valueAt ((k, x) :: as) k' = none := valueAt_eq_none_of_lt ha hlt
    refine (ih ha hb.of_cons).tail (by rw [hself, hother]; simpa using hgood)
      (fun j _ => rfl) (fun j hne => valueAt_cons_of_ne hne y bs) ?_
    rintro j (h | h)
    · exact lt_of_lt_of_valueAt ha hlt h
    · exact lt_of_valueAt_tail hb h

end LeastBad

end Traxos
