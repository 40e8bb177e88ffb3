import Mathlib.Logic.Function.Basic
import Traxos.Lockseq.Check
import Traxos.Pancy.Diff

/-! # The grammar of the checker

What `lockseq_model::check` is for: the databases whose keys form groups, each of them unlocked or
locked (`Conforms`). A group is described by its lock and by the values at its indices. When a walk
in key order has accepted a part of a group, that part determines what may come next: this module
is about the values alone (`Reading`), and `Recognition` relates it to the loop of `check`. -/

namespace Traxos

namespace Lockseq

/-! ## Well-formed databases -/

/-- The first part of a key: a `g` and a number. -/
def IsGroup (p : Str) : Prop := ∃ ds, p = 'g' :: ds ∧ ds ≠ [] ∧ ∀ c ∈ ds, c.isDigit = true

/-- The key of the lock of the group `p`. -/
def lockKey (p : Str) : Str := p ++ ['/', 'l', 'o', 'c', 'k']

/-- The key of the value of the group `p` with the digits `ds`. -/
def valueKey (p ds : Str) : Str := p ++ '/' :: 'v' :: ds

/-- The keys of the lock protocol. -/
inductive WellFormedKey : Str → Prop
  | lock {p : Str} (hp : IsGroup p) : WellFormedKey (lockKey p)
  | value {p ds : Str} (hp : IsGroup p) (hlen : ds.length = 3) (hds : ∀ c ∈ ds, c.isDigit = true) :
    WellFormedKey (valueKey p ds)

/-- The values of the group `p`, by index. -/
def groupValues (f : Str → Option Str) (p : Str) (i : ℕ) : Option Str :=
  if i < 1000 then f (valueKey p (indexDigits i)) else none

/-- The value `x` at the indices `b` to `e - 1`. -/
def run (x : Str) (b e : ℕ) (i : ℕ) : Option Str := if b ≤ i ∧ i < e then some x else none

/-- The values of a lock. -/
def LockValue (x : Str) : Prop := 4 ≤ x.length ∧ x[0]? = some 'c'

/-- A lock and values that a group may have. -/
inductive GroupConforms : Option Str → (ℕ → Option Str) → Prop
  /-- An unlocked group: no gaps, one value. -/
  | unlocked {lock : Option Str} {values : ℕ → Option Str} (hlock : lock = none ∨ lock = some [])
    (m : ℕ) (x : Str) (hvalues : ∀ n, values n = run x 0 m n) : GroupConforms lock values
  /-- A locked group: a run of the value of the lock, missing keys, a run of any one value. -/
  | locked {values : ℕ → Option Str} {x : Str} (hx : LockValue x) (i j e : ℕ) (y : Str)
    (hij : i ≤ j) (hvalues : ∀ n, values n = (run x 0 i n).or (run y j e n)) :
    GroupConforms (some x) values

/-- The databases that the checker is to accept, as functions from keys to values. -/
structure Conforms (f : Str → Option Str) : Prop where
  key : ∀ k, (f k).isSome → WellFormedKey k
  value_ne : ∀ p ds, IsGroup p → f (valueKey p ds) ≠ some []
  group : ∀ p, IsGroup p → GroupConforms (f (lockKey p)) (groupValues f p)

/-- The entries with keys up to `k`. -/
def upTo (f : Str → Option Str) (k : Str) (k' : Str) : Option Str :=
  if compare k' k = .gt then none else f k'

/-- The number in the key fits: there are at most nine characters between the first one and the
first slash. -/
def ShortGroup (k : Str) : Prop := ∀ i, k.findIdx? (· == '/') = some i → i ≤ 10

/-! ## Keys -/

section Keys

variable {p q ds es : Str}

theorem lockKey_eq (p : Str) : lockKey p = (p ++ ['/']) ++ ['l', 'o', 'c', 'k'] := by
  simp [lockKey]

theorem valueKey_eq (p ds : Str) : valueKey p ds = (p ++ ['/']) ++ 'v' :: ds := by
  simp [valueKey]

/-- A group's name has no slash. -/
theorem IsGroup.not_mem_slash (hp : IsGroup p) : '/' ∉ p := by
  obtain ⟨ds, rfl, -, hds⟩ := hp
  intro hmem
  rcases List.mem_cons.mp hmem with h | h
  · exact absurd h (by decide)
  · exact absurd (hds _ h) (by decide)

/-- The first slash splits a key. -/
theorem append_slash_inj (hp : '/' ∉ p) (hq : '/' ∉ q) {l l' : Str}
    (h : p ++ '/' :: l = q ++ '/' :: l') : p = q ∧ l = l' := by
  have hlen : p.length = q.length := by
    have hfind := findIdx?_slash_append hp l
    rw [h, findIdx?_slash_append hq] at hfind
    exact (Option.some.inj hfind).symm
  obtain ⟨rfl, hrest⟩ := List.append_inj h hlen
  exact ⟨rfl, (List.cons.inj hrest).2⟩

/-- A key is in one group only. -/
theorem group_unique (hp : '/' ∉ p) (hq : '/' ∉ q) {k : Str} (hpk : p ++ ['/'] <+: k)
    (hqk : q ++ ['/'] <+: k) : p = q := by
  obtain ⟨l, rfl⟩ := hpk
  obtain ⟨l', hl'⟩ := hqk
  have heq : p ++ '/' :: l = q ++ '/' :: l' := by simpa using hl'.symm
  exact (append_slash_inj hp hq heq).1

theorem prefix_lockKey (p : Str) : p ++ ['/'] <+: lockKey p := by
  rw [lockKey_eq]
  exact List.prefix_append _ _

theorem prefix_valueKey (p ds : Str) : p ++ ['/'] <+: valueKey p ds := by
  rw [valueKey_eq]
  exact List.prefix_append _ _

theorem lockKey_ne_valueKey (p ds : Str) : lockKey p ≠ valueKey p ds := by
  rw [lockKey_eq, valueKey_eq]
  intro h
  have hchar := (List.cons.inj (List.append_cancel_left h)).1
  exact absurd hchar (by decide)

/-- What can follow the name of a group in a key. -/
theorem wellFormedKey_append_iff (hp : IsGroup p) {l : Str} :
    WellFormedKey (p ++ ['/'] ++ l) ↔
      l = ['l', 'o', 'c', 'k'] ∨
        ∃ ds, l = 'v' :: ds ∧ ds.length = 3 ∧ ∀ c ∈ ds, c.isDigit = true := by
  constructor
  · intro h
    generalize hk : p ++ ['/'] ++ l = k at h
    cases h with
    | @lock q hq =>
      have hinj := append_slash_inj (l := l) hp.not_mem_slash hq.not_mem_slash
        (by simpa [lockKey] using hk)
      exact Or.inl hinj.2
    | @value q ds hq hlen hds =>
      have hinj := append_slash_inj (l := l) hp.not_mem_slash hq.not_mem_slash
        (by simpa [valueKey] using hk)
      exact Or.inr ⟨ds, hinj.2, hlen, hds⟩
  · rintro (rfl | ⟨ds, rfl, hlen, hds⟩)
    · rw [← lockKey_eq]
      exact .lock hp
    · rw [← valueKey_eq]
      exact .value hp hlen hds

/-- Three digits are those of the index that they spell. -/
theorem indexDigits_ofDigitChars (hlen : ds.length = 3) (hds : ∀ c ∈ ds, c.isDigit = true) :
    Nat.ofDigitChars 10 ds 0 < 1000 ∧ indexDigits (Nat.ofDigitChars 10 ds 0) = ds := by
  have hlt : Nat.ofDigitChars 10 ds 0 < 1000 := by
    have := (ofDigitChars_lt hds 0).2
    rw [hlen] at this
    exact this
  refine ⟨hlt, ?_⟩
  -- two numerals of one width with one number are equal, since neither comes first
  have hlen' : (indexDigits (Nat.ofDigitChars 10 ds 0)).length = ds.length := by
    rw [length_indexDigits hlt, hlen]
  have hvalue := ofDigitChars_indexDigits (Nat.ofDigitChars 10 ds 0)
  cases hcmp : compare (indexDigits (Nat.ofDigitChars 10 ds 0)) ds with
  | eq => exact Std.LawfulEqCmp.compare_eq_iff_eq.mp hcmp
  | lt =>
    have := ofDigitChars_lt_of_compare hlen' isDigit_of_mem_indexDigits hds hcmp 0
    omega
  | gt =>
    have := ofDigitChars_lt_of_compare hlen'.symm hds isDigit_of_mem_indexDigits
      (Std.OrientedCmp.gt_iff_lt.mp hcmp) 0
    omega

theorem valueKey_indexDigits_inj {i j : ℕ}
    (h : valueKey p (indexDigits i) = valueKey p (indexDigits j)) : i = j := by
  rw [valueKey_eq, valueKey_eq] at h
  have hdigits := (List.cons.inj (List.append_cancel_left h)).2
  rw [← ofDigitChars_indexDigits i, hdigits, ofDigitChars_indexDigits]

/-- The lock comes before the values. -/
theorem compare_lockKey (p ds : Str) : compare (lockKey p) (valueKey p ds) = .lt := by
  rw [lockKey_eq, valueKey_eq, compare_append_left]
  rfl

/-- The values come in the order of their indices. -/
theorem compare_valueKey_iff {i j : ℕ} (hi : i < 1000) (hj : j < 1000) :
    compare (valueKey p (indexDigits i)) (valueKey p (indexDigits j)) = .lt ↔ i < j := by
  have hlen : (indexDigits i).length = (indexDigits j).length := by
    rw [length_indexDigits hi, length_indexDigits hj]
  rw [valueKey_eq, valueKey_eq, compare_append_left, compare_cons_eq_lt]
  constructor
  · rintro (h | ⟨-, h⟩)
    · cases h
    · have := ofDigitChars_lt_of_compare hlen isDigit_of_mem_indexDigits
        isDigit_of_mem_indexDigits h 0
      rwa [ofDigitChars_indexDigits, ofDigitChars_indexDigits] at this
  · intro h
    refine Or.inr ⟨rfl, compare_of_ofDigitChars_lt hlen isDigit_of_mem_indexDigits
      isDigit_of_mem_indexDigits ?_⟩
    rwa [ofDigitChars_indexDigits, ofDigitChars_indexDigits]

end Keys

/-! ## Reading a group -/

/-- What a walk has read of a group, with the state that it is in then. -/
inductive Reading : Option Str → (ℕ → Option Str) → CheckState → Prop
  /-- The lock is free, and the values so far are one run. -/
  | unlocked {lock : Option Str} {values : ℕ → Option Str} {st : CheckState}
    (hlock : lock = none ∨ lock = some []) {m : ℕ} {x : Str} (hx : m ≠ 0 → x ≠ [])
    (hvalues : ∀ n, values n = run x 0 m n) (hstate : st.lockState = .unlocked)
    (hindex : st.expectedIndex = m) (hvalue : st.expectedValue = if m = 0 then [] else x) :
    Reading lock values st
  /-- The lock is taken, and the values so far are a run of its value. -/
  | lockedStart {values : ℕ → Option Str} {st : CheckState} {m : ℕ} {x : Str} (hx : LockValue x)
    (hvalues : ∀ n, values n = run x 0 m n) (hstate : st.lockState = .lockedStart)
    (hindex : st.expectedIndex = m) (hvalue : st.expectedValue = x) :
    Reading (some x) values st
  /-- The lock is taken, and the second run has begun: behind a gap or with another value. -/
  | lockedRest {values : ℕ → Option Str} {st : CheckState} {i j e : ℕ} {x y : Str}
    (hx : LockValue x) (hij : i ≤ j) (hje : j < e) (hseam : i < j ∨ y ≠ x) (hy : y ≠ [])
    (hvalues : ∀ n, values n = (run x 0 i n).or (run y j e n))
    (hstate : st.lockState = .lockedRest) (hindex : st.expectedIndex = e)
    (hvalue : st.expectedValue = y) : Reading (some x) values st

section Reading

variable {lock : Option Str} {values : ℕ → Option Str} {st : CheckState} {key x y z : Str}
  {b e i j m n : ℕ}

theorem run_eq_some {v : Str} : run x b e n = some v ↔ (b ≤ n ∧ n < e) ∧ x = v := by
  rw [run, Option.ite_none_right_eq_some, Option.some.injEq]

theorem run_eq_none : run x b e n = none ↔ ¬ (b ≤ n ∧ n < e) := by
  rw [run, ite_eq_right_iff]
  simp

theorem run_of_mem (hb : b ≤ n) (he : n < e) : run x b e n = some x := if_pos ⟨hb, he⟩

/-- What two runs have at an index. -/
theorem runs_eq_some {v : Str} : (run x 0 i n).or (run y j e n) = some v ↔
    n < i ∧ x = v ∨ i ≤ n ∧ (j ≤ n ∧ n < e) ∧ y = v := by
  rw [Option.or_eq_some_iff, run_eq_some, run_eq_some, run_eq_none]
  simp

theorem runs_eq_none : (run x 0 i n).or (run y j e n) = none ↔ i ≤ n ∧ ¬ (j ≤ n ∧ n < e) := by
  rw [Option.or_eq_none_iff, run_eq_none, run_eq_none]
  simp

/-- The value of a lock is not empty. -/
theorem LockValue.ne_nil (h : LockValue x) : x ≠ [] := by
  rintro rfl
  exact absurd h.1 (by decide)

theorem LockValue.ne_free (h : LockValue x) : ¬ (some x = none ∨ some x = some []) := by
  rintro (h' | h')
  · cases h'
  · exact h.ne_nil (Option.some.inj h')

/-- A run gets longer by its next value. -/
theorem update_run (h : b ≤ e) (t : ℕ) :
    Function.update (run x b e) e (some x) t = run x b (e + 1) t := by
  by_cases ht : t = e
  · subst ht
    rw [Function.update_self, run_of_mem h (Nat.lt_succ_self _)]
  · rw [Function.update_of_ne ht, run, run]
    have hiff : b ≤ t ∧ t < e ↔ b ≤ t ∧ t < e + 1 := by omega
    simp only [hiff]

/-- A value behind a run starts another one. -/
theorem update_run_start (h : m ≤ n) (t : ℕ) :
    Function.update (run x 0 m) n (some z) t = (run x 0 m t).or (run z n (n + 1) t) := by
  by_cases ht : t = n
  · subst ht
    have hnone : run x 0 m t = none := run_eq_none.mpr (by omega)
    rw [Function.update_self, hnone, Option.none_or,
      run_of_mem (Nat.le_refl _) (Nat.lt_succ_self _)]
  · have hnone : run z n (n + 1) t = none := run_eq_none.mpr (by omega)
    rw [Function.update_of_ne ht, hnone, Option.or_none]

/-- The second run gets longer by its next value. -/
theorem update_runs (hie : i ≤ e) (hje : j ≤ e) (t : ℕ) :
    Function.update (fun t => (run x 0 i t).or (run y j e t)) e (some y) t =
      (run x 0 i t).or (run y j (e + 1) t) := by
  by_cases ht : t = e
  · subst ht
    have hnone : run x 0 i t = none := run_eq_none.mpr (by omega)
    rw [Function.update_self, hnone, Option.none_or, run_of_mem hje (Nat.lt_succ_self _)]
  · have hrest := update_run (x := y) hje t
    rw [Function.update_of_ne ht] at hrest ⊢
    rw [hrest]

/-- What has been read is well formed. -/
theorem Reading.groupConforms (h : Reading lock values st) : GroupConforms lock values := by
  cases h with
  | @unlocked _ _ _ hlock m x _ hvalues => exact .unlocked hlock m x hvalues
  | @lockedStart _ _ m x hx hvalues =>
    refine .locked hx m m m x (Nat.le_refl _) fun n => ?_
    have hnone : run x m m n = none := run_eq_none.mpr (by omega)
    rw [hvalues, hnone, Option.or_none]
  | @lockedRest _ _ i j e x y hx hij hje hseam hy hvalues =>
    exact .locked hx i j e y hij hvalues

/-- Behind the values of an unlocked group there can only be the next one. -/
theorem next_of_unlocked (hlock : lock = none ∨ lock = some []) (hmn : m ≤ n)
    (h : GroupConforms lock (Function.update (run x 0 m) n (some z))) :
    n = m ∧ (m ≠ 0 → z = x) := by
  cases h with
  | locked hL => exact absurd hlock hL.ne_free
  | unlocked _ m' x' hvalues =>
    have hn := hvalues n
    rw [Function.update_self, eq_comm, run_eq_some] at hn
    constructor
    · by_contra hne
      have hm := hvalues m
      rw [Function.update_of_ne (Ne.symm hne), run_eq_none.mpr (by omega), eq_comm,
        run_eq_none] at hm
      omega
    · intro hpos
      have hzero := hvalues 0
      rw [Function.update_of_ne (by omega), run_of_mem (Nat.zero_le _) (by omega), eq_comm,
        run_eq_some] at hzero
      rw [← hn.2, hzero.2]

/-- Behind the second run of a locked group there can only be its next value. -/
theorem next_of_lockedRest (hx : LockValue x) (hij : i ≤ j) (hje : j < e)
    (hseam : i < j ∨ y ≠ x) (hen : e ≤ n)
    (h : GroupConforms (some x)
      (Function.update (fun t => (run x 0 i t).or (run y j e t)) n (some z))) :
    n = e ∧ z = y := by
  cases h with
  | unlocked hlock => exact absurd hlock hx.ne_free
  | locked _ i' j' e' y' hij' hvalues =>
    -- what the two runs of the group that is claimed to be well formed have below `n`
    have hbelow : ∀ t, t < n → (run x 0 i t).or (run y j e t) =
        (run x 0 i' t).or (run y' j' e' t) := by
      intro t ht
      have hat := hvalues t
      rwa [Function.update_of_ne (by omega)] at hat
    have hsecond : ∀ t, j ≤ t → t < e → (run x 0 i t).or (run y j e t) = some y := fun t hjt hte =>
      runs_eq_some.mpr (Or.inr ⟨by omega, ⟨hjt, hte⟩, rfl⟩)
    -- its first run ends before `e`, for it cannot reach over the seam
    have hi' : i' < e := by
      by_contra hle
      rcases hseam with hgap | hother
      · have hnone := hbelow i (by omega)
        rw [runs_eq_none.mpr (by omega), eq_comm, runs_eq_none] at hnone
        omega
      · have hj := hbelow j (by omega)
        rw [hsecond j (Nat.le_refl _) hje, eq_comm, runs_eq_some] at hj
        rcases hj with ⟨-, heq⟩ | ⟨hlt, -⟩
        · exact hother heq.symm
        · omega
    -- so the last value read is in its second run, and what follows is too
    have hlast := hbelow (e - 1) (by omega)
    rw [hsecond (e - 1) (by omega) (by omega), eq_comm, runs_eq_some] at hlast
    obtain ⟨-, hmem, rfl⟩ := hlast.resolve_left (by omega)
    have hn := hvalues n
    rw [Function.update_self, eq_comm, runs_eq_some] at hn
    obtain ⟨-, hmem', rfl⟩ := hn.resolve_left (by omega)
    refine ⟨?_, rfl⟩
    by_contra hne
    have hgap := hbelow e (by omega)
    rw [runs_eq_none.mpr (by omega), eq_comm, runs_eq_none] at hgap
    omega

/-- The value `z` at the index `n` is accepted exactly when the group stays well formed. -/
def NextDecided (lock : Option Str) (values : ℕ → Option Str) (st : CheckState) (key z : Str)
    (n : ℕ) : Prop :=
  (∃ st', checkRun st key z n = .ok st' ∧ st'.lastGroup = st.lastGroup ∧ st'.glen = st.glen ∧
      Reading lock (Function.update values n (some z)) st') ∨
    checkRun st key z n = .error key ∧ ¬ GroupConforms lock (Function.update values n (some z))

/-- Behind the values of an unlocked group. -/
theorem nextDecided_unlocked (hlock : lock = none ∨ lock = some []) (hx : m ≠ 0 → x ≠ [])
    (hstate : st.lockState = .unlocked) (hindex : st.expectedIndex = m)
    (hvalue : st.expectedValue = if m = 0 then [] else x) (hz : z ≠ []) (hn : n < 1000)
    (hmn : m ≤ n) : NextDecided lock (run x 0 m) st key z n := by
  by_cases hnext : n = m ∧ (m ≠ 0 → z = x)
  · obtain ⟨rfl, hzx⟩ := hnext
    -- the first value of an unlocked group may be any
    have hsame : run x 0 n = run z 0 n := by
      by_cases hzero : n = 0
      · subst hzero
        funext t
        rw [run_eq_none.mpr (by omega), run_eq_none.mpr (by omega)]
      · rw [hzx hzero]
    have hfits : st.expectedValue = [] ∨ st.expectedValue = z := by
      rw [hvalue]
      split
      · exact Or.inl rfl
      · rename_i hpos
        exact Or.inr (hzx hpos).symm
    refine Or.inl ⟨_, checkRun_next hn hindex hfits, rfl, rfl, ?_⟩
    rw [hsame]
    exact .unlocked hlock (fun _ => hz) (update_run (Nat.zero_le n)) hstate rfl
      (if_neg (Nat.succ_ne_zero n)).symm
  · right
    constructor
    · refine checkRun_error (by rw [hstate]; decide) ?_
      rw [hindex, hvalue]
      by_cases hnm : n = m
      · right
        obtain ⟨hpos, hzx⟩ : m ≠ 0 ∧ z ≠ x := by
          by_contra hnot
          exact hnext ⟨hnm, fun hpos => by_contra fun hzx => hnot ⟨hpos, hzx⟩⟩
        rw [if_neg hpos]
        exact ⟨hx hpos, hzx⟩
      · exact Or.inl hnm
    · exact fun hconforms => hnext (next_of_unlocked hlock hmn hconforms)

/-- Behind the first run of a locked group there may be any value. -/
theorem nextDecided_lockedStart (hx : LockValue x) (hstate : st.lockState = .lockedStart)
    (hindex : st.expectedIndex = m) (hvalue : st.expectedValue = x) (hz : z ≠ [])
    (hn : n < 1000) (hmn : m ≤ n) : NextDecided (some x) (run x 0 m) st key z n := by
  left
  by_cases hnm : n = m
  · subst hnm
    by_cases hzx : z = x
    · subst hzx
      exact ⟨_, checkRun_next hn hindex (Or.inr hvalue), rfl, rfl,
        .lockedStart hx (update_run (Nat.zero_le n)) hstate rfl rfl⟩
    · refine ⟨_, checkRun_other hn hstate hindex ?_, rfl, rfl,
        .lockedRest hx (Nat.le_refl n) (Nat.lt_succ_self n) (Or.inr hzx) hz
          (update_run_start (Nat.le_refl n)) rfl rfl rfl⟩
      rw [hvalue]
      exact ⟨hx.ne_nil, hzx⟩
  · have hlt : m < n := by omega
    exact ⟨_, checkRun_gap hn hstate (by omega), rfl, rfl,
      .lockedRest hx hmn (Nat.lt_succ_self n) (Or.inl hlt) hz (update_run_start hmn) rfl rfl rfl⟩

/-- Behind the second run of a locked group. -/
theorem nextDecided_lockedRest (hx : LockValue x) (hij : i ≤ j) (hje : j < e)
    (hseam : i < j ∨ y ≠ x) (hy : y ≠ []) (hstate : st.lockState = .lockedRest)
    (hindex : st.expectedIndex = e) (hvalue : st.expectedValue = y) (hn : n < 1000)
    (hen : e ≤ n) :
    NextDecided (some x) (fun t => (run x 0 i t).or (run y j e t)) st key z n := by
  by_cases hnext : n = e ∧ z = y
  · obtain ⟨rfl, rfl⟩ := hnext
    exact Or.inl ⟨_, checkRun_next hn hindex (Or.inr hvalue), rfl, rfl,
      .lockedRest hx hij (by omega) hseam hy (update_runs (by omega) (by omega)) hstate rfl rfl⟩
  · right
    constructor
    · refine checkRun_error (by rw [hstate]; decide) ?_
      rw [hindex, hvalue]
      by_cases hne : n = e
      · exact Or.inr ⟨hy, fun hzy => hnext ⟨hne, hzy⟩⟩
      · exact Or.inl hne
    · exact fun hconforms => hnext (next_of_lockedRest hx hij hje hseam hen hconforms)

/-- **The next value of a group** is decided, wherever the walk stands in it. -/
theorem Reading.next (h : Reading lock values st) (key : Str) (hz : z ≠ []) (hn : n < 1000)
    (hbelow : ∀ t, (values t).isSome → t < n) : NextDecided lock values st key z n := by
  -- the values read so far end before `n`
  have hrun : ∀ {x m}, values = run x 0 m → m ≤ n := by
    intro x m heq
    by_contra hlt
    have := hbelow (m - 1) (by rw [heq, run_of_mem (Nat.zero_le _) (by omega)]; rfl)
    omega
  cases h with
  | @unlocked _ _ _ hlock m x hx hvalues hstate hindex hvalue =>
    obtain rfl : values = run x 0 m := funext hvalues
    exact nextDecided_unlocked hlock hx hstate hindex hvalue hz hn (hrun rfl)
  | @lockedStart _ _ m x hx hvalues hstate hindex hvalue =>
    obtain rfl : values = run x 0 m := funext hvalues
    exact nextDecided_lockedStart hx hstate hindex hvalue hz hn (hrun rfl)
  | @lockedRest _ _ i j e x y hx hij hje hseam hy hvalues hstate hindex hvalue =>
    obtain rfl : values = fun t => (run x 0 i t).or (run y j e t) := funext hvalues
    have hen : e ≤ n := by
      have hlast := hbelow (e - 1) (Option.isSome_iff_exists.mpr
        ⟨y, runs_eq_some.mpr (Or.inr ⟨by omega, by omega, rfl⟩)⟩)
      omega
    exact nextDecided_lockedRest hx hij hje hseam hy hstate hindex hvalue hn hen

/-- **The lock of a group**: it is accepted exactly when its value is one of a lock. -/
theorem Reading.lockEntry (h : Reading none values st) (key : Str) (hnone : ∀ n, values n = none) :
    (∃ st', checkLock st key z = .ok st' ∧ st'.lastGroup = st.lastGroup ∧ st'.glen = st.glen ∧
        Reading (some z) values st') ∨
      checkLock st key z = .error key ∧ ¬ GroupConforms (some z) values := by
  cases h with
  | @unlocked _ _ _ _ m x _ hvalues hstate hindex hvalue =>
    -- no value has been read yet, since the lock comes first
    obtain rfl : m = 0 := by
      have hfirst := hvalues 0
      rw [hnone, eq_comm, run_eq_none] at hfirst
      omega
    have hempty : ∀ y n, values n = run y 0 0 n := fun y n => by
      rw [hnone, run_eq_none.mpr (by omega)]
    rw [checkLock, if_neg (by simp [hindex, hstate])]
    by_cases hz : z.length = 0
    · obtain rfl := List.length_eq_zero_iff.mp hz
      exact Or.inl ⟨st, if_pos hz, rfl, rfl,
        .unlocked (Or.inr rfl) (fun h => absurd rfl h) (hempty x) hstate hindex hvalue⟩
    · rw [if_neg hz]
      by_cases hlock : LockValue z
      · refine Or.inl ⟨{ st with lastLock := z, lockState := .lockedStart, expectedValue := z },
          if_neg ?_, rfl, rfl, .lockedStart hlock (hempty z) rfl hindex rfl⟩
        rintro (hlt | hne)
        · exact absurd hlock.1 (by omega)
        · exact hne hlock.2
      · refine Or.inr ⟨if_pos ?_, ?_⟩
        · by_contra hnot
          obtain ⟨hlen, hchar⟩ := not_or.mp hnot
          exact hlock ⟨by omega, not_not.mp hchar⟩
        · intro hconforms
          cases hconforms with
          | unlocked hfree =>
            exact hz (by rw [Option.some.inj (hfree.resolve_left (by simp))]; rfl)
          | locked hx => exact hlock hx

end Reading

end Lockseq

end Traxos
