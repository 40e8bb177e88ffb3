import Traxos.Lockseq.Recognition

/-! # Keys as clients build them and the checker reads them

`check` reads a key in two parts: `enterGroup` finds the group and its number, and what follows the
slash is the lock or an index (`readKey`, `checkEntry_eq_readKey`). From the keys that clients build
it reads what they were built from, whatever the loop has passed before; and in the order of the
database the keys of a group follow each other as the single pass of the checker needs them
(`key_builders_agree`). -/

namespace Traxos

namespace Lockseq

/-! ## Reading a key -/

/-- What follows the group in a key. -/
inductive KeyReading
  | lock
  | value (vindex : ℕ)
  deriving DecidableEq, Repr

/-- What `check` reads of a key, before it looks at the value. -/
def readKey (st : CheckState) (key : Str) : Except Str (CheckState × KeyReading) := do
  let st ← enterGroup st key
  if key.length = st.glen + 4 ∧ ['l', 'o', 'c', 'k'].isSuffixOf key then .ok (st, .lock)
  else
    let vindex := parseDigits key (st.glen + 1) (st.glen + 4)
    if key.length ≠ st.glen + 4 ∨ key[st.glen]? ≠ some 'v' ∨ vindex = unsignedMinusOne then
      .error key
    else .ok (st, .value vindex)

/-- What `check` does with a key that it has read. -/
def checkReading (key value : Str) : CheckState × KeyReading → Except Str CheckState
  | (st, .lock) => checkLock st key value
  | (st, .value vindex) => if value.isEmpty then .error key else checkRun st key value vindex

/-- The loop of `check` is reading the key and checking what was read. -/
theorem checkEntry_eq_readKey (st : CheckState) (key value : Str) :
    checkEntry st key value = readKey st key >>= checkReading key value := by
  rw [checkEntry, readKey]
  cases enterGroup st key with
  | error k => rfl
  | ok st =>
    simp only [bind, Except.bind]
    by_cases hlock : key.length = st.glen + 4 ∧ ['l', 'o', 'c', 'k'].isSuffixOf key = true
    · rw [if_pos hlock, if_pos hlock]
      rfl
    · rw [if_neg hlock, if_neg hlock]
      by_cases hform : key.length ≠ st.glen + 4 ∨ key[st.glen]? ≠ some 'v' ∨
          parseDigits key (st.glen + 1) (st.glen + 4) = unsignedMinusOne
      · rw [if_pos hform, if_pos]
        obtain h | h | h := hform
        · exact Or.inl h
        · exact Or.inr (Or.inl h)
        · exact Or.inr (Or.inr (Or.inl h))
      · rw [if_neg hform]
        simp only [checkReading]
        by_cases hempty : value.isEmpty = true
        · rw [if_pos (Or.inr (Or.inr (Or.inr hempty))), if_pos hempty]
        · rw [if_neg hempty, if_neg]
          · rfl
          · rintro (h | h | h | h)
            · exact hform (Or.inl h)
            · exact hform (Or.inr (Or.inl h))
            · exact hform (Or.inr (Or.inr h))
            · exact hempty h

/-! ## Where the loop stands -/

/-- The loop has entered no group yet, or one whose name ends with the only slash in it. -/
def CheckState.Standing (st : CheckState) : Prop :=
  st.lastGroup = [] ∨ ∃ p, '/' ∉ p ∧ st.lastGroup = p ++ ['/'] ∧ st.glen = (p ++ ['/']).length

section Standing

variable {st st' : CheckState} {key value : Str} {gid vid : ℕ}

/-- A check that succeeds goes on behind one that does. -/
theorem exists_of_bind_eq_ok {ε α β : Type} {x : Except ε α} {f : α → Except ε β} {b : β}
    (h : x >>= f = .ok b) : ∃ a, x = .ok a ∧ f a = .ok b := by
  cases x with
  | error e => cases h
  | ok a => exact ⟨a, rfl, h⟩

theorem CheckState.Standing.of_eq (h : st.Standing) (hgroup : st'.lastGroup = st.lastGroup)
    (hglen : st'.glen = st.glen) : st'.Standing := by
  rw [CheckState.Standing, hgroup, hglen]
  exact h

/-- The check for a new group. -/
theorem standing_enterGroup (h : st.Standing) (hok : enterGroup st key = .ok st') :
    st'.Standing := by
  rw [enterGroup] at hok
  split at hok
  · split at hok
    · cases hok
    · split at hok
      · cases hok
      · rename_i slash hslash
        split at hok
        · cases hok
        · obtain ⟨p, l, rfl, hp, hnot⟩ := exists_append_of_findIdx? hslash
          obtain rfl := Except.ok.inj hok
          have htake : (p ++ '/' :: l).take (slash + 1) = p ++ ['/'] := by
            rw [← hp, show p ++ '/' :: l = (p ++ ['/']) ++ l by simp, List.take_left']
            simp
          refine Or.inr ⟨p, hnot, htake, ?_⟩
          simp [hp]
  · obtain rfl := Except.ok.inj hok
    exact h

/-- The checks of a lock and a value stay in the group. -/
theorem group_checkLock (hok : checkLock st key value = .ok st') :
    st'.lastGroup = st.lastGroup ∧ st'.glen = st.glen := by
  rw [checkLock] at hok
  split at hok
  · cases hok
  · split at hok
    · obtain rfl := Except.ok.inj hok
      exact ⟨rfl, rfl⟩
    · split at hok
      · cases hok
      · obtain rfl := Except.ok.inj hok
        exact ⟨rfl, rfl⟩

theorem group_checkIndex {n : ℕ} (hok : checkIndex st key n = .ok st') :
    st'.lastGroup = st.lastGroup ∧ st'.glen = st.glen := by
  rw [checkIndex] at hok
  split at hok
  · split at hok
    · cases hok
    · obtain rfl := Except.ok.inj hok
      exact ⟨rfl, rfl⟩
  · obtain rfl := Except.ok.inj hok
    exact ⟨rfl, rfl⟩

theorem group_checkValue (hok : checkValue st key value = .ok st') :
    st'.lastGroup = st.lastGroup ∧ st'.glen = st.glen := by
  rw [checkValue] at hok
  split at hok
  · split at hok
    · cases hok
    · obtain rfl := Except.ok.inj hok
      exact ⟨rfl, rfl⟩
  · obtain rfl := Except.ok.inj hok
    exact ⟨rfl, rfl⟩

theorem group_checkRun {n : ℕ} (hok : checkRun st key value n = .ok st') :
    st'.lastGroup = st.lastGroup ∧ st'.glen = st.glen := by
  rw [checkRun] at hok
  obtain ⟨st₁, hindex, hok⟩ := exists_of_bind_eq_ok hok
  obtain ⟨st₂, hvalue, hok⟩ := exists_of_bind_eq_ok hok
  obtain rfl := Except.ok.inj hok
  obtain ⟨hgroup, hglen⟩ := group_checkIndex hindex
  obtain ⟨hgroup', hglen'⟩ := group_checkValue hvalue
  exact ⟨hgroup'.trans hgroup, hglen'.trans hglen⟩

theorem standing_checkEntry (h : st.Standing) (hok : checkEntry st key value = .ok st') :
    st'.Standing := by
  rw [checkEntry_eq] at hok
  obtain ⟨st₁, henter, hok⟩ := exists_of_bind_eq_ok hok
  have hstanding := standing_enterGroup h henter
  rw [checkMember] at hok
  split at hok
  · obtain ⟨hgroup, hglen⟩ := group_checkLock hok
    exact hstanding.of_eq hgroup hglen
  · simp only at hok
    split at hok
    · cases hok
    · obtain ⟨hgroup, hglen⟩ := group_checkRun hok
      exact hstanding.of_eq hgroup hglen

/-- Wherever the loop has come to, it stands in the group of the last key or in none. -/
theorem standing_checkEntries (h : st.Standing) {l : List (Str × Str)}
    (hok : checkEntries st l = .ok st') : st'.Standing := by
  induction l generalizing st with
  | nil =>
    obtain rfl := Except.ok.inj hok
    exact h
  | cons e l ih =>
    obtain ⟨st₁, hentry, hok⟩ := exists_of_bind_eq_ok hok
    exact ih (standing_checkEntry h hentry) hok

/-! ## Keys that clients build -/

/-- A key of a group is found to be one. -/
theorem enterGroup_groupPrefix (h : st.Standing) (hgid : gid < 2 ^ 32 - 1) (l : Str) :
    ∃ st', enterGroup st (groupPrefix gid ++ l) = .ok st' ∧ st'.InGroup gid := by
  by_cases hcond : st.lastGroup.isEmpty = true ∨
      (!st.lastGroup.isPrefixOf (groupPrefix gid ++ l)) = true
  · exact ⟨_, enterGroup_of_not_prefix hgid hcond, st.inGroup_enter gid⟩
  · -- the loop stands in a group that the key starts with; that is this one
    refine ⟨st, by rw [enterGroup, if_neg hcond], ?_⟩
    obtain ⟨hne, hprefix⟩ := not_or.mp hcond
    obtain hnone | ⟨p, hp, hgroup, hglen⟩ := h
    · exact absurd (by rw [hnone]; rfl) hne
    · have hpk : p ++ ['/'] <+: groupPrefix gid ++ l := by
        rw [← hgroup, ← List.isPrefixOf_iff_prefix]
        simpa using hprefix
      obtain rfl := group_unique hp (not_mem_makeGroupKey gid) hpk (List.prefix_append _ _)
      exact ⟨hgroup, hglen⟩

theorem readKey_makeLockKey (h : st.Standing) (hgid : gid < 2 ^ 32 - 1) :
    ∃ st', readKey st (makeLockKey gid) = .ok (st', .lock) ∧ st'.InGroup gid := by
  obtain ⟨st', henter, hin⟩ := enterGroup_groupPrefix h hgid ['l', 'o', 'c', 'k']
  rw [← makeLockKey_eq] at henter
  refine ⟨st', ?_, hin⟩
  rw [readKey, henter]
  simp only [bind, Except.bind]
  rw [if_pos]
  rw [makeLockKey_eq, hin.glen, List.isSuffixOf_iff_suffix]
  exact ⟨List.length_append, List.suffix_append _ _⟩

theorem readKey_makeValueKey (h : st.Standing) (hgid : gid < 2 ^ 32 - 1) (hvid : vid ≤ 999) :
    ∃ st', readKey st (makeValueKey gid vid) = .ok (st', .value vid) ∧ st'.InGroup gid := by
  obtain ⟨st', henter, hin⟩ := enterGroup_groupPrefix h hgid ('v' :: indexDigits vid)
  rw [← makeValueKey_eq] at henter
  refine ⟨st', ?_, hin⟩
  have hvid : vid < 1000 := Nat.lt_succ_of_le hvid
  rw [readKey, henter]
  simp only [bind, Except.bind]
  rw [if_neg, if_neg, hin.glen, parseDigits_index hvid]
  · rw [hin.glen, parseDigits_index hvid, makeValueKey_eq, unsignedMinusOne]
    rintro (hne | hne | hne)
    · exact hne (by simp [length_indexDigits hvid])
    · exact hne (by simp)
    · omega
  · rw [makeValueKey_eq, hin.glen]
    exact not_lock_of_ne (by simp)

end Standing

/-! ## The order of the keys -/

/-- The keys that clients build for the group `gid`. -/
inductive ClientKey (gid : ℕ) : Str → Prop
  | lock : ClientKey gid (makeLockKey gid)
  | value {vid : ℕ} (hvid : vid ≤ 999) : ClientKey gid (makeValueKey gid vid)

/-- In a list of keys those of a group follow each other, the lock first and the values by index. -/
structure GroupsInOrder (keys : List Str) : Prop where
  contiguous : ∀ (gid i j n : ℕ) (a b c : Str), i < j → j < n → keys[i]? = some a →
    keys[j]? = some b → keys[n]? = some c → ClientKey gid a → ClientKey gid c → ClientKey gid b
  lockFirst : ∀ (gid i j : ℕ) (k : Str), keys[i]? = some (makeLockKey gid) → keys[j]? = some k →
    ClientKey gid k → i ≤ j
  valuesIncrease : ∀ gid i j v w : ℕ, keys[i]? = some (makeValueKey gid v) →
    keys[j]? = some (makeValueKey gid w) → i < j → v < w

section Order

variable {gid gid' : ℕ} {k : Str} {keys : List Str}

theorem ClientKey.starts (h : ClientKey gid k) : groupPrefix gid <+: k := by
  cases h with
  | lock =>
    rw [makeLockKey_eq]
    exact List.prefix_append _ _
  | value hvid =>
    rw [makeValueKey_eq]
    exact List.prefix_append _ _

/-- A key tells its group. -/
theorem ClientKey.gid_eq (h : ClientKey gid k) (hstart : groupPrefix gid' <+: k) :
    gid' = gid := by
  obtain ⟨l, rfl⟩ := h.starts
  exact gid_eq_of_groupPrefix hstart

/-- Later keys are greater. -/
theorem compare_of_lt (hsorted : keys.Pairwise fun a b => compare a b = .lt) {i j : ℕ} {a b : Str}
    (hij : i < j) (ha : keys[i]? = some a) (hb : keys[j]? = some b) : compare a b = .lt := by
  obtain ⟨hi, rfl⟩ := List.getElem?_eq_some_iff.mp ha
  obtain ⟨hj, rfl⟩ := List.getElem?_eq_some_iff.mp hb
  exact List.pairwise_iff_getElem.mp hsorted i j hi hj hij

/-- **Sorted keys are in order by groups.** -/
theorem groupsInOrder_of_sorted (hsorted : keys.Pairwise fun a b => compare a b = .lt)
    (hkeys : ∀ k ∈ keys, ∃ gid, ClientKey gid k) : GroupsInOrder keys := by
  constructor
  · intro gid i j n a b c hij hjn ha hb hc hka hkc
    obtain ⟨gid', hkb⟩ := hkeys b (List.mem_of_getElem? hb)
    have hstart := prefix_of_between hka.starts hkc.starts
      (compare_of_lt hsorted hij ha hb) (compare_of_lt hsorted hjn hb hc)
    rwa [hkb.gid_eq hstart]
  · intro gid i j k hi hj hk
    by_contra hlt
    have hcompare := compare_of_lt hsorted (Nat.not_le.mp hlt) hj hi
    cases hk with
    | lock => exact compare_self_ne_lt _ hcompare
    | @value vid hvid =>
      -- the lock comes before all values
      have hlock := compare_lockKey (makeGroupKey gid) (indexDigits vid)
      exact compare_self_ne_lt _ (Std.TransCmp.lt_trans hlock hcompare)
  · intro gid i j v w hv hw hij
    have hle : ∀ {i v : ℕ}, keys[i]? = some (makeValueKey gid v) → v < 1000 := by
      intro i v hv
      obtain ⟨gid', hkey⟩ := hkeys _ (List.mem_of_getElem? hv)
      generalize hk : makeValueKey gid v = k at hkey
      cases hkey with
      | lock => exact absurd hk.symm (makeLockKey_ne_makeValueKey _ _ _)
      | value hvid =>
        obtain ⟨-, rfl⟩ := makeValueKey_inj.mp hk
        omega
    exact (compare_valueKey_iff (hle hv) (hle hw)).mp (compare_of_lt hsorted hij hv hw)

/-- A database is iterated in the order of its keys. -/
theorem sorted_keys_entries (db : Pancydb) :
    ((entries db).map Prod.fst).Pairwise fun a b => compare a b = .lt := by
  rw [List.pairwise_map]
  exact increasing_entries db

end Order

/-- **Key builders and checker agree**: the loop of `check` reads a key and checks what was read;
after any keys that it has passed, it reads from a key what the key was built from; the builders
build different keys; and the keys in a database are in order by groups. -/
theorem key_builders_agree :
    (∀ st key value, checkEntry st key value = readKey st key >>= checkReading key value) ∧
    (∀ gid < 2 ^ 32 - 1, ∀ (passed : List (Str × Str)) (st : CheckState),
      checkEntries {} passed = .ok st →
      (∀ vid ≤ 999, ∃ st', readKey st (makeValueKey gid vid) = .ok (st', .value vid) ∧
        st'.lastGroup = makeGroupKey gid ++ ['/'] ∧ st'.glen = st'.lastGroup.length) ∧
      ∃ st', readKey st (makeLockKey gid) = .ok (st', .lock) ∧
        st'.lastGroup = makeGroupKey gid ++ ['/'] ∧ st'.glen = st'.lastGroup.length) ∧
    Function.Injective (fun p : ℕ × ℕ => makeValueKey p.1 p.2) ∧
    Function.Injective makeLockKey ∧
    (∀ gid gid' vid, makeLockKey gid ≠ makeValueKey gid' vid) ∧
    ∀ db : Pancydb, (∀ k ∈ (entries db).map Prod.fst, ∃ gid < 2 ^ 32 - 1, ClientKey gid k) →
      GroupsInOrder ((entries db).map Prod.fst) := by
  refine ⟨checkEntry_eq_readKey, fun gid hgid passed st hpassed => ?_, ?_, makeLockKey_injective,
    makeLockKey_ne_makeValueKey, fun db hkeys => ?_⟩
  · have hstanding : st.Standing := standing_checkEntries (Or.inl rfl) hpassed
    constructor
    · intro vid hvid
      obtain ⟨st', hread, hin⟩ := readKey_makeValueKey hstanding hgid hvid
      exact ⟨st', hread, hin.lastGroup, by rw [hin.glen, hin.lastGroup]⟩
    · obtain ⟨st', hread, hin⟩ := readKey_makeLockKey hstanding hgid
      exact ⟨st', hread, hin.lastGroup, by rw [hin.glen, hin.lastGroup]⟩
  · rintro ⟨gid, vid⟩ ⟨gid', vid'⟩ heq
    obtain ⟨rfl, rfl⟩ := makeValueKey_inj.mp heq
    rfl
  · refine groupsInOrder_of_sorted (sorted_keys_entries db) fun k hk => ?_
    obtain ⟨gid, -, hkey⟩ := hkeys k hk
    exact ⟨gid, hkey⟩

end Lockseq

end Traxos
