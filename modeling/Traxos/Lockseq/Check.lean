import Traxos.Core.OrderedStrings
import Traxos.Lockseq.Keys
import Traxos.Pancy.Database

/-! # The checker

`lockseq_model::check` walks over the keys of a database in order and tells whether some sequence of
client operations could have created it; it returns the first key that none could. What it accepts
is a series of groups, each an unlocked or a locked `Block` (`checkEntries_of_blocks`). -/

namespace Traxos

namespace Lockseq

/-! ## The source -/

/-- `unsigned(-1)`. -/
def unsignedMinusOne : ℕ := 2 ^ 32 - 1

/-- The loop of `parse_digits`; the arithmetic is `unsigned`. -/
def parseDigitsLoop : Str → ℕ → ℕ
  | [], v => v
  | ch :: s, v =>
    if ch < '0' ∨ '9' < ch then unsignedMinusOne
    else
      let vv := (v * 10 + ch.toNat - '0'.toNat) % 2 ^ 32
      if vv < v then unsignedMinusOne else parseDigitsLoop s vv

/-- `parse_digits`: the decimal number from `s[from]` up to, but not including, `s[to]`;
`unsigned(-1)` on error. -/
def parseDigits (s : Str) (from' to' : ℕ) : ℕ :=
  if to' ≤ from' then unsignedMinusOne else parseDigitsLoop ((s.take to').drop from') 0

/-- `lock_state`. -/
inductive LockState
  | unlocked
  | lockedStart
  | lockedRest
  deriving DecidableEq, Repr

/-- The local variables of `check`. -/
structure CheckState where
  lastGroup : Str := []
  glen : ℕ := 0
  lastLock : Str := []
  expectedValue : Str := []
  expectedIndex : ℕ := 0
  lockState : LockState := .unlocked

/-- Check for new group. -/
def enterGroup (st : CheckState) (key : Str) : Except Str CheckState :=
  if st.lastGroup.isEmpty ∨ !st.lastGroup.isPrefixOf key then
    -- must start with `g{G}`
    if key.length < 3 ∨ key[0]? ≠ some 'g' then .error key
    else
      match key.findIdx? (· == '/') with
      | none => .error key
      | some slash =>
        if parseDigits key 1 slash = unsignedMinusOne then .error key
        else
          .ok { st with
            lastGroup := key.take (slash + 1)
            glen := slash + 1
            expectedValue := []
            expectedIndex := 0
            lockState := .unlocked }
  else .ok st

/-- Check lock key. -/
def checkLock (st : CheckState) (key value : Str) : Except Str CheckState :=
  if st.expectedIndex ≠ 0 ∨ st.lockState ≠ .unlocked then .error key
  else if value.length = 0 then .ok st
  else if value.length < 4 ∨ value[0]? ≠ some 'c' then .error key
  else .ok { st with lastLock := value, lockState := .lockedStart, expectedValue := value }

/-- Check key. -/
def checkIndex (st : CheckState) (key : Str) (vindex : ℕ) : Except Str CheckState :=
  if vindex ≠ st.expectedIndex then
    if st.lockState = .unlocked ∨ st.lockState = .lockedRest ∨ vindex < st.expectedIndex then
      .error key
    else .ok { st with lockState := .lockedRest, expectedIndex := vindex, expectedValue := [] }
  else .ok st

/-- Check value. -/
def checkValue (st : CheckState) (key value : Str) : Except Str CheckState :=
  if st.expectedValue ≠ [] ∧ value ≠ st.expectedValue then
    if st.lockState ≠ .lockedStart then .error key
    else .ok { st with lockState := .lockedRest, expectedValue := value }
  else .ok st

/-- One turn of the loop of `check`. -/
def checkEntry (st : CheckState) (key value : Str) : Except Str CheckState := do
  let st ← enterGroup st key
  if key.length = st.glen + 4 ∧ ['l', 'o', 'c', 'k'].isSuffixOf key then checkLock st key value
  else
    -- otherwise, must be value key
    let vindex := parseDigits key (st.glen + 1) (st.glen + 4)
    if key.length ≠ st.glen + 4 ∨ key[st.glen]? ≠ some 'v' ∨ vindex = unsignedMinusOne ∨
        value.isEmpty then
      .error key
    else
      let st ← checkIndex st key vindex
      let st ← checkValue st key value
      .ok { st with expectedValue := value, expectedIndex := (st.expectedIndex + 1) % 2 ^ 32 }

/-- The loop of `check` over a list of keys and values. -/
def checkEntries (st : CheckState) (entries : List (Str × Str)) : Except Str CheckState :=
  entries.foldlM (fun st e => checkEntry st e.1 e.2) st

/-- `lockseq_model::check`. -/
def check (db : Pancydb) : Option Str :=
  match checkEntries {} (db.db.toList.map fun e => (e.1, e.2.value)) with
  | .error key => some key
  | .ok _ => none

/-- The keys and values of a database in key order. -/
def entries (db : Pancydb) : List (Str × Str) := db.db.toList.map fun e => (e.1, e.2.value)

theorem increasing_entries (db : Pancydb) : Increasing (entries db) := by
  rw [Increasing, entries, List.pairwise_map]
  exact Std.ExtTreeMap.ordered_keys_toList

/-- The checker is its loop over the entries. -/
theorem check_eq (db : Pancydb) :
    check db = match checkEntries {} (entries db) with
      | .error key => some key
      | .ok _ => none := rfl

/-! ## Numbers and keys -/

/-- Reading digits gives their number when it fits. -/
theorem parseDigitsLoop_eq {ds : Str} (hds : ∀ c ∈ ds, c.isDigit = true) {v : ℕ}
    (hfit : Nat.ofDigitChars 10 ds v < 2 ^ 32) : parseDigitsLoop ds v = Nat.ofDigitChars 10 ds v := by
  induction ds generalizing v with
  | nil => rfl
  | cons c ds ih =>
    have hc := hds c List.mem_cons_self
    have hds' : ∀ c ∈ ds, c.isDigit = true := fun x hx => hds x (List.mem_cons_of_mem _ hx)
    simp only [Char.isDigit, Bool.and_eq_true, decide_eq_true_eq] at hc
    have hlow : '0'.toNat ≤ c.toNat := hc.1
    have hnot : ¬ (c < '0' ∨ '9' < c) := by
      rintro (h | h)
      · exact absurd hc.1 (UInt32.not_le.mpr h)
      · exact absurd hc.2 (UInt32.not_le.mpr h)
    have hread : v * 10 + c.toNat - '0'.toNat = 10 * v + (c.toNat - '0'.toNat) := by omega
    rw [Nat.ofDigitChars_cons] at hfit ⊢
    have hle := (ofDigitChars_lt hds' (10 * v + (c.toNat - '0'.toNat))).1
    have hpos := Nat.one_le_pow ds.length 10 (by decide)
    -- reading on never makes the number smaller, so it fits at every digit
    have hge : 10 * v + (c.toNat - '0'.toNat) ≤
        Nat.ofDigitChars 10 ds (10 * v + (c.toNat - '0'.toNat)) :=
      Nat.le_trans (Nat.le_mul_of_pos_left _ hpos) hle
    rw [parseDigitsLoop, if_neg hnot, hread]
    simp only
    rw [Nat.mod_eq_of_lt (Nat.lt_of_le_of_lt hge hfit), if_neg (by omega)]
    exact ih hds' hfit

/-- The first part of the keys of a group, with the slash. -/
def groupPrefix (gid : ℕ) : Str := makeGroupKey gid ++ ['/']

/-- The index in a value key. -/
def indexDigits (i : ℕ) : Str := (Nat.toDigits 10 i).leftpad 3 '0'

theorem makeLockKey_eq (gid : ℕ) : makeLockKey gid = groupPrefix gid ++ ['l', 'o', 'c', 'k'] := by
  simp [makeLockKey, groupPrefix]

theorem makeValueKey_eq (gid i : ℕ) :
    makeValueKey gid i = groupPrefix gid ++ 'v' :: indexDigits i := by
  simp [makeValueKey, groupPrefix, indexDigits]

theorem isDigit_of_mem_indexDigits {i : ℕ} : ∀ c ∈ indexDigits i, c.isDigit = true := by
  intro c hc
  rw [indexDigits, List.leftpad] at hc
  rcases List.mem_append.mp hc with hc | hc
  · rw [(List.mem_replicate.mp hc).2]
    decide
  · exact Nat.isDigit_of_mem_toDigits (by decide) (by decide) hc

theorem ofDigitChars_indexDigits (i : ℕ) : Nat.ofDigitChars 10 (indexDigits i) 0 = i := by
  simp [indexDigits, List.leftpad, Nat.ofDigitChars_append]

theorem length_indexDigits {i : ℕ} (hi : i < 1000) : (indexDigits i).length = 3 := by
  have hlen := (Nat.length_toDigits_le_iff (b := 10) (n := i) (k := 3) (by decide) (by decide)).mpr hi
  rw [indexDigits, List.length_leftpad]
  omega

/-- Two groups have no common keys. -/
theorem gid_eq_of_groupPrefix {gid gid' : ℕ} {l : Str}
    (h : groupPrefix gid <+: groupPrefix gid' ++ l) : gid = gid' := by
  obtain ⟨l', hl'⟩ := h
  have heq : Nat.toDigits 10 gid ++ '/' :: l' = Nat.toDigits 10 gid' ++ '/' :: l := by
    simpa [groupPrefix, makeGroupKey] using hl'
  exact (toDigits_append_cons_inj (by decide) (by decide) heq).1

/-- The group number is read back from a key of the group. -/
theorem parseDigits_gid {gid : ℕ} (h : gid < 2 ^ 32) (l : Str) :
    parseDigits (groupPrefix gid ++ l) 1 (1 + (Nat.toDigits 10 gid).length) = gid := by
  have hpos : 0 < (Nat.toDigits 10 gid).length := Nat.length_toDigits_pos
  have hslice : ((groupPrefix gid ++ l).take (1 + (Nat.toDigits 10 gid).length)).drop 1 =
      Nat.toDigits 10 gid := by
    rw [groupPrefix, makeGroupKey, Nat.add_comm]
    simp
  rw [parseDigits, if_neg (by omega), hslice, parseDigitsLoop_eq, Nat.ofDigitChars_ten_toDigits]
  · exact fun c hc => Nat.isDigit_of_mem_toDigits (by decide) (by decide) hc
  · rwa [Nat.ofDigitChars_ten_toDigits]

/-- The slash is found behind what has none. -/
theorem findIdx?_slash_append {p : Str} (hp : '/' ∉ p) (l : Str) :
    (p ++ '/' :: l).findIdx? (· == '/') = some p.length := by
  have hnone : p.findIdx? (· == '/') = none := by
    rw [List.findIdx?_eq_none_iff]
    intro c hc
    simp only [beq_eq_false_iff_ne, ne_eq]
    rintro rfl
    exact hp hc
  rw [List.findIdx?_append, hnone, List.findIdx?_cons]
  simp

theorem not_mem_makeGroupKey (gid : ℕ) : '/' ∉ makeGroupKey gid := by
  intro hmem
  rcases List.mem_cons.mp hmem with heq | hmem
  · exact absurd heq (by decide)
  · have hdigit := Nat.isDigit_of_mem_toDigits (by decide) (by decide) hmem
    exact absurd hdigit (by decide)

/-- The slash is found behind the group number. -/
theorem findIdx?_slash (gid : ℕ) (l : Str) :
    (groupPrefix gid ++ l).findIdx? (· == '/') = some (1 + (Nat.toDigits 10 gid).length) := by
  rw [groupPrefix, List.append_assoc, List.singleton_append,
    findIdx?_slash_append (not_mem_makeGroupKey gid)]
  simp [makeGroupKey, Nat.add_comm]

/-- The number in a value key is read from its last three characters. -/
theorem parseDigits_value {pre ds : Str} (hlen : ds.length = 3) :
    parseDigits (pre ++ 'v' :: ds) (pre.length + 1) (pre.length + 4) = parseDigitsLoop ds 0 := by
  rw [parseDigits, if_neg (by omega), List.take_of_length_le (by simp [hlen])]
  simp

/-- The index is read back from a value key. -/
theorem parseDigits_index {gid i : ℕ} (hi : i < 1000) :
    parseDigits (makeValueKey gid i) ((groupPrefix gid).length + 1)
      ((groupPrefix gid).length + 4) = i := by
  rw [makeValueKey_eq, parseDigits_value (length_indexDigits hi),
    parseDigitsLoop_eq isDigit_of_mem_indexDigits, ofDigitChars_indexDigits]
  rw [ofDigitChars_indexDigits]
  omega

/-- A key other than the lock is not taken for it. -/
theorem not_lock_of_ne {pre l : Str} (hl : l ≠ ['l', 'o', 'c', 'k']) :
    ¬ ((pre ++ l).length = pre.length + 4 ∧ ['l', 'o', 'c', 'k'].isSuffixOf (pre ++ l) = true) := by
  rintro ⟨hlen, hsuffix⟩
  obtain ⟨rest, hrest⟩ := List.isSuffixOf_iff_suffix.mp hsuffix
  refine hl (List.append_inj' hrest ?_).2.symm
  rw [List.length_append] at hlen
  show 4 = l.length
  omega

/-! ## One entry -/

section Entry

variable {st : CheckState} {gid i n : ℕ} {key x z : Str}

/-- The checks of the index and the value of a value key. -/
def checkRun (st : CheckState) (key value : Str) (vindex : ℕ) : Except Str CheckState := do
  let st ← checkIndex st key vindex
  let st ← checkValue st key value
  .ok { st with expectedValue := value, expectedIndex := (st.expectedIndex + 1) % 2 ^ 32 }

/-- The expected index with a value that fits goes on the run. -/
theorem checkRun_next (hn : n < 1000) (hindex : st.expectedIndex = n)
    (hvalue : st.expectedValue = [] ∨ st.expectedValue = z) :
    checkRun st key z n = .ok { st with expectedValue := z, expectedIndex := n + 1 } := by
  have hsame : ¬ (st.expectedValue ≠ [] ∧ z ≠ st.expectedValue) := by
    rintro ⟨h₁, h₂⟩
    exact hvalue.elim h₁ fun heq => h₂ heq.symm
  rw [checkRun, checkIndex, if_neg (by simp [hindex])]
  simp only [bind, Except.bind, checkValue]
  rw [if_neg hsame]
  simp only [hindex, Nat.mod_eq_of_lt (show n + 1 < 2 ^ 32 by omega)]

/-- The first other value of a locked group starts the second run. -/
theorem checkRun_other (hn : n < 1000) (hstate : st.lockState = .lockedStart)
    (hindex : st.expectedIndex = n) (hvalue : st.expectedValue ≠ [] ∧ z ≠ st.expectedValue) :
    checkRun st key z n =
      .ok { st with lockState := .lockedRest, expectedValue := z, expectedIndex := n + 1 } := by
  rw [checkRun, checkIndex, if_neg (by simp [hindex])]
  simp only [bind, Except.bind, checkValue]
  rw [if_pos hvalue, if_neg (not_not_intro hstate)]
  simp only [hindex, Nat.mod_eq_of_lt (show n + 1 < 2 ^ 32 by omega)]

/-- The first gap of a locked group starts the second run. -/
theorem checkRun_gap (hn : n < 1000) (hstate : st.lockState = .lockedStart)
    (hindex : st.expectedIndex < n) :
    checkRun st key z n =
      .ok { st with lockState := .lockedRest, expectedValue := z, expectedIndex := n + 1 } := by
  rw [checkRun, checkIndex, if_pos (by omega), hstate, if_neg (by simp; omega)]
  simp only [bind, Except.bind, checkValue]
  rw [if_neg (by simp)]
  simp only [Nat.mod_eq_of_lt (show n + 1 < 2 ^ 32 by omega)]

/-- Beyond its first run a locked group has neither gaps nor other values, an unlocked one never. -/
theorem checkRun_error (hstate : st.lockState ≠ .lockedStart)
    (hbad : n ≠ st.expectedIndex ∨ st.expectedValue ≠ [] ∧ z ≠ st.expectedValue) :
    checkRun st key z n = .error key := by
  have hother : st.lockState = .unlocked ∨ st.lockState = .lockedRest ∨ n < st.expectedIndex := by
    cases hs : st.lockState with
    | unlocked => exact Or.inl rfl
    | lockedStart => exact absurd hs hstate
    | lockedRest => exact Or.inr (Or.inl rfl)
  rw [checkRun, checkIndex]
  by_cases hindex : n = st.expectedIndex
  · rw [if_neg (not_not_intro hindex)]
    simp only [bind, Except.bind, checkValue]
    rw [if_pos (hbad.resolve_left (not_not_intro hindex)), if_pos hstate]
  · rw [if_pos hindex, if_pos hother]
    rfl

/-- The state is that of a walk within group `gid`. -/
structure CheckState.InGroup (st : CheckState) (gid : ℕ) : Prop where
  lastGroup : st.lastGroup = groupPrefix gid
  glen : st.glen = (groupPrefix gid).length

/-- The state in which a new group is entered. -/
def CheckState.enter (st : CheckState) (gid : ℕ) : CheckState :=
  { st with
    lastGroup := groupPrefix gid
    glen := (groupPrefix gid).length
    expectedValue := []
    expectedIndex := 0
    lockState := .unlocked }

theorem CheckState.inGroup_enter (st : CheckState) (gid : ℕ) : (st.enter gid).InGroup gid :=
  ⟨rfl, rfl⟩

/-- Within a group no new group is found. -/
theorem enterGroup_of_inGroup (h : st.InGroup gid) (l : Str) :
    enterGroup st (groupPrefix gid ++ l) = .ok st := by
  have hcond : ¬ (st.lastGroup.isEmpty = true ∨
      (!st.lastGroup.isPrefixOf (groupPrefix gid ++ l)) = true) := by
    rw [h.lastGroup, List.isPrefixOf_iff_prefix.mpr (List.prefix_append _ _)]
    simp [groupPrefix, makeGroupKey]
  rw [enterGroup, if_neg hcond]

/-- A key that does not start like the keys of the last group enters its own. -/
theorem enterGroup_of_not_prefix (hgid : gid < 2 ^ 32 - 1) {l : Str}
    (hcond : st.lastGroup.isEmpty = true ∨
      (!st.lastGroup.isPrefixOf (groupPrefix gid ++ l)) = true) :
    enterGroup st (groupPrefix gid ++ l) = .ok (st.enter gid) := by
  have hpos : 0 < (Nat.toDigits 10 gid).length := Nat.length_toDigits_pos
  have hlen : (groupPrefix gid).length = 1 + (Nat.toDigits 10 gid).length + 1 := by
    simp [groupPrefix, makeGroupKey, Nat.add_comm]
  have hstart : ¬ ((groupPrefix gid ++ l).length < 3 ∨ (groupPrefix gid ++ l)[0]? ≠ some 'g') := by
    rintro (h | h)
    · rw [List.length_append] at h
      omega
    · simp [groupPrefix, makeGroupKey] at h
  have hnumber : ¬ gid = unsignedMinusOne := by
    rw [unsignedMinusOne]
    omega
  have htake : (groupPrefix gid ++ l).take (1 + (Nat.toDigits 10 gid).length + 1) =
      groupPrefix gid := by
    rw [← hlen, List.take_left']
    rfl
  rw [enterGroup, if_pos hcond, if_neg hstart, findIdx?_slash]
  simp only
  rw [parseDigits_gid (by omega), if_neg hnumber, htake, ← hlen]
  rfl

/-- The first key of another group enters it. -/
theorem enterGroup_of_new (hgid : gid < 2 ^ 32 - 1)
    (hnew : ∀ gid', st.lastGroup = groupPrefix gid' → gid' ≠ gid)
    (hold : st.lastGroup = [] ∨ ∃ gid', st.lastGroup = groupPrefix gid') (l : Str) :
    enterGroup st (groupPrefix gid ++ l) = .ok (st.enter gid) := by
  refine enterGroup_of_not_prefix hgid ?_
  rcases hold with hold | ⟨gid', hold⟩
  · exact Or.inl (by rw [hold]; rfl)
  · -- a key of this group does not start like those of another one
    refine Or.inr ?_
    rw [Bool.not_eq_true', ← Bool.not_eq_true, hold]
    intro hprefix
    exact hnew gid' hold (gid_eq_of_groupPrefix (List.isPrefixOf_iff_prefix.mp hprefix))

/-- The lock of a group. -/
theorem checkEntry_lock (h : st.InGroup gid) (hindex : st.expectedIndex = 0)
    (hstate : st.lockState = .unlocked) (hx : 4 ≤ x.length ∧ x[0]? = some 'c') :
    checkEntry st (makeLockKey gid) x =
      .ok { st with lastLock := x, lockState := .lockedStart, expectedValue := x } := by
  have hcond : (makeLockKey gid).length = st.glen + 4 ∧
      ['l', 'o', 'c', 'k'].isSuffixOf (makeLockKey gid) = true := by
    rw [makeLockKey_eq, h.glen, List.isSuffixOf_iff_suffix]
    exact ⟨List.length_append, List.suffix_append _ _⟩
  have henter := enterGroup_of_inGroup h ['l', 'o', 'c', 'k']
  rw [← makeLockKey_eq] at henter
  simp only [checkEntry, henter, bind, Except.bind]
  rw [if_pos hcond, checkLock, if_neg (by simp [hindex, hstate]), if_neg (by omega),
    if_neg (by rintro (hlt | hne); exacts [by omega, hne hx.2])]

/-- A value key gets through the checks of its form. -/
theorem checkEntry_value_eq (h : st.InGroup gid) (hi : i < 1000) (hx : x ≠ []) :
    checkEntry st (makeValueKey gid i) x = checkRun st (makeValueKey gid i) x i := by
  have hlen := length_indexDigits hi
  have henter := enterGroup_of_inGroup h ('v' :: indexDigits i)
  rw [← makeValueKey_eq] at henter
  have hnotLock : ¬ ((makeValueKey gid i).length = st.glen + 4 ∧
      ['l', 'o', 'c', 'k'].isSuffixOf (makeValueKey gid i) = true) := by
    rw [makeValueKey_eq, h.glen]
    exact not_lock_of_ne (by simp)
  have hform : ¬ ((makeValueKey gid i).length ≠ st.glen + 4 ∨
      (makeValueKey gid i)[st.glen]? ≠ some 'v' ∨ i = unsignedMinusOne ∨ x.isEmpty = true) := by
    rw [makeValueKey_eq, h.glen, unsignedMinusOne]
    rintro (hne | hne | hne | hempty)
    · exact hne (by simp [hlen])
    · exact hne (by simp)
    · omega
    · exact hx (List.isEmpty_iff.mp hempty)
  simp only [checkEntry, henter, bind, Except.bind]
  rw [if_neg hnotLock, h.glen, parseDigits_index hi, ← h.glen, if_neg hform]
  rfl

/-- The next value of a run. -/
theorem checkEntry_next (h : st.InGroup gid) (hi : i < 1000) (hx : x ≠ [])
    (hindex : st.expectedIndex = i) (hvalue : st.expectedValue = [] ∨ st.expectedValue = x) :
    checkEntry st (makeValueKey gid i) x =
      .ok { st with expectedValue := x, expectedIndex := i + 1 } := by
  rw [checkEntry_value_eq h hi hx, checkRun_next hi hindex hvalue]

/-- The first value of the second run of a locked group, perhaps after a gap. -/
theorem checkEntry_second (h : st.InGroup gid) (hi : i < 1000) (hx : x ≠ [])
    (hstate : st.lockState = .lockedStart) (hindex : st.expectedIndex ≤ i) :
    ∃ ls, checkEntry st (makeValueKey gid i) x =
      .ok { st with lockState := ls, expectedValue := x, expectedIndex := i + 1 } := by
  rw [checkEntry_value_eq h hi hx]
  by_cases heq : st.expectedIndex = i
  · -- the second run follows without a gap, perhaps with another value
    by_cases hother : st.expectedValue ≠ [] ∧ x ≠ st.expectedValue
    · exact ⟨_, checkRun_other hi hstate heq hother⟩
    · refine ⟨st.lockState, checkRun_next hi heq ?_⟩
      by_cases hnil : st.expectedValue = []
      · exact Or.inl hnil
      · exact Or.inr (not_not.mp fun hne => hother ⟨hnil, Ne.symm hne⟩)
  · -- indices are missing
    exact ⟨_, checkRun_gap hi hstate (by omega)⟩

end Entry

/-! ## Groups -/

/-- The values of a run: `x` at the indices `b` to `b + n - 1`. -/
def valuesRun (gid : ℕ) (x : Str) (b n : ℕ) : List (Str × Str) :=
  (List.range' b n).map fun i => (makeValueKey gid i, x)

/-- A group as the checker wants it. -/
inductive Block (gid : ℕ) : List (Str × Str) → Prop
  /-- An unlocked group: value keys with no gaps in key space, all with the same value. -/
  | unlocked {x : Str} {n : ℕ} (hx : x ≠ []) (hn : n ≤ 1000) : Block gid (valuesRun gid x 0 n)
  /-- A locked group: the lock, value keys with no gaps and the value of the lock, missing keys, and
  again value keys with no gaps, all with the same value. -/
  | locked {x y : Str} {a b n : ℕ} (hx : 4 ≤ x.length ∧ x[0]? = some 'c') (hy : y ≠ [])
      (hab : a ≤ b) (hn : b + n ≤ 1000) :
      Block gid ((makeLockKey gid, x) :: (valuesRun gid x 0 a ++ valuesRun gid y b n))

section Groups

variable {st : CheckState} {gid : ℕ} {x : Str}

theorem checkEntries_append (st : CheckState) (l l' : List (Str × Str)) :
    checkEntries st (l ++ l') = checkEntries st l >>= fun st => checkEntries st l' :=
  List.foldlM_append

/-- A run is accepted where it is expected. -/
theorem checkEntries_run {b n : ℕ} (h : st.InGroup gid) (hx : x ≠ []) (hn : b + n ≤ 1000)
    (hindex : st.expectedIndex = b) (hvalue : st.expectedValue = [] ∨ st.expectedValue = x) :
    ∃ st', checkEntries st (valuesRun gid x b n) = .ok st' ∧ st'.InGroup gid ∧
      st'.expectedIndex = b + n ∧ st'.lockState = st.lockState := by
  induction n generalizing st b with
  | zero => exact ⟨st, rfl, h, hindex, rfl⟩
  | succ n ih =>
    have hstep := checkEntry_next h (show b < 1000 by omega) hx hindex hvalue
    have hnext : CheckState.InGroup { st with expectedValue := x, expectedIndex := b + 1 } gid :=
      ⟨h.lastGroup, h.glen⟩
    obtain ⟨st', hrun, hgroup, hindex', hstate⟩ := ih (b := b + 1) hnext (by omega) rfl (Or.inr rfl)
    refine ⟨st', ?_, hgroup, by omega, hstate⟩
    rw [valuesRun, List.range'_succ, List.map_cons]
    show (checkEntry st (makeValueKey gid b) x >>= fun st => checkEntries st _) = _
    rw [hstep]
    exact hrun

/-- **A group is accepted** by a walk that enters it. -/
theorem checkEntries_of_block {l : List (Str × Str)} (hblock : Block gid l) :
    ∃ st', checkEntries (st.enter gid) l = .ok st' ∧ st'.InGroup gid := by
  have henter := st.inGroup_enter gid
  cases hblock with
  | @unlocked x n hx hn =>
    obtain ⟨st', hrun, hgroup, -⟩ :=
      checkEntries_run (b := 0) (n := n) henter hx (by omega) rfl (Or.inl rfl)
    exact ⟨st', hrun, hgroup⟩
  | @locked x y a b n hx hy hab hn =>
    have hxne : x ≠ [] := by
      rintro rfl
      exact absurd hx.1 (by decide)
    have hlock := checkEntry_lock henter rfl rfl hx
    have hlocked : CheckState.InGroup
        { st.enter gid with lastLock := x, lockState := .lockedStart, expectedValue := x } gid :=
      ⟨rfl, rfl⟩
    obtain ⟨st₁, hrun₁, hgroup₁, hindex₁, hstate₁⟩ :=
      checkEntries_run (b := 0) (n := a) hlocked hxne (by omega) rfl (Or.inr rfl)
    -- the first entry of the second run may skip indices and change the value, the others not
    have hrest : ∃ st₂, checkEntries st₁ (valuesRun gid y b n) = .ok st₂ ∧ st₂.InGroup gid := by
      cases n with
      | zero => exact ⟨st₁, rfl, hgroup₁⟩
      | succ n =>
        obtain ⟨ls, hsecond⟩ := checkEntry_second (i := b) hgroup₁ (by omega) hy hstate₁ (by omega)
        have hgroup₂ : CheckState.InGroup
            { st₁ with lockState := ls, expectedValue := y, expectedIndex := b + 1 } gid :=
          ⟨hgroup₁.lastGroup, hgroup₁.glen⟩
        obtain ⟨st₂, hrun₂, hgroup, -⟩ :=
          checkEntries_run (b := b + 1) (n := n) hgroup₂ hy (by omega) rfl (Or.inr rfl)
        refine ⟨st₂, ?_, hgroup⟩
        rw [valuesRun, List.range'_succ, List.map_cons]
        show (checkEntry st₁ (makeValueKey gid b) y >>= fun st => checkEntries st _) = _
        rw [hsecond]
        exact hrun₂
    obtain ⟨st₂, hrun₂, hgroup₂⟩ := hrest
    refine ⟨st₂, ?_, hgroup₂⟩
    show (checkEntry (st.enter gid) (makeLockKey gid) x >>= fun st => checkEntries st _) = _
    rw [hlock]
    show checkEntries _ (valuesRun gid x 0 a ++ valuesRun gid y b n) = _
    rw [checkEntries_append, hrun₁]
    exact hrun₂

/-- The entries of a group. -/
def groupEntries (gid : ℕ) (l : List (Str × Str)) : List (Str × Str) :=
  l.filter fun e => (groupPrefix gid).isPrefixOf e.1

/-- The first entry of a group may as well be seen by a walk that has entered it. -/
theorem checkEntries_enter {e : Str × Str} (hgid : gid < 2 ^ 32 - 1)
    (hnew : ∀ gid', st.lastGroup = groupPrefix gid' → gid' ≠ gid)
    (hold : st.lastGroup = [] ∨ ∃ gid', st.lastGroup = groupPrefix gid')
    (he : groupPrefix gid <+: e.1) (l : List (Str × Str)) :
    checkEntries st (e :: l) = checkEntries (st.enter gid) (e :: l) := by
  obtain ⟨k, x⟩ := e
  obtain ⟨k, rfl⟩ := he
  show (checkEntry st (groupPrefix gid ++ k) x >>= _) =
    (checkEntry (st.enter gid) (groupPrefix gid ++ k) x >>= _)
  rw [checkEntry, checkEntry, enterGroup_of_new hgid hnew hold,
    enterGroup_of_inGroup (st.inGroup_enter gid)]

/-- No key is of two groups. -/
theorem gid_eq_of_isPrefixOf {gid' : ℕ} {k : Str} (h : (groupPrefix gid).isPrefixOf k = true)
    (h' : (groupPrefix gid').isPrefixOf k = true) : gid = gid' := by
  obtain ⟨l, rfl⟩ := List.isPrefixOf_iff_prefix.mp h'
  exact gid_eq_of_groupPrefix (List.isPrefixOf_iff_prefix.mp h)

/-- Without the entries of one group the other groups are as before. -/
theorem groupEntries_filter_not (gid gid' : ℕ) (l : List (Str × Str)) :
    groupEntries gid' (l.filter fun x => !(groupPrefix gid).isPrefixOf x.1) =
      if gid' = gid then [] else groupEntries gid' l := by
  rw [groupEntries, List.filter_filter]
  split
  · rename_i heq
    subst heq
    exact List.filter_eq_nil_iff.mpr fun x _ => by simp
  · rename_i hgid
    refine List.filter_congr fun x _ => ?_
    by_cases hx : (groupPrefix gid').isPrefixOf x.1 = true
    · have hnot : (groupPrefix gid).isPrefixOf x.1 = false := by
        rw [← Bool.not_eq_true]
        exact fun hx' => hgid (gid_eq_of_isPrefixOf hx hx')
      rw [hx, hnot]
      rfl
    · rw [Bool.not_eq_true] at hx
      rw [hx]
      rfl

/-- **The checker accepts a series of groups**, each of which is as it wants it. -/
theorem checkEntries_of_blocks {l : List (Str × Str)} (hl : Increasing l)
    (hgroup : ∀ e ∈ l, ∃ gid, gid < 2 ^ 32 - 1 ∧ groupPrefix gid <+: e.1)
    (hblock : ∀ gid, groupEntries gid l = [] ∨ Block gid (groupEntries gid l))
    (hold : st.lastGroup = [] ∨ ∃ gid, st.lastGroup = groupPrefix gid)
    (hnew : ∀ gid, st.lastGroup = groupPrefix gid → groupEntries gid l = []) :
    ∃ st', checkEntries st l = .ok st' := by
  -- by induction on the number of entries; each turn takes one group off the front
  induction hn : l.length using Nat.strongRecOn generalizing l st with
  | _ n ih =>
    cases l with
    | nil => exact ⟨st, rfl⟩
    | cons e l =>
      obtain ⟨gid, hgid, he⟩ := hgroup e List.mem_cons_self
      have hpe : (groupPrefix gid).isPrefixOf e.1 = true := List.isPrefixOf_iff_prefix.mpr he
      have hfront : groupEntries gid (e :: l) = e :: groupEntries gid l :=
        List.filter_cons_of_pos hpe
      have hne : groupEntries gid (e :: l) ≠ [] := by
        rw [hfront]
        exact List.cons_ne_nil _ _
      have hother : ∀ gid', st.lastGroup = groupPrefix gid' → gid' ≠ gid := by
        rintro gid' hlast rfl
        exact hne (hnew gid' hlast)
      -- the entries of this group, which the walk enters with its first key
      have haccept : ∃ st', checkEntries (st.enter gid) (groupEntries gid (e :: l)) = .ok st' ∧
          st'.InGroup gid := checkEntries_of_block ((hblock gid).resolve_left hne)
      obtain ⟨st₁, hrun₁, hgroup₁⟩ := haccept
      rw [hfront, ← checkEntries_enter hgid hother hold he, ← hfront] at hrun₁
      have hsplit := hl.eq_filter_append he
      have hpos := List.length_pos_iff.mpr hne
      have hlength : (e :: l).length = (groupEntries gid (e :: l)).length +
          ((e :: l).filter fun x => !(groupPrefix gid).isPrefixOf x.1).length := by
        rw [← List.length_append]
        exact congrArg List.length hsplit
      -- the other groups, in a state in which this one is the last
      have hrest : ∃ st', checkEntries st₁
          ((e :: l).filter fun x => !(groupPrefix gid).isPrefixOf x.1) = .ok st' := by
        refine ih _ ?_ (hl.filter _) (fun x hx => hgroup x (List.mem_of_mem_filter hx))
          (fun gid' => ?_) (Or.inr ⟨gid, hgroup₁.lastGroup⟩) (fun gid' hlast => ?_) rfl
        · omega
        · rw [groupEntries_filter_not]
          split
          · exact Or.inl rfl
          · exact hblock gid'
        · have hgid' : gid' = gid := by
            rw [hgroup₁.lastGroup] at hlast
            have hprefix : groupPrefix gid' <+: groupPrefix gid ++ [] := by simp [hlast]
            exact gid_eq_of_groupPrefix hprefix
          rw [groupEntries_filter_not, if_pos hgid']
      obtain ⟨st', hrun⟩ := hrest
      refine ⟨st', ?_⟩
      rw [hsplit, checkEntries_append]
      show (checkEntries st (groupEntries gid (e :: l)) >>= _) = _
      rw [hrun₁]
      exact hrun

end Groups

end Lockseq

end Traxos
