import Traxos.Lockseq.Grammar

/-! # The checker recognizes its grammar

`lockseq_model::check` accepts exactly the databases that `Conforms` describes, and otherwise
returns the first key up to which the entries do not conform (`check_exact`). The loop keeps
`Tracks`: the entries that it has passed conform, and its local variables are those of a `Reading`
of the group that it stands in. One entry either keeps that or is one behind which no database
conforms (`checkEntry_exact`). -/

namespace Traxos

namespace Lockseq

/-! ## Numbers -/

section Numbers

theorem isDigit_iff {c : Char} : c.isDigit = true ↔ ¬ (c < '0' ∨ '9' < c) := by
  simp only [Char.isDigit, Bool.and_eq_true, decide_eq_true_eq, not_or]
  exact and_congr UInt32.not_lt.symm UInt32.not_lt.symm

/-- Reading fails at a character that is no digit. -/
theorem parseDigitsLoop_of_not_digit {ds : Str} (h : ∃ c ∈ ds, ¬ c.isDigit = true) (v : ℕ) :
    parseDigitsLoop ds v = unsignedMinusOne := by
  induction ds generalizing v with
  | nil => simp at h
  | cons d ds ih =>
    rw [parseDigitsLoop]
    by_cases hd : d < '0' ∨ '9' < d
    · exact if_pos hd
    · rw [if_neg hd]
      obtain ⟨c, hmem, hc⟩ := h
      have hc' : c ∈ ds := by
        refine (List.mem_cons.mp hmem).resolve_left ?_
        rintro rfl
        exact hc (isDigit_iff.mpr hd)
      simp only [ih ⟨c, hc', hc⟩, ite_self]

/-- Up to nine digits do not overflow, so reading fails exactly when not all are digits. -/
theorem parseDigitsLoop_ne_iff {ds : Str} (hlen : ds.length ≤ 9) :
    parseDigitsLoop ds 0 ≠ unsignedMinusOne ↔ ∀ c ∈ ds, c.isDigit = true := by
  constructor
  · intro h c hc
    by_contra hnot
    exact h (parseDigitsLoop_of_not_digit ⟨c, hc, hnot⟩ 0)
  · intro hds
    have hlt := (ofDigitChars_lt hds 0).2
    have hpow : 10 ^ ds.length ≤ 10 ^ 9 := Nat.pow_le_pow_right (by decide) hlen
    have hfit : Nat.ofDigitChars 10 ds 0 < 2 ^ 32 - 1 := by omega
    rw [parseDigitsLoop_eq hds (by omega), unsignedMinusOne]
    omega

/-- The number behind the first character, when the string up to the slash is `p`. -/
theorem parseDigits_group (c : Char) {ds : Str} (hlen : ds.length ≤ 9) (l : Str) :
    parseDigits (c :: ds ++ l) 1 (c :: ds).length ≠ unsignedMinusOne ↔
      ds ≠ [] ∧ ∀ c ∈ ds, c.isDigit = true := by
  have hslice : ((c :: ds ++ l).take (c :: ds).length).drop 1 = ds := by
    rw [List.take_left']
    · rfl
    · rfl
  rw [parseDigits, hslice]
  cases ds with
  | nil => simp
  | cons d ds =>
    rw [if_neg (by simp), parseDigitsLoop_ne_iff hlen]
    simp

end Numbers

/-! ## Entering a group -/

/-- The loop stands in the group `p`, of which it has passed what `f` has. -/
structure Within (p : Str) (f : Str → Option Str) (st : CheckState) : Prop where
  isGroup : IsGroup p
  lastGroup : st.lastGroup = p ++ ['/']
  glen : st.glen = (p ++ ['/']).length
  reading : Reading (f (lockKey p)) (groupValues f p) st

/-- The loop has passed the entries `f`. -/
structure Tracks (f : Str → Option Str) (st : CheckState) : Prop where
  conforms : Conforms f
  standing : st.lastGroup = [] ∧ (∀ k, f k = none) ∨
    ∃ p b, Within p f st ∧ p ++ ['/'] <+: b ∧ (f b).isSome ∧
      ∀ k, (f k).isSome → k = b ∨ compare k b = .lt

section Step

variable {f : Str → Option Str} {st : CheckState} {p k l x : Str}

/-- A well-formed key has a group and four more characters. -/
theorem WellFormedKey.exists_append (h : WellFormedKey k) :
    ∃ p l, IsGroup p ∧ k = p ++ '/' :: l ∧ l.length = 4 := by
  cases h with
  | @lock p hp => exact ⟨p, _, hp, rfl, rfl⟩
  | @value p ds hp hlen => exact ⟨p, _, hp, rfl, by simp [hlen]⟩

/-- Nothing has been passed of a group that the loop does not stand in. -/
theorem Tracks.eq_none_of_new (h : Tracks f st) (hp : IsGroup p)
    (hlast : ∀ k', (f k').isSome → compare k' k = .lt) (hk : p ++ ['/'] <+: k)
    (hnew : st.lastGroup = [] ∨ ¬ st.lastGroup <+: k) {k' : Str} (hk' : p ++ ['/'] <+: k') :
    f k' = none := by
  rcases h.standing with ⟨-, hnone⟩ | ⟨q, b, hwithin, hqb, hb, hmax⟩
  · exact hnone k'
  · by_contra hsome
    rw [← ne_eq, ← Option.isSome_iff_ne_none] at hsome
    have hqk : ¬ q ++ ['/'] <+: k := by
      rw [hwithin.lastGroup] at hnew
      exact hnew.resolve_left (by simp)
    -- the last key passed lies between two keys of the group `p`, so it is of that group too
    have hpb : p ++ ['/'] <+: b := by
      rcases hmax k' hsome with rfl | hlt
      · exact hk'
      · exact prefix_of_between hk' hk hlt (hlast b hb)
    have hpq := group_unique hp.not_mem_slash hwithin.isGroup.not_mem_slash hpb hqb
    rw [hpq] at hk
    exact hqk hk

/-- A group of which nothing has been passed. -/
theorem Within.of_new (hp : IsGroup p) (hnone : ∀ {k'}, p ++ ['/'] <+: k' → f k' = none)
    (hgroup : st.lastGroup = p ++ ['/']) (hglen : st.glen = (p ++ ['/']).length)
    (hstate : st.lockState = .unlocked) (hindex : st.expectedIndex = 0)
    (hvalue : st.expectedValue = []) : Within p f st := by
  refine ⟨hp, hgroup, hglen, ?_⟩
  rw [hnone (prefix_lockKey p)]
  refine .unlocked (m := 0) (x := []) (Or.inl rfl) (fun h => absurd rfl h) (fun n => ?_) hstate
    hindex (by rw [hvalue, if_pos rfl])
  rw [groupValues, hnone (prefix_valueKey p _), ite_self, run_eq_none.mpr (by omega)]

/-- What the search for the first slash finds. -/
theorem exists_append_of_findIdx? {i : ℕ} (h : k.findIdx? (· == '/') = some i) :
    ∃ p l, k = p ++ '/' :: l ∧ p.length = i ∧ '/' ∉ p := by
  obtain ⟨hi, hslash, hbefore⟩ := List.findIdx?_eq_some_iff_getElem.mp h
  refine ⟨k.take i, k.drop (i + 1), ?_, by simp; omega, fun hmem => ?_⟩
  · have hchar : k[i] = '/' := by simpa using hslash
    rw [← hchar, List.getElem_cons_drop, List.take_append_drop]
  · obtain ⟨j, hj, hjc⟩ := List.mem_iff_getElem.mp hmem
    rw [List.length_take] at hj
    have hnot := hbefore j (by omega)
    rw [List.getElem_take] at hjc
    simp [hjc] at hnot

theorem isGroup_cons_iff {ds : Str} :
    IsGroup ('g' :: ds) ↔ ds ≠ [] ∧ ∀ c ∈ ds, c.isDigit = true := by
  constructor
  · rintro ⟨ds', heq, hdigits⟩
    obtain rfl := (List.cons.inj heq).2
    exact hdigits
  · exact fun hdigits => ⟨ds, rfl, hdigits⟩

/-- A well-formed key passes the check of its start. -/
theorem WellFormedKey.start (h : WellFormedKey k) : ¬ (k.length < 3 ∨ k[0]? ≠ some 'g') := by
  obtain ⟨p, l, ⟨ds, rfl, -⟩, rfl, hl⟩ := h.exists_append
  rintro (hlen | hchar)
  · simp at hlen
    omega
  · exact hchar rfl

/-- What the check of the start and the search for a slash say of a key. -/
theorem exists_cons_of_slash {slash : ℕ} (hstart : ¬ (k.length < 3 ∨ k[0]? ≠ some 'g'))
    (hslash : k.findIdx? (· == '/') = some slash) :
    ∃ ds l, k = 'g' :: ds ++ '/' :: l ∧ slash = ('g' :: ds).length ∧ '/' ∉ 'g' :: ds := by
  obtain ⟨p, l, rfl, rfl, hp⟩ := exists_append_of_findIdx? hslash
  have hchar : (p ++ '/' :: l)[0]? = some 'g' := not_not.mp (not_or.mp hstart).2
  cases p with
  | nil => cases hchar
  | cons c ds =>
    obtain rfl : c = 'g' := Option.some.inj hchar
    exact ⟨ds, l, rfl, rfl, hp⟩

/-- **The check for a new group**: either the loop stands in the group of the key afterwards, or the
key is not well formed. -/
theorem enterGroup_exact (h : Tracks f st) (hlast : ∀ k', (f k').isSome → compare k' k = .lt)
    (hshort : ShortGroup k) :
    (∃ p st', p ++ ['/'] <+: k ∧ enterGroup st k = .ok st' ∧ Within p f st') ∨
      enterGroup st k = .error k ∧ ¬ WellFormedKey k := by
  by_cases hcond : st.lastGroup.isEmpty ∨ !st.lastGroup.isPrefixOf k
  · have hnew : st.lastGroup = [] ∨ ¬ st.lastGroup <+: k := by
      refine hcond.imp List.isEmpty_iff.mp fun hnot hprefix => ?_
      rw [List.isPrefixOf_iff_prefix.mpr hprefix] at hnot
      cases hnot
    rw [enterGroup, if_pos hcond]
    by_cases hstart : k.length < 3 ∨ k[0]? ≠ some 'g'
    · exact Or.inr ⟨if_pos hstart, fun hwf => hwf.start hstart⟩
    · rw [if_neg hstart]
      cases hslash : k.findIdx? (· == '/') with
      | none =>
        refine Or.inr ⟨rfl, fun hwf => ?_⟩
        obtain ⟨p, l, hp, rfl, -⟩ := hwf.exists_append
        rw [findIdx?_slash_append hp.not_mem_slash] at hslash
        cases hslash
      | some slash =>
        have hnine := hshort slash hslash
        obtain ⟨ds, l, rfl, rfl, hp⟩ := exists_cons_of_slash hstart hslash
        have hlen : ds.length ≤ 9 := by
          rw [List.length_cons] at hnine
          omega
        have hparse := parseDigits_group 'g' hlen ('/' :: l)
        have htake : ('g' :: ds ++ '/' :: l).take (('g' :: ds).length + 1) =
            'g' :: ds ++ ['/'] := by
          rw [show 'g' :: ds ++ '/' :: l = ('g' :: ds ++ ['/']) ++ l by simp, List.take_left']
          simp
        rw [← isGroup_cons_iff] at hparse
        simp only
        by_cases hgroup : IsGroup ('g' :: ds)
        · left
          have hprefix : 'g' :: ds ++ ['/'] <+: 'g' :: ds ++ '/' :: l := ⟨l, by simp⟩
          refine ⟨_, _, hprefix, if_neg (hparse.mpr hgroup), ?_⟩
          refine Within.of_new hgroup ?_ htake (by simp) rfl rfl rfl
          exact fun hk' => h.eq_none_of_new hgroup hlast hprefix hnew hk'
        · refine Or.inr ⟨if_pos (not_not.mp (mt hparse.mp hgroup)), fun hwf => ?_⟩
          obtain ⟨q, l', hq, heq, -⟩ := hwf.exists_append
          rw [(append_slash_inj hp hq.not_mem_slash heq).1] at hgroup
          exact hgroup hq
  · left
    rw [enterGroup, if_neg hcond]
    obtain ⟨hne, hprefix⟩ := not_or.mp hcond
    rcases h.standing with ⟨hempty, -⟩ | ⟨p, b, hwithin, -⟩
    · exact absurd (by rw [hempty]; rfl) hne
    · refine ⟨p, st, ?_, rfl, hwithin⟩
      rw [← hwithin.lastGroup, ← List.isPrefixOf_iff_prefix]
      simpa using hprefix

/-! ## One entry -/

/-- The checks of a key of the group that the loop stands in. -/
def checkMember (st : CheckState) (key value : Str) : Except Str CheckState :=
  if key.length = st.glen + 4 ∧ ['l', 'o', 'c', 'k'].isSuffixOf key then checkLock st key value
  else
    let vindex := parseDigits key (st.glen + 1) (st.glen + 4)
    if key.length ≠ st.glen + 4 ∨ key[st.glen]? ≠ some 'v' ∨ vindex = unsignedMinusOne ∨
        value.isEmpty then
      .error key
    else checkRun st key value vindex

theorem checkEntry_eq (st : CheckState) (key value : Str) :
    checkEntry st key value = enterGroup st key >>= fun st => checkMember st key value := rfl

/-- The form of a value key. -/
theorem valueForm_iff (pre l : Str) :
    ¬ ((pre ++ l).length ≠ pre.length + 4 ∨ (pre ++ l)[pre.length]? ≠ some 'v' ∨
        parseDigits (pre ++ l) (pre.length + 1) (pre.length + 4) = unsignedMinusOne) ↔
      ∃ ds, l = 'v' :: ds ∧ ds.length = 3 ∧ ∀ c ∈ ds, c.isDigit = true := by
  have hchar : (pre ++ l)[pre.length]? = l.head? := by
    rw [List.getElem?_append_right (Nat.le_refl _), Nat.sub_self, List.head?_eq_getElem?]
  rw [hchar, List.length_append]
  constructor
  · intro h
    obtain ⟨hlen, hv, hnumber⟩ : l.length = 4 ∧ l.head? = some 'v' ∧ _ := by
      simpa [not_or] using h
    cases l with
    | nil => cases hv
    | cons c ds =>
      obtain rfl := Option.some.inj hv
      have hthree : ds.length = 3 := Nat.succ.inj hlen
      rw [parseDigits_value hthree, ← ne_eq, parseDigitsLoop_ne_iff (by omega)] at hnumber
      exact ⟨ds, rfl, hthree, hnumber⟩
  · rintro ⟨ds, rfl, hlen, hds⟩ (h | h | h)
    · exact h (by rw [List.length_cons, hlen])
    · exact h rfl
    · rw [parseDigits_value hlen] at h
      exact (parseDigitsLoop_ne_iff (by omega)).mpr hds h

/-- The other groups are not concerned by an entry. -/
theorem Conforms.update (h : Conforms f) (hp : IsGroup p) (hk : p ++ ['/'] <+: k)
    (hwf : WellFormedKey k) (hx : ∀ ds, k = valueKey p ds → x ≠ [])
    (hgroup : GroupConforms (Function.update f k (some x) (lockKey p))
      (groupValues (Function.update f k (some x)) p)) :
    Conforms (Function.update f k (some x)) := by
  have hother : ∀ {q k'}, IsGroup q → q ≠ p → q ++ ['/'] <+: k' → k' ≠ k := by
    rintro q k' hq hne hqk' rfl
    exact hne (group_unique hq.not_mem_slash hp.not_mem_slash hqk' hk)
  constructor
  · intro k' hsome
    by_cases hk' : k' = k
    · rwa [hk']
    · rw [Function.update_of_ne hk'] at hsome
      exact h.key k' hsome
  · intro q ds hq
    by_cases hk' : valueKey q ds = k
    · have hqp : q = p := by
        by_contra hne
        exact hother hq hne (prefix_valueKey q ds) hk'
      rw [hk', Function.update_self]
      intro hnil
      exact hx ds (by rw [← hqp, hk']) (Option.some.inj hnil)
    · rw [Function.update_of_ne hk']
      exact h.value_ne q ds hq
  · intro q hq
    by_cases hqp : q = p
    · rwa [hqp]
    · have hvalues : groupValues (Function.update f k (some x)) q = groupValues f q := by
        funext i
        rw [groupValues, groupValues,
          Function.update_of_ne (hother hq hqp (prefix_valueKey q _))]
      rw [hvalues, Function.update_of_ne (hother hq hqp (prefix_lockKey q))]
      exact h.group q hq

/-- A new value of the group, seen by index. -/
theorem groupValues_update (f : Str → Option Str) (p x : Str) {i : ℕ} (hi : i < 1000) :
    groupValues (Function.update f (valueKey p (indexDigits i)) (some x)) p =
      Function.update (groupValues f p) i (some x) := by
  funext t
  by_cases ht : t = i
  · rw [ht, Function.update_self, groupValues, if_pos hi, Function.update_self]
  · have hne : valueKey p (indexDigits t) ≠ valueKey p (indexDigits i) := fun heq =>
      ht (valueKey_indexDigits_inj heq)
    rw [Function.update_of_ne ht, groupValues, groupValues, Function.update_of_ne hne]

/-- The checks of a key of the group find out whether the entries conform with it. -/
def Decides (p : Str) (f : Str → Option Str) (st : CheckState) (k x : Str) : Prop :=
  (∃ st', checkMember st k x = .ok st' ∧ Conforms (Function.update f k (some x)) ∧
      Within p (Function.update f k (some x)) st') ∨
    checkMember st k x = .error k ∧ ¬ Conforms (Function.update f k (some x))

/-- The lock of the group. -/
theorem Within.decides_lock (h : Within p f st) (hconforms : Conforms f)
    (hlast : ∀ k', (f k').isSome → compare k' (lockKey p) = .lt) :
    Decides p f st (lockKey p) x := by
  have hfresh : ∀ {k'}, compare k' (lockKey p) ≠ .lt → f k' = none := fun hnot =>
    Option.not_isSome_iff_eq_none.mp fun hsome => hnot (hlast _ hsome)
  have hcond : (lockKey p).length = st.glen + 4 ∧
      ['l', 'o', 'c', 'k'].isSuffixOf (lockKey p) = true := by
    rw [lockKey_eq, h.glen, List.isSuffixOf_iff_suffix]
    exact ⟨List.length_append, List.suffix_append _ _⟩
  have hvalues : groupValues (Function.update f (lockKey p) (some x)) p = groupValues f p := by
    funext i
    rw [groupValues, groupValues, Function.update_of_ne (lockKey_ne_valueKey p _).symm]
  -- the lock and the values come later in the order, so the group has neither yet
  have hreading := h.reading
  rw [hfresh (compare_self_ne_lt _)] at hreading
  have hnone : ∀ n, groupValues f p n = none := fun n => by
    have hgt := Std.OrientedCmp.gt_iff_lt.mpr (compare_lockKey p (indexDigits n))
    rw [groupValues, hfresh (by rw [hgt]; decide), ite_self]
  rw [Decides, checkMember, if_pos hcond]
  rcases hreading.lockEntry (z := x) (lockKey p) hnone with
    ⟨st', hok, hgroup, hglen, hread⟩ | ⟨herror, hnot⟩
  · left
    refine ⟨st', hok, ?_, h.isGroup, hgroup.trans h.lastGroup, hglen.trans h.glen, ?_⟩
    · refine hconforms.update h.isGroup (prefix_lockKey p) (.lock h.isGroup) (fun ds heq => ?_) ?_
      · exact absurd heq (lockKey_ne_valueKey p ds)
      · rw [Function.update_self, hvalues]
        exact hread.groupConforms
    · rwa [Function.update_self, hvalues]
  · refine Or.inr ⟨herror, fun hc => hnot ?_⟩
    have hgroup := hc.group p h.isGroup
    rwa [Function.update_self, hvalues] at hgroup

/-- A value of the group. -/
theorem Within.decides_value (h : Within p f st) (hconforms : Conforms f) {i : ℕ} (hi : i < 1000)
    (hlast : ∀ k', (f k').isSome → compare k' (valueKey p (indexDigits i)) = .lt) :
    Decides p f st (valueKey p (indexDigits i)) x := by
  have hlen := length_indexDigits hi
  have hindex : parseDigits (valueKey p (indexDigits i)) (st.glen + 1) (st.glen + 4) = i := by
    rw [valueKey_eq, h.glen, parseDigits_value hlen,
      parseDigitsLoop_eq isDigit_of_mem_indexDigits, ofDigitChars_indexDigits]
    rw [ofDigitChars_indexDigits]
    omega
  have hnotLock : ¬ ((valueKey p (indexDigits i)).length = st.glen + 4 ∧
      ['l', 'o', 'c', 'k'].isSuffixOf (valueKey p (indexDigits i)) = true) := by
    rw [valueKey_eq, h.glen]
    exact not_lock_of_ne (by simp)
  have hform := (valueForm_iff (p ++ ['/']) _).mpr
    ⟨indexDigits i, rfl, hlen, isDigit_of_mem_indexDigits⟩
  rw [← valueKey_eq, ← h.glen] at hform
  rw [Decides, checkMember, if_neg hnotLock]
  by_cases hx : x = []
  · subst hx
    refine Or.inr ⟨if_pos (Or.inr (Or.inr (Or.inr rfl))), fun hc => ?_⟩
    exact hc.value_ne p (indexDigits i) h.isGroup (Function.update_self _ _ _)
  · have hcond : ¬ ((valueKey p (indexDigits i)).length ≠ st.glen + 4 ∨
        (valueKey p (indexDigits i))[st.glen]? ≠ some 'v' ∨
        parseDigits (valueKey p (indexDigits i)) (st.glen + 1) (st.glen + 4) =
          unsignedMinusOne ∨ x.isEmpty = true) := by
      rintro (hbad | hbad | hbad | hbad)
      · exact hform (Or.inl hbad)
      · exact hform (Or.inr (Or.inl hbad))
      · exact hform (Or.inr (Or.inr hbad))
      · exact hx (List.isEmpty_iff.mp hbad)
    have hlockKey : Function.update f (valueKey p (indexDigits i)) (some x) (lockKey p) =
        f (lockKey p) := Function.update_of_ne (lockKey_ne_valueKey p _) _ _
    have hbelow : ∀ t, (groupValues f p t).isSome → t < i := by
      intro t hsome
      rw [groupValues] at hsome
      split at hsome
      · rename_i ht
        exact (compare_valueKey_iff ht hi).mp (hlast _ hsome)
      · cases hsome
    simp only
    rw [if_neg hcond, hindex]
    rcases h.reading.next (valueKey p (indexDigits i)) hx hi hbelow with
      ⟨st', hrun, hgroup, hglen, hread⟩ | ⟨herror, hnot⟩
    · left
      rw [← groupValues_update f p x hi, ← hlockKey] at hread
      refine ⟨st', hrun, ?_, h.isGroup, hgroup.trans h.lastGroup, hglen.trans h.glen, hread⟩
      refine hconforms.update h.isGroup (prefix_valueKey p _)
        (.value h.isGroup hlen isDigit_of_mem_indexDigits) (fun _ _ => hx) ?_
      exact hread.groupConforms
    · refine Or.inr ⟨herror, fun hc => hnot ?_⟩
      have hgroup := hc.group p h.isGroup
      rwa [groupValues_update f p x hi, hlockKey] at hgroup

/-- **A key of the group**: either the entries go on to conform, or they do not from here on. -/
theorem Within.decides (h : Within p f st) (hconforms : Conforms f)
    (hlast : ∀ k', (f k').isSome → compare k' k = .lt) (hk : p ++ ['/'] <+: k) :
    Decides p f st k x := by
  obtain ⟨l, rfl⟩ := hk
  by_cases hlock : l = ['l', 'o', 'c', 'k']
  · rw [hlock, ← lockKey_eq] at hlast ⊢
    exact h.decides_lock hconforms hlast
  · by_cases hvalue : ∃ ds, l = 'v' :: ds ∧ ds.length = 3 ∧ ∀ c ∈ ds, c.isDigit = true
    · obtain ⟨ds, rfl, hlen, hds⟩ := hvalue
      obtain ⟨hi, hdigits⟩ := indexDigits_ofDigitChars hlen hds
      rw [← valueKey_eq, ← hdigits] at hlast ⊢
      exact h.decides_value hconforms hi hlast
    · -- the key is not well formed
      have herror := not_not.mp (mt (valueForm_iff (p ++ ['/']) l).mp hvalue)
      rw [Decides, checkMember, h.glen, if_neg (not_lock_of_ne hlock)]
      refine Or.inr ⟨if_pos ?_, fun hc => ?_⟩
      · exact herror.imp id fun hbad => hbad.imp id Or.inl
      · have hkey := hc.key (p ++ ['/'] ++ l) (by rw [Function.update_self]; rfl)
        exact ((wellFormedKey_append_iff h.isGroup).mp hkey).elim hlock hvalue

/-- **One entry**: either the loop goes on to track what it has passed, or the entries do not
conform with this one. -/
theorem checkEntry_exact (h : Tracks f st) (hlast : ∀ k', (f k').isSome → compare k' k = .lt)
    (hshort : ShortGroup k) :
    (∃ st', checkEntry st k x = .ok st' ∧ Tracks (Function.update f k (some x)) st') ∨
      checkEntry st k x = .error k ∧ ¬ Conforms (Function.update f k (some x)) := by
  rw [checkEntry_eq]
  rcases enterGroup_exact h hlast hshort with ⟨p, st₁, hk, henter, hwithin⟩ | ⟨herror, hnot⟩
  · rw [henter]
    rcases hwithin.decides h.conforms hlast hk with ⟨st', hok, hconforms, hwithin'⟩ | hbad
    · refine Or.inl ⟨st', hok, hconforms, Or.inr ⟨p, k, hwithin', hk, ?_, fun k' hsome => ?_⟩⟩
      · rw [Function.update_self]
        rfl
      · by_cases hk' : k' = k
        · exact Or.inl hk'
        · rw [Function.update_of_ne hk'] at hsome
          exact Or.inr (hlast k' hsome)
    · exact Or.inr hbad
  · rw [herror]
    refine Or.inr ⟨rfl, fun hc => hnot ?_⟩
    exact hc.key k (by rw [Function.update_self]; rfl)

end Step

/-! ## The loop -/

section Loop

variable {l : List (Str × Str)} {e : Str × Str} {k : Str}

/-- All values of a list lie below a key that can follow it. -/
theorem lt_of_valueAt_append (h : Increasing (l ++ [e])) (hk : (valueAt l k).isSome) :
    compare k e.1 = .lt := by
  obtain ⟨y, hy⟩ := Option.isSome_iff_exists.mp hk
  exact (List.pairwise_append.mp h).2.2 _ (mem_of_valueAt hy) e List.mem_cons_self

/-- The entry that follows a list adds its value. -/
theorem valueAt_append_singleton (h : Increasing (l ++ [e])) :
    valueAt (l ++ [e]) = Function.update (valueAt l) e.1 (some e.2) := by
  funext k
  rw [valueAt_append]
  by_cases hk : k = e.1
  · subst hk
    have hnone : valueAt l e.1 = none := Option.not_isSome_iff_eq_none.mp fun hsome =>
      compare_self_ne_lt _ (lt_of_valueAt_append h hsome)
    rw [hnone, Option.none_or, Function.update_self]
    exact valueAt_cons_self e.1 e.2 []
  · rw [Function.update_of_ne hk, show valueAt [e] k = none from valueAt_cons_of_ne hk e.2 [],
      Option.or_none]

/-- Nothing has been passed in the initial state. -/
theorem tracks_nil : Tracks (valueAt []) {} := by
  refine ⟨⟨fun k hk => ?_, fun p ds _ h => ?_, fun p _ => ?_⟩, Or.inl ⟨rfl, fun _ => rfl⟩⟩
  · cases hk
  · cases h
  · refine .unlocked (Or.inl rfl) 0 [] fun n => ?_
    rw [groupValues, valueAt_nil, ite_self, run_eq_none.mpr (by omega)]

/-- **The loop** either tracks all entries, or it stops at the first entry that those before it do
not conform with. -/
theorem checkEntries_exact (hl : Increasing l) (hshort : ∀ e ∈ l, ShortGroup e.1) :
    (∃ st, checkEntries {} l = .ok st ∧ Tracks (valueAt l) st) ∨
      ∃ a e b, l = a ++ e :: b ∧ checkEntries {} l = .error e.1 ∧ Conforms (valueAt a) ∧
        ¬ Conforms (valueAt (a ++ [e])) := by
  -- by induction from the back: what has been passed before the last entry is tracked already
  induction l using List.reverseRecOn with
  | nil => exact Or.inl ⟨{}, rfl, tracks_nil⟩
  | append_singleton l e ih =>
    have hshort' : ∀ e ∈ l, ShortGroup e.1 := fun x hx => hshort x (List.mem_append_left _ hx)
    rw [checkEntries_append]
    rcases ih (List.pairwise_append.mp hl).1 hshort' with ⟨st, hok, htracks⟩ |
        ⟨a, e', b, rfl, herror, hconforms, hnot⟩
    · rw [hok]
      have hstep := checkEntry_exact (x := e.2) htracks (fun k' hk' => lt_of_valueAt_append hl hk')
        (hshort e (List.mem_append_right _ List.mem_cons_self))
      rw [← valueAt_append_singleton hl] at hstep
      have hrun : ∀ st, checkEntries st [e] = checkEntry st e.1 e.2 := fun st => by
        rw [checkEntries, List.foldlM_cons]
        cases checkEntry st e.1 e.2 <;> rfl
      show (∃ st', checkEntries st [e] = .ok st' ∧ _) ∨ _
      rw [hrun]
      rcases hstep with hok' | ⟨herror, hnot⟩
      · exact Or.inl hok'
      · refine Or.inr ⟨l, e, [], rfl, ?_, htracks.conforms, hnot⟩
        show checkEntries st [e] = .error e.1
        rw [hrun, herror]
    · refine Or.inr ⟨a, e', b ++ [e], by simp, ?_, hconforms, hnot⟩
      rw [herror]
      rfl

end Loop

/-! ## Parts of a database -/

section UpTo

variable {f : Str → Option Str} {k : Str}

/-- A condition that goes over to smaller numbers holds up to some number. -/
theorem exists_cut {P : ℕ → Prop} {b : ℕ} (hP : ∀ {i j}, i < j → j < b → P j → P i) :
    ∃ c, ∀ n < b, P n ↔ n < c := by
  induction b with
  | zero => exact ⟨0, fun n hn => absurd hn (Nat.not_lt_zero n)⟩
  | succ b ih =>
    by_cases hb : P b
    · refine ⟨b + 1, fun n hn => ⟨fun _ => hn, fun _ => ?_⟩⟩
      rcases Nat.lt_succ_iff_lt_or_eq.mp hn with hlt | rfl
      · exact hP hlt (Nat.lt_succ_self b) hb
      · exact hb
    · obtain ⟨c, hc⟩ := ih fun hij hj => hP hij (Nat.lt_succ_of_lt hj)
      refine ⟨min c b, fun n hn => ?_⟩
      rcases Nat.lt_succ_iff_lt_or_eq.mp hn with hlt | rfl
      · rw [hc n hlt]
        omega
      · exact ⟨fun h => absurd h hb, fun h => by omega⟩

/-- The first values of a group are well formed with its lock. -/
theorem GroupConforms.cut {lock : Option Str} {values : ℕ → Option Str}
    (h : GroupConforms lock values) (c : ℕ) :
    GroupConforms lock fun n => if n < c then values n else none := by
  cases h with
  | unlocked hlock m x hvalues =>
    refine .unlocked hlock (min m c) x fun n => ?_
    have hiff : 0 ≤ n ∧ n < min m c ↔ n < c ∧ (0 ≤ n ∧ n < m) := by omega
    simp only [hvalues, run, hiff, ite_and]
  | locked hx i j e y hij hvalues =>
    refine .locked hx (min i c) j (min e c) y (by omega) fun n => ?_
    have hfirst : 0 ≤ n ∧ n < min i c ↔ n < c ∧ (0 ≤ n ∧ n < i) := by omega
    have hsecond : j ≤ n ∧ n < min e c ↔ n < c ∧ (j ≤ n ∧ n < e) := by omega
    simp only [hvalues, run, hfirst, hsecond, ite_and]
    split <;> simp

/-- **A part of a database that conforms**, up to any key, conforms. -/
theorem Conforms.upTo (h : Conforms f) (k : Str) : Conforms (upTo f k) := by
  have hsub : ∀ {k' x}, Lockseq.upTo f k k' = some x → f k' = some x := by
    intro k' x hk'
    rw [Lockseq.upTo] at hk'
    split at hk'
    · cases hk'
    · exact hk'
  constructor
  · intro k' hsome
    obtain ⟨x, hx⟩ := Option.isSome_iff_exists.mp hsome
    exact h.key k' (by rw [hsub hx]; rfl)
  · exact fun p ds hp hnil => h.value_ne p ds hp (hsub hnil)
  · intro p hp
    by_cases hlock : compare (lockKey p) k = .gt
    · -- the values come behind the lock
      have hnone : ∀ n, groupValues (Lockseq.upTo f k) p n = run [] 0 0 n := by
        intro n
        have hgt : compare (valueKey p (indexDigits n)) k = .gt :=
          Std.TransCmp.gt_trans (Std.OrientedCmp.gt_iff_lt.mpr (compare_lockKey p _)) hlock
        rw [groupValues, Lockseq.upTo, if_pos hgt, ite_self, run_eq_none.mpr (by omega)]
      rw [Lockseq.upTo, if_pos hlock]
      exact .unlocked (Or.inl rfl) 0 [] hnone
    · obtain ⟨c, hc⟩ := exists_cut (P := fun n => ¬ compare (valueKey p (indexDigits n)) k = .gt)
        (b := 1000) fun hij hj hle hgt => hle (Std.TransCmp.gt_trans
          (Std.OrientedCmp.gt_iff_lt.mpr ((compare_valueKey_iff (by omega) hj).mpr hij)) hgt)
      have hvalues : groupValues (Lockseq.upTo f k) p =
          fun n => if n < c then groupValues f p n else none := by
        funext n
        rw [groupValues, groupValues, Lockseq.upTo]
        by_cases hn : n < 1000
        · rw [if_pos hn, if_pos hn]
          have hiff := hc n hn
          by_cases hcut : n < c
          · rw [if_neg (hiff.mpr hcut), if_pos hcut]
          · rw [if_pos (not_not.mp (mt hiff.mp hcut)), if_neg hcut]
        · rw [if_neg hn, if_neg hn, ite_self]
      rw [hvalues, Lockseq.upTo, if_neg hlock]
      exact (h.group p hp).cut c

end UpTo

/-! ## The checker -/

/-- Up to its first key that is not accepted a list has the entries before it and that one. -/
theorem upTo_valueAt {a b : List (Str × Str)} {e : Str × Str} (h : Increasing (a ++ e :: b)) :
    upTo (valueAt (a ++ e :: b)) e.1 = valueAt (a ++ [e]) := by
  have hsplit : a ++ e :: b = (a ++ [e]) ++ b := by simp
  rw [hsplit] at h ⊢
  obtain ⟨ha, -, hab⟩ := List.pairwise_append.mp h
  funext k
  rw [upTo, valueAt_append (a ++ [e])]
  split
  · rename_i hgt
    refine (Option.not_isSome_iff_eq_none.mp fun hsome => ?_).symm
    obtain ⟨y, hy⟩ := Option.isSome_iff_exists.mp hsome
    rcases List.mem_append.mp (mem_of_valueAt hy) with hmem | hmem
    · have hlt := (List.pairwise_append.mp ha).2.2 _ hmem e List.mem_cons_self
      rw [hgt] at hlt
      cases hlt
    · rw [← List.mem_singleton.mp hmem] at hgt
      simp at hgt
  · rename_i hle
    have hnone : valueAt b k = none := Option.not_isSome_iff_eq_none.mp fun hsome => by
      obtain ⟨y, hy⟩ := Option.isSome_iff_exists.mp hsome
      have hlt := hab e (List.mem_append_right _ List.mem_cons_self) _ (mem_of_valueAt hy)
      exact hle (Std.OrientedCmp.gt_iff_lt.mpr hlt)
    rw [hnone, Option.or_none]

/-- Below its first key that is not accepted a list has only the entries before it. -/
theorem upTo_valueAt_of_lt {a b : List (Str × Str)} {e : Str × Str}
    (h : Increasing (a ++ e :: b)) {k : Str} (hk : compare k e.1 = .lt) :
    upTo (valueAt (a ++ e :: b)) k = upTo (valueAt a) k := by
  have hrest : Increasing (e :: b) := (List.pairwise_append.mp h).2.1
  funext k'
  rw [upTo, upTo]
  split
  · rfl
  · rename_i hle
    have hlt : compare k' e.1 = .lt := by
      cases hcmp : compare k' k with
      | lt => exact Std.TransCmp.lt_trans hcmp hk
      | eq => rwa [Std.LawfulEqCmp.compare_eq_iff_eq.mp hcmp]
      | gt => exact absurd hcmp hle
    rw [valueAt_append, valueAt_eq_none_of_lt hrest hlt, Option.or_none]

/-- What a database has, as a function from keys to values. -/
def contents (db : Pancydb) (k : Str) : Option Str := (db.db[k]?).map (·.value)

theorem valueAt_entries (db : Pancydb) : valueAt (entries db) = contents db := by
  funext k
  rw [entries, valueAt_map, Pancydb.valueAt_toList, contents]

/-- **The checker is exact.** It accepts a database, whose group numbers fit, exactly when it
conforms; otherwise it returns the least key up to which the entries do not conform. -/
theorem check_exact (db : Pancydb) (hshort : ∀ k, (contents db k).isSome → ShortGroup k) :
    (check db = none ↔ Conforms (contents db)) ∧
      ∀ k, check db = some k → (contents db k).isSome ∧ ¬ Conforms (upTo (contents db) k) ∧
        ∀ k', compare k' k = .lt → Conforms (upTo (contents db) k') := by
  have hl := increasing_entries db
  rw [← valueAt_entries] at hshort ⊢
  have hkeys : ∀ e ∈ entries db, ShortGroup e.1 := fun e he => by
    obtain ⟨y, hy⟩ := exists_valueAt_of_mem (show (e.1, e.2) ∈ entries db from he)
    exact hshort e.1 (by rw [hy]; rfl)
  rcases checkEntries_exact hl hkeys with ⟨st, hok, htracks⟩ | ⟨a, e, b, heq, herror, ha, hnot⟩
  · have hnone : check db = none := by rw [check_eq, hok]
    exact ⟨⟨fun _ => htracks.conforms, fun _ => hnone⟩, fun k hk => by rw [hnone] at hk; cases hk⟩
  · have hsome : check db = some e.1 := by rw [check_eq, herror]
    rw [heq] at hl ⊢
    have hbad : ¬ Conforms (upTo (valueAt (a ++ e :: b)) e.1) := by rwa [upTo_valueAt hl]
    constructor
    · constructor
      · intro hnone
        rw [hsome] at hnone
        cases hnone
      · exact fun hconforms => absurd (hconforms.upTo e.1) hbad
    · intro k hk
      obtain rfl : e.1 = k := Option.some.inj (hsome.symm.trans hk)
      refine ⟨?_, hbad, fun k' hlt => ?_⟩
      · obtain ⟨y, hy⟩ := exists_valueAt_of_mem
          (show (e.1, e.2) ∈ a ++ e :: b from List.mem_append_right _ List.mem_cons_self)
        rw [hy]
        rfl
      · rw [upTo_valueAt_of_lt hl hlt]
        exact ha.upTo k'

/-- A group with an empty lock, whose first value is missing. -/
theorem check_exact_missing :
    ∃ db : Pancydb, check db = some (valueKey ['g', '1'] (indexDigits 1)) ∧
      ¬ Conforms (upTo (contents db) (valueKey ['g', '1'] (indexDigits 1))) ∧
        Conforms (upTo (contents db) (lockKey ['g', '1'])) := by
  let lock := lockKey ['g', '1']
  let value := valueKey ['g', '1'] (indexDigits 1)
  let db : Pancydb := { db := ((∅ : MapType).insert lock ⟨[], 1⟩).insert value ⟨['x'], 2⟩ }
  have hcheck : check db = some value := by decide
  have hshort : ∀ k, (contents db k).isSome → ShortGroup k := by
    intro k hk i hi
    rw [contents, show db.db = (((∅ : MapType).insert lock ⟨[], 1⟩).insert value ⟨['x'], 2⟩) from rfl,
      MapType.getElem?_insert, MapType.getElem?_insert] at hk
    have hkey : k = lock ∨ k = value := by
      by_contra hne
      obtain ⟨h₁, h₂⟩ := not_or.mp hne
      simp [h₁, h₂] at hk
    have hslash : k.findIdx? (· == '/') = some 2 := by
      rcases hkey with rfl | rfl <;> decide
    rw [hslash] at hi
    rw [← Option.some.inj hi]
    decide
  obtain ⟨-, hreject, hbelow⟩ := (check_exact db hshort).2 _ hcheck
  exact ⟨db, hcheck, hreject, hbelow _ (by decide)⟩

end Lockseq

end Traxos
