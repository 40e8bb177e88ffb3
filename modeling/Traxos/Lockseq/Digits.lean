import Traxos.Lockseq.Check

/-! # Numbers in keys

`parse_digits` accumulates in 32-bit arithmetic and takes a number that becomes smaller when a digit
is read for one that does not fit. But a number that wraps around may as well become larger; which
ranges are read wrongly is said by the residues that the loop goes through (`WrapsUnnoticed`). -/

namespace Traxos

namespace Lockseq

/-- The range `s[from..to)`. -/
def digitRange (s : Str) (from' to' : ℕ) : Str := (s.take to').drop from'

/-- What `parse_digits` is to return: the value of a non-empty range of digits when it is less than
`unsigned(-1)`, and else `unsigned(-1)`. -/
def digitsValue (s : Str) (from' to' : ℕ) : ℕ :=
  let ds := digitRange s from' to'
  if from' < to' ∧ ds.all Char.isDigit ∧ Nat.ofDigitChars 10 ds 0 < unsignedMinusOne then
    Nat.ofDigitChars 10 ds 0
  else unsignedMinusOne

/-- What is left of a number in 32 bits after it has been read on. -/
def residue (ds : Str) (v : ℕ) : ℕ := Nat.ofDigitChars 10 ds v % 2 ^ 32

/-- The residues never become smaller while the digits are read on from `v`. -/
def Nondecreasing (ds : Str) (v : ℕ) : Prop :=
  ∀ j < ds.length, residue (ds.take j) v ≤ residue (ds.take (j + 1)) v

instance (ds : Str) (v : ℕ) : Decidable (Nondecreasing ds v) := Nat.decidableBallLT _ _

/-- A number that does not fit, though its residues never become smaller, nor end up in
`unsigned(-1)`. -/
def WrapsUnnoticed (ds : Str) : Prop :=
  (∀ c ∈ ds, c.isDigit = true) ∧ 2 ^ 32 ≤ Nat.ofDigitChars 10 ds 0 ∧ Nondecreasing ds 0 ∧
    residue ds 0 ≠ unsignedMinusOne

section Digits

variable {ds : Str} {c : Char} {v : ℕ}

theorem residue_cons (c : Char) (ds : Str) (v : ℕ) :
    residue (c :: ds) v = residue ds (10 * v + (c.toNat - '0'.toNat)) := by
  rw [residue, Nat.ofDigitChars_cons, residue]

theorem residue_nil (v : ℕ) : residue [] v = v % 2 ^ 32 := by
  rw [residue, Nat.ofDigitChars_nil]

theorem nondecreasing_nil (v : ℕ) : Nondecreasing [] v := fun j hj => absurd hj (Nat.not_lt_zero j)

theorem nondecreasing_cons : Nondecreasing (c :: ds) v ↔
    v % 2 ^ 32 ≤ (10 * v + (c.toNat - '0'.toNat)) % 2 ^ 32 ∧
      Nondecreasing ds (10 * v + (c.toNat - '0'.toNat)) := by
  have hfirst : residue ((c :: ds).take 0) v = v % 2 ^ 32 := residue_nil v
  have hnext : ∀ j, residue ((c :: ds).take (j + 1)) v =
      residue (ds.take j) (10 * v + (c.toNat - '0'.toNat)) := fun j => by
    rw [List.take_succ_cons, residue_cons]
  constructor
  · intro h
    constructor
    · have hzero := h 0 (Nat.succ_pos _)
      rwa [hfirst, hnext, List.take_zero, residue_nil] at hzero
    · intro j hj
      have hsucc := h (j + 1) (Nat.succ_lt_succ hj)
      rwa [hnext, hnext] at hsucc
  · rintro ⟨hle, h⟩ j hj
    cases j with
    | zero => rwa [hfirst, hnext, List.take_zero, residue_nil]
    | succ j =>
      rw [hnext, hnext]
      exact h j (Nat.lt_of_succ_lt_succ hj)

/-- The test for a digit. -/
theorem not_isDigit_iff : (c < '0' ∨ '9' < c) ↔ c.isDigit = false := by
  rw [← Bool.not_eq_true, Char.isDigit_iff_toNat]
  have hlow : c < '0' ↔ c.toNat < '0'.toNat := Iff.rfl
  have hhigh : '9' < c ↔ '9'.toNat < c.toNat := Iff.rfl
  rw [hlow, hhigh]
  omega

/-- One turn of the loop. -/
theorem parseDigitsLoop_cons (hc : c.isDigit = true) (ds : Str) (v : ℕ) :
    parseDigitsLoop (c :: ds) (v % 2 ^ 32) =
      if (10 * v + (c.toNat - '0'.toNat)) % 2 ^ 32 < v % 2 ^ 32 then unsignedMinusOne
      else parseDigitsLoop ds ((10 * v + (c.toNat - '0'.toNat)) % 2 ^ 32) := by
  have hnot : ¬ (c < '0' ∨ '9' < c) := by
    rw [not_isDigit_iff, hc]
    exact Bool.noConfusion
  have hlow := (Char.isDigit_iff_toNat.mp hc).1
  have hread : (v % 2 ^ 32 * 10 + c.toNat - '0'.toNat) % 2 ^ 32 =
      (10 * v + (c.toNat - '0'.toNat)) % 2 ^ 32 := by omega
  rw [parseDigitsLoop, if_neg hnot]
  simp only [hread]

/-- **What the loop reads**: the residue of the number, unless a residue becomes smaller. -/
theorem parseDigitsLoop_residue (hds : ∀ c ∈ ds, c.isDigit = true) (v : ℕ) :
    parseDigitsLoop ds (v % 2 ^ 32) =
      if Nondecreasing ds v then residue ds v else unsignedMinusOne := by
  induction ds generalizing v with
  | nil =>
    rw [if_pos (nondecreasing_nil v), residue_nil]
    rfl
  | cons c ds ih =>
    obtain ⟨hc, hds⟩ := List.forall_mem_cons.mp hds
    rw [parseDigitsLoop_cons hc, ih hds, residue_cons]
    by_cases hless : (10 * v + (c.toNat - '0'.toNat)) % 2 ^ 32 < v % 2 ^ 32
    · rw [if_pos hless, if_neg]
      rw [nondecreasing_cons]
      exact fun h => Nat.not_le.mpr hless h.1
    · rw [if_neg hless]
      simp only [nondecreasing_cons, Nat.not_lt.mp hless, true_and]

/-- A character that is no digit is an error. -/
theorem parseDigitsLoop_of_not_isDigit (hds : ¬ ∀ c ∈ ds, c.isDigit = true) (v : ℕ) :
    parseDigitsLoop ds v = unsignedMinusOne := by
  induction ds generalizing v with
  | nil => exact absurd (fun c hc => nomatch hc) hds
  | cons c ds ih =>
    rw [parseDigitsLoop]
    by_cases hc : c.isDigit = true
    · split
      · rfl
      · simp only
        split
        · rfl
        · exact ih (fun h => hds (List.forall_mem_cons.mpr ⟨hc, h⟩)) _
    · rw [if_pos (not_isDigit_iff.mpr (Bool.eq_false_iff.mpr hc))]

end Digits

/-- A number that fits is read; the largest one is `unsigned(-1)` itself. -/
theorem digitsValue_of_lt {s : Str} {from' to' : ℕ} (hlt : from' < to')
    (hds : ∀ c ∈ digitRange s from' to', c.isDigit = true)
    (hfit : Nat.ofDigitChars 10 (digitRange s from' to') 0 < 2 ^ 32) :
    digitsValue s from' to' = Nat.ofDigitChars 10 (digitRange s from' to') 0 := by
  rw [digitsValue]
  split
  · rfl
  · rename_i hnot
    by_contra hne
    exact hnot ⟨hlt, List.all_eq_true.mpr hds,
      Nat.lt_of_le_of_ne (Nat.le_sub_one_of_lt hfit) (Ne.symm hne)⟩

theorem digitsValue_of_not_lt {s : Str} {from' to' : ℕ}
    (hfit : ¬ Nat.ofDigitChars 10 (digitRange s from' to') 0 < 2 ^ 32) :
    digitsValue s from' to' = unsignedMinusOne := by
  rw [digitsValue, if_neg]
  exact fun h => hfit (Nat.lt_of_lt_of_le h.2.2 (Nat.sub_le _ _))

/-- **When `parse_digits` is exact**: except on the ranges that wrap around unnoticed. -/
theorem parse_digits_exact_iff (s : Str) (from' to' : ℕ) :
    parseDigits s from' to' = digitsValue s from' to' ↔
      ¬ (from' < to' ∧ WrapsUnnoticed (digitRange s from' to')) := by
  rw [parseDigits, ← digitRange]
  by_cases hempty : to' ≤ from'
  · rw [if_pos hempty, digitsValue, if_neg fun h => Nat.not_lt.mpr hempty h.1, eq_self, true_iff]
    exact fun h => Nat.not_lt.mpr hempty h.1
  rw [if_neg hempty]
  have hlt : from' < to' := Nat.not_le.mp hempty
  by_cases hds : ∀ c ∈ digitRange s from' to', c.isDigit = true
  swap
  · rw [parseDigitsLoop_of_not_isDigit hds, digitsValue,
      if_neg fun h => hds (List.all_eq_true.mp h.2.1), eq_self, true_iff]
    exact fun h => hds h.2.1
  by_cases hfit : Nat.ofDigitChars 10 (digitRange s from' to') 0 < 2 ^ 32
  · rw [parseDigitsLoop_eq hds hfit, digitsValue_of_lt hlt hds hfit, eq_self, true_iff]
    exact fun h => Nat.not_le.mpr hfit h.2.2.1
  · -- it does not fit, so anything but an error is wrong
    have hloop := parseDigitsLoop_residue hds 0
    rw [Nat.zero_mod] at hloop
    rw [digitsValue_of_not_lt hfit, hloop, WrapsUnnoticed]
    have hbig := Nat.not_lt.mp hfit
    by_cases hnotice : Nondecreasing (digitRange s from' to') 0
    · rw [if_pos hnotice]
      constructor
      · exact fun heq h => h.2.2.2.2 heq
      · intro h
        by_contra hne
        exact h ⟨hlt, hds, hbig, hnotice, hne⟩
    · rw [if_neg hnotice, eq_self, true_iff]
      exact fun h => hnotice h.2.2.2.1

/-- **Five billion is read** as a number that fits. -/
theorem parse_digits_wraps_unnoticed : ¬ ∀ (s : Str) (from' to' : ℕ), to' ≤ s.length →
    parseDigits s from' to' = digitsValue s from' to' := by
  intro hclaim
  have hread : parseDigits "g5000000000/lock".toList 1 11 = 705032704 := by decide
  have hvalue : digitsValue "g5000000000/lock".toList 1 11 = unsignedMinusOne :=
    digitsValue_of_not_lt (by decide)
  have hexact := hclaim "g5000000000/lock".toList 1 11 (by decide)
  rw [hread, hvalue] at hexact
  exact absurd hexact (by decide)

end Lockseq

end Traxos
