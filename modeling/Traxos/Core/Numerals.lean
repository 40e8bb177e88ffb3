import Mathlib.Data.Int.Notation
import Mathlib.Data.List.TakeWhile
import Mathlib.Data.Nat.Notation

/-! # Decimal numerals

The strings that spell a natural number or an integer in base ten, leading zeros allowed
(`IsDecimal`, `IsInteger`), and reading the longest run of digits off the front of a string
(`takeDigits`, `dropDigits`). Printing the number that a string spells gives the string back without
its leading zeros (`toDigits_eq_stripZeros`). -/

namespace Traxos

/-- The string `s` spells the number `n`. -/
def IsDecimal (s : List Char) (n : ℕ) : Prop :=
  s ≠ [] ∧ (∀ c ∈ s, c.isDigit = true) ∧ Nat.ofDigitChars 10 s 0 = n

/-- The string `s` spells the integer `v`, perhaps with a minus sign. -/
def IsInteger (s : List Char) (v : ℤ) : Prop :=
  (∃ n : ℕ, IsDecimal s n ∧ v = n) ∨ ∃ (ds : List Char) (n : ℕ), s = '-' :: ds ∧ IsDecimal ds n ∧
    v = -n

/-- The digits that a string starts with. -/
def takeDigits (s : List Char) : List Char := s.takeWhile Char.isDigit

/-- What follows the digits that a string starts with. -/
def dropDigits (s : List Char) : List Char := s.dropWhile Char.isDigit

/-- The string without leading zeros; a lone zero stays. -/
def stripZeros (s : List Char) : List Char :=
  match s.dropWhile (· == '0') with
  | [] => ['0']
  | c :: r => c :: r

/-- The next character, if any, is no digit. -/
def NoLeadingDigit (s : List Char) : Prop := ∀ c ∈ s.head?, c.isDigit = false

section Numerals

variable {s ds r : List Char} {n : ℕ}

/-- What `std::format` prints for a number spells it. -/
theorem isDecimal_toDigits (n : ℕ) : IsDecimal (Nat.toDigits 10 n) n := by
  refine ⟨?_, fun c hc => ?_, Nat.ofDigitChars_ten_toDigits⟩
  · exact List.ne_nil_of_length_pos Nat.length_toDigits_pos
  · exact Nat.isDigit_of_mem_toDigits (by decide) (by decide) hc

theorem NoLeadingDigit.nil : NoLeadingDigit [] := by
  intro c hc
  cases hc

theorem NoLeadingDigit.cons {c : Char} (h : c.isDigit = false) (r : List Char) :
    NoLeadingDigit (c :: r) := by
  intro d hd
  obtain rfl : c = d := by simpa using hd
  exact h

/-- The digits in front of something else are read off. -/
theorem takeDigits_append (hds : ∀ c ∈ ds, c.isDigit = true) (hr : NoLeadingDigit r) :
    takeDigits (ds ++ r) = ds := by
  rw [takeDigits, List.takeWhile_append_of_pos hds]
  cases r with
  | nil => simp
  | cons c r =>
    have hc := hr c rfl
    rw [List.takeWhile_cons_of_neg (by simp [hc]), List.append_nil]

/-- What is left is what stood behind them. -/
theorem dropDigits_append (hds : ∀ c ∈ ds, c.isDigit = true) (hr : NoLeadingDigit r) :
    dropDigits (ds ++ r) = r := by
  rw [dropDigits, List.dropWhile_append_of_pos hds]
  cases r with
  | nil => rfl
  | cons c r =>
    have hc := hr c rfl
    rw [List.dropWhile_cons_of_neg (by simp [hc])]

theorem takeDigits_append_dropDigits (s : List Char) : takeDigits s ++ dropDigits s = s :=
  List.takeWhile_append_dropWhile

theorem isDigit_of_mem_takeDigits {c : Char} (h : c ∈ takeDigits s) : c.isDigit = true :=
  List.mem_takeWhile_imp h

/-- A string is read to its end exactly when it consists of digits. -/
theorem dropDigits_eq_nil : dropDigits s = [] ↔ ∀ c ∈ s, c.isDigit = true := by
  constructor
  · intro h c hc
    rw [← takeDigits_append_dropDigits s, h, List.append_nil] at hc
    exact isDigit_of_mem_takeDigits hc
  · intro h
    have := dropDigits_append h NoLeadingDigit.nil
    rwa [List.append_nil] at this

theorem takeDigits_of_all (h : ∀ c ∈ s, c.isDigit = true) : takeDigits s = s := by
  have := takeDigits_append h NoLeadingDigit.nil
  rwa [List.append_nil] at this

/-- Numbers are spelled without a sign. -/
theorem not_isDecimal_minus : ¬ IsDecimal ('-' :: ds) n := by
  rintro ⟨-, hdigits, -⟩
  exact absurd (hdigits '-' List.mem_cons_self) (by decide)

/-- A spelled number has no separator in it. -/
theorem IsDecimal.not_mem {c : Char} (h : IsDecimal s n) (hc : c.isDigit = false) : c ∉ s := by
  intro hmem
  rw [h.2.1 c hmem] at hc
  cases hc

theorem digitChar_of_isDigit {c : Char} (h : c.isDigit = true) :
    c.toNat - '0'.toNat < 10 ∧ Nat.digitChar (c.toNat - '0'.toNat) = c := by
  obtain ⟨hlow, hhigh⟩ := Char.isDigit_iff_toNat.mp h
  have h0 : '0'.toNat = 48 := rfl
  have h9 : '9'.toNat = 57 := rfl
  have hlt : c.toNat - '0'.toNat < 10 := by omega
  refine ⟨hlt, Char.toNat_inj.mp ?_⟩
  rw [Nat.toNat_digitChar_of_lt_ten hlt]
  omega

/-- Digits behind a positive number are printed as they are. -/
theorem toDigits_append_eq {v : ℕ} (hv : 0 < v) (hds : ∀ d ∈ ds, d.isDigit = true) :
    Nat.toDigits 10 v ++ ds = Nat.toDigits 10 (Nat.ofDigitChars 10 ds v) := by
  induction ds generalizing v with
  | nil => rw [List.append_nil, Nat.ofDigitChars_nil]
  | cons d ds ih =>
    obtain ⟨hd, hds⟩ := List.forall_mem_cons.mp hds
    obtain ⟨hlt, hchar⟩ := digitChar_of_isDigit hd
    rw [Nat.ofDigitChars_cons, ← ih (by omega) hds,
      ← Nat.toDigits_append_toDigits (by decide) hv hlt, Nat.toDigits_of_lt_base hlt, hchar,
      List.append_assoc, List.singleton_append]

/-- **Printing the number that a string spells** removes its leading zeros. -/
theorem toDigits_eq_stripZeros (h : IsDecimal s n) : Nat.toDigits 10 n = stripZeros s := by
  obtain ⟨hne, hdigits, rfl⟩ := h
  induction s with
  | nil => exact absurd rfl hne
  | cons c s ih =>
    obtain ⟨hc, hs⟩ := List.forall_mem_cons.mp hdigits
    rw [Nat.ofDigitChars_cons, Nat.mul_zero, Nat.zero_add]
    by_cases hzero : c = '0'
    · -- a leading zero adds nothing; it is printed only when nothing follows it
      subst hzero
      rw [Nat.sub_self, stripZeros, List.dropWhile_cons_of_pos (by decide)]
      by_cases hnil : s = []
      · subst hnil
        rfl
      · exact ih hnil hs
    · obtain ⟨hlt, hchar⟩ := digitChar_of_isDigit hc
      have hpos : 0 < c.toNat - '0'.toNat := Nat.pos_of_ne_zero fun hv => hzero (by
        rw [← hchar, hv]
        rfl)
      rw [← toDigits_append_eq hpos hs, Nat.toDigits_of_lt_base hlt, hchar, stripZeros,
        List.dropWhile_cons_of_neg (by simpa using hzero), List.singleton_append]

end Numerals

end Traxos
