import Mathlib.Data.Nat.Notation
import Mathlib.Tactic.NormNum

/-! # Numerals of a fixed width

The numeral of `w` digits of a number in a base up to sixteen, the most significant digit first.

* **`numeral`** — the numeral; `leftpad_toDigits` says that padding what `std::format` prints with
  zeros gives it.
* **`numeral_injOn`** — numbers below `b ^ w` have different numerals.
* **`exists_numeral`** — every string of `w` digits is the numeral of such a number. -/

namespace Traxos

/-- The character `c` is a digit in base `b`. -/
def IsDigitIn (b : ℕ) (c : Char) : Prop := ∃ d < b, Nat.digitChar d = c

/-- The numeral of `w` digits of `x` in base `b`. -/
def numeral (b : ℕ) : ℕ → ℕ → List Char
  | 0, _ => []
  | w + 1, x => numeral b w (x / b) ++ [Nat.digitChar (x % b)]

section FixedWidth

variable {b w x y : ℕ} {s : List Char}

@[simp] theorem numeral_zero (b x : ℕ) : numeral b 0 x = [] := rfl

theorem numeral_succ (b w x : ℕ) :
    numeral b (w + 1) x = numeral b w (x / b) ++ [Nat.digitChar (x % b)] := rfl

theorem digitChar_inj : ∀ m < 16, ∀ n < 16, Nat.digitChar m = Nat.digitChar n → m = n := by
  decide

@[simp] theorem length_numeral (b w x : ℕ) : (numeral b w x).length = w := by
  induction w generalizing x with
  | zero => rfl
  | succ w ih => rw [numeral_succ, List.length_append, ih, List.length_singleton]

theorem isDigitIn_of_mem_numeral (hb : 0 < b) {c : Char} (h : c ∈ numeral b w x) :
    IsDigitIn b c := by
  induction w generalizing x with
  | zero => cases h
  | succ w ih =>
    rw [numeral_succ, List.mem_append, List.mem_singleton] at h
    obtain h | rfl := h
    · exact ih h
    · exact ⟨x % b, Nat.mod_lt x hb, rfl⟩

/-- Zero is spelled with zeros only. -/
theorem numeral_of_zero (b w : ℕ) : numeral b w 0 = List.replicate w '0' := by
  induction w with
  | zero => rfl
  | succ w ih =>
    rw [numeral_succ, Nat.zero_div, Nat.zero_mod, ih, List.replicate_succ']
    rfl

/-- **Padding with zeros** what is printed for a number gives its numeral. -/
theorem leftpad_toDigits (hb : 1 < b) (hx : x < b ^ (w + 1)) :
    (Nat.toDigits b x).leftpad (w + 1) '0' = numeral b (w + 1) x := by
  induction w generalizing x with
  | zero =>
    have hlt : x < b := by simpa using hx
    rw [Nat.toDigits_of_lt_base hlt, numeral_succ, numeral_zero, Nat.mod_eq_of_lt hlt]
    rfl
  | succ w ih =>
    rw [numeral_succ]
    by_cases hlt : x < b
    · -- one digit is printed, and zeros make up the rest
      rw [Nat.div_eq_of_lt hlt, Nat.mod_eq_of_lt hlt, numeral_of_zero, Nat.toDigits_of_lt_base hlt,
        List.leftpad, List.length_singleton]
      rfl
    · have hdiv : x / b < b ^ (w + 1) := Nat.div_lt_of_lt_mul (by rwa [← Nat.pow_succ'])
      rw [← ih hdiv, Nat.toDigits_of_base_le hb (Nat.le_of_not_lt hlt), List.leftpad, List.leftpad,
        List.length_append, List.length_singleton, Nat.add_sub_add_right, List.append_assoc]

theorem numeral_injOn (hb : b ≤ 16) (hx : x < b ^ w) (hy : y < b ^ w)
    (h : numeral b w x = numeral b w y) : x = y := by
  induction w generalizing x y with
  | zero => rw [Nat.lt_one_iff.mp hx, Nat.lt_one_iff.mp hy]
  | succ w ih =>
    rw [numeral_succ, numeral_succ] at h
    obtain ⟨hinit, hlast⟩ := List.append_inj' h rfl
    have hpos : 0 < b := Nat.pos_of_ne_zero fun h0 => by simp [h0] at hx
    have hmod : x % b = y % b := by
      have hm := Nat.mod_lt x hpos
      have hn := Nat.mod_lt y hpos
      exact digitChar_inj _ (by omega) _ (by omega) (List.cons.inj hlast).1
    have hdiv : x / b = y / b :=
      ih (Nat.div_lt_of_lt_mul (by rwa [← Nat.pow_succ']))
        (Nat.div_lt_of_lt_mul (by rwa [← Nat.pow_succ'])) hinit
    rw [← Nat.div_add_mod x b, ← Nat.div_add_mod y b, hdiv, hmod]

theorem exists_numeral (hlength : s.length = w) (hs : ∀ c ∈ s, IsDigitIn b c) :
    ∃ x < b ^ w, numeral b w x = s := by
  induction w generalizing s with
  | zero =>
    obtain rfl := List.length_eq_zero_iff.mp hlength
    exact ⟨0, by simp, rfl⟩
  | succ w ih =>
    obtain ⟨s, c, rfl⟩ := List.eq_nil_or_concat s |>.resolve_left fun h => by simp [h] at hlength
    rw [List.concat_eq_append] at *
    obtain ⟨d, hd, rfl⟩ := hs c (by simp)
    obtain ⟨y, hy, rfl⟩ := ih (s := s) (by simpa using hlength) fun c hc => hs c (by simp [hc])
    have hb : 0 < b := Nat.lt_of_le_of_lt (Nat.zero_le d) hd
    refine ⟨b * y + d, ?_, ?_⟩
    · calc b * y + d < b * y + b := Nat.add_lt_add_left hd _
        _ = b * (y + 1) := (Nat.mul_succ b y).symm
        _ ≤ b * b ^ w := Nat.mul_le_mul_left b hy
        _ = b ^ (w + 1) := (Nat.pow_succ').symm
    · rw [numeral_succ, Nat.mul_add_div hb, Nat.div_eq_of_lt hd, Nat.add_zero, Nat.mul_add_mod,
        Nat.mod_eq_of_lt hd]

end FixedWidth

end Traxos
