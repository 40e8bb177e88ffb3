import Mathlib.Data.Nat.Find
import Mathlib.Data.Nat.Notation

/-! # Counted loops that may fail

The loop `for (i = 0; i != n; ++i)` over a state of type `β`, whose body may throw an error.

* **`countedLoop`** — the loop.
* **`countedLoop_ok`** — an invariant that every turn keeps without failing holds in the end.
* **`countedLoop_error`** — a turn that fails ends the loop with its error.
* **`countedLoop_first_error`** — so does the first of the turns that fail. -/

namespace Traxos

variable {ε β : Type}

/-- The turns `0`, …, `n - 1` of a loop, up to the first error. -/
def countedLoop (f : β → ℕ → Except ε β) : ℕ → β → Except ε β
  | 0, b => .ok b
  | n + 1, b => (countedLoop f n b).bind fun b => f b n

section

variable {f : β → ℕ → Except ε β} {P : ℕ → β → Prop} {n : ℕ} {b : β} {e : ε}

@[simp] theorem countedLoop_zero (f : β → ℕ → Except ε β) (b : β) :
    countedLoop f 0 b = .ok b := rfl

theorem countedLoop_succ (f : β → ℕ → Except ε β) (n : ℕ) (b : β) :
    countedLoop f (n + 1) b = (countedLoop f n b).bind fun b => f b n := rfl

/-- **The loop rule**: `P i` holds before turn `i`. -/
theorem countedLoop_ok (hstart : P 0 b)
    (hbody : ∀ i < n, ∀ b, P i b → ∃ b', f b i = .ok b' ∧ P (i + 1) b') :
    ∃ b', countedLoop f n b = .ok b' ∧ P n b' := by
  induction n with
  | zero => exact ⟨b, rfl, hstart⟩
  | succ n ih =>
    obtain ⟨b', hb', hP⟩ := ih fun i hi => hbody i (Nat.lt_succ_of_lt hi)
    obtain ⟨b'', hb'', hP'⟩ := hbody n (Nat.lt_succ_self n) b' hP
    refine ⟨b'', ?_, hP'⟩
    rw [countedLoop_succ, hb']
    exact hb''

/-- Errors end the loop. -/
theorem countedLoop_mono {m : ℕ} (h : countedLoop f m b = .error e) (hmn : m ≤ n) :
    countedLoop f n b = .error e := by
  induction n with
  | zero =>
    obtain rfl : m = 0 := Nat.le_zero.mp hmn
    exact h
  | succ n ih =>
    rcases Nat.lt_or_eq_of_le hmn with hlt | rfl
    · rw [countedLoop_succ, ih (Nat.le_of_lt_succ hlt)]
      rfl
    · exact h

/-- Turn `i` fails when the loop gets there. -/
theorem countedLoop_error {i : ℕ} (hi : i < n) (hstart : P 0 b)
    (hbody : ∀ j < i, ∀ b, P j b → ∃ b', f b j = .ok b' ∧ P (j + 1) b')
    (hfails : ∀ b, P i b → f b i = .error e) : countedLoop f n b = .error e := by
  obtain ⟨b', hb', hP⟩ := countedLoop_ok (f := f) hstart hbody
  refine countedLoop_mono (m := i + 1) ?_ hi
  rw [countedLoop_succ, hb']
  exact hfails b' hP

/-- Turns that fail are those whose index satisfies `Q`, and there is one. -/
theorem countedLoop_first_error {Q : ℕ → Prop} (hQ : ∃ i < n, Q i) (hstart : P 0 b)
    (hbody : ∀ j < n, ¬ Q j → ∀ b, P j b → ∃ b', f b j = .ok b' ∧ P (j + 1) b')
    (hfails : ∀ i < n, Q i → ∀ b, P i b → f b i = .error e) :
    countedLoop f n b = .error e := by
  classical
  have hfind := Nat.find_spec hQ
  refine countedLoop_error (i := Nat.find hQ) hfind.1 hstart (fun j hj => ?_)
    (hfails _ hfind.1 hfind.2)
  have hjn : j < n := Nat.lt_trans hj hfind.1
  exact hbody j hjn fun hQj => Nat.find_min hQ hj ⟨hjn, hQj⟩

end

end Traxos
