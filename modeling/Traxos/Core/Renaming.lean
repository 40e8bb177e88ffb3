import Mathlib.Logic.Function.Basic
import Traxos.Core.StampedMap

/-! # Order-preserving renamings of stamps

The stamps that one key of a stamped map gets depend on how often the other keys are modified, their
order does not. `Renames f n m` says that `f` keeps 0 and maps the stamps below `n`, in order, to
stamps below `m`; `StampedMap.Mirrors` that a map shows a key as another one does up to `f`.

* **`StampedMap.Mirrors.of_not_touched`** — what happens to other keys does not matter.
* **`StampedMap.Mirrors.apply`** — the same change of the key in both maps keeps the relation, once
  the stamp consumed in one is renamed to the stamp consumed in the other. -/

namespace Traxos

universe u v

/-- `f` keeps 0 and renames the stamps below `n` to stamps below `m`, in the same order. -/
structure Renames (f : ℤ → ℤ) (n m : ℤ) : Prop where
  zero : f 0 = 0
  lt : ∀ {a b}, 0 ≤ a → a < b → b < n → f a < f b
  lt_bound : ∀ {a}, 0 ≤ a → a < n → f a < m

namespace Renames

variable {f : ℤ → ℤ} {n m m' a b : ℤ}

/-- Nothing but 0 is used yet. -/
theorem refl_one (hm : 0 < m) : Renames id 1 m where
  zero := rfl
  lt := fun ha hab hb => by omega
  lt_bound := fun {a} ha han => by
    rw [id]
    omega

theorem weaken (h : Renames f n m) (hm : m ≤ m') : Renames f n m' where
  zero := h.zero
  lt := h.lt
  lt_bound := fun ha han => Int.lt_of_lt_of_le (h.lt_bound ha han) hm

/-- Stamps compare as their names do. -/
theorem lt_iff (h : Renames f n m) (ha : 0 ≤ a) (han : a < n) (hb : 0 ≤ b) (hbn : b < n) :
    f a < f b ↔ a < b := by
  refine ⟨fun hlt => ?_, fun hlt => h.lt ha hlt hbn⟩
  by_contra hge
  obtain heq | hgt : a = b ∨ b < a := by omega
  · rw [heq] at hlt
    exact Int.lt_irrefl _ hlt
  · exact Int.lt_asymm hlt (h.lt hb hgt han)

theorem eq_iff (h : Renames f n m) (ha : 0 ≤ a) (han : a < n) (hb : 0 ≤ b) (hbn : b < n) :
    f a = f b ↔ a = b := by
  constructor
  · intro heq
    have hab := h.lt_iff ha han hb hbn
    have hba := h.lt_iff hb hbn ha han
    omega
  · exact congrArg f

theorem eq_zero_iff (h : Renames f n m) (ha : 0 ≤ a) (han : a < n) : f a = 0 ↔ a = 0 := by
  have heq := h.eq_iff ha han (Int.le_refl 0) (by omega)
  rwa [h.zero] at heq

/-- Rename `n` to `m`. -/
theorem update_of_lt (han : a < n) : Function.update f n m a = f a :=
  Function.update_of_ne (Int.ne_of_lt han) m f

theorem update (h : Renames f n m) (hn : 0 < n) : Renames (Function.update f n m) n m where
  zero := (update_of_lt hn).trans h.zero
  lt := fun ha hab hb => by
    rw [update_of_lt (Int.lt_trans hab hb), update_of_lt hb]
    exact h.lt ha hab hb
  lt_bound := fun ha han => by
    rw [update_of_lt han]
    exact h.lt_bound ha han

/-- The new name is above all others. -/
theorem update_succ (h : Renames f n m) (hn : 0 < n) :
    Renames (Function.update f n m) (n + 1) (m + 1) where
  zero := (h.update hn).zero
  lt := fun {a b} ha hab hb => by
    obtain hbn | rfl : b < n ∨ b = n := by omega
    · exact (h.update hn).lt ha hab hbn
    · rw [update_of_lt hab, Function.update_self]
      exact h.lt_bound ha hab
  lt_bound := fun {a} ha han => by
    obtain han | rfl : a < n ∨ a = n := by omega
    · exact Int.lt_trans ((h.update hn).lt_bound ha han) (by omega)
    · rw [Function.update_self]
      omega

end Renames

/-- An entry with its stamp renamed. -/
def Stamped.rename {α : Type u} (f : ℤ → ℤ) (e : Stamped α) : Stamped α :=
  { value := e.value, stamp := f e.stamp }

namespace StampedMap

variable {κ : Type u} {α : Type v} {m n : StampedMap κ α} {k : κ} {f : ℤ → ℤ}

/-- The map `m` shows the key `k` as `n` does, up to the renaming `f`. -/
structure Mirrors (m n : StampedMap κ α) (k : κ) (f : ℤ → ℤ) : Prop where
  renames : Renames f n.next m.next
  entry : m.entry k = (n.entry k).map (Stamped.rename f)

/-- The names that exist after a change: the stamp consumed next in `n` is renamed to that of
`m`. -/
def extend (m n : StampedMap κ α) (f : ℤ → ℤ) : ℤ → ℤ := Function.update f n.next m.next

theorem extend_of_lt {a : ℤ} (ha : a < n.next) : m.extend n f a = f a := Renames.update_of_lt ha

theorem extend_next : m.extend n f n.next = m.next := Function.update_self ..

namespace Mirrors

theorem empty (k : κ) : (StampedMap.empty : StampedMap κ α).Mirrors StampedMap.empty k id where
  renames := .refl_one Int.one_pos
  entry := rfl

theorem isSome_entry (h : m.Mirrors n k f) : (m.entry k).isSome = (n.entry k).isSome := by
  rw [h.entry, Option.isSome_map]

theorem extend (h : m.Mirrors n k f) : m.Mirrors n k (m.extend n f) where
  renames := h.renames.update (Int.lt_of_lt_of_le Int.zero_lt_one n.one_le_next)
  entry := by
    rw [h.entry]
    cases he : n.entry k with
    | none => rfl
    | some e =>
      simp only [Option.map_some, Stamped.rename, extend_of_lt (n.stamp_lt he)]

variable [DecidableEq κ]

/-- What happens to other keys does not matter. -/
theorem of_not_touched (h : m.Mirrors n k f) {c : Change κ α} (hc : m.touched c ≠ some k) :
    (m.apply c).Mirrors n k f where
  renames := h.renames.weaken (m.next_le_apply c)
  entry := (entry_apply_of_not_touched hc).trans h.entry

/-- A change of the key touches it in both maps or in none. -/
theorem touched_iff (h : m.Mirrors n k f) (c : Change κ α) :
    m.touched c = some k ↔ n.touched c = some k := by
  cases c with
  | keep => exact Iff.rfl
  | write a x => exact Iff.rfl
  | delete a =>
    by_cases ha : a = k
    · subst ha
      rw [touched, touched, h.isSome_entry]
    · have hne : ∀ m' : StampedMap κ α, m'.touched (.delete a) ≠ some k := by
        intro m' htouched
        rw [touched] at htouched
        split at htouched
        · exact ha (Option.some.inj htouched)
        · cases htouched
      exact iff_of_false (hne m) (hne n)

/-- **The same change in both maps** keeps the relation when it concerns the key. -/
theorem apply (h : m.Mirrors n k f) {c : Change κ α} (hc : ∀ a, n.touched c = some a → a = k) :
    (m.apply c).Mirrors (n.apply c) k (m.extend n f) := by
  cases htouched : n.touched c with
  | none =>
    -- nothing changes in `n`, and nothing about the key in `m`
    have hm : m.touched c ≠ some k := by
      rw [Ne, h.touched_iff, htouched]
      exact fun hnone => nomatch hnone
    rw [apply_of_touched_none htouched]
    exact h.extend.of_not_touched hm
  | some a =>
    obtain rfl := hc a htouched
    have hm := (h.touched_iff c).mpr htouched
    constructor
    · rw [next_apply, next_apply, htouched, hm]
      exact h.renames.update_succ (Int.lt_of_lt_of_le Int.zero_lt_one n.one_le_next)
    · cases c with
      | keep => cases htouched
      | write b x =>
        obtain rfl : b = a := Option.some.inj htouched
        simp only [StampedMap.apply, entry_write_self, Option.map_some, Stamped.rename,
          extend_next]
      | delete b =>
        have hb : b = a := by
          rw [touched] at htouched
          split at htouched
          · exact Option.some.inj htouched
          · cases htouched
        subst hb
        simp only [StampedMap.apply, entry_delete_self, Option.map_none]

end Mirrors

end StampedMap

end Traxos
