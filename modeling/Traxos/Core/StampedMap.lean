import Mathlib.Data.Int.Notation
import Mathlib.Data.List.Induction
import Mathlib.Data.Nat.Notation
import Mathlib.Logic.Function.Basic
import Mathlib.Tactic.ByContra

/-! # Maps whose entries carry modification stamps

A **stamped map** is a partial map in which every modification consumes the next number of one
counter, and every entry remembers the number of the modification that wrote it. It is what a
versioned key-value store is for: a stamp identifies one write of one key for ever. The structure
carries its invariant, so each operation has to prove it once:

* **`StampedMap.write`**, **`StampedMap.delete`** — the two modifications; a deletion is logged with
  the entry it removed and the stamp it consumed.
* **`StampedMap.drive f m is`** — the map driven through the inputs `is` by a controller `f` that
  reads the current map and answers with a `Change`.
* **`StampedMap.entry_of_old_stamp`** — the no-reuse theorem: a later entry whose stamp is older
  than an earlier moment was there at that moment, and nobody touched its key in between.
* **`StampedMap.lagging_entry`** — what an entry of an earlier moment can have become: itself, a
  newer entry of the same key, or a logged deletion of one of these. -/

namespace Traxos

universe u v w

/-- A value together with the stamp of the modification that wrote it. -/
@[ext] structure Stamped (α : Type v) where
  /-- The value. -/
  value : α
  /-- The number of the modification that wrote it. -/
  stamp : ℤ

/-- A logged deletion. -/
@[ext] structure Removal (κ : Type u) (α : Type v) where
  /-- The deleted key. -/
  key : κ
  /-- Its entry just before the deletion. -/
  old : Stamped α
  /-- The number that the deletion consumed. -/
  stamp : ℤ

/-- A **stamped map**: the next unused stamp, the entries and the deletions so far (newest first),
with the invariant that relates them. -/
structure StampedMap (κ : Type u) (α : Type v) where
  /-- The stamp that the next modification will consume. -/
  next : ℤ
  /-- The present entries. -/
  entry : κ → Option (Stamped α)
  /-- All deletions so far, newest first. -/
  removals : List (Removal κ α)
  one_le_next : 1 ≤ next
  stamp_pos : ∀ {k e}, entry k = some e → 1 ≤ e.stamp
  stamp_lt : ∀ {k e}, entry k = some e → e.stamp < next
  stamp_inj : ∀ {k k' e e'}, entry k = some e → entry k' = some e' → e.stamp = e'.stamp → k = k'
  removals_sorted : removals.Pairwise fun r s => s.stamp < r.stamp
  removal_lt : ∀ {r}, r ∈ removals → r.stamp < next
  removal_old_lt : ∀ {r}, r ∈ removals → r.old.stamp < r.stamp

/-- What one input does to a stamped map. -/
inductive Change (κ : Type u) (α : Type v)
  /-- Nothing changes. -/
  | keep
  /-- `k` is set to `x`, whether it was present or not. -/
  | write (k : κ) (x : α)
  /-- `k` is deleted if it is present. -/
  | delete (k : κ)

namespace StampedMap

variable {κ : Type u} {α : Type v} {ι : Type w}

/-- The map before any modification. -/
def empty : StampedMap κ α where
  next := 1
  entry := fun _ => none
  removals := []
  one_le_next := by decide
  stamp_pos := by simp
  stamp_lt := by simp
  stamp_inj := by simp
  removals_sorted := List.Pairwise.nil
  removal_lt := by simp
  removal_old_lt := by simp

@[simp] theorem next_empty : (empty : StampedMap κ α).next = 1 := rfl

@[simp] theorem entry_empty (k : κ) : (empty : StampedMap κ α).entry k = none := rfl

@[simp] theorem removals_empty : (empty : StampedMap κ α).removals = [] := rfl

variable [DecidableEq κ]

/-- Set `k` to `x` under the next stamp. -/
def write (m : StampedMap κ α) (k : κ) (x : α) : StampedMap κ α where
  next := m.next + 1
  entry := Function.update m.entry k (some ⟨x, m.next⟩)
  removals := m.removals
  one_le_next := by have := m.one_le_next; omega
  stamp_pos := by
    intro k' e he
    by_cases hk : k' = k
    · subst hk
      rw [Function.update_self] at he
      cases he
      exact m.one_le_next
    · rw [Function.update_of_ne hk] at he
      exact m.stamp_pos he
  stamp_lt := by
    intro k' e he
    by_cases hk : k' = k
    · subst hk
      rw [Function.update_self] at he
      cases he
      exact Int.lt_succ m.next
    · rw [Function.update_of_ne hk] at he
      have := m.stamp_lt he
      omega
  stamp_inj := by
    intro k₁ k₂ e₁ e₂ h₁ h₂ heq
    by_cases hk₁ : k₁ = k <;> by_cases hk₂ : k₂ = k
    · rw [hk₁, hk₂]
    · -- the new stamp is above all old ones
      rw [hk₁, Function.update_self] at h₁
      rw [Function.update_of_ne hk₂] at h₂
      have := m.stamp_lt h₂
      cases h₁
      exact absurd heq (by simp only; omega)
    · rw [hk₂, Function.update_self] at h₂
      rw [Function.update_of_ne hk₁] at h₁
      have := m.stamp_lt h₁
      cases h₂
      exact absurd heq (by simp only; omega)
    · rw [Function.update_of_ne hk₁] at h₁
      rw [Function.update_of_ne hk₂] at h₂
      exact m.stamp_inj h₁ h₂ heq
  removals_sorted := m.removals_sorted
  removal_lt := by intro r hr; have := m.removal_lt hr; omega
  removal_old_lt := m.removal_old_lt

/-- Delete the present entry `e` of `k`, consuming the next stamp and logging the deletion. -/
def deletePresent (m : StampedMap κ α) (k : κ) (e : Stamped α) (h : m.entry k = some e) :
    StampedMap κ α where
  next := m.next + 1
  entry := Function.update m.entry k none
  removals := ⟨k, e, m.next⟩ :: m.removals
  one_le_next := by have := m.one_le_next; omega
  stamp_pos := by
    intro k' e' he
    by_cases hk : k' = k
    · rw [hk, Function.update_self] at he
      cases he
    · rw [Function.update_of_ne hk] at he
      exact m.stamp_pos he
  stamp_lt := by
    intro k' e' he
    by_cases hk : k' = k
    · rw [hk, Function.update_self] at he
      cases he
    · rw [Function.update_of_ne hk] at he
      have := m.stamp_lt he
      omega
  stamp_inj := by
    intro k₁ k₂ e₁ e₂ h₁ h₂ heq
    by_cases hk₁ : k₁ = k
    · rw [hk₁, Function.update_self] at h₁
      cases h₁
    by_cases hk₂ : k₂ = k
    · rw [hk₂, Function.update_self] at h₂
      cases h₂
    rw [Function.update_of_ne hk₁] at h₁
    rw [Function.update_of_ne hk₂] at h₂
    exact m.stamp_inj h₁ h₂ heq
  removals_sorted := List.pairwise_cons.mpr ⟨fun _ hr => m.removal_lt hr, m.removals_sorted⟩
  removal_lt := by
    intro r hr
    rcases List.mem_cons.mp hr with rfl | hr
    · exact Int.lt_succ m.next
    · have := m.removal_lt hr
      omega
  removal_old_lt := by
    intro r hr
    rcases List.mem_cons.mp hr with rfl | hr
    · exact m.stamp_lt h
    · exact m.removal_old_lt hr

/-- Delete `k` if it is present. -/
def delete (m : StampedMap κ α) (k : κ) : StampedMap κ α :=
  match h : m.entry k with
  | none => m
  | some e => m.deletePresent k e h

theorem delete_of_none {m : StampedMap κ α} {k : κ} (h : m.entry k = none) : m.delete k = m := by
  unfold delete
  split
  · rfl
  · simp_all

theorem delete_of_some {m : StampedMap κ α} {k : κ} {e : Stamped α} (h : m.entry k = some e) :
    m.delete k = m.deletePresent k e h := by
  unfold delete
  split
  · simp_all
  · rename_i e' h'
    obtain rfl : e' = e := by rw [h] at h'; exact (Option.some.inj h').symm
    rfl

@[simp] theorem next_write (m : StampedMap κ α) (k : κ) (x : α) :
    (m.write k x).next = m.next + 1 := rfl

@[simp] theorem entry_write_self (m : StampedMap κ α) (k : κ) (x : α) :
    (m.write k x).entry k = some ⟨x, m.next⟩ := Function.update_self ..

theorem entry_write_of_ne (m : StampedMap κ α) {k k' : κ} (x : α) (h : k' ≠ k) :
    (m.write k x).entry k' = m.entry k' := Function.update_of_ne h ..

theorem entry_write (m : StampedMap κ α) (k k' : κ) (x : α) :
    (m.write k x).entry k' = if k' = k then some ⟨x, m.next⟩ else m.entry k' :=
  Function.update_apply ..

@[simp] theorem removals_write (m : StampedMap κ α) (k : κ) (x : α) :
    (m.write k x).removals = m.removals := rfl

@[simp] theorem entry_delete_self (m : StampedMap κ α) (k : κ) : (m.delete k).entry k = none := by
  cases h : m.entry k with
  | none => rw [delete_of_none h, h]
  | some e => rw [delete_of_some h]; exact Function.update_self ..

theorem entry_delete_of_ne (m : StampedMap κ α) {k k' : κ} (hne : k' ≠ k) :
    (m.delete k).entry k' = m.entry k' := by
  cases h : m.entry k with
  | none => rw [delete_of_none h]
  | some e => rw [delete_of_some h]; exact Function.update_of_ne hne ..

theorem entry_delete (m : StampedMap κ α) (k k' : κ) :
    (m.delete k).entry k' = if k' = k then none else m.entry k' := by
  split
  · rename_i h; rw [h, entry_delete_self]
  · rename_i h; exact entry_delete_of_ne m h

/-! ## Changes -/

/-- Apply a change. -/
def apply (m : StampedMap κ α) : Change κ α → StampedMap κ α
  | .keep => m
  | .write k x => m.write k x
  | .delete k => m.delete k

/-- The key that a change modifies in `m`, if it modifies one. -/
def touched (m : StampedMap κ α) : Change κ α → Option κ
  | .keep => none
  | .write k _ => some k
  | .delete k => if (m.entry k).isSome then some k else none

/-- A modification consumes exactly one stamp, anything else none. -/
theorem next_apply (m : StampedMap κ α) (c : Change κ α) :
    (m.apply c).next = m.next + if (m.touched c).isSome then 1 else 0 := by
  cases c with
  | keep => simp [apply, touched]
  | write k x => simp [apply, touched]
  | delete k =>
    cases h : m.entry k with
    | none => simp [apply, touched, delete_of_none h, h]
    | some e => simp [apply, touched, delete_of_some h, h, deletePresent]

theorem next_le_apply (m : StampedMap κ α) (c : Change κ α) : m.next ≤ (m.apply c).next := by
  rw [next_apply]
  split <;> omega

/-- A change that modifies nothing leaves the whole map as it is. -/
theorem apply_of_touched_none {m : StampedMap κ α} {c : Change κ α} (h : m.touched c = none) :
    m.apply c = m := by
  cases c with
  | keep => rfl
  | write k x => simp [touched] at h
  | delete k =>
    have hk : m.entry k = none := by simpa [touched] using h
    exact delete_of_none hk

/-- A key that a change does not touch keeps its entry. -/
theorem entry_apply_of_not_touched {m : StampedMap κ α} {c : Change κ α} {k : κ}
    (h : m.touched c ≠ some k) : (m.apply c).entry k = m.entry k := by
  cases c with
  | keep => rfl
  | write k' x => exact entry_write_of_ne m x (by simpa [touched, eq_comm] using h)
  | delete k' =>
    by_cases hk : k = k'
    · subst hk
      have hnone : m.entry k = none := by simpa [touched] using h
      rw [apply, delete_of_none hnone]
    · exact entry_delete_of_ne m hk

/-- A key that a change touches is afterwards absent, or carries the stamp just consumed. -/
theorem stamp_of_touched {m : StampedMap κ α} {c : Change κ α} {k : κ} {e : Stamped α}
    (h : m.touched c = some k) (he : (m.apply c).entry k = some e) : e.stamp = m.next := by
  cases c with
  | keep => simp [touched] at h
  | write k' x =>
    obtain rfl : k' = k := by simpa [touched] using h
    rw [apply, entry_write_self] at he
    cases he
    rfl
  | delete k' =>
    obtain ⟨-, rfl⟩ : (m.entry k').isSome ∧ k' = k := by
      simp only [touched] at h
      split at h
      · exact ⟨‹_›, Option.some.inj h⟩
      · cases h
    rw [apply, entry_delete_self] at he
    cases he

/-- A key that a change touches has another entry afterwards. -/
theorem entry_apply_ne_of_touched {m : StampedMap κ α} {c : Change κ α} {k : κ}
    (h : m.touched c = some k) : (m.apply c).entry k ≠ m.entry k := by
  intro heq
  cases hk : m.entry k with
  | none =>
    rw [hk] at heq
    cases c with
    | keep => simp [touched] at h
    | write k' x =>
      obtain rfl : k' = k := by simpa [touched] using h
      rw [apply, entry_write_self] at heq
      cases heq
    | delete k' =>
      -- an absent key is not touched by its deletion
      simp only [touched] at h
      split at h
      · rename_i hsome
        obtain rfl := Option.some.inj h
        rw [hk] at hsome
        cases hsome
      · cases h
  | some e =>
    rw [hk] at heq
    have hstamp := stamp_of_touched h heq
    have hlt := m.stamp_lt hk
    omega

/-- Only a deletion adds to the removals. -/
theorem removals_apply (m : StampedMap κ α) {c : Change κ α} (h : ∀ k, c ≠ .delete k) :
    (m.apply c).removals = m.removals := by
  cases c with
  | keep => rfl
  | write k x => exact m.removals_write k x
  | delete k => exact absurd rfl (h k)

/-! ## What all entries are -/

/-- All entries are of keys and values with the property `P`. -/
def All (m : StampedMap κ α) (P : κ → α → Prop) : Prop :=
  ∀ k e, m.entry k = some e → P k e.value

omit [DecidableEq κ] in
theorem all_empty (P : κ → α → Prop) : (empty : StampedMap κ α).All P := by
  intro k e he
  cases he

theorem All.write {m : StampedMap κ α} {P : κ → α → Prop} (h : m.All P) {k : κ} {x : α}
    (hx : P k x) : (m.write k x).All P := by
  intro k' e he
  rw [entry_write] at he
  split at he
  · next heq =>
    obtain rfl := Option.some.inj he
    exact heq ▸ hx
  · exact h k' e he

theorem All.delete {m : StampedMap κ α} {P : κ → α → Prop} (h : m.All P) (k : κ) :
    (m.delete k).All P := by
  intro k' e he
  rw [entry_delete] at he
  split at he
  · cases he
  · exact h k' e he

/-! ## Driven maps

A controller `f` reads the current map and the next input and answers with the change to make; the
inputs are arbitrary. -/

section Drive

variable (f : StampedMap κ α → ι → Change κ α)

/-- The map after the inputs `is`, each answered by `f`. -/
def drive (m : StampedMap κ α) (is : List ι) : StampedMap κ α :=
  is.foldl (fun m i => m.apply (f m i)) m

@[simp] theorem drive_nil (m : StampedMap κ α) : m.drive f [] = m := rfl

@[simp] theorem drive_cons (m : StampedMap κ α) (i : ι) (is : List ι) :
    m.drive f (i :: is) = (m.apply (f m i)).drive f is := rfl

theorem drive_append (m : StampedMap κ α) (is js : List ι) :
    m.drive f (is ++ js) = (m.drive f is).drive f js := List.foldl_append ..

/-- Stamps only grow. -/
theorem next_le_drive (m : StampedMap κ α) (is : List ι) : m.next ≤ (m.drive f is).next := by
  induction is generalizing m with
  | nil => exact Int.le_refl _
  | cons i is ih => exact Int.le_trans (next_le_apply m _) (ih _)

/-- A run that consumes no stamp leaves the whole map as it is. -/
theorem drive_of_next_eq {m : StampedMap κ α} {is : List ι} (h : (m.drive f is).next = m.next) :
    m.drive f is = m := by
  induction is generalizing m with
  | nil => rfl
  | cons i is ih =>
    have hstep := next_apply m (f m i)
    have hrest := next_le_drive f (m.apply (f m i)) is
    rw [drive_cons] at h
    -- the first input consumes no stamp, since the counter never goes back
    have hsame : m.apply (f m i) = m := by
      refine apply_of_touched_none ?_
      by_contra htouched
      rw [if_pos (Option.isSome_iff_ne_none.mpr htouched)] at hstep
      omega
    rw [hsame] at h
    rw [drive_cons, hsame]
    exact ih h

/-- None of the inputs `is`, answered one after the other from `m` on, touches `k`. -/
def Untouched (m : StampedMap κ α) (is : List ι) (k : κ) : Prop :=
  ∀ j i, is[j]? = some i →
    (m.drive f (is.take j)).touched (f (m.drive f (is.take j)) i) ≠ some k

@[simp] theorem untouched_nil (m : StampedMap κ α) (k : κ) : m.Untouched f [] k := by
  simp [Untouched]

theorem untouched_cons {m : StampedMap κ α} {i : ι} {is : List ι} {k : κ} :
    m.Untouched f (i :: is) k ↔
      m.touched (f m i) ≠ some k ∧ (m.apply (f m i)).Untouched f is k := by
  constructor
  · intro h
    exact ⟨h 0 i rfl, fun j i' hj => h (j + 1) i' (by simpa using hj)⟩
  · rintro ⟨h₀, h⟩ j i' hj
    cases j with
    | zero => obtain rfl : i = i' := by simpa using hj
              exact h₀
    | succ j => exact h j i' (by simpa using hj)

/-- **Stamps are never reused.** If a later moment shows an entry whose stamp had already been
consumed at an earlier moment, then the entry was there at the earlier moment and its key was not
touched in between. -/
theorem entry_of_old_stamp {m : StampedMap κ α} {is : List ι} {k : κ} {e : Stamped α}
    (he : (m.drive f is).entry k = some e) (hold : e.stamp < m.next) :
    m.entry k = some e ∧ m.Untouched f is k := by
  induction is generalizing m with
  | nil => exact ⟨he, untouched_nil f m k⟩
  | cons i is ih =>
    have hnext := next_le_apply m (f m i)
    obtain ⟨hentry, hrest⟩ := ih (m := m.apply (f m i)) he (by omega)
    -- a touched key would be absent now, or carry a stamp not yet consumed at the earlier moment
    have htouched : m.touched (f m i) ≠ some k := by
      intro ht
      have := stamp_of_touched ht hentry
      omega
    exact ⟨by rw [← entry_apply_of_not_touched htouched, hentry],
      (untouched_cons f).mpr ⟨htouched, hrest⟩⟩

/-- A longer run continues a shorter one. -/
theorem drive_take_of_le (m : StampedMap κ α) (is : List ι) {i j : ℕ} (hij : i ≤ j) :
    m.drive f (is.take j) = (m.drive f (is.take i)).drive f ((is.take j).drop i) := by
  have htake : is.take i = (is.take j).take i := by rw [List.take_take, Nat.min_eq_left hij]
  rw [htake, ← drive_append, List.take_append_drop]

/-- The no-reuse theorem for two moments `i ≤ j` of one run: an entry shown at `j` whose stamp had
been consumed at `i` was shown at `i`, and no input from `i` to `j` touches its key. -/
theorem entry_of_old_stamp_between {m : StampedMap κ α} {is : List ι} {i j : ℕ} (hij : i ≤ j)
    {k : κ} {e : Stamped α} (he : (m.drive f (is.take j)).entry k = some e)
    (hold : e.stamp < (m.drive f (is.take i)).next) :
    (m.drive f (is.take i)).entry k = some e ∧
      ∀ n x, i ≤ n → n < j → is[n]? = some x →
        (m.drive f (is.take n)).touched (f (m.drive f (is.take n)) x) ≠ some k := by
  rw [drive_take_of_le f m is hij] at he
  obtain ⟨hentry, huntouched⟩ := entry_of_old_stamp f he hold
  refine ⟨hentry, fun n x hin hnj hx => ?_⟩
  have h := huntouched (n - i) x (by
    rw [List.getElem?_drop, List.getElem?_take_of_lt (by omega), Nat.add_sub_cancel' hin, hx])
  -- the moments of the second part are moments of the whole run
  have htake : ((is.take j).drop i).take (n - i) = (is.take n).drop i := by
    rw [← List.drop_take, List.take_take]
    congr 2
    omega
  rwa [htake, ← drive_take_of_le f m is hin] at h

/-- The newest deletion of `k`. -/
def lastRemoval (m : StampedMap κ α) (k : κ) : Option (Removal κ α) :=
  m.removals.find? fun r => decide (r.key = k)

/-- What became of the entry `e` that `k` had when `next` was `n`: it is still there or a newer
entry replaced it, or `k` is absent and its newest deletion, made since, removed `e` or a newer
entry. -/
inductive Lagging (M : StampedMap κ α) (n : ℤ) (k : κ) (e : Stamped α) : Prop
  | present {e' : Stamped α} (h : M.entry k = some e') (hnew : e' = e ∨ n ≤ e'.stamp)
  | removed {r : Removal κ α} (h : M.entry k = none) (hlast : M.lastRemoval k = some r)
      (hr : n ≤ r.stamp) (hold : r.old = e ∨ n ≤ r.old.stamp)

/-- One change keeps the account of what became of an entry. -/
theorem Lagging.apply {M : StampedMap κ α} {n : ℤ} {k : κ} {e : Stamped α} (h : Lagging M n k e)
    (hn : n ≤ M.next) (c : Change κ α) : Lagging (M.apply c) n k e := by
  cases c with
  | keep => exact h
  | write k' x =>
    by_cases hk : k = k'
    · subst hk
      -- the new entry has a stamp from after the earlier moment
      exact .present (entry_write_self M k x) (Or.inr hn)
    · cases h with
      | present he hnew =>
        exact .present (by rw [StampedMap.apply, entry_write_of_ne M x hk, he]) hnew
      | removed he hlast hr hold =>
        exact .removed (by rw [StampedMap.apply, entry_write_of_ne M x hk, he]) hlast hr hold
  | delete k' =>
    rw [StampedMap.apply]
    cases hk' : M.entry k' with
    | none => rwa [delete_of_none hk']
    | some e' =>
      by_cases hk : k = k'
      · subst hk
        -- the deletion is logged, with the entry that `h` accounts for
        have hlast : (M.delete k).lastRemoval k = some ⟨k, e', M.next⟩ := by
          simp [lastRemoval, delete_of_some hk', deletePresent]
        refine .removed (entry_delete_self M k) hlast hn ?_
        cases h with
        | present he hnew =>
          rw [he] at hk'
          cases hk'
          exact hnew
        | removed he => rw [he] at hk'; cases hk'
      · -- a deletion of another key is passed over in the search for those of `k`
        have hentry : (M.delete k').entry k = M.entry k := entry_delete_of_ne M hk
        have hlast' : (M.delete k').lastRemoval k = M.lastRemoval k := by
          simp [lastRemoval, delete_of_some hk', deletePresent, Ne.symm hk]
        cases h with
        | present he hnew => exact .present (hentry.trans he) hnew
        | removed he hlast hr hold => exact .removed (hentry.trans he) (hlast'.trans hlast) hr hold

/-- **Lagging entries are accounted for**: over any run of inputs, an entry of the earlier moment
is still there, has been replaced by a newer one, or its deletion is logged. -/
theorem lagging_entry {m : StampedMap κ α} {k : κ} {e : Stamped α} (he : m.entry k = some e)
    (is : List ι) : Lagging (m.drive f is) m.next k e := by
  induction is using List.reverseRecOn with
  | nil => exact .present he (Or.inl rfl)
  | append_singleton is i ih =>
    rw [drive_append]
    exact ih.apply (next_le_drive f m is) _

/-- A key absent at the earlier moment is absent later, or carries a stamp consumed since. -/
theorem absent_entry {m : StampedMap κ α} {k : κ} (h : m.entry k = none) {is : List ι}
    {e : Stamped α} (he : (m.drive f is).entry k = some e) : m.next ≤ e.stamp := by
  by_contra hlt
  have := (entry_of_old_stamp f he (by omega)).1
  rw [h] at this
  cases this

end Drive

/-! ## Bounded logs -/

omit [DecidableEq κ] in
/-- A search that succeeds in a log sorted by decreasing stamps succeeds in the same way among the
newest `n` entries, or those are full and all newer than the entry found. -/
theorem find_take_or_evicted {log : List (Removal κ α)} {p : Removal κ α → Bool}
    {r : Removal κ α} (hs : log.Pairwise fun r s => s.stamp < r.stamp)
    (h : log.find? p = some r) (n : ℕ) :
    (log.take n).find? p = some r ∨
      (log.take n).find? p = none ∧ (log.take n).length = n ∧
        ∀ r' ∈ log.take n, r.stamp < r'.stamp := by
  rw [← List.take_append_drop n log] at h hs
  rw [List.find?_append] at h
  cases htake : (log.take n).find? p with
  | some r' =>
    rw [htake] at h
    exact Or.inl h
  | none =>
    rw [htake] at h
    -- the entry found was evicted, so the newest `n` are `n` many and all newer
    have hmem : r ∈ log.drop n := List.mem_of_find?_eq_some h
    have hlen : n < log.length := by
      by_contra hle
      rw [List.drop_eq_nil_of_le (by omega)] at hmem
      cases hmem
    refine Or.inr ⟨rfl, by rw [List.length_take]; omega, fun r' hr' => ?_⟩
    exact (List.pairwise_append.mp hs).2.2 r' hr' r hmem

end StampedMap

end Traxos
