import Mathlib.Data.List.Basic
import Mathlib.Data.List.TakeDrop
import Mathlib.Data.Nat.Notation

/-! # What is observed of a run

A partial function `f` observes some of the steps of a run `l`: `l.filterMap f`. An observation has a
step that it was made of (`exists_step_of_observed`), and a step that is observed has its place among
the observations (`getElem?_observed`). So runs of which the same is observed have corresponding
steps, in the same order (`exists_steps_of_observed_eq`). -/

namespace Traxos

variable {α β ε : Type} {f : α → Option ε} {g : β → Option ε} {l : List α} {l' : List β} {i j k : ℕ}
  {x y : α} {e e' : ε}

/-- What is observed of a run up to a step, of the step, and of the rest. -/
theorem observed_eq_append (hi : l[i]? = some x) (hx : f x = some e) :
    l.filterMap f = (l.take i).filterMap f ++ e :: (l.drop (i + 1)).filterMap f := by
  obtain ⟨hlt, rfl⟩ := List.getElem?_eq_some_iff.mp hi
  rw [← List.filterMap_cons_some hx, ← List.filterMap_append, ← List.drop_eq_getElem_cons hlt,
    List.take_append_drop]

/-- **The place of an observation**: as many come before it as were made before its step. -/
theorem getElem?_observed (hi : l[i]? = some x) (hx : f x = some e) :
    (l.filterMap f)[((l.take i).filterMap f).length]? = some e := by
  rw [observed_eq_append hi hx, List.getElem?_append_right (Nat.le_refl _), Nat.sub_self]
  rfl

theorem take_observed (hi : l[i]? = some x) (hx : f x = some e) :
    (l.filterMap f).take ((l.take i).filterMap f).length = (l.take i).filterMap f := by
  rw [observed_eq_append hi hx, List.take_left' rfl]

/-- **The step of an observation.** -/
theorem exists_step_of_observed (h : (l.filterMap f)[k]? = some e) :
    ∃ i x, l[i]? = some x ∧ f x = some e ∧ ((l.take i).filterMap f).length = k := by
  induction l generalizing k with
  | nil => simp at h
  | cons a l ih =>
    cases ha : f a with
    | none =>
      rw [List.filterMap_cons_none ha] at h
      obtain ⟨i, x, hi, hx, hk⟩ := ih h
      exact ⟨i + 1, x, hi, hx, by rw [List.take_succ_cons, List.filterMap_cons_none ha, hk]⟩
    | some b =>
      rw [List.filterMap_cons_some ha] at h
      cases k with
      | zero => exact ⟨0, a, rfl, by rw [ha]; simpa using h, rfl⟩
      | succ k =>
        obtain ⟨i, x, hi, hx, hk⟩ := ih (by simpa using h)
        refine ⟨i + 1, x, hi, hx, ?_⟩
        rw [List.take_succ_cons, List.filterMap_cons_some ha, List.length_cons, hk]

/-- Observations are counted step by step. -/
theorem length_observed_mono (f : α → Option ε) (l : List α) (h : i ≤ j) :
    ((l.take i).filterMap f).length ≤ ((l.take j).filterMap f).length :=
  ((List.take_prefix_take_left h).sublist.filterMap f).length_le

theorem length_observed_lt (hi : l[i]? = some x) (hx : f x = some e) (h : i < j) :
    ((l.take i).filterMap f).length < ((l.take j).filterMap f).length := by
  have hj : (l.take j)[i]? = some x := by rw [List.getElem?_take_of_lt h, hi]
  have heq := congrArg List.length (observed_eq_append hj hx)
  rw [List.take_take, Nat.min_eq_left (Nat.le_of_lt h), List.length_append, List.length_cons] at heq
  omega

/-- **Runs of which the same is observed** have corresponding steps: one after the other, and with the
same observations before. -/
theorem exists_steps_of_observed_eq (h : l.filterMap f = l'.filterMap g) (hi : l[i]? = some x)
    (hx : f x = some e) (hj : l[j]? = some y) (hy : f y = some e') (hij : i < j) :
    ∃ i' j' x' y', l'[i']? = some x' ∧ g x' = some e ∧ l'[j']? = some y' ∧ g y' = some e' ∧
      i' < j' ∧ (l'.take j').filterMap g = (l.take j).filterMap f := by
  have hat_i := getElem?_observed hi hx
  have hat_j := getElem?_observed hj hy
  rw [h] at hat_i hat_j
  obtain ⟨i', x', hi', hx', hlength_i⟩ := exists_step_of_observed hat_i
  obtain ⟨j', y', hj', hy', hlength_j⟩ := exists_step_of_observed hat_j
  refine ⟨i', j', x', y', hi', hx', hj', hy', ?_, ?_⟩
  · -- otherwise there would be as many observations before `i'`
    by_contra hle
    have hmono := length_observed_mono g l' (Nat.le_of_not_lt hle)
    have hlt := length_observed_lt hi hx hij
    omega
  · rw [← take_observed hj hy, ← take_observed hj' hy', hlength_j, h]

end Traxos
