import Mathlib.Algebra.Group.Nat.Defs
import Mathlib.Data.Nat.Notation
import Traxos.Core.OrderedWalk

/-! # Strings in key order

Two facts about the lexicographic order of strings. The strings with a common prefix lie together
(`prefix_of_between`), so an increasing list of entries starts with those that share a prefix with
its first key (`Increasing.eq_filter_append`). And numerals of one width are ordered as their
numbers are (`compare_of_ofDigitChars_lt`). -/

namespace Traxos

universe u v

/-! ## Common prefixes -/

section Prefix

variable {γ : Type u} [Ord γ] [Std.TransOrd γ] [Std.LawfulEqOrd γ]

omit [Std.LawfulEqOrd γ] in
/-- A common prefix does not matter to the order. -/
theorem compare_append_left (p a b : List γ) : compare (p ++ a) (p ++ b) = compare a b := by
  induction p with
  | nil => rfl
  | cons x p ih =>
    have hself : compare x x = .eq := Std.ReflCmp.compare_self
    rw [List.cons_append, List.cons_append, List.compare_cons_cons, hself, ih]
    rfl

omit [Std.TransOrd γ] in
/-- The head of a string decides the order, or the tail does when the heads are equal. -/
theorem compare_cons_eq_lt {x y : γ} {a b : List γ} :
    compare (x :: a) (y :: b) = .lt ↔ compare x y = .lt ∨ x = y ∧ compare a b = .lt := by
  rw [List.compare_cons_cons, Ordering.then_eq_lt, Std.LawfulEqCmp.compare_eq_iff_eq]

/-- **Strings with a common prefix lie together.** -/
theorem prefix_of_between {p a b c : List γ} (ha : p <+: a) (hc : p <+: c)
    (hab : compare a b = .lt) (hbc : compare b c = .lt) : p <+: b := by
  induction p generalizing a b c with
  | nil => exact List.nil_prefix
  | cons x p ih =>
    obtain ⟨a, rfl⟩ := ha
    obtain ⟨c, rfl⟩ := hc
    cases b with
    | nil => cases hab
    | cons y b =>
      rw [List.cons_append, compare_cons_eq_lt] at hab hbc
      -- `y` lies between two equal characters
      obtain rfl : x = y := by
        rcases hab with hxy | ⟨hxy, -⟩
        · rcases hbc with hyx | ⟨hyx, -⟩
          · exact absurd (Std.TransCmp.lt_trans hxy hyx) (compare_self_ne_lt x)
          · exact hyx.symm
        · exact hxy
      rw [List.cons_prefix_cons]
      refine ⟨rfl, ih ⟨a, rfl⟩ ⟨c, rfl⟩ ?_ ?_⟩
      · exact (hab.resolve_left (compare_self_ne_lt x)).2
      · exact (hbc.resolve_left (compare_self_ne_lt x)).2

end Prefix

/-! ## Increasing lists -/

section Increasing

variable {κ : Type u} {α : Type v} [Ord κ] [Std.TransOrd κ]

omit [Std.TransOrd κ] in
theorem Increasing.filter {l : List (κ × α)} (h : Increasing l) (P : κ × α → Bool) :
    Increasing (l.filter P) := List.Pairwise.filter P h

/-- Increasing lists with the same entries are equal. -/
theorem Increasing.ext {l l' : List (κ × α)} (h : Increasing l) (h' : Increasing l')
    (hmem : ∀ p, p ∈ l ↔ p ∈ l') : l = l' := by
  -- strictly increasing keys do not repeat
  have hnodup : ∀ {l : List (κ × α)}, Increasing l → l.Nodup := by
    intro l hl
    refine List.Pairwise.imp ?_ hl
    rintro a b hlt rfl
    exact compare_self_ne_lt a.1 hlt
  refine List.Perm.eq_of_pairwise (fun a b _ _ hab hba => ?_) h h'
    ((List.perm_ext_iff_of_nodup (hnodup h) (hnodup h')).mpr hmem)
  exact absurd (Std.TransCmp.lt_trans hab hba) (compare_self_ne_lt a.1)

end Increasing

/-- **An increasing list starts with the entries that share a prefix with its first key.** -/
theorem Increasing.eq_filter_append {γ : Type} [Ord γ] [Std.TransOrd γ] [Std.LawfulEqOrd γ]
    [BEq γ] [LawfulBEq γ] {α : Type v} {e : List γ × α} {l : List (List γ × α)}
    (h : Increasing (e :: l)) {p : List γ} (hp : p <+: e.1) :
    e :: l = (e :: l).filter (fun x => p.isPrefixOf x.1) ++
      (e :: l).filter (fun x => !p.isPrefixOf x.1) := by
  -- By induction on the entries behind `e`. The entry `e` itself stays in front throughout, so that
  -- `prefix_of_between` can be applied to it, an entry without the prefix and a later one.
  have hsplit : ∀ l' : List (List γ × α), Increasing (e :: l') →
      l' = l'.filter (fun x => p.isPrefixOf x.1) ++ l'.filter (fun x => !p.isPrefixOf x.1) := by
    intro l'
    induction l' with
    | nil => exact fun _ => rfl
    | cons x l' ih =>
      intro hl
      obtain ⟨hhead, htail⟩ := List.pairwise_cons.mp hl
      obtain ⟨hx, hrest⟩ := List.pairwise_cons.mp htail
      have hskip : Increasing (e :: l') :=
        List.pairwise_cons.mpr ⟨fun y hy => hhead y (List.mem_cons_of_mem _ hy), hrest⟩
      by_cases hpx : p.isPrefixOf x.1 = true
      · rw [List.filter_cons_of_pos (by simpa using hpx),
          List.filter_cons_of_neg (by simpa using hpx),
          List.cons_append, ← ih hskip]
      · -- what follows `x` has not the prefix either
        have hnot : ∀ y ∈ x :: l', p.isPrefixOf y.1 = false := by
          intro y hy
          rcases List.mem_cons.mp hy with rfl | hy
          · rwa [← Bool.not_eq_true]
          · rw [← Bool.not_eq_true]
            intro hpy
            refine hpx (List.isPrefixOf_iff_prefix.mpr ?_)
            exact prefix_of_between hp (List.isPrefixOf_iff_prefix.mp hpy)
              (hhead x List.mem_cons_self) (hx y hy)
        rw [List.filter_eq_nil_iff.mpr fun y hy => by simp [hnot y hy], List.nil_append,
          List.filter_eq_self.mpr fun y hy => by simp [hnot y hy]]
  have hpe : p.isPrefixOf e.1 = true := List.isPrefixOf_iff_prefix.mpr hp
  rw [List.filter_cons_of_pos (by simpa using hpe), List.filter_cons_of_neg (by simpa using hpe),
    List.cons_append, ← hsplit l h]

/-! ## Numerals of one width -/

section Numerals

theorem compare_char_eq_lt {c d : Char} : compare c d = .lt ↔ c.toNat < d.toNat := by
  rw [show compare c d = compareOfLessAndEq c d from rfl, compareOfLessAndEq_eq_lt]
  exact Iff.rfl

/-- Reading a numeral on from `v` stays below `v + 1` of its size. -/
theorem ofDigitChars_lt {ds : List Char} (h : ∀ c ∈ ds, c.isDigit = true) (v : ℕ) :
    10 ^ ds.length * v ≤ Nat.ofDigitChars 10 ds v ∧
      Nat.ofDigitChars 10 ds v < 10 ^ ds.length * (v + 1) := by
  induction ds generalizing v with
  | nil => simp
  | cons c ds ih =>
    have hc := h c List.mem_cons_self
    obtain ⟨hlow, hhigh⟩ := ih (fun d hd => h d (List.mem_cons_of_mem _ hd))
      (10 * v + (c.toNat - '0'.toNat))
    have hdigit : c.toNat - '0'.toNat ≤ 9 := by
      simp only [Char.isDigit, Bool.and_eq_true, decide_eq_true_eq] at hc
      have : c.toNat ≤ '9'.toNat := hc.2
      have h9 : '9'.toNat = 57 := rfl
      have h0 : '0'.toNat = 48 := rfl
      omega
    rw [Nat.ofDigitChars_cons, List.length_cons, Nat.pow_succ, Nat.mul_assoc, Nat.mul_assoc]
    constructor
    · exact Nat.le_trans (Nat.mul_le_mul_left _ (by omega)) hlow
    · exact Nat.lt_of_lt_of_le hhigh (Nat.mul_le_mul_left _ (by omega))

/-- A numeral that comes first in the order has the smaller number. -/
theorem ofDigitChars_lt_of_compare {ds es : List Char} (hlen : ds.length = es.length)
    (hds : ∀ c ∈ ds, c.isDigit = true) (hes : ∀ c ∈ es, c.isDigit = true)
    (h : compare ds es = .lt) (v : ℕ) : Nat.ofDigitChars 10 ds v < Nat.ofDigitChars 10 es v := by
  induction ds generalizing es v with
  | nil =>
    obtain rfl := List.length_eq_zero_iff.mp hlen.symm
    cases h
  | cons c ds ih =>
    cases es with
    | nil => cases hlen
    | cons d es =>
      have hlen' : ds.length = es.length := Nat.succ.inj hlen
      have hds' : ∀ c ∈ ds, c.isDigit = true := fun x hx => hds x (List.mem_cons_of_mem _ hx)
      have hes' : ∀ c ∈ es, c.isDigit = true := fun x hx => hes x (List.mem_cons_of_mem _ hx)
      rw [Nat.ofDigitChars_cons, Nat.ofDigitChars_cons]
      rcases compare_cons_eq_lt.mp h with hcd | ⟨rfl, htail⟩
      · -- the first digits differ: whatever follows the smaller one, the number stays below
        rw [compare_char_eq_lt] at hcd
        have hc := hds c List.mem_cons_self
        have h0 : '0'.toNat ≤ c.toNat := by
          simp only [Char.isDigit, Bool.and_eq_true, decide_eq_true_eq] at hc
          exact hc.1
        have hlow := (ofDigitChars_lt hes' (10 * v + (d.toNat - '0'.toNat))).1
        have hhigh := (ofDigitChars_lt hds' (10 * v + (c.toNat - '0'.toNat))).2
        rw [← hlen'] at hlow
        refine Nat.lt_of_lt_of_le hhigh (Nat.le_trans (Nat.mul_le_mul_left _ ?_) hlow)
        omega
      · exact ih hlen' hds' hes' htail _

/-- **Numerals of one width are ordered as their numbers are.** -/
theorem compare_of_ofDigitChars_lt {ds es : List Char} (hlen : ds.length = es.length)
    (hds : ∀ c ∈ ds, c.isDigit = true) (hes : ∀ c ∈ es, c.isDigit = true)
    (h : Nat.ofDigitChars 10 ds 0 < Nat.ofDigitChars 10 es 0) : compare ds es = .lt := by
  cases hcmp : compare ds es with
  | lt => rfl
  | eq =>
    rw [Std.LawfulEqCmp.compare_eq_iff_eq] at hcmp
    rw [hcmp] at h
    exact absurd h (Nat.lt_irrefl _)
  | gt =>
    have hlt := ofDigitChars_lt_of_compare hlen.symm hes hds (Std.OrientedCmp.gt_iff_lt.mp hcmp) 0
    omega

end Numerals

end Traxos
