import Mathlib.Data.List.Basic
import Mathlib.Data.List.Flatten

/-! # Texts that can be read back

A way to print values is **readable** when a printed text tells where it ends and what it shows,
whatever comes after it. What a text shows may be less than what was printed, so it is given by a
function `v`; only values with a property `p` need to be told apart.

* **`ReadableOn.append`** — one text after another shows what both show.
* **`ReadableOn.terminated`** — a text up to a character that does not occur in it;
  `ReadableOn.spanned` is the same for a kind of characters.
* **`ReadableOn.tagged`** — texts of several forms that begin differently.
* **`ReadableOn.list_of_length`**, **`ReadableOn.list_of_sentinel`** — lists of known length, and lists
  up to a character with which no entry starts. -/

namespace Traxos

universe u v w x y z

variable {α : Type u} {χ : Type v} {β : Type w} {γ : Type x} {δ : Type y}

/-- The texts `f a` can be read back as `v a`, for all `a` with `p a`. -/
def ReadableOn (p : α → Prop) (f : α → List χ) (v : α → β) : Prop :=
  ∀ a b, p a → p b → ∀ r r', f a ++ r = f b ++ r' → v a = v b ∧ r = r'

/-- The first character that is not of a kind is in one place. -/
theorem split_at_span {P : χ → Prop} {c c' : χ} {l l' r r' : List χ} (hl : ∀ x ∈ l, P x)
    (hl' : ∀ x ∈ l', P x) (hc : ¬ P c) (hc' : ¬ P c') (heq : l ++ c :: r = l' ++ c' :: r') :
    l = l' ∧ c :: r = c' :: r' := by
  induction l generalizing l' with
  | nil =>
    cases l' with
    | nil => exact ⟨rfl, heq⟩
    | cons x l' =>
      have hx : c = x := (List.cons.inj heq).1
      exact absurd (hl' x List.mem_cons_self) (hx ▸ hc)
  | cons x l ih =>
    cases l' with
    | nil =>
      have hx : x = c' := (List.cons.inj heq).1
      exact absurd (hl x List.mem_cons_self) (hx ▸ hc')
    | cons x' l' =>
      obtain ⟨rfl, htail⟩ := List.cons.inj heq
      obtain ⟨rfl, hr⟩ := ih (fun y hy => hl y (List.mem_cons_of_mem _ hy))
        (fun y hy => hl' y (List.mem_cons_of_mem _ hy)) htail
      exact ⟨rfl, hr⟩

/-- The first occurrence of a character is in one place. -/
theorem split_at_first {c : χ} {l l' r r' : List χ} (hl : c ∉ l) (hl' : c ∉ l')
    (heq : l ++ c :: r = l' ++ c :: r') : l = l' ∧ r = r' := by
  have hne : ∀ {l : List χ}, c ∉ l → ∀ x ∈ l, x ≠ c := fun hc x hx hxc => hc (hxc ▸ hx)
  obtain ⟨hsame, hr⟩ :=
    split_at_span (hne hl) (hne hl') (not_not_intro rfl) (not_not_intro rfl) heq
  exact ⟨hsame, (List.cons.inj hr).2⟩

namespace ReadableOn

variable {p : α → Prop} {f : α → List χ} {g : α → List χ} {v : α → β} {w : α → γ}

/-- A text by itself. -/
theorem eq (h : ReadableOn p f v) {a b : α} (ha : p a) (hb : p b) (heq : f a = f b) : v a = v b :=
  (h a b ha hb [] [] (congrArg (· ++ []) heq)).1

theorem const (p : α → Prop) (l : List χ) (x : β) : ReadableOn p (fun _ => l) (fun _ => x) :=
  fun _ _ _ _ _ _ heq => ⟨rfl, List.append_cancel_left heq⟩

/-- A text shows no more than what it was seen to show. -/
theorem view (h : ReadableOn p f v) (hview : ∀ a b, p a → p b → v a = v b → w a = w b) :
    ReadableOn p f w := by
  intro a b ha hb r r' heq
  obtain ⟨hv, hr⟩ := h a b ha hb r r' heq
  exact ⟨hview a b ha hb hv, hr⟩

theorem congr {f' : α → List χ} (h : ReadableOn p f v) (hf : ∀ a, p a → f' a = f a) :
    ReadableOn p f' v := by
  intro a b ha hb r r' heq
  rw [hf a ha, hf b hb] at heq
  exact h a b ha hb r r' heq

theorem comp {q : δ → Prop} {k : δ → α} (h : ReadableOn p f v) (hq : ∀ d, q d → p (k d)) :
    ReadableOn q (fun d => f (k d)) (fun d => v (k d)) :=
  fun a b ha hb => h (k a) (k b) (hq a ha) (hq b hb)

theorem append (hf : ReadableOn p f v) (hg : ReadableOn p g w) :
    ReadableOn p (fun a => f a ++ g a) (fun a => (v a, w a)) := by
  intro a b ha hb r r' heq
  simp only [List.append_assoc] at heq
  obtain ⟨hv, hrest⟩ := hf a b ha hb _ _ heq
  obtain ⟨hw, hr⟩ := hg a b ha hb r r' hrest
  exact ⟨Prod.ext hv hw, hr⟩

/-- A fixed text in front. -/
theorem literal (hf : ReadableOn p f v) (l : List χ) : ReadableOn p (fun a => l ++ f a) v :=
  fun a b ha hb r r' heq =>
    hf a b ha hb r r' (List.append_cancel_left (by simpa only [List.append_assoc] using heq))

/-- Up to the first terminator. -/
theorem terminated {c : χ} (hmem : ∀ a, p a → c ∉ f a)
    (hinj : ∀ a b, p a → p b → f a = f b → v a = v b) :
    ReadableOn p (fun a => f a ++ [c]) v := by
  intro a b ha hb r r' heq
  simp only [List.append_assoc, List.singleton_append] at heq
  obtain ⟨hf, hr⟩ := split_at_first (hmem a ha) (hmem b hb) heq
  exact ⟨hinj a b ha hb hf, hr⟩

/-- Up to the first character that is not of a kind, with which the rest begins. -/
theorem spanned {P : χ → Prop} (hmem : ∀ a, p a → ∀ c ∈ f a, P c)
    (hinj : ∀ a b, p a → p b → f a = f b → v a = v b) (hg : ReadableOn p g w)
    (hstart : ∀ a, p a → ∃ c t, g a = c :: t ∧ ¬ P c) :
    ReadableOn p (fun a => f a ++ g a) (fun a => (v a, w a)) := by
  intro a b ha hb r r' heq
  simp only [List.append_assoc] at heq
  obtain ⟨c, t, hc, hnot⟩ := hstart a ha
  obtain ⟨c', t', hc', hnot'⟩ := hstart b hb
  have hspan : f a = f b ∧ g a ++ r = g b ++ r' := by
    rw [hc, hc'] at heq ⊢
    exact split_at_span (hmem a ha) (hmem b hb) hnot hnot' heq
  obtain ⟨hw, hr⟩ := hg a b ha hb r r' hspan.2
  exact ⟨Prod.ext (hinj a b ha hb hspan.1) hw, hr⟩

/-- Texts of which none begins another. -/
theorem prefixFree {k : α → List χ} (hk : ∀ x y, k x <+: k y → x = y) :
    ReadableOn (fun _ => True) k fun x => x := by
  intro x y _ _ r r' heq
  have hxy : x = y := by
    have hprefix : k x <+: k y ++ r' := heq ▸ List.prefix_append _ _
    rcases List.prefix_or_prefix_of_prefix hprefix (List.prefix_append _ _) with h | h
    · exact hk x y h
    · exact (hk y x h).symm
  subst hxy
  exact ⟨rfl, List.append_cancel_left heq⟩

/-- Texts of several forms, told apart by what they begin with. -/
theorem tagged {τ : Type z} {k : τ → List χ} {t : α → τ}
    (hk : ∀ x y, k x <+: k y → x = y) (hg : ∀ x, ReadableOn (fun a => p a ∧ t a = x) g v) :
    ReadableOn p (fun a => k (t a) ++ g a) v := by
  intro a b ha hb r r' heq
  simp only [List.append_assoc] at heq
  obtain ⟨htag, hrest⟩ := prefixFree hk (t a) (t b) trivial trivial _ _ heq
  exact hg (t b) a b ⟨ha, htag⟩ ⟨hb, rfl⟩ r r' hrest

/-- Values that are all built in one way. -/
theorem cover {q : δ → Prop} {k : δ → α} (h : ReadableOn q (fun d => f (k d)) fun d => v (k d))
    (hk : ∀ a, p a → ∃ d, q d ∧ k d = a) : ReadableOn p f v := by
  intro a b ha hb
  obtain ⟨d, hd, rfl⟩ := hk a ha
  obtain ⟨d', hd', rfl⟩ := hk b hb
  exact h d d' hd hd'

/-! ## Lists -/

/-- Lists of one length. -/
theorem list_of_length (h : ReadableOn p f v) {l l' : List α} (hl : ∀ a ∈ l, p a)
    (hl' : ∀ a ∈ l', p a) (hlength : l.length = l'.length) {r r' : List χ}
    (heq : l.flatMap f ++ r = l'.flatMap f ++ r') : l.map v = l'.map v ∧ r = r' := by
  induction l generalizing l' with
  | nil =>
    obtain rfl : l' = [] := List.length_eq_zero_iff.mp hlength.symm
    exact ⟨rfl, heq⟩
  | cons a l ih =>
    cases l' with
    | nil => cases hlength
    | cons a' l' =>
      simp only [List.flatMap_cons, List.append_assoc] at heq
      obtain ⟨hv, hrest⟩ := h a a' (hl a List.mem_cons_self) (hl' a' List.mem_cons_self) _ _ heq
      obtain ⟨htail, hr⟩ := ih (fun b hb => hl b (List.mem_cons_of_mem _ hb))
        (fun b hb => hl' b (List.mem_cons_of_mem _ hb)) (Nat.succ.inj hlength) hrest
      exact ⟨by rw [List.map_cons, List.map_cons, hv, htail], hr⟩

/-- Lists whose length comes first. -/
theorem counted {k : List α → List χ} (hk : ReadableOn (fun l => ∀ a ∈ l, p a) k List.length)
    (h : ReadableOn p f v) :
    ReadableOn (fun l => ∀ a ∈ l, p a) (fun l => k l ++ l.flatMap f) (fun l => l.map v) := by
  intro l l' hl hl' r r' heq
  simp only [List.append_assoc] at heq
  obtain ⟨hlength, hrest⟩ := hk l l' hl hl' _ _ heq
  exact h.list_of_length hl hl' hlength hrest

/-- Lists up to a character with which no entry starts. -/
theorem list_of_sentinel {c : χ} (h : ReadableOn p f v)
    (hstart : ∀ a, p a → ∃ x t, f a = x :: t ∧ x ≠ c) {l l' : List α} (hl : ∀ a ∈ l, p a)
    (hl' : ∀ a ∈ l', p a) {r r' : List χ}
    (heq : l.flatMap f ++ c :: r = l'.flatMap f ++ c :: r') : l.map v = l'.map v ∧ r = r' := by
  -- an entry is not the end
  have hne : ∀ a, p a → ∀ s s', f a ++ s ≠ c :: s' := by
    intro a ha s s' hs
    obtain ⟨x, t, hx, hxc⟩ := hstart a ha
    rw [hx, List.cons_append] at hs
    exact hxc (List.cons.inj hs).1
  induction l generalizing l' with
  | nil =>
    cases l' with
    | nil => exact ⟨rfl, (List.cons.inj heq).2⟩
    | cons a' l' =>
      simp only [List.flatMap_cons, List.flatMap_nil, List.nil_append, List.append_assoc] at heq
      exact absurd heq.symm (hne a' (hl' a' List.mem_cons_self) _ _)
  | cons a l ih =>
    cases l' with
    | nil =>
      simp only [List.flatMap_cons, List.flatMap_nil, List.nil_append, List.append_assoc] at heq
      exact absurd heq (hne a (hl a List.mem_cons_self) _ _)
    | cons a' l' =>
      simp only [List.flatMap_cons, List.append_assoc] at heq
      obtain ⟨hv, hrest⟩ := h a a' (hl a List.mem_cons_self) (hl' a' List.mem_cons_self) _ _ heq
      obtain ⟨htail, hr⟩ := ih (fun b hb => hl b (List.mem_cons_of_mem _ hb))
        (fun b hb => hl' b (List.mem_cons_of_mem _ hb)) hrest
      exact ⟨by rw [List.map_cons, List.map_cons, hv, htail], hr⟩

end ReadableOn

/-- Lists whose entries show the same have the same text, when entries that show the same do. -/
theorem flatMap_eq_of_map_eq {f : α → List χ} {v : α → β} (h : ∀ a b, v a = v b → f a = f b)
    {l l' : List α} (heq : l.map v = l'.map v) : l.flatMap f = l'.flatMap f := by
  induction l generalizing l' with
  | nil =>
    obtain rfl : l' = [] := List.map_eq_nil_iff.mp heq.symm
    rfl
  | cons a l ih =>
    cases l' with
    | nil => cases heq
    | cons a' l' =>
      obtain ⟨hv, htail⟩ := List.cons.inj heq
      rw [List.flatMap_cons, List.flatMap_cons, h a a' hv, ih htail]

end Traxos
