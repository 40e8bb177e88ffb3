import Mathlib.Logic.ExistsUnique
import Mathlib.Tactic.IntervalCases
import Traxos.Core.FixedWidth
import Traxos.Lockseq.Keys

/-! # Random hexadecimal strings

`random_source::uniform_hex`, which makes the second half of the values that clients install. The
random engine is the list of the numbers that its distributions are going to draw.

* **`uniformHex`** — the loop over blocks of eight digits and the rest behind it.
* **`Samples`** — a function of the draws that gives each text of a kind for exactly one list of
  them; `Samples.digits` puts the digits of one more draw in front.
* **`uniform_hex_exact`** — so does `uniform_hex(n)` with the texts of `n` lower-case hexadecimal
  digits: uniform draws make a uniform text. -/

namespace Traxos

namespace RandomSource

/-- `random_source::uniform` of two integers. Where there is a choice, the next number is drawn;
a list whose next number lies outside the bounds belongs to no run. -/
def uniform (min max : ℕ) (draws : List ℕ) : Option (ℕ × List ℕ) :=
  if max ≤ min then some (min, draws)
  else
    match draws with
    | [] => none
    | x :: rest => if min ≤ x ∧ x ≤ max then some (x, rest) else none

/-- `std::format("{:0{}x}", x, width)`. -/
def formatHex (width x : ℕ) : Str := (Nat.toDigits 16 x).leftpad width '0'

/-- The loop of `uniform_hex`, while at least eight digits are left. -/
def uniformHexLoop : ℕ → Str → List ℕ → Option (ℕ × Str × List ℕ)
  | n + 8, s, draws =>
    (uniform 0 0xFFFFFFFF draws).bind fun (x, rest) => uniformHexLoop n (s ++ formatHex 8 x) rest
  | n, s, draws => some (n, s, draws)

/-- The digits behind the loop, fewer than eight; `1U << (n * 4)` has 32 bits. -/
def uniformHexRest (n : ℕ) (s : Str) (draws : List ℕ) : Option (Str × List ℕ) :=
  if 0 < n then
    (uniform 0 ((1#32 <<< (n * 4)) - 1#32).toNat draws).bind fun (x, rest) =>
      some (s ++ formatHex n x, rest)
  else some (s, draws)

/-- `uniform_hex`, from the digits `s` on that there are. -/
def uniformHexFrom (n : ℕ) (s : Str) (draws : List ℕ) : Option (Str × List ℕ) :=
  (uniformHexLoop n s draws).bind fun (n, s, draws) => uniformHexRest n s draws

/-- `uniform_hex`. -/
def uniformHex (n : ℕ) (draws : List ℕ) : Option (Str × List ℕ) := uniformHexFrom n [] draws

example : uniformHex 10 [0xABC, 0x1F] = some ("00000abc1f".toList, []) := by decide

/-- `n` lower-case hexadecimal digits. -/
def IsHexText (n : ℕ) (s : Str) : Prop := s.length = n ∧ ∀ c ∈ s, IsDigitIn 16 c

/-- The function `f` of the draws gives texts `s ++ t` with `P t`, each of them for exactly one list
of draws with a given rest, and makes `k` draws for it. -/
structure Samples (f : List ℕ → Option (Str × List ℕ)) (s : Str) (P : Str → Prop) (k : ℕ) :
    Prop where
  sound : ∀ {draws t rest}, f draws = some (t, rest) →
    (∃ u, P u ∧ t = s ++ u) ∧ draws.length = rest.length + k
  complete : ∀ {u}, P u → ∀ rest, ∃! draws, f draws = some (s ++ u, rest)

section RandomHex

variable {f : List ℕ → Option (Str × List ℕ)} {g : ℕ → List ℕ → Option (Str × List ℕ)} {s t : Str}
  {n w x k m : ℕ} {draws rest : List ℕ}

/-- With a choice, one number within the bounds is drawn. -/
theorem uniform_eq_some (h : 0 < m) :
    uniform 0 m draws = some (x, rest) ↔ draws = x :: rest ∧ x ≤ m := by
  unfold uniform
  rw [if_neg (Nat.not_le_of_lt h)]
  cases draws with
  | nil => simp
  | cons y draws =>
    by_cases hy : y ≤ m
    · simp only [Nat.zero_le, true_and, if_pos hy, Option.some.injEq, Prod.mk.injEq, List.cons.injEq]
      exact ⟨fun h => ⟨h, h.1 ▸ hy⟩, And.left⟩
    · simp only [Nat.zero_le, true_and, if_neg hy, reduceCtorEq, List.cons.injEq, false_iff]
      rintro ⟨⟨rfl, -⟩, hx⟩
      exact hy hx

theorem samples_done (s : Str) : Samples (fun draws => some (s, draws)) s (IsHexText 0) 0 where
  sound {draws t rest} h := by
    obtain ⟨rfl, rfl⟩ : s = t ∧ draws = rest := by simpa using h
    exact ⟨⟨[], ⟨rfl, by simp⟩, by simp⟩, rfl⟩
  complete {u} hu rest := by
    obtain rfl := List.length_eq_zero_iff.mp hu.1
    exact ⟨rest, by simp, fun draws h => by simpa using h⟩

/-- **One draw more**: its `w` digits come first. -/
theorem Samples.digits (hm : 16 ^ (w + 1) = m + 1)
    (h : ∀ x ≤ m, Samples (g x) (s ++ formatHex (w + 1) x) (IsHexText n) k) :
    Samples (fun draws => (uniform 0 m draws).bind fun (x, rest) => g x rest) s
      (IsHexText (n + (w + 1))) (k + 1) := by
  have hpos : 0 < m := by
    have := Nat.pow_le_pow_right (n := 16) (by decide) (Nat.succ_le_succ (Nat.zero_le w))
    omega
  have hformat : ∀ {x}, x ≤ m → formatHex (w + 1) x = numeral 16 (w + 1) x := fun hx =>
    leftpad_toDigits (by decide) (by omega)
  refine ⟨fun {draws t rest} hrun => ?_, fun {u} hu rest => ?_⟩
  · obtain ⟨⟨x, rest'⟩, hdraw, hg⟩ := Option.bind_eq_some_iff.mp hrun
    obtain ⟨rfl, hx⟩ := (uniform_eq_some hpos).mp hdraw
    obtain ⟨⟨u, ⟨hlength, hdigits⟩, rfl⟩, hdraws⟩ := (h x hx).sound hg
    refine ⟨⟨formatHex (w + 1) x ++ u, ⟨?_, fun c hc => ?_⟩, List.append_assoc ..⟩, ?_⟩
    · rw [hformat hx, List.length_append, length_numeral, hlength, Nat.add_comm]
    · rw [hformat hx] at hc
      exact (List.mem_append.mp hc).elim (isDigitIn_of_mem_numeral (by decide)) (hdigits c)
    · rw [List.length_cons, hdraws, Nat.add_assoc]
  · -- the first digits tell the number drawn, and the other ones the draws behind it
    obtain ⟨hlength, hdigits⟩ := hu
    have htake : (u.take (w + 1)).length = w + 1 := by rw [List.length_take]; omega
    obtain ⟨x, hlt, hx⟩ := exists_numeral (b := 16) htake fun c hc =>
      hdigits c (List.mem_of_mem_take hc)
    have hle : x ≤ m := by omega
    have hsplit : s ++ u = s ++ formatHex (w + 1) x ++ u.drop (w + 1) := by
      rw [hformat hle, hx, List.append_assoc, List.take_append_drop]
    have hdrop : IsHexText n (u.drop (w + 1)) :=
      ⟨by rw [List.length_drop]; omega, fun c hc => hdigits c (List.mem_of_mem_drop hc)⟩
    obtain ⟨draws, hdraws, hunique⟩ := (h x hle).complete hdrop rest
    rw [← hsplit] at hdraws hunique
    refine ⟨x :: draws, ?_, fun draws' hrun => ?_⟩
    · exact Option.bind_eq_some_iff.mpr ⟨(x, draws), (uniform_eq_some hpos).mpr ⟨rfl, hle⟩, hdraws⟩
    · obtain ⟨⟨y, rest'⟩, hdraw, hg⟩ := Option.bind_eq_some_iff.mp hrun
      obtain ⟨rfl, hy⟩ := (uniform_eq_some hpos).mp hdraw
      obtain ⟨⟨v, -, hv⟩, -⟩ := (h y hy).sound hg
      obtain rfl : y = x := by
        rw [List.append_assoc, List.append_cancel_left_eq, hformat hy] at hv
        refine numeral_injOn (b := 16) (w := w + 1) (by decide) (by omega) hlt ?_
        rw [hx, hv, List.take_left' (length_numeral ..)]
      rw [hunique rest' hg]

/-- The loop draws eight digits at a time. -/
theorem uniformHexFrom_add (n : ℕ) (s : Str) (draws : List ℕ) :
    uniformHexFrom (n + 8) s draws = (uniform 0 0xFFFFFFFF draws).bind fun (x, rest) =>
      uniformHexFrom n (s ++ formatHex 8 x) rest := by
  rw [uniformHexFrom, uniformHexLoop, Option.bind_assoc]
  rfl

/-- Fewer than eight digits need one draw. -/
theorem uniformHexFrom_lt (hn : n < 8) (s : Str) (draws : List ℕ) :
    uniformHexFrom n s draws = uniformHexRest n s draws := by
  rw [uniformHexFrom]
  interval_cases n <;> rfl

/-- The bound of the last draw: no bit is shifted out. -/
theorem restBound (hw : w < 7) : 16 ^ (w + 1) = ((1#32 <<< ((w + 1) * 4)) - 1#32).toNat + 1 := by
  interval_cases w <;> decide

theorem uniformHexRest_samples (hn : n < 8) (s : Str) :
    Samples (uniformHexRest n s) s (IsHexText n) ((n + 7) / 8) := by
  cases n with
  | zero => exact samples_done s
  | succ w =>
    have h := Samples.digits (restBound (show w < 7 by omega)) fun x _ =>
      samples_done (s ++ formatHex (w + 1) x)
    rw [Nat.zero_add] at h
    rw [show (w + 1 + 7) / 8 = 0 + 1 by omega]
    exact h

theorem uniformHexFrom_samples (n : ℕ) (s : Str) :
    Samples (uniformHexFrom n s) s (IsHexText n) ((n + 7) / 8) := by
  induction n using Nat.strong_induction_on generalizing s with
  | _ n ih =>
    by_cases hn : 8 ≤ n
    · obtain ⟨n, rfl⟩ := Nat.exists_eq_add_of_le' hn
      rw [show (n + 8 + 7) / 8 = (n + 7) / 8 + 1 by omega, funext (uniformHexFrom_add n s)]
      exact .digits (w := 7) (by decide) fun x _ => ih n (by omega) _
    · have hlt := Nat.lt_of_not_le hn
      rw [funext (uniformHexFrom_lt hlt s)]
      exact uniformHexRest_samples hlt s

/-- The seven digits of a value are those of one number. -/
theorem uniformHex_seven : uniformHex 7 draws = some (s, rest) ↔
    ∃ x < 2 ^ 28, draws = x :: rest ∧ s = Lockseq.uniformHex7 x := by
  have hbound : 2 ^ 28 = ((1#32 <<< (7 * 4)) - 1#32).toNat + 1 := restBound (w := 6) (by decide)
  rw [uniformHex, uniformHexFrom_lt (by decide), uniformHexRest, if_pos (by decide),
    Option.bind_eq_some_iff]
  constructor
  · rintro ⟨⟨x, rest'⟩, hdraw, hs⟩
    obtain ⟨rfl, hx⟩ := (uniform_eq_some (by decide)).mp hdraw
    obtain ⟨rfl, rfl⟩ : formatHex 7 x = s ∧ rest' = rest := by simpa using hs
    exact ⟨x, by omega, rfl, rfl⟩
  · rintro ⟨x, hx, rfl, rfl⟩
    exact ⟨(x, rest), (uniform_eq_some (by decide)).mpr ⟨rfl, by omega⟩, rfl⟩

/-- **`uniform_hex(n)`** gives `n` lower-case hexadecimal digits and nothing else, from one draw for each
eight of them and one for those left, and every such text from exactly one list of draws. The texts of
seven are those that the clients of the lock protocol use, of the numbers below `2 ^ 28`. -/
theorem uniform_hex_exact (n : ℕ) :
    (∀ draws s rest, uniformHex n draws = some (s, rest) →
      IsHexText n s ∧ draws.length = rest.length + (n + 7) / 8) ∧
    (∀ s rest, IsHexText n s → ∃! draws, uniformHex n draws = some (s, rest)) ∧
    ∀ s rest, (∃ draws, uniformHex 7 draws = some (s, rest)) ↔
      ∃ x < 2 ^ 28, s = Lockseq.uniformHex7 x := by
  have h := uniformHexFrom_samples n []
  refine ⟨fun draws s rest hrun => ?_, fun s rest hs => h.complete hs rest, fun s rest => ?_⟩
  · obtain ⟨⟨u, hu, rfl⟩, hlength⟩ := h.sound hrun
    exact ⟨hu, hlength⟩
  · constructor
    · rintro ⟨draws, hrun⟩
      obtain ⟨x, hx, -, hs⟩ := uniformHex_seven.mp hrun
      exact ⟨x, hx, hs⟩
    · rintro ⟨x, hx, hs⟩
      exact ⟨x :: rest, uniformHex_seven.mpr ⟨x, hx, rfl, hs⟩⟩

end RandomHex

end RandomSource

end Traxos
