import Mathlib.Data.List.Basic
import Traxos.Pancy.Messages

/-! # Keys and values of the lock protocol

The strings of `lockseq_model`: `c{N}` for a client, `g{G}/lock` for the lock of a group and
`g{G}/v{III}` for its values, and the values `c{N} {HEXDIGITS}` that clients install. Numbers are
printed as `std::format` prints them, and the separators `/` and a blank are no digits; so keys of
different groups differ, a lock key is no value key, and values of different clients differ. -/

namespace Traxos

namespace Lockseq

/-- `make_client_key`. -/
def makeClientKey (cid : ℕ) : Str := 'c' :: Nat.toDigits 10 cid

/-- `client_key_prefix`, the client key and a blank. -/
def clientKeyPrefix (cid : ℕ) : Str := makeClientKey cid ++ [' ']

/-- `make_group_key`. -/
def makeGroupKey (gid : ℕ) : Str := 'g' :: Nat.toDigits 10 gid

/-- `make_lock_key`. -/
def makeLockKey (gid : ℕ) : Str := makeGroupKey gid ++ ['/', 'l', 'o', 'c', 'k']

/-- `make_value_key`: the index is padded with zeros to three digits. -/
def makeValueKey (gid vid : ℕ) : Str :=
  makeGroupKey gid ++ '/' :: 'v' :: (Nat.toDigits 10 vid).leftpad 3 '0'

/-- `uniform_hex(7)`, when the random number drawn is `x`. -/
def uniformHex7 (x : ℕ) : Str := (Nat.toDigits 16 x).leftpad 7 '0'

/-! ## Telling them apart -/

theorem toDigits_ten_injective : Function.Injective (Nat.toDigits 10) := by
  intro a b h
  have hvalue := congrArg (fun ds => Nat.ofDigitChars 10 ds 0) h
  simpa using hvalue

/-- Reading digits off the front of a string stops at the first separator. -/
theorem takeWhile_toDigits_append {ch : Char} (h : ch.isDigit = false) (n : ℕ) (l : Str) :
    (Nat.toDigits 10 n ++ ch :: l).takeWhile Char.isDigit = Nat.toDigits 10 n := by
  have hall : ∀ x ∈ Nat.toDigits 10 n, x.isDigit = true := fun x hx =>
    Nat.isDigit_of_mem_toDigits (by decide) (by decide) hx
  rw [List.takeWhile_append_of_pos hall, List.takeWhile_cons_of_neg (by simp [h]), List.append_nil]

theorem leftpad_toDigits_injective (w : ℕ) :
    Function.Injective fun n => (Nat.toDigits 10 n).leftpad w '0' := by
  intro a b h
  have hvalue := congrArg (fun ds => Nat.ofDigitChars 10 ds 0) h
  simpa [List.leftpad, Nat.ofDigitChars_append] using hvalue

/-- A number and what follows it can be read back when what follows starts with a separator. -/
theorem toDigits_append_cons_inj {ch ch' : Char} (h : ch.isDigit = false) (h' : ch'.isDigit = false)
    {a b : ℕ} {l l' : Str} (heq : Nat.toDigits 10 a ++ ch :: l = Nat.toDigits 10 b ++ ch' :: l') :
    a = b ∧ ch :: l = ch' :: l' := by
  have hdigits := congrArg (List.takeWhile Char.isDigit) heq
  rw [takeWhile_toDigits_append h, takeWhile_toDigits_append h'] at hdigits
  obtain rfl := toDigits_ten_injective hdigits
  exact ⟨rfl, List.append_cancel_left heq⟩

theorem makeLockKey_injective : Function.Injective makeLockKey := by
  intro a b h
  exact (toDigits_append_cons_inj (by decide) (by decide) (List.cons.inj h).2).1

theorem makeValueKey_inj {g g' i i' : ℕ} :
    makeValueKey g i = makeValueKey g' i' ↔ g = g' ∧ i = i' := by
  constructor
  · intro h
    obtain ⟨hg, hrest⟩ :=
      toDigits_append_cons_inj (by decide) (by decide) (List.cons.inj h).2
    have hi := (List.cons.inj (List.cons.inj hrest).2).2
    exact ⟨hg, leftpad_toDigits_injective 3 hi⟩
  · rintro ⟨rfl, rfl⟩
    rfl

/-- A value key tells its group. -/
theorem gid_eq_of_makeValueKey {g i gid : ℕ} {l : Str}
    (h : makeValueKey g i = makeGroupKey gid ++ '/' :: l) : g = gid :=
  (toDigits_append_cons_inj (by decide) (by decide) (List.cons.inj h).2).1

/-- No lock key starts like a value key. -/
theorem makeLockKey_ne_append {g gid : ℕ} {l : Str} :
    makeLockKey g ≠ makeGroupKey gid ++ '/' :: 'v' :: l := by
  intro h
  obtain ⟨-, hrest⟩ := toDigits_append_cons_inj (by decide) (by decide) (List.cons.inj h).2
  have hchar := (List.cons.inj (List.cons.inj hrest).2).1
  exact absurd hchar (by decide)

theorem makeLockKey_ne_makeValueKey (g g' i : ℕ) : makeLockKey g ≠ makeValueKey g' i :=
  makeLockKey_ne_append

/-- Values of different clients differ. -/
theorem client_eq_of_clientKeyPrefix_append {c d : ℕ} {l l' : Str}
    (h : clientKeyPrefix c ++ l = clientKeyPrefix d ++ l') : c = d := by
  rw [clientKeyPrefix, clientKeyPrefix, List.append_assoc, List.append_assoc] at h
  exact (toDigits_append_cons_inj (by decide) (by decide) (List.cons.inj h).2).1

end Lockseq

end Traxos
