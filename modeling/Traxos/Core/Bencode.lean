import Mathlib.Data.List.Basic
import Mathlib.Tactic.SplitIfs
import Traxos.Core.Numerals
import Traxos.Core.OrderedWalk

/-! # Bencoding

The data format of BitTorrent: integers, byte strings with a length prefix, lists and dictionaries
with increasing keys. `encode` is the format, `Canonical` says which values have an encoding, and
`decode` is a strict decoder: it accepts exactly the canonical encodings (`decode_eq_some_iff`).
So a string is the encoding of one value at most, and any decoder that decodes what it should
(`Decoder`) finds that value. -/

namespace Traxos

/-- A bencoded value. -/
inductive Bencode
  | int (v : ℤ)
  | str (s : List Char)
  | list (items : List Bencode)
  | dict (entries : List (List Char × Bencode))

namespace Bencode

/-! ## The format -/

/-- An integer in base ten. -/
def encodeInt (v : ℤ) : List Char :=
  if v < 0 then '-' :: Nat.toDigits 10 v.natAbs else Nat.toDigits 10 v.natAbs

/-- A string behind its length. -/
def encodeStr (s : List Char) : List Char := Nat.toDigits 10 s.length ++ ':' :: s

mutual

/-- The encoding of a value. -/
def encode : Bencode → List Char
  | int v => 'i' :: (encodeInt v ++ ['e'])
  | str s => encodeStr s
  | list items => 'l' :: (encodeItems items ++ ['e'])
  | dict entries => 'd' :: (encodeEntries entries ++ ['e'])

/-- The encodings of the items of a list. -/
def encodeItems : List Bencode → List Char
  | [] => []
  | v :: items => encode v ++ encodeItems items

/-- The encodings of the keys and values of a dictionary. -/
def encodeEntries : List (List Char × Bencode) → List Char
  | [] => []
  | (k, v) :: entries => encodeStr k ++ (encode v ++ encodeEntries entries)

end

mutual

/-- The keys of all dictionaries are increasing. -/
def Canonical : Bencode → Prop
  | int _ => True
  | str _ => True
  | list items => CanonicalItems items
  | dict entries => CanonicalEntries entries ∧ Increasing entries

/-- All items are canonical. -/
def CanonicalItems : List Bencode → Prop
  | [] => True
  | v :: items => Canonical v ∧ CanonicalItems items

/-- All values of a dictionary are canonical. -/
def CanonicalEntries : List (List Char × Bencode) → Prop
  | [] => True
  | (_, v) :: entries => Canonical v ∧ CanonicalEntries entries

end

/-- A function that decodes every canonical encoding. -/
def Decoder (d : List Char → Option Bencode) : Prop := ∀ v, Canonical v → d (encode v) = some v

/-! ## A decoder -/

/-- Read an integer up to its end. -/
def decodeInt (s : List Char) : Option (ℤ × List Char) :=
  let negative := s.head? == some '-'
  let digits := if negative then s.tail else s
  let n := Nat.ofDigitChars 10 (takeDigits digits) 0
  match dropDigits digits with
  | 'e' :: rest =>
    let v : ℤ := if negative then -n else n
    if encodeInt v ++ 'e' :: rest = s then some (v, rest) else none
  | _ => none

/-- Read a string with its length. -/
def decodeStr (s : List Char) : Option (List Char × List Char) :=
  let n := Nat.ofDigitChars 10 (takeDigits s) 0
  match dropDigits s with
  | ':' :: rest =>
    if n ≤ rest.length ∧ takeDigits s = Nat.toDigits 10 n then some (rest.take n, rest.drop n)
    else none
  | _ => none

mutual

/-- Read a value. -/
def decodeValue : ℕ → List Char → Option (Bencode × List Char)
  | 0, _ => none
  | fuel + 1, s =>
    match s with
    | 'i' :: s => (decodeInt s).map fun p => (int p.1, p.2)
    | 'l' :: s => (decodeItems fuel s).map fun p => (list p.1, p.2)
    | 'd' :: s => (decodeEntries fuel s).bind fun p =>
        if p.1.Pairwise fun e e' => compare e.1 e'.1 = .lt then some (dict p.1, p.2) else none
    | s => (decodeStr s).map fun p => (str p.1, p.2)

/-- Read the items of a list up to its end. -/
def decodeItems : ℕ → List Char → Option (List Bencode × List Char)
  | 0, _ => none
  | fuel + 1, s =>
    match s with
    | 'e' :: s => some ([], s)
    | s => do
      let (v, s) ← decodeValue fuel s
      let (items, s) ← decodeItems fuel s
      some (v :: items, s)

/-- Read the entries of a dictionary up to its end. -/
def decodeEntries : ℕ → List Char → Option (List (List Char × Bencode) × List Char)
  | 0, _ => none
  | fuel + 1, s =>
    match s with
    | 'e' :: s => some ([], s)
    | s => do
      let (k, s) ← decodeStr s
      let (v, s) ← decodeValue fuel s
      let (entries, s) ← decodeEntries fuel s
      some ((k, v) :: entries, s)

end

/-- Decode a string that is one value and nothing else. -/
def decode (s : List Char) : Option Bencode :=
  match decodeValue s.length s with
  | some (v, []) => some v
  | _ => none

/-! ## Integers and strings -/

section Atoms

variable {s r t : List Char} {c : Char} {v : ℤ}

theorem exists_toDigits_eq_cons (n : ℕ) :
    ∃ c s, Nat.toDigits 10 n = c :: s ∧ c.isDigit = true := by
  have h := isDecimal_toDigits n
  cases hs : Nat.toDigits 10 n with
  | nil => exact absurd hs h.1
  | cons c s =>
    refine ⟨c, s, rfl, h.2.1 c ?_⟩
    rw [hs]
    exact List.mem_cons_self

theorem exists_encodeStr_eq_cons (s : List Char) :
    ∃ c r, encodeStr s = c :: r ∧ c.isDigit = true := by
  obtain ⟨c, r, hr, hc⟩ := exists_toDigits_eq_cons s.length
  exact ⟨c, r ++ ':' :: s, by rw [encodeStr, hr, List.cons_append], hc⟩

/-- Digits are not confused with the other characters of the format. -/
theorem ne_of_isDigit {d : Char} (hc : c.isDigit = true) (hd : d.isDigit = false) : c ≠ d := by
  rintro rfl
  rw [hc] at hd
  cases hd

/-- An integer is read back. -/
theorem decodeInt_encodeInt (v : ℤ) (r : List Char) :
    decodeInt (encodeInt v ++ 'e' :: r) = some (v, r) := by
  have hdec := isDecimal_toDigits v.natAbs
  have hstop : NoLeadingDigit ('e' :: r) := .cons (by decide) r
  have htake := takeDigits_append hdec.2.1 hstop
  have hdrop := dropDigits_append hdec.2.1 hstop
  by_cases hv : v < 0
  · have henc : encodeInt v = '-' :: Nat.toDigits 10 v.natAbs := if_pos hv
    have hvalue : -(v.natAbs : ℤ) = v := by omega
    rw [henc, decodeInt]
    simp only [List.cons_append, List.head?_cons, beq_self_eq_true, if_true, List.tail_cons, htake,
      hdrop, Nat.ofDigitChars_ten_toDigits, hvalue, henc]
  · have henc : encodeInt v = Nat.toDigits 10 v.natAbs := if_neg hv
    have hvalue : (v.natAbs : ℤ) = v := by omega
    -- a number does not start with a minus sign
    have hsign : ((Nat.toDigits 10 v.natAbs ++ 'e' :: r).head? == some '-') = false := by
      obtain ⟨c, s, hs, hc⟩ := exists_toDigits_eq_cons v.natAbs
      rw [hs]
      simpa using ne_of_isDigit hc (by decide)
    rw [henc, decodeInt]
    simp only [hsign, Bool.false_eq_true, if_false, htake, hdrop, Nat.ofDigitChars_ten_toDigits,
      hvalue, henc, if_true]

theorem encodeInt_injective : Function.Injective encodeInt := by
  intro a b h
  have hdecode := congrArg (fun s => decodeInt (s ++ ['e'])) h
  simp only [decodeInt_encodeInt, Option.some.injEq, Prod.mk.injEq, and_true] at hdecode
  exact hdecode

/-- An integer is written with digits and the minus sign. -/
theorem mem_encodeInt {d : Char} {v : ℤ} (h : d ∈ encodeInt v) : d.isDigit ∨ d = '-' := by
  have hdigits : d ∈ Nat.toDigits 10 v.natAbs → d.isDigit :=
    Nat.isDigit_of_mem_toDigits (by decide) (by decide)
  rw [encodeInt] at h
  split at h
  · rcases List.mem_cons.mp h with hminus | hmem
    · exact .inr hminus
    · exact .inl (hdigits hmem)
  · exact .inl (hdigits h)

theorem not_mem_encodeInt {d : Char} (hdigit : d.isDigit = false) (hminus : d ≠ '-') (v : ℤ) :
    d ∉ encodeInt v := by
  intro hmem
  rcases mem_encodeInt hmem with h | h
  · exact Bool.false_ne_true (hdigit.symm.trans h)
  · exact hminus h

/-- What is read as an integer is its encoding. -/
theorem eq_of_decodeInt (h : decodeInt s = some (v, r)) : s = encodeInt v ++ 'e' :: r := by
  rw [decodeInt] at h
  simp only at h
  split at h
  · rename_i rest heq
    split_ifs at h with hneg henc henc
    · obtain ⟨rfl, rfl⟩ := Prod.mk.inj (Option.some.inj h)
      exact henc.symm
    · obtain ⟨rfl, rfl⟩ := Prod.mk.inj (Option.some.inj h)
      exact henc.symm
  · cases h

/-- A string is read back. -/
theorem decodeStr_encodeStr (s r : List Char) : decodeStr (encodeStr s ++ r) = some (s, r) := by
  have hdec := isDecimal_toDigits s.length
  have hstop : NoLeadingDigit (':' :: (s ++ r)) := .cons (by decide) _
  have hsplit : encodeStr s ++ r = Nat.toDigits 10 s.length ++ ':' :: (s ++ r) := by
    rw [encodeStr, List.append_assoc, List.cons_append]
  rw [decodeStr, hsplit, takeDigits_append hdec.2.1 hstop, dropDigits_append hdec.2.1 hstop]
  simp

/-- What is read as a string is its encoding. -/
theorem eq_of_decodeStr (h : decodeStr s = some (t, r)) : s = encodeStr t ++ r := by
  rw [decodeStr] at h
  split at h
  · rename_i rest heq
    split_ifs at h with hcond
    obtain ⟨rfl, rfl⟩ := Prod.mk.inj (Option.some.inj h)
    rw [encodeStr, List.length_take, Nat.min_eq_left hcond.1, ← hcond.2, List.append_assoc,
      List.cons_append, List.take_append_drop, ← heq, takeDigits_append_dropDigits]
  · cases h

end Atoms

/-! ## Values -/

section Values

variable {fuel : ℕ} {c : Char} {s r : List Char} {v : Bencode}

/-- A value that does not start a container or an integer is a string. -/
theorem decodeValue_digit (hc : c.isDigit = true) :
    decodeValue (fuel + 1) (c :: s) = (decodeStr (c :: s)).map fun p => (str p.1, p.2) := by
  have hi : c ≠ 'i' := ne_of_isDigit hc (by decide)
  have hl : c ≠ 'l' := ne_of_isDigit hc (by decide)
  have hd : c ≠ 'd' := ne_of_isDigit hc (by decide)
  rw [decodeValue]
  · exact fun s h => hi (List.cons.inj h).1
  · exact fun s h => hl (List.cons.inj h).1
  · exact fun s h => hd (List.cons.inj h).1

/-- What does not end a list is its next item. -/
theorem decodeItems_succ (hs : ∀ t, s ≠ 'e' :: t) :
    decodeItems (fuel + 1) s = (decodeValue fuel s).bind fun p =>
      (decodeItems fuel p.2).map fun q => (p.1 :: q.1, q.2) := by
  rw [decodeItems]
  · simp only [Option.bind_eq_bind, Option.map_eq_bind]
    rfl
  · exact hs

/-- What does not end a dictionary is its next entry. -/
theorem decodeEntries_succ (hs : ∀ t, s ≠ 'e' :: t) :
    decodeEntries (fuel + 1) s = (decodeStr s).bind fun k =>
      (decodeValue fuel k.2).bind fun p =>
        (decodeEntries fuel p.2).map fun q => ((k.1, p.1) :: q.1, q.2) := by
  rw [decodeEntries]
  · simp only [Option.bind_eq_bind, Option.map_eq_bind]
    rfl
  · exact hs

theorem cons_ne_end (hc : c ≠ 'e') (s t : List Char) : c :: s ≠ 'e' :: t := fun h =>
  hc (List.cons.inj h).1

/-- The first character of a value does not end a container. -/
theorem exists_encode_eq_cons (v : Bencode) : ∃ c s, encode v = c :: s ∧ c ≠ 'e' := by
  cases v with
  | int v => exact ⟨_, _, by rw [encode], by decide⟩
  | str s =>
    obtain ⟨c, r, hr, hc⟩ := exists_encodeStr_eq_cons s
    exact ⟨c, r, by rw [encode, hr], ne_of_isDigit hc (by decide)⟩
  | list items => exact ⟨_, _, by rw [encode], by decide⟩
  | dict entries => exact ⟨_, _, by rw [encode], by decide⟩

theorem length_encode_pos (v : Bencode) : 0 < (encode v).length := by
  obtain ⟨c, s, hs, -⟩ := exists_encode_eq_cons v
  rw [hs]
  exact Nat.succ_pos _

mutual

/-- **A canonical encoding is decoded**, whatever follows it. -/
theorem decodeValue_encode (v : Bencode) (hv : Canonical v) (fuel : ℕ)
    (hfuel : (encode v).length ≤ fuel) (r : List Char) :
    decodeValue fuel (encode v ++ r) = some (v, r) := by
  obtain ⟨fuel, rfl⟩ : ∃ n, fuel = n + 1 :=
    Nat.exists_eq_add_one.mpr (Nat.lt_of_lt_of_le (length_encode_pos v) hfuel)
  cases v with
  | int v =>
    rw [encode, List.cons_append, List.append_assoc, decodeValue]
    simp [decodeInt_encodeInt]
  | str s =>
    obtain ⟨c, t, ht, hc⟩ := exists_encodeStr_eq_cons s
    have hread := decodeStr_encodeStr s r
    rw [encode]
    rw [ht, List.cons_append] at hread ⊢
    rw [decodeValue_digit hc, hread]
    rfl
  | list items =>
    rw [Canonical] at hv
    rw [encode, List.length_cons, List.length_append, List.length_singleton] at hfuel
    rw [encode, List.cons_append, List.append_assoc, decodeValue]
    have hread := decodeItems_encode items hv fuel (by omega) r
    rw [List.singleton_append, hread]
    rfl
  | dict entries =>
    rw [Canonical] at hv
    rw [encode, List.length_cons, List.length_append, List.length_singleton] at hfuel
    rw [encode, List.cons_append, List.append_assoc, decodeValue]
    have hread := decodeEntries_encode entries hv.1 fuel (by omega) r
    rw [List.singleton_append, hread]
    exact if_pos hv.2

/-- The items of a list are decoded. -/
theorem decodeItems_encode (items : List Bencode) (hitems : CanonicalItems items) (fuel : ℕ)
    (hfuel : (encodeItems items).length + 1 ≤ fuel) (r : List Char) :
    decodeItems fuel (encodeItems items ++ 'e' :: r) = some (items, r) := by
  obtain ⟨fuel, rfl⟩ : ∃ n, fuel = n + 1 := Nat.exists_eq_add_one.mpr (by omega)
  cases items with
  | nil => rw [encodeItems, List.nil_append, decodeItems]
  | cons v items =>
    obtain ⟨c, s, hs, hc⟩ := exists_encode_eq_cons v
    have hpos := length_encode_pos v
    rw [CanonicalItems] at hitems
    rw [encodeItems, List.length_append] at hfuel
    have hv := decodeValue_encode v hitems.1 fuel (by omega)
      (encodeItems items ++ 'e' :: r)
    have hrest := decodeItems_encode items hitems.2 fuel (by omega) r
    rw [encodeItems, List.append_assoc]
    rw [hs, List.cons_append] at hv ⊢
    rw [decodeItems_succ (cons_ne_end hc _), hv, Option.bind_some, hrest]
    rfl

/-- The entries of a dictionary are decoded. -/
theorem decodeEntries_encode (entries : List (List Char × Bencode))
    (hentries : CanonicalEntries entries) (fuel : ℕ)
    (hfuel : (encodeEntries entries).length + 1 ≤ fuel) (r : List Char) :
    decodeEntries fuel (encodeEntries entries ++ 'e' :: r) = some (entries, r) := by
  obtain ⟨fuel, rfl⟩ : ∃ n, fuel = n + 1 := Nat.exists_eq_add_one.mpr (by omega)
  cases entries with
  | nil => rw [encodeEntries, List.nil_append, decodeEntries]
  | cons e entries =>
    obtain ⟨k, v⟩ := e
    obtain ⟨c, s, hs, hc⟩ := exists_encodeStr_eq_cons k
    have hpos : 0 < (encodeStr k).length := by
      rw [hs]
      exact Nat.succ_pos _
    rw [CanonicalEntries] at hentries
    rw [encodeEntries, List.length_append, List.length_append] at hfuel
    have hk := decodeStr_encodeStr k (encode v ++ (encodeEntries entries ++ 'e' :: r))
    have hv := decodeValue_encode v hentries.1 fuel (by omega)
      (encodeEntries entries ++ 'e' :: r)
    have hrest := decodeEntries_encode entries hentries.2 fuel (by omega) r
    rw [encodeEntries, List.append_assoc, List.append_assoc]
    rw [hs, List.cons_append] at hk ⊢
    rw [decodeEntries_succ (cons_ne_end (ne_of_isDigit hc (by decide)) _), hk, Option.bind_some, hv,
      Option.bind_some, hrest]
    rfl

end

/-- What `decodeValue` reads is a canonical encoding. -/
def SoundValue (fuel : ℕ) : Prop :=
  ∀ s v r, decodeValue fuel s = some (v, r) → Canonical v ∧ s = encode v ++ r

/-- What `decodeItems` reads is the rest of a list. -/
def SoundItems (fuel : ℕ) : Prop :=
  ∀ s items r, decodeItems fuel s = some (items, r) →
    CanonicalItems items ∧ s = encodeItems items ++ 'e' :: r

/-- What `decodeEntries` reads is the rest of a dictionary, but for the order of the keys. -/
def SoundEntries (fuel : ℕ) : Prop :=
  ∀ s entries r, decodeEntries fuel s = some (entries, r) →
    CanonicalEntries entries ∧ s = encodeEntries entries ++ 'e' :: r

theorem soundValue_succ {fuel : ℕ} (hitems : SoundItems fuel) (hentries : SoundEntries fuel) :
    SoundValue (fuel + 1) := by
  intro s v r h
  rw [decodeValue.eq_def] at h
  simp only at h
  split at h
  · -- an integer
    obtain ⟨⟨i, r'⟩, hread, heq⟩ := Option.map_eq_some_iff.mp h
    obtain ⟨rfl, rfl⟩ := Prod.mk.inj heq
    rw [Canonical, encode, List.cons_append, List.append_assoc, eq_of_decodeInt hread]
    exact ⟨trivial, rfl⟩
  · -- a list
    obtain ⟨⟨items, r'⟩, hread, heq⟩ := Option.map_eq_some_iff.mp h
    obtain ⟨rfl, rfl⟩ := Prod.mk.inj heq
    obtain ⟨hcanonical, rfl⟩ := hitems _ _ _ hread
    rw [Canonical, encode, List.cons_append, List.append_assoc]
    exact ⟨hcanonical, rfl⟩
  · -- a dictionary, whose keys must increase
    obtain ⟨⟨entries, r'⟩, hread, heq⟩ := Option.bind_eq_some_iff.mp h
    split at heq
    · rename_i hincreasing
      obtain ⟨rfl, rfl⟩ := Prod.mk.inj (Option.some.inj heq)
      obtain ⟨hcanonical, rfl⟩ := hentries _ _ _ hread
      rw [Canonical, encode, List.cons_append, List.append_assoc]
      exact ⟨⟨hcanonical, hincreasing⟩, rfl⟩
    · cases heq
  · -- a string
    obtain ⟨⟨t, r'⟩, hread, heq⟩ := Option.map_eq_some_iff.mp h
    obtain ⟨rfl, rfl⟩ := Prod.mk.inj heq
    rw [Canonical, encode]
    exact ⟨trivial, eq_of_decodeStr hread⟩

theorem soundItems_succ {fuel : ℕ} (hvalue : SoundValue fuel) (hitems : SoundItems fuel) :
    SoundItems (fuel + 1) := by
  intro s items r h
  by_cases hend : ∃ t, s = 'e' :: t
  · obtain ⟨t, rfl⟩ := hend
    rw [decodeItems] at h
    obtain ⟨rfl, rfl⟩ := Prod.mk.inj (Option.some.inj h)
    rw [CanonicalItems, encodeItems]
    exact ⟨trivial, rfl⟩
  · rw [decodeItems_succ (not_exists.mp hend)] at h
    obtain ⟨⟨v, s'⟩, hv, h⟩ := Option.bind_eq_some_iff.mp h
    obtain ⟨⟨items', r'⟩, hrest, heq⟩ := Option.map_eq_some_iff.mp h
    obtain ⟨rfl, rfl⟩ := Prod.mk.inj heq
    obtain ⟨hcanonical, hs⟩ := hvalue _ _ _ hv
    obtain ⟨hcanonicalItems, rfl⟩ := hitems _ _ _ hrest
    rw [CanonicalItems, encodeItems, hs, List.append_assoc]
    exact ⟨⟨hcanonical, hcanonicalItems⟩, rfl⟩

theorem soundEntries_succ {fuel : ℕ} (hvalue : SoundValue fuel) (hentries : SoundEntries fuel) :
    SoundEntries (fuel + 1) := by
  intro s entries r h
  by_cases hend : ∃ t, s = 'e' :: t
  · obtain ⟨t, rfl⟩ := hend
    rw [decodeEntries] at h
    obtain ⟨rfl, rfl⟩ := Prod.mk.inj (Option.some.inj h)
    rw [CanonicalEntries, encodeEntries]
    exact ⟨trivial, rfl⟩
  · rw [decodeEntries_succ (not_exists.mp hend)] at h
    obtain ⟨⟨k, s₁⟩, hk, h⟩ := Option.bind_eq_some_iff.mp h
    obtain ⟨⟨v, s₂⟩, hv, h⟩ := Option.bind_eq_some_iff.mp h
    obtain ⟨⟨entries', r'⟩, hrest, heq⟩ := Option.map_eq_some_iff.mp h
    obtain ⟨rfl, rfl⟩ := Prod.mk.inj heq
    have hs := eq_of_decodeStr hk
    obtain ⟨hcanonical, hs₁⟩ := hvalue _ _ _ hv
    obtain ⟨hcanonicalEntries, rfl⟩ := hentries _ _ _ hrest
    obtain rfl : s₁ = encode v ++ (encodeEntries entries' ++ 'e' :: r') := hs₁
    rw [CanonicalEntries, encodeEntries, hs, List.append_assoc, List.append_assoc]
    exact ⟨⟨hcanonical, hcanonicalEntries⟩, rfl⟩

/-- **What is decoded is a canonical encoding**, of the value, of the items of a list or of the
entries of a dictionary. -/
theorem decode_sound (fuel : ℕ) : SoundValue fuel ∧ SoundItems fuel ∧ SoundEntries fuel := by
  induction fuel with
  | zero =>
    refine ⟨fun s v r h => ?_, fun s items r h => ?_, fun s entries r h => ?_⟩
    · cases h
    · cases h
    · cases h
  | succ fuel ih =>
    obtain ⟨hvalue, hitems, hentries⟩ := ih
    exact ⟨soundValue_succ hitems hentries, soundItems_succ hvalue hitems,
      soundEntries_succ hvalue hentries⟩

end Values

/-! ## Decoders -/

section Decoders

variable {s : List Char} {v w : Bencode} {d : List Char → Option Bencode}

/-- **The decoder accepts exactly the canonical encodings.** -/
theorem decode_eq_some_iff : decode s = some v ↔ Canonical v ∧ encode v = s := by
  constructor
  · intro h
    rw [decode] at h
    split at h
    · rename_i w hread
      obtain rfl := Option.some.inj h
      obtain ⟨hcanonical, hs⟩ := (decode_sound s.length).1 s w [] hread
      rw [List.append_nil] at hs
      exact ⟨hcanonical, hs.symm⟩
    · cases h
  · rintro ⟨hcanonical, rfl⟩
    have hread := decodeValue_encode v hcanonical _ (Nat.le_refl _) []
    rw [List.append_nil] at hread
    rw [decode, hread]

theorem decoder_decode : Decoder decode := fun _ hv => decode_eq_some_iff.mpr ⟨hv, rfl⟩

/-- **Unique decodability**: a string is the canonical encoding of one value at most. -/
theorem encode_inj_of_canonical (hv : Canonical v) (hw : Canonical w) (h : encode v = encode w) :
    v = w := by
  have hdecode := decoder_decode v hv
  rw [h, decoder_decode w hw] at hdecode
  exact (Option.some.inj hdecode).symm

end Decoders

end Bencode

end Traxos
