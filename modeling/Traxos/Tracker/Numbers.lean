import Mathlib.Algebra.Group.Int.Defs
import Mathlib.Algebra.Group.Nat.Defs
import Mathlib.Data.List.Basic
import Traxos.Core.Numerals
import Traxos.Pancy.Messages

/-! # Numbers and addresses in requests

`parse_number`, `parse_ipv4` and `format_ipv4` of `tracker/http.cc`. `std::from_chars` follows the
C++ standard: no leading blanks, no plus sign, a minus sign only for a signed type, and a value that
the type does not have is an error. Positions in a string are of type `Fin (s.length + 1)`, so that
none passed to `substr` is out of range; with plain positions and a `substr` that throws,
`parse_ipv4` is the same (`parseIpv4At_eq`). -/

namespace Traxos

namespace Tracker

/-! ## Numbers -/

/-- What `std::from_chars` needs to know of an integer type. -/
structure IntType (α : Type) where
  signed : Bool
  min : ℤ
  max : ℤ
  ofInt : ℤ → α

/-- `uint16_t`. -/
def uint16 : IntType UInt16 :=
  { signed := false, min := 0, max := 2 ^ 16 - 1, ofInt := fun v => .ofNat v.toNat }

/-- `uint32_t`. -/
def uint32 : IntType UInt32 :=
  { signed := false, min := 0, max := 2 ^ 32 - 1, ofInt := fun v => .ofNat v.toNat }

/-- `uint64_t`. -/
def uint64 : IntType UInt64 :=
  { signed := false, min := 0, max := 2 ^ 64 - 1, ofInt := fun v => .ofNat v.toNat }

/-- `int32_t`. -/
def int32 : IntType Int32 :=
  { signed := true, min := -2 ^ 31, max := 2 ^ 31 - 1, ofInt := .ofInt }

/-- The errors of `std::from_chars`. -/
inductive FromCharsError
  | invalidArgument
  | resultOutOfRange
  deriving DecidableEq, Repr

/-- The digits that `std::from_chars` matches behind the sign, and their value in the type. -/
def fromDigits {α : Type} (t : IntType α) (negative : Bool) (s digits : Str) :
    Except FromCharsError α × Str :=
  if takeDigits digits = [] then (.error .invalidArgument, s)
  else
    let n : ℤ := Nat.ofDigitChars 10 (takeDigits digits) 0
    let v := if negative then -n else n
    if t.min ≤ v ∧ v ≤ t.max then (.ok (t.ofInt v), dropDigits digits)
    else (.error .resultOutOfRange, dropDigits digits)

/-- `std::from_chars` in base ten: the value or the error, and what `ptr` points to. -/
def fromChars {α : Type} (t : IntType α) (s : Str) : Except FromCharsError α × Str :=
  if t.signed && s.head? == some '-' then fromDigits t true s s.tail else fromDigits t false s s

/-- `parse_number`: the whole string has to be the number. -/
def parseNumber {α : Type} (t : IntType α) (value : Str) : Option α :=
  match fromChars t value with
  | (.ok result, []) => some result
  | _ => none

section Numbers

variable {α : Type} {t : IntType α} {s ds : Str} {x : α}

/-- The digits are a number of the type, with nothing behind it. -/
theorem fromDigits_eq_ok {negative : Bool} : fromDigits t negative s ds = (.ok x, []) ↔
    ∃ n : ℕ, IsDecimal ds n ∧ (t.min ≤ (if negative then -n else n : ℤ) ∧
      (if negative then -n else n : ℤ) ≤ t.max) ∧ t.ofInt (if negative then -n else n) = x := by
  constructor
  · intro h
    rw [fromDigits] at h
    by_cases hne : takeDigits ds = []
    · rw [if_pos hne] at h
      cases h
    · rw [if_neg hne] at h
      simp only at h
      by_cases hfits : t.min ≤ (if negative then -(Nat.ofDigitChars 10 (takeDigits ds) 0 : ℤ)
            else Nat.ofDigitChars 10 (takeDigits ds) 0) ∧
          (if negative then -(Nat.ofDigitChars 10 (takeDigits ds) 0 : ℤ)
            else Nat.ofDigitChars 10 (takeDigits ds) 0) ≤ t.max
      · rw [if_pos hfits] at h
        obtain ⟨hvalue, hrest⟩ := Prod.mk.inj h
        have hall := dropDigits_eq_nil.mp hrest
        rw [takeDigits_of_all hall] at hne hfits hvalue
        exact ⟨_, ⟨hne, hall, rfl⟩, hfits, Except.ok.inj hvalue⟩
      · rw [if_neg hfits] at h
        cases h
  · rintro ⟨n, ⟨hne, hall, rfl⟩, hfits, rfl⟩
    rw [fromDigits, takeDigits_of_all hall, if_neg hne, dropDigits_eq_nil.mpr hall]
    exact if_pos hfits

theorem parseNumber_eq_some : parseNumber t s = some x ↔ fromChars t s = (.ok x, []) := by
  rw [parseNumber]
  split
  · rename_i y heq
    rw [heq]
    simp
  · rename_i hne
    constructor
    · intro h
      cases h
    · exact fun h => (hne x h).elim

/-- **A number of an unsigned type** is spelled by digits only. -/
theorem parseNumber_of_unsigned (h : t.signed = false) : parseNumber t s = some x ↔
    ∃ n : ℕ, IsDecimal s n ∧ (t.min ≤ n ∧ (n : ℤ) ≤ t.max) ∧ t.ofInt n = x := by
  have hsign : ¬ (t.signed && s.head? == some '-') = true := by simp [h]
  rw [parseNumber_eq_some, fromChars, if_neg hsign, fromDigits_eq_ok]
  rfl

/-- **A number of a signed type** may have a minus sign. -/
theorem parseNumber_of_signed (h : t.signed = true) : parseNumber t s = some x ↔
    ∃ v : ℤ, IsInteger s v ∧ (t.min ≤ v ∧ v ≤ t.max) ∧ t.ofInt v = x := by
  rw [parseNumber_eq_some, fromChars, h, Bool.true_and]
  by_cases hsign : (s.head? == some '-') = true
  · obtain ⟨ds, rfl⟩ : ∃ ds, s = '-' :: ds := by
      cases s with
      | nil => cases hsign
      | cons c ds => exact ⟨ds, by simpa using hsign⟩
    rw [if_pos hsign, fromDigits_eq_ok]
    constructor
    · rintro ⟨n, hn, hfits, hx⟩
      exact ⟨-n, Or.inr ⟨ds, n, rfl, hn, rfl⟩, hfits, hx⟩
    · rintro ⟨v, ⟨n, hn, -⟩ | ⟨ds', n, heq, hn, rfl⟩, hfits, hx⟩
      · exact absurd hn not_isDecimal_minus
      · obtain rfl := (List.cons.inj heq).2
        exact ⟨n, hn, hfits, hx⟩
  · rw [if_neg hsign, fromDigits_eq_ok]
    constructor
    · rintro ⟨n, hn, hfits, hx⟩
      exact ⟨n, Or.inl ⟨n, hn, rfl⟩, hfits, hx⟩
    · rintro ⟨v, ⟨n, hn, rfl⟩ | ⟨ds, n, rfl, -⟩, hfits, hx⟩
      · exact ⟨n, hn, hfits, hx⟩
      · exact absurd rfl hsign

/-- A type whose values are numbers accepts the numerals of its values. -/
theorem parseNumber_iff_isDecimal (h : t.signed = false) (hmin : t.min ≤ 0) {value : α → ℕ}
    (hmax : ∀ x, (value x : ℤ) ≤ t.max) (hvalue : ∀ x, t.ofInt (value x) = x)
    (hofInt : ∀ n : ℕ, (n : ℤ) ≤ t.max → value (t.ofInt n) = n) :
    parseNumber t s = some x ↔ IsDecimal s (value x) := by
  rw [parseNumber_of_unsigned h]
  constructor
  · rintro ⟨n, hn, ⟨-, hle⟩, rfl⟩
    rwa [hofInt n hle]
  · intro hx
    exact ⟨value x, hx, ⟨by omega, hmax x⟩, hvalue x⟩

theorem parseNumber_uint16 {x : UInt16} : parseNumber uint16 s = some x ↔ IsDecimal s x.toNat := by
  refine parseNumber_iff_isDecimal rfl (Int.le_refl _) (fun x => ?_) (fun x => ?_) fun n hn => ?_
  · have := x.toNat_lt
    show (x.toNat : ℤ) ≤ 2 ^ 16 - 1
    omega
  · exact UInt16.ofNat_toNat
  · have hn' : (n : ℤ) ≤ 2 ^ 16 - 1 := hn
    exact UInt16.toNat_ofNat_of_lt' (show n < 2 ^ 16 by omega)

theorem parseNumber_uint32 {x : UInt32} : parseNumber uint32 s = some x ↔ IsDecimal s x.toNat := by
  refine parseNumber_iff_isDecimal rfl (Int.le_refl _) (fun x => ?_) (fun x => ?_) fun n hn => ?_
  · have := x.toNat_lt
    show (x.toNat : ℤ) ≤ 2 ^ 32 - 1
    omega
  · exact UInt32.ofNat_toNat
  · have hn' : (n : ℤ) ≤ 2 ^ 32 - 1 := hn
    exact UInt32.toNat_ofNat_of_lt' (show n < 2 ^ 32 by omega)

theorem parseNumber_uint64 {x : UInt64} : parseNumber uint64 s = some x ↔ IsDecimal s x.toNat := by
  refine parseNumber_iff_isDecimal rfl (Int.le_refl _) (fun x => ?_) (fun x => ?_) fun n hn => ?_
  · have := x.toNat_lt
    show (x.toNat : ℤ) ≤ 2 ^ 64 - 1
    omega
  · exact UInt64.ofNat_toNat
  · have hn' : (n : ℤ) ≤ 2 ^ 64 - 1 := hn
    exact UInt64.toNat_ofNat_of_lt' (show n < 2 ^ 64 by omega)

theorem parseNumber_int32 {x : Int32} : parseNumber int32 s = some x ↔ IsInteger s x.toInt := by
  rw [parseNumber_of_signed rfl]
  constructor
  · rintro ⟨v, hv, ⟨hmin, hmax⟩, rfl⟩
    have hmin' : -2 ^ 31 ≤ v := hmin
    have hmax' : v ≤ 2 ^ 31 - 1 := hmax
    rwa [show (int32.ofInt v).toInt = v from Int32.toInt_ofInt_of_le hmin' (by omega)]
  · intro hx
    refine ⟨x.toInt, hx, ⟨x.le_toInt, ?_⟩, Int32.ofInt_toInt x⟩
    have := x.toInt_lt
    show x.toInt ≤ 2 ^ 31 - 1
    omega

end Numbers

/-! ## Addresses -/

/-- `std::string::npos`. -/
def npos : ℕ := 2 ^ 64 - 1

/-- `s.find(ch, pos)`, `none` for `npos`. -/
def find (s : Str) (ch : Char) (pos : Fin (s.length + 1)) : Option (Fin s.length) :=
  (List.finRange s.length).find? fun i => decide (pos.val ≤ i.val) && s.get i == ch

/-- `s.substr(pos, n)`. -/
def substr (s : Str) (pos : Fin (s.length + 1)) (n : ℕ) : Str := (s.drop pos).take n

/-- The loop of `parse_ipv4`, with `i` turns to go, and the test behind it. Adding one to `npos`
gives zero. -/
def parseIpv4Loop (dotted : Str) : ℕ → UInt32 → Fin (dotted.length + 1) → Option UInt32
  | 0, ip, start => if start.val ≠ dotted.length then none else some ip
  | i + 1, ip, start =>
    let dot := find dotted '.' start
    let count := match dot with
      | some dot => dot.val - start
      | none => npos - start
    match parseNumber uint32 (substr dotted start count) with
    | none => none
    | some part =>
      if 255 < part then none
      else
        let next := match dot with
          | some dot => dot.succ
          | none => 0
        parseIpv4Loop dotted i (ip <<< 8 ||| part) next

/-- `parse_ipv4`. -/
def parseIpv4 (value : Str) : Option UInt32 :=
  let dotted := value ++ ['.']
  parseIpv4Loop dotted 4 0 0

/-- What `substr` throws for a position behind the end of the string. -/
inductive StringException
  | outOfRange
  deriving DecidableEq, Repr

/-- `s.find(ch, pos)` at any position. -/
def findAt (s : Str) (ch : Char) (pos : ℕ) : Option ℕ :=
  if h : pos < s.length + 1 then (find s ch ⟨pos, h⟩).map Fin.val else none

/-- `s.substr(pos, n)` at any position. -/
def substrAt (s : Str) (pos n : ℕ) : Except StringException Str :=
  if h : pos < s.length + 1 then .ok (substr s ⟨pos, h⟩ n) else .error .outOfRange

/-- The loop of `parse_ipv4` at any position. -/
def parseIpv4LoopAt (dotted : Str) : ℕ → UInt32 → ℕ → Except StringException (Option UInt32)
  | 0, ip, start => .ok (if start ≠ dotted.length then none else some ip)
  | i + 1, ip, start => do
    let dot := findAt dotted '.' start
    let count := match dot with
      | some dot => dot - start
      | none => npos - start
    match parseNumber uint32 (← substrAt dotted start count) with
    | none => .ok none
    | some part =>
      if 255 < part then .ok none
      else
        let next := match dot with
          | some dot => dot + 1
          | none => 0
        parseIpv4LoopAt dotted i (ip <<< 8 ||| part) next

/-- `parse_ipv4`, with the exception that `substr` may throw. -/
def parseIpv4At (value : Str) : Except StringException (Option UInt32) :=
  let dotted := value ++ ['.']
  parseIpv4LoopAt dotted 4 0 0

/-- `std::format` of a number. -/
def formatNat (n : ℕ) : Str := Nat.toDigits 10 n

/-- `format_ipv4`. -/
def formatIpv4 (ip : UInt32) : Str :=
  formatNat ((ip >>> 24) &&& 0xff).toNat ++ '.' :: formatNat ((ip >>> 16) &&& 0xff).toNat ++
    '.' :: formatNat ((ip >>> 8) &&& 0xff).toNat ++ '.' :: formatNat (ip &&& 0xff).toNat

/-- The string `s` is an address in dotted form: four numbers up to 255, whose value is that of
`ip`, most significant byte first. -/
def IsIpv4 (s : Str) (ip : UInt32) : Prop :=
  ∃ (a b c d : Str) (w x y z : ℕ), s = a ++ '.' :: b ++ '.' :: c ++ '.' :: d ∧
    IsDecimal a w ∧ IsDecimal b x ∧ IsDecimal c y ∧ IsDecimal d z ∧
    (w ≤ 255 ∧ x ≤ 255 ∧ y ≤ 255 ∧ z ≤ 255) ∧
    ip.toNat = ((w * 256 + x) * 256 + y) * 256 + z

/-- Four non-empty runs of digits with single dots between them, which spell numbers up to 255. -/
def IsDottedQuad (s : Str) (w x y z : ℕ) : Prop :=
  ∃ a b c d : Str, s = a ++ '.' :: b ++ '.' :: c ++ '.' :: d ∧
    IsDecimal a w ∧ IsDecimal b x ∧ IsDecimal c y ∧ IsDecimal d z ∧
    w ≤ 255 ∧ x ≤ 255 ∧ y ≤ 255 ∧ z ≤ 255

/-- The string with the leading zeros of each of its runs removed. -/
def stripZerosDotted (s : Str) : Str := ['.'].intercalate ((s.splitOn '.').map stripZeros)

section Addresses

variable {s a r dotted : Str} {ip part x : UInt32} {start : Fin (dotted.length + 1)} {i : ℕ}

/-- The search finds the first dot behind the start. -/
theorem find_dot (h : dotted.drop start = a ++ '.' :: r) (ha : '.' ∉ a) :
    ∃ dot : Fin dotted.length, find dotted '.' start = some dot ∧ dot.val = start + a.length := by
  have hlen : dotted.length - start = a.length + (r.length + 1) := by
    rw [← List.length_drop, h, List.length_append, List.length_cons]
  have hget : ∀ j : ℕ, dotted[start.val + j]? = (a ++ '.' :: r)[j]? := by
    intro j
    rw [← h, List.getElem?_drop]
  refine ⟨⟨start + a.length, by omega⟩, ?_, rfl⟩
  rw [find, List.find?_eq_some_iff_getElem]
  refine ⟨?_, start + a.length, by simp; omega, by simp, fun j hj => ?_⟩
  · have hdot : dotted[start.val + a.length]? = some '.' := by
      rw [hget, List.getElem?_append_right (Nat.le_refl _), Nat.sub_self, List.getElem?_cons_zero]
    simp [(List.getElem?_eq_some_iff.mp hdot).2]
  · simp only [List.getElem_finRange, List.get_eq_getElem, Bool.not_eq_true', Bool.and_eq_false_iff,
      decide_eq_false_iff_not, beq_eq_false_iff_ne]
    by_cases hstart : start.val ≤ j
    · right
      obtain ⟨k, rfl⟩ := Nat.exists_eq_add_of_le hstart
      have hk : k < a.length := by omega
      have hchar : dotted[start.val + k]? = some a[k] := by
        rw [hget, List.getElem?_append_left hk, List.getElem?_eq_getElem hk]
      intro heq
      refine ha ?_
      rw [← heq]
      simp only [Fin.cast_mk, (List.getElem?_eq_some_iff.mp hchar).2]
      exact List.getElem_mem hk
    · exact Or.inl hstart

/-- What one turn reads. -/
theorem parseIpv4Loop_succ (i : ℕ) (ip : UInt32) (h : dotted.drop start = a ++ '.' :: r)
    (ha : '.' ∉ a) :
    ∃ next : Fin (dotted.length + 1), dotted.drop next = r ∧
      parseIpv4Loop dotted (i + 1) ip start =
        (parseNumber uint32 a).bind fun part =>
          if 255 < part then none else parseIpv4Loop dotted i (ip <<< 8 ||| part) next := by
  obtain ⟨dot, hfind, hdot⟩ := find_dot h ha
  refine ⟨dot.succ, ?_, ?_⟩
  · rw [Fin.val_succ, hdot, Nat.add_assoc, ← List.drop_drop, h]
    simp
  · have hpart : substr dotted start (dot.val - start) = a := by
      rw [substr, h, hdot, Nat.add_sub_cancel_left]
      simp
    rw [parseIpv4Loop, hfind]
    simp only [hpart]
    cases parseNumber uint32 a <;> rfl

/-- Behind the last dot there is no part. -/
theorem parseIpv4Loop_nil (h : dotted.drop start = []) :
    parseIpv4Loop dotted (i + 1) ip start = none := by
  have hpart : ∀ n, substr dotted start n = [] := fun n => by
    rw [substr, h, List.take_nil]
  have hnone : parseNumber uint32 [] = none := by decide
  rw [parseIpv4Loop]
  simp only [hpart, hnone]

/-- A byte is put behind the bytes read before. -/
theorem toNat_shiftLeft_or (part : UInt32) (hip : ip.toNat < 2 ^ 24) (hpart : part.toNat < 256) :
    (ip <<< 8 ||| part).toNat = ip.toNat * 256 + part.toNat := by
  have hfits : ip.toNat <<< 8 < 2 ^ 32 := by
    rw [Nat.shiftLeft_eq]
    omega
  rw [UInt32.toNat_or, UInt32.toNat_shiftLeft, show (8 : UInt32).toNat % 32 = 8 from rfl,
    Nat.mod_eq_of_lt hfits, ← Nat.shiftLeft_add_eq_or_of_lt hpart, Nat.shiftLeft_eq]

theorem not_lt_iff_toNat_le : ¬ 255 < part ↔ part.toNat ≤ 255 := by
  rw [UInt32.not_lt, UInt32.le_iff_toNat_le]
  rfl

/-- There is room for one byte more while there are turns to go. -/
theorem toNat_next (hip : (ip.toNat + 1) * 256 ^ (i + 1) ≤ 2 ^ 32) (hpart : part.toNat ≤ 255) :
    (ip <<< 8 ||| part).toNat = ip.toNat * 256 + part.toNat ∧
      ((ip <<< 8 ||| part).toNat + 1) * 256 ^ i ≤ 2 ^ 32 := by
  have hpow : 256 ^ (i + 1) = 256 ^ i * 256 := Nat.pow_succ ..
  have hone : 1 ≤ 256 ^ i := Nat.one_le_pow _ _ (by decide)
  have hip24 : ip.toNat < 2 ^ 24 := by
    have := Nat.mul_le_mul_left (ip.toNat + 1) hone
    have hassoc : (ip.toNat + 1) * 256 ^ (i + 1) = (ip.toNat + 1) * 256 ^ i * 256 := by
      rw [hpow, Nat.mul_assoc]
    omega
  have hvalue := toNat_shiftLeft_or part hip24 (by omega)
  refine ⟨hvalue, Nat.le_trans ?_ hip⟩
  rw [hvalue, hpow, Nat.mul_comm (256 ^ i) 256, ← Nat.mul_assoc]
  exact Nat.mul_le_mul_right _ (by omega)

/-- A rest that ends in a dot contains one. -/
theorem dot_mem_drop (hdot : dotted.getLast? = some '.') (hrest : dotted.drop start ≠ []) :
    '.' ∈ dotted.drop start := by
  have hlast := List.getLast?_drop (l := dotted) (i := start)
  rw [if_neg (by rw [ne_eq, List.drop_eq_nil_iff] at hrest; omega), hdot] at hlast
  exact List.mem_of_getLast? hlast

/-- **What the loop reads**: as many parts as it has turns to go, each with a dot behind it, and
nothing else. -/
theorem parseIpv4Loop_eq_some (hdot : dotted.getLast? = some '.')
    (hip : (ip.toNat + 1) * 256 ^ i ≤ 2 ^ 32) :
    parseIpv4Loop dotted i ip start = some x ↔
      ∃ parts : List (Str × ℕ), parts.length = i ∧
        dotted.drop start = parts.flatMap (fun p => p.1 ++ ['.']) ∧
        (∀ p ∈ parts, IsDecimal p.1 p.2 ∧ p.2 ≤ 255) ∧
        x.toNat = parts.foldl (fun v p => v * 256 + p.2) ip.toNat := by
  induction i generalizing ip start with
  | zero =>
    have hend : start.val = dotted.length ↔ dotted.drop start = [] := by
      rw [List.drop_eq_nil_iff]
      omega
    rw [parseIpv4Loop, ite_not, Option.ite_none_right_eq_some, hend, Option.some.injEq]
    constructor
    · rintro ⟨hnil, rfl⟩
      refine ⟨[], rfl, hnil, fun p hp => ?_, rfl⟩
      cases hp
    · rintro ⟨parts, hlen, hrest, -, hx⟩
      obtain rfl := List.length_eq_zero_iff.mp hlen
      exact ⟨hrest, (UInt32.toNat_inj.mp hx).symm⟩
  | succ i ih =>
    constructor
    · intro h
      have hrest : dotted.drop start ≠ [] := fun hnil => by
        rw [parseIpv4Loop_nil hnil] at h
        cases h
      obtain ⟨a, r, hsplit, ha⟩ := List.eq_append_cons_of_mem (dot_mem_drop hdot hrest)
      obtain ⟨next, hdrop, heq⟩ := parseIpv4Loop_succ i ip hsplit ha
      rw [heq, Option.bind_eq_some_iff] at h
      obtain ⟨part, hparse, h⟩ := h
      rw [parseNumber_uint32] at hparse
      split at h
      · cases h
      · rename_i hle
        rw [not_lt_iff_toNat_le] at hle
        obtain ⟨hvalue, hfits⟩ := toNat_next hip hle
        obtain ⟨parts, rfl, hrest, hparts, hx⟩ := (ih hfits).mp h
        refine ⟨(a, part.toNat) :: parts, rfl, ?_, ?_, ?_⟩
        · rw [hsplit, List.flatMap_cons, ← hrest, hdrop]
          simp
        · exact List.forall_mem_cons.mpr ⟨⟨hparse, hle⟩, hparts⟩
        · rw [hx, hvalue]
          rfl
    · rintro ⟨parts, hlen, hrest, hparts, hx⟩
      cases parts with
      | nil => cases hlen
      | cons p parts =>
        obtain ⟨⟨ha, hle⟩, hparts⟩ := List.forall_mem_cons.mp hparts
        rw [List.flatMap_cons, List.append_assoc] at hrest
        obtain ⟨next, hdrop, heq⟩ := parseIpv4Loop_succ i ip hrest
          (ha.not_mem (by decide))
        have hp : (UInt32.ofNat p.2).toNat = p.2 := UInt32.toNat_ofNat_of_lt' (by
          show p.2 < 2 ^ 32
          omega)
        have hparse : parseNumber uint32 p.1 = some (UInt32.ofNat p.2) := by
          rw [parseNumber_uint32, hp]
          exact ha
        have hle' : (UInt32.ofNat p.2).toNat ≤ 255 := by rwa [hp]
        obtain ⟨hvalue, hfits⟩ := toNat_next hip hle'
        rw [heq, hparse, Option.bind_some, if_neg (not_lt_iff_toNat_le.mpr hle'), ih hfits]
        refine ⟨parts, Nat.succ.inj hlen, hdrop, hparts, ?_⟩
        rw [hx, hvalue, hp]
        rfl

/-- **An address is parsed exactly** when it is in dotted form. -/
theorem parseIpv4_eq_some : parseIpv4 s = some x ↔ IsIpv4 s x := by
  have hdot : (s ++ ['.']).getLast? = some '.' := List.getLast?_concat
  rw [parseIpv4, parseIpv4Loop_eq_some hdot (by decide)]
  constructor
  · rintro ⟨parts, hlen, hrest, hparts, hx⟩
    obtain ⟨⟨a, v⟩, parts, rfl⟩ := List.exists_cons_of_length_eq_add_one hlen
    obtain ⟨⟨b, w⟩, ⟨c, y⟩, ⟨d, z⟩, rfl⟩ := List.length_eq_three.mp (Nat.succ.inj hlen)
    simp only [List.forall_mem_cons] at hparts
    obtain ⟨⟨ha, hv⟩, ⟨hb, hw⟩, ⟨hc, hy⟩, ⟨hd, hz⟩, -⟩ := hparts
    refine ⟨a, b, c, d, v, w, y, z, ?_, ha, hb, hc, hd, ⟨hv, hw, hy, hz⟩, ?_⟩
    · refine (List.append_left_inj ['.']).mp ?_
      simpa using hrest
    · simpa using hx
  · rintro ⟨a, b, c, d, w, x, y, z, rfl, ha, hb, hc, hd, ⟨hw, hx, hy, hz⟩, hvalue⟩
    refine ⟨[(a, w), (b, x), (c, y), (d, z)], rfl, by simp, ?_, by rw [hvalue]; simp⟩
    simp only [List.forall_mem_cons]
    exact ⟨⟨ha, hw⟩, ⟨hb, hx⟩, ⟨hc, hy⟩, ⟨hd, hz⟩, fun _ h => nomatch h⟩

/-- The low byte of a number. -/
theorem toNat_and_byte (n : UInt32) : (n &&& 0xff).toNat = n.toNat % 256 := by
  rw [UInt32.toNat_and]
  exact Nat.and_two_pow_sub_one_eq_mod n.toNat 8

theorem toNat_shiftRight_of_lt {k : ℕ} (hk : k < 32) (n : UInt32) :
    (n >>> UInt32.ofNat k).toNat = n.toNat / 2 ^ k := by
  have hkn : (UInt32.ofNat k).toNat = k := UInt32.toNat_ofNat_of_lt' (by
    show k < 2 ^ 32
    omega)
  rw [UInt32.toNat_shiftRight, hkn, Nat.mod_eq_of_lt hk, Nat.shiftRight_eq_div_pow]

/-- The bytes that `format_ipv4` prints. -/
theorem formatIpv4_bytes (ip : UInt32) : formatIpv4 ip =
    formatNat (ip.toNat / 2 ^ 24 % 256) ++ '.' :: formatNat (ip.toNat / 2 ^ 16 % 256) ++
      '.' :: formatNat (ip.toNat / 2 ^ 8 % 256) ++ '.' :: formatNat (ip.toNat % 256) := by
  have h24 : (ip >>> 24).toNat = ip.toNat / 2 ^ 24 := toNat_shiftRight_of_lt (by decide) ip
  have h16 : (ip >>> 16).toNat = ip.toNat / 2 ^ 16 := toNat_shiftRight_of_lt (by decide) ip
  have h8 : (ip >>> 8).toNat = ip.toNat / 2 ^ 8 := toNat_shiftRight_of_lt (by decide) ip
  simp only [formatIpv4, toNat_and_byte, h24, h16, h8]

/-- What `format_ipv4` prints is the dotted form of the address. -/
theorem isIpv4_formatIpv4 (ip : UInt32) : IsIpv4 (formatIpv4 ip) ip := by
  rw [formatIpv4_bytes]
  refine ⟨_, _, _, _, _, _, _, _, rfl, isDecimal_toDigits _, isDecimal_toDigits _,
    isDecimal_toDigits _, isDecimal_toDigits _, by omega, ?_⟩
  have hlt := ip.toNat_lt
  omega

/-- **The text form of an address is read back.** -/
theorem parseIpv4_formatIpv4 (ip : UInt32) : parseIpv4 (formatIpv4 ip) = some ip :=
  parseIpv4_eq_some.mpr (isIpv4_formatIpv4 ip)

/-- **No position is out of range**: the loop with plain positions never throws. -/
theorem parseIpv4LoopAt_eq (start : Fin (dotted.length + 1)) :
    parseIpv4LoopAt dotted i ip start = .ok (parseIpv4Loop dotted i ip start) := by
  induction i generalizing ip start with
  | zero => rfl
  | succ i ih =>
    have hfind : findAt dotted '.' start = (find dotted '.' start).map Fin.val := dif_pos start.2
    have hsubstr : ∀ n, substrAt dotted start n = .ok (substr dotted start n) :=
      fun n => dif_pos start.2
    rw [parseIpv4LoopAt, parseIpv4Loop]
    simp only [hfind, hsubstr]
    cases find dotted '.' start with
    | none =>
      simp only [Option.map_none, bind, Except.bind]
      split
      · rfl
      · split
        · rfl
        · exact ih 0
    | some dot =>
      simp only [Option.map_some, bind, Except.bind]
      split
      · rfl
      · split
        · rfl
        · exact ih dot.succ

theorem parseIpv4At_eq (s : Str) : parseIpv4At s = .ok (parseIpv4 s) :=
  parseIpv4LoopAt_eq 0

/-- An address is a dotted quad and its value. -/
theorem isIpv4_iff : IsIpv4 s ip ↔ ∃ w x y z, IsDottedQuad s w x y z ∧
    ip.toNat = ((w * 256 + x) * 256 + y) * 256 + z := by
  constructor
  · rintro ⟨a, b, c, d, w, x, y, z, hs, ha, hb, hc, hd, hle, hvalue⟩
    exact ⟨w, x, y, z, ⟨a, b, c, d, hs, ha, hb, hc, hd, hle⟩, hvalue⟩
  · rintro ⟨w, x, y, z, ⟨a, b, c, d, hs, ha, hb, hc, hd, hle⟩, hvalue⟩
    exact ⟨a, b, c, d, w, x, y, z, hs, ha, hb, hc, hd, hle, hvalue⟩

/-- The value of a dotted quad fits. -/
theorem IsDottedQuad.exists_toNat_eq {w x y z : ℕ} (h : IsDottedQuad s w x y z) :
    ∃ ip : UInt32, ip.toNat = ((w * 256 + x) * 256 + y) * 256 + z := by
  obtain ⟨-, -, -, -, -, -, -, -, -, hw, hx, hy, hz⟩ := h
  refine ⟨UInt32.ofNat (((w * 256 + x) * 256 + y) * 256 + z), UInt32.toNat_ofNat_of_lt' ?_⟩
  show _ < 2 ^ 32
  omega

/-- The numbers that make up an address are those printed. -/
theorem formatIpv4_eq {w x y z : ℕ} (hw : w ≤ 255) (hx : x ≤ 255) (hy : y ≤ 255) (hz : z ≤ 255)
    (hvalue : ip.toNat = ((w * 256 + x) * 256 + y) * 256 + z) :
    formatIpv4 ip = formatNat w ++ '.' :: formatNat x ++ '.' :: formatNat y ++
      '.' :: formatNat z := by
  have hbytes : ip.toNat / 2 ^ 24 % 256 = w ∧ ip.toNat / 2 ^ 16 % 256 = x ∧
      ip.toNat / 2 ^ 8 % 256 = y ∧ ip.toNat % 256 = z := by omega
  obtain ⟨rfl, rfl, rfl, rfl⟩ := hbytes
  exact formatIpv4_bytes ip

/-- Runs without dots are taken apart at the dots and put together again. -/
theorem stripZerosDotted_eq {a b c d : Str} (ha : '.' ∉ a) (hb : '.' ∉ b) (hc : '.' ∉ c)
    (hd : '.' ∉ d) : stripZerosDotted (a ++ '.' :: b ++ '.' :: c ++ '.' :: d) =
      stripZeros a ++ '.' :: stripZeros b ++ '.' :: stripZeros c ++ '.' :: stripZeros d := by
  have hsplit : (a ++ '.' :: b ++ '.' :: c ++ '.' :: d).splitOn '.' = [a, b, c, d] := by
    simp only [List.append_assoc, List.cons_append]
    rw [List.splitOn_append_cons_self_of_not_mem ha,
      List.splitOn_append_cons_self_of_not_mem hb, List.splitOn_append_cons_self_of_not_mem hc,
      List.splitOn_eq_singleton hd]
  rw [stripZerosDotted, hsplit]
  simp [List.intercalate]

/-- Printing a parsed address removes the redundant zeros. -/
theorem formatIpv4_of_isIpv4 (h : IsIpv4 s ip) : formatIpv4 ip = stripZerosDotted s := by
  obtain ⟨a, b, c, d, w, x, y, z, rfl, ha, hb, hc, hd, ⟨hw, hx, hy, hz⟩, hvalue⟩ := h
  have hdot : ('.' : Char).isDigit = false := by decide
  rw [formatIpv4_eq hw hx hy hz hvalue, stripZerosDotted_eq (ha.not_mem hdot) (hb.not_mem hdot)
    (hc.not_mem hdot) (hd.not_mem hdot), ← toDigits_eq_stripZeros ha, ← toDigits_eq_stripZeros hb,
    ← toDigits_eq_stripZeros hc, ← toDigits_eq_stripZeros hd]
  rfl

/-- **The text form of an address is parsed exactly** and round-trips, up to redundant zeros. -/
theorem ipv4_text_exact (s : Str) :
    ((parseIpv4 s).isSome ↔ ∃ w x y z, IsDottedQuad s w x y z) ∧
    (∀ ip, parseIpv4 s = some ip ↔ ∃ w x y z, IsDottedQuad s w x y z ∧
      ip.toNat = ((w * 256 + x) * 256 + y) * 256 + z) ∧
    parseIpv4At s = .ok (parseIpv4 s) ∧
    (∀ ip, parseIpv4 s = some ip → formatIpv4 ip = stripZerosDotted s) ∧
    ∀ ip, parseIpv4 (formatIpv4 ip) = some ip := by
  have hparse : ∀ ip, parseIpv4 s = some ip ↔ ∃ w x y z, IsDottedQuad s w x y z ∧
      ip.toNat = ((w * 256 + x) * 256 + y) * 256 + z :=
    fun ip => parseIpv4_eq_some.trans isIpv4_iff
  refine ⟨?_, hparse, parseIpv4At_eq s, fun ip h => ?_, parseIpv4_formatIpv4⟩
  · rw [Option.isSome_iff_exists]
    constructor
    · rintro ⟨ip, h⟩
      obtain ⟨w, x, y, z, hquad, -⟩ := (hparse ip).mp h
      exact ⟨w, x, y, z, hquad⟩
    · rintro ⟨w, x, y, z, hquad⟩
      obtain ⟨ip, hvalue⟩ := hquad.exists_toNat_eq
      exact ⟨ip, (hparse ip).mpr ⟨w, x, y, z, hquad, hvalue⟩⟩
  · exact formatIpv4_of_isIpv4 (parseIpv4_eq_some.mp h)

end Addresses

end Tracker

end Traxos
