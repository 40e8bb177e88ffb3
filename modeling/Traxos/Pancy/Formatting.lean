import Traxos.Core.Bencode
import Traxos.Core.Readable
import Traxos.Pancy.Database

/-! # Printed messages

The formatters of `pancy_msgs.hh`, with which a verbose network prints each message that is sent or
received. Not all fields are printed: no negative `version_match`, since any of them matches all
versions; of the answer to a modification `actual` only when it does not match and `version` only
when it does. What is printed can be read back when no string has a quotation mark in it
(`readable_request`, `readable_response`), and it is all that matters: requests that are printed the
same are processed the same (`formatted_requests_exact`), and the answers of databases are printed with
all that they have (`Heap.shown_processReq`). -/

namespace Traxos

/-! ## The source -/

/-- `formatter<errc>`. -/
def Errc.format : Errc → Str
  | .ok => "✓".toList
  | .notFound => "ENOTFOUND".toList
  | .noMatch => "ENOMATCH".toList
  | .redirect => "EREDIRECT".toList

/-- `formatter<version_match_formatter>`. -/
def formatVersionMatch (versionMatch : ℤ) : Str :=
  if versionMatch < 0 then [] else ", VM".toList ++ Bencode.encodeInt versionMatch

/-- `formatter<modification_formatter>`. -/
def ModResponse.format (m : ModResponse) : Str :=
  if m.errcode = .noMatch then
    m.errcode.format ++ ", \"".toList ++ m.actual ++ "\", V".toList ++
      Bencode.encodeInt m.previousVersion
  else if m.previousVersion = m.version then
    m.errcode.format ++ ", V".toList ++ Bencode.encodeInt m.previousVersion
  else
    m.errcode.format ++ ", V".toList ++ Bencode.encodeInt m.previousVersion ++ "→".toList ++
      Bencode.encodeInt m.version

/-- `formatter<request>`. -/
def Request.format : Request → Str
  | .get m =>
    "GET(#".toList ++ Nat.toDigits 10 m.serial ++ ", \"".toList ++ m.key ++ "\")".toList
  | .put m =>
    "PUT(#".toList ++ Nat.toDigits 10 m.serial ++ ", \"".toList ++ m.key ++ "\", \"".toList ++
      m.value ++ "\"".toList ++ formatVersionMatch m.versionMatch ++ ")".toList
  | .cas m =>
    "CAS(#".toList ++ Nat.toDigits 10 m.serial ++ ", \"".toList ++ m.key ++ "\", \"".toList ++
      m.expected ++ "\", \"".toList ++ m.desired ++ "\"".toList ++
      formatVersionMatch m.versionMatch ++ ")".toList
  | .remove m =>
    "REMOVE(#".toList ++ Nat.toDigits 10 m.serial ++ ", \"".toList ++ m.key ++ "\"".toList ++
      formatVersionMatch m.versionMatch ++ ")".toList

/-- `formatter<response>`. -/
def Response.format : Response → Str
  | .get m =>
    "GET_A(#".toList ++ Nat.toDigits 10 m.serial ++ ", ".toList ++ m.errcode.format ++
      ", \"".toList ++ m.value ++ "\", V".toList ++ Bencode.encodeInt m.version ++ ")".toList
  | .put m =>
    "PUT_A(#".toList ++ Nat.toDigits 10 m.serial ++ ", ".toList ++ m.format ++ ")".toList
  | .cas m =>
    "CAS_A(#".toList ++ Nat.toDigits 10 m.serial ++ ", ".toList ++ m.format ++ ")".toList
  | .remove m =>
    "REMOVE_A(#".toList ++ Nat.toDigits 10 m.serial ++ ", ".toList ++ m.format ++ ")".toList
  | .redirection m =>
    "REDIRECTION(#".toList ++ Nat.toDigits 10 m.serial ++ ", ↪".toList ++
      Nat.toDigits 10 m.redirection ++ ")".toList

/-! ## Numbers and strings -/

section Parts

variable {α : Type} {p : α → Prop} {c : Char}

theorem readable_nat (n : α → ℕ) (hdigit : c.isDigit = false) :
    ReadableOn p (fun a => Nat.toDigits 10 (n a) ++ [c]) n := by
  refine .terminated (fun a _ hmem => ?_) fun a b _ _ h => ?_
  · rw [Nat.isDigit_of_mem_toDigits (by decide) (by decide) hmem] at hdigit
    cases hdigit
  · rw [← Nat.ofDigitChars_ten_toDigits (n := n a), h, Nat.ofDigitChars_ten_toDigits]

theorem readable_int (v : α → ℤ) (hdigit : c.isDigit = false) (hminus : c ≠ '-') :
    ReadableOn p (fun a => Bencode.encodeInt (v a) ++ [c]) v :=
  .terminated (fun _ _ => Bencode.not_mem_encodeInt hdigit hminus _)
    fun _ _ _ _ h => Bencode.encodeInt_injective h

theorem readable_str {s : α → Str} (hs : ∀ a, p a → c ∉ s a) :
    ReadableOn p (fun a => s a ++ [c]) s :=
  .terminated hs fun _ _ _ _ h => h

end Parts

/-! ## What is printed of a message -/

/-- A request as it is printed: a negative `versionMatch` is like `anyVersion`. -/
def Request.shown : Request → Request
  | .get m => .get m
  | .put m => .put { m with versionMatch := max anyVersion m.versionMatch }
  | .cas m => .cas { m with versionMatch := max anyVersion m.versionMatch }
  | .remove m => .remove { m with versionMatch := max anyVersion m.versionMatch }

/-- An answer to a modification as it is printed: only one that does not match has an actual value,
and only others have a new version. -/
def ModResponse.shown (m : ModResponse) : ModResponse :=
  { m with
    actual := if m.errcode = .noMatch then m.actual else []
    version := if m.errcode = .noMatch then m.previousVersion else m.version }

/-- A response as it is printed; a redirection has no other error code. -/
def Response.shown : Response → Response
  | .redirection m => .redirection { m with errcode := .redirect }
  | .get m => .get m
  | .put m => .put ⟨m.toModResponse.shown⟩
  | .cas m => .cas ⟨m.toModResponse.shown⟩
  | .remove m => .remove ⟨m.toModResponse.shown⟩

/-- No string of a request has a quotation mark in it. -/
def Request.Quotable : Request → Prop
  | .get m => '"' ∉ m.key
  | .put m => '"' ∉ m.key ∧ '"' ∉ m.value
  | .cas m => '"' ∉ m.key ∧ '"' ∉ m.expected ∧ '"' ∉ m.desired
  | .remove m => '"' ∉ m.key

/-- No string of a response has a quotation mark in it. -/
def Response.Quotable : Response → Prop
  | .redirection _ => True
  | .get m => '"' ∉ m.value
  | .put m => '"' ∉ m.actual
  | .cas m => '"' ∉ m.actual
  | .remove m => '"' ∉ m.actual

theorem formatVersionMatch_max (v : ℤ) :
    formatVersionMatch (max anyVersion v) = formatVersionMatch v := by
  by_cases hv : v < 0
  · have hmax : max anyVersion v < 0 := by
      rw [anyVersion_eq]
      omega
    rw [formatVersionMatch, formatVersionMatch, if_pos hv, if_pos hmax]
  · have hmax : max anyVersion v = v := by
      rw [anyVersion_eq]
      omega
    rw [hmax]

theorem ModResponse.format_shown (m : ModResponse) : m.shown.format = m.format := by
  unfold ModResponse.format ModResponse.shown
  by_cases h : m.errcode = .noMatch
  · simp only [if_pos h]
  · simp only [if_neg h]

theorem Request.format_shown (q : Request) : q.shown.format = q.format := by
  cases q with
  | get m => rfl
  | put m =>
    unfold Request.format Request.shown
    simp only [formatVersionMatch_max]
  | cas m =>
    unfold Request.format Request.shown
    simp only [formatVersionMatch_max]
  | remove m =>
    unfold Request.format Request.shown
    simp only [formatVersionMatch_max]

theorem Response.format_shown (a : Response) : a.shown.format = a.format := by
  cases a with
  | redirection m => rfl
  | get m => rfl
  | put m =>
    unfold Response.format Response.shown
    simp only [ModResponse.format_shown]
    rfl
  | cas m =>
    unfold Response.format Response.shown
    simp only [ModResponse.format_shown]
    rfl
  | remove m =>
    unfold Response.format Response.shown
    simp only [ModResponse.format_shown]
    rfl

/-! ## Reading an answer to a modification -/

/-- Where `formatVersionMatch` is printed, a parenthesis follows. -/
theorem readable_versionMatch :
    ReadableOn (fun _ : ℤ => True) (fun v => formatVersionMatch v ++ ")".toList)
      fun v => max anyVersion v := by
  let k : Bool → Str := fun any => if any then ")".toList else ", VM".toList
  let g : ℤ → Str := fun v => if v < 0 then [] else Bencode.encodeInt v ++ [')']
  have hformat : ∀ v, formatVersionMatch v ++ ")".toList = k (decide (v < 0)) ++ g v := by
    intro v
    by_cases hv : v < 0
    · simp only [formatVersionMatch, k, g, if_pos hv, decide_eq_true hv, if_true, List.nil_append,
        List.append_nil]
    · simp only [formatVersionMatch, k, g, if_neg hv, decide_eq_false hv, Bool.false_eq_true, if_false,
        List.append_assoc]
      rfl
  rw [show (fun v => formatVersionMatch v ++ ")".toList) = _ from funext hformat]
  refine ReadableOn.tagged (by decide) fun x => ?_
  cases x with
  | true =>
    refine ((ReadableOn.const _ [] ()).congr ?_).view ?_
    · rintro v ⟨-, hv⟩
      exact if_pos (of_decide_eq_true hv)
    · rintro v v' ⟨-, hv⟩ ⟨-, hv'⟩ -
      have hneg := of_decide_eq_true hv
      have hneg' := of_decide_eq_true hv'
      rw [anyVersion_eq]
      omega
  | false =>
    refine ((readable_int (c := ')') (fun v => v) (by decide) (by decide)).congr ?_).view ?_
    · rintro v ⟨-, hv⟩
      exact if_neg (of_decide_eq_false hv)
    · rintro v v' - - rfl
      rfl

theorem Errc.format_prefixFree (e e' : Errc) (h : e.format <+: e'.format) : e = e' := by
  revert h
  cases e <;> cases e' <;> decide

/-- The end of an answer to a modification. -/
def ModResponse.newVersion (m : ModResponse) : Str :=
  if m.previousVersion = m.version then ")".toList
  else "→".toList ++ (Bencode.encodeInt m.version ++ [')'])

theorem ModResponse.newVersion_start (m : ModResponse) :
    ∃ c t, m.newVersion = c :: t ∧ ¬ (c.isDigit ∨ c = '-') := by
  unfold newVersion
  split
  · exact ⟨')', [], rfl, by decide⟩
  · exact ⟨'→', _, rfl, by decide⟩

theorem ModResponse.readable_newVersion : ReadableOn (fun _ : ModResponse => True) newVersion
    fun m => if m.previousVersion = m.version then none else some m.version := by
  let k : Bool → Str := fun same => if same then ")".toList else "→".toList
  let g : ModResponse → Str := fun m =>
    if m.previousVersion = m.version then [] else Bencode.encodeInt m.version ++ [')']
  have hk : ∀ m : ModResponse, m.newVersion = k (decide (m.previousVersion = m.version)) ++ g m := by
    intro m
    by_cases hm : m.previousVersion = m.version
    · simp only [newVersion, k, g, if_pos hm, decide_eq_true hm, if_true, List.append_nil]
    · simp only [newVersion, k, g, if_neg hm, decide_eq_false hm, Bool.false_eq_true, if_false]
  rw [show newVersion = _ from funext hk]
  refine ReadableOn.tagged (by decide) fun x => ?_
  cases x with
  | true =>
    refine ((ReadableOn.const _ [] ()).congr ?_).view ?_
    · rintro m ⟨-, hm⟩
      exact if_pos (of_decide_eq_true hm)
    · rintro m m' ⟨-, hm⟩ ⟨-, hm'⟩ -
      rw [if_pos (of_decide_eq_true hm), if_pos (of_decide_eq_true hm')]
  | false =>
    refine ((readable_int (c := ')') ModResponse.version (by decide) (by decide)).congr ?_).view ?_
    · rintro m ⟨-, hm⟩
      exact if_neg (of_decide_eq_false hm)
    · rintro m m' ⟨-, hm⟩ ⟨-, hm'⟩ h
      rw [if_neg (of_decide_eq_false hm), if_neg (of_decide_eq_false hm'), h]

/-- What follows the error code of an answer to a modification. -/
def ModResponse.fields (m : ModResponse) : Str :=
  if m.errcode = .noMatch then
    ", \"".toList ++ ((m.actual ++ ['"']) ++
      (", V".toList ++ (Bencode.encodeInt m.previousVersion ++ [')'])))
  else
    ", V".toList ++ (Bencode.encodeInt m.previousVersion ++ m.newVersion)

theorem ModResponse.format_eq (m : ModResponse) :
    m.format ++ ")".toList = m.errcode.format ++ m.fields := by
  have hactual : "\", V".toList = ['"'] ++ ", V".toList := by decide
  have hend : ")".toList = [')'] := by decide
  unfold ModResponse.format ModResponse.fields ModResponse.newVersion
  split
  · simp only [hactual, hend, List.append_assoc]
  · split
    · simp only [hend, List.append_assoc]
    · simp only [hend, List.append_assoc]

theorem ModResponse.readable_fields : ReadableOn (fun m : ModResponse => '"' ∉ m.actual)
    (fun m => m.errcode.format ++ m.fields)
    fun m => (m.errcode, m.shown.actual, m.previousVersion, m.shown.version) := by
  refine ReadableOn.tagged Errc.format_prefixFree fun e => ?_
  by_cases he : e = .noMatch
  · have hversion : ReadableOn (fun m : ModResponse => '"' ∉ m.actual ∧ m.errcode = e)
        (fun m => Bencode.encodeInt m.previousVersion ++ [')']) fun m => m.previousVersion :=
      readable_int _ (by decide) (by decide)
    refine ((((readable_str fun m hm => hm.1).append (hversion.literal ", V".toList)).literal
      ", \"".toList).congr ?_).view ?_
    · rintro m ⟨-, rfl⟩
      exact if_pos he
    · rintro m m' ⟨-, hm⟩ ⟨-, hm'⟩ h
      obtain ⟨hactual, hprevious⟩ := Prod.mk.inj h
      simp only [ModResponse.shown, hm, hm', he, if_true, hactual, hprevious]
  · have hversion : ReadableOn (fun m : ModResponse => '"' ∉ m.actual ∧ m.errcode = e)
        (fun m => Bencode.encodeInt m.previousVersion ++ m.newVersion) fun m =>
          (m.previousVersion, if m.previousVersion = m.version then none else some m.version) :=
      ReadableOn.spanned (fun m _ c hc => Bencode.mem_encodeInt hc)
        (fun m m' _ _ h => Bencode.encodeInt_injective h)
        (readable_newVersion.comp (k := id) fun _ _ => trivial) fun m _ => m.newVersion_start
    refine ((hversion.literal ", V".toList).congr ?_).view ?_
    · rintro m ⟨-, rfl⟩
      exact if_neg he
    · rintro m m' ⟨-, hm⟩ ⟨-, hm'⟩ h
      obtain ⟨hprevious, hnew⟩ := Prod.mk.inj h
      have hversion : m.version = m'.version := by
        rw [hprevious] at hnew
        split at hnew
        · next hsame =>
          split at hnew
          · next hsame' => exact hsame.symm.trans hsame'
          · cases hnew
        · split at hnew
          · cases hnew
          · exact Option.some.inj hnew
      simp only [ModResponse.shown, hm, hm', he, if_false, hprevious, hversion]

/-! ## Reading a message -/

/-- How a request begins. -/
def Kind.opening : Kind → Str
  | .get => "GET(#".toList
  | .put => "PUT(#".toList
  | .cas => "CAS(#".toList
  | .remove => "REMOVE(#".toList

/-- How a response begins. -/
def Kind.openingResponse : Option Kind → Str
  | none => "REDIRECTION(#".toList
  | some .get => "GET_A(#".toList
  | some .put => "PUT_A(#".toList
  | some .cas => "CAS_A(#".toList
  | some .remove => "REMOVE_A(#".toList

theorem Kind.opening_prefixFree (x y : Kind) (h : x.opening <+: y.opening) : x = y := by
  revert h
  cases x <;> cases y <;> decide

theorem Kind.openingResponse_prefixFree (x y : Option Kind)
    (h : openingResponse x <+: openingResponse y) : x = y := by
  revert h
  rcases x with - | x <;> rcases y with - | y <;> (try cases x) <;> (try cases y) <;> decide

/-- What follows the opening of a request, cut where it is read. -/
def Request.fields : Request → Str
  | .get m =>
    (Nat.toDigits 10 m.serial ++ [',']) ++ (" \"".toList ++ ((m.key ++ ['"']) ++ ")".toList))
  | .put m =>
    (Nat.toDigits 10 m.serial ++ [',']) ++ (" \"".toList ++ ((m.key ++ ['"']) ++
      (", \"".toList ++ ((m.value ++ ['"']) ++ (formatVersionMatch m.versionMatch ++ ")".toList)))))
  | .cas m =>
    (Nat.toDigits 10 m.serial ++ [',']) ++ (" \"".toList ++ ((m.key ++ ['"']) ++
      (", \"".toList ++ ((m.expected ++ ['"']) ++ (", \"".toList ++ ((m.desired ++ ['"']) ++
        (formatVersionMatch m.versionMatch ++ ")".toList)))))))
  | .remove m =>
    (Nat.toDigits 10 m.serial ++ [',']) ++ (" \"".toList ++ ((m.key ++ ['"']) ++
      (formatVersionMatch m.versionMatch ++ ")".toList)))

/-- What follows the opening of a response, cut where it is read. -/
def Response.fields : Response → Str
  | .redirection m =>
    (Nat.toDigits 10 m.serial ++ [',']) ++ (" ↪".toList ++ (Nat.toDigits 10 m.redirection ++ [')']))
  | .get m =>
    (Nat.toDigits 10 m.serial ++ [',']) ++ (" ".toList ++ (m.errcode.format ++ (", \"".toList ++
      ((m.value ++ ['"']) ++ (", V".toList ++ (Bencode.encodeInt m.version ++ [')']))))))
  | .put m =>
    (Nat.toDigits 10 m.serial ++ [',']) ++ (" ".toList ++ (m.errcode.format ++ m.fields))
  | .cas m =>
    (Nat.toDigits 10 m.serial ++ [',']) ++ (" ".toList ++ (m.errcode.format ++ m.fields))
  | .remove m =>
    (Nat.toDigits 10 m.serial ++ [',']) ++ (" ".toList ++ (m.errcode.format ++ m.fields))

theorem Request.format_eq (q : Request) : q.format = q.kind.opening ++ q.fields := by
  have hkey : ", \"".toList = [','] ++ " \"".toList := by decide
  have hnext : "\", \"".toList = ['"'] ++ ", \"".toList := by decide
  have hend : "\")".toList = ['"'] ++ ")".toList := by decide
  have hquote : "\"".toList = ['"'] := by decide
  unfold format fields kind Kind.opening
  cases q with
  | get m => simp only [hkey, hend, List.append_assoc]
  | put m => simp only [hkey, hnext, hquote, List.append_assoc]
  | cas m => simp only [hkey, hnext, hquote, List.append_assoc]
  | remove m => simp only [hkey, hquote, List.append_assoc]

theorem Response.format_eq (a : Response) : a.format = Kind.openingResponse a.kind ++ a.fields := by
  have herrcode : ", ".toList = [','] ++ " ".toList := by decide
  have hredirection : ", ↪".toList = [','] ++ " ↪".toList := by decide
  have hversion : "\", V".toList = ['"'] ++ ", V".toList := by decide
  have hend : ")".toList = [')'] := by decide
  unfold format fields kind Kind.openingResponse
  cases a with
  | redirection m => simp only [hredirection, hend, List.append_assoc]
  | get m => simp only [herrcode, hversion, hend, List.append_assoc]
  | put m => simp only [herrcode, ← ModResponse.format_eq, List.append_assoc]
  | cas m => simp only [herrcode, ← ModResponse.format_eq, List.append_assoc]
  | remove m => simp only [herrcode, ← ModResponse.format_eq, List.append_assoc]

/-- **A printed request can be read back.** -/
theorem readable_request : ReadableOn Request.Quotable Request.format Request.shown := by
  rw [show Request.format = _ from funext Request.format_eq]
  refine ReadableOn.tagged Kind.opening_prefixFree fun x => ?_
  cases x with
  | get =>
    have hget : ReadableOn (fun m : GetRequest => '"' ∉ m.key) (fun m => (Request.get m).fields)
        fun m => (m.serial, m.key, ()) :=
      (readable_nat _ (by decide)).append
        (((readable_str fun _ hm => hm).append (.const _ _ ())).literal _)
    refine (hget.view ?_).cover ?_
    · rintro ⟨⟨serial⟩, key⟩ ⟨⟨serial'⟩, key'⟩ - - h
      simp only [Prod.mk.injEq] at h
      simp only [Request.shown, h]
    · rintro (m | m | m | m) ⟨hm, hkind⟩
      · exact ⟨m, hm, rfl⟩
      all_goals cases hkind
  | put =>
    have hput : ReadableOn (fun m : PutRequest => '"' ∉ m.key ∧ '"' ∉ m.value)
        (fun m => (Request.put m).fields)
        fun m => (m.serial, m.key, m.value, max anyVersion m.versionMatch) :=
      (readable_nat _ (by decide)).append
        (((readable_str fun _ hm => hm.1).append
          (((readable_str fun _ hm => hm.2).append
            (readable_versionMatch.comp fun _ _ => trivial)).literal _)).literal _)
    refine (hput.view ?_).cover ?_
    · rintro ⟨⟨serial⟩, key, value, v⟩ ⟨⟨serial'⟩, key', value', v'⟩ - - h
      simp only [Prod.mk.injEq] at h
      simp only [Request.shown, h]
    · rintro (m | m | m | m) ⟨hm, hkind⟩
      case put => exact ⟨m, hm, rfl⟩
      all_goals cases hkind
  | cas =>
    have hcas : ReadableOn
        (fun m : CasRequest => '"' ∉ m.key ∧ '"' ∉ m.expected ∧ '"' ∉ m.desired)
        (fun m => (Request.cas m).fields)
        fun m => (m.serial, m.key, m.expected, m.desired, max anyVersion m.versionMatch) :=
      (readable_nat _ (by decide)).append
        (((readable_str fun _ hm => hm.1).append
          (((readable_str fun _ hm => hm.2.1).append
            (((readable_str fun _ hm => hm.2.2).append
              (readable_versionMatch.comp fun _ _ => trivial)).literal _)).literal _)).literal _)
    refine (hcas.view ?_).cover ?_
    · rintro ⟨⟨serial⟩, key, expected, desired, v⟩ ⟨⟨serial'⟩, key', expected', desired', v'⟩ - - h
      simp only [Prod.mk.injEq] at h
      simp only [Request.shown, h]
    · rintro (m | m | m | m) ⟨hm, hkind⟩
      case cas => exact ⟨m, hm, rfl⟩
      all_goals cases hkind
  | remove =>
    have hremove : ReadableOn (fun m : RemoveRequest => '"' ∉ m.key)
        (fun m => (Request.remove m).fields)
        fun m => (m.serial, m.key, max anyVersion m.versionMatch) :=
      (readable_nat _ (by decide)).append
        (((readable_str fun _ hm => hm).append
          (readable_versionMatch.comp fun _ _ => trivial)).literal _)
    refine (hremove.view ?_).cover ?_
    · rintro ⟨⟨serial⟩, key, v⟩ ⟨⟨serial'⟩, key', v'⟩ - - h
      simp only [Prod.mk.injEq] at h
      simp only [Request.shown, h]
    · rintro (m | m | m | m) ⟨hm, hkind⟩
      case remove => exact ⟨m, hm, rfl⟩
      all_goals cases hkind

theorem ModResponse.shown_ext {m m' : ModResponse} (hserial : m.serial = m'.serial)
    (herrcode : m.errcode = m'.errcode) (hactual : m.shown.actual = m'.shown.actual)
    (hprevious : m.previousVersion = m'.previousVersion)
    (hversion : m.shown.version = m'.shown.version) : m.shown = m'.shown := by
  obtain ⟨⟨serial, errcode⟩, actual, previous, version⟩ := m
  obtain ⟨⟨serial', errcode'⟩, actual', previous', version'⟩ := m'
  obtain rfl : serial = serial' := hserial
  obtain rfl : errcode = errcode' := herrcode
  obtain rfl : previous = previous' := hprevious
  simp only [ModResponse.shown] at hactual hversion ⊢
  rw [hactual, hversion]

/-- The answers to the three modifications have the same fields. -/
theorem readable_modification {α : Type} {p : α → Prop} (m : α → ModResponse)
    (hm : ∀ a, p a → '"' ∉ (m a).actual) :
    ReadableOn p (fun a => (Nat.toDigits 10 (m a).serial ++ [',']) ++
      (" ".toList ++ ((m a).errcode.format ++ (m a).fields))) fun a => (m a).shown := by
  refine ((readable_nat (fun a => (m a).serial) (by decide)).append
    ((ModResponse.readable_fields.comp hm).literal _)).view ?_
  intro a b _ _ h
  simp only [Prod.mk.injEq] at h
  obtain ⟨hserial, herrcode, hactual, hprevious, hversion⟩ := h
  exact ModResponse.shown_ext hserial herrcode hactual hprevious hversion

/-- **A printed response can be read back.** -/
theorem readable_response : ReadableOn Response.Quotable Response.format Response.shown := by
  rw [show Response.format = _ from funext Response.format_eq]
  refine ReadableOn.tagged Kind.openingResponse_prefixFree fun x => ?_
  rcases x with - | (- | - | - | -)
  · have hredirection : ReadableOn (fun _ : RedirectionResponse => True)
        (fun m => (Response.redirection m).fields) fun m => (m.serial, m.redirection) :=
      (readable_nat _ (by decide)).append ((readable_nat _ (by decide)).literal _)
    refine (hredirection.view ?_).cover ?_
    · rintro ⟨⟨serial, errcode⟩, redirection⟩ ⟨⟨serial', errcode'⟩, redirection'⟩ - - h
      simp only [Prod.mk.injEq] at h
      simp only [Response.shown, h]
    · rintro (m | m | m | m | m) ⟨hm, hkind⟩
      · exact ⟨m, hm, rfl⟩
      all_goals cases hkind
  · have hget : ReadableOn (fun m : GetResponse => '"' ∉ m.value) (fun m => (Response.get m).fields)
        fun m => (m.serial, m.errcode, m.value, m.version) :=
      (readable_nat _ (by decide)).append
        (((ReadableOn.prefixFree Errc.format_prefixFree).comp fun _ _ => trivial).append
          (((readable_str fun _ hm => hm).append
            ((readable_int _ (by decide) (by decide)).literal _)).literal _)|>.literal _)
    refine (hget.view ?_).cover ?_
    · rintro ⟨⟨serial, errcode⟩, value, version⟩ ⟨⟨serial', errcode'⟩, value', version'⟩ - - h
      simp only [Prod.mk.injEq] at h
      simp only [Response.shown, h]
    · rintro (m | m | m | m | m) ⟨hm, hkind⟩
      case get => exact ⟨m, hm, rfl⟩
      all_goals cases hkind
  · refine ((readable_modification PutResponse.toModResponse fun _ hm => hm).view ?_).cover
      (k := Response.put) ?_
    · intro m m' _ _ h
      exact congrArg (fun m => Response.put ⟨m⟩) h
    · rintro (m | m | m | m | m) ⟨hm, hkind⟩
      case put => exact ⟨m, hm, rfl⟩
      all_goals cases hkind
  · refine ((readable_modification CasResponse.toModResponse fun _ hm => hm).view ?_).cover
      (k := Response.cas) ?_
    · intro m m' _ _ h
      exact congrArg (fun m => Response.cas ⟨m⟩) h
    · rintro (m | m | m | m | m) ⟨hm, hkind⟩
      case cas => exact ⟨m, hm, rfl⟩
      all_goals cases hkind
  · refine ((readable_modification RemoveResponse.toModResponse fun _ hm => hm).view ?_).cover
      (k := Response.remove) ?_
    · intro m m' _ _ h
      exact congrArg (fun m => Response.remove ⟨m⟩) h
    · rintro (m | m | m | m | m) ⟨hm, hkind⟩
      case remove => exact ⟨m, hm, rfl⟩
      all_goals cases hkind

/-! ## What is not printed does not matter -/

theorem max_anyVersion_refuses (v w : ℤ) :
    (0 ≤ max anyVersion v ∧ max anyVersion v ≠ w) ↔ (0 ≤ v ∧ v ≠ w) := by
  rw [anyVersion_eq]
  omega

/-- All negative `versionMatch` are the same to a database. -/
theorem Heap.processReq_shown (h : Heap) (q : Request) : h.processReq q.shown = h.processReq q := by
  cases q with
  | get m => rfl
  | put m => simp only [Request.shown, processReq, processPut, max_anyVersion_refuses]
  | cas m => simp only [Request.shown, processReq, processCas, max_anyVersion_refuses]
  | remove m => simp only [Request.shown, processReq, processRemove, max_anyVersion_refuses]

/-- The answers to modifications have nothing that is not printed. -/
theorem Heap.shown_processReq (h : Heap) (q : Request) :
    (h.processReq q).1.shown = (h.processReq q).1 := by
  cases q with
  | get m => rfl
  | put m =>
    simp only [processReq, processPut]
    split
    · rfl
    · split <;> rfl
  | cas m =>
    simp only [processReq, processCas]
    split
    · rfl
    · split <;> rfl
  | remove m =>
    simp only [processReq, processRemove]
    split
    · rfl
    · split <;> rfl

/-- Nor do they have quotation marks when no value in the database has one. -/
theorem Heap.quotable_processReq {h : Heap} (hvalue : ∀ vvp, '"' ∉ (h.deref vvp).value)
    (q : Request) : (h.processReq q).1.Quotable := by
  have hnil : '"' ∉ ([] : Str) := List.not_mem_nil
  cases q with
  | get m =>
    simp only [processReq, processGet]
    split
    · exact hnil
    · exact hvalue _
  | put m =>
    simp only [processReq, processPut]
    split
    · exact hvalue _
    · split <;> exact hnil
  | cas m =>
    simp only [processReq, processCas]
    split
    · exact hvalue _
    · split <;> exact hnil
  | remove m =>
    simp only [processReq, processRemove]
    split
    · exact hnil
    · split
      · exact hvalue _
      · exact hnil

/-- **Printed requests**: without quotation marks in their strings, two requests are printed the same
exactly if they differ in nothing but negative `versionMatch`, and then every database answers them in
the same way and comes to the same state. -/
theorem formatted_requests_exact (q q' : Request) (hq : q.Quotable) (hq' : q'.Quotable) :
    (q.format = q'.format ↔ q.shown = q'.shown) ∧
      (q.format = q'.format → ∀ h : Heap, h.processReq q = h.processReq q') := by
  have hiff : q.format = q'.format ↔ q.shown = q'.shown := by
    refine ⟨readable_request.eq hq hq', fun hshown => ?_⟩
    rw [← q.format_shown, hshown, q'.format_shown]
  refine ⟨hiff, fun hformat h => ?_⟩
  rw [← h.processReq_shown q, hiff.mp hformat, h.processReq_shown q']

/-- Two removals that match any version, on an empty database. -/
theorem formatted_requests_exact_remove :
    Heap.processReq {} (.remove { serial := 4097, key := "g0/lock".toList }) =
      Heap.processReq {} (.remove { serial := 4097, key := "g0/lock".toList, versionMatch := -2 }) := by
  have hkey : '"' ∉ "g0/lock".toList := by decide
  exact (formatted_requests_exact (.remove { serial := 4097, key := "g0/lock".toList })
    (.remove { serial := 4097, key := "g0/lock".toList, versionMatch := -2 }) hkey hkey).2 (by decide)
      {}

end Traxos
