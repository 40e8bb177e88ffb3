import Mathlib.Data.List.Induction
import Mathlib.Tactic.MkIffOfInductiveProp
import Mathlib.Tactic.SplitIfs
import Traxos.Tracker.Numbers
import Traxos.Tracker.Types

/-! # Announce requests

`parse_announce_request` reads the search parameters of an HTTP request one by one into a
value-initialized request, and sets `failure` at each value that is not well formed. Its nine
branches touch one field each, so every field is a fold over the values of its own name
(`parseAnnounceRequest_fst`), and the failure is empty when every single value is well formed
(`parseAnnounceRequest_snd_eq_nil`); together they make the parser exact (`parse_exact`). -/

namespace Traxos

namespace Tracker

/-! ## The source -/

/-- `copy_exact`, `none` when the size is wrong. -/
def copyExact (value : Str) : Option Id20 :=
  if h : value.length = 20 then some ⟨value, h⟩ else none

/-- The text of an event. -/
def eventName : BtEvent → Str
  | .started => "started".toList
  | .stopped => "stopped".toList
  | .completed => "completed".toList

/-- The comparisons with the names of the events. -/
def parseEvent (value : Str) : Option BtEvent :=
  if value = eventName .started then some .started
  else if value = eventName .stopped then some .stopped
  else if value = eventName .completed then some .completed
  else none

/-- Set a field to the value that was parsed, or else the failure. -/
def setParam {α : Type} (parsed : Option α) (req : AnnounceRequest) (failure message : Str)
    (set : α → AnnounceRequest) : AnnounceRequest × Str :=
  match parsed with
  | some x => (set x, failure)
  | none => (req, message)

/-- One turn of the loop of `parse_announce_request`. -/
def parseParam (st : AnnounceRequest × Str) (param : Str × Str) : AnnounceRequest × Str :=
  let req := st.1
  let failure := st.2
  let name := param.1
  let value := param.2
  if name = "info_hash".toList then
    setParam (copyExact value) req failure "invalid info_hash".toList
      fun x => { req with infoHash := x }
  else if name = "peer_id".toList then
    setParam (copyExact value) req failure "invalid peer_id".toList fun x => { req with peerId := x }
  else if name = "ip".toList then
    setParam (parseIpv4 value) req failure "invalid ip".toList fun x => { req with ip := x }
  else if name = "port".toList then
    setParam (parseNumber uint16 value) req failure "invalid port".toList
      fun x => { req with port := x }
  else if name = "uploaded".toList then
    setParam (parseNumber uint64 value) req failure "invalid uploaded".toList
      fun x => { req with uploaded := x }
  else if name = "downloaded".toList then
    setParam (parseNumber uint64 value) req failure "invalid downloaded".toList
      fun x => { req with downloaded := x }
  else if name = "left".toList then
    setParam (parseNumber uint64 value) req failure "invalid left".toList
      fun x => { req with left := x }
  else if name = "event".toList then
    setParam (parseEvent value) req failure "invalid event".toList fun x => { req with event := x }
  else if name = "numwant".toList then
    setParam (parseNumber int32 value) req failure "invalid numwant".toList
      fun x => { req with numwant := x }
  else (req, failure)

/-- `parse_announce_request`. -/
def parseAnnounceRequest (params : List (Str × Str)) (req : AnnounceRequest) (failure : Str) :
    AnnounceRequest × Str :=
  params.foldl parseParam (req, failure)

/-! ## What a request says -/

/-- A value that a parameter of this name may have; other names may have any. -/
@[mk_iff] structure WellFormed (name value : Str) : Prop where
  infoHash : name = "info_hash".toList → value.length = 20
  peerId : name = "peer_id".toList → value.length = 20
  ip : name = "ip".toList → ∃ ip, IsIpv4 value ip
  port : name = "port".toList → ∃ n, n ≤ 65535 ∧ IsDecimal value n
  uploaded : name = "uploaded".toList → ∃ n, n < 2 ^ 64 ∧ IsDecimal value n
  downloaded : name = "downloaded".toList → ∃ n, n < 2 ^ 64 ∧ IsDecimal value n
  left : name = "left".toList → ∃ n, n < 2 ^ 64 ∧ IsDecimal value n
  event : name = "event".toList → ∃ e, value = eventName e
  numwant : name = "numwant".toList → ∃ v, (-2 ^ 31 ≤ v ∧ v < 2 ^ 31) ∧ IsInteger value v

/-- The names that the parser looks for. -/
def recognizedNames : List Str :=
  ["info_hash".toList, "peer_id".toList, "ip".toList, "port".toList, "uploaded".toList,
    "downloaded".toList, "left".toList, "event".toList, "numwant".toList]

/-- The values of the parameters of a name, in order. -/
def valuesOf (name : Str) (params : List (Str × Str)) : List Str :=
  (params.filter fun p => p.1 = name).map (·.2)

/-- The value of the last parameter of a name. -/
def lastValue (name : Str) (params : List (Str × Str)) : Option Str :=
  (valuesOf name params).getLast?

/-- The field `x` is what the value denotes, or the default when there is none. -/
def FieldIs {α : Type} (Denotes : Str → α → Prop) (default x : α) : Option Str → Prop
  | none => x = default
  | some value => Denotes value x

/-- Every field is that of the last parameter of its name. -/
structure Reads (req : AnnounceRequest) (last : Str → Option Str) : Prop where
  infoHash : FieldIs (fun v x => v = x.chars) .zero req.infoHash (last "info_hash".toList)
  peerId : FieldIs (fun v x => v = x.chars) .zero req.peerId (last "peer_id".toList)
  ip : FieldIs IsIpv4 0 req.ip (last "ip".toList)
  port : FieldIs (fun v x => IsDecimal v x.toNat) 0 req.port (last "port".toList)
  uploaded : FieldIs (fun v x => IsDecimal v x.toNat) 0 req.uploaded (last "uploaded".toList)
  downloaded : FieldIs (fun v x => IsDecimal v x.toNat) 0 req.downloaded (last "downloaded".toList)
  left : FieldIs (fun v x => IsDecimal v x.toNat) 0 req.left (last "left".toList)
  event : FieldIs (fun v x => v = eventName x) .started req.event (last "event".toList)
  numwant : FieldIs (fun v x => IsInteger v x.toInt) 50 req.numwant (last "numwant".toList)

/-! ## One parameter -/

section Param

variable {α : Type} {value failure message : Str} {req : AnnounceRequest}

theorem copyExact_eq_some {x : Id20} : copyExact value = some x ↔ value = x.chars := by
  rw [copyExact]
  constructor
  · intro h
    split at h
    · obtain rfl := Option.some.inj h
      rfl
    · cases h
  · rintro rfl
    exact dif_pos x.length_eq

theorem parseEvent_eq_some {x : BtEvent} : parseEvent value = some x ↔ value = eventName x := by
  constructor
  · intro h
    rw [parseEvent] at h
    split_ifs at h with h₁ h₂ h₃
    · rwa [← Option.some.inj h]
    · rwa [← Option.some.inj h]
    · rwa [← Option.some.inj h]
  · rintro rfl
    cases x <;> decide

/-- Setting a field leaves the failure empty exactly when there was a value. -/
theorem setParam_snd_eq_nil (hmessage : message ≠ []) (parsed : Option α)
    (set : α → AnnounceRequest) :
    (setParam parsed req failure message set).2 = [] ↔ failure = [] ∧ ∃ x, parsed = some x := by
  cases parsed with
  | none => simp [setParam, hmessage]
  | some x => simp [setParam]

/-- A number below the limit of its type is well formed exactly when it is parsed. -/
theorem exists_parseNumber {t : IntType α} {toNat : α → ℕ} {limit : ℕ} (hlt : ∀ x, toNat x < limit)
    (hsurj : ∀ n, n < limit → ∃ x, toNat x = n)
    (hparse : ∀ x, parseNumber t value = some x ↔ IsDecimal value (toNat x)) :
    (∃ x, parseNumber t value = some x) ↔ ∃ n, n < limit ∧ IsDecimal value n := by
  constructor
  · rintro ⟨x, hx⟩
    exact ⟨toNat x, hlt x, (hparse x).mp hx⟩
  · rintro ⟨n, hn, hvalue⟩
    obtain ⟨x, rfl⟩ := hsurj n hn
    exact ⟨x, (hparse x).mpr hvalue⟩

theorem exists_parseNumber_uint16 :
    (∃ x, parseNumber uint16 value = some x) ↔ ∃ n, n ≤ 65535 ∧ IsDecimal value n := by
  have h : (∃ x, parseNumber uint16 value = some x) ↔ ∃ n, n < 65536 ∧ IsDecimal value n :=
    exists_parseNumber UInt16.toNat_lt
      (fun n hn => ⟨.ofNat n, UInt16.toNat_ofNat_of_lt' hn⟩) fun _ => parseNumber_uint16
  simpa only [Nat.lt_succ_iff] using h

theorem exists_parseNumber_uint64 :
    (∃ x, parseNumber uint64 value = some x) ↔ ∃ n, n < 2 ^ 64 ∧ IsDecimal value n :=
  exists_parseNumber (fun x => x.toNat_lt)
    (fun n hn => ⟨.ofNat n, UInt64.toNat_ofNat_of_lt' hn⟩) fun _ => parseNumber_uint64

theorem exists_parseNumber_int32 : (∃ x, parseNumber int32 value = some x) ↔
    ∃ v, (-2 ^ 31 ≤ v ∧ v < 2 ^ 31) ∧ IsInteger value v := by
  constructor
  · rintro ⟨x, hx⟩
    exact ⟨x.toInt, ⟨x.le_toInt, x.toInt_lt⟩, parseNumber_int32.mp hx⟩
  · rintro ⟨v, ⟨hmin, hmax⟩, hv⟩
    refine ⟨.ofInt v, parseNumber_int32.mpr ?_⟩
    rwa [Int32.toInt_ofInt_of_le hmin hmax]

theorem exists_copyExact : (∃ x, copyExact value = some x) ↔ value.length = 20 := by
  simp only [copyExact_eq_some]
  constructor
  · rintro ⟨x, rfl⟩
    exact x.length_eq
  · exact fun h => ⟨⟨value, h⟩, rfl⟩

/-- **One parameter** leaves the failure empty exactly when its value is well formed. -/
theorem parseParam_snd_eq_nil (st : AnnounceRequest × Str) (param : Str × Str) :
    (parseParam st param).2 = [] ↔ st.2 = [] ∧ WellFormed param.1 param.2 := by
  obtain ⟨name, value⟩ := param
  rw [parseParam, wellFormed_iff]
  simp only
  by_cases h₁ : name = "info_hash".toList
  · rw [if_pos h₁, setParam_snd_eq_nil (by decide), exists_copyExact]
    simp [h₁]
  rw [if_neg h₁]
  by_cases h₂ : name = "peer_id".toList
  · rw [if_pos h₂, setParam_snd_eq_nil (by decide), exists_copyExact]
    simp [h₂]
  rw [if_neg h₂]
  by_cases h₃ : name = "ip".toList
  · rw [if_pos h₃, setParam_snd_eq_nil (by decide)]
    simp [h₃, parseIpv4_eq_some]
  rw [if_neg h₃]
  by_cases h₄ : name = "port".toList
  · rw [if_pos h₄, setParam_snd_eq_nil (by decide), exists_parseNumber_uint16]
    simp [h₄]
  rw [if_neg h₄]
  by_cases h₅ : name = "uploaded".toList
  · rw [if_pos h₅, setParam_snd_eq_nil (by decide), exists_parseNumber_uint64]
    simp [h₅]
  rw [if_neg h₅]
  by_cases h₆ : name = "downloaded".toList
  · rw [if_pos h₆, setParam_snd_eq_nil (by decide), exists_parseNumber_uint64]
    simp [h₆]
  rw [if_neg h₆]
  by_cases h₇ : name = "left".toList
  · rw [if_pos h₇, setParam_snd_eq_nil (by decide), exists_parseNumber_uint64]
    simp [h₇]
  rw [if_neg h₇]
  by_cases h₈ : name = "event".toList
  · rw [if_pos h₈, setParam_snd_eq_nil (by decide)]
    simp [h₈, parseEvent_eq_some]
  rw [if_neg h₈]
  by_cases h₉ : name = "numwant".toList
  · rw [if_pos h₉, setParam_snd_eq_nil (by decide), exists_parseNumber_int32]
    simp [h₉]
  rw [if_neg h₉]
  simp only [h₁, h₂, h₃, h₄, h₅, h₆, h₇, h₈, h₉, false_imp_iff, and_self, and_true]

/-- A field that is read by one name only. -/
def setField (decode : Str → Option α) (name : Str) (param : Str × Str) (x : α) : α :=
  if param.1 = name then (decode param.2).getD x else x

/-- **One parameter** sets the field of its name and no other. -/
theorem parseParam_fst (st : AnnounceRequest × Str) (param : Str × Str) :
    (parseParam st param).1 =
      { infoHash := setField copyExact "info_hash".toList param st.1.infoHash
        peerId := setField copyExact "peer_id".toList param st.1.peerId
        ip := setField parseIpv4 "ip".toList param st.1.ip
        port := setField (parseNumber uint16) "port".toList param st.1.port
        uploaded := setField (parseNumber uint64) "uploaded".toList param st.1.uploaded
        downloaded := setField (parseNumber uint64) "downloaded".toList param st.1.downloaded
        left := setField (parseNumber uint64) "left".toList param st.1.left
        event := setField parseEvent "event".toList param st.1.event
        numwant := setField (parseNumber int32) "numwant".toList param st.1.numwant } := by
  obtain ⟨name, value⟩ := param
  rw [parseParam]
  simp only
  by_cases h₁ : name = "info_hash".toList
  · rw [if_pos h₁]
    cases h : copyExact value <;> simp [setParam, setField, h₁, h]
  rw [if_neg h₁]
  by_cases h₂ : name = "peer_id".toList
  · rw [if_pos h₂]
    cases h : copyExact value <;> simp [setParam, setField, h₂, h]
  rw [if_neg h₂]
  by_cases h₃ : name = "ip".toList
  · rw [if_pos h₃]
    cases h : parseIpv4 value <;> simp [setParam, setField, h₃, h]
  rw [if_neg h₃]
  by_cases h₄ : name = "port".toList
  · rw [if_pos h₄]
    cases h : parseNumber uint16 value <;> simp [setParam, setField, h₄, h]
  rw [if_neg h₄]
  by_cases h₅ : name = "uploaded".toList
  · rw [if_pos h₅]
    cases h : parseNumber uint64 value <;> simp [setParam, setField, h₅, h]
  rw [if_neg h₅]
  by_cases h₆ : name = "downloaded".toList
  · rw [if_pos h₆]
    cases h : parseNumber uint64 value <;> simp [setParam, setField, h₆, h]
  rw [if_neg h₆]
  by_cases h₇ : name = "left".toList
  · rw [if_pos h₇]
    cases h : parseNumber uint64 value <;> simp [setParam, setField, h₇, h]
  rw [if_neg h₇]
  by_cases h₈ : name = "event".toList
  · rw [if_pos h₈]
    cases h : parseEvent value <;> simp [setParam, setField, h₈, h]
  rw [if_neg h₈]
  by_cases h₉ : name = "numwant".toList
  · rw [if_pos h₉]
    cases h : parseNumber int32 value <;> simp [setParam, setField, h₉, h]
  rw [if_neg h₉]
  simp only [setField, h₁, h₂, h₃, h₄, h₅, h₆, h₇, h₈, h₉, if_false]

end Param

/-! ## All parameters -/

section Params

variable {α : Type} {decode : Str → Option α} {name : Str} {params params' : List (Str × Str)}
  {failure : Str} {req : AnnounceRequest}

/-- A field after all parameters: each value of its name that can be decoded replaces it. -/
def foldField (decode : Str → Option α) (name : Str) (params : List (Str × Str)) (x : α) : α :=
  (valuesOf name params).foldl (fun x value => (decode value).getD x) x

theorem foldField_cons (param : Str × Str) (x : α) :
    foldField decode name (param :: params) x =
      foldField decode name params (setField decode name param x) := by
  rw [foldField, foldField, setField, valuesOf]
  by_cases h : param.1 = name
  · rw [List.filter_cons_of_pos (by simpa using h), if_pos h]
    rfl
  · rw [List.filter_cons_of_neg (by simpa using h), if_neg h]
    rfl

/-- When all values of a name can be decoded, its field is that of the last one. -/
theorem foldField_is {Denotes : Str → α → Prop}
    (hdecode : ∀ value x, decode value = some x ↔ Denotes value x)
    (h : ∀ value ∈ valuesOf name params, ∃ x, decode value = some x) (x : α) :
    FieldIs Denotes x (foldField decode name params x) (lastValue name params) := by
  rw [foldField, lastValue]
  generalize valuesOf name params = values at h
  induction values using List.reverseRecOn with
  | nil => rfl
  | append_singleton values value ih =>
    obtain ⟨y, hy⟩ := h value (List.mem_append_right _ List.mem_cons_self)
    rw [List.foldl_append, List.getLast?_concat]
    show Denotes value ((decode value).getD _)
    rw [hy]
    exact (hdecode value y).mp hy

/-- **The fields** are independent of each other. -/
theorem parseAnnounceRequest_fst :
    (parseAnnounceRequest params req failure).1 =
      { infoHash := foldField copyExact "info_hash".toList params req.infoHash
        peerId := foldField copyExact "peer_id".toList params req.peerId
        ip := foldField parseIpv4 "ip".toList params req.ip
        port := foldField (parseNumber uint16) "port".toList params req.port
        uploaded := foldField (parseNumber uint64) "uploaded".toList params req.uploaded
        downloaded := foldField (parseNumber uint64) "downloaded".toList params req.downloaded
        left := foldField (parseNumber uint64) "left".toList params req.left
        event := foldField parseEvent "event".toList params req.event
        numwant := foldField (parseNumber int32) "numwant".toList params req.numwant } := by
  induction params generalizing req failure with
  | nil => rfl
  | cons param params ih =>
    simp only [foldField_cons]
    show (parseAnnounceRequest params (parseParam (req, failure) param).1
      (parseParam (req, failure) param).2).1 = _
    rw [ih, parseParam_fst]

/-- **The failure** stays empty exactly when every parameter is well formed. -/
theorem parseAnnounceRequest_snd_eq_nil :
    (parseAnnounceRequest params req failure).2 = [] ↔
      failure = [] ∧ ∀ p ∈ params, WellFormed p.1 p.2 := by
  induction params generalizing req failure with
  | nil =>
    show failure = [] ↔ _
    simp
  | cons param params ih =>
    show (parseAnnounceRequest params (parseParam (req, failure) param).1
      (parseParam (req, failure) param).2).2 = [] ↔ _
    rw [ih, parseParam_snd_eq_nil, List.forall_mem_cons, and_assoc]

/-- The values of a name are all well formed when the parameters are. -/
theorem wellFormed_of_mem_valuesOf (h : ∀ p ∈ params, WellFormed p.1 p.2) {value : Str}
    (hvalue : value ∈ valuesOf name params) : WellFormed name value := by
  obtain ⟨p, hp, rfl⟩ := List.mem_map.mp hvalue
  obtain ⟨hmem, hname⟩ := List.mem_filter.mp hp
  obtain rfl : p.1 = name := by simpa using hname
  exact h p hmem

/-- **An accepted request** has in every field what the last parameter of its name says. -/
theorem reads_of_wellFormed (h : ∀ p ∈ params, WellFormed p.1 p.2) :
    Reads (parseAnnounceRequest params {} failure).1 fun name => lastValue name params := by
  have hwf : ∀ {name value}, value ∈ valuesOf name params → WellFormed name value :=
    fun hvalue => wellFormed_of_mem_valuesOf h hvalue
  -- every value of a name can be decoded
  have infoHash : ∀ value ∈ valuesOf "info_hash".toList params, ∃ x, copyExact value = some x :=
    fun value hv => exists_copyExact.mpr ((hwf hv).infoHash rfl)
  have peerId : ∀ value ∈ valuesOf "peer_id".toList params, ∃ x, copyExact value = some x :=
    fun value hv => exists_copyExact.mpr ((hwf hv).peerId rfl)
  have ip : ∀ value ∈ valuesOf "ip".toList params, ∃ x, parseIpv4 value = some x :=
    fun value hv => ((hwf hv).ip rfl).imp fun _ => parseIpv4_eq_some.mpr
  have port : ∀ value ∈ valuesOf "port".toList params, ∃ x, parseNumber uint16 value = some x :=
    fun value hv => exists_parseNumber_uint16.mpr ((hwf hv).port rfl)
  have uploaded : ∀ value ∈ valuesOf "uploaded".toList params,
      ∃ x, parseNumber uint64 value = some x :=
    fun value hv => exists_parseNumber_uint64.mpr ((hwf hv).uploaded rfl)
  have downloaded : ∀ value ∈ valuesOf "downloaded".toList params,
      ∃ x, parseNumber uint64 value = some x :=
    fun value hv => exists_parseNumber_uint64.mpr ((hwf hv).downloaded rfl)
  have left : ∀ value ∈ valuesOf "left".toList params, ∃ x, parseNumber uint64 value = some x :=
    fun value hv => exists_parseNumber_uint64.mpr ((hwf hv).left rfl)
  have event : ∀ value ∈ valuesOf "event".toList params, ∃ x, parseEvent value = some x :=
    fun value hv => ((hwf hv).event rfl).imp fun _ => parseEvent_eq_some.mpr
  have numwant : ∀ value ∈ valuesOf "numwant".toList params,
      ∃ x, parseNumber int32 value = some x :=
    fun value hv => exists_parseNumber_int32.mpr ((hwf hv).numwant rfl)
  rw [parseAnnounceRequest_fst]
  exact {
    infoHash := foldField_is (fun _ _ => copyExact_eq_some) infoHash .zero
    peerId := foldField_is (fun _ _ => copyExact_eq_some) peerId .zero
    ip := foldField_is (fun _ _ => parseIpv4_eq_some) ip 0
    port := foldField_is (fun _ _ => parseNumber_uint16) port 0
    uploaded := foldField_is (fun _ _ => parseNumber_uint64) uploaded 0
    downloaded := foldField_is (fun _ _ => parseNumber_uint64) downloaded 0
    left := foldField_is (fun _ _ => parseNumber_uint64) left 0
    event := foldField_is (fun _ _ => parseEvent_eq_some) event .started
    numwant := foldField_is (fun _ _ => parseNumber_int32) numwant 50 }

/-- Only the values of each name, in their order, matter to the fields. -/
theorem parseAnnounceRequest_fst_congr (h : ∀ name, valuesOf name params' = valuesOf name params)
    (failure' : Str) : (parseAnnounceRequest params' req failure').1 =
      (parseAnnounceRequest params req failure).1 := by
  rw [parseAnnounceRequest_fst, parseAnnounceRequest_fst]
  simp only [foldField, h]

theorem mem_iff_mem_valuesOf {p : Str × Str} : p ∈ params ↔ p.2 ∈ valuesOf p.1 params := by
  simp [valuesOf]

/-- Only the values of each name matter to the failure. -/
theorem parseAnnounceRequest_snd_congr (h : ∀ name, valuesOf name params' = valuesOf name params) :
    (parseAnnounceRequest params' req failure).2 = [] ↔
      (parseAnnounceRequest params req failure).2 = [] := by
  simp only [parseAnnounceRequest_snd_eq_nil, mem_iff_mem_valuesOf, h]

/-- A parameter with an unrecognized name is skipped. -/
theorem parseParam_of_not_mem {param : Str × Str} (h : param.1 ∉ recognizedNames)
    (st : AnnounceRequest × Str) : parseParam st param = st := by
  simp only [recognizedNames, List.mem_cons, List.not_mem_nil, or_false, not_or] at h
  simp only [parseParam, h, if_false]

/-- **Unrecognized names have no influence.** -/
theorem parseAnnounceRequest_filter :
    parseAnnounceRequest (params.filter fun p => p.1 ∈ recognizedNames) req failure =
      parseAnnounceRequest params req failure := by
  induction params generalizing req failure with
  | nil => rfl
  | cons param params ih =>
    by_cases h : param.1 ∈ recognizedNames
    · rw [List.filter_cons_of_pos (by simpa using h)]
      exact ih
    · rw [List.filter_cons_of_neg (by simpa using h), ih]
      show _ = params.foldl parseParam (parseParam (req, failure) param)
      rw [parseParam_of_not_mem h]
      rfl

end Params

/-- **The announce parser is exact.** Starting from a value-initialized request, it succeeds when
every parameter with a recognized name is well formed; then every field is what the last parameter
of its name says, or its default. Other parameters have no influence, nor has the order of
parameters of different names. -/
theorem parse_exact (params : List (Str × Str)) :
    ((parseAnnounceRequest params {} []).2 = [] ↔ ∀ p ∈ params, WellFormed p.1 p.2) ∧
    ((parseAnnounceRequest params {} []).2 = [] →
      Reads (parseAnnounceRequest params {} []).1 fun name => lastValue name params) ∧
    parseAnnounceRequest (params.filter fun p => p.1 ∈ recognizedNames) {} [] =
      parseAnnounceRequest params {} [] ∧
    ∀ params', (∀ name, valuesOf name params' = valuesOf name params) →
      (parseAnnounceRequest params' {} []).1 = (parseAnnounceRequest params {} []).1 ∧
      ((parseAnnounceRequest params' {} []).2 = [] ↔ (parseAnnounceRequest params {} []).2 = []) := by
  have hfailure : (parseAnnounceRequest params {} []).2 = [] ↔
      ∀ p ∈ params, WellFormed p.1 p.2 := by
    rw [parseAnnounceRequest_snd_eq_nil, eq_self, true_and]
  refine ⟨hfailure, fun h => reads_of_wellFormed (hfailure.mp h), parseAnnounceRequest_filter, ?_⟩
  exact fun params' h =>
    ⟨parseAnnounceRequest_fst_congr h [], parseAnnounceRequest_snd_congr h⟩

/-- A malformed port sticks, though a valid one follows. -/
example : (parseAnnounceRequest [("port".toList, "x".toList), ("port".toList, "80".toList)] {} []).2 =
    "invalid port".toList := by decide

end Tracker

end Traxos
