import Mathlib.Data.List.Induction
import Traxos.Lockseq.Report
import Traxos.Tracker.Numbers

/-! # The test program

`main` of `pt-paxos.cc`: it reads its options, runs `try_one_seed` for one seed or for a number of
random ones, up to the first that fails, and returns whether there was none.

* **`shortOptionsFor`** — the short options, which tell the table of the long ones
  (`readShortOptions_shortOptionsFor`).
* **`parseOptions`** — the loop over the options. Its input is what `getopt_long` returns, call by call:
  the character of an option, `?` when it does not know it, and `optarg`.
* **`arguments`** — what options set, read off the last one of each kind.
* **`TryOneSeed`** — what a call of `try_one_seed` may do: an exception from the set-up, or the report of
  a run of the test on the network.
* **`program_outcome`** — what `main` does for all options, seeds and runs.

What `getopt_long` itself and a verbose network print is left out, and memory does not run out. An
exception that ends the coroutine of a client stays in its task. -/

namespace Traxos

namespace Lockseq

open Service Netsim Tracker

namespace Program

/-! ## The source -/

/-- `has_arg` of an option. -/
inductive HasArg
  | noArgument
  | requiredArgument
  | optionalArgument
  deriving DecidableEq, Repr

/-- `struct option`, as far as it is used. -/
structure LongOption where
  name : Str
  hasArg : HasArg
  val : Char
  deriving DecidableEq, Repr

/-- What follows the character of a short option. -/
def HasArg.colons : HasArg → Str
  | .noArgument => []
  | .requiredArgument => [':']
  | .optionalArgument => [':', ':']

/-- An option that `short_options_for` lists. -/
def LongOption.isShort (o : LongOption) : Bool :=
  0 < o.val.toNat && o.val.toNat < 128 && (o.val.isAlpha || o.val.isDigit)

/-- `short_options_for`. -/
def shortOptionsFor : List LongOption → Str
  | [] => []
  | o :: longopts =>
    (if o.isShort then o.val :: o.hasArg.colons else []) ++ shortOptionsFor longopts

/-- `options`. -/
def options : List LongOption :=
  [⟨"count".toList, .requiredArgument, 'n'⟩, ⟨"seed".toList, .requiredArgument, 'S'⟩,
    ⟨"random-seeds".toList, .requiredArgument, 'R'⟩, ⟨"loss".toList, .requiredArgument, 'l'⟩,
    ⟨"verbose".toList, .noArgument, 'V'⟩, ⟨"print-db".toList, .noArgument, 'p'⟩,
    ⟨"quiet".toList, .noArgument, 'q'⟩]

/-- `from_str_chars` of an integer, the value or the code of the exception. -/
def fromStrChars {α : Type} (t : IntType α) (s : Str) : Except FromCharsError α :=
  match fromChars t s with
  | (.ok value, []) => .ok value
  | (.error ec, []) => .error ec
  -- all of `s` must be parsed
  | (_, _ :: _) => .error .invalidArgument

/-- `testinfo`. A probability of loss is of type `L`. -/
structure Testinfo (L : Type) where
  loss : L
  verbose : Bool := false
  printDb : Bool := false
  nreplicas : UInt64 := 3
  initialLeader : ℕ := 0
  deriving DecidableEq

/-- What the options of `main` set. -/
structure Arguments (L : Type) where
  tester : Testinfo L
  firstSeed : Option UInt64 := none
  seedCount : UInt64 := 1
  deriving DecidableEq

/-- Why `main` runs no test. -/
inductive Refusal
  | unknownOption
  /-- `std::invalid_argument`. -/
  | invalidArgument (code : FromCharsError)
  deriving DecidableEq, Repr

section Source

variable {L : Type} (parseLoss : Str → Except FromCharsError L)

/-- The body of the loop over the options. `parseLoss` is `from_str_chars<double>`. -/
def setOption (st : Arguments L) (call : Char × Str) : Except Refusal (Arguments L) :=
  let (ch, optarg) := call
  if ch = 'S' then
    ((fromStrChars uint64 optarg).mapError .invalidArgument).map fun v =>
      { st with firstSeed := some v }
  else if ch = 'R' then
    ((fromStrChars uint64 optarg).mapError .invalidArgument).map fun v =>
      { st with seedCount := v }
  else if ch = 'l' then
    ((parseLoss optarg).mapError .invalidArgument).map fun v =>
      { st with tester := { st.tester with loss := v } }
  else if ch = 'n' then
    ((fromStrChars uint64 optarg).mapError .invalidArgument).map fun v =>
      { st with tester := { st.tester with nreplicas := v } }
  else if ch = 'V' then .ok { st with tester := { st.tester with verbose := true } }
  else if ch = 'p' then .ok { st with tester := { st.tester with printDb := true } }
  else .error .unknownOption

/-- The loop over the options. -/
def parseOptions (st : Arguments L) (calls : List (Char × Str)) : Except Refusal (Arguments L) :=
  calls.foldlM (setOption parseLoss) st

/-- What `try_one_seed` returns and prints to `std::cout` and `std::clog`, or the exception. -/
abbrev TryResult : Type := Except SetupError (Bool × Str × Str)

/-- How `main` ends. -/
inductive Outcome
  /-- It returns, after it has printed to `std::cout` and `std::cerr`. -/
  | returned (status : ℕ) (out err : Str)
  | invalidArgument (code : FromCharsError)
  | threw (e : SetupError)
  /-- A variable is read that was never written. -/
  | undefined
  deriving DecidableEq, Repr

/-- What `main` knows in its loop over the seeds. -/
structure Progress where
  /-- `ok`, which has no value at first. -/
  ok : Option Bool := none
  out : Str := []
  err : Str := []

/-- A call of `try_one_seed` has returned. -/
def Progress.tried (p : Progress) (r : Bool × Str × Str) : Progress where
  ok := some r.1
  out := p.out ++ r.2.1
  err := p.err ++ r.2.2

/-- One turn of the loop over the seeds. An error of the left kind is an exception, one of the right
kind a `break`. -/
def seedTurn (tryOneSeed : UInt64 → TryResult) (seedGenerator : ℕ → UInt64) (p : Progress) (i : ℕ) :
    Except (SetupError ⊕ Progress) Progress :=
  let p := if 0 < i ∧ i % 1000 = 0 then { p with err := p.err ++ ['.'] } else p
  match tryOneSeed (seedGenerator i) with
  | .error e => .error (.inl e)
  | .ok r => if r.1 then .ok (p.tried r) else .error (.inr (p.tried r))

/-- The end of `main`. -/
def finish (p : Progress) : Outcome :=
  match p.ok with
  | none => .undefined
  | some ok => .returned (if ok then 0 else 1) p.out p.err

/-- What `main` does behind the loop over the seeds. -/
def endLine (seedCount : UInt64) (p : Progress) : Progress :=
  if p.ok = some true ∧ 1000 ≤ seedCount.toNat then { p with err := p.err ++ ['\n'] } else p

/-- `main` behind its loop over the options; `seedGenerator` gives the seeds to draw. -/
def runSeeds (args : Arguments L) (tryOneSeed : UInt64 → TryResult)
    (seedGenerator : ℕ → UInt64) : Outcome :=
  match args.firstSeed with
  | some seed =>
    match tryOneSeed seed with
    | .error e => .threw e
    | .ok r => finish (Progress.tried {} r)
  | none =>
    match countedLoop (seedTurn tryOneSeed seedGenerator) args.seedCount.toNat {} with
    | .error (.inl e) => .threw e
    | .error (.inr p) => finish (endLine args.seedCount p)
    | .ok p => finish (endLine args.seedCount p)

/-- `main`, with the options that `getopt_long` finds; `loss` is `0.0`. -/
def main (loss : L) (tryOneSeed : Testinfo L → UInt64 → TryResult) (seedGenerator : ℕ → UInt64)
    (calls : List (Char × Str)) : Outcome :=
  match parseOptions parseLoss { tester := { loss := loss } } calls with
  | .error .unknownOption => .returned 1 [] "Unknown option\n".toList
  | .error (.invalidArgument code) => .invalidArgument code
  | .ok args => runSeeds args (tryOneSeed args.tester) seedGenerator

end Source

/-! ## The short options -/

/-- How `getopt` reads its string of short options. -/
def readShortOptions : Str → List (Char × HasArg)
  | ch :: ':' :: ':' :: s => (ch, .optionalArgument) :: readShortOptions s
  | ch :: ':' :: s => (ch, .requiredArgument) :: readShortOptions s
  | ch :: s => (ch, .noArgument) :: readShortOptions s
  | [] => []

theorem head?_shortOptionsFor (longopts : List LongOption) :
    (shortOptionsFor longopts).head? ≠ some ':' := by
  induction longopts with
  | nil => exact fun h => by cases h
  | cons o longopts ih =>
    rw [shortOptionsFor]
    by_cases ho : o.isShort
    · rw [if_pos ho]
      intro h
      have hval : o.val = ':' := Option.some.inj h
      rw [LongOption.isShort, hval] at ho
      exact absurd ho (by decide)
    · rwa [if_neg ho, List.nil_append]

theorem readShortOptions_append {ch : Char} {s : Str} (hs : s.head? ≠ some ':') (hasArg : HasArg) :
    readShortOptions (ch :: hasArg.colons ++ s) = (ch, hasArg) :: readShortOptions s := by
  cases s with
  | nil => cases hasArg <;> rfl
  | cons c s =>
    have hc : c ≠ ':' := fun h => hs (congrArg some h)
    cases hasArg <;> simp [HasArg.colons, readShortOptions, hc]

/-- **The short options tell the table**: `getopt` finds in them every option that has a letter or a
digit, with its kind of argument. -/
theorem readShortOptions_shortOptionsFor (longopts : List LongOption) :
    readShortOptions (shortOptionsFor longopts) =
      (longopts.filter LongOption.isShort).map fun o => (o.val, o.hasArg) := by
  induction longopts with
  | nil => rfl
  | cons o longopts ih =>
    rw [shortOptionsFor]
    by_cases ho : o.isShort
    · rw [if_pos ho, readShortOptions_append (head?_shortOptionsFor longopts), ih,
        List.filter_cons_of_pos ho, List.map_cons]
    · rw [if_neg ho, List.nil_append, ih, List.filter_cons_of_neg ho]

/-- Those of `main`. -/
example : shortOptionsFor options = "n:S:R:l:Vpq".toList := by decide

/-! ## The options -/

section Options

variable {L : Type} (parseLoss : Str → Except FromCharsError L)

/-- The argument of the last option `ch`. -/
def lastArg (calls : List (Char × Str)) (ch : Char) : Option Str :=
  (calls.reverse.find? fun call => call.1 = ch).map (·.2)

/-- The number that the last option `ch` gives. -/
def lastNumber (calls : List (Char × Str)) (ch : Char) : Option UInt64 :=
  (lastArg calls ch).bind (parseNumber uint64)

/-- What options set: of each the last one counts. -/
def arguments (loss : L) (calls : List (Char × Str)) : Arguments L where
  tester :=
    { loss := ((lastArg calls 'l').bind fun optarg => (parseLoss optarg).toOption).getD loss
      verbose := (lastArg calls 'V').isSome
      printDb := (lastArg calls 'p').isSome
      nreplicas := (lastNumber calls 'n').getD 3 }
  firstSeed := lastNumber calls 'S'
  seedCount := (lastNumber calls 'R').getD 1

/-- Options that `main` takes. -/
inductive Accepted : Char × Str → Prop
  | flag {ch : Char} {optarg : Str} (hch : ch ∈ ['V', 'p']) : Accepted (ch, optarg)
  | number {ch : Char} {optarg : Str} {x : UInt64} (hch : ch ∈ ['S', 'R', 'n'])
    (hx : IsDecimal optarg x.toNat) : Accepted (ch, optarg)
  | loss {optarg : Str} {x : L} (hx : parseLoss optarg = .ok x) : Accepted ('l', optarg)

/-- Options that it does not, and why. The long option `quiet` is one of them. -/
inductive Refused : Char × Str → Refusal → Prop
  | unknown {ch : Char} {optarg : Str} (hch : ch ∉ ['S', 'R', 'n', 'l', 'V', 'p']) :
    Refused (ch, optarg) .unknownOption
  | notNumber {ch : Char} {optarg : Str} (hch : ch ∈ ['S', 'R', 'n'])
    (h : ∀ n, ¬ IsDecimal optarg n) : Refused (ch, optarg) (.invalidArgument .invalidArgument)
  | large {ch : Char} {optarg : Str} {n : ℕ} (hch : ch ∈ ['S', 'R', 'n']) (h : IsDecimal optarg n)
    (hn : 2 ^ 64 ≤ n) : Refused (ch, optarg) (.invalidArgument .resultOutOfRange)
  | loss {optarg : Str} {code : FromCharsError} (h : parseLoss optarg = .error code) :
    Refused ('l', optarg) (.invalidArgument code)

variable {parseLoss}

theorem lastArg_append (calls : List (Char × Str)) (call : Char × Str) (ch : Char) :
    lastArg (calls ++ [call]) ch = if call.1 = ch then some call.2 else lastArg calls ch := by
  rw [lastArg, List.reverse_append, List.reverse_singleton, List.singleton_append, List.find?_cons]
  by_cases h : call.1 = ch
  · simp [h]
  · simp [h, lastArg]

theorem fromStrChars_of_isDecimal {s : Str} {x : UInt64} (h : IsDecimal s x.toNat) :
    fromStrChars uint64 s = .ok x := by
  rw [fromStrChars, parseNumber_eq_some.mp (parseNumber_uint64.mpr h)]

/-- What is not a number of the type. -/
theorem fromStrChars_of_not_isDecimal {s : Str} (h : ∀ n, ¬ IsDecimal s n) :
    fromStrChars uint64 s = .error .invalidArgument := by
  by_cases hdigits : takeDigits s = []
  · have hchars : fromChars uint64 s = (.error .invalidArgument, s) := if_pos hdigits
    rw [fromStrChars, hchars]
    cases s <;> rfl
  · -- something is behind the digits
    have hrest : dropDigits s ≠ [] := fun hrest => by
      have hall := dropDigits_eq_nil.mp hrest
      rw [takeDigits_of_all hall] at hdigits
      exact h _ ⟨hdigits, hall, rfl⟩
    have hchars : (fromChars uint64 s).2 = dropDigits s := by
      show (fromDigits uint64 false s s).2 = _
      simp only [fromDigits, if_neg hdigits, apply_ite Prod.snd, ite_self]
    rw [fromStrChars]
    split
    · rename_i heq
      rw [heq] at hchars
      exact absurd hchars.symm hrest
    · rename_i heq
      rw [heq] at hchars
      exact absurd hchars.symm hrest
    · rfl

theorem fromStrChars_of_le {s : Str} {n : ℕ} (h : IsDecimal s n) (hn : 2 ^ 64 ≤ n) :
    fromStrChars uint64 s = .error .resultOutOfRange := by
  obtain ⟨hne, hall, rfl⟩ := h
  have hchars : fromChars uint64 s = (.error .resultOutOfRange, []) := by
    show fromDigits uint64 false s s = _
    rw [fromDigits, takeDigits_of_all hall, if_neg hne, dropDigits_eq_nil.mpr hall]
    refine if_neg fun hfits => ?_
    have hmax : (Nat.ofDigitChars 10 s 0 : ℤ) ≤ 2 ^ 64 - 1 := hfits.2
    omega
  rw [fromStrChars, hchars]

variable (parseLoss) in
theorem accepted_or_refused (call : Char × Str) :
    Accepted parseLoss call ∨ ∃ r, Refused parseLoss call r := by
  obtain ⟨ch, optarg⟩ := call
  by_cases hnumber : ch ∈ ['S', 'R', 'n']
  · by_cases hdecimal : ∃ n, IsDecimal optarg n
    · obtain ⟨n, hn⟩ := hdecimal
      rcases Nat.lt_or_ge n (2 ^ 64) with hlt | hle
      · refine .inl (.number (x := .ofNat n) hnumber ?_)
        rwa [UInt64.toNat_ofNat_of_lt' hlt]
      · exact .inr ⟨_, .large hnumber hn hle⟩
    · exact .inr ⟨_, .notNumber hnumber fun n hn => hdecimal ⟨n, hn⟩⟩
  · by_cases hflag : ch ∈ ['V', 'p']
    · exact .inl (.flag hflag)
    · by_cases hloss : ch = 'l'
      · subst hloss
        cases hx : parseLoss optarg with
        | ok x => exact .inl (.loss hx)
        | error code => exact .inr ⟨_, .loss hx⟩
      · refine .inr ⟨_, .unknown fun hch => ?_⟩
        simp only [List.mem_cons, List.not_mem_nil, or_false] at hch hnumber hflag
        tauto

theorem setOption_of_accepted {loss : L} {calls : List (Char × Str)} {call : Char × Str}
    (h : Accepted parseLoss call) :
    setOption parseLoss (arguments parseLoss loss calls) call =
      .ok (arguments parseLoss loss (calls ++ [call])) := by
  cases h with
  | flag hch =>
    simp only [List.mem_cons, List.not_mem_nil, or_false] at hch
    rcases hch with rfl | rfl <;> simp [setOption, arguments, lastArg_append, lastNumber]
  | number hch hx =>
    have hnumber := parseNumber_uint64.mpr hx
    have hok := fromStrChars_of_isDecimal hx
    simp only [List.mem_cons, List.not_mem_nil, or_false] at hch
    rcases hch with rfl | rfl | rfl <;>
      simp [setOption, arguments, lastArg_append, lastNumber, hnumber, hok, Except.map, Except.mapError]
  | loss hx =>
    simp [setOption, arguments, lastArg_append, lastNumber, hx, Except.map, Except.mapError,
      Except.toOption]

theorem setOption_of_error {st : Arguments L} {ch : Char} {optarg : Str} {code : FromCharsError}
    (hch : ch ∈ ['S', 'R', 'n']) (h : fromStrChars uint64 optarg = .error code) :
    setOption parseLoss st (ch, optarg) = .error (.invalidArgument code) := by
  simp only [List.mem_cons, List.not_mem_nil, or_false] at hch
  rcases hch with rfl | rfl | rfl <;> simp [setOption, h, Except.map, Except.mapError]

theorem setOption_of_refused {st : Arguments L} {call : Char × Str} {r : Refusal}
    (h : Refused parseLoss call r) : setOption parseLoss st call = .error r := by
  cases h with
  | unknown hch =>
    simp only [List.mem_cons, List.not_mem_nil, or_false, not_or] at hch
    simp [setOption, hch]
  | notNumber hch h => exact setOption_of_error hch (fromStrChars_of_not_isDecimal h)
  | large hch h hn => exact setOption_of_error hch (fromStrChars_of_le h hn)
  | loss h => simp [setOption, h, Except.map, Except.mapError]

theorem parseOptions_of_accepted {loss : L} {calls : List (Char × Str)}
    (h : ∀ call ∈ calls, Accepted parseLoss call) :
    parseOptions parseLoss { tester := { loss := loss } } calls =
      .ok (arguments parseLoss loss calls) := by
  induction calls using List.reverseRecOn with
  | nil => rfl
  | append_singleton calls call ih =>
    rw [List.forall_mem_append] at h
    rw [parseOptions, List.foldlM_append, show List.foldlM _ _ calls = _ from ih h.1]
    show List.foldlM (setOption parseLoss) _ [call] = _
    rw [List.foldlM_cons, setOption_of_accepted (h.2 call List.mem_cons_self)]
    rfl

/-- The first option that is not taken ends the loop. -/
theorem parseOptions_of_refused {loss : L} {before after : List (Char × Str)} {call : Char × Str}
    {r : Refusal} (hbefore : ∀ call ∈ before, Accepted parseLoss call)
    (h : Refused parseLoss call r) :
    parseOptions parseLoss { tester := { loss := loss } } (before ++ call :: after) = .error r := by
  rw [parseOptions, List.foldlM_append, show List.foldlM _ _ before = _ from
    parseOptions_of_accepted hbefore]
  show List.foldlM (setOption parseLoss) _ (call :: after) = _
  rw [List.foldlM_cons, setOption_of_refused h]
  rfl

end Options

/-! ## The tries -/

section Tries

variable {L : Type} {t : Testinfo L} {seed : UInt64} {r : TryResult}

/-- The clients and the replicas of a test: `lockseq_model` has 32 clients, 100 groups and up to 100
values. -/
structure Testinfo.Configures (t : Testinfo L) (cfg : Config) : Prop where
  nreplicas : cfg.nreplicas = t.nreplicas.toNat
  initialLeader : cfg.initialLeader = t.initialLeader
  nclients : cfg.nclients = 32
  ngroups : cfg.ngroups = 100
  maxSequenceLength : cfg.maxSequenceLength = 100

/-- What `try_one_seed` may come to: the exception of the set-up, or the report of some run on the
network, which `clear_after` ends after 100 seconds. -/
inductive TryOneSeed (t : Testinfo L) (seed : UInt64) : TryResult → Prop
  | threw {e : SetupError} (hsu : setup t.nreplicas.toNat t.initialLeader 32 = .error e) :
    TryOneSeed t seed (.error e)
  | returned {cfg : Config} {su : Setup} {tr : List (Deployment.State × Deployment.Action)}
    {s : Deployment.State} (hcfg : t.Configures cfg)
    (hsu : setup cfg.nreplicas cfg.initialLeader cfg.nclients = .ok su)
    (htr : (deployment cfg su).Trace tr s) (hnow : s.now = 100000) :
    TryOneSeed t seed (.ok (report (fun ph => (Deployment.count cfg su tr ph).toNat) t.printDb
      seed.toNat (s.replicas cfg.initialLeader).db))

/-- What it prints to `std::cout`. -/
def TryResult.out : TryResult → Str
  | .ok r => r.2.1
  | .error _ => []

theorem TryOneSeed.eq_error (h : TryOneSeed t seed r) (hzero : t.nreplicas = 0) :
    r = .error (.outOfRange "nreplicas must not be zero".toList) := by
  have hzero' : t.nreplicas.toNat = 0 := by rw [hzero]; rfl
  cases h with
  | threw hsu =>
    rw [hzero', setup_zero] at hsu
    rw [Except.error.inj hsu]
  | @returned cfg _ _ _ hcfg _ _ _ =>
    have hlt := cfg.initialLeader_lt
    rw [hcfg.nreplicas, hzero'] at hlt
    exact absurd hlt (Nat.not_lt_zero _)

/-- With a replica, the test does not fail. -/
theorem TryOneSeed.eq_ok (h : TryOneSeed t seed r) (hreplicas : t.nreplicas ≠ 0) :
    r = .ok (true, r.out, []) := by
  cases h with
  | threw hsu =>
    have hpos : 0 < t.nreplicas.toNat :=
      Nat.pos_of_ne_zero fun h => hreplicas (UInt64.toNat_inj.mp h)
    obtain ⟨su, hok, -⟩ := exists_setup t.nreplicas.toNat t.initialLeader 32 hpos (by decide)
    cases hok.symm.trans hsu
  | @returned cfg su tr s hcfg hsu htr hnow =>
    obtain ⟨tr', t', sh, h, hsim, hlocking, hseq⟩ :=
      sequences_of_deployment hsu htr (by rw [hnow]; decide)
    have hcheck : check (s.replicas cfg.initialLeader).db = none := by
      rw [← h.replicas]
      exact check_eq_none_of_sequences hsim.heap hlocking hseq (by rw [hcfg.ngroups]; decide)
        (by rw [hcfg.maxSequenceLength]; decide)
    unfold report
    rw [hcheck]
    rfl

end Tries

/-! ## The seeds -/

section Seeds

variable {L : Type} {parseLoss : Str → Except FromCharsError L} {tryOneSeed : UInt64 → TryResult}
  {seedGenerator : ℕ → UInt64} {n : ℕ}

/-- The seeds that are tried, unless a test fails. -/
def seeds (args : Arguments L) (seedGenerator : ℕ → UInt64) : List UInt64 :=
  match args.firstSeed with
  | some seed => [seed]
  | none => (List.range args.seedCount.toNat).map seedGenerator

/-- The dots for `n` tries. -/
def dots (n : ℕ) : Str := List.replicate ((n - 1) / 1000) '.'

theorem dots_succ (n : ℕ) :
    dots (n + 1) = if 0 < n ∧ n % 1000 = 0 then dots n ++ ['.'] else dots n := by
  rw [dots, dots]
  split
  · rw [← List.replicate_succ', show (n + 1 - 1) / 1000 = (n - 1) / 1000 + 1 by omega]
  · rw [show (n + 1 - 1) / 1000 = (n - 1) / 1000 by omega]

/-- What `main` knows after `n` tries, when none of them has failed. -/
def passed (tryOneSeed : UInt64 → TryResult) (seedGenerator : ℕ → UInt64) (n : ℕ) : Progress where
  ok := if n = 0 then none else some true
  out := ((List.range n).map seedGenerator).flatMap fun seed => (tryOneSeed seed).out
  err := dots n

theorem passed_succ (tryOneSeed : UInt64 → TryResult) (seedGenerator : ℕ → UInt64) (n : ℕ) :
    passed tryOneSeed seedGenerator (n + 1) =
      { ok := some true
        out := (passed tryOneSeed seedGenerator n).out ++ (tryOneSeed (seedGenerator n)).out
        err := dots (n + 1) } := by
  rw [passed, if_neg (Nat.succ_ne_zero n), List.range_succ, List.map_append, List.flatMap_append,
    List.map_singleton, List.flatMap_singleton]
  rfl

theorem seedTurn_passed (htry : ∀ seed, tryOneSeed seed = .ok (true, (tryOneSeed seed).out, [])) :
    seedTurn tryOneSeed seedGenerator (passed tryOneSeed seedGenerator n) n =
      .ok (passed tryOneSeed seedGenerator (n + 1)) := by
  rw [seedTurn, htry, passed_succ, dots_succ]
  simp only [if_true, Progress.tried]
  split <;> simp [passed]

theorem countedLoop_passed
    (htry : ∀ seed, tryOneSeed seed = .ok (true, (tryOneSeed seed).out, [])) (n : ℕ) :
    countedLoop (seedTurn tryOneSeed seedGenerator) n {} =
      .ok (passed tryOneSeed seedGenerator n) := by
  obtain ⟨p, hp, rfl⟩ := countedLoop_ok (f := seedTurn tryOneSeed seedGenerator) (n := n) (b := {})
    (P := fun i p => passed tryOneSeed seedGenerator i = p) rfl fun i _ p hp =>
      ⟨_, hp ▸ seedTurn_passed htry, rfl⟩
  exact hp

/-- Nothing comes behind an exception. -/
theorem countedLoop_threw {e : SetupError} (htry : ∀ seed, tryOneSeed seed = .error e)
    (hn : 0 < n) : countedLoop (seedTurn tryOneSeed seedGenerator) n {} = .error (.inl e) := by
  refine countedLoop_error (P := fun _ p => p = {}) hn rfl
    (fun j hj => absurd hj (Nat.not_lt_zero j)) fun p hp => ?_
  rw [seedTurn, htry]

end Seeds

/-! ## The outcome -/

section Outcome

variable {L : Type}

/-- How `main` ends when it does not take an option. -/
def Refusal.outcome : Refusal → Outcome
  | .unknownOption => .returned 1 [] "Unknown option\n".toList
  | .invalidArgument code => .invalidArgument code

/-- How `main` ends when it takes them all. -/
def Arguments.outcome (args : Arguments L) (tryOneSeed : UInt64 → TryResult)
    (seedGenerator : ℕ → UInt64) : Outcome :=
  if seeds args seedGenerator = [] then .undefined
  else if args.tester.nreplicas = 0 then .threw (.outOfRange "nreplicas must not be zero".toList)
  else .returned 0 ((seeds args seedGenerator).flatMap fun seed => (tryOneSeed seed).out)
    (dots (seeds args seedGenerator).length ++
      if 1000 ≤ (seeds args seedGenerator).length then ['\n'] else [])

theorem finish_passed {tryOneSeed : UInt64 → TryResult} {seedGenerator : ℕ → UInt64}
    (seedCount : UInt64) (hpos : 0 < seedCount.toNat) :
    finish (endLine seedCount (passed tryOneSeed seedGenerator seedCount.toNat)) =
      .returned 0 (passed tryOneSeed seedGenerator seedCount.toNat).out
        (dots seedCount.toNat ++ if 1000 ≤ seedCount.toNat then ['\n'] else []) := by
  have hok : (passed tryOneSeed seedGenerator seedCount.toNat).ok = some true :=
    if_neg (Nat.ne_of_gt hpos)
  by_cases hline : 1000 ≤ seedCount.toNat
  · rw [endLine, if_pos ⟨hok, hline⟩, finish, hok, if_pos hline]
    rfl
  · rw [endLine, if_neg fun h => hline h.2, finish, hok, if_neg hline, List.append_nil]
    rfl

theorem runSeeds_eq {args : Arguments L} {tryOneSeed : UInt64 → TryResult}
    (seedGenerator : ℕ → UInt64)
    (htry : ∀ seed, TryOneSeed args.tester seed (tryOneSeed seed)) :
    runSeeds args tryOneSeed seedGenerator = args.outcome tryOneSeed seedGenerator := by
  have hok := fun (h : args.tester.nreplicas ≠ 0) seed => (htry seed).eq_ok h
  rw [runSeeds, Arguments.outcome, seeds]
  cases hseed : args.firstSeed with
  | some seed =>
    simp only [List.flatMap_singleton, List.length_singleton]
    rw [if_neg (List.cons_ne_nil _ _)]
    by_cases hreplicas : args.tester.nreplicas = 0
    · rw [if_pos hreplicas, (htry seed).eq_error hreplicas]
    · rw [if_neg hreplicas, hok hreplicas seed]
      rfl
  | none =>
    simp only [List.map_eq_nil_iff, List.range_eq_nil, List.length_map, List.length_range]
    rcases Nat.eq_zero_or_pos args.seedCount.toNat with hzero | hpos
    · rw [if_pos hzero, hzero]
      rfl
    · rw [if_neg (Nat.ne_of_gt hpos)]
      by_cases hreplicas : args.tester.nreplicas = 0
      · rw [if_pos hreplicas, countedLoop_threw (fun seed => (htry seed).eq_error hreplicas) hpos]
      · rw [if_neg hreplicas, countedLoop_passed (hok hreplicas)]
        exact finish_passed args.seedCount hpos

/-- **What the test program does**, for all options, seeds and runs. It refuses the first option that it
does not know or whose argument it cannot read. Else the last option of each kind counts, and no test
fails: it runs them all, prints what each of them prints, and returns 0. There are two exceptions: with no
replica the first test throws, and when no test is asked for, `ok` has no value. -/
theorem program_outcome (parseLoss : Str → Except FromCharsError L) (loss : L)
    (tryOneSeed : Testinfo L → UInt64 → TryResult) (seedGenerator : ℕ → UInt64) :
    (∀ call, Accepted parseLoss call ∨ ∃ r, Refused parseLoss call r) ∧
    (∀ before call after r, (∀ call ∈ before, Accepted parseLoss call) → Refused parseLoss call r →
      main parseLoss loss tryOneSeed seedGenerator (before ++ call :: after) = r.outcome) ∧
    ∀ calls args, (∀ call ∈ calls, Accepted parseLoss call) → arguments parseLoss loss calls = args →
      (∀ seed, TryOneSeed args.tester seed (tryOneSeed args.tester seed)) →
      main parseLoss loss tryOneSeed seedGenerator calls =
        args.outcome (tryOneSeed args.tester) seedGenerator := by
  refine ⟨accepted_or_refused parseLoss, fun before call after r hbefore hrefused => ?_,
    fun calls args haccepted hargs htry => ?_⟩
  · rw [main, parseOptions_of_refused hbefore hrefused]
    cases r <;> rfl
  · rw [main, parseOptions_of_accepted haccepted, hargs]
    exact runSeeds_eq seedGenerator htry

/-- The test with one replica. -/
def soloConfig : Config :=
  .oneReplica 32 100 100 (Nat.le_of_ble_eq_true rfl) (Nat.le_of_ble_eq_true rfl)
    (Nat.le_of_ble_eq_true rfl)

/-- Its network. -/
def soloSetup : Setup :=
  (setup soloConfig.nreplicas soloConfig.initialLeader soloConfig.nclients).toOption.get (by decide)

/-- Options that are given twice; then a number that is none, in front of an option that is unknown. -/
theorem program_outcome_solo : ∃ (tryOneSeed : Testinfo UInt64 → UInt64 → TryResult) (db : Pancydb),
    lockKeys db = [makeLockKey 0] ∧
    main (fromStrChars uint64) 0 tryOneSeed .ofNat
      [('l', "0".toList), ('n', "3".toList), ('R', "2".toList), ('n', "1".toList), ('p', [])] =
        .returned 0 (("1 lock, 0 write, 0 clear, 0 unlock\n".toList ++ db.print) ++
          ("1 lock, 0 write, 0 clear, 0 unlock\n".toList ++ db.print)) [] ∧
    main (fromStrChars uint64) 0 tryOneSeed .ofNat
      [('n', "1".toList), ('S', "7x".toList), ('q', [])] = .invalidArgument .invalidArgument := by
  obtain ⟨tr, s, htr, hcounts, hnow, hcheck, hkeys⟩ := Machine.exists_trace_of_record
    (M := deployment soloConfig soloSetup)
    [.serve 0, .begin 0 0 5 1, .send 0 false, .tick 1, .listen 0, .tick 4, .fireRequest 0,
      .resumeServer 0, .tick 1, .fireRequest 0, .resumeServer 0, .resumeServer 0, .handle 0 false,
      .tick 1, .serve 0, .tick 4, .fireResponse 0, .resume 0, .tick 1, .fireResponse 0, .resume 0,
      .resume 0, .receive 0 0, .tick 99988]
    (P := fun tr s => [Phase.lock, .write, .clear, .unlock].map
        (Deployment.count soloConfig soloSetup tr) = [1, 0, 0, 0] ∧
      s.now = 100000 ∧ check (s.replicas 0).db = none ∧
      lockKeys (s.replicas 0).db = [makeLockKey 0]) (by decide)
  have hcount : ∀ ph, (Deployment.count soloConfig soloSetup tr ph).toNat =
      if ph = .lock then 1 else 0 := by
    simp only [List.map_cons, List.map_nil, List.cons.injEq, and_true] at hcounts
    obtain ⟨hlock, hwrite, hclear, hunlock⟩ := hcounts
    intro ph
    cases ph with
    | lock => rw [hlock]; rfl
    | write => rw [hwrite]; rfl
    | clear => rw [hclear]; rfl
    | unlock => rw [hunlock]; rfl
  let tryOneSeed : Testinfo UInt64 → UInt64 → TryResult := fun t seed =>
    .ok (report (fun ph => (Deployment.count soloConfig soloSetup tr ph).toNat) t.printDb seed.toNat
      (s.replicas 0).db)
  obtain ⟨-, hrefused, haccepted⟩ := program_outcome (fromStrChars uint64) 0 tryOneSeed .ofNat
  have hnumber : ∀ {ch : Char} {optarg : Str} {x : UInt64}, ch ∈ ['S', 'R', 'n'] →
      parseNumber uint64 optarg = some x → Accepted (fromStrChars uint64) (ch, optarg) :=
    fun hch hx => .number hch (parseNumber_uint64.mp hx)
  refine ⟨tryOneSeed, (s.replicas 0).db, hkeys, ?_, ?_⟩
  · let args : Arguments UInt64 :=
      { tester := { loss := 0, printDb := true, nreplicas := 1 }, seedCount := 2 }
    have htry : ∀ seed, TryOneSeed args.tester seed (tryOneSeed args.tester seed) := fun seed =>
      .returned (show args.tester.Configures soloConfig from ⟨rfl, rfl, rfl, rfl, rfl⟩)
        (eq_ok_get _) htr hnow
    have hout : ∀ seed, (tryOneSeed args.tester seed).out =
        "1 lock, 0 write, 0 clear, 0 unlock\n".toList ++ (s.replicas 0).db.print := by
      intro seed
      show (report _ true seed.toNat (s.replicas 0).db).2.1 = _
      unfold report
      simp only [hcheck, hcount]
      exact congrArg (· ++ (s.replicas 0).db.print) (by decide)
    have hseeds : seeds args .ofNat = [0, 1] := rfl
    rw [haccepted _ args ?_ (by decide) htry, Arguments.outcome, hseeds, if_neg (by decide),
      if_neg (by decide)]
    · simp only [List.flatMap_cons, List.flatMap_nil, hout, List.append_nil]
      exact congrArg (Outcome.returned 0 _) (by decide)
    · intro call hcall
      simp only [List.mem_cons, List.not_mem_nil, or_false] at hcall
      rcases hcall with rfl | rfl | rfl | rfl | rfl
      · exact .loss (x := 0) (by decide)
      · exact hnumber (by decide) (x := 3) (by decide)
      · exact hnumber (by decide) (x := 2) (by decide)
      · exact hnumber (by decide) (x := 1) (by decide)
      · exact .flag (by decide)
  · refine hrefused [_] _ [('q', [])] _ (fun call hcall => ?_)
      (.notNumber (by decide) fun n hn => hn.not_mem (c := 'x') rfl (by decide))
    rw [List.mem_singleton.mp hcall]
    exact hnumber (by decide) (x := 1) (by decide)

end Outcome

end Program

end Lockseq

end Traxos
