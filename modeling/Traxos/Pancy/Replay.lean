import Mathlib.Data.Nat.Init
import Traxos.Pancy.Refinement

/-! # The responses tell the whole truth
A client that sees every request with its response can rebuild the database without asking it: the
transcript of a run, replayed, gives the map of the database exactly (`replay_transcript`). Against
the replayed map every response is accurate (`Accurate`), and per key the accepted modifications
form a chain: each reports as `previousVersion` the version that the one before it returned. -/

namespace Traxos

/-! ## Transcripts and their replay -/

/-- The database after the requests of a list. -/
def Heap.serve (h : Heap) (reqs : List Request) : Heap :=
  reqs.foldl (fun h req => (h.processReq req).2) h

/-- The requests of a list with the responses they get, one after the other. -/
def Heap.transcript (h : Heap) : List Request → List (Request × Response)
  | [] => []
  | req :: reqs => (req, (h.processReq req).1) :: (h.processReq req).2.transcript reqs

/-- Replay one response: a put or cas answered `ok` sets the key to the written value at the
response's version, a removal answered `ok` deletes it, everything else does nothing. -/
def replayStep (t : MapType) : Request × Response → MapType
  | (.put req, .put resp) =>
    if resp.errcode = .ok then t.insert req.key ⟨req.value, resp.version⟩ else t
  | (.cas req, .cas resp) =>
    if resp.errcode = .ok then t.insert req.key ⟨req.desired, resp.version⟩ else t
  | (.remove req, .remove resp) => if resp.errcode = .ok then t.erase req.key else t
  | _ => t

/-- The map that a transcript describes. -/
def replay (t : MapType) (history : List (Request × Response)) : MapType :=
  history.foldl replayStep t

/-- What a map shows for a key: empty and version 0 when it is absent. -/
def shown (t : MapType) (k : Str) : Vv := (t[k]?).getD Vv.nonexistentVv

/-- The answer to a modification of `k` is accurate against the map `t` just before it. -/
structure ModAccurate (t : MapType) (k : Str) (resp : ModResponse) : Prop where
  ok : resp.errcode = .ok → resp.previousVersion = (shown t k).version
  noMatch : resp.errcode = .noMatch → resp.actual = (shown t k).value ∧
    resp.previousVersion = (shown t k).version ∧ resp.version = (shown t k).version
  notFound : resp.errcode = .notFound → t[k]? = none

/-- A response is accurate against the map `t` just before it. -/
def Accurate (t : MapType) : Request × Response → Prop
  | (.get req, .get resp) =>
    resp.value = (shown t req.key).value ∧ resp.version = (shown t req.key).version
  | (.put req, .put resp) => ModAccurate t req.key resp.toModResponse
  | (.cas req, .cas resp) => ModAccurate t req.key resp.toModResponse
  | (.remove req, .remove resp) => ModAccurate t req.key resp.toModResponse ∧
    (resp.errcode = .ok → resp.version = nonexistentVersion)
  | _ => False

/-- The key of an accepted modification, with its answer. -/
def accepted : Request × Response → Option (Str × ModResponse)
  | (.put req, .put resp) =>
    if resp.errcode = .ok then some (req.key, resp.toModResponse) else none
  | (.cas req, .cas resp) =>
    if resp.errcode = .ok then some (req.key, resp.toModResponse) else none
  | (.remove req, .remove resp) =>
    if resp.errcode = .ok then some (req.key, resp.toModResponse) else none
  | _ => none

/-! ## One request -/

variable {h : Heap} {m : Store}

/-- What a heap shows for a key is what its abstract map shows. -/
theorem Heap.Refines.shown (r : Heap.Refines h m) (k : Str) :
    shown h.self.db k = Vv.ofStamped (m.current k) := by
  rw [Traxos.shown, r.db]
  cases hk : m.entry k with
  | none => rw [Store.current_of_none hk]; rfl
  | some e => rw [Store.current_of_some hk]; rfl

theorem modAccurate_noMatch (r : Heap.Refines h m) (req : RequestBase) (k : Str) :
    ModAccurate h.self.db k (m.noMatch req k) where
  ok := fun hok => by cases hok
  noMatch := fun _ => by rw [r.shown]; exact ⟨rfl, rfl, rfl⟩
  notFound := fun hnf => by cases hnf

theorem modAccurate_done (r : Heap.Refines h m) (req : RequestBase) (k : Str) (v : ℤ) :
    ModAccurate h.self.db k (m.done req k v) where
  ok := fun _ => by rw [r.shown]; rfl
  noMatch := fun hnm => by cases hnm
  notFound := fun hnf => by cases hnf

/-- Every response is accurate against the map before the request. -/
theorem accurate_processReq (r : Heap.Refines h m) (req : Request) :
    Accurate h.self.db (req, (h.processReq req).1) := by
  rw [(r.processReq req).1]
  cases req with
  | get req =>
    simp only [Request.answer, Accurate, r.shown]
    exact ⟨rfl, rfl⟩
  | put req =>
    simp only [Request.answer, Accurate]
    split
    · exact modAccurate_noMatch r _ _
    · exact modAccurate_done r _ _ _
  | cas req =>
    simp only [Request.answer, Accurate]
    split
    · exact modAccurate_noMatch r _ _
    · exact modAccurate_done r _ _ _
  | remove req =>
    simp only [Request.answer, Accurate]
    by_cases hk : m.entry req.key = none
    · simp only [if_pos hk]
      exact ⟨⟨fun h => (by cases h), fun h => (by cases h), fun _ => r.db_of_none hk⟩,
        fun h => (by cases h)⟩
    · by_cases hmm : m.mismatch req.key req.versionMatch
      · simp only [if_neg hk, if_pos hmm]
        exact ⟨modAccurate_noMatch r _ _, fun h => (by cases h)⟩
      · simp only [if_neg hk, if_neg hmm]
        exact ⟨modAccurate_done r _ _ _, fun _ => rfl⟩

/-- Replaying the answer to a put or cas of value `x`, which `P` refuses. -/
theorem replay_answer {P : Prop} [Decidable P] (r : Heap.Refines h m) (req : RequestBase)
    (k x a : Str) :
    (if (if P then m.noMatch req k else m.done req k m.next).errcode = .ok then
        h.self.db.insert k ⟨x, (if P then m.noMatch req k else m.done req k m.next).version⟩
      else h.self.db)[a]? =
      ((m.apply (if P then .keep else .write k x)).entry a).map Vv.ofStamped := by
  by_cases hP : P
  · simp only [if_pos hP]
    exact r.db a
  · simp only [if_neg hP, StampedMap.apply, StampedMap.entry_write]
    refine (MapType.getElem?_insert h.self.db k a _).trans ?_
    rw [r.db a, apply_ite (Option.map Vv.ofStamped)]
    rfl

/-- Replaying the response to a request does to the map what the request did. -/
theorem replayStep_processReq (r : Heap.Refines h m) (req : Request) :
    replayStep h.self.db (req, (h.processReq req).1) = (h.processReq req).2.self.db := by
  obtain ⟨hresp, hheap⟩ := r.processReq req
  refine Std.ExtTreeMap.ext_getElem? fun {a} => ?_
  rw [hheap.db, hresp]
  cases req with
  | get req => exact r.db a
  | put req => exact replay_answer r req.toRequestBase req.key req.value a
  | cas req => exact replay_answer r req.toRequestBase req.key req.desired a
  | remove req =>
    by_cases hk : m.entry req.key = none
    · have hsame : m.apply ((Request.remove req).change m) = m := by
        simp only [Request.change]
        split
        · rfl
        · exact StampedMap.delete_of_none hk
      rw [hsame]
      simp only [Request.answer, if_pos hk, replayStep]
      exact r.db a
    · by_cases hmm : m.mismatch req.key req.versionMatch
      · simp only [Request.answer, Request.change, if_neg hk, if_pos hmm, replayStep]
        exact r.db a
      · simp only [Request.answer, Request.change, if_neg hk, if_neg hmm, replayStep,
          StampedMap.apply, StampedMap.entry_delete]
        refine (MapType.getElem?_erase h.self.db req.key a).trans ?_
        rw [r.db a, apply_ite (Option.map Vv.ofStamped)]
        rfl

/-! ## Whole runs -/

theorem Heap.Refines.serve (r : Heap.Refines h m) (reqs : List Request) :
    ∃ m', Heap.Refines (h.serve reqs) m' := by
  induction reqs generalizing h m with
  | nil => exact ⟨m, r⟩
  | cons req reqs ih => exact ih (r.processReq req).2

/-- **Replaying a transcript rebuilds the map.** -/
theorem replay_transcript (r : Heap.Refines h m) (reqs : List Request) :
    replay h.self.db (h.transcript reqs) = (h.serve reqs).self.db := by
  induction reqs generalizing h m with
  | nil => rfl
  | cons req reqs ih =>
    rw [Heap.transcript, replay, List.foldl_cons, replayStep_processReq r]
    exact ih (r.processReq req).2

theorem Heap.take_transcript (h : Heap) (reqs : List Request) (i : ℕ) :
    (h.transcript reqs).take i = h.transcript (reqs.take i) := by
  induction reqs generalizing h i with
  | nil => simp [Heap.transcript]
  | cons req reqs ih =>
    cases i with
    | zero => rfl
    | succ i => simp [Heap.transcript, ih]

/-- The `i`-th line of a transcript is the answer of the database as the earlier requests
left it. -/
theorem Heap.getElem?_transcript {h : Heap} {reqs : List Request} {i : ℕ}
    {p : Request × Response} (hp : (h.transcript reqs)[i]? = some p) :
    p = (p.1, ((h.serve (reqs.take i)).processReq p.1).1) := by
  induction reqs generalizing h i with
  | nil => simp [Heap.transcript] at hp
  | cons req reqs ih =>
    cases i with
    | zero =>
      obtain rfl : (req, (h.processReq req).1) = p := by simpa [Heap.transcript] using hp
      rfl
    | succ i => exact ih (by simpa [Heap.transcript] using hp)

/-- A response that does not accept a modification of `k` leaves `k` as it is. -/
theorem getElem?_replayStep_of_ne {t : MapType} {p : Request × Response} {k : Str}
    (hp : ∀ s, accepted p ≠ some (k, s)) : (replayStep t p)[k]? = t[k]? := by
  obtain ⟨req, resp⟩ := p
  have hne : ∀ {k' : Str} {s : ModResponse}, some (k', s) ≠ some (k, s) → ¬ k = k' :=
    fun h hk => h (by rw [hk])
  -- only a put, cas or removal with a response of its own type changes the map
  cases req <;> cases resp <;> try rfl
  all_goals
    simp only [replayStep]
    split
    · rename_i hok
      simp only [accepted, if_pos hok] at hp
      first
        | rw [MapType.getElem?_insert, if_neg (hne (hp _))]
        | rw [MapType.getElem?_erase, if_neg (hne (hp _))]
    · rfl

/-- Lines that accept no modification of `k` leave it as it is. -/
theorem getElem?_replay_take {t : MapType} {T : List (Request × Response)} {k : Str} {i j : ℕ}
    (hij : i ≤ j) (hnone : ∀ n p, i ≤ n → n < j → T[n]? = some p → ∀ s, accepted p ≠ some (k, s)) :
    (replay t (T.take j))[k]? = (replay t (T.take i))[k]? := by
  induction j, hij using Nat.le_induction with
  | base => rfl
  | succ j hij ih =>
    have hprev := ih fun n p hin hnj => hnone n p hin (by omega)
    rw [List.take_add_one, replay, List.foldl_append]
    cases hj : T[j]? with
    | none => exact hprev
    | some p =>
      exact (getElem?_replayStep_of_ne (hnone j p hij (Nat.lt_succ_self j) hj)).trans hprev

/-- What `accepted` finds in a line. -/
theorem accepted_eq_some {p : Request × Response} {k : Str} {s : ModResponse}
    (hacc : accepted p = some (k, s)) : s.errcode = .ok ∧
      ((∃ q, p = (.put q, .put ⟨s⟩) ∧ q.key = k) ∨ (∃ q, p = (.cas q, .cas ⟨s⟩) ∧ q.key = k) ∨
        ∃ q, p = (.remove q, .remove ⟨s⟩) ∧ q.key = k) := by
  obtain ⟨req, resp⟩ := p
  cases req <;> cases resp <;> try cases hacc
  all_goals
    simp only [accepted] at hacc
    split at hacc
    · rename_i hok
      cases hacc
      exact ⟨hok, by simp⟩
    · cases hacc

/-- After an accepted modification of `k`, the map shows the version that its answer returned. -/
theorem Accurate.version_shown {t : MapType} {p : Request × Response} {k : Str} {s : ModResponse}
    (h : Accurate t p) (hacc : accepted p = some (k, s)) :
    (shown (replayStep t p) k).version = s.version := by
  obtain ⟨hok, ⟨q, rfl, rfl⟩ | ⟨q, rfl, rfl⟩ | ⟨q, rfl, rfl⟩⟩ := accepted_eq_some hacc
  · rw [replayStep, if_pos hok, shown, MapType.getElem?_insert, if_pos rfl]
    rfl
  · rw [replayStep, if_pos hok, shown, MapType.getElem?_insert, if_pos rfl]
    rfl
  · rw [replayStep, if_pos hok, shown, MapType.getElem?_erase, if_pos rfl]
    exact (h.2 hok).symm

/-- An accepted answer reports the version before. -/
theorem Accurate.previousVersion {t : MapType} {p : Request × Response} {k : Str}
    {s : ModResponse} (h : Accurate t p) (hacc : accepted p = some (k, s)) :
    s.previousVersion = (shown t k).version := by
  obtain ⟨hok, ⟨q, rfl, rfl⟩ | ⟨q, rfl, rfl⟩ | ⟨q, rfl, rfl⟩⟩ := accepted_eq_some hacc
  · exact h.ok hok
  · exact h.ok hok
  · exact h.1.ok hok

/-- **The responses tell the whole truth.** For every sequence of requests to a new database,
replaying the transcript from the empty map gives the database's map; every response is accurate
against the map replayed so far; and among the accepted modifications of one key each reports the
version returned by the one before it, the first one reports version 0. -/
theorem responses_tell_truth (reqs : List Request) :
    replay ∅ (({} : Heap).transcript reqs) = (({} : Heap).serve reqs).self.db ∧
    (∀ (i : ℕ) (p : Request × Response), (({} : Heap).transcript reqs)[i]? = some p →
      Accurate (replay ∅ ((({} : Heap).transcript reqs).take i)) p) ∧
    (∀ (i j : ℕ) (p q : Request × Response) (k : Str) (r s : ModResponse), i < j →
      (({} : Heap).transcript reqs)[i]? = some p → accepted p = some (k, r) →
      (({} : Heap).transcript reqs)[j]? = some q → accepted q = some (k, s) →
      (∀ n p', i < n → n < j → (({} : Heap).transcript reqs)[n]? = some p' →
        ∀ s', accepted p' ≠ some (k, s')) →
      s.previousVersion = r.version) ∧
    (∀ (j : ℕ) (q : Request × Response) (k : Str) (s : ModResponse),
      (({} : Heap).transcript reqs)[j]? = some q → accepted q = some (k, s) →
      (∀ n p', n < j → (({} : Heap).transcript reqs)[n]? = some p' →
        ∀ s', accepted p' ≠ some (k, s')) →
      s.previousVersion = nonexistentVersion) := by
  have hreplay : ∀ i, replay ∅ ((({} : Heap).transcript reqs).take i) =
      (({} : Heap).serve (reqs.take i)).self.db := fun i => by
    rw [Heap.take_transcript]
    exact replay_transcript Heap.refines_empty (reqs.take i)
  have haccurate : ∀ (i : ℕ) (p : Request × Response),
      (({} : Heap).transcript reqs)[i]? = some p →
      Accurate (replay ∅ ((({} : Heap).transcript reqs).take i)) p := by
    intro i p hp
    obtain ⟨m, r⟩ := Heap.refines_empty.serve (reqs.take i)
    rw [hreplay i, Heap.getElem?_transcript hp]
    exact accurate_processReq r p.1
  refine ⟨replay_transcript Heap.refines_empty reqs, haccurate, ?_, ?_⟩
  · -- after line `i` the key shows the version returned there, and no line in between changes it
    intro i j p q k r s hij hp hpacc hq hqacc hbetween
    rw [(haccurate j q hq).previousVersion hqacc, shown,
      getElem?_replay_take hij (fun n p' hn hnj => hbetween n p' hn hnj), ← shown]
    rw [List.take_add_one, hp, replay, List.foldl_append]
    exact (haccurate i p hp).version_shown hpacc
  · -- before its first accepted modification a key is absent
    intro j q k s hq hqacc hbefore
    rw [(haccurate j q hq).previousVersion hqacc, shown,
      getElem?_replay_take (Nat.zero_le j) (fun n p' _ hnj => hbefore n p' hnj)]
    rw [List.take_zero, replay, List.foldl_nil, Std.ExtTreeMap.getElem?_empty]
    rfl

end Traxos
