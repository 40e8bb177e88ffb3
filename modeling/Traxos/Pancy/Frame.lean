import Mathlib.Logic.Function.Basic
import Traxos.Pancy.UpdatePaths

/-! # What a request may change

A request that is answered by a get response or an error changes nothing, one that is answered `ok`
changes the entry of its key (`Heap.Refines.changesOnly`). Databases live in a process, where all
lookups of absent keys, in whatever database, yield a pointer to the same `vv::nonexistent_vv`: a
`Process` is any number of databases that share it. No run of calls on them changes it, so each
database is as if it were alone (`Process.refines_run`). -/

namespace Traxos

/-- A get response, or an error. -/
def Response.Refuses (resp : Response) : Prop :=
  resp.kind = some .get ∨ responseErrcode resp ≠ .ok

instance (resp : Response) : Decidable resp.Refuses := inferInstanceAs (Decidable (_ ∨ _))

/-- From `h` to `h'` one version is consumed, and the entry of the request's key is the only one
that differs. -/
structure Request.ChangesOnly (req : Request) (h h' : Heap) : Prop where
  nextVersion : h'.self.nextVersion = h.self.nextVersion + 1
  entry : h'.self.db[req.key]? ≠ h.self.db[req.key]?
  others : ∀ a, a ≠ req.key → h'.self.db[a]? = h.self.db[a]?
  recentRemoves : req.kind ≠ .remove → h'.self.recentRemoves = h.self.recentRemoves
  nonexistentVv : h'.nonexistentVv = Vv.nonexistentVv

namespace Heap

/-- The response says whether the request modifies its key. -/
theorem modifies_request (h : Heap) (req : Request) : h.modifies (.request req) =
    if (h.processReq req).1.Refuses then none else some req.key := by
  cases req with
  | get req => rfl
  | put req => simp [modifies, Response.Refuses, processReq, Response.kind, responseErrcode,
      Response.base, Request.key]
  | cas req => simp [modifies, Response.Refuses, processReq, Response.kind, responseErrcode,
      Response.base, Request.key]
  | remove req => simp [modifies, Response.Refuses, processReq, Response.kind, responseErrcode,
      Response.base, Request.key]

namespace Refines

variable {h : Heap} {m : Store} {req : Request}

theorem touched_change (r : Refines h m) (req : Request) : m.touched (req.change m) =
    if (h.processReq req).1.Refuses then none else some req.key := by
  rw [← modifies_request]
  exact (r.modifies_consumes (.request req)).1.symm

/-- A refused request changes nothing. -/
theorem processReq_of_refuses (r : Refines h m) (hrefused : (h.processReq req).1.Refuses) :
    (h.processReq req).2 = h := by
  have htouched := r.touched_change req
  rw [if_pos hrefused] at htouched
  have hstate := (r.processReq req).2
  rw [StampedMap.apply_of_touched_none htouched] at hstate
  exact hstate.unique r

/-- An accepted request changes only its key. -/
theorem changesOnly (r : Refines h m) (haccepted : ¬ (h.processReq req).1.Refuses) :
    req.ChangesOnly h (h.processReq req).2 := by
  have htouched := r.touched_change req
  rw [if_neg haccepted] at htouched
  have hstate := (r.processReq req).2
  constructor
  · rw [hstate.nextVersion, r.nextVersion, StampedMap.next_apply, htouched]
    rfl
  · rw [hstate.db, r.db]
    intro heq
    refine StampedMap.entry_apply_ne_of_touched htouched ?_
    refine Option.map_injective (fun e e' he => ?_) heq
    rw [Stamped.mk.injEq]
    exact ⟨congrArg Vv.value he, congrArg Vv.version he⟩
  · intro a ha
    rw [hstate.db, r.db, StampedMap.entry_apply_of_not_touched]
    rw [htouched]
    exact fun heq => ha (Option.some.inj heq).symm
  · intro hkind
    rw [hstate.recentRemoves, r.recentRemoves, m.removals_apply]
    intro k hdelete
    cases req with
    | get req => cases hdelete
    | put req =>
      simp only [Request.change] at hdelete
      split at hdelete <;> cases hdelete
    | cas req =>
      simp only [Request.change] at hdelete
      split at hdelete <;> cases hdelete
    | remove req => exact hkind rfl
  · exact hstate.nonexistentVv

end Refines

end Heap

/-! ## The databases of a process -/

/-- The databases of a process, named by `ι`, and the `vv::nonexistent_vv` that they share. -/
structure Process (ι : Type) where
  nonexistentVv : Vv := Vv.nonexistentVv
  dbs : ι → Pancydb := fun _ => Pancydb.empty

namespace Process

variable {ι : Type} {p : Process ι}

/-- What the calls on database `i` work on. -/
def heap (p : Process ι) (i : ι) : Heap := { nonexistentVv := p.nonexistentVv, self := p.dbs i }

/-- Every database of the process holds some abstract one. -/
def Refines (p : Process ι) : Prop := ∀ i, ∃ m, (p.heap i).Refines m

theorem refines_new : ({} : Process ι).Refines := fun _ => ⟨_, Heap.refines_empty⟩

variable [DecidableEq ι]

/-- A call on database `i`. -/
def perform (p : Process ι) (call : ι × Op) : Process ι :=
  let h := (p.heap call.1).perform call.2
  { nonexistentVv := h.nonexistentVv, dbs := Function.update p.dbs call.1 h.self }

/-- The process after a sequence of calls. -/
def run (calls : List (ι × Op)) : Process ι := calls.foldl perform {}

theorem heap_perform_self (p : Process ι) (i : ι) (op : Op) :
    (p.perform (i, op)).heap i = (p.heap i).perform op := by
  simp only [heap, perform, Function.update_self]

theorem heap_perform_of_ne (p : Process ι) {i j : ι} (h : j ≠ i) (op : Op) :
    (p.perform (i, op)).heap j =
      { nonexistentVv := ((p.heap i).perform op).nonexistentVv, self := p.dbs j } := by
  simp only [heap, perform, Function.update_of_ne h]

/-- A call on one database keeps what it shares with the others. -/
theorem Refines.perform (r : p.Refines) (call : ι × Op) : (p.perform call).Refines := by
  obtain ⟨i, op⟩ := call
  obtain ⟨m, hm⟩ := r i
  have hcalled := hm.perform op
  intro j
  by_cases hj : j = i
  · subst hj
    exact ⟨_, by rwa [heap_perform_self]⟩
  · -- another database: the placeholder is the initial one before and after the call
    obtain ⟨m', hm'⟩ := r j
    refine ⟨m', ?_⟩
    rwa [heap_perform_of_ne p hj, hcalled.nonexistentVv, ← hm.nonexistentVv]

theorem refines_run (calls : List (ι × Op)) : (run calls).Refines := by
  induction calls using List.reverseRecOn with
  | nil => exact refines_new
  | append_singleton calls call ih =>
    rw [run, List.foldl_append]
    exact ih.perform call

/-- **A refused request changes nothing, an accepted one only its key**, and no run of calls on the
databases of a process changes their `vv::nonexistent_vv`. -/
theorem request_frame (calls : List (ι × Op)) (i : ι) (req : Request) :
    let h := (run calls).heap i
    ((h.processReq req).1.Refuses → (h.processReq req).2 = h) ∧
    (¬ (h.processReq req).1.Refuses → req.ChangesOnly h (h.processReq req).2) ∧
    (run calls).nonexistentVv = Vv.nonexistentVv := by
  intro h
  obtain ⟨m, hm⟩ := refines_run calls i
  exact ⟨hm.processReq_of_refuses, hm.changesOnly, hm.nonexistentVv⟩

end Process

end Traxos
