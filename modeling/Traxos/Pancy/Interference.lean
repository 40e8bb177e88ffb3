import Traxos.Core.Renaming
import Traxos.Pancy.ConditionalUpdates

/-! # Keys do not interfere

All keys share one version counter, so the versions that the requests on one key see depend on how
often the other keys are modified. Nothing else does: a run shows a key as the requests on it would
find it on a database of their own, up to an order-preserving renaming of versions
(`Store.answersOn_mirrors`), as long as they name no version but 0. So what two clients with keys of
their own can tell of each other is how far the counter has advanced. -/

namespace Traxos

/-! ## Responses -/

/-- The value of a get response, the actual value of a modification's. -/
def Response.payload : Response → Str
  | .redirection _ => []
  | .get resp => resp.value
  | .put resp => resp.actual
  | .cas resp => resp.actual
  | .remove resp => resp.actual

/-- The versions that a response returns. -/
def Response.versions : Response → List ℤ
  | .redirection _ => []
  | .get resp => [resp.version]
  | .put resp => [resp.previousVersion, resp.version]
  | .cas resp => [resp.previousVersion, resp.version]
  | .remove resp => [resp.previousVersion, resp.version]

/-- The `a`-th version of the `i`-th response. -/
def versionAt (rs : List Response) (i a : ℕ) : Option ℤ := rs[i]?.bind fun resp => resp.versions[a]?

/-- Two sequences of responses differ in nothing but the versions they return, which are 0 in both
or in none and compare the same way. -/
structure SameUpToVersions (rs rs' : List Response) : Prop where
  length : rs.length = rs'.length
  answers : ∀ (i : ℕ) (r r' : Response), rs[i]? = some r → rs'[i]? = some r' →
    r.kind = r'.kind ∧ responseErrcode r = responseErrcode r' ∧ r.payload = r'.payload ∧
      r.versions.length = r'.versions.length
  zero : ∀ i a v v', versionAt rs i a = some v → versionAt rs' i a = some v' → (v = 0 ↔ v' = 0)
  order : ∀ i a j b u v u' v', versionAt rs i a = some u → versionAt rs j b = some v →
    versionAt rs' i a = some u' → versionAt rs' j b = some v' →
    (u < v ↔ u' < v') ∧ (u = v ↔ u' = v')

/-- The responses that the requests on `k` get in a run of requests, in their order. -/
def Heap.responsesOn (k : Str) (h : Heap) : List Request → List Response
  | [] => []
  | req :: reqs =>
    let (resp, h') := h.processReq req
    if req.key = k then resp :: h'.responsesOn k reqs else h'.responsesOn k reqs

/-- A modification's response with its versions renamed. -/
def ModResponse.rename (f : ℤ → ℤ) (resp : ModResponse) : ModResponse :=
  { resp with previousVersion := f resp.previousVersion, version := f resp.version }

/-- A response with its versions renamed. -/
def Response.rename (f : ℤ → ℤ) : Response → Response
  | .redirection resp => .redirection resp
  | .get resp => .get { resp with version := f resp.version }
  | .put resp => .put ⟨resp.toModResponse.rename f⟩
  | .cas resp => .cas ⟨resp.toModResponse.rename f⟩
  | .remove resp => .remove ⟨resp.toModResponse.rename f⟩

section Rename

variable {f g : ℤ → ℤ} {resp : Response}

@[simp] theorem kind_rename (f : ℤ → ℤ) (resp : Response) : (resp.rename f).kind = resp.kind := by
  cases resp <;> rfl

@[simp] theorem responseErrcode_rename (f : ℤ → ℤ) (resp : Response) :
    responseErrcode (resp.rename f) = responseErrcode resp := by
  cases resp <;> rfl

@[simp] theorem payload_rename (f : ℤ → ℤ) (resp : Response) :
    (resp.rename f).payload = resp.payload := by
  cases resp <;> rfl

@[simp] theorem versions_rename (f : ℤ → ℤ) (resp : Response) :
    (resp.rename f).versions = resp.versions.map f := by
  cases resp <;> rfl

/-- Only the names of the versions returned matter. -/
theorem Response.rename_congr (h : ∀ v ∈ resp.versions, f v = g v) :
    resp.rename f = resp.rename g := by
  cases resp with
  | redirection resp => rfl
  | get resp =>
    simp only [Response.rename, h resp.version List.mem_cons_self]
  | put resp =>
    simp only [Response.rename, ModResponse.rename, h resp.previousVersion List.mem_cons_self,
      h resp.version (List.mem_cons_of_mem _ List.mem_cons_self)]
  | cas resp =>
    simp only [Response.rename, ModResponse.rename, h resp.previousVersion List.mem_cons_self,
      h resp.version (List.mem_cons_of_mem _ List.mem_cons_self)]
  | remove resp =>
    simp only [Response.rename, ModResponse.rename, h resp.previousVersion List.mem_cons_self,
      h resp.version (List.mem_cons_of_mem _ List.mem_cons_self)]

theorem versionAt_map (f : ℤ → ℤ) (rs : List Response) (i a : ℕ) :
    versionAt (rs.map (Response.rename f)) i a = (versionAt rs i a).map f := by
  rw [versionAt, versionAt, List.getElem?_map]
  cases rs[i]? with
  | none => rfl
  | some resp => simp only [Option.map_some, Option.bind_some, versions_rename, List.getElem?_map]

end Rename

/-- Two renamings of the same responses differ in nothing but the versions. -/
theorem sameUpToVersions_of_renames {rs : List Response} {f f' : ℤ → ℤ} {n m m' : ℤ}
    (hf : Renames f n m) (hf' : Renames f' n m')
    (hused : ∀ resp ∈ rs, ∀ v ∈ resp.versions, 0 ≤ v ∧ v < n) :
    SameUpToVersions (rs.map (Response.rename f)) (rs.map (Response.rename f')) := by
  have hversion : ∀ {i a v v'}, versionAt (rs.map (Response.rename f)) i a = some v →
      versionAt (rs.map (Response.rename f')) i a = some v' →
      ∃ w, 0 ≤ w ∧ w < n ∧ v = f w ∧ v' = f' w := by
    intro i a v v' hv hv'
    rw [versionAt_map, Option.map_eq_some_iff] at hv hv'
    obtain ⟨w, hw, rfl⟩ := hv
    obtain ⟨w', hw', rfl⟩ := hv'
    obtain rfl := Option.some.inj (hw.symm.trans hw')
    obtain ⟨resp, hresp, hwv⟩ := Option.bind_eq_some_iff.mp hw
    obtain ⟨hnonneg, hn⟩ := hused resp (List.mem_of_getElem? hresp) w
      (List.mem_of_getElem? hwv)
    exact ⟨w, hnonneg, hn, rfl, rfl⟩
  constructor
  · rw [List.length_map, List.length_map]
  · intro i r r' hr hr'
    rw [List.getElem?_map, Option.map_eq_some_iff] at hr hr'
    obtain ⟨resp, hresp, rfl⟩ := hr
    obtain ⟨resp', hresp', rfl⟩ := hr'
    obtain rfl := Option.some.inj (hresp.symm.trans hresp')
    simp
  · intro i a v v' hv hv'
    obtain ⟨w, hnonneg, hn, rfl, rfl⟩ := hversion hv hv'
    rw [hf.eq_zero_iff hnonneg hn, hf'.eq_zero_iff hnonneg hn]
  · intro i a j b u v u' v' hu hv hu' hv'
    obtain ⟨w, hw, hwn, rfl, rfl⟩ := hversion hu hu'
    obtain ⟨x, hx, hxn, rfl, rfl⟩ := hversion hv hv'
    rw [hf.lt_iff hw hwn hx hxn, hf'.lt_iff hw hwn hx hxn, hf.eq_iff hw hwn hx hxn,
      hf'.eq_iff hw hwn hx hxn]
    exact ⟨Iff.rfl, Iff.rfl⟩

/-! ## Runs -/

/-- A change that a request asks for is about its key. -/
theorem Request.eq_key_of_touched {m : Store} {req : Request} {a : Str}
    (h : m.touched (req.change m) = some a) : a = req.key := by
  have hguard : ∀ {P : Prop} [Decidable P] {c : Change Str Str},
      m.touched (if P then .keep else c) = some a → m.touched c = some a := by
    intro P _ c htouched
    split at htouched
    · cases htouched
    · exact htouched
  cases req with
  | get req => cases h
  | put req => exact (Option.some.inj (hguard h)).symm
  | cas req => exact (Option.some.inj (hguard h)).symm
  | remove req =>
    have htouched := hguard h
    rw [StampedMap.touched] at htouched
    split at htouched
    · exact (Option.some.inj htouched).symm
    · cases htouched

namespace Store

/-- The responses that the requests on `k` get in a run on the abstract database. -/
def answersOn (k : Str) (m : Store) : List Request → List Response
  | [] => []
  | req :: reqs =>
    if req.key = k then req.answer m :: answersOn k (m.apply (req.change m)) reqs
    else answersOn k (m.apply (req.change m)) reqs

variable {m n : Store} {k : Str} {f : ℤ → ℤ} {req : Request}

theorem stamp_current_lt (m : Store) (k : Str) : (m.current k).stamp < m.next := by
  cases h : m.entry k with
  | none =>
    rw [current_of_none h]
    exact Int.lt_of_lt_of_le Int.zero_lt_one m.one_le_next
  | some e =>
    rw [current_of_some h]
    exact m.stamp_lt h

/-- The versions of an answer are in use afterwards. -/
theorem versions_answer (m : Store) (req : Request) : ∀ v ∈ (req.answer m).versions,
    0 ≤ v ∧ v < (m.apply (req.change m)).next := by
  intro v hv
  have hnonneg := m.stamp_current_nonneg req.key
  have hlt := m.stamp_current_lt req.key
  have hone := m.one_le_next
  have hle := m.next_le_apply (req.change m)
  -- a modification reports what the key shows, 0 or the version that it consumes
  have hmod : ∀ {resp : ModResponse} {P : Prop} [Decidable P] {x : Str},
      resp = (if P then m.noMatch req.base req.key else m.done req.base req.key m.next) →
      v ∈ [resp.previousVersion, resp.version] → 0 ≤ v ∧
        v < (m.apply (if P then .keep else .write req.key x)).next := by
    intro resp P _ x hresp hv
    split at hresp
    · rename_i hP
      subst hresp
      rw [if_pos hP]
      simp only [Store.noMatch, List.mem_cons, List.not_mem_nil, or_false, or_self] at hv
      exact ⟨by omega, show v < m.next by omega⟩
    · rename_i hP
      subst hresp
      rw [if_neg hP, StampedMap.apply, StampedMap.next_write]
      simp only [Store.done, List.mem_cons, List.not_mem_nil, or_false] at hv
      omega
  cases req with
  | get req =>
    obtain rfl := List.mem_singleton.mp hv
    exact ⟨hnonneg, hlt⟩
  | put req => exact hmod rfl hv
  | cas req => exact hmod rfl hv
  | remove req =>
    suffices hv : v = 0 ∨ v = (m.current req.key).stamp by
      rw [show (Request.remove req).key = req.key from rfl] at hnonneg hlt
      omega
    simp only [Request.answer, Response.versions] at hv
    split at hv
    · simp only [Store.notFound, List.mem_cons, List.not_mem_nil, or_false, or_self] at hv
      exact Or.inl hv
    · split at hv
      · simp only [Store.noMatch, List.mem_cons, List.not_mem_nil, or_false, or_self] at hv
        exact Or.inr hv
      · simp only [Store.done, List.mem_cons, List.not_mem_nil, or_false] at hv
        exact hv.symm

theorem versions_answersOn (reqs : List Request) : ∀ resp ∈ m.answersOn k reqs,
    ∀ v ∈ resp.versions, 0 ≤ v ∧ v < (m.drive Request.change reqs).next := by
  induction reqs generalizing m with
  | nil => exact fun resp hresp => nomatch hresp
  | cons req reqs ih =>
    intro resp hresp v hv
    rw [answersOn] at hresp
    rw [StampedMap.drive_cons]
    split at hresp
    · obtain rfl | hresp := List.mem_cons.mp hresp
      · obtain ⟨hnonneg, hlt⟩ := versions_answer m req v hv
        exact ⟨hnonneg, Int.lt_of_lt_of_le hlt (StampedMap.next_le_drive ..)⟩
      · exact ih resp hresp v hv
    · exact ih resp hresp v hv

/-- What the key shows is the same up to the renaming. -/
theorem current_mirrors (h : m.Mirrors n k f) : m.current k = (n.current k).rename f := by
  rw [current, current, h.entry]
  cases n.entry k with
  | none => rw [Option.map_none, Option.getD_none, Stamped.rename, h.renames.zero]
  | some e => rfl

/-- A version match below 1 tells a present key from an absent one at most. -/
theorem mismatch_iff_of_lt_one (h : m.Mirrors n k f) {v : ℤ} (hv : v < 1) :
    m.mismatch k v ↔ n.mismatch k v := by
  have hzero : (m.current k).stamp = 0 ↔ (n.current k).stamp = 0 := by
    rw [stamp_current_eq_zero, stamp_current_eq_zero, h.entry, Option.map_eq_none_iff]
  rw [mismatch, mismatch]
  constructor <;> (rintro ⟨hnonneg, hne⟩; refine ⟨hnonneg, ?_⟩; omega)

theorem value_current_mirrors (h : m.Mirrors n k f) :
    (m.current k).value = (n.current k).value := by
  rw [current_mirrors h]
  rfl

theorem stamp_current_mirrors (h : m.Mirrors n k f) :
    (m.current k).stamp = f (n.current k).stamp := by
  rw [current_mirrors h]
  rfl

/-- The requests on the key that match no version but 0 ask for the same change. -/
theorem change_mirrors (h : m.Mirrors n k f) (hk : req.key = k)
    (hv : ∀ v ∈ req.versionMatch, v < 1) : req.change m = req.change n := by
  cases req with
  | get req => rfl
  | put req =>
    obtain rfl : req.key = k := hk
    simp only [Request.change, mismatch_iff_of_lt_one h (hv _ rfl)]
  | cas req =>
    obtain rfl : req.key = k := hk
    simp only [Request.change, mismatch_iff_of_lt_one h (hv _ rfl), value_current_mirrors h]
  | remove req =>
    obtain rfl : req.key = k := hk
    simp only [Request.change, mismatch_iff_of_lt_one h (hv _ rfl)]

theorem noMatch_mirrors (h : m.Mirrors n k f) (req : RequestBase) :
    m.noMatch req k = (n.noMatch req k).rename f := by
  simp only [noMatch, ModResponse.rename, value_current_mirrors h, stamp_current_mirrors h]

theorem done_mirrors (h : m.Mirrors n k f) (req : RequestBase) {v v' : ℤ} (hv : v = f v') :
    m.done req k v = (n.done req k v').rename f := by
  simp only [done, ModResponse.rename, stamp_current_mirrors h, hv]

/-- And they are answered alike. -/
theorem answer_mirrors (h : m.Mirrors n k f) (hk : req.key = k)
    (hv : ∀ v ∈ req.versionMatch, v < 1) : req.answer m = (req.answer n).rename (m.extend n f) := by
  have hext := h.extend
  have hnext : m.next = m.extend n f n.next := StampedMap.extend_next.symm
  cases req with
  | get req =>
    obtain rfl : req.key = k := hk
    simp only [Request.answer, Response.rename, value_current_mirrors hext,
      stamp_current_mirrors hext]
  | put req =>
    obtain rfl : req.key = k := hk
    simp only [Request.answer, Response.rename, mismatch_iff_of_lt_one h (hv _ rfl),
      noMatch_mirrors hext, done_mirrors hext _ hnext, apply_ite (ModResponse.rename _)]
  | cas req =>
    obtain rfl : req.key = k := hk
    simp only [Request.answer, Response.rename, mismatch_iff_of_lt_one h (hv _ rfl),
      value_current_mirrors h, noMatch_mirrors hext, done_mirrors hext _ hnext,
      apply_ite (ModResponse.rename _)]
  | remove req =>
    obtain rfl : req.key = k := hk
    have hzero : nonexistentVersion = m.extend n f nonexistentVersion := hext.renames.zero.symm
    have hnotFound : (Store.notFound req.toRequestBase).rename (m.extend n f) =
        Store.notFound req.toRequestBase := by
      simp only [notFound, ModResponse.rename, ← hzero]
    have hentry : m.entry req.key = none ↔ n.entry req.key = none := by
      rw [h.entry, Option.map_eq_none_iff]
    simp only [Request.answer, Response.rename, mismatch_iff_of_lt_one h (hv _ rfl), hentry,
      noMatch_mirrors hext, done_mirrors hext _ hzero, apply_ite (ModResponse.rename _), hnotFound]

/-- **A run shows a key as the requests on it find it alone**, up to a renaming of versions. -/
theorem answersOn_mirrors {reqs : List Request} (h : m.Mirrors n k f)
    (hv : ∀ req ∈ reqs, req.key = k → ∀ v ∈ req.versionMatch, v < 1) :
    ∃ g bound, Renames g (n.drive Request.change (reqs.filter (·.key = k))).next bound ∧
      (∀ a, a < n.next → g a = f a) ∧
      m.answersOn k reqs =
        (n.answersOn k (reqs.filter (·.key = k))).map (Response.rename g) := by
  induction reqs generalizing m n f with
  | nil => exact ⟨f, m.next, h.renames, fun _ _ => rfl, rfl⟩
  | cons req reqs ih =>
    obtain ⟨hreq, hreqs⟩ := List.forall_mem_cons.mp hv
    by_cases hkey : req.key = k
    · subst hkey
      have hchange := change_mirrors h rfl (hreq rfl)
      have hstep : (m.apply (req.change m)).Mirrors (n.apply (req.change n)) req.key
          (m.extend n f) := by
        rw [hchange]
        exact h.apply fun a ha => Request.eq_key_of_touched ha
      obtain ⟨g, bound, hg, hagree, hanswers⟩ := ih hstep hreqs
      rw [List.filter_cons_of_pos (by simp), StampedMap.drive_cons, answersOn, answersOn,
        if_pos rfl, if_pos rfl, hanswers]
      refine ⟨g, bound, hg, fun a ha => ?_, ?_⟩
      · rw [hagree a (Int.lt_of_lt_of_le ha (n.next_le_apply _)), StampedMap.extend_of_lt ha]
      · rw [answer_mirrors h rfl (hreq rfl), List.map_cons]
        refine congrArg (· :: _) (Response.rename_congr fun v hv => ?_)
        exact (hagree v (versions_answer n req v hv).2).symm
    · -- a request on another key
      rw [List.filter_cons_of_neg (by simpa using hkey), answersOn, if_neg hkey]
      exact ih (h.of_not_touched fun ha => hkey (Request.eq_key_of_touched ha).symm) hreqs

end Store

namespace Heap

theorem Refines.responsesOn_eq {h : Heap} {m : Store} (r : Refines h m) (k : Str)
    (reqs : List Request) : h.responsesOn k reqs = m.answersOn k reqs := by
  induction reqs generalizing h m with
  | nil => rfl
  | cons req reqs ih =>
    obtain ⟨hresp, hstate⟩ := r.processReq req
    rw [responsesOn, Store.answersOn, ← hresp, ← ih hstate]

/-- **Keys do not interfere**: two runs with the same requests on `k`, none of which matches a
version but 0, answer them alike up to the versions, whatever they do to other keys. -/
theorem keys_do_not_interfere (k : Str) (reqs reqs' : List Request)
    (hsame : reqs.filter (·.key = k) = reqs'.filter (·.key = k))
    (hv : ∀ req ∈ reqs.filter (·.key = k), ∀ v ∈ req.versionMatch, v < 1) :
    SameUpToVersions (responsesOn k {} reqs) (responsesOn k {} reqs') := by
  have hmirrors := StampedMap.Mirrors.empty (α := Str) k
  have hlt : ∀ reqs : List Request, (∀ req ∈ reqs.filter (·.key = k), ∀ v ∈ req.versionMatch,
      v < 1) → ∀ req ∈ reqs, req.key = k → ∀ v ∈ req.versionMatch, v < 1 :=
    fun reqs hv req hreq hkey => hv req (List.mem_filter.mpr ⟨hreq, by simpa using hkey⟩)
  obtain ⟨g, bound, hg, -, hanswers⟩ := Store.answersOn_mirrors hmirrors (hlt reqs hv)
  rw [hsame] at hv
  obtain ⟨g', bound', hg', -, hanswers'⟩ := Store.answersOn_mirrors hmirrors (hlt reqs' hv)
  rw [refines_empty.responsesOn_eq, refines_empty.responsesOn_eq, hanswers, hanswers']
  rw [hsame] at hg ⊢
  exact sameUpToVersions_of_renames hg hg' (Store.versions_answersOn _)

/-- A key is written, read and removed, alone or between the writes of another one. -/
theorem keys_do_not_interfere_alone :
    let write : Request := .put { serial := 0, key := ['k'], value := ['x'], versionMatch := 0 }
    let read : Request := .get { serial := 1, key := ['k'] }
    let erase : Request := .remove { serial := 2, key := ['k'] }
    let other : Request := .put { serial := 3, key := ['o'], value := [], versionMatch := 7 }
    let another : Request := .put { serial := 4, key := ['o'], value := [] }
    SameUpToVersions (responsesOn ['k'] {} [write, read, erase, write])
      (responsesOn ['k'] {} [another, write, other, read, another, erase, another, write]) := by
  intro write read erase other another
  exact keys_do_not_interfere ['k'] _ _ (by decide) (by decide)

end Heap

end Traxos
