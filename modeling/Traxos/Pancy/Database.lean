import Mathlib.Data.List.Basic
import Std.Data.ExtTreeMap
import Traxos.Pancy.Messages

/-! # The Pancy database
The `pancydb` of `pancydb.hh` and `pancydb.cc`: a map from keys to versioned values, the next
version to hand out, and a bounded log of recent removals.

The C++ code reaches values through `vv*` pointers. A lookup of an absent key yields the address of
one process-wide object `vv::nonexistent_vv`, which is writable; so a pointer (`VvPtr`) addresses
either an entry of the map or that object, and the functions below work on a `Heap`: the database
together with the current content of `vv::nonexistent_vv`. `++next_version_` is an increment in `ℤ`:
the 64-bit counter overflows after `2^63 - 1` modifications, where C++ leaves the behaviour
undefined. -/

namespace Traxos

/-- A "versioned value" stored for each key. -/
structure Vv where
  value : Str
  version : ℤ
  deriving DecidableEq, Repr

/-- The initial content of `vv::nonexistent_vv`. -/
def Vv.nonexistentVv : Vv := { value := [], version := nonexistentVersion }

@[simp] theorem Vv.value_nonexistentVv : Vv.nonexistentVv.value = [] := rfl

@[simp] theorem Vv.version_nonexistentVv : Vv.nonexistentVv.version = 0 := rfl

/-- `std::map<std::string, vv>`, iterated in key order. -/
abbrev MapType : Type := Std.ExtTreeMap Str Vv

/-- An entry of the removal log: the removed pair and the version that the removal consumed. -/
structure RecentRemove where
  pair : Str × Vv
  removeVersion : ℤ
  deriving DecidableEq, Repr

/-- The database. -/
structure Pancydb where
  nextVersion : ℤ := 1
  db : MapType := ∅
  recentRemoves : List RecentRemove := []

namespace Pancydb

/-- The capacity of the removal log. -/
def maxRecentRemoves : ℕ := 100

/-- A new database. -/
def empty : Pancydb := {}

@[simp] theorem nextVersion_empty : empty.nextVersion = 1 := rfl

@[simp] theorem recentRemoves_empty : empty.recentRemoves = [] := rfl

@[simp] theorem getElem?_db_empty (k : Str) : empty.db[k]? = none :=
  Std.ExtTreeMap.getElem?_empty

end Pancydb

/-- What a `vv*` addresses: an entry of the map, or `vv::nonexistent_vv`. -/
inductive VvPtr
  | entry (key : Str)
  | nonexistent
  deriving DecidableEq, Repr

/-- A database and the content of the process-wide `vv::nonexistent_vv`. -/
structure Heap where
  nonexistentVv : Vv := Vv.nonexistentVv
  self : Pancydb := Pancydb.empty

/-- The test `!vvp`: `find_vvptr` and `emplace_vvptr` never yield a null pointer. -/
def VvPtr.isNull : VvPtr → Bool
  | .entry _ => false
  | .nonexistent => false

namespace Heap

/-- Read through a pointer. The pointers below to entries are to present ones. -/
def deref (h : Heap) : VvPtr → Vv
  | .entry key => (h.self.db[key]?).getD h.nonexistentVv
  | .nonexistent => h.nonexistentVv

/-- Write through a pointer. -/
def assign (h : Heap) (p : VvPtr) (v : Vv) : Heap :=
  match p with
  | .entry key => { h with self := { h.self with db := h.self.db.insert key v } }
  | .nonexistent => { h with nonexistentVv := v }

/-- `vvp->value = value`. -/
def setValue (h : Heap) (p : VvPtr) (value : Str) : Heap :=
  h.assign p { h.deref p with value := value }

/-- `vvp->version = version`. -/
def setVersion (h : Heap) (p : VvPtr) (version : ℤ) : Heap :=
  h.assign p { h.deref p with version := version }

/-- `++next_version_`. -/
def incNextVersion (h : Heap) : Heap :=
  { h with self := { h.self with nextVersion := h.self.nextVersion + 1 } }

/-- `find_vvptr`. -/
def findVvptr (h : Heap) (key : Str) : VvPtr :=
  if (h.self.db[key]?).isSome then .entry key else .nonexistent

/-- `emplace_vvptr`: emplacing does nothing when the key is present; the flag says whether the
entry was inserted. -/
def emplaceVvptr (h : Heap) (key value : Str) : (VvPtr × Bool) × Heap :=
  let inserted := !(h.self.db[key]?).isSome
  ((.entry key, inserted),
    { h with self := { h.self with
        db := h.self.db.insertIfNew key { value := value, version := h.self.nextVersion } } })

/-- `do_remove` of the present entry `(key, v)`: log it, drop the log's oldest entries beyond its
capacity, consume a version and erase the entry. -/
def doRemove (h : Heap) (key : Str) (v : Vv) : Heap :=
  { h with self :=
    { nextVersion := h.self.nextVersion + 1
      db := h.self.db.erase key
      recentRemoves :=
        ({ pair := (key, v), removeVersion := h.self.nextVersion } :: h.self.recentRemoves).take
          Pancydb.maxRecentRemoves } }

/-! ## Direct API -/

/-- `version`. -/
def version (h : Heap) (key : Str) : ℤ := (h.deref (h.findVvptr key)).version

/-- `exists`. -/
def exists' (h : Heap) (key : Str) : Bool := h.self.db.contains key

/-- `get`. -/
def get (h : Heap) (key : Str) : Option Vv :=
  let vvp := h.findVvptr key
  if (h.deref vvp).version ≠ 0 then some (h.deref vvp) else none

/-- `put`. -/
def put (h : Heap) (key value : Str) : Heap :=
  let ((vvp, inserted), h) := h.emplaceVvptr key value
  let h := if !inserted then
      let h := h.setValue vvp value
      h.setVersion vvp h.self.nextVersion
    else h
  h.incNextVersion

/-- `remove`. -/
def remove (h : Heap) (key : Str) : Bool × Heap :=
  match h.self.db[key]? with
  | none => (false, h)
  | some v => (true, h.doRemove key v)

/-! ## Message API

The four overloads of `process`, and the two helpers that build the answers to modifications. -/

/-- `process(const get_request&)`. -/
def processGet (h : Heap) (req : GetRequest) : GetResponse :=
  let vvp := h.findVvptr req.key
  if vvp.isNull then
    { toResponseBase := responseHeader req.toRequestBase .notFound
      value := []
      version := nonexistentVersion }
  else
    { toResponseBase := responseHeader req.toRequestBase
      value := (h.deref vvp).value
      version := (h.deref vvp).version }

/-- `mod_no_match`. -/
def modNoMatch (h : Heap) (req : RequestBase) (vvp : VvPtr) : ModResponse :=
  { toResponseBase := responseHeader req .noMatch
    actual := (h.deref vvp).value
    previousVersion := (h.deref vvp).version
    version := (h.deref vvp).version }

/-- `mod_ok`. -/
def modOk (h : Heap) (req : RequestBase) (previousVersion : ℤ) (vvp : VvPtr) :
    ModResponse :=
  { toResponseBase := responseHeader req
    actual := []
    previousVersion := previousVersion
    version := (h.deref vvp).version }

/-- `process(const put_request&)`. -/
def processPut (h : Heap) (req : PutRequest) : PutResponse × Heap :=
  let vvp := h.findVvptr req.key
  if 0 ≤ req.versionMatch ∧ req.versionMatch ≠ (h.deref vvp).version then
    (⟨h.modNoMatch req.toRequestBase vvp⟩, h)
  else if (h.deref vvp).version = nonexistentVersion then
    let ((vvp, _), h) := h.emplaceVvptr req.key req.value
    let h := h.incNextVersion
    (⟨h.modOk req.toRequestBase nonexistentVersion vvp⟩, h)
  else
    let previousVersion := (h.deref vvp).version
    let h := h.setValue vvp req.value
    let h := h.setVersion vvp h.self.nextVersion
    let h := h.incNextVersion
    (⟨h.modOk req.toRequestBase previousVersion vvp⟩, h)

/-- `process(const cas_request&)`. -/
def processCas (h : Heap) (req : CasRequest) : CasResponse × Heap :=
  let vvp := h.findVvptr req.key
  if req.expected ≠ (h.deref vvp).value ∨
      (0 ≤ req.versionMatch ∧ req.versionMatch ≠ (h.deref vvp).version) then
    (⟨h.modNoMatch req.toRequestBase vvp⟩, h)
  else if (h.deref vvp).version = nonexistentVersion then
    let ((vvp, _), h) := h.emplaceVvptr req.key req.desired
    let h := h.incNextVersion
    (⟨h.modOk req.toRequestBase nonexistentVersion vvp⟩, h)
  else
    let previousVersion := (h.deref vvp).version
    let h := h.setValue vvp req.desired
    let h := h.setVersion vvp h.self.nextVersion
    let h := h.incNextVersion
    (⟨h.modOk req.toRequestBase previousVersion vvp⟩, h)

/-- `process(const remove_request&)`. -/
def processRemove (h : Heap) (req : RemoveRequest) : RemoveResponse × Heap :=
  match h.self.db[req.key]? with
  | none =>
    (⟨{ toResponseBase := responseHeader req.toRequestBase .notFound
        actual := []
        previousVersion := nonexistentVersion
        version := nonexistentVersion }⟩, h)
  | some v =>
    if 0 ≤ req.versionMatch ∧ req.versionMatch ≠ v.version then
      (⟨h.modNoMatch req.toRequestBase (.entry req.key)⟩, h)
    else
      let previousVersion := v.version
      let h := h.doRemove req.key v
      (⟨h.modOk req.toRequestBase previousVersion .nonexistent⟩, h)

/-- `process_req`. -/
def processReq (h : Heap) : Request → Response × Heap
  | .get req => (.get (h.processGet req), h)
  | .put req => let (resp, h) := h.processPut req; (.put resp, h)
  | .cas req => let (resp, h) := h.processCas req; (.cas resp, h)
  | .remove req => let (resp, h) := h.processRemove req; (.remove resp, h)

theorem serial_processGet (h : Heap) (req : GetRequest) : (h.processGet req).serial = req.serial := by
  simp only [processGet]
  split <;> rfl

theorem serial_processPut (h : Heap) (req : PutRequest) :
    (h.processPut req).1.serial = req.serial := by
  simp only [processPut, emplaceVvptr]
  split
  · rfl
  · split <;> rfl

theorem serial_processCas (h : Heap) (req : CasRequest) :
    (h.processCas req).1.serial = req.serial := by
  simp only [processCas, emplaceVvptr]
  split
  · rfl
  · split <;> rfl

theorem serial_processRemove (h : Heap) (req : RemoveRequest) :
    (h.processRemove req).1.serial = req.serial := by
  unfold processRemove
  split
  · rfl
  · split <;> rfl

/-- Every response echoes the serial of its request. -/
theorem messageSerial_processReq (h : Heap) (req : Request) :
    (h.processReq req).1.messageSerial = req.messageSerial := by
  cases req with
  | get req => exact serial_processGet h req
  | put req => exact serial_processPut h req
  | cas req => exact serial_processCas h req
  | remove req => exact serial_processRemove h req

/-- Every response is of its request's `response_type`. -/
theorem kind_processReq (h : Heap) (req : Request) :
    (h.processReq req).1.kind = some req.kind := by
  cases req <;> rfl

end Heap

/-! ## Runs -/

/-- A call on a database: a request, or the direct `put` or `remove`. -/
inductive Op
  | request (req : Request)
  | put (key value : Str)
  | remove (key : Str)
  deriving DecidableEq, Repr

namespace Heap

/-- The heap after a call. -/
def perform (h : Heap) : Op → Heap
  | .request req => (h.processReq req).2
  | .put key value => h.put key value
  | .remove key => (h.remove key).2

/-- The heap after a sequence of calls on a new database. -/
def run (ops : List Op) : Heap := ops.foldl perform {}

/-- The key that a call modifies successfully, if it does: what the response's error code says of a
request, and the result of a direct call. -/
def modifies (h : Heap) : Op → Option Str
  | .request (.get _) => none
  | .request (.put req) => if (h.processPut req).1.errcode = .ok then some req.key else none
  | .request (.cas req) => if (h.processCas req).1.errcode = .ok then some req.key else none
  | .request (.remove req) => if (h.processRemove req).1.errcode = .ok then some req.key else none
  | .put key _ => some key
  | .remove key => if (h.remove key).1 then some key else none

/-- The version number that a call consumes: the version of the entry it writes, or the
`remove_version` of the removal it logs. -/
def consumes (h : Heap) : Op → Option ℤ
  | .request (.get _) => none
  | .request (.put req) =>
    let (resp, _) := h.processPut req
    if resp.errcode = .ok then some resp.version else none
  | .request (.cas req) =>
    let (resp, _) := h.processCas req
    if resp.errcode = .ok then some resp.version else none
  | .request (.remove req) =>
    let (resp, h) := h.processRemove req
    if resp.errcode = .ok then h.self.recentRemoves.head?.map (·.removeVersion) else none
  | .put key value => ((h.put key value).self.db[key]?).map (·.version)
  | .remove key =>
    let (removed, h) := h.remove key
    if removed then h.self.recentRemoves.head?.map (·.removeVersion) else none

/-- The number of successful modifications in a sequence of calls. -/
def modifications (h : Heap) : List Op → ℕ
  | [] => 0
  | op :: ops => (if (h.modifies op).isSome then 1 else 0) + (h.perform op).modifications ops

end Heap

end Traxos
