import Mathlib.Algebra.Group.Int.Defs
import Mathlib.Algebra.Group.Nat.Defs
import Mathlib.Data.Int.Notation
import Mathlib.Data.Nat.Notation

/-! # Messages between clients and a Pancy service
The request and response types of `pancy_msgs.hh`. Every request carries the `serial` of its
`request_base`, every response the `serial` and `errcode` of its `response_base`; the two variants
`request` and `response` are the inductive types `Request` and `Response`. A `std::string` is the
list of its characters (`Str`), a 64-bit serial a natural number, a `version_type` an integer;
actual data have positive versions. -/

namespace Traxos

/-- A `std::string`: the list of its characters, compared by character code. -/
abbrev Str : Type := List Char

/-- The version that represents absent keys. -/
def nonexistentVersion : ℤ := 0

/-- Used in a request's `versionMatch` to match any version. -/
def anyVersion : ℤ := -1

@[simp] theorem nonexistentVersion_eq : nonexistentVersion = 0 := rfl

@[simp] theorem anyVersion_eq : anyVersion = -1 := rfl

/-- Error codes. -/
inductive Errc
  | ok
  | notFound
  | noMatch
  | redirect
  deriving DecidableEq, Repr

/-- The header of every request. -/
structure RequestBase where
  /-- Distinguishes messages; the low bits are the client's id. -/
  serial : ℕ
  deriving DecidableEq, Repr

/-- The header of every response. -/
structure ResponseBase where
  /-- The serial of the request that is answered. -/
  serial : ℕ
  /-- Whether there was an error. -/
  errcode : Errc
  deriving DecidableEq, Repr

/-- Special response: the client should redirect to a new leader. -/
structure RedirectionResponse extends ResponseBase where
  /-- Replica index of the leader. -/
  redirection : ℕ
  deriving DecidableEq, Repr

/-- Get the value for a key. -/
structure GetRequest extends RequestBase where
  key : Str
  deriving DecidableEq, Repr

/-- The answer to a `GetRequest`. -/
structure GetResponse extends ResponseBase where
  value : Str
  version : ℤ
  deriving DecidableEq, Repr

/-- Put a value at a key. -/
structure PutRequest extends RequestBase where
  key : Str
  value : Str
  versionMatch : ℤ := anyVersion
  deriving DecidableEq, Repr

/-- The fields that the answers to the three modifying requests share. -/
structure ModResponse extends ResponseBase where
  /-- Actual value (only set if `noMatch`). -/
  actual : Str
  /-- Value version before the modification. -/
  previousVersion : ℤ
  /-- Value version after the modification. -/
  version : ℤ
  deriving DecidableEq, Repr

/-- The answer to a `PutRequest`. -/
structure PutResponse extends ModResponse
  deriving DecidableEq, Repr

/-- Compare-exchange operation. -/
structure CasRequest extends RequestBase where
  /-- Key to check. -/
  key : Str
  /-- Expected value (the empty string matches absent). -/
  expected : Str
  /-- Desired new value. -/
  desired : Str
  versionMatch : ℤ := anyVersion
  deriving DecidableEq, Repr

/-- The answer to a `CasRequest`. -/
structure CasResponse extends ModResponse
  deriving DecidableEq, Repr

/-- Remove operation. -/
structure RemoveRequest extends RequestBase where
  key : Str
  versionMatch : ℤ := anyVersion
  deriving DecidableEq, Repr

/-- The answer to a `RemoveRequest`. -/
structure RemoveResponse extends ModResponse
  deriving DecidableEq, Repr

/-- The variant of all requests. -/
inductive Request
  | get (req : GetRequest)
  | put (req : PutRequest)
  | cas (req : CasRequest)
  | remove (req : RemoveRequest)
  deriving DecidableEq, Repr

/-- The variant of all responses. -/
inductive Response
  | redirection (resp : RedirectionResponse)
  | get (resp : GetResponse)
  | put (resp : PutResponse)
  | cas (resp : CasResponse)
  | remove (resp : RemoveResponse)
  deriving DecidableEq, Repr

/-- The request types, each with its `response_type`. -/
inductive Kind
  | get
  | put
  | cas
  | remove
  deriving DecidableEq, Repr

/-! ## Message introspection -/

/-- The `request_base` part of a request. -/
def Request.base : Request → RequestBase
  | .get req => req.toRequestBase
  | .put req => req.toRequestBase
  | .cas req => req.toRequestBase
  | .remove req => req.toRequestBase

/-- The `response_base` part of a response. -/
def Response.base : Response → ResponseBase
  | .redirection resp => resp.toResponseBase
  | .get resp => resp.toResponseBase
  | .put resp => resp.toResponseBase
  | .cas resp => resp.toResponseBase
  | .remove resp => resp.toResponseBase

/-- `message_serial` of a request. -/
def Request.messageSerial (m : Request) : ℕ := m.base.serial

/-- `message_serial` of a response. -/
def Response.messageSerial (m : Response) : ℕ := m.base.serial

/-- `response_errcode` of a response. -/
def responseErrcode (resp : Response) : Errc := resp.base.errcode

/-- The key a request is about. -/
def Request.key : Request → Str
  | .get req => req.key
  | .put req => req.key
  | .cas req => req.key
  | .remove req => req.key

/-- The type of a request. -/
def Request.kind : Request → Kind
  | .get _ => .get
  | .put _ => .put
  | .cas _ => .cas
  | .remove _ => .remove

/-- The request type a response is the `response_type` of; a redirection is none's. -/
def Response.kind : Response → Option Kind
  | .redirection _ => none
  | .get _ => some .get
  | .put _ => some .put
  | .cas _ => some .cas
  | .remove _ => some .remove

/-- `response_header`: a `response_base` suitable for responding to the given request. -/
def responseHeader (req : RequestBase) (errcode : Errc := .ok) : ResponseBase :=
  { serial := req.serial, errcode := errcode }

@[simp] theorem responseHeader_serial (req : RequestBase) (e : Errc) :
    (responseHeader req e).serial = req.serial := rfl

@[simp] theorem responseHeader_errcode (req : RequestBase) (e : Errc) :
    (responseHeader req e).errcode = e := rfl

@[simp] theorem Request.messageSerial_get (req : GetRequest) :
    (Request.get req).messageSerial = req.serial := rfl

@[simp] theorem Request.messageSerial_put (req : PutRequest) :
    (Request.put req).messageSerial = req.serial := rfl

@[simp] theorem Request.messageSerial_cas (req : CasRequest) :
    (Request.cas req).messageSerial = req.serial := rfl

@[simp] theorem Request.messageSerial_remove (req : RemoveRequest) :
    (Request.remove req).messageSerial = req.serial := rfl

@[simp] theorem Response.messageSerial_redirection (resp : RedirectionResponse) :
    (Response.redirection resp).messageSerial = resp.serial := rfl

@[simp] theorem Response.messageSerial_get (resp : GetResponse) :
    (Response.get resp).messageSerial = resp.serial := rfl

@[simp] theorem Response.messageSerial_put (resp : PutResponse) :
    (Response.put resp).messageSerial = resp.serial := rfl

@[simp] theorem Response.messageSerial_cas (resp : CasResponse) :
    (Response.cas resp).messageSerial = resp.serial := rfl

@[simp] theorem Response.messageSerial_remove (resp : RemoveResponse) :
    (Response.remove resp).messageSerial = resp.serial := rfl

end Traxos
