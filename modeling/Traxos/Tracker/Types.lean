import Mathlib.Data.List.Basic
import Std.Data.ExtTreeMap
import Traxos.Pancy.Messages

/-! # What the tracker knows

The types of `tracker/types.hh`. An `info_hash` or a `peer_id` is an array of 20 `char`s (`Id20`),
ordered as `std::array<char, 20>` is: lexicographically, by `char`s that are signed. The fields of
an announce request and of a peer have the fixed-width types of the source. -/

namespace Traxos

namespace Tracker

/-- The value of a `char`, which is a signed byte. -/
def signedChar (ch : Char) : ℤ :=
  if 128 ≤ ch.toNat ∧ ch.toNat < 256 then ch.toNat - 256 else ch.toNat

theorem signedChar_injective : Function.Injective signedChar := by
  intro a b h
  have hnat : a.toNat = b.toNat := by
    rw [signedChar, signedChar] at h
    split at h <;> split at h <;> omega
  exact Char.toNat_inj.mp hnat

/-- `std::array<char, 20>`. -/
@[ext] structure Id20 where
  chars : Str
  length_eq : chars.length = 20
  deriving DecidableEq, Repr

namespace Id20

/-- The array of zero bytes. -/
def zero : Id20 := ⟨List.replicate 20 '\x00', by simp⟩

/-- What the order of arrays looks at. -/
def key (a : Id20) : List ℤ := a.chars.map signedChar

theorem key_injective : Function.Injective key := by
  intro a b h
  exact Id20.ext (List.map_injective_iff.mpr signedChar_injective h)

instance : Ord Id20 := ⟨compareOn key⟩

instance : Std.TransOrd Id20 := inferInstanceAs (Std.TransCmp (compareOn key))

instance : Std.LawfulEqOrd Id20 where
  eq_of_compare {a b} h := by
    have hkey : compare a.key b.key = .eq := h
    exact key_injective (Std.LawfulEqCmp.eq_of_compare hkey)

end Id20

/-- `bt_info_hash`. -/
abbrev InfoHash : Type := Id20

/-- `bt_peer_id`. -/
abbrev PeerId : Type := Id20

/-- `bt_event`. -/
inductive BtEvent
  | started
  | stopped
  | completed
  deriving DecidableEq, Repr

/-- `bt_tracker_announce_request`. The defaults are those of value initialization: zero where the
source has no initializer, and `started` is the event with value zero. -/
structure AnnounceRequest where
  infoHash : InfoHash := .zero
  peerId : PeerId := .zero
  ip : UInt32 := 0
  port : UInt16 := 0
  uploaded : UInt64 := 0
  downloaded : UInt64 := 0
  left : UInt64 := 0
  event : BtEvent := .started
  numwant : Int32 := 50
  deriving DecidableEq

/-- `bt_peer`. -/
structure Peer where
  peerId : PeerId
  ip : UInt32 := 0
  port : UInt16 := 0
  uploaded : UInt64 := 0
  downloaded : UInt64 := 0
  left : UInt64 := 0
  complete : Bool := false
  deriving DecidableEq

/-- The peers of a torrent. -/
abbrev Peers : Type := Std.ExtTreeMap PeerId Peer

/-- `bt_tracker_state`. -/
structure TrackerState where
  torrents : Std.ExtTreeMap InfoHash Peers := ∅

end Tracker

end Traxos
