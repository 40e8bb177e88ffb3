import Traxos.Core.Readable
import Traxos.Tracker.Response

/-! # The debug page

`tracker_debug_response` prints the state of the tracker for people. The page can be read back: it
shows the torrents in order, and of each their peers with their addresses, ports, what is left and
whether they are complete, and nothing else (`debug_page_exact`). -/

namespace Traxos

namespace Tracker

/-! ## What is shown -/

/-- The bytes of an id, as `static_cast<unsigned char>` makes them. -/
def Id20.bytes (a : Id20) : List ℕ := a.chars.map fun byte => byte.toNat % 256

/-- What a line of the page shows of a peer. -/
structure ShownPeer where
  peerId : List ℕ
  ip : UInt32
  port : UInt16
  left : UInt64
  complete : Bool
  deriving DecidableEq

/-- What the page shows of a record. -/
def shownPeer (row : PeerId × Peer) : ShownPeer where
  peerId := row.1.bytes
  ip := row.2.ip
  port := row.2.port
  left := row.2.left
  complete := row.2.complete

/-- What the page shows of a torrent: its `info_hash` and its peers. -/
def shownTorrent (row : InfoHash × Peers) : List ℕ × List ShownPeer :=
  (row.1.bytes, row.2.toList.map shownPeer)

/-- What the page shows of a state. -/
def TrackerState.shown (state : TrackerState) : List (List ℕ × List ShownPeer) :=
  state.torrents.toList.map shownTorrent

/-! ## Its parts -/

theorem hexDigit_inj {m n : ℕ} (hm : m < 16) (hn : n < 16) (h : hexDigit m = hexDigit n) :
    m = n := by
  have hall : ∀ m < 16, ∀ n < 16, hexDigit m = hexDigit n → m = n := by decide
  exact hall m hm n hn h

theorem hexDigit_ne {n : ℕ} (hn : n < 16) : hexDigit n ≠ ' ' ∧ hexDigit n ≠ '\n' := by
  have hall : ∀ n < 16, hexDigit n ≠ ' ' ∧ hexDigit n ≠ '\n' := by decide
  exact hall n hn

/-- The two digits of a byte. -/
theorem readable_byte : ReadableOn (fun _ : Char => True)
    (fun byte => [hexDigit (byte.toNat % 256 / 16), hexDigit (byte.toNat % 256 % 16)])
    fun byte => byte.toNat % 256 := by
  intro a b _ _ r r' heq
  obtain ⟨hhigh, hrest⟩ := List.cons.inj heq
  obtain ⟨hlow, hr⟩ := List.cons.inj hrest
  have hhigh := hexDigit_inj (by omega) (by omega) hhigh
  have hlow := hexDigit_inj (by omega) (by omega) hlow
  refine ⟨?_, hr⟩
  show a.toNat % 256 = b.toNat % 256
  omega

theorem bytes_eq_of_hexBytes {a b : Id20} (h : hexBytes a = hexBytes b) : a.bytes = b.bytes :=
  (readable_byte.list_of_length (fun _ _ => trivial) (fun _ _ => trivial)
    (a.length_eq.trans b.length_eq.symm) (congrArg (· ++ []) h)).1

theorem not_mem_hexBytes {ch : Char} (hch : ch = ' ' ∨ ch = '\n') (a : Id20) : ch ∉ hexBytes a := by
  intro hmem
  obtain ⟨byte, -, hbyte⟩ := List.mem_flatMap.mp hmem
  have hhigh := hexDigit_ne (n := byte.toNat % 256 / 16) (by omega)
  have hlow := hexDigit_ne (n := byte.toNat % 256 % 16) (by omega)
  rcases List.mem_cons.mp hbyte with heq | hbyte
  · rcases hch with rfl | rfl
    · exact hhigh.1 heq.symm
    · exact hhigh.2 heq.symm
  · have heq := List.mem_singleton.mp hbyte
    rcases hch with rfl | rfl
    · exact hlow.1 heq.symm
    · exact hlow.2 heq.symm

theorem not_mem_formatNat {ch : Char} (hch : ch.isDigit = false) (n : ℕ) : ch ∉ formatNat n := by
  intro hmem
  have hdigit : ch.isDigit = true := Nat.isDigit_of_mem_toDigits (by decide) (by decide) hmem
  rw [hch] at hdigit
  cases hdigit

theorem not_mem_formatIpv4 {ch : Char} (hch : ch.isDigit = false) (hdot : ch ≠ '.')
    (ip : UInt32) : ch ∉ formatIpv4 ip := by
  simp only [formatIpv4, List.mem_append, List.mem_cons, not_or]
  exact ⟨⟨⟨not_mem_formatNat hch _, hdot, not_mem_formatNat hch _⟩, hdot,
    not_mem_formatNat hch _⟩, hdot, not_mem_formatNat hch _⟩

theorem formatNat_injective : Function.Injective formatNat := by
  intro a b h
  have hvalue := congrArg (fun ds => Nat.ofDigitChars 10 ds 0) h
  simpa only [formatNat, Nat.ofDigitChars_ten_toDigits] using hvalue

theorem formatIpv4_injective : Function.Injective formatIpv4 := by
  intro a b h
  have hparse := congrArg parseIpv4 h
  rw [parseIpv4_formatIpv4, parseIpv4_formatIpv4] at hparse
  exact Option.some.inj hparse

section Lines

variable {α : Type} {p : α → Prop}

/-- A number before a character that is no digit. -/
theorem readable_formatNat (n : α → ℕ) {ch : Char} (hch : ch.isDigit = false) :
    ReadableOn p (fun a => formatNat (n a) ++ [ch]) n :=
  .terminated (fun a _ => not_mem_formatNat hch (n a)) fun _ _ _ _ h => formatNat_injective h

theorem readable_hexBytes (id : α → Id20) :
    ReadableOn p (fun a => hexBytes (id a) ++ [' ']) fun a => (id a).bytes :=
  .terminated (fun a _ => not_mem_hexBytes (.inl rfl) (id a)) fun _ _ _ _ h =>
    bytes_eq_of_hexBytes h

theorem readable_formatIpv4 (ip : α → UInt32) :
    ReadableOn p (fun a => formatIpv4 (ip a) ++ [' ']) ip :=
  .terminated (fun a _ => not_mem_formatIpv4 (by decide) (by decide) (ip a)) fun _ _ _ _ h =>
    formatIpv4_injective h

theorem readable_complete (complete : α → Bool) : ReadableOn p
    (fun a => (if complete a then "yes".toList else "no".toList) ++ ['\n']) complete := by
  refine .terminated (fun a _ => ?_) fun a b _ _ h => ?_
  · cases complete a <;> decide
  · revert h
    cases complete a <;> cases complete b <;> decide

end Lines

/-! ## Lines, torrents and the page -/

/-- The line of a peer, cut where it is read. -/
theorem debugPeer_eq (row : PeerId × Peer) : debugPeer row =
    "  peer_id ".toList ++ ((hexBytes row.1 ++ [' ']) ++ ("ip ".toList ++
      ((formatIpv4 row.2.ip ++ [' ']) ++ ("port ".toList ++
        ((formatNat row.2.port.toNat ++ [' ']) ++ ("left ".toList ++
          ((formatNat row.2.left.toNat ++ [' ']) ++ ("complete ".toList ++
            ((if row.2.complete then "yes".toList else "no".toList) ++ ['\n']))))))))) := by
  have hip : " ip ".toList = [' '] ++ "ip ".toList := by decide
  have hport : " port ".toList = [' '] ++ "port ".toList := by decide
  have hleft : " left ".toList = [' '] ++ "left ".toList := by decide
  have hcomplete : " complete ".toList = [' '] ++ "complete ".toList := by decide
  have hend : "\n".toList = ['\n'] := by decide
  unfold debugPeer
  simp only [hip, hport, hleft, hcomplete, hend, List.append_assoc]

theorem readable_debugPeer : ReadableOn (fun _ : PeerId × Peer => True) debugPeer shownPeer := by
  -- from the end of the line to its start
  have hleft : ReadableOn (fun _ : PeerId × Peer => True) (fun row => "left ".toList ++
      ((formatNat row.2.left.toNat ++ [' ']) ++ ("complete ".toList ++
        ((if row.2.complete then "yes".toList else "no".toList) ++ ['\n']))))
      fun row => (row.2.left.toNat, row.2.complete) :=
    ((readable_formatNat _ (by decide)).append
      ((readable_complete _).literal "complete ".toList)).literal "left ".toList
  have hport := ((readable_formatNat (fun row : PeerId × Peer => row.2.port.toNat)
    (by decide : ' '.isDigit = false)).append hleft).literal "port ".toList
  have hip := ((readable_formatIpv4 fun row : PeerId × Peer => row.2.ip).append hport).literal
    "ip ".toList
  have hline := ((readable_hexBytes (Prod.fst : PeerId × Peer → Id20)).append hip).literal
    "  peer_id ".toList
  rw [show debugPeer = _ from funext debugPeer_eq]
  refine hline.view fun a b _ _ h => ?_
  simp only [Prod.mk.injEq, UInt16.toNat_inj, UInt64.toNat_inj] at h
  obtain ⟨hid, hip, hport, hleft, hcomplete⟩ := h
  simp only [shownPeer, hid, hip, hport, hleft, hcomplete]

/-- The lines of a torrent, cut where they are read. -/
theorem debugTorrent_eq (row : InfoHash × Peers) : debugTorrent row =
    "info_hash ".toList ++ ((hexBytes row.1 ++ [' ']) ++ ("peers: ".toList ++
      ((formatNat row.2.toList.length ++ ['\n']) ++ row.2.toList.flatMap debugPeer))) := by
  have hpeers : " peers: ".toList = [' '] ++ "peers: ".toList := by decide
  have hend : "\n".toList = ['\n'] := by decide
  unfold debugTorrent
  simp only [hpeers, hend, Std.ExtTreeMap.length_toList, List.append_assoc]

theorem readable_debugTorrent :
    ReadableOn (fun _ : InfoHash × Peers => True) debugTorrent shownTorrent := by
  rw [show debugTorrent = _ from funext debugTorrent_eq]
  have hpeers : ReadableOn (fun l : List (PeerId × Peer) => ∀ row ∈ l, True)
      (fun l => (formatNat l.length ++ ['\n']) ++ l.flatMap debugPeer) fun l => l.map shownPeer :=
    .counted (readable_formatNat List.length (by decide)) readable_debugPeer
  have hrow := (hpeers.comp (q := fun _ : InfoHash × Peers => True)
    (k := fun row : InfoHash × Peers => row.2.toList) fun _ _ _ _ => trivial).literal
      "peers: ".toList
  exact ((readable_hexBytes (Prod.fst : InfoHash × Peers → Id20)).append hrow).literal
    "info_hash ".toList

/-! ### What is shown decides the text -/

theorem hexBytes_congr {a b : Id20} (h : a.bytes = b.bytes) : hexBytes a = hexBytes b :=
  flatMap_eq_of_map_eq (fun x y (hxy : x.toNat % 256 = y.toNat % 256) => by simp only [hxy]) h

theorem debugPeer_congr {row row' : PeerId × Peer} (h : shownPeer row = shownPeer row') :
    debugPeer row = debugPeer row' := by
  simp only [shownPeer, ShownPeer.mk.injEq] at h
  obtain ⟨hid, hip, hport, hleft, hcomplete⟩ := h
  rw [debugPeer_eq, debugPeer_eq, hexBytes_congr hid, hip, hport, hleft, hcomplete]

theorem debugTorrent_congr {row row' : InfoHash × Peers} (h : shownTorrent row = shownTorrent row') :
    debugTorrent row = debugTorrent row' := by
  obtain ⟨hid, hpeers⟩ := Prod.mk.inj h
  have hlength := congrArg List.length hpeers
  rw [List.length_map, List.length_map] at hlength
  rw [debugTorrent_eq, debugTorrent_eq, hexBytes_congr hid, hlength,
    flatMap_eq_of_map_eq (fun _ _ => debugPeer_congr) hpeers]

/-- **The debug page shows exactly** the torrents, and of their peers the ids, addresses, ports, what
is left and whether they are complete: two states have the same page if and only if these are the
same. -/
theorem debug_page_exact (state state' : TrackerState) :
    trackerDebugResponse state = trackerDebugResponse state' ↔ state.shown = state'.shown := by
  have hpage : ReadableOn (fun l : List (InfoHash × Peers) => ∀ row ∈ l, True)
      (fun l => (formatNat l.length ++ ['\n']) ++ l.flatMap debugTorrent)
      fun l => l.map shownTorrent :=
    .counted (readable_formatNat List.length (by decide)) readable_debugTorrent
  have heq : ∀ state : TrackerState, trackerDebugResponse state = "torrents: ".toList ++
      ((formatNat state.torrents.toList.length ++ ['\n']) ++
        state.torrents.toList.flatMap debugTorrent) := by
    intro state
    have hend : "\n".toList = ['\n'] := by decide
    unfold trackerDebugResponse
    simp only [hend, Std.ExtTreeMap.length_toList, List.append_assoc]
  rw [heq, heq]
  constructor
  · intro h
    exact (hpage.literal "torrents: ".toList).eq (fun _ _ => trivial) (fun _ _ => trivial) h
  · intro h
    have hlength := congrArg List.length h
    simp only [TrackerState.shown, List.length_map] at hlength
    rw [hlength, flatMap_eq_of_map_eq (fun _ _ => debugTorrent_congr) h]

end Tracker

end Traxos
