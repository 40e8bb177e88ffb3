import Traxos.Core.OrderedWalk
import Traxos.Pancy.Formatting

/-! # Printed databases

`pancydb::print` and `pancydb::print_near`. What `print` shows of a database are its keys, values and
versions, and they can be read back when no key has a blank or a line break in it and no value a line
break (`print_exact`). `print_near` shows a window of the entries around a key
(`print_near_window`). -/

namespace Traxos

/-! ## The source -/

namespace Pancydb

/-- `std::print(ios, "{} [V{}] {}\n", ...)`. -/
def printEntry (e : Str × Vv) : Str :=
  e.1 ++ " [V".toList ++ Bencode.encodeInt e.2.version ++ "] ".toList ++ e.2.value ++ "\n".toList

/-- `print`. -/
def print (db : Pancydb) : Str := db.db.toList.flatMap printEntry ++ "\n".toList

/-- The position of `db_.lower_bound(key)`: that of the first entry whose key is not less. -/
def lowerBound (entries : List (Str × Vv)) (key : Str) : ℕ :=
  (entries.takeWhile fun e => compare e.1 key == .lt).length

/-- At most `n` times `--it`, from the position `it`. -/
def stepBack : ℕ → ℕ → ℕ
  | 0, it => it
  | n + 1, it => if it ≠ 0 then stepBack n (it - 1) else it

/-- The line of an entry in `print_near`. -/
def nearEntry (key : Str) (e : Str × Vv) : Str :=
  " ".toList ++ (if e.1 = key then "*".toList else " ".toList) ++ " ".toList ++ printEntry e

/-- The loop of `print_near` that prints at most `n` entries: what it prints, and the entries that are
left. -/
def printRows (key : Str) : ℕ → List (Str × Vv) → Str × List (Str × Vv)
  | 0, rest => ([], rest)
  | _ + 1, [] => ([], [])
  | n + 1, e :: rest =>
    let (rows, rest) := printRows key n rest
    (nearEntry key e ++ rows, rest)

/-- The line that stands for entries that are not shown. -/
def ellipsis : Str := "   ...\n".toList

/-- `print_near`. -/
def printNear (db : Pancydb) (key : Str) : Str :=
  let entries := db.db.toList
  let it := stepBack 5 (lowerBound entries key)
  let (rows, rest) := printRows key 11 (entries.drop it)
  (if it ≠ 0 then ellipsis else []) ++ rows ++ (if rest ≠ [] then ellipsis else [])

end Pancydb

/-! ## Reading a printed database -/

/-- A key without blanks and line breaks, and a value without line breaks. -/
def PrintableEntry (e : Str × Vv) : Prop := ' ' ∉ e.1 ∧ '\n' ∉ e.1 ∧ '\n' ∉ e.2.value

/-- All entries are printable. -/
def Pancydb.Printable (db : Pancydb) : Prop := ∀ e ∈ db.db.toList, PrintableEntry e

/-- The line of an entry, cut where it is read. -/
theorem printEntry_eq (e : Str × Vv) : Pancydb.printEntry e =
    (e.1 ++ [' ']) ++ ("[V".toList ++ ((Bencode.encodeInt e.2.version ++ [']']) ++
      (" ".toList ++ (e.2.value ++ ['\n'])))) := by
  have hversion : " [V".toList = [' '] ++ "[V".toList := by decide
  have hvalue : "] ".toList = [']'] ++ " ".toList := by decide
  have hend : "\n".toList = ['\n'] := by decide
  unfold Pancydb.printEntry
  simp only [hversion, hvalue, hend, List.append_assoc]

theorem readable_printEntry : ReadableOn PrintableEntry Pancydb.printEntry fun e => e := by
  have hvalue : ReadableOn PrintableEntry (fun e => " ".toList ++ (e.2.value ++ ['\n']))
      fun e => e.2.value := (readable_str fun _ he => he.2.2).literal " ".toList
  have hversion : ReadableOn PrintableEntry (fun e => Bencode.encodeInt e.2.version ++ [']'])
      fun e => e.2.version := readable_int _ (by decide) (by decide)
  have hkey : ReadableOn PrintableEntry (fun e => e.1 ++ [' ']) fun e => e.1 :=
    readable_str fun _ he => he.1
  rw [show Pancydb.printEntry = _ from funext printEntry_eq]
  refine (hkey.append ((hversion.append hvalue).literal "[V".toList)).view ?_
  rintro ⟨k, v⟩ ⟨k', v'⟩ - - h
  simp only [Prod.mk.injEq] at h
  obtain ⟨rfl, hversion, hvalue⟩ := h
  cases v
  cases v'
  obtain rfl := hversion
  obtain rfl := hvalue
  rfl

/-- No entry looks like the empty line at the end. -/
theorem printEntry_start (e : Str × Vv) (he : PrintableEntry e) :
    ∃ x t, Pancydb.printEntry e = x :: t ∧ x ≠ '\n' := by
  rw [printEntry_eq]
  cases hk : e.1 with
  | nil => exact ⟨' ', _, rfl, by decide⟩
  | cons x k =>
    refine ⟨x, _, rfl, ?_⟩
    rintro rfl
    exact he.2.1 (hk ▸ List.mem_cons_self)

/-- **A printed database can be read back**: two databases without blanks or line breaks in their keys
and without line breaks in their values print the same exactly if they have the same keys, values and
versions. -/
theorem print_exact (db db' : Pancydb) (h : db.Printable) (h' : db'.Printable) :
    db.print = db'.print ↔ db.db = db'.db := by
  have hend : "\n".toList = '\n' :: [] := by decide
  constructor
  · intro hprint
    unfold Pancydb.print at hprint
    rw [hend] at hprint
    obtain ⟨hlist, -⟩ := readable_printEntry.list_of_sentinel printEntry_start h h' hprint
    rw [List.map_id', List.map_id'] at hlist
    exact Std.ExtTreeMap.toList_inj.mp hlist
  · intro hdb
    unfold Pancydb.print
    rw [hdb]

/-! ## The window around a key -/

/-- What `print_near` shows of a database: up to 11 consecutive entries around a key, with a line for
the entries before the window and one for those behind it. -/
structure NearWindow (db : Pancydb) (key : Str) (omitted window rest : List (Str × Vv)) : Prop where
  entries_eq : db.db.toList = omitted ++ window ++ rest
  printed : db.printNear key = (if omitted ≠ [] then Pancydb.ellipsis else []) ++
    window.flatMap (Pancydb.nearEntry key) ++ (if rest ≠ [] then Pancydb.ellipsis else [])
  length_le : window.length ≤ 11
  /-- Of the smaller keys the window has the last 5, or all when there are fewer. -/
  before : (window.countP fun e => compare e.1 key == .lt) =
    min 5 (db.db.toList.countP fun e => compare e.1 key == .lt)
  lt_key : ∀ e ∈ omitted, compare e.1 key = .lt
  /-- The entries behind the window have larger keys, and the window has no room for them. -/
  after : rest ≠ [] → window.length = 11
  key_lt : ∀ e ∈ rest, compare key e.1 = .lt

section NearWindow

variable {db : Pancydb} {key : Str} {omitted window rest : List (Str × Vv)}

/-- All that is left out before the window is of smaller keys. -/
theorem NearWindow.length_omitted (h : NearWindow db key omitted window rest) :
    omitted.length = (db.db.toList.countP fun e => compare e.1 key == .lt) - 5 := by
  have homitted : (omitted.countP fun e => compare e.1 key == .lt) = omitted.length :=
    List.countP_eq_length.mpr fun e he => by rw [h.lt_key e he]; rfl
  have hrest : (rest.countP fun e => compare e.1 key == .lt) = 0 := by
    refine List.countP_eq_zero.mpr fun e he => ?_
    rw [Std.OrientedOrd.eq_swap, h.key_lt e he]
    decide
  have hbefore := h.before
  rw [h.entries_eq, List.countP_append, List.countP_append, homitted, hrest] at hbefore ⊢
  omega

/-- The window is full unless it reaches to the end. -/
theorem NearWindow.length_rest (h : NearWindow db key omitted window rest) :
    rest.length = db.db.toList.length - omitted.length - 11 := by
  have hlength := congrArg List.length h.entries_eq
  rw [List.length_append, List.length_append] at hlength
  have hle := h.length_le
  rcases eq_or_ne rest [] with rfl | hrest
  · rw [List.length_nil] at hlength ⊢
    omega
  · have hfull := h.after hrest
    omega

end NearWindow

theorem stepBack_eq (n it : ℕ) : Pancydb.stepBack n it = it - n := by
  induction n generalizing it with
  | zero => rfl
  | succ n ih =>
    unfold Pancydb.stepBack
    split
    · rw [ih]
      omega
    · omega

theorem printRows_eq (key : Str) (n : ℕ) (l : List (Str × Vv)) :
    Pancydb.printRows key n l = ((l.take n).flatMap (Pancydb.nearEntry key), l.drop n) := by
  induction n generalizing l with
  | zero => rfl
  | succ n ih =>
    cases l with
    | nil => rfl
    | cons e l =>
      unfold Pancydb.printRows
      rw [ih, List.take_succ_cons, List.drop_succ_cons, List.flatMap_cons]

theorem exists_nearWindow (db : Pancydb) (key : Str) :
    ∃ omitted window rest, NearWindow db key omitted window rest := by
  have hsorted : Increasing db.db.toList := Std.ExtTreeMap.ordered_keys_toList
  -- the entries before the lower bound of the key, and those from there on
  obtain ⟨smaller, hsmaller⟩ :
      ∃ l, l = db.db.toList.takeWhile fun e => compare e.1 key == .lt := ⟨_, rfl⟩
  obtain ⟨others, hothers⟩ :
      ∃ l, l = db.db.toList.dropWhile fun e => compare e.1 key == .lt := ⟨_, rfl⟩
  have hentries : db.db.toList = smaller ++ others := by
    rw [hsmaller, hothers, List.takeWhile_append_dropWhile]
  have hlt : ∀ e ∈ smaller, compare e.1 key = .lt := by
    intro e he
    rw [hsmaller] at he
    simpa using List.mem_takeWhile_imp he
  have hnot : ∀ e ∈ others, compare e.1 key ≠ .lt := by
    rw [hothers]
    exact hsorted.not_lt_of_mem_dropWhile
  obtain ⟨it, hit⟩ : ∃ n, n = smaller.length - 5 := ⟨_, rfl⟩
  obtain ⟨shown, hshown⟩ : ∃ l, l = smaller.drop it := ⟨_, rfl⟩
  have hlength : shown.length = smaller.length - it := hshown ▸ List.length_drop
  have hdrop : db.db.toList.drop it = shown ++ others := by
    rw [hentries, hshown, List.drop_append_of_le_length (by omega)]
  have homitted : smaller.take it = [] ↔ it = 0 := by
    rw [List.take_eq_nil_iff, ← List.length_eq_zero_iff]
    omega
  refine ⟨smaller.take it, (shown ++ others).take 11, (shown ++ others).drop 11, ?_⟩
  constructor
  case entries_eq =>
    rw [List.append_assoc, List.take_append_drop, hentries, hshown, ← List.append_assoc,
      List.take_append_drop]
  case printed =>
    have hbound : Pancydb.lowerBound db.db.toList key = smaller.length := by
      rw [hsmaller]
      rfl
    unfold Pancydb.printNear
    simp only [hbound, stepBack_eq, ← hit, hdrop, printRows_eq, ne_eq, homitted]
  case length_le => exact List.length_take_le 11 _
  case before =>
    have hsmall : ∀ {l : List (Str × Vv)}, (∀ e ∈ l, e ∈ smaller) →
        (l.countP fun e => compare e.1 key == .lt) = l.length := fun hl =>
      List.countP_eq_length.mpr fun e he => by simpa using hlt e (hl e he)
    have hlarge : ∀ {l : List (Str × Vv)}, (∀ e ∈ l, e ∈ others) →
        (l.countP fun e => compare e.1 key == .lt) = 0 := fun hl =>
      List.countP_eq_zero.mpr fun e he hek => hnot e (hl e he) (by simpa using hek)
    rw [hentries, List.take_append, List.countP_append, List.countP_append,
      List.take_of_length_le (by omega), hsmall fun e he => he, hlarge fun e he => he,
      hsmall fun e he => List.mem_of_mem_drop (hshown ▸ he),
      hlarge fun e he => List.mem_of_mem_take he]
    omega
  case lt_key => exact fun e he => hlt e (List.mem_of_mem_take he)
  case after =>
    intro hne
    have hmore : 11 < (shown ++ others).length := by
      simpa [List.drop_eq_nil_iff] using hne
    rw [List.length_take]
    omega
  case key_lt =>
    -- the window goes beyond the lower bound, so it has the first key that is not smaller
    rw [List.drop_append, List.drop_of_length_le (by omega), List.nil_append, hothers]
    exact hsorted.lt_of_mem_drop_dropWhile (by omega)

/-- The window has the entry of the key, if there is one, and no other one with that key. -/
theorem NearWindow.exists_split {db : Pancydb} {key : Str} {omitted window rest : List (Str × Vv)}
    (h : NearWindow db key omitted window rest) {v : Vv} (hv : db.db[key]? = some v) :
    ∃ before after, window = before ++ (key, v) :: after ∧
      (∀ e ∈ before, e.1 ≠ key) ∧ ∀ e ∈ after, e.1 ≠ key := by
  have hmem : (key, v) ∈ db.db.toList := Std.ExtTreeMap.mem_toList_iff_getElem?_eq_some.mpr hv
  have hwindow : (key, v) ∈ window := by
    rw [h.entries_eq] at hmem
    rcases List.mem_append.mp hmem with hmem | hmem
    · rcases List.mem_append.mp hmem with hmem | hmem
      · exact absurd (h.lt_key _ hmem) (compare_self_ne_lt key)
      · exact hmem
    · exact absurd (h.key_lt _ hmem) (compare_self_ne_lt key)
  obtain ⟨before, after, rfl⟩ := List.append_of_mem hwindow
  -- the keys around it are smaller and larger
  have hsorted : Increasing db.db.toList := Std.ExtTreeMap.ordered_keys_toList
  have hpairs : Increasing (before ++ (key, v) :: after) := by
    refine hsorted.sublist ?_
    rw [h.entries_eq, List.append_assoc]
    exact (List.sublist_append_left _ _).trans (List.sublist_append_right _ _)
  obtain ⟨-, hafter, hbefore⟩ := List.pairwise_append.mp hpairs
  refine ⟨before, after, rfl, fun e he heq => ?_, fun e he heq => ?_⟩
  · have hlt := hbefore e he _ List.mem_cons_self
    rw [heq] at hlt
    exact compare_self_ne_lt key hlt
  · have hlt := (List.pairwise_cons.mp hafter).1 e he
    rw [heq] at hlt
    exact compare_self_ne_lt key hlt

end Traxos
