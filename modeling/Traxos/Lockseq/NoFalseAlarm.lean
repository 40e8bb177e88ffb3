import Traxos.Lockseq.Check
import Traxos.Lockseq.Sequences

/-! # No false alarms

The checker accepts the leader's database in every state of every run in which no removal of a clear
phase fails `2 ^ 32` times (`no_false_alarm`). The invariant of all clients says what the values of
a group are, with its lock free or taken; `block_of_values` turns that into one of the two forms of
`Block`, and the order of the keys into the order in which the checker meets them. -/

namespace Traxos

namespace Lockseq

/-! ## The order of the keys of a group -/

section Order

variable {gid i j : ℕ}

theorem compare_lockKey_valueKey (gid i : ℕ) :
    compare (makeLockKey gid) (makeValueKey gid i) = .lt := by
  rw [makeLockKey_eq, makeValueKey_eq, compare_append_left]
  rfl

theorem compare_valueKey (hij : i < j) (hj : j < 1000) :
    compare (makeValueKey gid i) (makeValueKey gid j) = .lt := by
  rw [makeValueKey_eq, makeValueKey_eq, compare_append_left, compare_cons_eq_lt]
  refine Or.inr ⟨rfl, ?_⟩
  refine compare_of_ofDigitChars_lt ?_ isDigit_of_mem_indexDigits isDigit_of_mem_indexDigits ?_
  · rw [length_indexDigits (by omega), length_indexDigits hj]
  · rwa [ofDigitChars_indexDigits, ofDigitChars_indexDigits]

theorem mem_valuesRun {x : Str} {b n : ℕ} {e : Str × Str} :
    e ∈ valuesRun gid x b n ↔ ∃ i, b ≤ i ∧ i < b + n ∧ e = (makeValueKey gid i, x) := by
  simp only [valuesRun, List.mem_map, List.mem_range'_1, and_assoc, eq_comm]

theorem increasing_valuesRun {x : Str} {b n : ℕ} (hn : b + n ≤ 1000) :
    Increasing (valuesRun gid x b n) := by
  rw [Increasing, valuesRun, List.pairwise_map]
  refine List.Pairwise.imp_of_mem ?_ List.pairwise_lt_range'
  intro i j _ hj hij
  have := (List.mem_range'_1.mp hj).2
  exact compare_valueKey hij (by omega)

/-- The entries of a group come in the order of its block. -/
theorem Block.increasing {l : List (Str × Str)} (h : Block gid l) : Increasing l := by
  cases h with
  | unlocked _ hn => exact increasing_valuesRun (by omega)
  | @locked x y a b n _ _ hab hn =>
    refine List.pairwise_cons.mpr ⟨fun e he => ?_, List.pairwise_append.mpr
      ⟨increasing_valuesRun (by omega), increasing_valuesRun hn, fun e he e' he' => ?_⟩⟩
    · -- the lock comes before all values
      rcases List.mem_append.mp he with he | he
      · obtain ⟨i, -, -, rfl⟩ := mem_valuesRun.mp he
        exact compare_lockKey_valueKey gid i
      · obtain ⟨i, -, -, rfl⟩ := mem_valuesRun.mp he
        exact compare_lockKey_valueKey gid i
    · -- the first run comes before the second
      obtain ⟨i, -, hi, rfl⟩ := mem_valuesRun.mp he
      obtain ⟨j, hj, hjn, rfl⟩ := mem_valuesRun.mp he'
      exact compare_valueKey (by omega) (by omega)

end Order

/-! ## The entries of a database -/

section Entries

variable {cfg : Config} {h : Heap} {m : Store} {gid : ℕ}

theorem mem_entries (r : h.Refines m) {k x : Str} :
    (k, x) ∈ entries h.self ↔ ∃ v, m.entry k = some ⟨x, v⟩ := by
  have hdb := r.db k
  rw [entries, List.mem_map]
  constructor
  · rintro ⟨⟨k', vv⟩, hmem, heq⟩
    obtain ⟨rfl, rfl⟩ := Prod.mk.inj heq
    rw [Std.ExtTreeMap.mem_toList_iff_getElem?_eq_some, hdb, Option.map_eq_some_iff] at hmem
    obtain ⟨e, he, rfl⟩ := hmem
    exact ⟨e.stamp, he⟩
  · rintro ⟨v, hv⟩
    refine ⟨(k, ⟨x, v⟩), ?_, rfl⟩
    rw [Std.ExtTreeMap.mem_toList_iff_getElem?_eq_some, hdb, hv]
    rfl

theorem exists_entry_valueKey (m : Store) (gid i : ℕ) (x : Str) :
    (∃ v, m.entry (makeValueKey gid i) = some ⟨x, v⟩) ↔ values m gid i = some x := by
  rw [values, Option.map_eq_some_iff]
  constructor
  · rintro ⟨v, hv⟩
    exact ⟨_, hv, rfl⟩
  · rintro ⟨e, he, rfl⟩
    exact ⟨e.stamp, he⟩

/-- The entries of a group are its lock, if it is taken, and its values. -/
theorem mem_groupEntries (r : h.Refines m) (hkeys : ∀ {k e}, m.entry k = some e → GroupKey cfg k)
    {k x : Str} : (k, x) ∈ groupEntries gid (entries h.self) ↔
      (k = makeLockKey gid ∧ ∃ v, m.entry (makeLockKey gid) = some ⟨x, v⟩) ∨
        ∃ i, k = makeValueKey gid i ∧ values m gid i = some x := by
  rw [groupEntries, List.mem_filter, mem_entries r]
  constructor
  · rintro ⟨⟨v, hv⟩, hprefix⟩
    have hkey := hkeys hv
    cases hkey with
    | lock =>
      rw [makeLockKey_eq] at hprefix
      obtain rfl := gid_eq_of_groupPrefix (List.isPrefixOf_iff_prefix.mp hprefix)
      exact Or.inl ⟨rfl, v, hv⟩
    | @value _ i =>
      rw [makeValueKey_eq] at hprefix
      obtain rfl := gid_eq_of_groupPrefix (List.isPrefixOf_iff_prefix.mp hprefix)
      exact Or.inr ⟨i, rfl, (exists_entry_valueKey m gid i x).mp ⟨v, hv⟩⟩
  · rintro (⟨rfl, hv⟩ | ⟨i, rfl, hvalue⟩)
    · refine ⟨hv, List.isPrefixOf_iff_prefix.mpr ?_⟩
      rw [makeLockKey_eq]
      exact List.prefix_append _ _
    · refine ⟨(exists_entry_valueKey m gid i x).mpr hvalue, List.isPrefixOf_iff_prefix.mpr ?_⟩
      rw [makeValueKey_eq]
      exact List.prefix_append _ _

/-- A free group with the values of a sequence is an unlocked block. -/
theorem block_of_free (r : h.Refines m) (hkeys : ∀ {k e}, m.entry k = some e → GroupKey cfg k)
    (hnone : m.entry (makeLockKey gid) = none) {x : Str} {n : ℕ}
    (hvalues : values m gid = sequence (some (x, n))) (hx : x ≠ []) (hn : n ≤ 1000) :
    Block gid (groupEntries gid (entries h.self)) := by
  have hblock : Block gid (valuesRun gid x 0 n) := .unlocked hx hn
  have heq : groupEntries gid (entries h.self) = valuesRun gid x 0 n := by
    refine Increasing.ext ((increasing_entries _).filter _) hblock.increasing ?_
    rintro ⟨k, y⟩
    rw [mem_groupEntries r hkeys, mem_valuesRun, hnone, hvalues]
    constructor
    · rintro (⟨-, v, hv⟩ | ⟨i, rfl, hi⟩)
      · cases hv
      · simp only [sequence, Option.ite_none_right_eq_some, Option.some.injEq] at hi
        exact ⟨i, Nat.zero_le _, by omega, by rw [hi.2]⟩
    · rintro ⟨i, -, hi, heq⟩
      obtain ⟨rfl, rfl⟩ := Prod.mk.inj heq
      exact Or.inr ⟨i, rfl, if_pos (by omega)⟩
  rw [heq]
  exact hblock

/-- A group whose lock is taken, with a run of its value and a run of another, is a locked block. -/
theorem block_of_runs (r : h.Refines m) (hkeys : ∀ {k e}, m.entry k = some e → GroupKey cfg k)
    {e : Stamped Str} (hlock : m.entry (makeLockKey gid) = some e)
    (he : 4 ≤ e.value.length ∧ e.value[0]? = some 'c') {y : Str} (hy : y ≠ []) {a b n : ℕ}
    (hab : a ≤ b) (hn : b + n ≤ 1000)
    (hvalues : ∀ i x, values m gid i = some x ↔
      i < a ∧ x = e.value ∨ b ≤ i ∧ i < b + n ∧ x = y) :
    Block gid (groupEntries gid (entries h.self)) := by
  have hblock : Block gid
      ((makeLockKey gid, e.value) :: (valuesRun gid e.value 0 a ++ valuesRun gid y b n)) :=
    .locked he hy hab hn
  have heq : groupEntries gid (entries h.self) =
      (makeLockKey gid, e.value) :: (valuesRun gid e.value 0 a ++ valuesRun gid y b n) := by
    refine Increasing.ext ((increasing_entries _).filter _) hblock.increasing ?_
    rintro ⟨k, x⟩
    rw [mem_groupEntries r hkeys, List.mem_cons, List.mem_append, mem_valuesRun, mem_valuesRun,
      hlock]
    constructor
    · rintro (⟨rfl, v, hv⟩ | ⟨i, rfl, hi⟩)
      · rw [Option.some.inj hv]
        exact Or.inl rfl
      · rcases (hvalues i x).mp hi with ⟨hia, rfl⟩ | ⟨hib, hin, rfl⟩
        · exact Or.inr (Or.inl ⟨i, Nat.zero_le _, by omega, rfl⟩)
        · exact Or.inr (Or.inr ⟨i, hib, hin, rfl⟩)
    · rintro (heq | ⟨i, -, hi, heq⟩ | ⟨i, hib, hin, heq⟩)
      · obtain ⟨rfl, rfl⟩ := Prod.mk.inj heq
        exact Or.inl ⟨rfl, e.stamp, rfl⟩
      · obtain ⟨rfl, rfl⟩ := Prod.mk.inj heq
        exact Or.inr ⟨i, rfl, (hvalues i _).mpr (Or.inl ⟨by omega, rfl⟩)⟩
      · obtain ⟨rfl, rfl⟩ := Prod.mk.inj heq
        exact Or.inr ⟨i, rfl, (hvalues i _).mpr (Or.inr ⟨hib, hin, rfl⟩)⟩
  rw [heq]
  exact hblock

end Entries

/-! ## What the clients leave -/

section Clients

variable {cfg : Config} {c : ℕ} {sh : Shared} {views : ℕ → View} {gid : ℕ}

/-- A value that names a client has the form that the checker wants of a lock's value. -/
theorem Named.lockValue {cl : Client} (h : Named c cl) :
    4 ≤ cl.value.length ∧ cl.value[0]? = some 'c' := by
  obtain ⟨x, hx⟩ := h
  rw [hx, clientKeyPrefix, makeClientKey]
  refine ⟨?_, rfl⟩
  have hhex : 7 ≤ (uniformHex7 x).length := by
    rw [uniformHex7, List.length_leftpad]
    omega
  simp only [List.cons_append, List.length_cons, List.length_append]
  omega

/-- In every phase the values of an owner's group are its own, up to some place, and those of an
earlier sequence from there on. -/
theorem Shape.exists_splice {cl : Client} (h : Shape sh cl) (hmode : cl.pc.mode ≠ .idle) :
    ∃ u b, values sh.store cl.gid = splice cl.sequence (sequence u) b ∧
      (u = none ∨ u = sh.lastUnlock cl.gid) := by
  have hseam : ∀ {ph}, ph = .write ∨ ph = .clear → cl.pc.mode = .busy ph →
      ∃ u b, values sh.store cl.gid = splice cl.sequence (sequence u) b ∧
        (u = none ∨ u = sh.lastUnlock cl.gid) := by
    intro ph hph hm
    rcases (shape_iff_of_seam hph hm).mp h with hvalues | hvalues
    · exact ⟨_, _, hvalues, Or.inr rfl⟩
    · exact ⟨_, _, hvalues, Or.inr rfl⟩
  cases hm : cl.pc.mode with
  | idle => exact absurd hm hmode
  | rest => exact ⟨_, _, (shape_iff_of_rest hm).mp h, Or.inr rfl⟩
  | busy ph =>
    cases ph with
    | lock =>
      refine ⟨sh.lastUnlock cl.gid, 0, ?_, Or.inr rfl⟩
      rw [splice_zero]
      exact (shape_iff_of_lock hm).mp h
    | write => exact hseam (Or.inl rfl) hm
    | clear => exact hseam (Or.inr rfl) hm
    | unlock =>
      -- the sequence is complete, and nothing is left of the old one
      refine ⟨none, cl.nvalues, ?_, Or.inl rfl⟩
      have hnew : splice cl.sequence (sequence none) cl.nvalues = cl.sequence :=
        splice_eq_new fun i hi => (Client.sequence_of_le hi).symm
      rw [hnew]
      exact (shape_iff_of_unlock hm).mp h

/-- A sequence is a number of times one value; no sequence is one of none. -/
theorem exists_sequence_eq (u : Option (Str × ℕ)) {bound : ℕ} {x₀ : Str} (hx₀ : x₀ ≠ [])
    (hu : ∀ {x n}, u = some (x, n) → n ≤ bound ∧ x ≠ []) :
    ∃ y k, y ≠ [] ∧ k ≤ bound ∧ ∀ i x, sequence u i = some x ↔ i < k ∧ x = y := by
  cases u with
  | none =>
    refine ⟨x₀, 0, hx₀, Nat.zero_le _, fun i x => ?_⟩
    simp [sequence]
  | some p =>
    obtain ⟨y, k⟩ := p
    obtain ⟨hk, hy⟩ := hu rfl
    refine ⟨y, k, hy, hk, fun i x => ?_⟩
    simp only [sequence, Option.ite_none_right_eq_some, Option.some.injEq]
    rw [eq_comm (a := x)]

/-- Such values are two runs. -/
theorem exists_runs_of_splice {cl : Client} {u : Option (Str × ℕ)} {bound : ℕ} (s : ℕ)
    (hcl : cl.value ≠ []) (hnvalues : cl.nvalues ≤ bound)
    (hu : ∀ {x n}, u = some (x, n) → n ≤ bound ∧ x ≠ []) :
    ∃ y a b n, y ≠ [] ∧ a ≤ b ∧ b + n ≤ bound ∧
      ∀ i x, splice cl.sequence (sequence u) s i = some x ↔
        i < a ∧ x = cl.value ∨ b ≤ i ∧ i < b + n ∧ x = y := by
  obtain ⟨y, k, hy, hk, hold⟩ := exists_sequence_eq u hcl hu
  have hown : ∀ i x, cl.sequence i = some x ↔ i < cl.nvalues ∧ x = cl.value := by
    intro i x
    simp only [Client.sequence, sequence, Option.ite_none_right_eq_some, Option.some.injEq]
    rw [eq_comm (a := x)]
  -- the first run ends at the seam or before, and what the old values have beyond it is the second
  refine ⟨y, min s cl.nvalues, max (min s cl.nvalues) (min s k), k - s, hy, Nat.le_max_left _ _,
    by omega, fun i x => ?_⟩
  rw [splice]
  split
  · rw [hown]
    constructor
    · rintro ⟨hi, rfl⟩
      exact Or.inl ⟨by omega, rfl⟩
    · rintro (⟨hi, rfl⟩ | ⟨hbi, hin, -⟩)
      · exact ⟨by omega, rfl⟩
      · omega
  · rw [hold]
    constructor
    · rintro ⟨hi, rfl⟩
      exact Or.inr ⟨by omega, by omega, rfl⟩
    · rintro (⟨hi, -⟩ | ⟨hbi, hin, rfl⟩)
      · omega
      · exact ⟨by omega, rfl⟩

/-- **The entries of a group** are a block, in every state in which the invariants hold. -/
theorem block_of_sequences {h : Heap} (r : h.Refines sh.store) (hlocking : Locking sh views)
    (hseq : Sequences cfg sh views) (hmax : cfg.maxSequenceLength ≤ 1000) (gid : ℕ) :
    groupEntries gid (entries h.self) = [] ∨ Block gid (groupEntries gid (entries h.self)) := by
  have hbound : max 1 cfg.maxSequenceLength ≤ 1000 := by omega
  cases hlock : sh.store.entry (makeLockKey gid) with
  | none =>
    -- a free lock: the values of the last sequence, if there was one
    have hvalues := hseq.free hlock
    cases hlast : sh.lastUnlock gid with
    | none =>
      refine Or.inl (List.eq_nil_iff_forall_not_mem.mpr ?_)
      rintro ⟨k, x⟩ hmem
      rw [mem_groupEntries r hseq.keys, hlock, hvalues, hlast] at hmem
      rcases hmem with ⟨-, v, hv⟩ | ⟨i, -, hi⟩
      · cases hv
      · cases hi
    | some p =>
      obtain ⟨x, n⟩ := p
      obtain ⟨hn, hx⟩ := hseq.last hlast
      rw [hlast] at hvalues
      exact Or.inr (block_of_free r hseq.keys hlock hvalues hx (Nat.le_trans hn hbound))
  | some e =>
    -- a lock that is taken has an owner, and its phase says which runs there are
    obtain ⟨c, hmode, rfl, hvalue⟩ := hlocking.owner hlock
    have hnamed := (hlocking.client c).named hmode
    have howns : Owns sh.store (views c).loc e.stamp := by
      rw [Owns, hvalue]
      exact hlock
    have hc := hseq.client c
    obtain ⟨u, s, hsplice, hu⟩ := (hc.shape howns).exists_splice hmode
    have hnvalues := (hc.inBounds.nvalues hmode).2
    obtain ⟨y, a, b, n, hy, hab, hn, hruns⟩ := exists_runs_of_splice (u := u) s hnamed.ne_nil
      hnvalues fun {x n} hx => by
        rcases hu with rfl | rfl
        · cases hx
        · exact hseq.last hx
    have hform := hnamed.lockValue
    rw [hvalue] at hform
    refine Or.inr (block_of_runs r hseq.keys hlock hform hy hab (Nat.le_trans hn hbound) ?_)
    intro i x
    rw [hsplice, hruns, hvalue]

/-- **What the invariants say about the database**: the checker accepts it. -/
theorem check_eq_none_of_sequences {h : Heap} (r : h.Refines sh.store) (hlocking : Locking sh views)
    (hseq : Sequences cfg sh views) (hngroups : 1 ≤ cfg.ngroups)
    (hmax : cfg.maxSequenceLength ≤ 1000) : check h.self = none := by
  have hlt := cfg.ngroups_lt
  -- the group numbers fit, so none of them reads as `unsigned(-1)`
  have hgid : ∀ {gid}, cfg.admitsGid gid → gid < 2 ^ 32 - 1 := by
    intro gid hadmits
    rw [Config.admitsGid] at hadmits
    omega
  have hgroup : ∀ e ∈ entries h.self, ∃ gid, gid < 2 ^ 32 - 1 ∧ groupPrefix gid <+: e.1 := by
    rintro ⟨k, x⟩ he
    obtain ⟨v, hv⟩ := (mem_entries r).mp he
    cases hseq.keys hv with
    | lock hadmits =>
      refine ⟨_, hgid hadmits, ?_⟩
      rw [makeLockKey_eq]
      exact List.prefix_append _ _
    | value hadmits =>
      refine ⟨_, hgid hadmits, ?_⟩
      rw [makeValueKey_eq]
      exact List.prefix_append _ _
  have haccept : ∃ st, checkEntries {} (entries h.self) = .ok st := by
    refine checkEntries_of_blocks (increasing_entries _) hgroup
      (block_of_sequences r hlocking hseq hmax) (Or.inl rfl) fun gid hlast => ?_
    simp [groupPrefix, makeGroupKey] at hlast
  obtain ⟨st, hst⟩ := haccept
  rw [check, show List.map _ _ = entries _ from rfl, hst]

end Clients

/-- **No false alarms**: the checker accepts the leader's database in every state of every run in
which no removal of a clear phase fails `2 ^ 32` times. -/
theorem no_false_alarm (cfg : Config) (hngroups : 1 ≤ cfg.ngroups)
    (hmax : cfg.maxSequenceLength ≤ 1000) (tr : Steps) (s : State) (htr : (machine cfg).Trace tr s)
    (hretries : ∀ p ∈ tr, ¬ Exhausts .clear p.1 p.2) :
    check (s.net.heap cfg.initialLeader).self = none := by
  obtain ⟨sh, hsim, hlocking, hseq⟩ := sequences_of_trace htr hretries
  exact check_eq_none_of_sequences hsim.heap hlocking hseq hngroups hmax

/-- In the middle of a write phase over a longer sequence, the lock taken. -/
theorem no_false_alarm_mid_write : ∃ tr s,
    (machine (.oneReplica 1 1 2 (by decide) (by decide) (by decide))).Trace tr s ∧
      (s.clients 0).pc = .pause .write ∧ check (s.net.heap 0).self = none := by
  obtain ⟨tr, s, htr, hpc, hretries⟩ := Machine.exists_trace_of_record
    (M := machine (.oneReplica 1 1 2 (by decide) (by decide) (by decide)))
    [.begin 0 0 5 2, .send 0 false, .handle 0 0 false, .receive 0 0 0,
      .send 0 false, .handle 0 0 false, .receive 0 0 0, .wake 0,
      .send 0 false, .handle 0 0 false, .receive 0 0 0, .wake 0,
      .send 0 false, .handle 0 0 false, .receive 0 0 0,
      .begin 0 0 6 1, .send 0 false, .handle 0 0 false, .receive 0 0 0,
      .send 0 false, .handle 0 0 false, .receive 0 0 0]
    (P := fun tr s => (s.clients 0).pc = .pause .write ∧ ∀ p ∈ tr, ¬ Exhausts .clear p.1 p.2)
    (by decide)
  exact ⟨tr, s, htr, hpc, no_false_alarm _ (by decide) (by decide) tr s htr hretries⟩

/-- **A false alarm**: the value that outlived the next sequence. -/
theorem false_alarm_outlived : ∃ cfg tr s, 1 ≤ cfg.ngroups ∧ cfg.maxSequenceLength ≤ 1000 ∧
    (machine cfg).Trace tr s ∧
      check (s.net.heap cfg.initialLeader).self = some (makeValueKey 0 2) := by
  obtain ⟨tr, s, htr, -, hdb⟩ := exists_trace_outlived
  refine ⟨outlivedConfig, tr, s, by decide, by decide, htr, ?_⟩
  rw [check, show (s.net.heap outlivedConfig.initialLeader).self.db.toList = _ from hdb]
  rfl

end Lockseq

end Traxos
