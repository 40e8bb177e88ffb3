import Mathlib.Data.Finset.Card
import Traxos.Lockseq.Counts
import Traxos.Lockseq.TestRun
import Traxos.Pancy.Printing

/-! # What a test reports

The end of `try_one_seed`: it prints the counters of the clients and checks the database. When the
check finds a problem, the entries around it are printed, the one with the problem marked
(`failure_report`); else the whole database may be printed, from which it can be read back, since
all entries of a test are of keys and values of the lock protocol (`printed_run_exact`). So can the
messages that the replicas receive and send, when they are printed (`printed_messages_exact`). The
counters bound the locks that are taken in the database (`counts_bound_locks`). -/

namespace Traxos

namespace Lockseq

open Service Netsim

/-! ## The source -/

/-- The end of `try_one_seed`: the result, and what goes to `std::cout` and `std::clog`. -/
def report (count : Phase → ℕ) (printDb : Bool) (seed : ℕ) (db : Pancydb) : Bool × Str × Str :=
  let counts := Nat.toDigits 10 (count .lock) ++ " lock, ".toList ++
    Nat.toDigits 10 (count .write) ++ " write, ".toList ++
    Nat.toDigits 10 (count .clear) ++ " clear, ".toList ++
    Nat.toDigits 10 (count .unlock) ++ " unlock\n".toList
  match check db with
  | some problem =>
    (false, counts, "*** FAILURE on seed ".toList ++ Nat.toDigits 10 seed ++ " at key ".toList ++
      problem ++ "\n".toList ++ db.printNear problem)
  | none => (true, counts ++ (if printDb then db.print else []), [])

/-! ## The entries of a test -/

/-- An entry as clients write it: a lock or a value of a group, with the value of a client. -/
structure ClientEntry (k x : Str) : Prop where
  key : ∃ gid, k = makeLockKey gid ∨ ∃ i, k = makeValueKey gid i
  value : ∃ c h, x = clientKeyPrefix c ++ uniformHex7 h

section Entries

variable {cfg : Config} {c : ℕ} {m : Store} {v : View} {req : Request} {tr : Steps} {s : State}

/-- What the leader writes is of the client whose request it handles. -/
theorem all_clientEntry_handled (h : m.All ClientEntry) (hlock : LockInv c m v)
    (hhandled : Handled m v req) : (m.apply (req.change m)).All ClientEntry := by
  have hvalue : v.loc.pc.mode ≠ .idle → ∃ c h, v.loc.value = clientKeyPrefix c ++ uniformHex7 h :=
    fun hmode => ⟨c, hlock.named hmode⟩
  cases hhandled with
  | noop happly => rwa [happly]
  | rewrite hmode _ _ happly =>
    rw [happly]
    exact h.write ⟨⟨_, .inr ⟨_, rfl⟩⟩, hvalue hmode⟩
  | write hmode _ _ happly =>
    rw [happly]
    exact h.write ⟨⟨_, .inr ⟨_, rfl⟩⟩, hvalue (by simp [hmode])⟩
  | clear _ _ _ happly =>
    rw [happly]
    exact h.delete _
  | acquire hmode _ _ happly =>
    rw [happly]
    exact h.write ⟨⟨_, .inl rfl⟩, hvalue (by simp [hmode])⟩
  | release _ _ _ happly =>
    rw [happly]
    exact h.delete _

/-- The lock invariant, and what the entries are. -/
theorem entries_of_trace (htr : (machine cfg).Trace tr s) :
    ∃ sh, Simulates cfg tr s sh ∧ Locking sh (s.view cfg) ∧ sh.store.All ClientEntry := by
  refine exchange_invariant (C := fun _ _ => True)
    (I := fun sh views => Locking sh views ∧ sh.store.All ClientEntry)
    ⟨locking_init cfg, StampedMap.all_empty ClientEntry⟩ ?_ htr fun _ _ _ _ _ => trivial
  rintro c sh views sh' v' ⟨hlocking, hentries⟩ hmove -
  refine ⟨hlocking.move hmove, ?_⟩
  cases hmove with
  | handle hreq =>
    have hc := hlocking.client c
    exact all_clientEntry_handled hentries hc
      (hc.handled (fun _ _ he => hlocking.value_ne_nil he) hreq)
  | _ => exact hentries

/-- The same for the network. -/
theorem entries_of_deployment {su : Setup}
    (hsu : setup cfg.nreplicas cfg.initialLeader cfg.nclients = .ok su)
    {tr : List (Deployment.State × Deployment.Action)} {s : Deployment.State}
    (htr : (deployment cfg su).Trace tr s) : ∃ tr' t sh, Represents su s t ∧
      Simulates cfg tr' t sh ∧ Locking sh (t.view cfg) ∧ sh.store.All ClientEntry := by
  obtain ⟨tr', t, htr', h, -⟩ := exists_trace_of_deployment (sound_of_setup hsu) htr
  obtain ⟨sh, hsim, hlocking, hentries⟩ := entries_of_trace htr'
  exact ⟨tr', t, sh, h.represents, hsim, hlocking, hentries⟩

/-- The entries of a database that holds such a store. -/
theorem clientEntry_of_refines {h : Heap} (r : h.Refines m) (hentries : m.All ClientEntry) {k : Str}
    {v : Vv} (hv : h.self.db[k]? = some v) : ClientEntry k v.value := by
  rw [r.db, Option.map_eq_some_iff] at hv
  obtain ⟨x, hx, rfl⟩ := hv
  exact hentries _ x hx

/-- The leader's entries in a test. -/
theorem clientEntry_of_deployment {su : Setup}
    (hsu : setup cfg.nreplicas cfg.initialLeader cfg.nclients = .ok su)
    {tr : List (Deployment.State × Deployment.Action)} {s : Deployment.State}
    (htr : (deployment cfg su).Trace tr s) {e : Str × Vv}
    (he : e ∈ (s.replicas cfg.initialLeader).db.db.toList) : ClientEntry e.1 e.2.value := by
  obtain ⟨_, t, sh, h, hsim, -, hentries⟩ := entries_of_deployment hsu htr
  rw [← h.replicas, Std.ExtTreeMap.mem_toList_iff_getElem?_eq_some] at he
  exact clientEntry_of_refines hsim.heap hentries he

end Entries

/-! ## The printed database -/

section Characters

variable {ch : Char}

/-- The characters of a number are digits of its base. -/
theorem exists_digitChar_of_mem {b : ℕ} (hb : 1 < b) {n : ℕ} (h : ch ∈ Nat.toDigits b n) :
    ∃ d, d < b ∧ ch = Nat.digitChar d := by
  induction n using Nat.strongRecOn with
  | ind n ih =>
    rw [Nat.toDigits_eq_if hb] at h
    split at h
    · rename_i hn
      exact ⟨n, hn, List.mem_singleton.mp h⟩
    · rename_i hn
      rcases List.mem_append.mp h with h | h
      · exact ih (n / b) (Nat.div_lt_self (by omega) hb) h
      · exact ⟨n % b, Nat.mod_lt n (by omega), List.mem_singleton.mp h⟩

theorem not_mem_toDigits {b : ℕ} (hb : 1 < b) (hdigit : ∀ d < b, ch ≠ Nat.digitChar d) (n : ℕ) :
    ch ∉ Nat.toDigits b n := by
  intro h
  obtain ⟨d, hd, heq⟩ := exists_digitChar_of_mem hb h
  exact hdigit d hd heq

theorem not_mem_leftpad {l : Str} {n : ℕ} {pad : Char} (hl : ch ∉ l) (hpad : ch ≠ pad) :
    ch ∉ l.leftpad n pad := by
  intro h
  rcases List.mem_append.mp h with h | h
  · exact hpad (List.eq_of_mem_replicate h)
  · exact hl h

theorem not_mem_makeLockKey (hdigit : ∀ d < 10, ch ≠ Nat.digitChar d)
    (hch : ch ∉ ['g', '/', 'l', 'o', 'c', 'k']) (gid : ℕ) : ch ∉ makeLockKey gid := by
  have hgid := not_mem_toDigits (by decide) hdigit gid
  simp only [List.mem_cons, List.not_mem_nil, or_false, not_or] at hch
  simp [makeLockKey, makeGroupKey, hgid, hch]

theorem not_mem_makeValueKey (hdigit : ∀ d < 10, ch ≠ Nat.digitChar d) (hch : ch ∉ ['g', '/', 'v'])
    (gid i : ℕ) : ch ∉ makeValueKey gid i := by
  have hgid := not_mem_toDigits (by decide) hdigit gid
  have hindex : ch ∉ (Nat.toDigits 10 i).leftpad 3 '0' :=
    not_mem_leftpad (not_mem_toDigits (by decide) hdigit i) (hdigit 0 (by decide))
  simp only [List.mem_cons, List.not_mem_nil, or_false, not_or] at hch
  rw [makeValueKey, makeGroupKey]
  simp only [List.mem_append, List.mem_cons, hgid, hindex, hch.1, hch.2.1, hch.2.2, or_self,
    not_false_eq_true]

theorem not_mem_clientValue (hdigit : ∀ d < 16, ch ≠ Nat.digitChar d) (hch : ch ∉ ['c', ' '])
    (c x : ℕ) : ch ∉ clientKeyPrefix c ++ uniformHex7 x := by
  have hc : ch ∉ Nat.toDigits 10 c :=
    not_mem_toDigits (by decide) (fun d hd => hdigit d (Nat.lt_trans hd (by decide))) c
  have hx : ch ∉ uniformHex7 x :=
    not_mem_leftpad (not_mem_toDigits (by decide) hdigit x) (hdigit 0 (by decide))
  simp only [List.mem_cons, List.not_mem_nil, or_false, not_or] at hch
  simp [clientKeyPrefix, makeClientKey, hc, hx, hch]

end Characters

theorem ClientEntry.printable {k : Str} {v : Vv} (h : ClientEntry k v.value) :
    PrintableEntry (k, v) := by
  have hvalue : '\n' ∉ v.value := by
    obtain ⟨c, x, hx⟩ := h.value
    rw [hx]
    exact not_mem_clientValue (by decide) (by decide) c x
  obtain ⟨gid, rfl | ⟨i, rfl⟩⟩ := h.key
  · exact ⟨not_mem_makeLockKey (by decide) (by decide) gid,
      not_mem_makeLockKey (by decide) (by decide) gid, hvalue⟩
  · exact ⟨not_mem_makeValueKey (by decide) (by decide) gid i,
      not_mem_makeValueKey (by decide) (by decide) gid i, hvalue⟩

/-- **The printed database tells the database**: two tests, of whatever clients on whatever networks,
print the same only if their leaders have the same keys, values and versions. -/
theorem printed_run_exact (cfg cfg' : Config) (su su' : Setup)
    (hsu : setup cfg.nreplicas cfg.initialLeader cfg.nclients = .ok su)
    (hsu' : setup cfg'.nreplicas cfg'.initialLeader cfg'.nclients = .ok su')
    (tr tr' : List (Deployment.State × Deployment.Action)) (s s' : Deployment.State)
    (htr : (deployment cfg su).Trace tr s) (htr' : (deployment cfg' su').Trace tr' s') :
    (s.replicas cfg.initialLeader).db.print = (s'.replicas cfg'.initialLeader).db.print ↔
      (s.replicas cfg.initialLeader).db.db = (s'.replicas cfg'.initialLeader).db.db :=
  print_exact _ _ (fun _ he => (clientEntry_of_deployment hsu htr he).printable)
    fun _ he => (clientEntry_of_deployment hsu' htr' he).printable

/-- A test that has just begun prints something else than one with a lock taken. -/
theorem printed_run_exact_small : ∃ tr s, (deployment smallConfig smallSetup).Trace tr s ∧
    (s.replicas 0).db.print ≠ ((deployment smallConfig smallSetup).init.replicas 0).db.print := by
  obtain ⟨tr, s, htr, hlocked⟩ := Machine.exists_trace_of_record
    (M := deployment smallConfig smallSetup)
    [.serve 0, .begin 0 0 5 1, .send 0 false, .tick 1, .listen 0, .tick 4, .fireRequest 0,
      .resumeServer 0, .tick 1, .fireRequest 0, .resumeServer 0, .resumeServer 0, .handle 0 false]
    (P := fun _ s => (s.replicas 0).db.db.isEmpty = false) (by decide)
  refine ⟨tr, s, htr, fun hprint => ?_⟩
  have hdb := (printed_run_exact smallConfig smallConfig smallSetup smallSetup setup_small setup_small
    tr [] s _ htr .init).mp hprint
  rw [show (s.replicas 0).db.db = _ from hdb] at hlocked
  exact absurd hlocked (by decide)

/-! ## The printed messages -/

section Printed

variable {cfg : Config} {su : Setup} {tr : List (Deployment.State × Deployment.Action)}
  {s : Deployment.State}

/-- A client's requests have no quotation marks, and all of their fields are printed. -/
theorem printable_request {cl : Client} {ph : Phase} (hvalue : '"' ∉ cl.value)
    (hversion : ph = .unlock → 0 ≤ cl.lockVersion) :
    (cl.request ph).Quotable ∧ (cl.request ph).shown = cl.request ph := by
  have hlock : '"' ∉ makeLockKey cl.gid := not_mem_makeLockKey (by decide) (by decide) cl.gid
  have hkey : '"' ∉ makeValueKey cl.gid cl.n :=
    not_mem_makeValueKey (by decide) (by decide) cl.gid cl.n
  cases ph with
  | lock => exact ⟨⟨hlock, List.not_mem_nil, hvalue⟩, rfl⟩
  | write => exact ⟨⟨hkey, hvalue⟩, rfl⟩
  | clear => exact ⟨hkey, rfl⟩
  | unlock =>
    have hmax : max anyVersion cl.lockVersion = cl.lockVersion := by
      have := hversion rfl
      rw [anyVersion_eq]
      omega
    refine ⟨hlock, ?_⟩
    simp only [Client.request, Request.shown, hmax]

theorem printable_sent (hsu : setup cfg.nreplicas cfg.initialLeader cfg.nclients = .ok su)
    (htr : (deployment cfg su).Trace tr s) {c : ℕ} {ph : Phase} (hpc : (s.clients c).pc = .send ph) :
    ((s.clients c).request ph).Quotable ∧
      ((s.clients c).request ph).shown = (s.clients c).request ph := by
  obtain ⟨_, t, sh, h, -, hlocking, -⟩ := entries_of_deployment hsu htr
  rw [← h.clients] at hpc ⊢
  have hbusy : Busy c sh.store (t.view cfg c) ph :=
    (hlocking.client c).busy (congrArg Pc.mode hpc)
  refine printable_request ?_ ?_
  · obtain ⟨x, hx⟩ := hbusy.named
    rw [show (t.clients c).value = _ from hx]
    exact not_mem_clientValue (by decide) (by decide) c x
  · rintro rfl
    rcases hbusy.secured with hheld | ⟨hreleased, -⟩
    · exact Int.le_of_lt (sh.store.stamp_pos hheld)
    · exact hreleased.dead.nonneg

/-- So it is with what a replica replies, be it the leader or not. -/
theorem printable_reply (hsu : setup cfg.nreplicas cfg.initialLeader cfg.nclients = .ok su)
    (htr : (deployment cfg su).Trace tr s) (r : ℕ) (q : Request) :
    (s.reply r q).1.Quotable ∧ (s.reply r q).1.shown = (s.reply r q).1 := by
  obtain ⟨_, t, sh, h, hsim, -, hentries⟩ := entries_of_deployment hsu htr
  rw [Deployment.State.reply]
  simp only
  split
  · exact ⟨trivial, rfl⟩
  · next hindex =>
    refine ⟨Heap.quotable_processReq (fun vvp => ?_) q, Heap.shown_processReq _ q⟩
    have hr : r = cfg.initialLeader := by
      rw [← h.replicas, hsim.index, hsim.leaderIndex] at hindex
      exact not_ne_iff.mp hindex
    have hheap : ({ nonexistentVv := s.nonexistentVv, self := (s.replicas r).db } : Heap) =
        t.net.heap cfg.initialLeader := by
      rw [← h.replicas, ← h.nonexistentVv, hr]
      rfl
    rw [hheap]
    have hnil : '"' ∉ (t.net.heap cfg.initialLeader).nonexistentVv.value := by
      rw [hsim.heap.nonexistentVv]
      exact List.not_mem_nil
    cases vvp with
    | nonexistent => exact hnil
    | entry k =>
      rw [Heap.deref]
      cases hv : (t.net.heap cfg.initialLeader).self.db[k]? with
      | none => exact hnil
      | some v =>
        obtain ⟨c, x, hx⟩ := (clientEntry_of_refines hsim.heap hentries hv).value
        rw [Option.getD_some, hx]
        exact not_mem_clientValue (by decide) (by decide) c x

end Printed

/-- **The printed messages tell the messages**: in two tests, of whatever clients on whatever networks,
two requests that clients send are printed the same only if they are the same, and so are two replies
of replicas. -/
theorem printed_messages_exact (cfg cfg' : Config) (su su' : Setup)
    (hsu : setup cfg.nreplicas cfg.initialLeader cfg.nclients = .ok su)
    (hsu' : setup cfg'.nreplicas cfg'.initialLeader cfg'.nclients = .ok su')
    (tr tr' : List (Deployment.State × Deployment.Action)) (s s' : Deployment.State)
    (htr : (deployment cfg su).Trace tr s) (htr' : (deployment cfg' su').Trace tr' s') :
    (∀ c ph c' ph', (s.clients c).pc = .send ph → (s'.clients c').pc = .send ph' →
      (((s.clients c).request ph).format = ((s'.clients c').request ph').format ↔
        (s.clients c).request ph = (s'.clients c').request ph')) ∧
    ∀ r q r' q', (s.reply r q).1.format = (s'.reply r' q').1.format ↔
      (s.reply r q).1 = (s'.reply r' q').1 := by
  constructor
  · intro c ph c' ph' hpc hpc'
    obtain ⟨hquotable, hshown⟩ := printable_sent hsu htr hpc
    obtain ⟨hquotable', hshown'⟩ := printable_sent hsu' htr' hpc'
    refine ⟨fun hformat => ?_, congrArg Request.format⟩
    rw [← hshown, ← hshown']
    exact readable_request.eq hquotable hquotable' hformat
  · intro r q r' q'
    obtain ⟨hquotable, hshown⟩ := printable_reply hsu htr r q
    obtain ⟨hquotable', hshown'⟩ := printable_reply hsu' htr' r' q'
    refine ⟨fun hformat => ?_, congrArg Response.format⟩
    rw [← hshown, ← hshown']
    exact readable_response.eq hquotable hquotable' hformat

/-- The leader replies something else once it has handled the request. -/
theorem printed_messages_exact_small : ∃ tr s, (deployment smallConfig smallSetup).Trace tr s ∧
    ∃ q, (s.reply 0 q).1.format ≠
      ((deployment smallConfig smallSetup).init.reply 0 q).1.format := by
  obtain ⟨tr, s, htr, hdiffers⟩ := Machine.exists_trace_of_record
    (M := deployment smallConfig smallSetup)
    [.serve 0, .begin 0 0 5 1, .send 0 false, .tick 1, .listen 0, .tick 4, .fireRequest 0,
      .resumeServer 0, .tick 1, .fireRequest 0, .resumeServer 0, .resumeServer 0, .handle 0 false]
    (P := fun _ s => (s.reply 0 ((s.clients 0).request .lock)).1 ≠
      ((deployment smallConfig smallSetup).init.reply 0 ((s.clients 0).request .lock)).1) (by decide)
  exact ⟨tr, s, htr, _, fun hformat => hdiffers
    (((printed_messages_exact smallConfig smallConfig smallSetup smallSetup setup_small setup_small
      tr [] s _ htr .init).2 0 _ 0 _).mp hformat)⟩

/-! ## The report of a failure -/

section Failure

variable {st : CheckState} {key value k : Str}

theorem key_of_enterGroup (h : enterGroup st key = .error k) : k = key := by
  unfold enterGroup at h
  repeat' split at h
  all_goals cases h <;> rfl

theorem key_of_checkLock (h : checkLock st key value = .error k) : k = key := by
  unfold checkLock at h
  repeat' split at h
  all_goals cases h <;> rfl

theorem key_of_checkIndex {vindex : ℕ} (h : checkIndex st key vindex = .error k) : k = key := by
  unfold checkIndex at h
  repeat' split at h
  all_goals cases h <;> rfl

theorem key_of_checkValue (h : checkValue st key value = .error k) : k = key := by
  unfold checkValue at h
  repeat' split at h
  all_goals cases h <;> rfl

/-- The error of a sequence of checks is that of one of them. -/
theorem error_of_bind {α β : Type} {x : Except Str α} {f : α → Except Str β}
    (h : x >>= f = .error k) : x = .error k ∨ ∃ a, x = .ok a ∧ f a = .error k := by
  cases x with
  | error k' => exact .inl (congrArg Except.error (Except.error.inj h))
  | ok a => exact .inr ⟨a, rfl, h⟩

/-- A problem with an entry is reported under its key. -/
theorem key_of_checkEntry (h : checkEntry st key value = .error k) : k = key := by
  unfold checkEntry at h
  rcases error_of_bind h with h | ⟨st, -, h⟩
  · exact key_of_enterGroup h
  split at h
  · exact key_of_checkLock h
  simp only at h
  split at h
  · cases h
    rfl
  rcases error_of_bind h with h | ⟨st, -, h⟩
  · exact key_of_checkIndex h
  rcases error_of_bind h with h | ⟨st, -, h⟩
  · exact key_of_checkValue h
  · cases h

/-- A problem is reported under the key of an entry. -/
theorem key_of_checkEntries {l : List (Str × Str)} (h : checkEntries st l = .error k) :
    ∃ e ∈ l, k = e.1 := by
  induction l generalizing st with
  | nil => cases h
  | cons e l ih =>
    rw [checkEntries, List.foldlM_cons] at h
    rcases error_of_bind h with h | ⟨st, -, h⟩
    · exact ⟨e, List.mem_cons_self, key_of_checkEntry h⟩
    · obtain ⟨e', he', hk⟩ := ih h
      exact ⟨e', List.mem_cons_of_mem _ he', hk⟩

theorem exists_of_check {db : Pancydb} (h : check db = some k) : ∃ v, db.db[k]? = some v := by
  rw [check_eq] at h
  cases hentries : checkEntries {} (entries db) with
  | ok st => rw [hentries] at h; cases h
  | error k' =>
    rw [hentries] at h
    obtain rfl := Option.some.inj h
    obtain ⟨e, he, rfl⟩ := key_of_checkEntries hentries
    obtain ⟨⟨key, v⟩, hmem, rfl⟩ := List.mem_map.mp he
    exact ⟨v, Std.ExtTreeMap.mem_toList_iff_getElem?_eq_some.mp hmem⟩

/-- The lines of a window: the one of the key is marked. -/
theorem nearEntry_of_ne {e : Str × Vv} (h : e.1 ≠ k) :
    Pancydb.nearEntry k e = "   ".toList ++ Pancydb.printEntry e := by
  have hmark : " ".toList ++ " ".toList ++ " ".toList = "   ".toList := by decide
  unfold Pancydb.nearEntry
  rw [if_neg h, hmark]

theorem nearEntry_self (k : Str) (v : Vv) :
    Pancydb.nearEntry k (k, v) = " * ".toList ++ Pancydb.printEntry (k, v) := by
  have hmark : " ".toList ++ "*".toList ++ " ".toList = " * ".toList := by decide
  unfold Pancydb.nearEntry
  rw [if_pos rfl, hmark]

end Failure

/-- **What is reported of a failure**: the problem that `check` finds is reported under a key of the
database, and the report shows up to 11 entries around that key, with its own one marked and no other
one. -/
theorem failure_report (count : Phase → ℕ) (printDb : Bool) (seed : ℕ) (db : Pancydb)
    (hfailed : (report count printDb seed db).1 = false) :
    ∃ problem v omitted before after rest,
      check db = some problem ∧ db.db[problem]? = some v ∧
      NearWindow db problem omitted (before ++ (problem, v) :: after) rest ∧
      (report count printDb seed db).2.2 = "*** FAILURE on seed ".toList ++ Nat.toDigits 10 seed ++
        " at key ".toList ++ problem ++ "\n".toList ++
        ((if omitted ≠ [] then Pancydb.ellipsis else []) ++
          (before.flatMap (fun e => "   ".toList ++ Pancydb.printEntry e) ++
            (" * ".toList ++ Pancydb.printEntry (problem, v) ++
              after.flatMap fun e => "   ".toList ++ Pancydb.printEntry e)) ++
          (if rest ≠ [] then Pancydb.ellipsis else [])) := by
  unfold report at hfailed ⊢
  cases hcheck : check db with
  | none =>
    rw [hcheck] at hfailed
    cases hfailed
  | some problem =>
    obtain ⟨v, hv⟩ := exists_of_check hcheck
    obtain ⟨omitted, window, rest, hnear⟩ := exists_nearWindow db problem
    obtain ⟨before, after, rfl, hbefore, hafter⟩ := hnear.exists_split hv
    refine ⟨problem, v, omitted, before, after, rest, rfl, hv, hnear, ?_⟩
    have hunmarked : ∀ {l : List (Str × Vv)}, (∀ e ∈ l, e.1 ≠ problem) →
        l.flatMap (Pancydb.nearEntry problem) =
          l.flatMap fun e => "   ".toList ++ Pancydb.printEntry e :=
      fun hl => List.flatMap_congr fun e he => nearEntry_of_ne (hl e he)
    simp only [hnear.printed, List.flatMap_append, List.flatMap_cons, hunmarked hbefore,
      hunmarked hafter, nearEntry_self]

/-- Seven values of a group, a key that no client writes, and six keys behind it. -/
def strangerEntries : List (Str × Vv) :=
  (List.range 7).map (fun i => (makeValueKey 0 i, ⟨"c0 0000005".toList, i + 1⟩)) ++
    ("g0/x".toList, ⟨[], 8⟩) :: (List.range 6).map fun i => ('h' :: Nat.toDigits 10 i, ⟨[], i + 9⟩)

/-- Two of the values are left out before the window, and one of the last keys behind it. -/
theorem failure_report_stranger : ∃ db : Pancydb, db.db.toList = strangerEntries ∧
    ∃ omitted before after rest, NearWindow db "g0/x".toList omitted
      (before ++ ("g0/x".toList, ⟨[], 8⟩) :: after) rest ∧
      omitted.length = 2 ∧ rest.length = 1 ∧
      (report (fun _ => 0) false 1 db).2.2 =
        "*** FAILURE on seed ".toList ++ Nat.toDigits 10 1 ++ " at key ".toList ++ "g0/x".toList ++
          "\n".toList ++ (Pancydb.ellipsis ++
          (before.flatMap (fun e => "   ".toList ++ Pancydb.printEntry e) ++
            (" * ".toList ++ Pancydb.printEntry ("g0/x".toList, ⟨[], 8⟩) ++
              after.flatMap fun e => "   ".toList ++ Pancydb.printEntry e)) ++
          Pancydb.ellipsis) := by
  obtain ⟨db, hdb⟩ : ∃ db : Pancydb, db.db.toList = strangerEntries :=
    ⟨.mk 15 (.ofList strangerEntries) [], by decide⟩
  have hcheck : check db = some "g0/x".toList := by
    rw [check, hdb]
    decide
  have hfailed : (report (fun _ => 0) false 1 db).1 = false := by
    unfold report
    rw [hcheck]
  obtain ⟨problem, v, omitted, before, after, rest, hproblem, hv, hnear, htext⟩ :=
    failure_report (fun _ => 0) false 1 db hfailed
  obtain rfl : problem = "g0/x".toList := Option.some.inj (hproblem.symm.trans hcheck)
  obtain rfl : v = ⟨[], 8⟩ := by
    have hmem := Std.ExtTreeMap.mem_toList_iff_getElem?_eq_some.mpr hv
    rw [hdb] at hmem
    have hall : ∀ e ∈ strangerEntries, e.1 = "g0/x".toList → e.2 = ⟨[], 8⟩ := by decide
    exact hall _ hmem rfl
  have homitted : omitted.length = 2 := by
    rw [hnear.length_omitted, hdb]
    decide
  have hrest : rest.length = 1 := by
    rw [hnear.length_rest, hdb, homitted]
    decide
  rw [if_pos (List.ne_nil_of_length_pos (by omega)),
    if_pos (List.ne_nil_of_length_pos (by omega))] at htext
  exact ⟨db, hdb, omitted, before, after, rest, hnear, homitted, hrest, htext⟩

/-! ## The counters and the locks -/

/-- The lock keys of a database. -/
def lockKeys (db : Pancydb) : List Str :=
  db.db.keys.filter fun k => ['/', 'l', 'o', 'c', 'k'].isSuffixOf k

/-- How many clients are in the lock phase, or have thrown in it: a transmission of theirs may still take
the lock. -/
def tryingCount (cfg : Config) (s : Deployment.State) : ℕ :=
  ((Finset.range cfg.nclients).filter fun c =>
    (s.clients c).pc ≠ .delay ∧ Phase.lock ∉ (s.clients c).pc.behind).card

section Locks

variable {cfg : Config} {c : ℕ} {m : Store} {v : View} {sh : Shared} {views : ℕ → View}
  {s : Deployment.State} {db : Pancydb}

theorem mem_lockKeys {k : Str} : k ∈ lockKeys db ↔
    (∃ v, db.db[k]? = some v) ∧ ['/', 'l', 'o', 'c', 'k'] <:+ k := by
  rw [lockKeys, List.mem_filter, Std.ExtTreeMap.mem_keys, List.isSuffixOf_iff_suffix,
    Std.ExtTreeMap.mem_iff_isSome_getElem?, Option.isSome_iff_exists]

theorem nodup_lockKeys (db : Pancydb) : (lockKeys db).Nodup :=
  Std.ExtTreeMap.nodup_keys.filter _

/-- The lock keys among the entries of clients. -/
theorem ClientEntry.eq_lockKey {k x : Str} (h : ClientEntry k x)
    (hk : ['/', 'l', 'o', 'c', 'k'] <:+ k) : ∃ gid, k = makeLockKey gid := by
  obtain ⟨gid, rfl | ⟨i, rfl⟩⟩ := h.key
  · exact ⟨gid, rfl⟩
  · -- there is no such letter in a value key
    have hmem : 'k' ∈ makeValueKey gid i := hk.subset (by decide)
    exact absurd hmem (not_mem_makeValueKey (by decide) (by decide) gid i)

/-- A client that has obtained the lock and not yet begun to give it back holds it. -/
theorem held_of_behind (h : LockInv c m v) (hlock : .lock ∈ v.loc.pc.behind)
    (hclear : .clear ∉ v.loc.pc.behind) : Held m v.loc := by
  have hphase : ∀ {ph : Phase}, .lock ∈ ph.before → .clear ∉ ph.before →
      v.loc.pc.mode = .busy ph → Held m v.loc := by
    intro ph hlock hclear hmode
    have hsecured := (h.busy hmode).secured
    cases ph with
    | lock => cases hlock
    | write => exact hsecured
    | clear => exact hsecured
    | unlock => exact absurd (by decide) hclear
  cases hpc : v.loc.pc with
  | delay => rw [hpc] at hlock; cases hlock
  | backoff => rw [hpc] at hlock; cases hlock
  | pause ph => exact (h.resting (by rw [hpc]; rfl)).held
  | send ph => rw [hpc] at hlock hclear; exact hphase hlock hclear (by rw [hpc]; rfl)
  | receive ph => rw [hpc] at hlock hclear; exact hphase hlock hclear (by rw [hpc]; rfl)
  | thrown ph e => rw [hpc] at hlock hclear; exact hphase hlock hclear (by rw [hpc]; rfl)

/-- Clients that hold locks hold different ones. -/
theorem behindCount_lock_le (cfg : Config) {h : Heap} (r : h.Refines sh.store) (hlocking : Locking sh views)
    (hviews : ∀ c, (views c).loc = s.clients c) :
    behindCount cfg s .lock ≤ behindCount cfg s .clear + (lockKeys h.self).length := by
  let holding := (Finset.range cfg.nclients).filter fun c =>
    Phase.lock ∈ (s.clients c).pc.behind ∧ Phase.clear ∉ (s.clients c).pc.behind
  have hholding : ∀ {c}, c ∈ holding →
      Held sh.store (views c).loc ∧ (views c).loc.pc.mode ≠ .idle := by
    intro c hc
    obtain ⟨-, hlock, hclear⟩ := Finset.mem_filter.mp hc
    rw [← hviews] at hlock hclear
    refine ⟨held_of_behind (hlocking.client c) hlock hclear, fun hmode => ?_⟩
    cases hpc : (views c).loc.pc with
    | delay => rw [hpc] at hlock; cases hlock
    | _ => rw [hpc] at hmode; cases hmode
  have hcard : holding.card ≤ (lockKeys h.self).toFinset.card := by
    refine Finset.card_le_card_of_injOn (fun c => makeLockKey (views c).loc.gid) ?_ ?_
    · intro c hc
      have hentry := r.db_of_some (hholding hc).1
      exact List.mem_toFinset.mpr (mem_lockKeys.mpr ⟨⟨_, hentry⟩, List.suffix_append _ _⟩)
    · intro c hc d hd heq
      obtain ⟨hcheld, hcmode⟩ := hholding hc
      obtain ⟨hdheld, hdmode⟩ := hholding hd
      exact hlocking.eq_of_held hcheld hdheld hcmode hdmode (makeLockKey_injective heq)
  rw [List.toFinset_card_of_nodup (nodup_lockKeys _)] at hcard
  refine Nat.le_trans (Nat.le_trans (Finset.card_le_card ?_) (Finset.card_union_le _ holding))
    (Nat.add_le_add_left hcard _)
  intro c hc
  obtain ⟨hrange, hlock⟩ := Finset.mem_filter.mp hc
  rw [Finset.mem_union, Finset.mem_filter, Finset.mem_filter]
  by_cases hclear : Phase.clear ∈ (s.clients c).pc.behind
  · exact .inl ⟨hrange, hclear⟩
  · exact .inr ⟨hrange, hlock, hclear⟩

/-- Locks that are taken have different owners. -/
theorem length_lockKeys_le {h : Heap} (r : h.Refines sh.store) (hlocking : Locking sh views)
    (hentries : sh.store.All ClientEntry) (hviews : ∀ c, (views c).loc = s.clients c)
    (habsent : ∀ c, cfg.nclients ≤ c → (s.clients c).pc = .delay) :
    (lockKeys h.self).length ≤ behindCount cfg s .lock + tryingCount cfg s := by
  let active := (Finset.range cfg.nclients).filter fun c => (s.clients c).pc ≠ .delay
  have hactive : active.card ≤ behindCount cfg s .lock + tryingCount cfg s := by
    refine Nat.le_trans (Finset.card_le_card ?_) (Finset.card_union_le _ _)
    intro c hc
    obtain ⟨hrange, hpc⟩ := Finset.mem_filter.mp hc
    rw [Finset.mem_union, Finset.mem_filter, Finset.mem_filter]
    by_cases hlock : Phase.lock ∈ (s.clients c).pc.behind
    · exact .inl ⟨hrange, hlock⟩
    · exact .inr ⟨hrange, hpc, hlock⟩
  have hkeys : (lockKeys h.self).toFinset ⊆ active.image fun c => makeLockKey (s.clients c).gid := by
    intro k hk
    obtain ⟨⟨v, hv⟩, hsuffix⟩ := mem_lockKeys.mp (List.mem_toFinset.mp hk)
    rw [r.db, Option.map_eq_some_iff] at hv
    obtain ⟨e, he, -⟩ := hv
    obtain ⟨gid, rfl⟩ := (hentries k e he).eq_lockKey hsuffix
    obtain ⟨c, hmode, hgid, -⟩ := hlocking.owner he
    rw [hviews] at hmode hgid
    have hpc : (s.clients c).pc ≠ .delay := fun hpc => hmode (by rw [hpc]; rfl)
    have hc : c < cfg.nclients := Nat.lt_of_not_le fun hle => hpc (habsent c hle)
    exact Finset.mem_image.mpr ⟨c, Finset.mem_filter.mpr ⟨Finset.mem_range.mpr hc, hpc⟩, by rw [hgid]⟩
  have hcard := Nat.le_trans (Finset.card_le_card hkeys) Finset.card_image_le
  rw [List.toFinset_card_of_nodup (nodup_lockKeys _)] at hcard
  exact Nat.le_trans hcard hactive

/-- Who has completed a phase has completed those before it. -/
theorem behindCount_mono {ph ph' : Phase} (h : ph ∈ ph'.before) (cfg : Config)
    (s : Deployment.State) : behindCount cfg s ph' ≤ behindCount cfg s ph := by
  have hbefore : ∀ pc : Pc, ph' ∈ pc.behind → ph ∈ pc.behind := by
    have hall : ∀ p p' q : Phase, p ∈ p'.before → p' ∈ q.before → p ∈ q.before := by
      intro p p' q
      cases p <;> cases p' <;> cases q <;> decide
    intro pc
    cases pc with
    | delay => exact fun hmem => absurd hmem List.not_mem_nil
    | backoff => exact hall ph ph' .lock h
    | send q => exact hall ph ph' q h
    | receive q => exact hall ph ph' q h
    | pause q => exact hall ph ph' q h
    | thrown q e => exact hall ph ph' q h
  refine Finset.card_le_card fun c hc => ?_
  obtain ⟨hrange, hmem⟩ := Finset.mem_filter.mp hc
  exact Finset.mem_filter.mpr ⟨hrange, hbefore _ hmem⟩

theorem behindCount_unlock (cfg : Config) (s : Deployment.State) : behindCount cfg s .unlock = 0 := by
  have hnot : ∀ pc : Pc, Phase.unlock ∉ pc.behind := by
    have hall : ∀ q : Phase, Phase.unlock ∉ q.before := by
      intro q
      cases q <;> decide
    intro pc
    cases pc with
    | delay => exact List.not_mem_nil
    | backoff => exact hall .lock
    | send q => exact hall q
    | receive q => exact hall q
    | pause q => exact hall q
    | thrown q e => exact hall q
  rw [behindCount, Finset.filter_false_of_mem fun c _ => hnot _, Finset.card_empty]

end Locks

/-- **What the counters tell of the database**: phases are completed in order, so a counter is ahead of
those of later phases, by at most the number of clients. A client that has obtained a lock and not yet
completed its clear phase holds it, so there are at least as many locks; and each lock has an owner,
which has completed its lock phase and not its unlock phase unless it is still in the former or has
thrown there. All this counts modulo `2 ^ 64`, as the counters do. -/
theorem counts_bound_locks (cfg : Config) (su : Setup)
    (hsu : setup cfg.nreplicas cfg.initialLeader cfg.nclients = .ok su)
    (tr : List (Deployment.State × Deployment.Action)) (s : Deployment.State)
    (htr : (deployment cfg su).Trace tr s) :
    (∀ ph ph' : Phase, ph ∈ ph'.before →
      (Deployment.count cfg su tr ph - Deployment.count cfg su tr ph').toNat ≤ cfg.nclients) ∧
    (Deployment.count cfg su tr .lock - Deployment.count cfg su tr .clear).toNat ≤
      (lockKeys (s.replicas cfg.initialLeader).db).length ∧
    (lockKeys (s.replicas cfg.initialLeader).db).length ≤
      (Deployment.count cfg su tr .lock - Deployment.count cfg su tr .unlock).toNat +
        tryingCount cfg s := by
  have hsound := sound_of_setup hsu
  obtain ⟨tr', t, htr', h, -⟩ := exists_trace_of_deployment hsound htr
  obtain ⟨sh, hsim, hlocking, hentries⟩ := entries_of_trace htr'
  have habsent : ∀ p ∈ tr, ∀ c, cfg.nclients ≤ c → (p.1.clients c).pc = .delay := by
    intro p hp
    obtain ⟨tr₁, s₁, htr₁, -⟩ := htr.exists_step hp
    obtain ⟨tr₂, t₁, htr₂, h₁, -⟩ := exists_trace_of_deployment hsound htr₁
    exact h₁.absent
  have hviews : ∀ c, (t.view cfg c).loc = s.clients c := fun c => by
    rw [← h.represents.clients]
    rfl
  have hlower := behindCount_lock_le cfg hsim.heap hlocking hviews
  have hupper := length_lockKeys_le hsim.heap hlocking hentries hviews h.absent
  have hdb : (t.net.heap cfg.initialLeader).self = (s.replicas cfg.initialLeader).db := by
    rw [← h.represents.replicas]
    rfl
  rw [hdb] at hlower hupper
  have hsub := fun {ph ph' : Phase} (hbefore : ph ∈ ph'.before) =>
    toNat_count_sub htr habsent (behindCount_mono hbefore cfg s)
  refine ⟨fun ph ph' hbefore => ?_, ?_, ?_⟩
  · rw [hsub hbefore]
    have hclients : behindCount cfg s ph ≤ cfg.nclients :=
      Nat.le_trans (Finset.card_filter_le _ _) (Nat.le_of_eq (Finset.card_range _))
    omega
  · rw [hsub (by decide)]
    omega
  · rw [hsub (by decide), behindCount_unlock]
    exact hupper

/-- The client has obtained a lock and is in the write phase. -/
theorem counts_bound_locks_small : ∃ tr s, (deployment smallConfig smallSetup).Trace tr s ∧
    Deployment.count smallConfig smallSetup tr .lock = 1 ∧
    1 ≤ (lockKeys (s.replicas 0).db).length := by
  obtain ⟨tr, s, htr, hlock, hclear⟩ := Machine.exists_trace_of_record
    (M := deployment smallConfig smallSetup)
    [.serve 0, .begin 0 0 5 1, .send 0 false, .tick 1, .listen 0, .tick 4, .fireRequest 0,
      .resumeServer 0, .tick 1, .fireRequest 0, .resumeServer 0, .resumeServer 0, .handle 0 false,
      .tick 1, .serve 0, .tick 4, .fireResponse 0, .resume 0, .tick 1, .fireResponse 0, .resume 0,
      .resume 0, .receive 0 0]
    (P := fun tr _ => Deployment.count smallConfig smallSetup tr .lock = 1 ∧
      Deployment.count smallConfig smallSetup tr .clear = 0) (by decide)
  have hlocks := (counts_bound_locks smallConfig smallSetup setup_small tr s htr).2.1
  rw [hlock, hclear] at hlocks
  exact ⟨tr, s, htr, hlock, hlocks⟩

end Lockseq

end Traxos
