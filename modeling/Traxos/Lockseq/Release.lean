import Traxos.Lockseq.Counts

/-! # Locks can be given back

A client that has obtained a lock can give it back, whatever the network has done before: from every
state of every run the client and the leader can bring its sequence to an end by themselves, and no
message need be lost on the way (`works_to_givenBack`). The client may have to find the leader
first, the leader to handle what is still in flight, and the client to drop the answers that are not
for its current request. One after the other, all clients can do so (`locks_can_be_released`): the
protocol has no dead ends but those in which a client has thrown.

* **`Works`** — what a client and the leader can bring about between them.
* **`InTurn`** — what the clients can bring about one after the other, each with the leader.
* **`works_to_leader`**, **`works_to_answer`**, **`works_to_accept`** — the client gets an answer.
* **`Client.work`** — what is left of a sequence. -/

namespace Traxos

namespace Lockseq

open Service

/-! ## A client and the leader -/

/-- What client `c` and the leader do with each other's messages, and nothing is lost. -/
def OwnWork (cfg : Config) (c : ℕ) : Action → Prop
  | .send c' lost => c' = c ∧ lost = false
  | .timeout c' _ => c' = c
  | .receive c' r _ => c' = c ∧ r = cfg.initialLeader
  | .wake c' => c' = c
  | .handle r c' lost => r = cfg.initialLeader ∧ c' = c ∧ lost = false
  | _ => False

/-- Client `c` and the leader can get from one state to another by themselves. -/
abbrev Works (cfg : Config) (c : ℕ) : State → State → Prop := (machine cfg).Reaches (OwnWork cfg c)

/-- The client at another point of the loop of a step. -/
def Client.moved (cl : Client) (pc : Pc) (tries leader : ℕ) : Client :=
  { cl with pc := pc, tries := tries, leader := leader }

section Works

variable {cfg : Config} {c : ℕ} {s : State} {cl : Client} {ph : Phase} {t l : ℕ}

/-- The state after client `c` has sent and nothing was lost. -/
def State.sent (s : State) (c : ℕ) (ph : Phase) : State :=
  { s.setClient c { s.clients c with pc := .receive ph } with
    net := s.net.sendRequest (s.clients c).leader ((s.clients c).request ph) false }

theorem State.clients_sent (s : State) (c : ℕ) (ph : Phase) : (s.sent c ph).clients c =
    (s.clients c).moved (.receive ph) (s.clients c).tries (s.clients c).leader :=
  s.clients_setClient c _

theorem works_send (cfg : Config) (hpc : (s.clients c).pc = .send ph) :
    Works cfg c s (s.sent c ph) :=
  .of_step (a := .send c false) ⟨rfl, rfl⟩ (by simp only [machine, step, hpc, State.sent])

theorem works_timeout (cfg : Config) (hpc : (s.clients c).pc = .receive ph) : Works cfg c s
    (s.setClient c ((s.clients c).retry ph cfg.initialLeader)) :=
  .of_step (a := .timeout c cfg.initialLeader) rfl
    (by simp only [machine, step, hpc, if_pos cfg.initialLeader_lt])

theorem works_wake (hwake : (s.clients c).wake cfg = some cl) : Works cfg c s (s.setClient c cl) :=
  .of_step (a := .wake c) rfl (by simp only [machine, step, hwake, Option.map_some])

/-- The state after client `c` has taken a reply of the leader, `rest` being left, and goes on as
`cl`. -/
def State.took (cfg : Config) (s : State) (c : ℕ) (rest : List Response) (cl : Client) : State :=
  { s.setClient c cl with
    net := { s.net with replies := setChannel s.net.replies c cfg.initialLeader rest } }

theorem State.replies_took (cfg : Config) (s : State) (c : ℕ) (rest : List Response) (cl : Client) :
    (s.took cfg c rest cl).net.replies c cfg.initialLeader = rest := setChannel_self ..

theorem works_receive {msg : Response} {rest : List Response} (hpc : (s.clients c).pc = .receive ph)
    (hreply : s.net.replies c cfg.initialLeader = msg :: rest) : Works cfg c s
    (s.took cfg c rest ((s.clients c).receive cfg c ph msg cfg.initialLeader)) :=
  .of_step (a := .receive c cfg.initialLeader cfg.initialLeader) ⟨rfl, rfl⟩ (by
    simp only [machine, step, hpc, Network.takeReply, hreply, if_pos cfg.initialLeader_lt,
      State.took])

theorem works_handle {tr : Steps} {sh : Shared} (h : Simulates cfg tr s sh) {req : Request}
    {rest : List Request} (hreq : s.net.requests c cfg.initialLeader = req :: rest) : Works cfg c s
    { s with
      net := answered cfg s c rest ((s.net.heap cfg.initialLeader).processReq req).2
        ((s.net.heap cfg.initialLeader).processReq req).1 false } := by
  have hindex : ¬ (s.net.replicas cfg.initialLeader).index ≠
      (s.net.replicas cfg.initialLeader).leaderIndex := by
    rw [h.index, h.leaderIndex]
    exact not_not_intro rfl
  refine .of_step (a := .handle cfg.initialLeader c false) ⟨rfl, rfl, rfl⟩ ?_
  simp only [machine, step, if_pos cfg.initialLeader_lt, Network.run, hreq, if_neg hindex,
    Option.map_some]
  rfl

/-! ## Finding the leader -/

/-- One more attempt: the client has turned to the leader, or it sends to the same replica. -/
theorem works_attempt (cfg : Config) (hcl : s.clients c = cl.moved (.receive ph) t l) : ∃ s', Works cfg c s s' ∧
    (s'.clients c = cl.moved (.send ph) ((t + 1) % 2 ^ 32) cfg.initialLeader ∨
      t % 3 ≠ 2 ∧ s'.clients c = cl.moved (.receive ph) ((t + 1) % 2 ^ 32) l) := by
  have hpc : (s.clients c).pc = .receive ph := by rw [hcl]; rfl
  have htimeout := works_timeout cfg hpc
  have hretry : (s.clients c).retry ph cfg.initialLeader =
      cl.moved (.send ph) ((t + 1) % 2 ^ 32) (if t % 3 = 2 then cfg.initialLeader else l) := by
    rw [hcl]
    rfl
  rw [hretry] at htimeout
  by_cases ht : t % 3 = 2
  · rw [if_pos ht] at htimeout
    exact ⟨_, htimeout, .inl (s.clients_setClient c _)⟩
  · rw [if_neg ht] at htimeout
    have hclient := s.clients_setClient c (cl.moved (.send ph) ((t + 1) % 2 ^ 32) l)
    have hsend : ((s.setClient c (cl.moved (.send ph) ((t + 1) % 2 ^ 32) l)).clients c).pc =
        .send ph := by
      rw [hclient]
      rfl
    refine ⟨_, htimeout.trans (works_send cfg hsend), .inr ⟨ht, ?_⟩⟩
    rw [State.clients_sent, hclient]
    rfl

/-- Up to two more attempts, as long as the counter does not wrap round. -/
theorem works_to_leader_of_add (cfg : Config) (k : ℕ) (hk : (t + k) % 3 = 2) (hlt : t + k < 2 ^ 32)
    (hcl : s.clients c = cl.moved (.receive ph) t l) : ∃ s' t', Works cfg c s s' ∧
      s'.clients c = cl.moved (.send ph) t' cfg.initialLeader := by
  induction k generalizing s t with
  | zero =>
    obtain ⟨s', hs', hsend | ⟨hne, -⟩⟩ := works_attempt cfg hcl
    · exact ⟨s', _, hs', hsend⟩
    · exact absurd hk hne
  | succ k ih =>
    obtain ⟨s₁, hs₁, hsend | ⟨-, hreceive⟩⟩ := works_attempt cfg hcl
    · exact ⟨s₁, _, hs₁, hsend⟩
    · rw [Nat.mod_eq_of_lt (by omega)] at hreceive
      obtain ⟨s', t', hs', hsend⟩ := ih (t := t + 1) (by omega) (by omega) hreceive
      exact ⟨s', t', hs₁.trans hs', hsend⟩

/-- **Every third attempt may go to the leader**, also when the counter wraps round. -/
theorem works_to_leader_of_receive (cfg : Config) (hcl : s.clients c = cl.moved (.receive ph) t l) :
    ∃ s' t', Works cfg c s s' ∧ s'.clients c = cl.moved (.send ph) t' cfg.initialLeader := by
  obtain ⟨s₁, hs₁, hsend | ⟨-, hreceive⟩⟩ := works_attempt cfg hcl
  · exact ⟨s₁, _, hs₁, hsend⟩
  generalize ht₁ : (t + 1) % 2 ^ 32 = t₁ at hreceive
  by_cases hlast : t₁ = 2 ^ 32 - 1
  · -- the next attempt is counted as the first
    obtain ⟨s₂, hs₂, hsend | ⟨-, hreceive⟩⟩ := works_attempt cfg hreceive
    · exact ⟨s₂, _, hs₁.trans hs₂, hsend⟩
    · rw [hlast] at hreceive
      obtain ⟨s', t', hs', hsend⟩ := works_to_leader_of_add cfg 2 (by decide) (by decide) hreceive
      exact ⟨s', t', (hs₁.trans hs₂).trans hs', hsend⟩
  · obtain ⟨k, hk, hlt⟩ : ∃ k, (t₁ + k) % 3 = 2 ∧ t₁ + k < 2 ^ 32 :=
      ⟨(5 - t₁ % 3) % 3, by omega, by omega⟩
    obtain ⟨s', t', hs', hsend⟩ := works_to_leader_of_add cfg k hk hlt hreceive
    exact ⟨s', t', hs₁.trans hs', hsend⟩

/-- Wherever a client in the loop of a step sends its requests, it can turn to the leader. -/
theorem works_to_leader (cfg : Config) (hpc : (s.clients c).pc = .send ph ∨ (s.clients c).pc = .receive ph) :
    ∃ s' t', Works cfg c s s' ∧
      s'.clients c = (s.clients c).moved (.send ph) t' cfg.initialLeader := by
  rcases hpc with hpc | hpc
  · obtain ⟨s', t', hs', hcl⟩ := works_to_leader_of_receive cfg (s.clients_sent c ph)
    exact ⟨s', t', (works_send cfg hpc).trans hs', hcl⟩
  · exact works_to_leader_of_receive cfg (t := (s.clients c).tries) (l := (s.clients c).leader)
      (by rw [← hpc]; rfl)

/-! ## Getting an answer -/

theorem Answers.kind {m : Store} {cl : Client} {ph : Phase} {resp : Response}
    (h : Answers m cl ph resp) : resp.kind = some ph.kind := by
  cases ph <;> cases resp <;> first | rfl | exact h.elim

theorem receive_of_accepted {cl : Client} {resp : Response} (hserial : resp.messageSerial = cl.serial)
    (hkind : resp.kind = some ph.kind) (randomReplica : ℕ) :
    cl.receive cfg c ph resp randomReplica = cl.onResponse cfg c ph resp := by
  have haccepted : receiveResponse ph.kind cl.serial resp = .accepted resp := by
    unfold receiveResponse
    rw [if_neg (not_not_intro hserial)]
    cases resp with
    | redirection resp => cases hkind
    | _ => exact if_pos hkind
  rw [Client.receive, haccepted]

/-- The leader can handle all requests of a client and answers each of them. -/
theorem works_handle_all {tr : Steps} (htr : (machine cfg).Trace tr s) : ∃ s', Works cfg c s s' ∧
    s'.clients = s.clients ∧ ∀ req ∈ s.net.requests c cfg.initialLeader,
      ∃ resp ∈ s'.net.replies c cfg.initialLeader,
        resp.messageSerial = req.messageSerial ∧ resp.kind = some req.kind := by
  -- the replies that are there stay
  suffices h : ∃ s', Works cfg c s s' ∧ s'.clients = s.clients ∧
      (∀ resp ∈ s.net.replies c cfg.initialLeader, resp ∈ s'.net.replies c cfg.initialLeader) ∧
      ∀ req ∈ s.net.requests c cfg.initialLeader, ∃ resp ∈ s'.net.replies c cfg.initialLeader,
        resp.messageSerial = req.messageSerial ∧ resp.kind = some req.kind by
    obtain ⟨s', hs', hclients, -, hanswers⟩ := h
    exact ⟨s', hs', hclients, hanswers⟩
  induction hreqs : s.net.requests c cfg.initialLeader generalizing s tr with
  | nil => exact ⟨s, .refl, rfl, fun _ h => h, fun req hreq => by cases hreq⟩
  | cons req rest ih =>
    obtain ⟨sh, hsim, -⟩ := locking_of_trace htr
    have hhandle := works_handle (c := c) hsim hreqs
    obtain ⟨tr₁, htr₁⟩ := htr.of_reaches hhandle
    have hview := view_answered_self cfg s c rest
      ((s.net.heap cfg.initialLeader).processReq req).2
      ((s.net.heap cfg.initialLeader).processReq req).1 false
    obtain ⟨s', hs', hclients, hkept, hanswers⟩ := ih htr₁ (congrArg View.requests hview)
    have hreplies : ∀ resp ∈ s.net.replies c cfg.initialLeader ++
        [((s.net.heap cfg.initialLeader).processReq req).1],
        resp ∈ s'.net.replies c cfg.initialLeader := by
      intro resp hresp
      refine hkept resp ?_
      rw [show (answered cfg s c rest _ _ false).replies c cfg.initialLeader = _ from
        congrArg View.replies hview]
      exact hresp
    refine ⟨s', hhandle.trans hs', hclients,
      fun resp hresp => hreplies resp (List.mem_append_left _ hresp), fun q hq => ?_⟩
    rcases List.mem_cons.mp hq with rfl | hq
    · exact ⟨_, hreplies _ (List.mem_append_right _ (List.mem_singleton_self _)),
        Heap.messageSerial_processReq _ q, Heap.kind_processReq _ q⟩
    · exact hanswers q hq

/-- Once it sends to the leader, a client gets an answer to its current request. -/
theorem works_to_answer {tr : Steps} (htr : (machine cfg).Trace tr s)
    (hpc : (s.clients c).pc = .send ph ∨ (s.clients c).pc = .receive ph) : ∃ s' t' l',
      Works cfg c s s' ∧ s'.clients c = (s.clients c).moved (.receive ph) t' l' ∧
      ∃ resp ∈ s'.net.replies c cfg.initialLeader,
        resp.messageSerial = (s.clients c).serial ∧ resp.kind = some ph.kind := by
  obtain ⟨s₁, t', hs₁, hsend⟩ := works_to_leader cfg hpc
  have hs₂ : Works cfg c s₁ (s₁.sent c ph) := works_send cfg (by rw [hsend]; rfl)
  obtain ⟨tr₂, htr₂⟩ := htr.of_reaches (hs₁.trans hs₂)
  obtain ⟨s', hs', hclients, hanswers⟩ := works_handle_all (c := c) htr₂
  have hclient : s'.clients c =
      (s.clients c).moved (.receive ph) t' cfg.initialLeader := by
    rw [hclients, State.clients_sent, hsend]
    rfl
  have hmem : (s₁.clients c).request ph ∈ (s₁.sent c ph).net.requests c cfg.initialLeader := by
    obtain ⟨tr₁, htr₁⟩ := htr.of_reaches hs₁
    obtain ⟨sh, hsim, -⟩ := locking_of_trace htr₁
    have hc : c < cfg.nclients := hsim.lt_nclients (by rw [hsend]; exact Pc.noConfusion)
    have hleader : (s₁.clients c).leader = cfg.initialLeader := by rw [hsend]; rfl
    simp [State.sent, State.setClient, Network.sendRequest, hsim.serial c hc, hleader]
  obtain ⟨resp, hresp, hserial, hkind⟩ := hanswers _ hmem
  refine ⟨s', t', _, (hs₁.trans hs₂).trans hs', hclient, resp, hresp, ?_, ?_⟩
  · rw [hserial, Client.messageSerial_request, hsend]
    rfl
  · rw [hkind]
    cases ph <;> rfl

/-- What stands before the answer is dropped, if it is not an answer itself. -/
theorem works_to_accept {tr : Steps} (htr : (machine cfg).Trace tr s)
    (hpc : (s.clients c).pc = .receive ph) {resp : Response}
    (hresp : resp ∈ s.net.replies c cfg.initialLeader)
    (hserial : resp.messageSerial = (s.clients c).serial) : ∃ s' resp' rest,
      Works cfg c s s' ∧ s'.clients = s.clients ∧
      s'.net.replies c cfg.initialLeader = resp' :: rest ∧
      resp'.messageSerial = (s.clients c).serial ∧ resp'.kind = some ph.kind := by
  induction hreplies : s.net.replies c cfg.initialLeader generalizing s tr with
  | nil =>
    rw [hreplies] at hresp
    cases hresp
  | cons msg rest ih =>
    by_cases hmsg : msg.messageSerial = (s.clients c).serial
    · obtain ⟨sh, -, hlocking⟩ := locking_of_trace htr
      have hbusy : Busy c sh.store (s.view cfg c) ph :=
        (hlocking.client c).busy (congrArg Pc.mode hpc)
      have hmem : msg ∈ (s.view cfg c).replies := by
        rw [State.view, hreplies]
        exact List.mem_cons_self
      exact ⟨s, msg, rest, .refl, rfl, hreplies, hmsg, (hbusy.answers msg hmem hmsg).kind⟩
    · -- an answer to an earlier request
      have hreceive := works_receive hpc hreplies
      have hstale : (s.clients c).receive cfg c ph msg cfg.initialLeader = s.clients c := by
        unfold Client.receive receiveResponse
        rw [if_pos hmsg]
      rw [hstale] at hreceive
      obtain ⟨tr₁, htr₁⟩ := htr.of_reaches hreceive
      have hclients : (s.took cfg c rest (s.clients c)).clients = s.clients :=
        Function.update_eq_self ..
      have hrest := s.replies_took cfg c rest (s.clients c)
      have hmem : resp ∈ rest := by
        rw [hreplies] at hresp
        exact (List.mem_cons.mp hresp).resolve_left fun heq => hmsg (heq ▸ hserial)
      obtain ⟨s', resp', rest', hs', hclients', hreplies', hserial', hkind⟩ :=
        ih htr₁ (by rw [hclients, hpc]) (by rw [hrest]; exact hmem) (by rw [hclients, hserial]) hrest
      rw [hclients] at hclients' hserial'
      exact ⟨s', resp', rest', hreceive.trans hs', hclients', hreplies', hserial', hkind⟩

/-- **The client accepts an answer** and does what the protocol says, while the leader's database is
one of which the answer is true. -/
theorem works_to_reaction {tr : Steps} (htr : (machine cfg).Trace tr s)
    (hpc : (s.clients c).pc = .send ph ∨ (s.clients c).pc = .receive ph) : ∃ s' t' l' m resp,
      Works cfg c s s' ∧ (s'.net.heap cfg.initialLeader).Refines m ∧
      Answers m ((s.clients c).moved (.receive ph) t' l') ph resp ∧
      Reacts cfg c m ((s.clients c).moved (.receive ph) t' l') ph resp (s'.clients c) := by
  obtain ⟨s₁, t', l', hs₁, hclient, resp, hresp, hserial, -⟩ := works_to_answer htr hpc
  obtain ⟨tr₁, htr₁⟩ := htr.of_reaches hs₁
  have hpc₁ : (s₁.clients c).pc = .receive ph := by rw [hclient]; rfl
  obtain ⟨s₂, resp', rest, hs₂, hclients, hreplies, hserial', hkind⟩ :=
    works_to_accept htr₁ hpc₁ hresp (by rw [hclient]; exact hserial)
  obtain ⟨tr₂, htr₂⟩ := htr.of_reaches (hs₁.trans hs₂)
  have hpc₂ : (s₂.clients c).pc = .receive ph := by rw [hclients, hpc₁]
  rw [← hclients] at hserial'
  obtain ⟨sh, hsim, hlocking⟩ := locking_of_trace htr₂
  have hbusy : Busy c sh.store (s₂.view cfg c) ph := (hlocking.client c).busy (congrArg Pc.mode hpc₂)
  have hmem : resp' ∈ (s₂.view cfg c).replies := by
    rw [State.view, hreplies]
    exact List.mem_cons_self
  have hloc : s₂.clients c = (s.clients c).moved (.receive ph) t' l' := by rw [hclients, hclient]
  refine ⟨_, t', l', sh.store, resp', (hs₁.trans hs₂).trans (works_receive hpc₂ hreplies), hsim.heap,
    ?_, ?_⟩
  · rw [← hloc]
    exact hbusy.answers resp' hmem hserial'
  · rw [State.took, State.clients_setClient, receive_of_accepted hserial' hkind, ← hloc]
    exact hbusy.reacts hmem hserial'

/-! ## How far a sequence has come -/

/-- The client has not run past the end of its loops. -/
structure Client.OnTrack (cfg : Config) (cl : Client) : Prop where
  write : cl.pc.mode = .busy .write → cl.n < cl.nvalues
  clear : cl.pc.mode = .busy .clear → cl.n < cfg.maxSequenceLength
  pause : ∀ ph, cl.pc = .pause ph → ph = .write ∧ cl.n ≤ cl.nvalues ∨ ph = .clear

namespace Client.OnTrack

variable {cl' : Client}

theorem of_busy (hmode : cl'.pc.mode = .busy ph) (hwrite : ph = .write → cl'.n < cl'.nvalues)
    (hclear : ph = .clear → cl'.n < cfg.maxSequenceLength) : cl'.OnTrack cfg where
  write := fun hm => hwrite (Mode.busy.inj (hmode.symm.trans hm))
  clear := fun hm => hclear (Mode.busy.inj (hmode.symm.trans hm))
  pause := fun ph' hpc => by
    rw [hpc] at hmode
    cases hmode

/-- Elsewhere in the loop of the step. -/
theorem loop (h : cl.OnTrack cfg) (hmode : cl.pc.mode = .busy ph) (hmode' : cl'.pc.mode = .busy ph)
    (hn : cl'.n = cl.n) (hnvalues : cl'.nvalues = cl.nvalues) : cl'.OnTrack cfg :=
  of_busy hmode' (fun hph => by rw [hn, hnvalues]; exact h.write (by rw [hmode, hph]))
    fun hph => by rw [hn]; exact h.clear (by rw [hmode, hph])

theorem idle (hpc : cl'.pc = .delay) : cl'.OnTrack cfg where
  write := fun hm => by rw [hpc] at hm; cases hm
  clear := fun hm => by rw [hpc] at hm; cases hm
  pause := fun ph hph => by rw [hpc] at hph; cases hph

theorem rest (hpc : cl'.pc = .pause ph) (hph : ph = .write ∧ cl'.n ≤ cl'.nvalues ∨ ph = .clear) :
    cl'.OnTrack cfg where
  write := fun hm => by rw [hpc] at hm; cases hm
  clear := fun hm => by rw [hpc] at hm; cases hm
  pause := fun ph' hpc' => Pc.pause.inj (hpc.symm.trans hpc') ▸ hph

theorem clearLoop (cfg : Config) (cl : Client) : (cl.clearLoop cfg).OnTrack cfg := by
  rw [Client.clearLoop]
  split
  · next hlt => exact of_busy rfl (fun hph => by cases hph) fun _ => hlt
  · exact of_busy rfl (fun hph => by cases hph) fun hph => by cases hph

theorem writeLoop (cfg : Config) (hn : cl.n ≤ cl.nvalues) : (cl.writeLoop cfg).OnTrack cfg := by
  rw [Client.writeLoop]
  split
  · next hne =>
    exact of_busy rfl (fun _ => Nat.lt_of_le_of_ne hn hne) fun hph => by cases hph
  · exact clearLoop cfg cl

theorem onResponse (h : cl.OnTrack cfg) (hpc : cl.pc = .receive ph) (resp : Response) :
    (cl.onResponse cfg c ph resp).OnTrack cfg := by
  have hmode : cl.pc.mode = .busy ph := congrArg Pc.mode hpc
  unfold Client.onResponse
  split
  · unfold Client.onLock
    split
    · exact writeLoop cfg (Nat.zero_le _)
    split
    · exact h.loop hmode rfl rfl rfl
    split
    · exact writeLoop cfg (Nat.zero_le _)
    split
    · exact h.loop hmode rfl rfl rfl
    · exact h.loop hmode rfl rfl rfl
  · unfold Client.onWrite
    split
    · exact h.loop hmode rfl rfl rfl
    · exact rest rfl (.inl ⟨rfl, h.write hmode⟩)
  · unfold Client.onClear
    split
    · exact rest rfl (.inr rfl)
    split
    · exact h.loop hmode rfl rfl rfl
    split
    · exact of_busy rfl (fun hph => by cases hph) fun hph => by cases hph
    · exact rest rfl (.inr rfl)
  · unfold Client.onUnlock
    split
    · exact h.loop hmode rfl rfl rfl
    · exact idle rfl
  · exact h

theorem acted {a : Action} (h : (s.clients c).OnTrack cfg) (hacted : Acted cfg s c a cl') :
    cl'.OnTrack cfg := by
  cases hacted with
  | nothing => exact h
  | begin hpc => exact of_busy rfl (fun hph => by cases hph) fun hph => by cases hph
  | send hpc => exact h.loop (congrArg Pc.mode hpc) rfl rfl rfl
  | timeout hpc => exact h.loop (congrArg Pc.mode hpc) rfl rfl rfl
  | receive hpc =>
    unfold Client.receive
    split
    · exact h
    · exact h.loop (congrArg Pc.mode hpc) rfl rfl rfl
    · exact h.onResponse hpc _
    · exact h.loop (congrArg Pc.mode hpc) rfl rfl rfl
  | wake hwake =>
    unfold Client.wake at hwake
    split at hwake
    · next hpc =>
      obtain rfl := Option.some.inj hwake
      exact h.loop (congrArg Pc.mode hpc) rfl rfl rfl
    · next hpc =>
      obtain rfl := Option.some.inj hwake
      rcases h.pause _ hpc with ⟨-, hn⟩ | hph
      · exact writeLoop cfg hn
      · cases hph
    · obtain rfl := Option.some.inj hwake
      exact clearLoop cfg _
    · cases hwake

end Client.OnTrack

theorem onTrack_of_trace {tr : Steps} (htr : (machine cfg).Trace tr s) (c : ℕ) :
    (s.clients c).OnTrack cfg :=
  htr.invariant (I := fun _ s => (s.clients c).OnTrack cfg) (.idle rfl)
    fun _ _ _ _ h hstep => h.acted (acted_of_step hstep c)

/-- What is left to do of a sequence whose lock is held. -/
def Client.work (cfg : Config) (cl : Client) : ℕ :=
  match cl.pc with
  | .pause .write => 2 * (cl.nvalues - cl.n + cfg.maxSequenceLength) + 3
  | .send .write => 2 * (cl.nvalues - cl.n + cfg.maxSequenceLength) + 2
  | .receive .write => 2 * (cl.nvalues - cl.n + cfg.maxSequenceLength) + 2
  | .pause .clear => 2 * (cfg.maxSequenceLength - cl.n) + 2
  | .send .clear => 2 * (cfg.maxSequenceLength - cl.n) + 1
  | .receive .clear => 2 * (cfg.maxSequenceLength - cl.n) + 1
  | _ => 0

/-- The client has the lock of the group `gid` under the value `x`, and goes on. -/
structure Client.Holding (cl : Client) (gid : ℕ) (x : Str) : Prop where
  lock : Phase.lock ∈ cl.pc.behind
  alive : ∀ ph e, cl.pc ≠ .thrown ph e
  gid_eq : cl.gid = gid
  value_eq : cl.value = x

theorem Client.work_clearLoop (cfg : Config) (cl : Client) :
    (cl.clearLoop cfg).work cfg ≤ 2 * (cfg.maxSequenceLength - cl.n) + 1 := by
  rw [Client.clearLoop]
  split
  · exact Nat.le_refl _
  · exact Nat.zero_le _

theorem Client.work_writeLoop (cfg : Config) (cl : Client) :
    (cl.writeLoop cfg).work cfg ≤ 2 * (cl.nvalues - cl.n + cfg.maxSequenceLength) + 2 := by
  rw [Client.writeLoop]
  split
  · exact Nat.le_refl _
  · have := cl.work_clearLoop cfg
    omega

theorem Phase.lock_mem_before (h : ph ≠ .lock) : Phase.lock ∈ ph.before := by
  cases ph with
  | lock => exact absurd rfl h
  | write => decide
  | clear => decide
  | unlock => decide

section Holding

variable {gid : ℕ} {x : Str}

theorem Client.Holding.send (hpc : cl.pc = .send ph) (hph : ph ≠ .lock) (hgid : cl.gid = gid)
    (hvalue : cl.value = x) : cl.Holding gid x where
  lock := by rw [hpc]; exact Phase.lock_mem_before hph
  alive := fun ph' e h => by rw [hpc] at h; cases h
  gid_eq := hgid
  value_eq := hvalue

theorem Client.Holding.pause (hpc : cl.pc = .pause ph) (hph : ph ≠ .lock) (hgid : cl.gid = gid)
    (hvalue : cl.value = x) : cl.Holding gid x where
  lock := by rw [hpc]; exact Phase.lock_mem_before hph
  alive := fun ph' e h => by rw [hpc] at h; cases h
  gid_eq := hgid
  value_eq := hvalue

theorem Client.Holding.clearLoop (cfg : Config) (hgid : cl.gid = gid) (hvalue : cl.value = x) :
    (cl.clearLoop cfg).Holding gid x := by
  rw [Client.clearLoop]
  split
  · exact .send rfl (by decide) hgid hvalue
  · exact .send rfl (by decide) hgid hvalue

theorem Client.Holding.writeLoop (cfg : Config) (hgid : cl.gid = gid) (hvalue : cl.value = x) :
    (cl.writeLoop cfg).Holding gid x := by
  rw [Client.writeLoop]
  split
  · exact .send rfl (by decide) hgid hvalue
  · exact .clearLoop cfg hgid hvalue

/-- The client's sequence is over, and it has not the lock of the group `gid` under the value `x`. -/
structure GivenBack (cfg : Config) (c gid : ℕ) (x : Str) (s : State) : Prop where
  ended : (s.clients c).pc = .delay ∨ ∃ e, (s.clients c).pc = .thrown .unlock e
  free : ∀ v, (s.net.replicas cfg.initialLeader).db.db[makeLockKey gid]? = some v → v.value ≠ x

theorem givenBack_of_released {m : Store} (r : (s.net.heap cfg.initialLeader).Refines m)
    (hreleased : Released m cl) (hgid : cl.gid = gid) (hvalue : cl.value = x)
    (hended : (s.clients c).pc = .delay ∨ ∃ e, (s.clients c).pc = .thrown .unlock e) :
    GivenBack cfg c gid x s := by
  refine ⟨hended, fun v hv hx => ?_⟩
  have hentry : (s.net.heap cfg.initialLeader).self.db[makeLockKey gid]? = some v := hv
  rw [r.db, Option.map_eq_some_iff] at hentry
  obtain ⟨e, he, rfl⟩ := hentry
  refine hreleased.not_owns e.stamp ?_
  rw [Owns, hgid, he, hvalue, ← hx]
  rfl

/-- **One step further**: the sequence comes to its end, or less of it is left. -/
theorem works_on {tr : Steps} (htr : (machine cfg).Trace tr s) (h : (s.clients c).Holding gid x) :
    ∃ s', Works cfg c s s' ∧ (GivenBack cfg c gid x s' ∨
      (s'.clients c).Holding gid x ∧ (s'.clients c).work cfg < (s.clients c).work cfg) := by
  have htrack := onTrack_of_trace htr c
  have hloop : ∀ ph, (s.clients c).pc = .send ph ∨ (s.clients c).pc = .receive ph →
      ∃ s', Works cfg c s s' ∧ (GivenBack cfg c gid x s' ∨
        (s'.clients c).Holding gid x ∧ (s'.clients c).work cfg < (s.clients c).work cfg) := by
    intro ph hpc
    have hlock : ph ≠ .lock := by
      rintro rfl
      rcases hpc with hpc | hpc <;> exact absurd (hpc ▸ h.lock) List.not_mem_nil
    have hmode : (s.clients c).pc.mode = .busy ph := by rcases hpc with hpc | hpc <;> rw [hpc] <;> rfl
    obtain ⟨s', t', l', m, resp, hs', r, hanswers, hreacts⟩ := works_to_reaction htr hpc
    refine ⟨s', hs', ?_⟩
    generalize hcl' : s'.clients c = cl' at hreacts
    cases hreacts with
    | obtained => exact absurd rfl hlock
    | refused => exact absurd rfl hlock
    | delayed => exact absurd rfl hlock
    | written =>
      have hn := htrack.write hmode
      have hwork : (s.clients c).work cfg =
          2 * ((s.clients c).nvalues - (s.clients c).n + cfg.maxSequenceLength) + 2 := by
        rcases hpc with hpc | hpc <;> rw [Client.work, hpc]
      refine .inr ⟨.pause rfl (by decide) h.gid_eq h.value_eq, ?_⟩
      rw [hwork]
      simp only [Client.work, Client.moved]
      omega
    | cleared =>
      have hn := htrack.clear hmode
      have hwork : (s.clients c).work cfg =
          2 * (cfg.maxSequenceLength - (s.clients c).n) + 1 := by
        rcases hpc with hpc | hpc <;> rw [Client.work, hpc]
      refine .inr ⟨.pause rfl (by decide) h.gid_eq h.value_eq, ?_⟩
      rw [hwork]
      simp only [Client.work, Client.moved]
      omega
    | ended =>
      have hwork : (s.clients c).work cfg =
          2 * (cfg.maxSequenceLength - (s.clients c).n) + 1 := by
        rcases hpc with hpc | hpc <;> rw [Client.work, hpc]
      refine .inr ⟨.send rfl (by decide) h.gid_eq h.value_eq, ?_⟩
      rw [hwork]
      exact Nat.succ_pos _
    | failed =>
      exact .inl (givenBack_of_released r hanswers h.gid_eq h.value_eq (.inr ⟨_, by rw [hcl']⟩))
    | released hreleased =>
      exact .inl (givenBack_of_released r hreleased h.gid_eq h.value_eq (.inl (by rw [hcl'])))
  cases hpc : (s.clients c).pc with
  | delay => exact absurd (hpc ▸ h.lock) List.not_mem_nil
  | backoff => exact absurd (hpc ▸ h.lock) List.not_mem_nil
  | thrown ph e => exact absurd hpc (h.alive ph e)
  | send ph => exact hloop ph (.inl hpc)
  | receive ph => exact hloop ph (.inr hpc)
  | pause ph =>
    rcases htrack.pause ph hpc with ⟨rfl, -⟩ | rfl
    · have hwake : (s.clients c).wake cfg = some ((s.clients c).writeLoop cfg) := by
        rw [Client.wake, hpc]
      have hwork : (s.clients c).work cfg =
          2 * ((s.clients c).nvalues - (s.clients c).n + cfg.maxSequenceLength) + 3 := by
        rw [Client.work, hpc]
      refine ⟨_, works_wake hwake, .inr ?_⟩
      rw [State.clients_setClient, hwork]
      exact ⟨.writeLoop cfg h.gid_eq h.value_eq,
        Nat.lt_succ_of_le ((s.clients c).work_writeLoop cfg)⟩
    · have hwake : (s.clients c).wake cfg = some ((s.clients c).clearLoop cfg) := by
        rw [Client.wake, hpc]
      have hwork : (s.clients c).work cfg =
          2 * (cfg.maxSequenceLength - (s.clients c).n) + 2 := by
        rw [Client.work, hpc]
      refine ⟨_, works_wake hwake, .inr ?_⟩
      rw [State.clients_setClient, hwork]
      exact ⟨.clearLoop cfg h.gid_eq h.value_eq,
        Nat.lt_succ_of_le ((s.clients c).work_clearLoop cfg)⟩

end Holding

/-- **A lock can be given back**: a client that has obtained the lock of its group and has not thrown
can bring its sequence to an end with the leader alone. -/
theorem works_to_givenBack {tr : Steps} (htr : (machine cfg).Trace tr s)
    (hlock : Phase.lock ∈ (s.clients c).pc.behind) (halive : ∀ ph e, (s.clients c).pc ≠ .thrown ph e) :
    ∃ s', Works cfg c s s' ∧ GivenBack cfg c (s.clients c).gid (s.clients c).value s' := by
  refine Machine.exists_reaches
    (I := fun s' => (∃ tr', (machine cfg).Trace tr' s') ∧
      (s'.clients c).Holding (s.clients c).gid (s.clients c).value)
    (fun s' => (s'.clients c).work cfg) ?_ ⟨⟨tr, htr⟩, hlock, halive, rfl, rfl⟩
  rintro s₁ ⟨⟨tr₁, htr₁⟩, hholding⟩
  obtain ⟨s', hs', hback | ⟨hholding', hlt⟩⟩ := works_on htr₁ hholding
  · exact ⟨s', hs', .inl hback⟩
  · exact ⟨s', hs', .inr ⟨⟨htr₁.of_reaches hs', hholding'⟩, hlt⟩⟩

/-- The other clients are not concerned. -/
theorem clients_of_works {d : ℕ} (hd : d ≠ c) {s' : State} (h : Works cfg c s s') :
    s'.clients d = s.clients d := by
  induction h with
  | refl => rfl
  | @tail s₁ s' _ hlast ih =>
    obtain ⟨a, hok, hstep⟩ := hlast
    have hacted : Acted cfg s₁ d a (s'.clients d) := acted_of_step hstep d
    generalize s'.clients d = cl at hacted ⊢
    rw [← ih]
    cases hacted with
    | nothing => rfl
    | begin => exact hok.elim
    | send => exact absurd hok.1 hd
    | timeout => exact absurd hok hd
    | receive => exact absurd hok.1 hd
    | wake => exact absurd hok hd

/-- In a sequence, a client that has not obtained the lock yet is in the lock phase. -/
theorem mode_of_not_behind (htrack : cl.OnTrack cfg) (hmode : cl.pc.mode ≠ .idle)
    (hlock : Phase.lock ∉ cl.pc.behind) : cl.pc.mode = .busy .lock := by
  have hphase : ∀ ph : Phase, cl.pc.behind = ph.before → ph = .lock := by
    intro ph hbehind
    by_contra hph
    exact hlock (hbehind ▸ Phase.lock_mem_before hph)
  cases hpc : cl.pc with
  | delay => exact absurd (congrArg Pc.mode hpc) hmode
  | backoff => rfl
  | pause ph =>
    obtain rfl := hphase ph (by rw [hpc]; rfl)
    rcases htrack.pause .lock hpc with ⟨h, -⟩ | h <;> cases h
  | send ph =>
    obtain rfl := hphase ph (by rw [hpc]; rfl)
    rfl
  | receive ph =>
    obtain rfl := hphase ph (by rw [hpc]; rfl)
    rfl
  | thrown ph e =>
    obtain rfl := hphase ph (by rw [hpc]; rfl)
    rfl

end Works

/-- The client does not hold a lock, or has thrown. -/
def Client.AtRest (cl : Client) : Prop :=
  Phase.lock ∈ cl.pc.behind → ∃ ph e, cl.pc = .thrown ph e

/-- The clients below a number have worked one after the other, each with the leader alone, from `s`
on. -/
inductive InTurn (cfg : Config) (s : State) : ℕ → State → Prop
  | nobody : InTurn cfg s 0 s
  | next {c : ℕ} {s₁ s' : State} (before : InTurn cfg s c s₁) (works : Works cfg c s₁ s') :
    InTurn cfg s (c + 1) s'

theorem InTurn.reaches {cfg : Config} {s s' : State} {k : ℕ} (h : InTurn cfg s k s') :
    (machine cfg).Reaches (fun a => ∃ c, OwnWork cfg c a) s s' := by
  induction h with
  | nobody => exact .refl
  | next _ hworks ih => exact ih.trans (hworks.mono fun a ha => ⟨_, ha⟩)

/-- The next client comes to rest, and leaves those before it alone. -/
theorem InTurn.exists_next {cfg : Config} {tr : Steps} {s s₁ : State} {k : ℕ}
    (htr : (machine cfg).Trace tr s) (h : InTurn cfg s k s₁)
    (hrest : ∀ c < k, (s₁.clients c).AtRest) :
    ∃ s', InTurn cfg s (k + 1) s' ∧ ∀ c < k + 1, (s'.clients c).AtRest := by
  by_cases hk : (s₁.clients k).AtRest
  · refine ⟨s₁, h.next .refl, fun c hc => ?_⟩
    rcases Nat.lt_succ_iff_lt_or_eq.mp hc with hc | rfl
    · exact hrest c hc
    · exact hk
  · obtain ⟨hlock, hthrown⟩ := Classical.not_imp.mp hk
    obtain ⟨tr₁, htr₁⟩ := htr.of_reaches h.reaches
    obtain ⟨s', hs', hback⟩ := works_to_givenBack (c := k) htr₁ hlock fun ph e h => hthrown ⟨ph, e, h⟩
    refine ⟨s', h.next hs', fun c hc hbehind => ?_⟩
    rcases Nat.lt_succ_iff_lt_or_eq.mp hc with hc | rfl
    · rw [clients_of_works (Nat.ne_of_lt hc) hs'] at hbehind ⊢
      exact hrest c hc hbehind
    · rcases hback.ended with hpc | ⟨e, hpc⟩
      · rw [hpc] at hbehind
        exact absurd hbehind List.not_mem_nil
      · exact ⟨_, e, hpc⟩

/-- **All locks can be given back**: whatever has happened before, the clients can, each in its turn with
the leader alone and without any message lost, come to where none that has not thrown has a lock; and
then a lock that is taken has the value of a client that has thrown, or of one that is still asking for
it. -/
theorem locks_can_be_released (cfg : Config) (tr : Steps) (s : State)
    (htr : (machine cfg).Trace tr s) :
    ∃ s', InTurn cfg s cfg.nclients s' ∧
      (∀ c, (s'.clients c).AtRest) ∧
      ∀ gid v, (s'.net.replicas cfg.initialLeader).db.db[makeLockKey gid]? = some v →
        ∃ c, (s'.clients c).gid = gid ∧ (s'.clients c).value = v.value ∧
          ((s'.clients c).pc.mode = .busy .lock ∨ ∃ ph e, (s'.clients c).pc = .thrown ph e) := by
  have hfirst : ∀ k, ∃ s', InTurn cfg s k s' ∧ ∀ c < k, (s'.clients c).AtRest := by
    intro k
    induction k with
    | zero => exact ⟨s, .nobody, fun c hc => absurd hc (Nat.not_lt_zero c)⟩
    | succ k ih =>
      obtain ⟨s₁, hs₁, hrest⟩ := ih
      exact hs₁.exists_next htr hrest
  obtain ⟨s', hs', hrest⟩ := hfirst cfg.nclients
  obtain ⟨tr', htr'⟩ := htr.of_reaches hs'.reaches
  obtain ⟨sh, hsim, hlocking⟩ := locking_of_trace htr'
  have hall : ∀ c, (s'.clients c).AtRest := by
    intro c hlock
    by_cases hc : c < cfg.nclients
    · exact hrest c hc hlock
    · rw [hsim.absent c (Nat.le_of_not_lt hc)] at hlock
      exact absurd hlock List.not_mem_nil
  refine ⟨s', hs', hall, fun gid v hv => ?_⟩
  have hentry : (s'.net.heap cfg.initialLeader).self.db[makeLockKey gid]? = some v := hv
  rw [hsim.heap.db, Option.map_eq_some_iff] at hentry
  obtain ⟨e, he, rfl⟩ := hentry
  obtain ⟨c, hmode, hgid, hvalue⟩ := hlocking.owner he
  refine ⟨c, hgid, hvalue, ?_⟩
  by_cases hlock : Phase.lock ∈ (s'.clients c).pc.behind
  · exact .inr (hall c hlock)
  · exact .inl (mode_of_not_behind (onTrack_of_trace htr' c) hmode hlock)

/-- The client has the lock, and its first write was lost. -/
theorem locks_can_be_released_lost_write : ∃ (tr : Steps) (s s' : State),
    (machine (.oneReplica 1 1 1 (by decide) (by decide) (by decide))).Trace tr s ∧
    (s.clients 0).pc = .receive .write ∧ s.net.requests 0 0 = [] ∧
    (s.net.heap 0).self.db[makeLockKey 0]? = some ⟨(s.clients 0).value, 1⟩ ∧
    (s'.clients 0).AtRest := by
  obtain ⟨tr, s, htr, hpc, hreq, hentry⟩ := Machine.exists_trace_of_record
    (M := machine (.oneReplica 1 1 1 (by decide) (by decide) (by decide)))
    [.begin 0 0 5 1, .send 0 false, .handle 0 0 false, .receive 0 0 0, .send 0 true]
    (P := fun _ s => (s.clients 0).pc = .receive .write ∧ s.net.requests 0 0 = [] ∧
      (s.net.heap 0).self.db[makeLockKey 0]? = some ⟨(s.clients 0).value, 1⟩) (by decide)
  obtain ⟨s', -, hrest, -⟩ := locks_can_be_released _ tr s htr
  exact ⟨tr, s, s', htr, hpc, hreq, hentry, hrest 0⟩

end Lockseq

end Traxos
