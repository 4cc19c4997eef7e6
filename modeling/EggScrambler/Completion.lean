import Mathlib
import EggScrambler.Broadcast
import EggScrambler.Service

/-!
# A round can always be completed

`round_completes`: in a cluster of honest clients that agree on the size of messages, and that are
active in the current round, whatever has happened so far, the goroutines, queues and servers can
bring the round to its end by themselves, and all participants to the point where they have read
that end.  There is no deadlock, between whatever is in the channels, the queues and the log.  Calls
of `SubmitOp` may fail, and Raft commits what was submitted; but no flag of a client is written, no
server sends to a channel that is full, and no goroutine runs twice.

The operation that the round needs next comes from a goroutine (`HonestWorld.exists_advances`).  If
that one has run before, the queue may hold an operation of the same rank instead, but not have
finished one: that one would be in the log, and what the log has accepted is still there
(`Logged.not_advances`).
-/

namespace EggScrambler

open StateMachine Transition

/-- Nothing in the deployment keeps a client from taking part: `ProbablyPrime` is exact, assertions
are off, identities differ, nobody else commits operations, and all agree on the size of
messages. -/
structure Deployment.Willing {ι : Type} (D : Deployment ι) : Prop where
  exact : D.env.Exact
  debug : D.env.debug = false
  ids : Function.Injective fun i => (D.clients i).id
  hostile : ∀ op, D.hostile op = false
  size : ∀ i j, (D.clients i).messageSize = (D.clients j).messageSize
  /-- `GenKey` returns. -/
  draws : ∀ (i : ι) (r : ℤ) (mo : Crypto),
    mo.verify D.env ((D.clients i).messageSize + 16) = .ok () →
    mo.genKeys (D.plan.draws (D.clients i).id r) ≠ none

/-- The server can send the next update without waiting: the channel has room for one. -/
def World.Room (w : World) : Prop := w.updCh.getD [] = []

section Schedule

variable {ι : Type} [DecidableEq ι] {D : Deployment ι} {C C₁ C₂ C' : Cluster ι} {r : ℤ}
  {ids : List UUID}

/-- The events to which no user, timer or configuration contributes: the log goes on, and servers,
loops and goroutines run.  No server waits for a client, and no goroutine runs twice. -/
def ClusterEvent.Quiet (D : Deployment ι) (C : Cluster ι) : ClusterEvent ι → Prop
  | .apply i => (C.nodes i).world.Room
  | .run i k _ => ∀ t, (C.nodes i).world.session.tasks[k]? = some t → ∀ chance op,
      t.op D.env (D.clients i) chance = .ok (some op) → op ∉ (C.nodes i).submission.added
  | .commit _ | .subscribe _ | .read _ | .get _ | .fail _ | .submit .. => True
  | _ => False

/-- One step of the system by itself. -/
def Cluster.Quietly (D : Deployment ι) (C C' : Cluster ι) : Prop :=
  ∃ e b, ClusterEvent.Quiet D C e ∧ C.step D e = .ok (C', b)

/-- The system gets from `C` to `C'` by itself. -/
def Drives (D : Deployment ι) : Cluster ι → Cluster ι → Prop :=
  Relation.ReflTransGen (Cluster.Quietly D)

@[simp] theorem Cluster.nodes_put_self (C : Cluster ι) (i : ι) (node : Node) :
    (C.put i node).nodes i = node := by simp [Cluster.put]

theorem World.reads_subset {env : Env} {c : Client} {w w' : World} {a : Action}
    (h : Steps env c w a w') : w.session.reads ⊆ w'.session.reads := by
  cases h with
  | read => exact List.subset_cons_self _ _
  | _ => exact List.Subset.refl _

theorem Evolves.reads_subset (h : Evolves D C C') (i : ι) :
    (C.nodes i).world.session.reads ⊆ (C'.nodes i).world.session.reads := by
  have hput : ∀ {j : ι} {node : Node},
      (C.nodes j).world.session.reads ⊆ node.world.session.reads →
      (C.nodes i).world.session.reads ⊆ ((C.put j node).nodes i).world.session.reads := by
    intro j node hsub
    by_cases hij : i = j
    · subst hij
      simpa using hsub
    · simp [Cluster.put, hij]
  cases h with
  | apply hop hs => exact hput (World.reads_subset (Steps.of_step hs))
  | act ha hdraws hs => exact hput (World.reads_subset (Steps.of_step hs))
  | flag | run | start | abort | get | fail | finish => exact hput (List.Subset.refl _)
  | commit | kill | submit | stay => exact List.Subset.refl _

namespace Drives

theorem refl (C : Cluster ι) : Drives D C C := Relation.ReflTransGen.refl

theorem of_step {e : ClusterEvent ι} {b : Bool} (he : e.Quiet D C) (h : C.step D e = .ok (C', b)) :
    Drives D C C' :=
  .single ⟨e, b, he, h⟩

theorem trans (h₁ : Drives D C C₁) (h₂ : Drives D C₁ C₂) : Drives D C C₂ :=
  Relation.ReflTransGen.trans h₁ h₂

theorem leads (h : Drives D C C') : Leads (Cluster.step D) C C' := by
  induction h with
  | refl => exact Leads.refl _
  | tail _ hs ih =>
    obtain ⟨e, b, -, hs⟩ := hs
    exact ih.trans (Leads.of_step hs)

/-- What was read stays read. -/
theorem reads_subset (h : Drives D C C') (i : ι) :
    (C.nodes i).world.session.reads ⊆ (C'.nodes i).world.session.reads := by
  induction h with
  | refl => exact List.Subset.refl _
  | tail _ hs ih =>
    obtain ⟨e, b, -, hs⟩ := hs
    exact List.Subset.trans ih ((Evolves.of_step hs).reads_subset i)

end Drives

/-- Nobody has aborted round `r`; its participants `ids` are active, and were when they read of it.
-/
structure Cluster.Ongoing (D : Deployment ι) (r : ℤ) (ids : List UUID) (C : Cluster ι) : Prop where
  reachable : C.Reachable D
  added : ∀ i, .abort r ∉ (C.nodes i).submission.added
  active : ∀ i, (D.clients i).id ∈ ids → (C.nodes i).active = true
  reads : ∀ i, (D.clients i).id ∈ ids → ∀ x ∈ (C.nodes i).world.session.reads,
    x.sm.round = r → x.active = true

namespace Cluster.Ongoing

/-- The system takes a step that changes one node, but not whether its client is active. -/
theorem put (h : C.Ongoing D r ids) {e : ClusterEvent ι} {i : ι} {node : Node} {b : Bool}
    (hs : C.step D e = .ok (C.put i node, b)) (hadd : .abort r ∉ node.submission.added)
    (hact : node.active = (C.nodes i).active) (hreads : (D.clients i).id ∈ ids →
      ∀ x ∈ node.world.session.reads, x.sm.round = r → x.active = true) :
    (C.put i node).Ongoing D r ids := by
  refine ⟨h.reachable.trans (Leads.of_step hs), fun j => ?_, fun j hj => ?_, fun j hj => ?_⟩
  · by_cases hji : j = i
    · subst hji
      simpa using hadd
    · simpa [Cluster.put, hji] using h.added j
  · by_cases hji : j = i
    · subst hji
      simpa [hact] using h.active j hj
    · simpa [Cluster.put, hji] using h.active j hj
  · by_cases hji : j = i
    · subst hji
      simpa using hreads hj
    · simpa [Cluster.put, hji] using h.reads j hj

variable (hD : D.Willing)
include hD

theorem faithful (h : C.Ongoing D r ids) : C.Faithful D :=
  Cluster.Faithful.of_reachable hD.exact hD.ids hD.hostile h.reachable

/-! ### Catching up -/

/-- A client is subscribed. -/
theorem exists_subscribed (h : C.Ongoing D r ids) (i : ι) : ∃ C' ch, Drives D C C' ∧
    C'.Ongoing D r ids ∧ C'.log = C.log ∧ (C'.nodes i).world.updCh = some ch := by
  rcases hch : (C.nodes i).world.updCh with _ | ch
  · have hcopy := ((h.faithful hD).nodes i).world.deepCopy_eq hD.exact
    have hs : C.step D (.subscribe i) = .ok (C.put i { C.nodes i with
        world := { (C.nodes i).world with updCh := some [(C.nodes i).world.sm] } }, true) := by
      simp only [Cluster.step, Cluster.act, World.step, hch, hcopy]
      rfl
    exact ⟨_, [(C.nodes i).world.sm], .of_step (by trivial) hs,
      h.put hs (h.added i) rfl (h.reads i), rfl, by simp⟩
  · exact ⟨C, ch, .refl C, h, rfl, hch⟩

/-- A participant reads the next update. -/
theorem exists_read (h : C.Ongoing D r ids) {i : ι} (hi : (D.clients i).id ∈ ids)
    {v : StateMachine} {ch : List StateMachine}
    (hch : (C.nodes i).world.updCh = some (v :: ch)) : ∃ C', Drives D C C' ∧ C'.Ongoing D r ids ∧
    C'.log = C.log ∧ (C'.nodes i).applied = (C.nodes i).applied ∧
    (C'.nodes i).world.updCh = some ch := by
  have hw := ((h.faithful hD).nodes i).world
  have hv := hw.mem_of_mem_updates hD.exact v (by simp [World.updates, hch])
  have hnil : ¬ NilCrypto (D.clients i) true (C.nodes i).world.session.reader v := by
    rintro ⟨hph, hme, -, hmo⟩
    obtain ⟨me, hme⟩ := Option.ne_none_iff_exists'.1 hme
    obtain ⟨mo, hready⟩ := HonestRun.ready hD.exact hw.honestRun.1 hv hme (by rw [hph]; decide)
    rw [hready.crypto] at hmo
    cases hmo
  obtain ⟨a, ha⟩ : ∃ a, (C.nodes i).world.session.reader.update D.env (D.clients i) true
      (C.nodes i).leaving (D.plan.draws (D.clients i).id (C.nodes i).world.nextRound) v =
        .ok (some a) :=
    (Reader.update_iff hD.debug fun mo _ hver => hD.draws i _ mo hver).2 hnil
  have hs : C.step D (.read i) = .ok (C.put i { C.nodes i with
      world := { (C.nodes i).world with
        updCh := some ch
        session := (C.nodes i).world.session.react ⟨v, true⟩ a } }, true) := by
    simp only [Cluster.step, Cluster.act, World.step, h.active i hi, hch, ha]
    rfl
  refine ⟨_, .of_step (by trivial) hs, h.put hs (h.added i) rfl fun _ => ?_, rfl, by simp, by simp⟩
  exact List.forall_mem_cons.2 ⟨fun _ => rfl, h.reads i hi⟩

/-- It reads all updates. -/
theorem exists_read_all (h : C.Ongoing D r ids) {i : ι} (hi : (D.clients i).id ∈ ids)
    {ch : List StateMachine} (hch : (C.nodes i).world.updCh = some ch) : ∃ C', Drives D C C' ∧
    C'.Ongoing D r ids ∧ C'.log = C.log ∧ (C'.nodes i).applied = (C.nodes i).applied ∧
    (C'.nodes i).world.updCh = some [] := by
  induction ch generalizing C with
  | nil => exact ⟨C, .refl C, h, rfl, rfl, hch⟩
  | cons v ch ih =>
    obtain ⟨C₁, hd₁, h₁, hlog₁, happ₁, hch₁⟩ := h.exists_read hD hi hch
    obtain ⟨C₂, hd₂, h₂, hlog₂, happ₂, hch₂⟩ := ih h₁ hch₁
    exact ⟨C₂, hd₁.trans hd₂, h₂, hlog₂.trans hlog₁, happ₂.trans happ₁, hch₂⟩

/-- The server of a participant applies what is in the log, entry by entry, and the participant
reads every update before the next one is sent. -/
theorem exists_applied (h : C.Ongoing D r ids) {i : ι} (hi : (D.clients i).id ∈ ids)
    (hch : (C.nodes i).world.updCh = some []) : ∃ C', Drives D C C' ∧ C'.Ongoing D r ids ∧
    C'.log = C.log ∧ (C'.nodes i).applied = C.log.length ∧
    (C'.nodes i).world.updCh = some [] := by
  obtain ⟨n, hn⟩ : ∃ n, C.log.length = (C.nodes i).applied + n :=
    Nat.exists_eq_add_of_le ((h.faithful hD).sound i).applied_le
  induction n generalizing C with
  | zero => exact ⟨C, .refl C, h, rfl, hn.symm, hch⟩
  | succ n ih =>
    have hlt : (C.nodes i).applied < C.log.length := by omega
    have hop := List.getElem?_eq_getElem hlt
    obtain ⟨⟨w, b⟩, hw⟩ := (h.faithful hD).step_runs hD.exact (i := i) (.commit _)
      (fun op heq => by cases heq; exact hop) (by simp)
    have hs : C.step D (.apply i) = .ok (C.put i { C.nodes i with
        world := w, applied := (C.nodes i).applied + 1 }, true) := by
      simp only [Cluster.step, hop, hw]
      rfl
    have hst := Steps.of_step hw
    have hsess : w.session = (C.nodes i).world.session := by cases hst <;> rfl
    obtain ⟨ch, hch'⟩ : ∃ ch, w.updCh = some ch := by
      cases hst with
      | commit => exact ⟨_, rfl⟩
      | unseen hap hnone => exact ⟨[], hch⟩
      | stay => exact ⟨[], hch⟩
    have hroom : (C.nodes i).world.Room := by rw [World.Room, hch]; rfl
    have h₁ := h.put hs (h.added i) rfl (by rw [hsess]; exact h.reads i)
    obtain ⟨C₂, hd₂, h₂, hlog₂, happ₂, hch₂⟩ := h₁.exists_read_all hD hi (by simpa using hch')
    have happ : (C₂.nodes i).applied = (C.nodes i).applied + 1 := by simpa using happ₂
    have hlog : C₂.log = C.log := hlog₂
    obtain ⟨C', hd, h', hlog', happ', hch''⟩ := ih h₂ hch₂ (by rw [hlog, happ]; omega)
    exact ⟨C', (Drives.of_step (e := .apply i) hroom hs).trans (hd₂.trans hd), h',
      hlog'.trans hlog, by rw [happ', hlog], hch''⟩

/-- A participant can catch up with the log. -/
theorem exists_caught_up (h : C.Ongoing D r ids) {S : StateMachine}
    (hS : run apply newStateMachine C.log = .ok S) {i : ι} (hi : (D.clients i).id ∈ ids) :
    ∃ C', Drives D C C' ∧ C'.Ongoing D r ids ∧ C'.log = C.log ∧ (C'.nodes i).world.sm = S ∧
      ∃ x ∈ (C'.nodes i).world.session.reads, x.sm = S := by
  obtain ⟨C₁, ch, hd₁, h₁, hlog₁, hch₁⟩ := h.exists_subscribed hD i
  obtain ⟨C₂, hd₂, h₂, hlog₂, -, hch₂⟩ := h₁.exists_read_all hD hi hch₁
  obtain ⟨C₃, hd₃, h₃, hlog₃, happ₃, hch₃⟩ := h₂.exists_applied hD hi hch₂
  have hlog : C₃.log = C.log := hlog₃.trans (hlog₂.trans hlog₁)
  have hf := h₃.faithful hD
  have hsm : (C₃.nodes i).world.sm = S := by
    have hrun := (hf.sound i).sm
    rw [happ₃, ← hlog₃, List.take_length, hlog, hS] at hrun
    exact (Except.ok.inj hrun).symm
  refine ⟨C₃, hd₁.trans (hd₂.trans hd₃), h₃, hlog, hsm, ?_⟩
  -- the newest update is the state of the server, and all updates are read
  have hw := (hf.nodes i).world
  obtain ⟨v, rest, hv, hcopy⟩ := (Delivered.of_reachable hw.reachable).newest (by simp [hch₃])
  rw [hw.deepCopy_eq hD.exact, hsm] at hcopy
  cases hcopy
  have hmem : S ∈ (C₃.nodes i).world.session.reads.map Read.sm := by
    have hup : (C₃.nodes i).world.updates = (C₃.nodes i).world.session.reads.map Read.sm := by
      simp [World.updates, hch₃]
    rw [← hup, hv]
    exact List.mem_cons_self
  obtain ⟨x, hx, hxS⟩ := List.mem_map.1 hmem
  exact ⟨x, hx, hxS⟩

/-! ### One operation -/

/-- The crypto of the round passes the `Verify` of every client. -/
theorem verify (h : C.Ongoing D r ids) {S : StateMachine}
    (hS : run apply newStateMachine C.log = .ok S) {mo : Crypto}
    (hmo : S.currentRoundInfo.crypto = some mo) (i : ι) :
    mo.verify D.env ((D.clients i).messageSize + 16) = .ok () := by
  have hhosts := Deployment.hosts_of_run
    (Cluster.Native.of_reachable hD.hostile h.reachable).log hS
  obtain ⟨j, hj⟩ := hhosts.crypto mo hmo
  rwa [hD.size i j]

/-- What is in the queue of a client in place of an operation that advances the round. -/
theorem exists_pending (h : C.Ongoing D r ids) {S : StateMachine}
    (hS : run apply newStateMachine C.log = .ok S) (hr : S.round = r) {i : ι} {p : ℕ}
    (hp : S.currentRoundInfo.participantIndex (D.clients i).id = some p)
    (hturn : Turn S.currentRoundInfo p) {op : Op} (hop : Advances (D.clients i) S op)
    (hadded : op ∈ (C.nodes i).submission.added) :
    ∃ x ∈ (C.nodes i).submission.added, (C.nodes i).submission.pending.get = some x ∧
      Advances (D.clients i) S x := by
  have hf := h.faithful hD
  have hs := hf.sound i
  -- operations of the same rank are from this client too
  have hsame : ∀ x ∈ (C.nodes i).submission.added, rank x = rank op →
      Advances (D.clients i) S x := by
    intro x hx hrank
    refine hop.of_rank_eq hrank ?_
    rcases (hf.nodes i).own x hx with hnone | ⟨hsome, -⟩
    · have htype := type_eq_of_opIndex (rank_eq_iff.1 hrank).2.1
      have hne := hop.type_ne_abort
      rw [← htype] at hne
      cases x <;> first | cases hnone; done | exact absurd rfl hne
    · exact hsome
  rcases hs.pending_or_logged_or_void hadded with
    ⟨x, hx, hcase⟩ | ⟨x, hx, hrank, hlog⟩ | hvoid
  · have hmem := hs.tidy.ops x (List.mem_of_head? hx)
    rcases hcase with hrank | rfl
    · exact ⟨x, hmem, hx, hsame x hmem hrank⟩
    · rw [hop.round, hr] at hmem
      exact absurd hmem (h.added i)
  · have hinv : ∀ T ∈ states C.log, Inv T := fun T hT => (reachable_of_mem_states hT).inv
    have hmem : x ∈ C.log := by
      obtain ⟨pre, post, hlog, -⟩ := hlog
      rw [hlog]
      simp
    have hsaid := (hf.honest_of_mem hmem).exists_said hD.exact hinv
    exact absurd (hsame x (hs.tidy.finished x hx) hrank)
      (hlog.not_advances (hf.consistent hD.exact) hsaid hS hturn hp)
  · obtain ⟨T, hT, hap⟩ := hvoid []
    rw [List.append_nil, hS] at hT
    cases hT
    exact absurd hap (hop.apply_ne S)

omit hD in
/-- The pending operation is in flight, after whatever was in flight has failed. -/
theorem exists_inFlight (h : C.Ongoing D r ids) {i : ι} {x : Op}
    (hx : (C.nodes i).submission.pending.get = some x) : ∃ C', Drives D C C' ∧ C'.Ongoing D r ids ∧
    C'.log = C.log ∧ (C'.nodes i).world = (C.nodes i).world ∧
    (C'.nodes i).submission.inFlight = some x := by
  obtain ⟨C₁, hd₁, h₁, hlog₁, hw₁, hin₁, hx₁⟩ : ∃ C₁, Drives D C C₁ ∧ C₁.Ongoing D r ids ∧
      C₁.log = C.log ∧ (C₁.nodes i).world = (C.nodes i).world ∧
      (C₁.nodes i).submission.inFlight = none ∧
      (C₁.nodes i).submission.pending.get = some x := by
    have hs : C.step D (.fail i) = .ok (C.queue i .fail, true) := rfl
    refine ⟨_, .of_step (by trivial) hs, h.put hs (h.added i) rfl (h.reads i), rfl, ?_, ?_, ?_⟩
    · simp [Cluster.queue]
    · simp [Cluster.queue, Submission.step]
    · simpa [Cluster.queue, Submission.step] using hx
  have hstep : (C₁.nodes i).submission.step .get =
      { (C₁.nodes i).submission with inFlight := some x } := by
    simp only [Submission.step, hin₁, hx₁]
  have hs : C₁.step D (.get i) = .ok (C₁.put i { C₁.nodes i with
      submission := { (C₁.nodes i).submission with inFlight := some x },
      since := C₁.log.length }, true) := by
    simp only [Cluster.step, hin₁, hstep]
    rfl
  refine ⟨_, hd₁.trans (.of_step (by trivial) hs), h₁.put hs (h₁.added i) rfl (h₁.reads i), hlog₁,
    ?_, ?_⟩
  · simpa using hw₁
  · simp

omit hD in
/-- The pending operation gets into the log. -/
theorem exists_committed (h : C.Ongoing D r ids) {i : ι} {x : Op}
    (hx : (C.nodes i).submission.pending.get = some x)
    (hno : (C.nodes i).world.sm.guaranteedNoEffect x = .ok false) :
    ∃ C', Drives D C C' ∧ C'.Ongoing D r ids ∧ C'.log = C.log ++ [x] := by
  obtain ⟨C₁, hd₁, h₁, hlog₁, hw₁, hin₁⟩ := h.exists_inFlight hx
  rw [← hw₁] at hno
  have hsubmit : C₁.step D (.submit i i) = .ok ({ C₁ with started := x :: C₁.started }, true) := by
    simp only [Cluster.step, hin₁, hno]
    rfl
  have hcommit : Cluster.step D { C₁ with started := x :: C₁.started } (.commit 0) =
      .ok ({ C₁ with started := x :: C₁.started, log := C₁.log ++ [x] }, true) := rfl
  have hd : Drives D C₁ { C₁ with started := x :: C₁.started, log := C₁.log ++ [x] } :=
    (Drives.of_step (by trivial) hsubmit).trans (.of_step (by trivial) hcommit)
  exact ⟨_, hd₁.trans hd, ⟨h₁.reachable.trans hd.leads, h₁.added, h₁.active, h₁.reads⟩,
    by rw [hlog₁]⟩

omit hD in
/-- A goroutine whose operations advance the round runs, unless it has run before. -/
theorem exists_added (h : C.Ongoing D r ids) {i : ι} {t : Task} {S : StateMachine}
    (ht : t ∈ (C.nodes i).world.session.tasks)
    (hsends : ∀ chance, ∃ op, t.op D.env (D.clients i) chance = .ok (some op) ∧
      Advances (D.clients i) S op) :
    ∃ C' op, Drives D C C' ∧ C'.Ongoing D r ids ∧ C'.log = C.log ∧
      (C'.nodes i).world = (C.nodes i).world ∧ Advances (D.clients i) S op ∧
      op ∈ (C'.nodes i).submission.added := by
  by_cases hran : ∃ chance op, t.op D.env (D.clients i) chance = .ok (some op) ∧
      op ∈ (C.nodes i).submission.added
  · obtain ⟨chance, op, hop, hadded⟩ := hran
    obtain ⟨op', hop', hadv⟩ := hsends chance
    obtain rfl : op' = op := by
      rw [hop] at hop'
      exact (Option.some.inj (Except.ok.inj hop')).symm
    exact ⟨C, op', .refl C, h, rfl, rfl, hadv, hadded⟩
  · obtain ⟨k, hk⟩ := List.mem_iff_getElem?.1 ht
    obtain ⟨op, hop, hadv⟩ := hsends (D.plan.chance (D.clients i).id t ⟨id, List.Perm.refl⟩)
    have hs : C.step D (.run i k ⟨id, List.Perm.refl⟩) = .ok (C.queue i (.add op), true) := by
      simp only [Cluster.step, hk, hop]
      rfl
    have hquiet : ClusterEvent.Quiet D C (.run i k ⟨id, List.Perm.refl⟩) := by
      intro t' ht' chance op' hop' hadded
      obtain rfl : t = t' := Option.some.inj (hk.symm.trans ht')
      exact hran ⟨chance, op', hop', hadded⟩
    refine ⟨_, op, .of_step hquiet hs, h.put hs ?_ rfl (h.reads i), rfl, by simp [Cluster.queue],
      hadv, by simp [Cluster.queue, Submission.step]⟩
    intro hmem
    rcases List.mem_cons.1 hmem with heq | hmem
    · exact hadv.type_ne_abort (by rw [← heq]; rfl)
    · exact h.added i hmem

/-- A round that has started has participants and a crypto. -/
theorem started (h : C.Ongoing D r ids) {S : StateMachine}
    (hS : run apply newStateMachine C.log = .ok S)
    (hord : 1 ≤ phaseOrder S.currentRoundInfo.phase) : S.currentRoundInfo.participants ≠ [] ∧
      ∃ mo, S.currentRoundInfo.crypto = some mo := by
  have hrun := (h.faithful hD).honestRun C.log.length
  rw [List.take_length] at hrun
  obtain ⟨hne, mo, hmo, -⟩ := HonestRun.started hrun S (mem_trace_of_run hS) hord
  exact ⟨hne, mo, hmo⟩

/-- Somebody can go on. -/
theorem exists_step (h : C.Ongoing D r ids) {S : StateMachine}
    (hS : run apply newStateMachine C.log = .ok S) (hr : S.round = r)
    (hids : S.currentRoundInfo.participants = ids)
    (hord : 1 ≤ phaseOrder S.currentRoundInfo.phase) : ∃ C' ri, Drives D C C' ∧
    C'.Ongoing D r ids ∧ run apply newStateMachine C'.log = .ok (S.advance ri) ∧
    Later S.currentRoundInfo ri ∧ ri.phase ≠ .failed ∧
    S.currentRoundInfo.remaining = ri.remaining + 1 := by
  have hinv : Inv S := Inv.new.of_leads ⟨_, hS⟩
  obtain ⟨hist, hhist⟩ := exists_trace_eq hS
  have hrun : HonestRun (D.plan.conduct D.env) (S :: hist) := by
    have hlog := (h.faithful hD).honestRun C.log.length
    rw [List.take_length, states, hhist] at hlog
    exact hlog
  -- it is somebody's turn
  obtain ⟨hne, mo, hmo⟩ := h.started hD hS hord
  obtain ⟨p, hp, hturn⟩ := hinv.current.exists_turn hinv.live hord hne
  have hhosts := Deployment.hosts_of_run
    (Cluster.Native.of_reachable hD.hostile h.reachable).log hS
  obtain ⟨i, hi⟩ := hhosts.participants _ (List.getElem_mem hp)
  have hindex : S.currentRoundInfo.participantIndex (D.clients i).id = some p :=
    RoundInfo.participantIndex_of_getElem? hinv.current.nodup
      (by rw [hi, List.getElem?_eq_getElem hp])
  have hmem : (D.clients i).id ∈ ids := hids ▸ hi ▸ List.getElem_mem hp
  -- that client catches up and has a goroutine
  obtain ⟨C₁, hd₁, h₁, hlog₁, hsm₁, x, hx, rfl⟩ := h.exists_caught_up hD hS hmem
  have hread : ⟨x.sm, true⟩ ∈ (C₁.nodes i).world.session.reads := by
    have hact := h₁.reads i hmem x hx hr
    cases x
    cases hact
    exact hx
  have hS₁ : run apply newStateMachine C₁.log = .ok x.sm := hlog₁ ▸ hS
  obtain ⟨hf₁, hcalm⟩ := Cluster.Calm.of_reachable hD.exact hD.ids hD.hostile h₁.reachable
  obtain ⟨t, ht, hsends⟩ := (hf₁.nodes i).world.exists_advances hD.exact (hcalm i) hread
    ((Client.me_eq_participantIndex hinv.current.nodup).trans hindex) hturn
    (fun mo' hmo' => h₁.verify hD hS₁ hmo' i) (by rw [hmo]; simp)
  obtain ⟨C₂, op, hd₂, h₂, hlog₂, hw₂, hadv, hadded⟩ := h₁.exists_added ht hsends
  -- the queue holds it or one that is as good, which gets into the log
  obtain ⟨y, hy, hget, hadv'⟩ := h₂.exists_pending hD (hlog₂ ▸ hS₁) hr hindex hturn hadv hadded
  have hno : (C₂.nodes i).world.sm.guaranteedNoEffect y = .ok false := by
    rw [hw₂, hsm₁]
    exact hadv'.guaranteedNoEffect_eq hinv
  obtain ⟨C₃, hd₃, h₃, hlog₃⟩ := h₂.exists_committed hget hno
  have hhonest : Honest (D.plan.conduct D.env) (x.sm :: hist) y := by
    have hy := ((h₂.faithful hD).nodes i).added y hy
    have hstates : states C₂.log = x.sm :: hist := by
      rw [hlog₂, hlog₁, ← hhist]
      rfl
    rwa [hstates] at hy
  have hsaid := hhonest.exists_said hD.exact fun T hT => Reachable.inv (hrun.leads_of_mem hT)
  obtain ⟨ri, hap, hlater, hfail, hrem⟩ :=
    hadv'.exists_step hD.exact hrun hhonest hsaid hturn hindex
  refine ⟨C₃, ri, hd₁.trans (hd₂.trans hd₃), h₃, ?_, hlater, hfail, hrem⟩
  rw [hlog₃, hlog₂]
  exact run_append_iff.2 ⟨_, hS₁, run_cons_iff.2 ⟨_, hap, rfl⟩⟩

/-! ### Whole rounds -/

/-- The round can be completed. -/
theorem exists_done (h : C.Ongoing D r ids) {S : StateMachine}
    (hS : run apply newStateMachine C.log = .ok S) (hr : S.round = r)
    (hids : S.currentRoundInfo.participants = ids)
    (hord : 1 ≤ phaseOrder S.currentRoundInfo.phase) : ∃ C' S' ri, Drives D C C' ∧
    C'.Ongoing D r ids ∧ run apply newStateMachine C'.log = .ok S' ∧
    S'.getRoundInfo r = .ok ri ∧ ri.phase = .done ∧ ri.participants = ids ∧
    ri.crypto = S.currentRoundInfo.crypto := by
  generalize hn : S.currentRoundInfo.remaining = n
  induction n generalizing C S with
  | zero =>
    obtain ⟨-, ri, -, -, -, -, -, hrem⟩ := h.exists_step hD hS hr hids hord
    omega
  | succ n ih =>
    obtain ⟨C₁, ri, hd₁, h₁, hS₁, hlater, hfail, hrem⟩ := h.exists_step hD hS hr hids hord
    have hinv : Inv S := Inv.new.of_leads ⟨_, hS⟩
    obtain ⟨hparts, hcrypto⟩ := hlater.fixed hord
    by_cases hfin : ri.phase = .done ∨ ri.phase = .failed
    · exact ⟨C₁, _, ri, hd₁, h₁, hS₁, hr ▸ getRoundInfo_advance_self hinv.round_nonneg,
        hfin.resolve_right hfail, hparts.trans hids, hcrypto⟩
    · have hround : (S.advance ri).round = S.round := by
        rw [advance_unfinished hfin, round_setCurrent]
      have hcur : (S.advance ri).currentRoundInfo = ri := (hinv.currentRoundInfo_advance hround).2
      obtain ⟨C₂, S₂, ri₂, hd₂, h₂, hS₂, hget, hdone, hparts₂, hcrypto₂⟩ := ih h₁ hS₁
        (hround.trans hr) (by rw [hcur, hparts, hids]) (by rw [hcur]; exact hord.trans hlater.order)
        (by rw [hcur]; omega)
      exact ⟨C₂, S₂, ri₂, hd₁.trans hd₂, h₂, hS₂, hget, hdone, hparts₂,
        by rw [hcrypto₂, hcur, hcrypto]⟩

/-- Everybody can read of it. -/
theorem exists_informed (h : C.Ongoing D r ids) {S : StateMachine}
    (hS : run apply newStateMachine C.log = .ok S) {ids' : List UUID} (hsub : ids' ⊆ ids) :
    ∃ C', Drives D C C' ∧ C'.Ongoing D r ids ∧ C'.log = C.log ∧ ∀ i, (D.clients i).id ∈ ids' →
      ∃ x ∈ (C'.nodes i).world.session.reads, x.sm = S := by
  induction ids' with
  | nil => exact ⟨C, .refl C, h, rfl, by simp⟩
  | cons id ids' ih =>
    obtain ⟨C₁, hd₁, h₁, hlog₁, hread₁⟩ := ih fun x hx => hsub (List.mem_cons_of_mem _ hx)
    by_cases hid : ∃ i, (D.clients i).id = id
    · obtain ⟨i, rfl⟩ := hid
      obtain ⟨C₂, hd₂, h₂, hlog₂, -, hread₂⟩ := h₁.exists_caught_up hD (hlog₁ ▸ hS)
        (hsub List.mem_cons_self)
      refine ⟨C₂, hd₁.trans hd₂, h₂, hlog₂.trans hlog₁, fun j hj => ?_⟩
      rcases List.mem_cons.1 hj with heq | hj
      · obtain rfl : j = i := hD.ids heq
        exact hread₂
      · obtain ⟨x, hx, hxS⟩ := hread₁ j hj
        exact ⟨x, hd₂.reads_subset j hx, hxS⟩
    · refine ⟨C₁, hd₁, h₁, hlog₁, fun j hj => ?_⟩
      rcases List.mem_cons.1 hj with heq | hj
      · exact absurd ⟨j, heq⟩ hid
      · exact hread₁ j hj

end Cluster.Ongoing

/-- **A round can always be completed.** Let the current round of a cluster of willing clients be
started, let nobody have aborted it, and let its participants be active, now and whenever they read
of the round.  Then, however far the round has come, the system can bring it to its end by itself,
and every participant to reading of this end.  If no message has exactly the maximum size, all
participants send the same one result; it is a success with the messages of all of them, less the
empty ones, if the random bytes of the headers are distinct. -/
theorem round_completes (hD : D.Willing) (h : C.Reachable D) {S : StateMachine}
    (hS : run apply newStateMachine C.log = .ok S)
    (hord : 1 ≤ phaseOrder S.currentRoundInfo.phase)
    (habort : ∀ i, .abort S.round ∉ (C.nodes i).submission.added)
    (hactive : ∀ i, (D.clients i).id ∈ S.currentRoundInfo.participants →
      (C.nodes i).active = true ∧ ∀ x ∈ (C.nodes i).world.session.reads, x.sm.round = S.round →
        x.active = true) :
    ∃ C' ri mo, Drives D C C' ∧ ri.phase = .done ∧
      ri.participants = S.currentRoundInfo.participants ∧ S.currentRoundInfo.crypto = some mo ∧
      (∀ i, (D.clients i).id ∈ ri.participants →
        ∃ x ∈ (C'.nodes i).world.session.reads, x.sm.getRoundInfo S.round = .ok ri) ∧
      ((∀ i, ∀ id ∈ ri.participants,
          (D.plan.text mo id S.round).length ≠ (D.clients i).messageSize) →
        ∃ res : RoundResult,
          (∀ i, (D.clients i).id ∈ ri.participants →
            (C'.nodes i).world.session.results D.env (D.clients i) S.round = [.ok (some res)]) ∧
          ((ri.participants.map fun id => D.plan.header mo id S.round).Nodup →
            res.succeeded = true ∧ res.messages.Perm
              ((ri.participants.map fun id => D.plan.text mo id S.round).filter (· ≠ [])))) := by
  have hong : C.Ongoing D S.round S.currentRoundInfo.participants :=
    ⟨h, habort, fun i hi => (hactive i hi).1, fun i hi => (hactive i hi).2⟩
  obtain ⟨C₁, S₁, ri, hd₁, h₁, hS₁, hri, hdone, hparts, hcrypto⟩ :=
    hong.exists_done hD hS rfl rfl hord
  obtain ⟨C₂, hd₂, h₂, -, hread⟩ := h₁.exists_informed hD hS₁ (List.Subset.refl _)
  rw [← hparts] at hread
  have hread : ∀ i, (D.clients i).id ∈ ri.participants →
      ∃ x ∈ (C₂.nodes i).world.session.reads, x.sm.getRoundInfo S.round = .ok ri := by
    intro i hi
    obtain ⟨x, hx, rfl⟩ := hread i hi
    exact ⟨x, hx, hri⟩
  obtain ⟨hne, mo, hmo⟩ := hong.started hD hS hord
  rw [← hparts] at hne
  refine ⟨C₂, ri, mo, hd₁.trans hd₂, hdone, hparts, hmo, hread, fun hfull => ?_⟩
  have hf := h₂.faithful hD
  obtain ⟨id, hid⟩ := List.exists_mem_of_ne_nil _ hne
  have hhosts := Deployment.hosts_of_run (Cluster.Native.of_reachable hD.hostile h).log hS
  obtain ⟨i, rfl⟩ := hhosts.participants id (hparts ▸ hid)
  obtain ⟨x, hx, hxri⟩ := hread i hid
  obtain ⟨verdict, hall, hres⟩ := hf.exists_verdict hD.exact hx hxri hdone hid
    (hcrypto.trans hmo) (hfull i)
  obtain ⟨res, hverdict⟩ : ∃ res, RoundResult.ofVerdict S.round verdict = some res := by
    cases verdict <;> exact ⟨_, rfl⟩
  refine ⟨res, fun j hj => ?_, fun hnonce => ?_⟩
  · obtain ⟨y, hy, hyri⟩ := hread j hj
    rw [hres j y ri hy ((hf.nodes j).world.reachable.lt_of_finished hy hyri (Or.inl hdone)) hyri hj,
      hverdict]
  · obtain ⟨messages, rfl, hperm⟩ := hall hnonce
    cases hverdict
    exact ⟨rfl, hperm⟩

end Schedule

/-- The two clients of `pairDeployment`, without assertions. -/
def quietPair : Deployment Bool := { pairDeployment with env := quietEnv }

/-- A draw of 0 makes the exponent 1. -/
theorem Crypto.genKey_zero {mo : Crypto} (h : 2 < mo.getP) : mo.genKey [0] ≠ none := by
  simp [Crypto.genKey, MasseyOmura.genUserKey, MasseyOmura.modInverse, h]

theorem quietPair_willing : quietPair.Willing where
  exact := fun n => exactEnv_exact n
  debug := rfl
  ids := by decide
  hostile _ := rfl
  size _ _ := rfl
  draws i r mo hver := by
    have hsize := (Crypto.verify_eq_ok_iff.1 hver).1
    have hP : 2 < mo.getP := by
      by_contra hle
      have hle' := Nat.size_le_size (not_lt.1 hle)
      have htwo : Nat.size 2 = 2 := by decide +kernel
      simp only [MasseyOmura.bitsMaxSize] at hsize
      omega
    obtain ⟨key, hkey⟩ := Option.ne_none_iff_exists'.1 (Crypto.genKey_zero hP)
    simp [Crypto.genKeys, quietPair, pairDeployment, twoPlan, hkey]

/-- The first of two messages is in the log, and the second client has not read of it. -/
def halfwayEvents : List (ClusterEvent Bool) :=
  pairBegin ++ pairTurn false ++ pairTurn true ++ .start false 0 0 [pairModulus] ::
    pairSubmit false ++
    [.run false 0 ⟨List.reverse, List.reverse_perm⟩, .get false, .submit false true, .commit 0]

/-- Both clients are then told both messages. -/
theorem round_completes_halfway : ∃ (C C' : Cluster Bool) (res : RoundResult),
    C.Reachable quietPair ∧ C.log.length = 4 ∧ Drives quietPair C C' ∧ res.succeeded = true ∧
    res.messages.Perm [[65], [66]] ∧ ∀ i,
      (C'.nodes i).world.session.results quietEnv (quietPair.clients i) 0 = [.ok (some res)] := by
  obtain ⟨C, hC, htest⟩ := exists_of_endsWith (by decide +kernel :
    endsWith (Cluster.step quietPair) {} halfwayEvents (fun C =>
      decide (C.log.length = 4) &&
      endsWith apply newStateMachine C.log (fun S => decide (S.round = 0 ∧
        S.currentRoundInfo.phase = .submit ∧ S.currentRoundInfo.participants = [1, 2] ∧
        S.currentRoundInfo.crypto = some pairCrypto ∧
        ∀ i, .abort 0 ∉ (C.nodes i).submission.added ∧ (C.nodes i).active = true ∧
          ∀ x ∈ (C.nodes i).world.session.reads, x.active = true))) = true)
  obtain ⟨hlen, htest⟩ := Bool.and_eq_true_iff.1 htest
  obtain ⟨S, hS, htest⟩ := exists_of_endsWith htest
  obtain ⟨hr, hph, hparts, hcrypto, hall⟩ := of_decide_eq_true htest
  obtain ⟨C', ri, mo, hd, -, hsame, hmo, -, hres⟩ := round_completes quietPair_willing
    ⟨_, hC⟩ hS (by rw [hph]; decide) (fun i => by rw [hr]; exact (hall i).1)
    fun i _ => ⟨(hall i).2.1, fun x hx _ => (hall i).2.2 x hx⟩
  rw [hparts] at hsame
  cases hmo.symm.trans hcrypto
  simp only [hr, hsame] at hres
  obtain ⟨res, hres, hsucc⟩ := hres fun i id hid => (by decide : (1 : ℕ) ≠ 2)
  obtain ⟨hsucc, hperm⟩ := hsucc (by decide +kernel)
  have htexts : (([1, 2] : List UUID).map fun id => twoPlan.text pairCrypto id 0).filter (· ≠ []) =
      [[65], [66]] := by decide +kernel
  exact ⟨C, C', res, ⟨_, hC⟩, of_decide_eq_true hlen, hd, hsucc, htexts ▸ hperm,
    fun i => hres i (by cases i <;> decide)⟩

end EggScrambler
