import Mathlib
import EggScrambler.Elimination
import EggScrambler.HonestWorld

/-!
# The whole system

Any number of nodes, each a server with the client that is subscribed to it.  Raft is represented by
the log that all servers agree on: a server applies the entries in order and in its own time, and an
operation is committed only after some client has submitted it, possibly several times or never.
Clients do what `client.go` does: they read updates, the goroutines they start add operations to the
queue, the user calls `Start`, the aborter may step in at any time, and `submitOps` submits the
pending operation to any server until one replies `OK`.

A server replies `OK` if its own state, which may lag behind, guarantees that the operation has no
effect, or once it has applied the operation; `Server.lean` says why a reply means one of the two.
Others who do not run this code may commit operations too (`hostile`).  The flags `active` and
`leaving` are written by configuration updates and, at any time, by the goroutines of
`Membership.lean`; the loop goes by them when it reads an update.

`Evolves` says what one step can do and `Cluster.Sound` is what is true of every run:  all states
that are seen anywhere are states of the one log.  From this follows `no_operation_lost`.
-/

namespace EggScrambler

open StateMachine Transition

/-! ## New rounds -/

/-- `GenSysKey`, with what `rand.Prime` returns in the turns of the loop; `none` if the reader
fails. -/
def MasseyOmura.genSysKey (env : Env) : List ℕ → Option ℕ
  | [] => none
  | p :: primes => if env.probablyPrime p then some p else genSysKey env primes

/-- `newMasseyOmuraCrypto`; the number of bits goes into what `rand.Prime` returns. -/
def newMasseyOmuraCrypto (env : Env) (primes : List ℕ) : Option Crypto :=
  (MasseyOmura.genSysKey env primes).map fun p => ⟨BigEndian.bytes p⟩

theorem MasseyOmura.genSysKey_spec {env : Env} {primes : List ℕ} {p : ℕ}
    (h : genSysKey env primes = some p) : p ∈ primes ∧ env.probablyPrime p = true := by
  induction primes with
  | nil => cases h
  | cons q primes ih =>
    rw [genSysKey] at h
    split_ifs at h with hq
    · cases h
      exact ⟨List.mem_cons_self, hq⟩
    · obtain ⟨hmem, hp⟩ := ih h
      exact ⟨List.mem_cons_of_mem _ hmem, hp⟩

/-- If `rand.Prime` returns numbers of the size it was asked for, a new crypto passes `Verify`. -/
theorem verify_newMasseyOmuraCrypto {env : Env} {primes : List ℕ} {messageSize : ℤ} {mo : Crypto}
    (hsize : ∀ p ∈ primes, (Nat.size p : ℤ) = MasseyOmura.bitsMaxSize messageSize)
    (h : newMasseyOmuraCrypto env primes = some mo) : mo.verify env messageSize = .ok () := by
  obtain ⟨p, hp, rfl⟩ := Option.map_eq_some_iff.1 h
  obtain ⟨hmem, hprime⟩ := MasseyOmura.genSysKey_spec hp
  have hget : Crypto.getP ⟨BigEndian.bytes p⟩ = p := BigEndian.setBytes_bytes p
  rw [Crypto.verify_eq_ok_iff, hget]
  exact ⟨hsize p hmem, hprime⟩

/-! ## The system -/

/-- The round that a goroutine was started in. -/
def Task.round : Task → ℤ
  | sendRoundResult _ r _ | prepare r _ | abort r | submit r .. | encrypt r .. | scramble r ..
  | decrypt r .. | reveal r .. => r

/-- What a goroutine gets from the user and from chance. -/
def Plan.chance (plan : Plan) (id : UUID) (t : Task) (shuffle : Shuffle) : Chance where
  message := plan.message id t.round
  nonce := plan.nonce id t.round
  nonce₂ := plan.nonce₂ id t.round
  shuffle := shuffle

/-- The round of the next update in the channel. -/
def World.nextRound (w : World) : ℤ := (((w.updCh.getD []).head?).getD newStateMachine).round

/-- What does not change. -/
structure Deployment (ι : Type) where
  env : Env
  plan : Plan
  clients : ι → Client
  /-- The operations that somebody else may commit. -/
  hostile : Op → Bool

/-- A server and its client. -/
structure Node where
  world : World := {}
  /-- The number of entries of the log that the server has applied. -/
  applied : ℕ := 0
  /-- The flags of the client, which `readUpdates` looks at. -/
  active : Bool := false
  leaving : Bool := false
  submission : Submission := {}
  /-- The length of the log when `submitOps` got the operation in flight. -/
  since : ℕ := 0

structure Cluster (ι : Type) where
  /-- The committed entries, oldest first. -/
  log : List Op := []
  /-- The commands that were passed to `Start` of Raft. -/
  started : List Op := []
  nodes : ι → Node := fun _ => {}

inductive ClusterEvent (ι : Type) where
  /-- Raft commits one of the commands. -/
  | commit (k : ℕ)
  /-- Raft commits an operation of somebody else. -/
  | intrude (op : Op)
  /-- The applier of a server handles the next entry. -/
  | apply (i : ι)
  /-- The client of a node subscribes. -/
  | subscribe (i : ι)
  /-- A client reads a state machine update. -/
  | read (i : ι)
  /-- A client reads a configuration update; `member` says whether its server is in it. -/
  | configure (i : ι) (member : Bool) (stored : ℕ)
  /-- `setActive`, `attemptProvisional` or `removeSelf` has an answer. -/
  | setActive (i : ι) (active : Bool)
  /-- `BecomeInactive` begins. -/
  | leave (i : ι)
  /-- One of the goroutines that `readUpdates` has started runs. -/
  | run (i : ι) (k : ℕ) (shuffle : Shuffle)
  /-- The user calls `Start`. -/
  | start (i : ι) (r : ℤ) (stored : ℕ) (primes : List ℕ)
  /-- The aborter gives up on a round. -/
  | abort (i : ι) (stored : ℕ)
  /-- `Kill` submits an abort itself. -/
  | kill (i : ι) (stored : ℕ)
  /-- `submitOps` gets the pending operation. -/
  | get (i : ι)
  /-- The submission fails. -/
  | fail (i : ι)
  /-- `SubmitOp` of server `j` starts the operation of client `i`. -/
  | submit (i j : ι)
  /-- Server `j` replies `OK`, and client `i` finishes the operation. -/
  | finish (i j : ι)

namespace Cluster

variable {ι : Type} [DecidableEq ι]

def put (C : Cluster ι) (i : ι) (node : Node) : Cluster ι :=
  { C with nodes := Function.update C.nodes i node }

/-- The flags of a client are written. -/
def flag (C : Cluster ι) (i : ι) (active leaving : Bool) : Cluster ι :=
  C.put i { C.nodes i with active, leaving }

/-- The world of a node takes a step. -/
def act (D : Deployment ι) (C : Cluster ι) (i : ι) (a : Action) : Go (Cluster ι × Bool) := do
  let (world, b) ← (C.nodes i).world.step D.env (D.clients i) a
  return (C.put i { C.nodes i with world }, b)

/-- Something happens to the queue of a client. -/
def queue (C : Cluster ι) (i : ι) (e : SubmissionEvent) : Cluster ι :=
  C.put i { C.nodes i with submission := (C.nodes i).submission.step e }

/-- One step; an event that is not possible changes nothing. -/
def step (D : Deployment ι) (C : Cluster ι) : ClusterEvent ι → Go (Cluster ι × Bool)
  | .commit k =>
    match C.started[k]? with
    | none => return (C, false)
    | some op => return ({ C with log := C.log ++ [op] }, true)
  | .intrude op =>
    if D.hostile op then return ({ C with log := C.log ++ [op] }, true) else return (C, false)
  | .apply i =>
    match C.log[(C.nodes i).applied]? with
    | none => return (C, false)
    | some op => do
      let (world, _) ← (C.nodes i).world.step D.env (D.clients i) (.commit op)
      return (C.put i { C.nodes i with world, applied := (C.nodes i).applied + 1 }, true)
  | .subscribe i => C.act D i .subscribe
  | .read i =>
    C.act D i (.read (C.nodes i).active (C.nodes i).leaving
      (D.plan.draws (D.clients i).id (C.nodes i).world.nextRound))
  | .configure i member stored => do
    -- a client that is out of the configuration is no longer leaving it
    let leaving := member && (C.nodes i).leaving
    let (world, b) ← (C.nodes i).world.step D.env (D.clients i) (.configure member leaving stored)
    return (C.put i { C.nodes i with world, active := member, leaving }, b)
  | .setActive i active => return (C.flag i active (C.nodes i).leaving, true)
  | .leave i => return (C.flag i (C.nodes i).active true, true)
  | .run i k shuffle =>
    match (C.nodes i).world.session.tasks[k]? with
    | none => return (C, false)
    | some t => do
      match ← t.op D.env (D.clients i) (D.plan.chance (D.clients i).id t shuffle) with
      | none => return (C, false)
      | some op => return (C.queue i (.add op), true)
  | .start i r stored primes =>
    if ∀ p ∈ primes, (Nat.size p : ℤ) =
        MasseyOmura.bitsMaxSize ((D.clients i).messageSize + Client.messageHeaderLength) then
      match newMasseyOmuraCrypto D.env primes with
      | none => return (C, false)
      | some crypto =>
        match (D.clients i).start ((C.nodes i).world.session.stored stored) r crypto with
        | .error _ => return (C, false)
        | .ok op => return (C.queue i (.add op), true)
    else return (C, false)
  | .abort i stored =>
    return (C.queue i (.add (Client.abort ((C.nodes i).world.session.stored stored).round)), true)
  | .kill i stored =>
    let sm := (C.nodes i).world.session.stored stored
    if sm.currentRoundInfo.phase ≠ .done ∧ sm.currentRoundInfo.phase ≠ .failed ∧
        (D.clients i).id ∈ sm.currentRoundInfo.participants then
      return ({ C with started := Client.abort sm.round :: C.started }, true)
    else return (C, false)
  | .get i =>
    match (C.nodes i).submission.inFlight with
    | some _ => return (C, false)
    | none =>
      let node := C.nodes i
      return (C.put i { node with
        submission := node.submission.step .get, since := C.log.length }, true)
  | .fail i => return (C.queue i .fail, true)
  | .submit i j =>
    match (C.nodes i).submission.inFlight with
    | none => return (C, false)
    | some op => do
      if ← (C.nodes j).world.sm.guaranteedNoEffect op then return (C, false)
      else return ({ C with started := op :: C.started }, true)
  | .finish i j =>
    match (C.nodes i).submission.inFlight with
    | none => return (C, false)
    | some op => do
      if (← (C.nodes j).world.sm.guaranteedNoEffect op) ∨
          op ∈ (C.log.take (C.nodes j).applied).drop (C.nodes i).since then
        return (C.queue i .finish, true)
      else return (C, false)

/-- The states of the system after any events. -/
def Reachable (D : Deployment ι) (C : Cluster ι) : Prop := Leads (step D) {} C

end Cluster

/-! ## One step -/

section Step

variable {ι : Type} [DecidableEq ι]

/-- What a step can do. -/
inductive Evolves (D : Deployment ι) (C : Cluster ι) : Cluster ι → Prop
  | commit {op : Op} (hop : op ∈ C.started ∨ D.hostile op = true) :
      Evolves D C { C with log := C.log ++ [op] }
  | apply {i : ι} {op : Op} {world : World} {b : Bool}
      (hop : C.log[(C.nodes i).applied]? = some op)
      (hs : (C.nodes i).world.step D.env (D.clients i) (.commit op) = .ok (world, b)) :
      Evolves D C (C.put i { C.nodes i with world, applied := (C.nodes i).applied + 1 })
  | act {i : ι} {a : Action} {world : World} {b active leaving : Bool} (ha : ∀ op, a ≠ .commit op)
      (hdraws : ∀ active leaving draws, a = .read active leaving draws →
        draws = D.plan.draws (D.clients i).id (C.nodes i).world.nextRound)
      (hs : (C.nodes i).world.step D.env (D.clients i) a = .ok (world, b)) :
      Evolves D C (C.put i { C.nodes i with world, active, leaving })
  | flag {i : ι} {active leaving : Bool} : Evolves D C (C.flag i active leaving)
  | run {i : ι} {t : Task} {shuffle : Shuffle} {op : Op}
      (ht : t ∈ (C.nodes i).world.session.tasks)
      (hop : t.op D.env (D.clients i) (D.plan.chance (D.clients i).id t shuffle) =
        .ok (some op)) : Evolves D C (C.queue i (.add op))
  | start {i : ι} {r : ℤ} {stored : ℕ} {mo : Crypto} {op : Op}
      (hmo : mo.verify D.env ((D.clients i).messageSize + 16) = .ok ())
      (hop : (D.clients i).start ((C.nodes i).world.session.stored stored) r mo = .ok op) :
      Evolves D C (C.queue i (.add op))
  | abort {i : ι} {stored : ℕ} : Evolves D C (C.queue i (.add
      (Client.abort ((C.nodes i).world.session.stored stored).round)))
  | kill {r : ℤ} : Evolves D C { C with started := Client.abort r :: C.started }
  | get {i : ι} (hin : (C.nodes i).submission.inFlight = none) :
      Evolves D C (C.put i { C.nodes i with
        submission := (C.nodes i).submission.step .get, since := C.log.length })
  | fail {i : ι} : Evolves D C (C.queue i .fail)
  | submit {i : ι} {op : Op} (hin : (C.nodes i).submission.inFlight = some op) :
      Evolves D C { C with started := op :: C.started }
  | finish {i j : ι} {op : Op} (hin : (C.nodes i).submission.inFlight = some op)
      (hack : (C.nodes j).world.sm.guaranteedNoEffect op = .ok true ∨
        op ∈ (C.log.take (C.nodes j).applied).drop (C.nodes i).since) :
      Evolves D C (C.queue i .finish)
  | stay : Evolves D C C

theorem Evolves.of_act {D : Deployment ι} {C C' : Cluster ι} {i : ι} {a : Action} {b : Bool}
    (ha : ∀ op, a ≠ .commit op) (hdraws : ∀ active leaving draws, a = .read active leaving draws →
      draws = D.plan.draws (D.clients i).id (C.nodes i).world.nextRound)
    (h : C.act D i a = .ok (C', b)) : Evolves D C C' := by
  obtain ⟨⟨world, b⟩, hs, h⟩ := bind_eq_ok_iff.1 h
  cases h
  exact .act ha hdraws hs

/-- Every step is one of those that `Evolves` lists. -/
theorem Evolves.of_step {D : Deployment ι} {C C' : Cluster ι} {e : ClusterEvent ι} {b : Bool}
    (h : C.step D e = .ok (C', b)) : Evolves D C C' := by
  have hstay : ∀ {b b' : Bool}, (.ok (C, b) : Go (Cluster ι × Bool)) = .ok (C', b') →
      Evolves D C C' := by
    rintro _ _ ⟨⟩
    exact .stay
  cases e <;> simp only [Cluster.step] at h
  case commit k =>
    split at h
    · exact hstay h
    · rename_i op hop
      cases h
      exact .commit (Or.inl (List.mem_of_getElem? hop))
  case intrude op =>
    split_ifs at h with hop
    · cases h
      exact .commit (Or.inr hop)
    · exact hstay h
  case apply i =>
    split at h
    · exact hstay h
    · rename_i op hop
      obtain ⟨⟨world, b⟩, hs, h⟩ := bind_eq_ok_iff.1 h
      cases h
      exact .apply hop hs
  case subscribe i => exact .of_act (by simp) (by simp) h
  case read i =>
    refine .of_act (by simp) (fun _ _ _ heq => ?_) h
    cases heq
    rfl
  case configure i member stored =>
    obtain ⟨⟨world, b⟩, hs, h⟩ := bind_eq_ok_iff.1 h
    cases h
    exact .act (by simp) (by simp) hs
  case setActive i active =>
    cases h
    exact .flag
  case leave i =>
    cases h
    exact .flag
  case run i k shuffle =>
    split at h
    · exact hstay h
    · rename_i t ht
      obtain ⟨o, hop, h⟩ := bind_eq_ok_iff.1 h
      cases o with
      | none => exact hstay h
      | some op =>
        cases h
        exact .run (List.mem_of_getElem? ht) hop
  case start i r stored primes =>
    split_ifs at h with hsize
    · split at h
      · exact hstay h
      · rename_i mo hmo
        split at h
        · exact hstay h
        · rename_i op hop
          cases h
          exact .start (verify_newMasseyOmuraCrypto hsize hmo) hop
    · exact hstay h
  case abort i stored =>
    cases h
    exact .abort
  case kill i stored =>
    split_ifs at h
    · cases h
      exact .kill
    · exact hstay h
  case get i =>
    split at h
    · exact hstay h
    · rename_i hin
      cases h
      exact .get hin
  case fail i =>
    cases h
    exact .fail
  case submit i j =>
    split at h
    · exact hstay h
    · rename_i op hin
      obtain ⟨noEffect, -, h⟩ := bind_eq_ok_iff.1 h
      split_ifs at h
      · exact hstay h
      · cases h
        exact .submit hin
  case finish i j =>
    split at h
    · exact hstay h
    · rename_i op hin
      obtain ⟨noEffect, hno, h⟩ := bind_eq_ok_iff.1 h
      split_ifs at h with hack
      · cases h
        exact .finish hin (hack.imp_left fun htrue => by rw [hno, htrue])
      · exact hstay h

/-! ## All states are states of the log -/

/-- The states that the log goes through, newest first. -/
def states (log : List Op) : List StateMachine := trace apply newStateMachine log

/-- The operation is in the log, after a state that client `c` makes it from. -/
def Logged (env : Env) (c : Client) (log : List Op) (op : Op) : Prop :=
  ∃ pre post, log = pre ++ op :: post ∧ ∃ S ∈ states pre, Makes env c S op

/-- The operation of client `c` has been dealt with: it has no effect any more, or it is in the
log. -/
def Settled (env : Env) (c : Client) (log : List Op) (op : Op) : Prop :=
  (∃ S ∈ states log, S.guaranteedNoEffect op = .ok true) ∨ Logged env c log op

/-- What a node knows comes from the log. -/
structure Node.Sound (env : Env) (c : Client) (log : List Op) (node : Node) : Prop where
  reachable : World.Reachable env c node.world
  applied_le : node.applied ≤ log.length
  sm : run apply newStateMachine (log.take node.applied) = .ok node.world.sm
  updates : ∀ v ∈ node.world.updates, ∃ S ∈ states log, S.deepCopy = .ok v
  tasks : ∀ t ∈ node.world.session.tasks, ∀ chance op, t.op env c chance = .ok (some op) →
    ∃ S ∈ states log, Makes env c S op
  tidy : node.submission.Tidy
  added : ∀ op ∈ node.submission.added, ∃ S ∈ states log, Makes env c S op
  since_le : node.since ≤ log.length
  inFlight : ∀ op, node.submission.inFlight = some op →
    ∃ S ∈ states (log.take node.since), Makes env c S op
  finished : ∀ op ∈ node.submission.finished, Settled env c log op

theorem states_mono (log log' : List Op) : states log ⊆ states (log ++ log') :=
  trace_subset_append _ _ _

theorem states_take_subset (log : List Op) (n : ℕ) : states (log.take n) ⊆ states log := by
  have h := states_mono (log.take n) (log.drop n)
  rwa [List.take_append_drop] at h

/-- The log does not crash any server. -/
theorem exists_run_states (log : List Op) :
    ∃ S, run apply newStateMachine log = .ok S ∧ Inv S :=
  run_total (fun _ op hs => Inv.apply_total hs op) Inv.new log

theorem reachable_of_mem_states {log : List Op} {S : StateMachine} (hS : S ∈ states log) :
    StateMachine.Reachable S := by
  obtain ⟨T, hT, -⟩ := exists_run_states log
  exact (leads_of_mem_trace hT hS).1

/-- Of two states of the log, one is a later state of the other. -/
theorem follows_total_of_mem_states {log : List Op} {S T : StateMachine} (hS : S ∈ states log)
    (hT : T ∈ states log) : Follows S T ∨ Follows T S := by
  obtain ⟨U, hU, -⟩ := exists_run_states log
  rcases leads_total_of_mem_trace hU hS hT with hl | hl
  · exact Or.inl (Follows.of_leads (reachable_of_mem_states hS).inv hl)
  · exact Or.inr (Follows.of_leads (reachable_of_mem_states hT).inv hl)

theorem Settled.mono {env : Env} {c : Client} {log : List Op} {op : Op}
    (h : Settled env c log op) (log' : List Op) : Settled env c (log ++ log') op := by
  rcases h with ⟨S, hS, h⟩ | ⟨pre, post, rfl, h⟩
  · exact Or.inl ⟨S, states_mono _ _ hS, h⟩
  · exact Or.inr ⟨pre, post ++ log', by simp, h⟩

namespace Node.Sound

variable {env : Env} {c : Client} {log : List Op} {node : Node}

theorem init (env : Env) (c : Client) : Node.Sound env c [] {} where
  reachable := Leads.refl _
  applied_le := le_rfl
  sm := rfl
  updates := by simp [World.updates]
  tasks := by simp
  tidy := Submission.tidy_new
  added := by simp
  since_le := le_rfl
  inFlight := by simp
  finished := by simp

theorem commit (h : node.Sound env c log) (op : Op) : node.Sound env c (log ++ [op]) where
  reachable := h.reachable
  applied_le := h.applied_le.trans (by simp)
  sm := by
    rw [List.take_append_of_le_length h.applied_le]
    exact h.sm
  updates v hv := by
    obtain ⟨S, hS, hv⟩ := h.updates v hv
    exact ⟨S, states_mono _ _ hS, hv⟩
  tasks t ht chance op hop := by
    obtain ⟨S, hS, hm⟩ := h.tasks t ht chance op hop
    exact ⟨S, states_mono _ _ hS, hm⟩
  tidy := h.tidy
  added op hop := by
    obtain ⟨S, hS, hm⟩ := h.added op hop
    exact ⟨S, states_mono _ _ hS, hm⟩
  since_le := h.since_le.trans (by simp)
  inFlight op hop := by
    rw [List.take_append_of_le_length h.since_le]
    exact h.inFlight op hop
  finished op hop := (h.finished op hop).mono _

/-- The server's state is a state of the log. -/
theorem sm_mem (h : node.Sound env c log) : node.world.sm ∈ states log :=
  states_take_subset log _ (mem_trace_of_run h.sm)

/-- What `lastUpdate` holds is a state of the log or a copy of one. -/
theorem stored (h : node.Sound env c log) (k : ℕ) : ∃ S ∈ states log,
    node.world.session.stored k = S ∨ S.deepCopy = .ok (node.world.session.stored k) := by
  rcases node.world.session.stored_cases k with hnew | ⟨x, hx, hst⟩
  · exact ⟨newStateMachine, mem_trace_self _ _, Or.inl hnew⟩
  · obtain ⟨S, hS, hv⟩ := h.updates x.sm (List.mem_append_right _ (List.mem_map_of_mem hx))
    exact ⟨S, hS, Or.inr (hst ▸ hv)⟩

/-- The world takes a step. -/
theorem world (h : node.Sound env c log) {a : Action} {w' : World} {n : ℕ}
    (hs : Steps env c node.world a w') (hreach : World.Reachable env c w') (hn : n ≤ log.length)
    (hsm : run apply newStateMachine (log.take n) = .ok w'.sm) :
    Node.Sound env c log { node with world := w', applied := n } where
  reachable := hreach
  applied_le := hn
  sm := hsm
  updates v hv := by
    rcases World.updates_cases (Delivered.of_reachable h.reachable) hs v hv with hv | hv
    · exact h.updates v hv
    · exact ⟨w'.sm, states_take_subset log _ (mem_trace_of_run hsm), hv⟩
  tasks t ht chance op hop := by
    cases hs with
    | @read active leaving draws v ch r hch ha =>
      rcases List.mem_append.1 ht with ht | ht
      · obtain ⟨S, hS, hv⟩ := h.updates v (by simp [World.updates, hch])
        exact ⟨S, hS, ha.makes (reachable_of_mem_states hS).inv hv ht hop⟩
      · exact h.tasks t ht chance op hop
    | configure active leaving stored =>
      rcases List.mem_append.1 ht with ht | ht
      · obtain ⟨me, rfl⟩ := Reader.eq_of_mem_prepares ht
        obtain ⟨S, hS, hv⟩ := h.stored stored
        exact ⟨S, hS, .of_prepare ((reachable_of_mem_states hS).inv.seen_of_copy hv).1 hop⟩
      · exact h.tasks t ht chance op hop
    | _ => exact h.tasks t ht chance op hop
  tidy := h.tidy
  added := h.added
  since_le := h.since_le
  inFlight := h.inFlight
  finished := h.finished

/-- The flags of the client do not matter. -/
theorem flag (h : node.Sound env c log) (active leaving : Bool) :
    Node.Sound env c log { node with active, leaving } :=
  { h with }

/-- An operation is added to the queue. -/
theorem add (h : node.Sound env c log) {op : Op} (hop : ∃ S ∈ states log, Makes env c S op) :
    Node.Sound env c log { node with submission := node.submission.step (.add op) } :=
  { h with
    tidy := h.tidy.step (.add op)
    added := List.forall_mem_cons.2 ⟨hop, h.added⟩ }

theorem get (h : node.Sound env c log) (hin : node.submission.inFlight = none) :
    Node.Sound env c log
      { node with submission := node.submission.step .get, since := log.length } := by
  have hstep : node.submission.step .get =
      { node.submission with inFlight := node.submission.pending.get } := by
    simp only [Submission.step, hin]
  exact { h with
    tidy := h.tidy.step .get
    added := fun op hop => h.added op (by rwa [hstep] at hop)
    since_le := le_rfl
    inFlight := fun op hop => by
      rw [hstep] at hop
      rw [List.take_length]
      exact h.added op (h.tidy.ops op (List.mem_of_head? hop))
    finished := fun op hop => h.finished op (by rwa [hstep] at hop) }

/-- A server that replies `OK` has settled the operation. -/
theorem settled (h : node.Sound env c log) {op : Op} (hin : node.submission.inFlight = some op)
    {env' : Env} {c' : Client} {node' : Node} (h' : node'.Sound env' c' log)
    (hack : node'.world.sm.guaranteedNoEffect op = .ok true ∨
      op ∈ (log.take node'.applied).drop node.since) : Settled env c log op := by
  rcases hack with hno | hmem
  · exact Or.inl ⟨_, h'.sm_mem, hno⟩
  · have hdrop : op ∈ log.drop node.since := by
      rw [List.drop_take] at hmem
      exact List.mem_of_mem_take hmem
    obtain ⟨pre, post, hpost⟩ := List.append_of_mem hdrop
    obtain ⟨S, hS, hm⟩ := h.inFlight op hin
    refine Or.inr ⟨log.take node.since ++ pre, post, ?_, S, states_mono _ _ hS, hm⟩
    rw [List.append_assoc, ← hpost, List.take_append_drop]

theorem finish (h : node.Sound env c log) {op : Op} (hin : node.submission.inFlight = some op)
    (hset : Settled env c log op) :
    Node.Sound env c log { node with submission := node.submission.step .finish } := by
  have hstep : node.submission.step .finish = { node.submission with
      pending := node.submission.pending.finish op, inFlight := none,
      finished := op :: node.submission.finished } := by
    simp only [Submission.step, hin]
  exact { h with
    tidy := h.tidy.step .finish
    added := fun op' hop => h.added op' (by rwa [hstep] at hop)
    inFlight := fun op' hop => by
      rw [hstep] at hop
      cases hop
    finished := fun op' hop => by
      rw [hstep] at hop
      exact List.forall_mem_cons.2 ⟨hset, h.finished⟩ op' hop }

end Node.Sound

/-- All nodes are sound. -/
def Cluster.Sound (D : Deployment ι) (C : Cluster ι) : Prop :=
  ∀ i, (C.nodes i).Sound D.env (D.clients i) C.log

namespace Cluster.Sound

variable {D : Deployment ι} {C C' : Cluster ι}

theorem put (h : C.Sound D) {i : ι} {node : Node} (hn : node.Sound D.env (D.clients i) C.log) :
    (C.put i node).Sound D := by
  intro j
  by_cases hj : j = i
  · subst hj
    simpa [Cluster.put] using hn
  · simpa [Cluster.put, hj] using h j

/-- Soundness is kept by every step. -/
theorem evolves (h : C.Sound D) (he : Evolves D C C') : C'.Sound D := by
  cases he with
  | commit hop => exact fun i => (h i).commit _
  | @apply i op world b hop hs =>
    have hlt := (List.getElem?_eq_some_iff.1 hop).1
    have hst := Steps.of_step hs
    obtain ⟨b', hap⟩ := World.apply_of_commit hst
    refine h.put ((h i).world hst ((h i).reachable.trans (Leads.of_step hs)) hlt ?_)
    rw [List.take_add_one, hop]
    exact run_append_iff.2 ⟨_, (h i).sm, run_cons_iff.2 ⟨_, hap, rfl⟩⟩
  | @act i a world b active leaving ha hdraws hs =>
    have hst := Steps.of_step hs
    refine h.put (((h i).world hst ((h i).reachable.trans (Leads.of_step hs)) (h i).applied_le
      ?_).flag active leaving)
    rw [World.sm_of_other ha hst]
    exact (h i).sm
  | @flag i active leaving => exact h.put ((h i).flag active leaving)
  | @run i t shuffle op ht hop => exact h.put ((h i).add ((h i).tasks t ht _ op hop))
  | @start i r stored mo op hmo hop =>
    obtain ⟨S, hS, hv⟩ := (h i).stored stored
    exact h.put ((h i).add ⟨S, hS, .start mo hv hop⟩)
  | @abort i stored =>
    obtain ⟨S, hS, hv⟩ := (h i).stored stored
    refine h.put ((h i).add ⟨S, hS, ?_⟩)
    rw [((reachable_of_mem_states hS).inv.seen_of_copy hv).1]
    exact .abort
  | kill => exact h
  | @get i hin => exact h.put ((h i).get hin)
  | @fail i =>
    exact h.put { h i with tidy := (h i).tidy.step .fail, inFlight := by simp [Submission.step] }
  | submit hin => exact h
  | @finish i j op hin hack => exact h.put ((h i).finish hin ((h i).settled hin (h j) hack))
  | stay => exact h

/-- All nodes of a system that has run are sound. -/
theorem of_reachable (h : C.Reachable D) : C.Sound D := by
  obtain ⟨events, hrun⟩ := h
  exact run_preserves (fun _ _ _ _ hC hs => hC.evolves (Evolves.of_step hs))
    (fun i => Node.Sound.init _ _) hrun

end Cluster.Sound

/-! ## No operation is lost -/

/-- However the log goes on, the operation has no effect. -/
def Void (log : List Op) (op : Op) : Prop :=
  ∀ log', ∃ S, run apply newStateMachine (log ++ log') = .ok S ∧ S.apply op = .ok (S, false)

theorem Void.of_mem_states {log : List Op} {S : StateMachine} {op : Op} (hS : S ∈ states log)
    (h : ∀ T, Leads apply S T → T.apply op = .ok (T, false)) : Void log op := by
  intro log'
  obtain ⟨T, hT, -⟩ := exists_run_states (log ++ log')
  exact ⟨T, hT, h T (leads_of_mem_trace hT (states_mono _ _ hS)).2⟩

/-- In a later round. -/
theorem Void.of_round_lt {log : List Op} {S : StateMachine} {op : Op} (hS : S ∈ states log)
    (h : op.round < S.round) : Void log op := by
  refine .of_mem_states hS fun T hT => ?_
  have hinv := (reachable_of_mem_states hS).inv
  have hle := (Follows.of_leads hinv hT).round_le
  exact (hinv.of_leads hT).apply_of_not_accepts fun hr => by omega

/-- An operation that is older than one that the same client has made, except for an abort. -/
theorem Void.of_older {env : Env} {c : Client} {log : List Op} {Sa Sb : StateMachine} {a b : Op}
    (hSa : Sa ∈ states log) (hSb : Sb ∈ states log) (ha : Makes env c Sa a)
    (hb : Makes env c Sb b) (hab : rank a < rank b)
    (hne : ¬ (b.type = .abort ∧ b.round = a.round)) : Void log a := by
  have hinv := (reachable_of_mem_states hSb).inv
  refine .of_mem_states hSb fun T hT => (hinv.of_leads hT).apply_of_not_accepts fun hr ri => ?_
  exact (ha.timely (reachable_of_mem_states hSa).inv).not_accepts (hb.timely hinv) hinv hT hab hne
    hr ri

theorem eq_abort_of_type {op : Op} (h : op.type = .abort) : op = .abort op.round := by
  cases op <;> first | rfl | cases h

/-- The step of an operation of the log. -/
theorem Logged.exists_step {env : Env} {c : Client} {log : List Op} {op : Op}
    (h : Logged env c log op) : ∃ S₀ S S' b, Makes env c S₀ op ∧ S₀ ∈ states log ∧ S ∈ states log ∧
      S' ∈ states log ∧ Leads apply S₀ S ∧ S.apply op = .ok (S', b) := by
  obtain ⟨pre, post, rfl, S₀, hS₀, hm⟩ := h
  obtain ⟨S, hS, hinv⟩ := exists_run_states pre
  obtain ⟨S', b, hap, -⟩ := hinv.apply_total op
  have hS' : S' ∈ states (pre ++ op :: post) := by
    rw [List.append_cons]
    refine states_mono _ _ ?_
    rw [states, trace_concat hS hap]
    exact List.mem_cons_self
  exact ⟨S₀, S, S', b, hm, states_mono _ _ hS₀, states_mono _ _ (mem_trace_of_run hS), hS',
    (leads_of_mem_trace hS hS₀).2, hap⟩

/-- A settled abort ends its round. -/
theorem Settled.round_lt_of_abort {env : Env} {c : Client} {log : List Op} {op : Op}
    (h : Settled env c log op) (hop : op.type = .abort) : ∃ S ∈ states log, op.round < S.round := by
  rcases h with ⟨S, hS, hno⟩ | h
  · refine ⟨S, hS, ?_⟩
    unfold guaranteedNoEffect at hno
    split_ifs at hno with hlt heq
    · exact hlt
    · exact absurd hop (noEffectIn_true hno).1
    · cases hno
  · obtain ⟨S₀, S, S', b, hm, hS₀, hS, hS', hl, hap⟩ := h.exists_step
    have hinv := (reachable_of_mem_states hS₀).inv
    have hle : op.round ≤ S.round := by
      rw [(hm.timely hinv).round_eq]
      exact (Follows.of_leads hinv hl).round_le
    rcases hle.lt_or_eq with hlt | heq
    · exact ⟨S, hS, hlt⟩
    · -- the abort was applied in its round
      refine ⟨S', hS', ?_⟩
      rw [eq_abort_of_type hop] at hap heq ⊢
      rw [apply_of_accepts heq .abort] at hap
      cases hap
      rw [advance_finished (Or.inr rfl), round_nextRound, round_setCurrent, heq]
      exact lt_add_one _

/-- Operations of one rank have no effect together. -/
theorem guaranteedNoEffect_congr {a b : Op} (h : rank a = rank b) (S : StateMachine) :
    S.guaranteedNoEffect a = S.guaranteedNoEffect b := by
  obtain ⟨hr, hi, -⟩ := rank_eq_iff.1 h
  unfold guaranteedNoEffect
  rw [hr, type_eq_of_opIndex hi]

/-- What becomes of an operation that was added to the queue. -/
theorem Node.Sound.pending_or_logged_or_void {env : Env} {c : Client} {log : List Op} {node : Node}
    (h : node.Sound env c log) {op : Op} (hop : op ∈ node.submission.added) :
    (∃ op', node.submission.pending.get = some op' ∧ (rank op' = rank op ∨ op' = .abort op.round)) ∨
    (∃ op' ∈ node.submission.finished, rank op' = rank op ∧ Logged env c log op') ∨
    Void log op := by
  obtain ⟨S, hS, hm⟩ := h.added op hop
  have hle := h.tidy.added op hop
  rcases h.tidy.ordered.cases with ⟨hops, heq⟩ | ⟨x, hops, heq, -⟩
  · -- nothing is pending: the newest operation is finished
    rw [heq] at hle
    rcases h.tidy.lastFinished with hf | hf
    · have hinv := (reachable_of_mem_states hS).inv
      rw [hf, ← not_lt, rank_lt_iff, (hm.timely hinv).round_eq] at hle
      exact absurd (Or.inl (by have := hinv.round_nonneg; simp [Op.round]; omega)) hle
    · obtain ⟨S', hS', hm'⟩ := h.added _ (h.tidy.finished _ hf)
      have hset := h.finished _ hf
      rcases hle.lt_or_eq with hlt | heq
      · by_cases hab : node.submission.pending.lastFinished.type = .abort ∧
            node.submission.pending.lastFinished.round = op.round
        · obtain ⟨T, hT, hlt⟩ := hset.round_lt_of_abort hab.1
          exact Or.inr (Or.inr (.of_round_lt hT (hab.2 ▸ hlt)))
        · exact Or.inr (Or.inr (.of_older hS hS' hm hm' hlt hab))
      · rcases hset with ⟨T, hT, hno⟩ | hlog
        · refine Or.inr (Or.inr (.of_mem_states hT fun U hU => ?_))
          rw [← guaranteedNoEffect_congr heq] at hno
          exact apply_of_guaranteedNoEffect (reachable_of_mem_states hT).inv hU hno
        · exact Or.inr (Or.inl ⟨_, hf, heq.symm, hlog⟩)
  · -- an operation is pending: it is as new, or the abort of the round, or this one is too late
    have hget : node.submission.pending.get = some x := by
      simp [EliminationQueue.get, hops]
    obtain ⟨S', hS', hm'⟩ := h.added x (h.tidy.ops x (by simp [hops]))
    rw [heq] at hle
    rcases hle.lt_or_eq with hlt | heq
    · by_cases hab : x.type = .abort ∧ x.round = op.round
      · exact Or.inl ⟨x, hget, Or.inr (hab.2 ▸ eq_abort_of_type hab.1)⟩
      · exact Or.inr (Or.inr (.of_older hS hS' hm hm' hlt hab))
    · exact Or.inl ⟨x, hget, Or.inl heq.symm⟩

/-- **No operation is lost.** Whatever is added to the queue of a client is pending, or an operation
of the same round, kind and counter is, or the abort of its round; or such an operation is finished
and in the log; or it has no effect however the log goes on. -/
theorem no_operation_lost {D : Deployment ι} {C : Cluster ι} (h : C.Reachable D) {i : ι} {op : Op}
    (hop : op ∈ (C.nodes i).submission.added) :
    (∃ op', (C.nodes i).submission.pending.get = some op' ∧
      (compare op' op = .equal ∨ op' = .abort op.round)) ∨
    (∃ op' ∈ (C.nodes i).submission.finished, compare op' op = .equal ∧ op' ∈ C.log) ∨
    Void C.log op := by
  simp only [compare_equal_iff]
  rcases (Cluster.Sound.of_reachable h i).pending_or_logged_or_void hop with
    hpending | ⟨op', hf, hr, pre, post, hlog, -⟩ | hvoid
  · exact Or.inl hpending
  · exact Or.inr (Or.inl ⟨op', hf, hr, by simp [hlog]⟩)
  · exact Or.inr (Or.inr hvoid)

end Step

/-! ## A round of two -/

/-- Two clients that know each other, and nobody else. -/
def pairDeployment : Deployment Bool where
  env := exactEnv
  plan := twoPlan
  clients i := ⟨if i then 2 else 1, 2⟩
  hostile _ := false

/-- Both servers apply the next entry, and both clients read the update. -/
def pairApply : List (ClusterEvent Bool) :=
  [.apply false, .apply true, .read false, .read true]

/-- A client submits its pending operation. -/
def pairSubmit (i : Bool) : List (ClusterEvent Bool) :=
  [.get i, .submit i i, .commit 0] ++ pairApply ++ [.finish i i]

/-- The newest goroutine of a client runs. -/
def pairTurn (i : Bool) : List (ClusterEvent Bool) :=
  .run i 0 ⟨List.reverse, List.reverse_perm⟩ :: pairSubmit i

/-- Both clients subscribe, learn that they are in the configuration and read the first update. -/
def pairBegin : List (ClusterEvent Bool) :=
  [.subscribe false, .subscribe true, .setActive false true, .setActive true true, .read false,
    .read true]

/-- Both join, the first one starts the round, and they take turns to its end. -/
def pairEvents : List (ClusterEvent Bool) :=
  pairBegin ++ pairTurn false ++ pairTurn true ++ .start false 0 0 [pairModulus] ::
    pairSubmit false ++ (List.replicate 5 (pairTurn false ++ pairTurn true)).flatten

/-- The first client has joined, and its operation is in the log. -/
theorem no_operation_lost_join : ∃ C : Cluster Bool, C.Reachable pairDeployment ∧
    .join 1 0 ∈ (C.nodes false).submission.added ∧
    ((∃ op', (C.nodes false).submission.pending.get = some op' ∧
        (compare op' (.join 1 0) = .equal ∨ op' = .abort 0)) ∨
      (∃ op' ∈ (C.nodes false).submission.finished, compare op' (.join 1 0) = .equal ∧
        op' ∈ C.log) ∨ Void C.log (.join 1 0)) := by
  obtain ⟨C, hC, hmem⟩ := exists_of_endsWith (by decide +kernel :
    endsWith (Cluster.step pairDeployment) {} pairEvents
      (fun C => decide (.join 1 0 ∈ (C.nodes false).submission.added)) = true)
  have hmem := of_decide_eq_true hmem
  exact ⟨C, ⟨_, hC⟩, hmem, no_operation_lost ⟨_, hC⟩ hmem⟩

end EggScrambler
