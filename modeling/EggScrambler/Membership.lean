import Mathlib
import EggScrambler.EliminationQueue
import EggScrambler.Lib.Threads
import EggScrambler.Lib.Transition

/-!
# Joining and leaving the configuration

`clientconfigurationchange.go` with its counterpart at the server, the loop of `submitOps` and the
part of `readUpdates` that is about the configuration.  All these goroutines of a client share
`active`, `leaving`, `currConf`, `lastKnownLeaderInd` and the queue of pending operations, and hold
a lock only while they read or write one of them, so that every position between two such accesses
is a position here.  The check of `killed` at the head of a loop is taken together with the access
that follows it, except in `submitOps`, where the loop waits in between until an operation is
pending.  What the servers answer, and whether a timeout has expired, is left open.

* `no_index_panic`: `lastKnownLeaderInd` is in range, whatever the interleaving.
* `become_returns`: `BecomeActive` and `BecomeInactive` return only to a client that was seen active
  or inactive meanwhile, or is dead.
* `leaving_stays_out`: who is leaving joins no round.
* `loops_end`: after `Kill` all goroutines end, except that `submitOps` waits for ever if nothing is
  pending.
-/

namespace EggScrambler

open Transition

namespace Member

/-- Why these goroutines may panic. -/
inductive Crash where
  | indexOutOfRange
  | divideByZero
  | assertionFailed
  /-- "Add without becoming provisional shouldn't occur.", "Shouldn't get provisional err on
  remove." -/
  | notProvisional
  deriving DecidableEq

inductive AddRemoveServerError where
  | notLeader
  | notProvisional
  | notCaughtUp
  | concurrentChange
  | alreadyComplete
  | newLeader
  | ok
  deriving DecidableEq

inductive AddProvisionalError where
  | notLeader
  | alreadyProvisional
  | alreadyInConfiguration
  | success
  deriving DecidableEq

/-- What the Raft of a server answers, and whether `SubmitOp` is answered with `OK`. -/
structure Peer where
  getProvisionalConfiguration : Bool × List String
  getCurrentConfiguration : Bool × List String
  addProvisional : AddProvisionalError
  addServer : AddRemoveServerError
  removeServer : AddRemoveServerError
  submitOp : Bool
  deriving DecidableEq

namespace Peer

/-- `InConfiguration` and `IsLeader` of the reply. -/
def inConfiguration (p : Peer) (server : String) (isProvisionalReq : Bool) : Bool × Bool :=
  let (isLeader, conf) :=
    if isProvisionalReq then p.getProvisionalConfiguration else p.getCurrentConfiguration
  (decide (server ∈ conf), isLeader)

/-- `Error` of the reply. -/
def addRemove (p : Peer) (isAdd : Bool) : AddRemoveServerError :=
  let err := if isAdd then p.addServer else p.removeServer
  if err = .ok ∨ err = .alreadyComplete then .ok else err

end Peer

/-! ## Positions -/

/-- Where a loop stands that asks one server after the other. -/
inductive Retry where
  /-- At `!c.killed()`. -/
  | head
  | asking (server : String)
  /-- Before `updateLeader`. -/
  | failed
  deriving DecidableEq

/-- `addProvisional`, `addSelf` and `removeSelf`. -/
inductive Stage where
  | provisional
  | add
  | remove
  deriving DecidableEq

inductive Pc where
  /-- `getMembership` in `setActive`, with the last answer. -/
  | start (last : Bool) (pos : Retry)
  /-- Before `c.active = member`. -/
  | assign (member : Bool)
  /-- Before `BecomeActive` is started. -/
  | spawn
  /-- In the loop of `readUpdates`. -/
  | reading
  /-- Before `getActiveUnlocked`, to join the round. -/
  | checkActive
  | checkLeaving
  /-- At `!c.killed()` in `submitOps`. -/
  | ops
  /-- In `pending.get`. -/
  | get
  /-- `submitOp` and the branch after it; at `head` the leader is looked up. -/
  | submit (op : Op) (pos : Retry)
  /-- Before `pending.finish`. -/
  | finish (op : Op)
  /-- Before `c.leaving = true`. -/
  | leave
  /-- The outer loop of `BecomeActive` or `BecomeInactive`. -/
  | outer (isAdd : Bool)
  /-- The loop that waits for `c.active`. -/
  | poll (isAdd : Bool)
  /-- The loop of the stage. -/
  | stage (st : Stage)
  /-- `attemptProvisional` or `attemptAddRemove`. -/
  | attempt (st : Stage) (pos : Retry)
  /-- Before `c.active = true` in `attemptProvisional`. -/
  | already
  /-- Before `c.active = false` in `removeSelf`. -/
  | removed
  /-- Before `addSelf` reads `c.active`. -/
  | look
  /-- The loop of `checkMembership`. -/
  | check (st : Stage)
  /-- `getMembership` in `checkMembership`, with the last answer. -/
  | membership (st : Stage) (last : Bool) (pos : Retry)
  | returned
  deriving DecidableEq

namespace Stage

/-- The stage is over. -/
def done : Stage → Pc
  | provisional => .outer true
  | add => .poll true
  | remove => .poll false

/-- The loop of the attempt was left because the client is dead; the error is none that matters. -/
def killed : Stage → Pc
  | provisional => .check .provisional
  | add => .look
  | remove => .check .remove

/-- The loop of the attempt gets an answer. -/
def answered (peer : Option Peer) : Stage → Except Crash Pc
  | provisional =>
    match peer.map Peer.addProvisional with
    | none | some .notLeader => .ok (.attempt .provisional .failed)
    | some .alreadyInConfiguration => .ok .already
    | some _ => .ok (.check .provisional)
  | add =>
    match peer.map (Peer.addRemove · true) with
    | none | some .notLeader => .ok (.attempt .add .failed)
    | some .newLeader | some .concurrentChange => .ok (.attempt .add .head)
    | some .notProvisional => .error .notProvisional
    | some _ => .ok .look
  | remove =>
    match peer.map (Peer.addRemove · false) with
    | none | some .notLeader => .ok (.attempt .remove .failed)
    | some .newLeader | some .concurrentChange => .ok (.attempt .remove .head)
    | some .notProvisional => .error .notProvisional
    | some .ok => .ok .removed
    | some _ => .ok (.check .remove)

/-- The argument of `checkMembership`. -/
def isProvisionalReq : Stage → Bool
  | provisional => true
  | _ => false

/-- What `getMembership` returns is looked at by `checkMembership`, and `true` by its caller. -/
def member (st : Stage) (inConfiguration : Bool) : Pc :=
  if inConfiguration then
    match st with
    | remove => .stage .remove
    | st => st.done
  else .check st

/-- `checkMembership` returns `false`. -/
def notMember : Stage → Pc
  | remove => Stage.remove.done
  | st => .stage st

end Stage

/-! ## The goroutines -/

/-- What the goroutines share. -/
structure Shared where
  serverId : String
  active : Bool := false
  leaving : Bool := false
  currConf : List String
  lastKnownLeaderInd : ℕ := 0
  dead : Bool := false
  pending : EliminationQueue := {}
  /-- How often `prepare` was started. -/
  prepared : ℕ := 0
  deriving DecidableEq

namespace Shared

def potentialLeader (c : Shared) : Except Crash String :=
  match c.currConf[c.lastKnownLeaderInd]? with
  | some server => .ok server
  | none => .error .indexOutOfRange

def updateLeader (c : Shared) : Except Crash Shared :=
  if c.currConf.length = 0 then .error .divideByZero
  else .ok { c with lastKnownLeaderInd := (c.lastKnownLeaderInd + 1) % c.currConf.length }

/-- The flags after a configuration update. -/
def learn (c : Shared) (conf : List String) : Shared :=
  if c.serverId ∈ conf then { c with active := true }
  else { c with active := false, leaving := false }

/-- A configuration update, with the keys of the map as `mapToSlice` goes through them. -/
def configure (env : Env) (c : Shared) (conf : List String) : Except Crash Shared :=
  if env.debug = true ∧ conf.length = 0 then .error .assertionFailed
  else .ok { c.learn conf with currConf := conf, lastKnownLeaderInd := 0 }

/-- The reply to `getMembership`; if there is none, it has the zero values. -/
def inConfiguration (c : Shared) (peer : Option Peer) (isProvisionalReq : Bool) : Bool × Bool :=
  match peer with
  | some p => p.inConfiguration c.serverId isProvisionalReq
  | none => (false, false)

end Shared

/-- What a step depends on: the answer to the call, the clock, and the update that is read, which is
a configuration or a state in the prepare phase. -/
structure Input where
  peer : Option Peer := none
  expired : Bool := false
  conf : Option (List String) := none

/-- What a goroutine has done: the shared state, its new position and whom it started. -/
abbrev Outcome := Except Crash (Option (Shared × Pc × List Pc))

namespace Shared

/-- Go on to a position. -/
def go (c : Shared) (pc : Pc) : Outcome := .ok (some (c, pc, []))

/-- A loop that asks servers until one answers. -/
def retry (c : Shared) (killed : Pc) (loop : Retry → Pc) (answered : Except Crash Pc) :
    Retry → Outcome
  | .head =>
    if c.dead then c.go killed
    else do
      let server ← c.potentialLeader
      c.go (loop (.asking server))
  | .asking _ => do
    let pc ← answered
    c.go pc
  | .failed => do
    let c ← c.updateLeader
    c.go (loop .head)

/-- One step of a goroutine. -/
def advance (env : Env) (c : Shared) (input : Input) : Pc → Outcome
  | .start last pos =>
    let (inConfiguration, isLeader) := c.inConfiguration input.peer false
    c.retry (.assign last) (.start last)
      (.ok (if isLeader then .assign inConfiguration else .start inConfiguration .failed)) pos
  | .assign member => { c with active := member }.go .spawn
  | .spawn => if c.active then c.go .reading else .ok (some (c, .reading, [.stage .provisional]))
  | .reading =>
    if c.dead then c.go .returned
    else
      match input.conf with
      | none => c.go .checkActive
      | some conf => do
        let c ← c.configure env conf
        c.go .checkActive
  | .checkActive => c.go (if c.active then .checkLeaving else .reading)
  | .checkLeaving =>
    if c.leaving then c.go .reading else { c with prepared := c.prepared + 1 }.go .reading
  | .ops => c.go (if c.dead then .returned else .get)
  | .get =>
    match c.pending.get with
    | none => .ok none
    | some op => c.go (.submit op .head)
  | .submit op .head => do
    let server ← c.potentialLeader
    c.go (.submit op (.asking server))
  | .submit op (.asking _) =>
    c.go (if input.peer.any Peer.submitOp then .finish op else .submit op .failed)
  | .submit _ .failed => do
    let c ← c.updateLeader
    c.go .ops
  | .finish op => { c with pending := c.pending.finish op }.go .ops
  | .leave => { c with leaving := true }.go (.outer false)
  | .outer isAdd => c.go (if c.dead then .returned else .stage (if isAdd then .add else .remove))
  | .poll isAdd =>
    if input.expired then c.go (.outer isAdd)
    else if c.active = isAdd then c.go .returned
    else .ok none
  | .stage st => c.go (if c.dead then st.done else .attempt st .head)
  | .attempt st pos => c.retry st.killed (.attempt st) (st.answered input.peer) pos
  | .already => { c with active := true }.go (.outer true)
  | .removed => { c with active := false }.go (.poll false)
  | .look => c.go (if c.active then .poll true else .check .add)
  | .check st => c.go (if c.dead ∨ input.expired then st.notMember else .membership st false .head)
  | .membership st last pos =>
    let (inConfiguration, isLeader) := c.inConfiguration input.peer st.isProvisionalReq
    c.retry (st.member last) (.membership st last)
      (.ok (if isLeader then st.member inConfiguration else .membership st inConfiguration .failed))
      pos
  | .returned => .ok none

end Shared

inductive Event where
  /-- A call of `BecomeActive`. -/
  | becomeActive
  | becomeInactive
  /-- A goroutine calls `pending.add`. -/
  | add (op : Op)
  /-- Goroutine `k` takes a step. -/
  | run (k : ℕ) (input : Input)
  /-- The end of `Kill`. -/
  | kill

end Member

/-- A client, as far as its membership is concerned. -/
structure Member where
  shared : Member.Shared
  threads : List Member.Pc
  deriving DecidableEq

namespace Member

/-- `NewClient`, with `readUpdates` and `submitOps`. -/
def new (serverId : String) (seedConf : List String) : Member where
  shared := { serverId, currConf := seedConf }
  threads := [.start false .head, .ops]

def step (env : Env) (c : Member) : Event → Except Crash (Member × Bool)
  | .becomeActive => .ok ({ c with threads := c.threads ++ [.stage .provisional] }, true)
  | .becomeInactive => .ok ({ c with threads := c.threads ++ [.leave] }, true)
  | .add op =>
    .ok ({ c with shared := { c.shared with pending := c.shared.pending.add op } }, true)
  | .run k input =>
    match c.threads[k]? with
    | none => .ok (c, false)
    | some pc => do
      match ← c.shared.advance env input pc with
      | none => .ok (c, false)
      | some (shared, pc, started) =>
        .ok ({ shared, threads := c.threads.set k pc ++ started }, true)
  | .kill => .ok ({ c with shared := { c.shared with dead := true } }, true)

variable {env : Env} {c c' : Member} {e : Event} {k : ℕ} {pc : Pc} {input : Input}

/-- A goroutine waits, or it goes on and starts others. -/
theorem step_run_iff {b : Bool} : c.step env (.run k input) = .ok (c', b) ↔
    (b = false ∧ c' = c ∧ ∀ pc, c.threads[k]? = some pc →
      c.shared.advance env input pc = .ok none) ∨
    b = true ∧ ∃ pc shared pc' started, c.threads[k]? = some pc ∧
      c.shared.advance env input pc = .ok (some (shared, pc', started)) ∧
      c' = { shared, threads := c.threads.set k pc' ++ started } := by
  simp only [step]
  rcases hk : c.threads[k]? with _ | pc
  · constructor
    · rintro ⟨⟩
      exact Or.inl ⟨rfl, rfl, by simp⟩
    · rintro (⟨rfl, rfl, -⟩ | ⟨-, pc, _, _, _, hpc, -⟩)
      · rfl
      · cases hpc
  · rw [bind_eq_ok_iff]
    constructor
    · rintro ⟨_ | ⟨shared, pc', started⟩, hadv, h⟩
      · cases h
        exact Or.inl ⟨rfl, rfl, by rintro _ ⟨⟩; exact hadv⟩
      · cases h
        exact Or.inr ⟨rfl, pc, shared, pc', started, rfl, hadv, rfl⟩
    · rintro (⟨rfl, rfl, hadv⟩ | ⟨rfl, _, shared, pc', started, ⟨⟩, hadv, rfl⟩)
      · exact ⟨none, hadv pc rfl, rfl⟩
      · exact ⟨some (shared, pc', started), hadv, rfl⟩

/-! ## What a step writes -/

namespace Shared

/-- The writes to what is shared, with the configuration that is read and the operation that is
added. -/
inductive Writes (conf : Option (List String)) (added : Option Op) (c : Shared) : Shared → Prop
  | none : Writes conf added c c
  | leader (h : c.currConf.length ≠ 0) : Writes conf added c
      { c with lastKnownLeaderInd := (c.lastKnownLeaderInd + 1) % c.currConf.length }
  | active (b : Bool) : Writes conf added c { c with active := b }
  | leaving : Writes conf added c { c with leaving := true }
  | conf {servers : List String} (h : conf = some servers) : Writes conf added c
      { c.learn servers with currConf := servers, lastKnownLeaderInd := 0 }
  | prepared (h : c.leaving = false) : Writes conf added c { c with prepared := c.prepared + 1 }
  | finish (op : Op) : Writes conf added c { c with pending := c.pending.finish op }
  | add {op : Op} (h : added = some op) :
      Writes conf added c { c with pending := c.pending.add op }
  | dead : Writes conf added c { c with dead := true }

variable {env : Env} {c c' : Shared} {input : Input} {pc pc' : Pc} {started : List Pc}
  {conf : Option (List String)} {added : Option Op}

theorem go_eq_iff : c.go pc = .ok (some (c', pc', started)) ↔ c' = c ∧ pc' = pc ∧ started = [] := by
  simp [go, eq_comm]

/-- What a loop over the servers does. -/
theorem retry_eq {killed : Pc} {loop : Retry → Pc} {answered : Except Crash Pc} {pos : Retry}
    (h : c.retry killed loop answered pos = .ok (some (c', pc', started))) : started = [] ∧
    (pos = .head ∧ c.dead = true ∧ c' = c ∧ pc' = killed ∨
      pos = .head ∧ c.dead = false ∧ c' = c ∧ (∃ server, pc' = loop (.asking server)) ∨
      (∃ server, pos = .asking server) ∧ c' = c ∧ answered = .ok pc' ∨
      pos = .failed ∧ c.updateLeader = .ok c' ∧ pc' = loop .head) := by
  cases pos with
  | head =>
    simp only [retry] at h
    split_ifs at h with hdead
    · obtain ⟨rfl, rfl, rfl⟩ := go_eq_iff.1 h
      exact ⟨rfl, Or.inl ⟨rfl, hdead, rfl, rfl⟩⟩
    · obtain ⟨server, -, h⟩ := bind_eq_ok_iff.1 h
      obtain ⟨rfl, rfl, rfl⟩ := go_eq_iff.1 h
      exact ⟨rfl, Or.inr (Or.inl ⟨rfl, by simpa using hdead, rfl, server, rfl⟩)⟩
  | asking server =>
    obtain ⟨pc, hpc, h⟩ := bind_eq_ok_iff.1 h
    obtain ⟨rfl, rfl, rfl⟩ := go_eq_iff.1 h
    exact ⟨rfl, Or.inr (Or.inr (Or.inl ⟨⟨server, rfl⟩, rfl, hpc⟩))⟩
  | failed =>
    obtain ⟨u, hu, h⟩ := bind_eq_ok_iff.1 h
    obtain ⟨rfl, rfl, rfl⟩ := go_eq_iff.1 h
    exact ⟨rfl, Or.inr (Or.inr (Or.inr ⟨rfl, hu, rfl⟩))⟩

theorem writes_of_updateLeader (h : c.updateLeader = .ok c') : Writes conf added c c' := by
  unfold updateLeader at h
  split_ifs at h with hlen
  cases h
  exact .leader hlen

theorem writes_of_retry {killed : Pc} {loop : Retry → Pc} {answered : Except Crash Pc}
    {pos : Retry} (h : c.retry killed loop answered pos = .ok (some (c', pc', started))) :
    Writes conf added c c' := by
  obtain ⟨-, ⟨-, -, rfl, -⟩ | ⟨-, -, rfl, -⟩ | ⟨-, rfl, -⟩ | ⟨-, h, -⟩⟩ := retry_eq h
  · exact .none
  · exact .none
  · exact .none
  · exact writes_of_updateLeader h

/-- A goroutine writes what the update it reads says, and adds nothing to the queue. -/
theorem writes_of_advance (h : c.advance env input pc = .ok (some (c', pc', started))) :
    Writes input.conf Option.none c c' := by
  have hgo : ∀ {u : Shared} {p : Pc}, Writes input.conf Option.none c u →
      u.go p = .ok (some (c', pc', started)) → Writes input.conf Option.none c c' := by
    intro u p hu h
    obtain ⟨rfl, -, -⟩ := go_eq_iff.1 h
    exact hu
  cases pc with
  | start | attempt | membership => exact writes_of_retry h
  | get =>
    simp only [advance] at h
    split at h
    · cases h
    · exact hgo .none h
  | submit op pos =>
    cases pos with
    | head =>
      obtain ⟨server, -, h⟩ := bind_eq_ok_iff.1 h
      exact hgo .none h
    | asking server => exact hgo .none h
    | failed =>
      obtain ⟨u, hu, h⟩ := bind_eq_ok_iff.1 h
      exact hgo (writes_of_updateLeader hu) h
  | finish op => exact hgo (.finish op) h
  | assign member => exact hgo (.active member) h
  | spawn =>
    simp only [advance] at h
    split_ifs at h
    · exact hgo .none h
    · cases h
      exact .none
  | reading =>
    simp only [advance] at h
    split_ifs at h
    · exact hgo .none h
    · split at h
      · exact hgo .none h
      · rename_i conf hconf
        obtain ⟨u, hu, h⟩ := bind_eq_ok_iff.1 h
        unfold configure at hu
        split_ifs at hu
        cases hu
        exact hgo (.conf hconf) h
  | checkLeaving =>
    simp only [advance] at h
    split_ifs at h with hleaving
    · exact hgo .none h
    · exact hgo (.prepared (by simpa using hleaving)) h
  | leave => exact hgo .leaving h
  | already => exact hgo (.active true) h
  | removed => exact hgo (.active false) h
  | poll isAdd =>
    simp only [advance] at h
    split_ifs at h
    · exact hgo .none h
    · exact hgo .none h
    · cases h
  | returned => cases h
  | checkActive | ops | outer | stage | look | check => exact hgo .none h

end Shared

/-- The configuration that is read. -/
def Event.conf : Event → Option (List String)
  | run _ input => input.conf
  | _ => none

/-- The operation that is added to the queue. -/
def Event.added : Event → Option Op
  | add op => some op
  | _ => none

/-- What a step of the client writes. -/
theorem writes_of_step {b : Bool} (hs : c.step env e = .ok (c', b)) :
    Shared.Writes e.conf e.added c.shared c'.shared := by
  cases e with
  | becomeActive | becomeInactive =>
    cases hs
    exact .none
  | add op =>
    cases hs
    exact .add rfl
  | kill =>
    cases hs
    exact .dead
  | run k input =>
    rcases step_run_iff.1 hs with ⟨-, rfl, -⟩ | ⟨-, pc, shared, pc', started, -, hadv, rfl⟩
    · exact .none
    · exact Shared.writes_of_advance hadv

/-! ## The index of the leader -/

/-- No configuration is empty, and nobody is told that the server is not provisional. -/
@[mk_iff]
structure Input.Regular (input : Input) : Prop where
  conf : input.conf ≠ some []
  peer : ∀ p ∈ input.peer, p.addServer ≠ .notProvisional ∧ p.removeServer ≠ .notProvisional

def Event.Regular : Event → Prop
  | run _ input => input.Regular
  | _ => True

/-- A state after regular events. -/
def Reachable (env : Env) (c : Member) : Prop := ∃ serverId seedConf hist,
  seedConf ≠ [] ∧ History (step env) (fun _ e => e.Regular) (new serverId seedConf) (c :: hist)

theorem Reachable.of_run {log : List Event} (h : c.Reachable env) (hlog : ∀ e ∈ log, e.Regular)
    (hrun : run (step env) c log = .ok c') : c'.Reachable env := by
  obtain ⟨serverId, seedConf, hist, hseed, h⟩ := h
  obtain ⟨hist', h'⟩ := h.of_run (fun e he _ => hlog e he) hrun
  exact ⟨serverId, seedConf, hist', hseed, h'⟩

namespace Shared

def InRange (c : Shared) : Prop := c.lastKnownLeaderInd < c.currConf.length

variable {env : Env} {c c' : Shared} {input : Input} {pc pc' : Pc} {started : List Pc}
  {conf : Option (List String)} {added : Option Op}

theorem Writes.inRange (h : Writes conf added c c') (hconf : conf ≠ some []) (hr : c.InRange) :
    c'.InRange := by
  cases h with
  | leader hlen => exact Nat.mod_lt _ (Nat.pos_of_ne_zero hlen)
  | conf h => exact List.length_pos_of_ne_nil fun hnil => hconf (hnil ▸ h)
  | none | active | leaving | prepared | finish | add | dead => exact hr

theorem Writes.stays_dead (h : Writes conf added c c') (hdead : c.dead = true) :
    c'.dead = true := by
  cases h with
  | conf h =>
    unfold learn
    split_ifs <;> exact hdead
  | dead => rfl
  | none | leader | active | leaving | prepared | finish | add => exact hdead

theorem addRemove_ne {p : Peer} (hadd : p.addServer ≠ .notProvisional)
    (hremove : p.removeServer ≠ .notProvisional) (isAdd : Bool) :
    p.addRemove isAdd ≠ .notProvisional := by
  unfold Peer.addRemove
  cases isAdd <;> dsimp only <;> split_ifs <;> simp_all

theorem answered_total (hreg : input.Regular) (st : Stage) :
    ∃ pc, st.answered input.peer = .ok pc := by
  have hne : ∀ isAdd, input.peer.map (Peer.addRemove · isAdd) ≠ some .notProvisional := by
    intro isAdd heq
    obtain ⟨p, hp, hans⟩ := Option.map_eq_some_iff.1 heq
    obtain ⟨hadd, hremove⟩ := hreg.peer p hp
    exact addRemove_ne hadd hremove isAdd hans
  cases st <;> simp only [Stage.answered] <;> split <;> first
    | exact ⟨_, rfl⟩
    | exact absurd ‹_› (hne _)

theorem retry_total (hr : c.InRange) {killed : Pc} {loop : Retry → Pc}
    {answered : Except Crash Pc} (hans : ∃ pc, answered = .ok pc) (pos : Retry) :
    ∃ r, c.retry killed loop answered pos = .ok r := by
  cases pos with
  | head =>
    simp only [retry, potentialLeader, List.getElem?_eq_getElem hr]
    split_ifs <;> exact ⟨_, rfl⟩
  | asking server =>
    obtain ⟨pc, rfl⟩ := hans
    exact ⟨_, rfl⟩
  | failed =>
    have hlen : c.currConf.length ≠ 0 := Nat.ne_of_gt (Nat.zero_lt_of_lt hr)
    simp only [retry, updateLeader, if_neg hlen]
    exact ⟨_, rfl⟩

theorem advance_total (env : Env) (hr : c.InRange) (hreg : input.Regular) (pc : Pc) :
    ∃ r, c.advance env input pc = .ok r := by
  cases pc with
  | start | membership => exact retry_total hr ⟨_, rfl⟩ _
  | attempt st pos => exact retry_total hr (answered_total hreg st) pos
  | get =>
    simp only [advance]
    split <;> exact ⟨_, rfl⟩
  | submit op pos =>
    cases pos with
    | head =>
      simp only [advance, potentialLeader, List.getElem?_eq_getElem hr]
      exact ⟨_, rfl⟩
    | asking server => exact ⟨_, rfl⟩
    | failed =>
      have hlen : c.currConf.length ≠ 0 := Nat.ne_of_gt (Nat.zero_lt_of_lt hr)
      simp only [advance, updateLeader, if_neg hlen]
      exact ⟨_, rfl⟩
  | reading =>
    simp only [advance]
    split_ifs
    · exact ⟨_, rfl⟩
    · split
      · exact ⟨_, rfl⟩
      · rename_i conf hconf
        have hne : conf.length ≠ 0 := fun hlen =>
          hreg.conf (List.length_eq_zero_iff.1 hlen ▸ hconf)
        simp only [configure, hne, and_false, if_false]
        exact ⟨_, rfl⟩
  | spawn =>
    simp only [advance]
    split_ifs <;> exact ⟨_, rfl⟩
  | checkLeaving =>
    simp only [advance]
    split_ifs <;> exact ⟨_, rfl⟩
  | poll isAdd =>
    simp only [advance]
    split_ifs <;> exact ⟨_, rfl⟩
  | assign | checkActive | ops | finish | leave | outer | stage | already | removed | look | check
  | returned => exact ⟨_, rfl⟩

end Shared

theorem conf_of_regular (he : e.Regular) : e.conf ≠ some [] := by
  cases e with
  | run k input => exact Input.Regular.conf he
  | becomeActive | becomeInactive | add | kill => simp [Event.conf]

theorem inRange_step (hr : c.shared.InRange) (he : e.Regular) {b : Bool}
    (hs : c.step env e = .ok (c', b)) : c'.shared.InRange :=
  (writes_of_step hs).inRange (conf_of_regular he) hr

theorem inRange_of_reachable (h : c.Reachable env) : c.shared.InRange := by
  obtain ⟨serverId, seedConf, hist, hseed, hist'⟩ := h
  have hinit : (new serverId seedConf).shared.InRange := List.length_pos_of_ne_nil hseed
  refine hist'.forall_mem (P := fun u => u.shared.InRange) hinit ?_ c List.mem_cons_self
  intro u hist e v b _ hu he hs
  exact inRange_step (hu u List.mem_cons_self) he hs

/-- **In range.** However the goroutines are interleaved with calls and configuration updates, the
index is one of the configuration, so that no step panics over it. -/
theorem no_index_panic (h : c.Reachable env) :
    c.shared.lastKnownLeaderInd < c.shared.currConf.length ∧
      ∀ e : Event, e.Regular → ∃ r, c.step env e = .ok r := by
  have hr := inRange_of_reachable h
  refine ⟨hr, fun e he => ?_⟩
  cases e with
  | becomeActive | becomeInactive | add | kill => exact ⟨_, rfl⟩
  | run k input =>
    simp only [step]
    rcases c.threads[k]? with _ | pc
    · exact ⟨_, rfl⟩
    · obtain ⟨r, hadv⟩ := Shared.advance_total env hr he pc
      rcases r with _ | ⟨shared, pc', started⟩
      · exact ⟨(c, false), by simp only [hadv]; rfl⟩
      · exact ⟨_, by simp only [hadv]; rfl⟩

/-- Assertions are on. -/
def pairEnv : Env := ⟨firstBytes, fun _ => true, true⟩

/-- A client on the second of two servers. -/
def pairClient : Member := new "b" ["a", "b"]

theorem reachable_pairClient (env : Env) : pairClient.Reachable env :=
  ⟨"b", ["a", "b"], [], by simp, .init⟩

/-- A server in the configuration. -/
def memberPeer : Peer where
  getProvisionalConfiguration := (true, [])
  getCurrentConfiguration := (true, ["b"])
  addProvisional := .alreadyInConfiguration
  addServer := .alreadyComplete
  removeServer := .ok
  submitOp := true

/-- `setActive` asks the first server in vain and the second one with success, `readUpdates` reads
that only the second is left, and `submitOps` has an operation to submit. -/
def confEvents : List Event :=
  [.run 0 {}, .run 0 {}, .run 0 {}, .run 0 {}, .run 0 { peer := some memberPeer }, .run 0 {},
    .run 0 {}, .run 0 { conf := some ["b"] }, .add (.join 7 0), .run 1 {}, .run 1 {}]

theorem regular_confEvents : ∀ e ∈ confEvents, e.Regular := by
  simp [confEvents, Event.Regular, Input.regular_iff, memberPeer]

/-- The index has been moved on by `updateLeader` and set back with the configuration. -/
theorem no_index_panic_pair : ∃ c : Member, run (step pairEnv) pairClient confEvents = .ok c ∧
    c.shared.currConf = ["b"] ∧ c.threads[1]? = some (.submit (.join 7 0) .head) ∧
    c.shared.lastKnownLeaderInd < c.shared.currConf.length ∧
    ∃ r, c.step pairEnv (.run 1 {}) = .ok r := by
  obtain ⟨c, hrun, hc⟩ := exists_of_endsWith (by decide +kernel :
    endsWith (step pairEnv) pairClient confEvents (fun c => decide (c.shared.currConf = ["b"] ∧
      c.threads[1]? = some (.submit (.join 7 0) .head))) = true)
  obtain ⟨hconf, hthread⟩ := of_decide_eq_true hc
  obtain ⟨hindex, hstep⟩ := no_index_panic
    ((reachable_pairClient pairEnv).of_run regular_confEvents hrun)
  exact ⟨c, hrun, hconf, hthread, hindex, hstep (.run 1 {}) ⟨by simp, by simp⟩⟩

/-! ## Leaving -/

/-- No configuration update leaves this server out. -/
def Event.Keeps (serverId : String) : Event → Prop
  | run _ input => ∀ conf ∈ input.conf, serverId ∈ conf
  | _ => True

/-- `removeSelf` belongs to `BecomeInactive`, the others to `BecomeActive`. -/
def Stage.isAdd : Stage → Bool
  | remove => false
  | _ => true

/-- Whether a position is one of `BecomeActive` or of `BecomeInactive`. -/
def Pc.job : Pc → Option Bool
  | outer isAdd | poll isAdd => some isAdd
  | leave | removed => some false
  | already | look => some true
  | stage st | attempt st _ | check st | membership st _ _ => some st.isAdd
  | _ => none

namespace Stage

theorem job_done (st : Stage) : st.done.job = some st.isAdd := by cases st <;> rfl

theorem job_killed (st : Stage) : st.killed.job = some st.isAdd := by cases st <;> rfl

theorem job_notMember (st : Stage) : st.notMember.job = some st.isAdd := by cases st <;> rfl

theorem job_member (st : Stage) (b : Bool) : (st.member b).job = some st.isAdd := by
  cases st <;> cases b <;> rfl

theorem job_answered {st : Stage} {peer : Option Peer} (h : st.answered peer = .ok pc) :
    pc.job = some st.isAdd := by
  cases st <;> simp only [answered] at h <;> split at h <;> cases h <;> rfl

end Stage

namespace Shared

variable {c c' : Shared} {pc' : Pc} {started : List Pc} {isAdd : Bool}

theorem job_retry {killed : Pc} {loop : Retry → Pc} {answered : Except Crash Pc} {pos : Retry}
    {job : Option Bool} (h : c.retry killed loop answered pos = .ok (some (c', pc', started)))
    (hk : killed.job = job) (hl : ∀ pos, (loop pos).job = job)
    (ha : ∀ pc, answered = .ok pc → pc.job = job) : pc'.job = job := by
  obtain ⟨-, ⟨-, -, -, rfl⟩ | ⟨-, -, -, server, rfl⟩ | ⟨-, -, hans⟩ | ⟨-, -, rfl⟩⟩ := retry_eq h
  · exact hk
  · exact hl _
  · exact ha _ hans
  · exact hl _

/-- A goroutine goes on with its procedure, or returns because it has seen what it waited for or
because the client is dead. -/
theorem job_advance (hpc : pc.job = some isAdd)
    (h : c.advance env input pc = .ok (some (c', pc', started))) :
    pc'.job = some isAdd ∨ c.dead = true ∨ c.active = isAdd := by
  have hgo : ∀ {u : Shared} {p : Pc}, p.job = some isAdd → u.go p = .ok (some (c', pc', started)) →
      pc'.job = some isAdd := by
    intro u p hp h
    obtain ⟨-, rfl, -⟩ := go_eq_iff.1 h
    exact hp
  cases pc with
  | start | assign | spawn | reading | checkActive | checkLeaving | ops | get | submit | finish
  | returned => cases hpc
  | outer b =>
    cases hpc
    by_cases hdead : c.dead = true
    · exact Or.inr (Or.inl hdead)
    · simp only [advance, if_neg hdead] at h
      exact Or.inl (hgo (by cases isAdd <;> rfl) h)
  | poll b =>
    cases hpc
    by_cases hactive : c.active = isAdd
    · exact Or.inr (Or.inr hactive)
    · simp only [advance, if_neg hactive] at h
      split_ifs at h
      · exact Or.inl (hgo rfl h)
      · cases h
  | leave | already | removed =>
    cases hpc
    exact Or.inl (hgo rfl h)
  | look =>
    cases hpc
    refine Or.inl (hgo ?_ h)
    split_ifs <;> rfl
  | stage st =>
    refine Or.inl (hgo ?_ h)
    split_ifs
    · exact st.job_done.trans hpc
    · exact hpc
  | check st =>
    refine Or.inl (hgo ?_ h)
    split_ifs
    · exact st.job_notMember.trans hpc
    · exact hpc
  | attempt st pos =>
    cases hpc
    exact Or.inl (job_retry h st.job_killed (fun _ => rfl) fun _ => Stage.job_answered)
  | membership st last pos =>
    cases hpc
    refine Or.inl (job_retry h (st.job_member last) (fun _ => rfl) ?_)
    rintro pc ⟨⟩
    split_ifs
    · exact st.job_member _
    · rfl

end Shared

theorem dead_step (hdead : c.shared.dead = true) {b : Bool} (hs : c.step env e = .ok (c', b)) :
    c'.shared.dead = true :=
  (writes_of_step hs).stays_dead hdead

/-- What a goroutine does, or another while it stands still. -/
theorem job_step {isAdd : Bool} (hk : c.threads[k]? = some pc) (hpc : pc.job = some isAdd)
    {b : Bool} (hs : c.step env e = .ok (c', b)) :
    (∃ pc', c'.threads[k]? = some pc' ∧ pc'.job = some isAdd) ∨ c.shared.dead = true ∨
      c.shared.active = isAdd := by
  have hlt := (List.getElem?_eq_some_iff.1 hk).1
  cases e with
  | becomeActive | becomeInactive =>
    cases hs
    exact Or.inl ⟨pc, by rw [List.getElem?_append_left hlt, hk], hpc⟩
  | add | kill =>
    cases hs
    exact Or.inl ⟨pc, hk, hpc⟩
  | run i input =>
    rcases step_run_iff.1 hs with ⟨-, rfl, -⟩ | ⟨-, p, shared, p', started, hi, hadv, rfl⟩
    · exact Or.inl ⟨pc, hk, hpc⟩
    · rcases eq_or_ne i k with rfl | hne
      · cases hk.symm.trans hi
        refine (Shared.job_advance hpc hadv).imp_left fun hp' => ⟨p', ?_, hp'⟩
        rw [List.getElem?_append_left (by simpa using hlt), Threads.getElem?_set_self hk]
      · refine Or.inl ⟨pc, ?_, hpc⟩
        rw [List.getElem?_append_left (by simpa using hlt), List.getElem?_set_ne hne, hk]

/-- **What a return means.** When a call of `BecomeActive` or `BecomeInactive` has returned, the
client was active or inactive at a moment of the call, or it is dead. -/
theorem become_returns {isAdd : Bool} {log : List Event} (hk : c.threads[k]? = some pc)
    (hpc : pc.job = some isAdd) (h : run (step env) c log = .ok c')
    (hret : c'.threads[k]? = some .returned) :
    c'.shared.dead = true ∨ ∃ u ∈ trace (step env) c log, u.shared.active = isAdd := by
  have hmain : (∃ pc, c'.threads[k]? = some pc ∧ pc.job = some isAdd) ∨
      c'.shared.dead = true ∨ ∃ u ∈ trace (step env) c log, u.shared.active = isAdd := by
    refine run_induction (I := fun log u => (∃ pc, u.threads[k]? = some pc ∧
      pc.job = some isAdd) ∨ u.shared.dead = true ∨
        ∃ v ∈ trace (step env) c log, v.shared.active = isAdd) (Or.inl ⟨pc, hk, hpc⟩) ?_ h
    intro log u e v b hu hI hs
    rcases hI with ⟨p, hp, hjob⟩ | hdead | ⟨w, hw, hactive⟩
    · rcases job_step hp hjob hs with hgo | hdead | hactive
      · exact Or.inl hgo
      · exact Or.inr (Or.inl (dead_step hdead hs))
      · refine Or.inr (Or.inr ⟨u, ?_, hactive⟩)
        exact trace_subset_append c log [e] (mem_trace_of_run hu)
    · exact Or.inr (Or.inl (dead_step hdead hs))
    · exact Or.inr (Or.inr ⟨w, trace_subset_append c log [e] hw, hactive⟩)
  refine hmain.resolve_left ?_
  rintro ⟨p, hp, hjob⟩
  cases hret.symm.trans hp
  cases hjob

/-- `BecomeActive`, which finds that the server is in the configuration. -/
def activeEvents : List Event :=
  [.run 0 {}, .run 0 {}, .run 0 { peer := some memberPeer }, .run 0 {}, .run 0 {}, .run 0 {},
    .run 0 {}, .run 0 { peer := some memberPeer }, .run 0 {}, .run 0 {}]

theorem become_returns_member : ∃ c' : Member,
    run (step pairEnv) ⟨{ serverId := "b", currConf := ["a"] }, [.stage .provisional]⟩
      activeEvents = .ok c' ∧ c'.threads = [.returned] ∧
    ∃ u ∈ trace (step pairEnv) ⟨{ serverId := "b", currConf := ["a"] }, [.stage .provisional]⟩
      activeEvents, u.shared.active = true := by
  obtain ⟨c', hrun, hc'⟩ := exists_of_endsWith (by decide +kernel :
    endsWith (step pairEnv) ⟨{ serverId := "b", currConf := ["a"] }, [.stage .provisional]⟩
      activeEvents (fun c => decide (c.threads = [.returned] ∧ c.shared.dead = false)) = true)
  obtain ⟨hthreads, hlive⟩ := of_decide_eq_true hc'
  refine ⟨c', hrun, hthreads, (become_returns (k := 0) rfl rfl hrun ?_).resolve_left ?_⟩
  · rw [hthreads]
    rfl
  · simp [hlive]

/-! ## The end -/

/-- A goroutine goes on, and time has passed. -/
def Event.System : Event → Prop
  | run _ input => input.Regular ∧ input.expired = true
  | _ => False

def Retry.weight : Retry → ℕ
  | head => 0
  | failed => 1
  | asking _ => 2

/-- How many steps a goroutine of a dead client can still take. -/
def Pc.weight : Pc → ℕ
  | returned => 0
  | outer _ | reading | ops => 1
  | poll _ | leave | already | checkLeaving | finish _ | submit _ .failed => 2
  | stage _ | removed | checkActive | submit _ (.asking _) => 3
  | check _ | submit _ .head => 4
  | look | spawn | get => 5
  | assign _ => 6
  | membership _ _ pos => 5 + pos.weight
  | attempt _ pos => 6 + pos.weight
  | start _ pos => 7 + pos.weight

def weight (c : Member) : ℕ := (c.threads.map Pc.weight).sum

namespace Stage

theorem weight_done (st : Stage) : st.done.weight ≤ 2 := by cases st <;> decide

theorem weight_killed (st : Stage) : st.killed.weight ≤ 5 := by cases st <;> decide

theorem weight_notMember (st : Stage) : st.notMember.weight ≤ 3 := by cases st <;> decide

theorem weight_member (st : Stage) (b : Bool) : (st.member b).weight ≤ 4 := by
  cases st <;> cases b <;> decide

theorem weight_answered {st : Stage} {peer : Option Peer} (h : st.answered peer = .ok pc) :
    pc.weight ≤ 7 := by
  cases st <;> simp only [answered] at h <;> split at h <;> cases h <;> decide

end Stage

namespace Shared

variable {c c' : Shared} {pc' : Pc} {started : List Pc}

/-- A loop over the servers ends. -/
theorem weight_retry {killed : Pc} {loop : Retry → Pc} {answered : Except Crash Pc} {pos : Retry}
    (h : c.retry killed loop answered pos = .ok (some (c', pc', started))) (hdead : c.dead = true)
    (w : ℕ) (hl : ∀ pos, (loop pos).weight = w + pos.weight) (hk : killed.weight < w)
    (ha : ∀ pc, answered = .ok pc → pc.weight ≤ w + 1) :
    pc'.weight + (started.map Pc.weight).sum < (loop pos).weight := by
  obtain ⟨rfl, ⟨rfl, -, -, rfl⟩ | ⟨-, halive, -⟩ | ⟨⟨server, rfl⟩, -, hans⟩ | ⟨rfl, -, rfl⟩⟩ :=
    retry_eq h
  · simpa [hl, Retry.weight] using hk
  · rw [hdead] at halive
    cases halive
  · have := ha _ hans
    simp only [hl, Retry.weight, List.map_nil, List.sum_nil]
    omega
  · simp [hl, Retry.weight]

theorem weight_advance (hdead : c.dead = true) (hexp : input.expired = true)
    (h : c.advance env input pc = .ok (some (c', pc', started))) :
    pc'.weight + (started.map Pc.weight).sum < pc.weight := by
  have hgo : ∀ {u : Shared} {p : Pc}, p.weight < pc.weight →
      u.go p = .ok (some (c', pc', started)) →
      pc'.weight + (started.map Pc.weight).sum < pc.weight := by
    intro u p hp h
    obtain ⟨-, rfl, rfl⟩ := go_eq_iff.1 h
    simpa using hp
  cases pc with
  | start last pos =>
    refine weight_retry h hdead 7 (fun _ => rfl) (by simp [Pc.weight]) ?_
    rintro pc ⟨⟩
    split_ifs <;> simp [Pc.weight, Retry.weight]
  | ops =>
    simp only [advance, if_pos hdead] at h
    exact hgo (by decide) h
  | get =>
    simp only [advance] at h
    split at h
    · cases h
    · exact hgo (by simp [Pc.weight]) h
  | submit op pos =>
    cases pos with
    | head =>
      obtain ⟨server, -, h⟩ := bind_eq_ok_iff.1 h
      exact hgo (by simp [Pc.weight]) h
    | asking server =>
      refine hgo ?_ h
      split_ifs <;> simp [Pc.weight]
    | failed =>
      obtain ⟨u, -, h⟩ := bind_eq_ok_iff.1 h
      exact hgo (by simp [Pc.weight]) h
  | finish op => exact hgo (by simp [Pc.weight]) h
  | attempt st pos =>
    exact weight_retry h hdead 6 (fun _ => rfl) (Nat.lt_succ_of_le st.weight_killed)
      fun _ => Stage.weight_answered
  | membership st last pos =>
    refine weight_retry h hdead 5 (fun _ => rfl) (Nat.lt_succ_of_le (st.weight_member last)) ?_
    rintro pc ⟨⟩
    split_ifs
    · exact (st.weight_member _).trans (by decide)
    · simp [Pc.weight, Retry.weight]
  | assign | leave | already | removed => exact hgo (by simp [Pc.weight]) h
  | spawn =>
    simp only [advance] at h
    split_ifs at h
    · exact hgo (by decide) h
    · cases h
      decide
  | reading =>
    simp only [advance, if_pos hdead] at h
    exact hgo (by decide) h
  | checkActive =>
    refine hgo ?_ h
    split_ifs <;> decide
  | checkLeaving =>
    simp only [advance] at h
    split_ifs at h
    · exact hgo (by decide) h
    · exact hgo (by decide) h
  | outer isAdd =>
    simp only [advance, if_pos hdead] at h
    exact hgo (by simp [Pc.weight]) h
  | poll isAdd =>
    simp only [advance, if_pos hexp] at h
    exact hgo (by simp [Pc.weight]) h
  | stage st =>
    simp only [advance, if_pos hdead] at h
    exact hgo (Nat.lt_succ_of_le st.weight_done) h
  | look =>
    refine hgo ?_ h
    split_ifs <;> decide
  | check st =>
    simp only [advance, hdead, true_or, if_true] at h
    exact hgo (Nat.lt_succ_of_le st.weight_notMember) h
  | returned => cases h

theorem retry_ne_none {killed : Pc} {loop : Retry → Pc} {answered : Except Crash Pc}
    (pos : Retry) : c.retry killed loop answered pos ≠ .ok none := by
  intro h
  cases pos with
  | head =>
    simp only [retry] at h
    split_ifs at h
    · cases h
    · obtain ⟨server, -, h⟩ := bind_eq_ok_iff.1 h
      cases h
  | asking server =>
    obtain ⟨pc, -, h⟩ := bind_eq_ok_iff.1 h
    cases h
  | failed =>
    obtain ⟨u, -, h⟩ := bind_eq_ok_iff.1 h
    cases h

/-- When time has passed, nobody stands still but who has returned, or waits for an operation. -/
theorem idle_of_advance (hexp : input.expired = true) (h : c.advance env input pc = .ok none) :
    pc = .returned ∨ pc = .get ∧ c.pending.get = none := by
  cases pc with
  | start | attempt | membership => exact absurd h (retry_ne_none _)
  | get =>
    simp only [advance] at h
    split at h
    · rename_i hnone
      exact Or.inr ⟨rfl, hnone⟩
    · cases h
  | submit op pos =>
    cases pos with
    | head | failed =>
      obtain ⟨u, -, h⟩ := bind_eq_ok_iff.1 h
      cases h
    | asking server => cases h
  | reading =>
    simp only [advance] at h
    split_ifs at h
    · cases h
    · split at h
      · cases h
      · obtain ⟨u, -, h⟩ := bind_eq_ok_iff.1 h
        cases h
  | spawn | checkLeaving =>
    simp only [advance] at h
    split_ifs at h <;> cases h
  | poll isAdd =>
    simp only [advance, if_pos hexp] at h
    cases h
  | returned => exact Or.inl rfl
  | assign | checkActive | ops | finish | leave | outer | stage | already | removed | look
  | check => cases h

end Shared

theorem weight_step (hdead : c.shared.dead = true) (he : e.System)
    (hs : c.step env e = .ok (c', true)) : c'.weight < c.weight := by
  cases e with
  | becomeActive | becomeInactive | add | kill => exact he.elim
  | run k input =>
    obtain ⟨-, pc, shared, pc', started, hk, hadv, rfl⟩ :=
      (step_run_iff.1 hs).resolve_left (by simp)
    have hlt := Shared.weight_advance hdead he.2 hadv
    have hset := Threads.sum_map_set Pc.weight hk pc'
    simp only [weight, List.map_append, List.sum_append]
    omega

theorem idle_of_stuck (hr : c.shared.InRange) (hstuck : Stuck (step env) Event.System c)
    (hk : c.threads[k]? = some pc) : pc = .returned ∨ pc = .get ∧ c.shared.pending.get = none := by
  have hreg : Input.Regular { expired := true } := ⟨by simp, by simp⟩
  obtain ⟨r, hadv⟩ := Shared.advance_total env hr hreg pc
  rcases r with _ | ⟨shared, pc', started⟩
  · exact Shared.idle_of_advance rfl hadv
  · refine absurd (step_run_iff.2 (Or.inr ⟨rfl, pc, shared, pc', started, hk, hadv, rfl⟩))
      (hstuck (.run k { expired := true }) ⟨hreg, rfl⟩ _)

/-- Goroutine `k` waits for an operation, and there is none. -/
def Waits (k : ℕ) (c : Member) : Prop :=
  c.threads[k]? = some .get ∧ c.shared.pending.get = none

theorem Shared.Writes.pending_none {c c' : Shared} {conf : Option (List String)}
    (h : Writes conf Option.none c c') (hq : c.pending.get = Option.none) :
    c'.pending.get = Option.none := by
  cases h with
  | conf h =>
    unfold learn
    split_ifs <;> exact hq
  | finish op => exact EliminationQueue.get_finish hq op
  | add h => cases h
  | none | leader | active | leaving | prepared | dead => exact hq

/-- Nobody but who adds an operation wakes it up. -/
theorem Waits.step (h : c.Waits k) (he : e.added = none) {b : Bool}
    (hs : c.step env e = .ok (c', b)) : c'.Waits k := by
  have hlt := (List.getElem?_eq_some_iff.1 h.1).1
  cases e with
  | becomeActive | becomeInactive =>
    cases hs
    exact ⟨(List.getElem?_append_left hlt).trans h.1, h.2⟩
  | add op => cases he
  | kill =>
    cases hs
    exact h
  | run i input =>
    rcases step_run_iff.1 hs with ⟨-, rfl, -⟩ | ⟨-, pc, shared, pc', started, hi, hadv, rfl⟩
    · exact h
    · refine ⟨?_, (Shared.writes_of_advance hadv).pending_none h.2⟩
      have hne : i ≠ k := by
        rintro rfl
        cases h.1.symm.trans hi
        simp [Shared.advance, h.2] at hadv
      rw [List.getElem?_append_left (by simpa using hlt), List.getElem?_set_ne hne, h.1]

theorem Waits.run {log : List Event} (h : c.Waits k) (hlog : ∀ e ∈ log, e.added = none)
    (hrun : run (Member.step env) c log = .ok c') : c'.Waits k :=
  run_preserves_of (fun e => e.added = none) (fun _ _ _ _ hu he hs => hu.step he hs) hlog h hrun

/-- **How it ends.** Once the client is dead, `readUpdates`, `submitOps` and the calls of
`BecomeActive` and `BecomeInactive` take a bounded number of steps, whatever they are told, if their
calls are answered or fail and time passes.  Then all have returned, except that `submitOps` may be
in `pending.get` with nothing pending.  `Kill` does not wake it up, and it stays there until an
operation is added. -/
theorem loops_end (h : c.Reachable env) (hdead : c.shared.dead = true) :
    (∀ events c', Busy (step env) Event.System c events c' → events.length ≤ c.weight ∧
      (Stuck (step env) Event.System c' → ∀ k pc, c'.threads[k]? = some pc →
        pc = .returned ∨ c'.Waits k)) ∧
    (∃ events c', Busy (step env) Event.System c events c' ∧
      Stuck (step env) Event.System c') ∧
    ∀ k, c.Waits k → ∀ log c', (∀ e ∈ log, e.added = none) → run (step env) c log = .ok c' →
      c'.Waits k := by
  have hstep : ∀ (u : Member) (e : Event) (v : Member),
      u.shared.InRange ∧ u.shared.dead = true → e.System → u.step env e = .ok (v, true) →
      (v.shared.InRange ∧ v.shared.dead = true) ∧ v.weight < u.weight := by
    rintro u e v ⟨hr, hd⟩ he hs
    have hreg : e.Regular := by
      cases e with
      | run k input => exact he.1
      | becomeActive | becomeInactive | add | kill => trivial
    exact ⟨⟨inRange_step hr hreg hs, dead_step hd hs⟩, weight_step hd he hs⟩
  have hI := And.intro (inRange_of_reachable h) hdead
  refine ⟨fun events c' hb => ?_, exists_busy_stuck hstep hI, fun k hk log c' hlog hrun =>
    hk.run hlog hrun⟩
  have hle := hb.length_le hstep hI
  obtain ⟨hr, -⟩ := hb.preserves hstep hI
  refine ⟨by omega, fun hstuck k pc hk => ?_⟩
  exact (idle_of_stuck hr hstuck hk).imp_right fun ⟨hpc, hq⟩ => ⟨hpc ▸ hk, hq⟩

/-- `submitOps` waits for an operation when the client is killed, and is left behind. -/
theorem loops_end_pair : ∃ c : Member, run (step pairEnv) pairClient [.run 1 {}, .kill] = .ok c ∧
    c.shared.dead = true ∧
    (∀ events c', Busy (step pairEnv) Event.System c events c' → events.length ≤ 12) ∧
    ∀ log c', (∀ e ∈ log, e.added = none) → run (step pairEnv) c log = .ok c' →
      c'.threads[1]? = some .get := by
  obtain ⟨c, hrun, hc⟩ := exists_of_endsWith (by decide +kernel :
    endsWith (step pairEnv) pairClient [.run 1 {}, .kill] (fun c => decide (c.shared.dead = true ∧
      c.weight = 12 ∧ c.threads[1]? = some .get ∧ c.shared.pending.get = none)) = true)
  obtain ⟨hdead, hweight, hget, hnone⟩ := of_decide_eq_true hc
  have hreach : c.Reachable pairEnv :=
    (reachable_pairClient pairEnv).of_run (by simp [Event.Regular, Input.regular_iff]) hrun
  obtain ⟨hends, -, hleft⟩ := loops_end hreach hdead
  exact ⟨c, hrun, hdead, fun events c' hb => hweight ▸ (hends events c' hb).1,
    fun log c' hlog h => (hleft 1 ⟨hget, hnone⟩ log c' hlog h).1⟩

end Member

end EggScrambler
