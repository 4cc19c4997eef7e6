import Mathlib
import EggScrambler.Membership

/-!
# Looking for the leader

Four loops of a client ask one server after the other until the leader answers: those of
`getMembership`, `attemptProvisional`, `attemptAddRemove` and `submitOps`.  They share the index
that `updateLeader` moves on.  `submitOps` asks nobody while no operation is pending, so that it
counts as such a loop only with an operation in the queue.

* `leader_reached`: a loop that runs alone comes to every server.
* `leader_missed`: two loops together need not.
-/

namespace EggScrambler

open Transition

namespace Member

variable {env : Env} {c c' : Member} {k : ℕ} {pc : Pc} {input : Input}

/-- The server that is asked. -/
def Retry.asked : Retry → Option String
  | asking server => some server
  | _ => none

/-- The server that a loop over the servers asks. -/
def Pc.asked : Pc → Option String
  | start _ pos | submit _ pos | attempt _ pos | membership _ _ pos => pos.asked
  | _ => none

/-- The loops over the servers; `submitOps` submits a pending operation. -/
inductive Loop where
  | start
  | submit (op : Op)
  | attempt (st : Stage)
  | membership (st : Stage)

namespace Loop

/-- Where a loop stands that has had no answer yet. -/
def place : Loop → Retry → Pc
  | start => .start false
  | submit op => .submit op
  | attempt st => .attempt st
  | membership st => .membership st false

/-- Where the body of the loop begins. -/
def begin : Loop → Pc
  | submit _ => .ops
  | l => l.place .head

/-- From there to where the leader is looked up. -/
def approach (k : ℕ) : Loop → List Event
  | submit _ => [.run k {}, .run k {}]
  | _ => []

/-- What `submitOps` submits is pending. -/
def Fed (c : Shared) : Loop → Prop
  | submit op => c.pending.get = some op
  | _ => True

@[simp] theorem asked_place (l : Loop) (pos : Retry) : (l.place pos).asked = pos.asked := by
  cases l <;> rfl

@[simp] theorem asked_begin (l : Loop) : l.begin.asked = none := by
  cases l <;> rfl

variable {c : Shared}

theorem advance_head (l : Loop) (hlive : c.dead = false) {server : String}
    (hi : c.currConf[c.lastKnownLeaderInd]? = some server) :
    c.advance env {} (l.place .head) = c.go (l.place (.asking server)) := by
  cases l <;> simp [place, Shared.advance, Shared.retry, Shared.potentialLeader, hlive, hi] <;> rfl

theorem advance_asking (l : Loop) (c : Shared) (server : String) :
    c.advance env {} (l.place (.asking server)) = c.go (l.place .failed) := by
  cases l with
  | attempt st => cases st <;> rfl
  | _ => rfl

theorem advance_failed (l : Loop) (hr : c.InRange) : c.advance env {} (l.place .failed) =
    { c with lastKnownLeaderInd := (c.lastKnownLeaderInd + 1) % c.currConf.length }.go l.begin := by
  have hlen : c.currConf.length ≠ 0 := Nat.ne_of_gt (Nat.zero_lt_of_lt hr)
  cases l <;> simp only [place, Shared.advance, Shared.retry, Shared.updateLeader, if_neg hlen] <;>
    rfl

end Loop

/-- Goroutine `k` is at another position. -/
def move (c : Member) (k : ℕ) (pc : Pc) : Member := { c with threads := c.threads.set k pc }

/-- `updateLeader` was called `j` times. -/
def turn (c : Member) (j : ℕ) : Member := { c with shared := { c.shared with
  lastKnownLeaderInd := (c.shared.lastKnownLeaderInd + j) % c.shared.currConf.length } }

section Moves

theorem inRange_turn (hr : c.shared.InRange) (j : ℕ) : (c.turn j).shared.InRange :=
  Nat.mod_lt _ (Nat.zero_lt_of_lt hr)

theorem turn_zero (hr : c.shared.InRange) : c.turn 0 = c := by
  simp only [turn, Nat.add_zero, Nat.mod_eq_of_lt hr]

theorem turn_turn (c : Member) (i j : ℕ) : (c.turn i).turn j = c.turn (i + j) := by
  simp only [turn, Nat.mod_add_mod, Nat.add_assoc]

/-- `updateLeader` does not touch the queue. -/
theorem Loop.Fed.turn {l : Loop} (h : l.Fed c.shared) (j : ℕ) : l.Fed (c.turn j).shared := by
  cases l <;> exact h

theorem move_self (hk : c.threads[k]? = some pc) : c.move k pc = c := by
  obtain ⟨hlt, rfl⟩ := List.getElem?_eq_some_iff.1 hk
  simp [move]

theorem threads_move (hk : c.threads[k]? = some pc) (pc' : Pc) :
    (c.move k pc').threads[k]? = some pc' :=
  Threads.getElem?_set_self hk pc'

theorem step_move {shared : Shared} {pc₀ pc' : Pc} (hk : c.threads[k]? = some pc₀)
    (h : c.shared.advance env input pc = shared.go pc') :
    (c.move k pc).step env (.run k input) = .ok ({ c with shared }.move k pc', true) :=
  step_run_iff.2 (Or.inr ⟨rfl, pc, shared, pc', [], threads_move hk pc, h, by simp [move]⟩)

/-- The index comes round to every position. -/
theorem exists_turns {i p n : ℕ} (hi : i < n) (hp : p < n) : ∃ j < n, (i + j) % n = p := by
  refine ⟨(p + n - i) % n, Nat.mod_lt _ (Nat.zero_lt_of_lt hi), ?_⟩
  have hsum : i + (p + n - i) = p + n := by omega
  rw [Nat.add_mod_mod, hsum, Nat.add_mod_right, Nat.mod_eq_of_lt hp]

end Moves

section Failures

variable {l : Loop} {P : Member → Prop}

/-- The way to the lookup, if every state on it has the property. -/
theorem along_approach (hlive : c.shared.dead = false) (hfed : l.Fed c.shared)
    (hk : c.threads[k]? = some l.begin) (hP : ∀ pc, pc.asked = none → P (c.move k pc)) :
    Along (step env) P c (l.approach k) (c.move k (l.place .head)) := by
  have hself := move_self hk
  have hc : P (c.move k l.begin) := hP l.begin l.asked_begin
  cases l with
  | submit op =>
    have hpending : c.shared.pending.get = some op := hfed
    have hops : c.shared.advance env {} .ops = c.shared.go .get := by
      simp [Shared.advance, hlive]
    have hget : c.shared.advance env {} .get = c.shared.go (.submit op .head) := by
      simp only [Shared.advance, hpending]
    nth_rewrite 1 [← hself]
    exact .cons hc (step_move hk hops) (.cons (hP _ rfl) (step_move hk hget) (.nil (hP _ rfl)))
  | start | attempt | membership =>
    nth_rewrite 1 [← hself]
    exact .nil hc

/-- A call that fails, and the next server. -/
def tries (l : Loop) (k : ℕ) : List Event := l.approach k ++ [.run k {}, .run k {}, .run k {}]

theorem run_tries (hr : c.shared.InRange) (hlive : c.shared.dead = false)
    (hfed : l.Fed c.shared) (hk : c.threads[k]? = some l.begin) :
    run (step env) c (tries l k) = .ok (c.turn 1) := by
  have hi := List.getElem?_eq_getElem hr
  have happ : Along (step env) (fun _ => True) c (l.approach k) (c.move k (l.place .head)) :=
    along_approach hlive hfed hk fun _ _ => trivial
  refine run_append_iff.2 ⟨_, happ.1,
    run_cons_iff.2 ⟨_, step_move hk (l.advance_head hlive hi),
    run_cons_iff.2 ⟨_, step_move hk (l.advance_asking _ _),
    run_cons_iff.2 ⟨_, step_move hk (l.advance_failed hr), ?_⟩⟩⟩⟩
  exact congrArg Except.ok (move_self (c := c.turn 1) hk)

theorem run_failures (hr : c.shared.InRange) (hlive : c.shared.dead = false)
    (hfed : l.Fed c.shared) (hk : c.threads[k]? = some l.begin) (j : ℕ) :
    run (step env) c (List.replicate j (tries l k)).flatten = .ok (c.turn j) := by
  induction j with
  | zero => exact congrArg Except.ok (turn_zero hr).symm
  | succ j ih =>
    rw [List.replicate_succ', List.flatten_append, List.flatten_singleton]
    refine run_append_iff.2 ⟨_, ih, ?_⟩
    rw [run_tries (inRange_turn hr j) hlive (hfed.turn j) hk, turn_turn]

end Failures

/-- **The leader is found.** A loop that runs alone, `submitOps` with an operation that is pending,
asks every server of the configuration within as many calls as there are servers. -/
theorem leader_reached (h : c.Reachable env) (hlive : c.shared.dead = false) (l : Loop)
    (hfed : l.Fed c.shared) (hk : c.threads[k]? = some l.begin) {server : String}
    (hserver : server ∈ c.shared.currConf) :
    ∃ j < c.shared.currConf.length, ∃ c',
      run (step env) c ((List.replicate j (tries l k)).flatten ++ (l.approach k ++ [.run k {}])) =
        .ok c' ∧
      c'.threads[k]? = some (l.place (.asking server)) := by
  have hr := inRange_of_reachable h
  obtain ⟨p, hp, rfl⟩ := List.mem_iff_getElem.1 hserver
  obtain ⟨j, hj, hturn⟩ := exists_turns hr hp
  have happ : Along (step env) (fun _ => True) (c.turn j) (l.approach k)
      ((c.turn j).move k (l.place .head)) := along_approach hlive (hfed.turn j) hk fun _ _ => trivial
  have hi : (c.turn j).shared.currConf[(c.turn j).shared.lastKnownLeaderInd]? =
      some c.shared.currConf[p] := by
    simp only [turn]
    rw [hturn, List.getElem?_eq_getElem hp]
  have hadv : (c.turn j).shared.advance env {} (l.place .head) =
      (c.turn j).shared.go (l.place (.asking c.shared.currConf[p])) :=
    l.advance_head (c := (c.turn j).shared) hlive hi
  have hstep := step_move (c := c.turn j) (k := k) hk hadv
  exact ⟨j, hj, _, run_append_iff.2 ⟨_, run_failures hr hlive hfed hk j,
    run_append_iff.2 ⟨_, happ.1, run_cons_iff.2 ⟨_, hstep, rfl⟩⟩⟩,
    threads_move (c := c.turn j) hk _⟩

/-- `setActive` has found that the server is in the configuration, and a round is to be joined. -/
def joinEvents : List Event :=
  [.run 0 {}, .run 0 { peer := some memberPeer }, .run 0 {}, .run 0 {}, .add (.join 7 0)]

/-- The first server does not answer any more when `submitOps` submits the operation. -/
theorem leader_reached_pair : ∃ c : Member, run (step pairEnv) pairClient joinEvents = .ok c ∧
    ∃ j < 2, ∃ c', run (step pairEnv) c
      ((List.replicate j (tries (.submit (.join 7 0)) 1)).flatten ++
        [.run 1 {}, .run 1 {}, .run 1 {}]) = .ok c' ∧
      c'.threads[1]? = some (.submit (.join 7 0) (.asking "b")) := by
  obtain ⟨c, hrun, hc⟩ := exists_of_endsWith (by decide +kernel :
    endsWith (step pairEnv) pairClient joinEvents (fun c => decide (c.shared.dead = false ∧
      c.shared.pending.get = some (.join 7 0) ∧ c.threads[1]? = some .ops ∧
      c.shared.currConf = ["a", "b"])) = true)
  obtain ⟨hlive, hpending, hops, hconf⟩ := of_decide_eq_true hc
  have hreach : c.Reachable pairEnv := (reachable_pairClient pairEnv).of_run
    (by simp [joinEvents, Event.Regular, Input.regular_iff, memberPeer]) hrun
  have hserver : "b" ∈ c.shared.currConf := by simp [hconf]
  have hreached := leader_reached hreach hlive (.submit (.join 7 0)) hpending hops hserver
  rw [hconf] at hreached
  exact ⟨c, hrun, hreached⟩

/-- Two loops take turns, and their calls fail. -/
def lockstep (l₁ l₂ : Loop) (k₁ k₂ : ℕ) : List Event :=
  l₁.approach k₁ ++ (l₂.approach k₂ ++
    [.run k₁ {}, .run k₂ {}, .run k₁ {}, .run k₂ {}, .run k₁ {}, .run k₂ {}])

section Lockstep

variable {k₁ k₂ : ℕ} {l₁ l₂ : Loop} {server : String}

/-- Neither goroutine asks the server. -/
def Misses (k₁ k₂ : ℕ) (server : String) (c : Member) : Prop :=
  ∀ pc, c.threads[k₁]? = some pc ∨ c.threads[k₂]? = some pc → pc.asked ≠ some server

/-- Both goroutines are at other positions. -/
def pose (c : Member) (k₁ k₂ : ℕ) (pc₁ pc₂ : Pc) : Member := (c.move k₁ pc₁).move k₂ pc₂

theorem pose_comm (c : Member) (hne : k₁ ≠ k₂) (pc₁ pc₂ : Pc) :
    c.pose k₁ k₂ pc₁ pc₂ = c.pose k₂ k₁ pc₂ pc₁ := by
  simp only [pose, move, List.set_comm _ _ hne]

theorem pose_self {pc₁ pc₂ : Pc} (h₁ : c.threads[k₁]? = some pc₁)
    (h₂ : c.threads[k₂]? = some pc₂) : c.pose k₁ k₂ pc₁ pc₂ = c := by
  rw [pose, move_self h₁, move_self h₂]

section Pose

variable {begin₁ begin₂ pc₁ pc₂ pc' : Pc}

theorem threads_pose (hne : k₁ ≠ k₂) (h₂ : c.threads[k₂]? = some begin₂) (pc₁ pc₂ : Pc) :
    (c.pose k₁ k₂ pc₁ pc₂).threads[k₂]? = some pc₂ :=
  threads_move ((List.getElem?_set_ne hne).trans h₂) pc₂

theorem misses_pose (hne : k₁ ≠ k₂) (h₁ : c.threads[k₁]? = some begin₁)
    (h₂ : c.threads[k₂]? = some begin₂) (hp₁ : pc₁.asked ≠ some server)
    (hp₂ : pc₂.asked ≠ some server) : Misses k₁ k₂ server (c.pose k₁ k₂ pc₁ pc₂) := by
  rintro pc (hpc | hpc)
  · rw [pose_comm c hne] at hpc
    cases (threads_pose hne.symm h₁ pc₂ pc₁).symm.trans hpc
    exact hp₁
  · cases (threads_pose hne h₂ pc₁ pc₂).symm.trans hpc
    exact hp₂

theorem step_second (hne : k₁ ≠ k₂) (h₂ : c.threads[k₂]? = some begin₂) {shared : Shared}
    (hadv : c.shared.advance env {} pc₂ = shared.go pc') :
    (c.pose k₁ k₂ pc₁ pc₂).step env (.run k₂ {}) =
      .ok ({ c with shared }.pose k₁ k₂ pc₁ pc', true) :=
  step_move (c := c.move k₁ pc₁) ((List.getElem?_set_ne hne).trans h₂) hadv

theorem step_first (hne : k₁ ≠ k₂) (h₁ : c.threads[k₁]? = some begin₁) {shared : Shared}
    (hadv : c.shared.advance env {} pc₁ = shared.go pc') :
    (c.pose k₁ k₂ pc₁ pc₂).step env (.run k₁ {}) =
      .ok ({ c with shared }.pose k₁ k₂ pc' pc₂, true) := by
  rw [pose_comm c hne, step_second hne.symm h₁ hadv, pose_comm _ hne.symm]

end Pose

/-- Both loops ask the same server, and move the index on by two. -/
theorem along_lockstep (env : Env) (hne : k₁ ≠ k₂) (hr : c.shared.InRange)
    (hlive : c.shared.dead = false) (hf₁ : l₁.Fed c.shared) (hf₂ : l₂.Fed c.shared)
    (h₁ : c.threads[k₁]? = some l₁.begin) (h₂ : c.threads[k₂]? = some l₂.begin)
    (hother : c.shared.currConf[c.shared.lastKnownLeaderInd]? ≠ some server) :
    Along (step env) (Misses k₁ k₂ server) c (lockstep l₁ l₂ k₁ k₂) (c.turn 2) := by
  obtain ⟨asked, hi⟩ : ∃ asked, c.shared.currConf[c.shared.lastKnownLeaderInd]? = some asked :=
    ⟨_, List.getElem?_eq_getElem hr⟩
  have hhead : ∀ l : Loop, (l.place .head).asked ≠ some server := by simp [Retry.asked]
  have hfail : ∀ l : Loop, (l.place .failed).asked ≠ some server := by simp [Retry.asked]
  have hask : ∀ l : Loop, (l.place (.asking asked)).asked ≠ some server := by
    intro l hl
    rw [Loop.asked_place] at hl
    exact hother (hi.trans hl)
  have hmiss : ∀ {pc₁ pc₂ : Pc}, pc₁.asked ≠ some server → pc₂.asked ≠ some server →
      Misses k₁ k₂ server (c.pose k₁ k₂ pc₁ pc₂) := misses_pose hne h₁ h₂
  have happ₁ : Along (step env) (Misses k₁ k₂ server) c (l₁.approach k₁)
      (c.move k₁ (l₁.place .head)) := by
    refine along_approach hlive hf₁ h₁ fun pc hpc => ?_
    have hpose : c.pose k₁ k₂ pc l₂.begin = c.move k₁ pc :=
      move_self ((List.getElem?_set_ne hne).trans h₂)
    exact hpose ▸ hmiss (by simp [hpc]) (by simp)
  have happ₂ : Along (step env) (Misses k₁ k₂ server) (c.move k₁ (l₁.place .head))
      (l₂.approach k₂) (c.pose k₁ k₂ (l₁.place .head) (l₂.place .head)) :=
    along_approach hlive hf₂ ((List.getElem?_set_ne hne).trans h₂) fun pc hpc =>
      hmiss (hhead l₁) (by simp [hpc])
  refine happ₁.append (happ₂.append ?_)
  -- both look the leader up, both calls fail, and both call `updateLeader`
  refine .cons (hmiss (hhead l₁) (hhead l₂)) (step_first hne h₁ (l₁.advance_head hlive hi)) ?_
  refine .cons (hmiss (hask l₁) (hhead l₂)) (step_second hne h₂ (l₂.advance_head hlive hi)) ?_
  refine .cons (hmiss (hask l₁) (hask l₂)) (step_first hne h₁ (l₁.advance_asking _ _)) ?_
  refine .cons (hmiss (hfail l₁) (hask l₂)) (step_second hne h₂ (l₂.advance_asking _ _)) ?_
  refine .cons (hmiss (hfail l₁) (hfail l₂)) (step_first hne h₁ (l₁.advance_failed hr)) ?_
  refine .cons (misses_pose (c := c.turn 1) hne h₁ h₂ (by simp) (hfail l₂))
    (step_second (c := c.turn 1) hne h₂ (l₂.advance_failed (inRange_turn hr 1))) ?_
  have hend : ((c.turn 1).turn 1).pose k₁ k₂ l₁.begin l₂.begin = c.turn 2 :=
    (pose_self (c := (c.turn 1).turn 1) h₁ h₂).trans (turn_turn c 1 1)
  exact hend ▸ Along.nil (misses_pose (c := (c.turn 1).turn 1) hne h₁ h₂ (by simp) (by simp))

/-- **The leader may be missed.** The loops share the index.  If there is an even number of servers
and two loops go in step, each calls `n` times and moves the index on after each call, but neither
of them ever asks one half of the servers. -/
theorem leader_missed (l₁ l₂ : Loop) (h : c.Reachable env) (hlive : c.shared.dead = false)
    (hne : k₁ ≠ k₂) (hf₁ : l₁.Fed c.shared) (hf₂ : l₂.Fed c.shared)
    (h₁ : c.threads[k₁]? = some l₁.begin) (h₂ : c.threads[k₂]? = some l₂.begin)
    (hnd : c.shared.currConf.Nodup) (heven : 2 ∣ c.shared.currConf.length) {p : ℕ}
    (hp : c.shared.currConf[p]? = some server) (hodd : p % 2 ≠ c.shared.lastKnownLeaderInd % 2)
    (n : ℕ) :
    run (step env) c (List.replicate n (lockstep l₁ l₂ k₁ k₂)).flatten = .ok (c.turn (2 * n)) ∧
      ∀ u ∈ trace (step env) c (List.replicate n (lockstep l₁ l₂ k₁ k₂)).flatten, ∀ pc,
        u.threads[k₁]? = some pc ∨ u.threads[k₂]? = some pc → pc.asked ≠ some server := by
  have hr := inRange_of_reachable h
  suffices hall : Along (step env) (Misses k₁ k₂ server) c
      (List.replicate n (lockstep l₁ l₂ k₁ k₂)).flatten (c.turn (2 * n)) from hall
  induction n with
  | zero =>
    have hmiss : Misses k₁ k₂ server (c.pose k₁ k₂ l₁.begin l₂.begin) :=
      misses_pose hne h₁ h₂ (by simp) (by simp)
    rw [pose_self h₁ h₂] at hmiss
    exact (turn_zero hr).symm ▸ .nil hmiss
  | succ n ih =>
    rw [List.replicate_succ', List.flatten_append, List.flatten_singleton, Nat.mul_succ,
      ← turn_turn]
    refine ih.append (along_lockstep env hne (inRange_turn hr _) hlive (hf₁.turn _) (hf₂.turn _)
      h₁ h₂ ?_)
    -- the index keeps its parity
    intro heq
    have hlt := (List.getElem?_eq_some_iff.1 hp).1
    have hindex := (List.getElem?_inj hlt hnd).1 (hp.trans heq.symm)
    apply hodd
    rw [hindex]
    simp only [turn, Nat.mod_mod_of_dvd _ heven, Nat.add_mul_mod_self_left]

/-- The client leaves, and still has an operation to submit. -/
def leaveEvents : List Event :=
  joinEvents ++ [.becomeInactive, .run 2 {}, .run 2 {}, .run 2 {}]

/-- `submitOps` and `BecomeInactive` may both ask only the first of two servers. -/
theorem leader_missed_pair : ∃ c : Member, run (step pairEnv) pairClient leaveEvents = .ok c ∧
    ∀ n, run (step pairEnv) c (List.replicate n (lockstep (.submit (.join 7 0)) (.attempt .remove)
        1 2)).flatten = .ok (c.turn (2 * n)) ∧
      ∀ u ∈ trace (step pairEnv) c (List.replicate n (lockstep (.submit (.join 7 0))
        (.attempt .remove) 1 2)).flatten, ∀ pc,
        u.threads[1]? = some pc ∨ u.threads[2]? = some pc → pc.asked ≠ some "b" := by
  obtain ⟨c, hrun, hc⟩ := exists_of_endsWith (by decide +kernel :
    endsWith (step pairEnv) pairClient leaveEvents (fun c => decide (c.shared.dead = false ∧
      c.shared.pending.get = some (.join 7 0) ∧ c.threads[1]? = some .ops ∧
      c.threads[2]? = some (.attempt .remove .head) ∧ c.shared.currConf = ["a", "b"] ∧
      c.shared.lastKnownLeaderInd = 0)) = true)
  obtain ⟨hlive, hpending, hops, hattempt, hconf, hindex⟩ := of_decide_eq_true hc
  have hreach : c.Reachable pairEnv := (reachable_pairClient pairEnv).of_run
    (by simp [leaveEvents, joinEvents, Event.Regular, Input.regular_iff, memberPeer]) hrun
  refine ⟨c, hrun, leader_missed (.submit (.join 7 0)) (.attempt .remove) (p := 1) hreach hlive
    (by decide) hpending trivial hops hattempt ?_ ?_ ?_ ?_⟩
  · simp [hconf]
  · simp [hconf]
  · simp [hconf]
  · simp [hindex]

end Lockstep

end Member

end EggScrambler
