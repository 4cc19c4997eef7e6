import Mathlib
import EggScrambler.Copy

/-!
# The server

`anonbcast/server.go` and `anonbcast/respchannels.go`: the state machine, the channels on which
local clients are sent updates, and the channels on which pending requests wait.  A method runs
while it holds the lock of the server, so that each is one step here; what happens without the lock
is not part of this module.  A channel to a client is represented by all that was ever sent on it;
the client is supposed to read it all the time.

The last section is about subscribers: whatever calls of `GetUpdCh` and `CloseUpdCh` come between
the messages from Raft, what is sent on an open channel is the state at its subscription followed by
the states after all later operations that took effect (`sent_eq_changes`).
-/

namespace EggScrambler

open StateMachine Transition

/-- `UpdateMsg`, of which one of two flags is set. -/
inductive UpdateMsg where
  | configuration (conf : List (String × Bool))
  | stateMachine (sm : StateMachine)
  deriving DecidableEq

/-- `libraft.ApplyMsg`, of which at most one flag is set. -/
inductive ApplyMsg where
  | command (term index : ℤ) (op : Op)
  | raftUpdate (isLeader : Bool)
  | snapshot
  | config (conf : List (String × Bool))
  | empty
  deriving DecidableEq

/-! ## Response channels -/

/-- The channels of the pending requests, by term and index.  A channel is a number: that of the
channels made before it. -/
structure RespChannels where
  m : List ((ℤ × ℤ) × ℕ) := []
  made : ℕ := 0
  closed : List ℕ := []
  deriving DecidableEq

/-- `close(ch)`. -/
def closeChan (closed : List ℕ) (ch : ℕ) : Go (List ℕ) :=
  if ch ∈ closed then .error .closedChannel else .ok (ch :: closed)

namespace RespChannels

def get (r : RespChannels) (i j : ℤ) : Option ℕ := r.m.lookup (i, j)

def create (env : Env) (r : RespChannels) (i j : ℤ) : Go (RespChannels × ℕ) := do
  assertf env (r.get i j = none)
  return ({ r with
    m := ((i, j), r.made) :: r.m.filter fun e => e.1 ≠ (i, j)
    made := r.made + 1 }, r.made)

def clear (r : RespChannels) : Go RespChannels := do
  let closed ← r.m.foldlM (fun closed e => closeChan closed e.2) r.closed
  return { r with m := [], closed }

/-- The stored channels are open and distinct. -/
structure Sound (r : RespChannels) : Prop where
  lt_made : ∀ e ∈ r.m, e.2 < r.made
  not_closed : ∀ e ∈ r.m, e.2 ∉ r.closed
  nodup : (r.m.map Prod.snd).Nodup
  closed_lt : ∀ ch ∈ r.closed, ch < r.made

theorem mem_of_get {r : RespChannels} {i j : ℤ} {ch : ℕ} (h : r.get i j = some ch) :
    ((i, j), ch) ∈ r.m := by
  obtain ⟨l₁, l₂, hm, -⟩ := List.lookup_eq_some_iff.1 h
  rw [hm]
  exact List.mem_append_right _ List.mem_cons_self

theorem create_eq_ok_iff {env : Env} {r r' : RespChannels} {i j : ℤ} {ch : ℕ} :
    r.create env i j = .ok (r', ch) ↔ (env.debug = true → r.get i j = none) ∧ ch = r.made ∧
      r' = { r with
        m := ((i, j), r.made) :: r.m.filter fun e => e.1 ≠ (i, j)
        made := r.made + 1 } := by
  unfold create assertf
  rw [bind_eq_ok_iff]
  constructor
  · rintro ⟨_, ha, h⟩
    split_ifs at ha with hd
    cases h
    exact ⟨fun hdebug => by_contra fun hne => hd ⟨hdebug, hne⟩, rfl, rfl⟩
  · rintro ⟨hd, rfl, rfl⟩
    exact ⟨(), if_neg fun h => h.2 (hd h.1), rfl⟩

theorem Sound.create {env : Env} {r r' : RespChannels} {i j : ℤ} {ch : ℕ} (h : r.Sound)
    (hr : r.create env i j = .ok (r', ch)) : r'.Sound := by
  obtain ⟨-, rfl, rfl⟩ := create_eq_ok_iff.1 hr
  have hsub : ∀ e ∈ r.m.filter fun e => e.1 ≠ (i, j), e ∈ r.m := fun e he =>
    (List.mem_filter.1 he).1
  exact {
    lt_made := by
      rw [List.forall_mem_cons]
      exact ⟨Nat.lt_succ_self _, fun e he => (h.lt_made e (hsub e he)).trans (Nat.lt_succ_self _)⟩
    not_closed := by
      rw [List.forall_mem_cons]
      exact ⟨fun hmem => (h.closed_lt _ hmem).false, fun e he => h.not_closed e (hsub e he)⟩
    nodup := by
      rw [List.map_cons, List.nodup_cons]
      refine ⟨fun hmem => ?_, h.nodup.sublist (List.filter_sublist.map _)⟩
      obtain ⟨e, he, heq⟩ := List.mem_map.1 hmem
      exact (h.lt_made e (hsub e he)).ne heq
    closed_lt := fun ch hch => (h.closed_lt ch hch).trans (Nat.lt_succ_self _) }

/-- Closing distinct open channels one after the other. -/
theorem foldlM_closeChan {m : List ((ℤ × ℤ) × ℕ)} {closed : List ℕ}
    (hnd : (m.map Prod.snd).Nodup) (hopen : ∀ e ∈ m, e.2 ∉ closed) :
    m.foldlM (fun closed e => closeChan closed e.2) closed =
      .ok ((m.map Prod.snd).reverse ++ closed) := by
  induction m generalizing closed with
  | nil => rfl
  | cons e m ih =>
    rw [List.map_cons, List.nodup_cons] at hnd
    rw [List.foldlM_cons, closeChan, if_neg (hopen e List.mem_cons_self), List.map_cons,
      List.reverse_cons, List.append_assoc]
    refine ih hnd.2 fun e' he' hmem => ?_
    rcases List.mem_cons.1 hmem with heq | hmem
    · exact hnd.1 (heq ▸ List.mem_map_of_mem he')
    · exact hopen e' (List.mem_cons_of_mem _ he') hmem

theorem Sound.clear {r : RespChannels} (h : r.Sound) :
    r.clear = .ok { r with m := [], closed := (r.m.map Prod.snd).reverse ++ r.closed } := by
  rw [RespChannels.clear, foldlM_closeChan h.nodup h.not_closed]
  rfl

theorem Sound.of_clear {r r' : RespChannels} (h : r.Sound) (hr : r.clear = .ok r') : r'.Sound := by
  rw [h.clear] at hr
  cases hr
  refine ⟨by simp, by simp, List.nodup_nil, fun ch hch => ?_⟩
  rcases List.mem_append.1 hch with hch | hch
  · obtain ⟨e, he, rfl⟩ := List.mem_map.1 (List.mem_reverse.1 hch)
    exact h.lt_made e he
  · exact h.closed_lt ch hch

end RespChannels

/-! ## The methods -/

structure Server where
  sm : StateMachine := newStateMachine
  /-- What was sent on the channels that are open, oldest first. -/
  updChs : ℕ → Option (List UpdateMsg) := fun _ => none
  updChIndex : ℕ := 0
  resps : RespChannels := {}

namespace Server

def getUpdCh (s : Server) : Go (Server × ℕ) := do
  let copy ← s.sm.deepCopy
  return ({ s with
    updChs := Function.update s.updChs s.updChIndex (some [.stateMachine copy])
    updChIndex := s.updChIndex + 1 }, s.updChIndex)

def closeUpdCh (s : Server) (index : ℕ) : Go Server :=
  match s.updChs index with
  | none => .error .closedChannel
  | some _ => .ok { s with updChs := Function.update s.updChs index none }

/-- Send to every open channel. -/
def send (s : Server) (msg : UpdateMsg) : Server :=
  { s with updChs := fun i => (s.updChs i).map (· ++ [msg]) }

/-- Every channel is sent a copy of its own, so that none is made if no channel is open. -/
def sendStateMachineUpdate (s : Server) : Go Server :=
  if (List.range s.updChIndex).any fun i => (s.updChs i).isSome then do
    let copy ← s.sm.deepCopy
    return s.send (.stateMachine copy)
  else return s

def sendConfigurationUpdate (s : Server) (conf : List (String × Bool)) : Server :=
  s.send (.configuration conf)

/-- What `applier` does with a message under the lock, and the response channel that it sends on
when it has released it. -/
def handle (env : Env) (s : Server) : ApplyMsg → Go (Server × Option ℕ)
  | .command term index op => do
    let (sm, updated) ← s.sm.apply op
    let s := { s with sm }
    let s ← if updated then s.sendStateMachineUpdate else pure s
    return (s, s.resps.get term index)
  | .raftUpdate isLeader =>
    if isLeader then return (s, none)
    else do
      let resps ← s.resps.clear
      return ({ s with resps }, none)
  | .config conf => return (s.sendConfigurationUpdate conf, none)
  -- "snapshots not implemented yet", "a message has to be either ..."
  | .snapshot | .empty => do
    assertf env False
    return (s, none)

end Server

/-! ## Subscribers -/

/-- What happens at a server under its lock. -/
inductive Call where
  | applier (msg : ApplyMsg)
  | getUpdCh
  | closeUpdCh (index : ℕ)
  deriving DecidableEq

def Server.step (env : Env) (s : Server) : Call → Go (Server × Bool)
  | .applier msg => do
    let (s, _) ← s.handle env msg
    return (s, true)
  | .getUpdCh => do
    let (s, _) ← s.getUpdCh
    return (s, true)
  | .closeUpdCh index => do
    let s ← s.closeUpdCh index
    return (s, true)

/-- The operations of the commands, in the order in which they are applied. -/
def commands (calls : List Call) : List Op :=
  calls.filterMap fun
    | .applier (.command _ _ op) => some op
    | _ => none

/-- The state machines among the messages. -/
def stateMachines (msgs : List UpdateMsg) : List StateMachine :=
  msgs.filterMap fun
    | .stateMachine sm => some sm
    | .configuration _ => none

/-- The states after the operations that take effect. -/
def changes (sm : StateMachine) : List Op → List StateMachine
  | [] => []
  | op :: ops =>
    match sm.apply op with
    | .ok (sm', true) => sm' :: changes sm' ops
    | .ok (sm', false) => changes sm' ops
    | .error _ => []

/-- Every list that gets installed has one message for every participant. -/
def AllFit (sm : StateMachine) : List Op → Prop
  | [] => True
  | op :: ops => Fits sm op ∧ ∀ sm' b, sm.apply op = .ok (sm', b) → AllFit sm' ops

theorem changes_cons {sm sm' : StateMachine} {op : Op} {b : Bool}
    (h : sm.apply op = .ok (sm', b)) (ops : List Op) :
    changes sm (op :: ops) = (if b then [sm'] else []) ++ changes sm' ops := by
  cases b <;> simp [changes, h]

theorem changes_append {sm sm' : StateMachine} {ops : List Op} (h : run apply sm ops = .ok sm')
    (ops' : List Op) : changes sm (ops ++ ops') = changes sm ops ++ changes sm' ops' := by
  induction ops generalizing sm with
  | nil =>
    cases h
    rfl
  | cons op ops ih =>
    obtain ⟨⟨t, b⟩, ht, h⟩ := run_cons_iff.1 h
    rw [List.cons_append, changes_cons ht, changes_cons ht, ih h, List.append_assoc]

theorem AllFit.append {sm : StateMachine} {ops ops' : List Op} (h : AllFit sm (ops ++ ops')) :
    AllFit sm ops ∧ ∀ sm', run apply sm ops = .ok sm' → AllFit sm' ops' := by
  induction ops generalizing sm with
  | nil =>
    refine ⟨trivial, fun sm' hsm' => ?_⟩
    cases hsm'
    exact h
  | cons op ops ih =>
    refine ⟨⟨h.1, fun t b ht => (ih (h.2 t b ht)).1⟩, fun sm' hsm' => ?_⟩
    obtain ⟨⟨t, b⟩, ht, hsm'⟩ := run_cons_iff.1 hsm'
    exact (ih (h.2 t b ht)).2 sm' hsm'

namespace Server

/-- A server that can be copied. -/
structure Good (s : Server) : Prop where
  inv : Inv s.sm
  sized : Sized s.sm
  bound : ∀ i, s.updChIndex ≤ i → s.updChs i = none
  resps : s.resps.Sound
  last : ∀ i sent, s.updChs i = some sent → (stateMachines sent).getLast? = some s.sm

variable {env : Env} {s s' : Server}

theorem good_new : Good {} where
  inv := Inv.new
  sized := Sized.new
  bound _ _ := rfl
  resps := ⟨by simp, by simp, List.nodup_nil, by simp⟩
  last := by simp

theorem Good.deepCopy (h : s.Good) : s.sm.deepCopy = .ok s.sm :=
  h.inv.deepCopy_eq_self_iff.2 h.sized

/-- If no channel is open, nothing is sent to nobody. -/
theorem sendStateMachineUpdate_eq (hc : s.sm.deepCopy = .ok s.sm)
    (hb : ∀ i, s.updChIndex ≤ i → s.updChs i = none) :
    s.sendStateMachineUpdate = .ok (s.send (.stateMachine s.sm)) := by
  unfold sendStateMachineUpdate
  split_ifs with hany
  · rw [hc]
    rfl
  · have hnone : ∀ i, s.updChs i = none := fun i => by
      rcases lt_or_ge i s.updChIndex with hlt | hge
      · by_contra hne
        exact hany (List.any_eq_true.2 ⟨i, List.mem_range.2 hlt, Option.isSome_iff_ne_none.2 hne⟩)
      · exact hb i hge
    have hsend : s.send (.stateMachine s.sm) = s := by
      simp only [send, hnone, Option.map_none]
      rw [← funext hnone]
    rw [hsend]
    rfl

/-- The server after a command whose operation fits. -/
theorem Good.handle_command (env : Env) (h : s.Good) {term index : ℤ} {op : Op}
    (hfit : Fits s.sm op) : ∃ sm b, s.sm.apply op = .ok (sm, b) ∧ Inv sm ∧ Sized sm ∧
      s.handle env (.command term index op) =
        .ok (if b then { s with sm }.send (.stateMachine sm) else s, s.resps.get term index) := by
  obtain ⟨sm, b, hap, hinv⟩ := h.inv.apply_total op
  have hsized := h.sized.apply h.inv hfit hap
  refine ⟨sm, b, hap, hinv, hsized, ?_⟩
  simp only [handle, hap, bind, Except.bind]
  cases b with
  | true =>
    have hsend := sendStateMachineUpdate_eq (s := { s with sm })
      (hinv.deepCopy_eq_self_iff.2 hsized) h.bound
    simp only [if_true, hsend]
    rfl
  | false =>
    rw [eq_of_apply_false hap]
    rfl

/-- What was sent on channel `i` between two states. -/
def Receives (s s' : Server) (i : ℕ) (ops : List Op) : Prop :=
  ∀ sent, s.updChs i = some sent → ∃ more, s'.updChs i = some (sent ++ more) ∧
    stateMachines more = changes s.sm ops

theorem receives_nil {i : ℕ} (h : s'.updChs i = s.updChs i) : Receives s s' i [] :=
  fun sent hsent => ⟨[], by rw [h, hsent, List.append_nil], rfl⟩

theorem Good.command (h : s.Good) {sm : StateMachine} {op : Op} {b : Bool}
    (hap : s.sm.apply op = .ok (sm, b)) (hinv : Inv sm) (hsized : Sized sm) :
    (if b then { s with sm }.send (.stateMachine sm) else s).Good ∧
      (if b then { s with sm }.send (.stateMachine sm) else s).sm = sm ∧
      ∀ i, Receives s (if b then { s with sm }.send (.stateMachine sm) else s) i [op] := by
  cases b with
  | true =>
    refine ⟨⟨hinv, hsized, fun i hi => ?_, h.resps, fun i sent hsent => ?_⟩, rfl,
      fun i sent hsent => ⟨[.stateMachine sm], ?_, ?_⟩⟩
    · simp [send, h.bound i hi]
    · obtain ⟨old, -, rfl⟩ := Option.map_eq_some_iff.1 hsent
      simp [stateMachines, send]
    · simp [send, hsent]
    · rw [changes_cons hap]
      rfl
  | false =>
    rw [eq_of_apply_false hap]
    refine ⟨h, rfl, fun i sent hsent => ⟨[], by simp [hsent], ?_⟩⟩
    rw [changes_cons hap]
    rfl

theorem Good.sendConfigurationUpdate (h : s.Good) (conf : List (String × Bool)) :
    (s.sendConfigurationUpdate conf).Good ∧
      ∀ i, Receives s (s.sendConfigurationUpdate conf) i [] := by
  refine ⟨⟨h.inv, h.sized, fun i hi => ?_, h.resps, fun i sent hsent => ?_⟩,
    fun i sent hsent => ⟨[.configuration conf], ?_, rfl⟩⟩
  · simp [Server.sendConfigurationUpdate, send, h.bound i hi]
  · obtain ⟨old, hold, rfl⟩ := Option.map_eq_some_iff.1 hsent
    have hlast := h.last i old hold
    simpa [stateMachines, Server.sendConfigurationUpdate, send] using hlast
  · simp [Server.sendConfigurationUpdate, send, hsent]

theorem Good.getUpdCh (h : s.Good) {index : ℕ} (hs : s.getUpdCh = .ok (s', index)) :
    s'.Good ∧ s'.sm = s.sm ∧ index = s.updChIndex ∧
      s'.updChs index = some [.stateMachine s.sm] ∧ ∀ i, Receives s s' i [] := by
  simp only [Server.getUpdCh, h.deepCopy, bind, Except.bind] at hs
  cases hs
  refine ⟨⟨h.inv, h.sized, fun i hi => ?_, h.resps, fun i sent hsent => ?_⟩, rfl, rfl,
    Function.update_self .., fun i sent hsent => ?_⟩
  · have hne : i ≠ s.updChIndex := by
      dsimp only at hi
      omega
    exact (Function.update_of_ne hne _ _).trans (h.bound i (by dsimp only at hi; omega))
  · dsimp only at hsent ⊢
    by_cases hi : i = s.updChIndex
    · subst hi
      rw [Function.update_self] at hsent
      cases hsent
      rfl
    · rw [Function.update_of_ne hi] at hsent
      exact h.last i sent hsent
  · -- a channel that was open before has another index
    have hne : i ≠ s.updChIndex := fun hi => by
      rw [hi, h.bound _ le_rfl] at hsent
      cases hsent
    exact receives_nil (Function.update_of_ne hne _ _) sent hsent

theorem Good.closeUpdCh (h : s.Good) {index : ℕ} (hs : s.closeUpdCh index = .ok s') :
    s'.Good ∧ s'.sm = s.sm ∧ ∀ i ≠ index, Receives s s' i [] := by
  unfold Server.closeUpdCh at hs
  split at hs
  · cases hs
  · cases hs
    refine ⟨⟨h.inv, h.sized, fun i hi => ?_, h.resps, fun i sent hsent => ?_⟩, rfl, fun i hi =>
      receives_nil (Function.update_of_ne hi _ _)⟩
    · by_cases hne : i = index
      · subst hne
        exact Function.update_self ..
      · exact (Function.update_of_ne hne _ _).trans (h.bound i hi)
    · dsimp only at hsent ⊢
      by_cases hne : i = index
      · subst hne
        rw [Function.update_self] at hsent
        cases hsent
      · rw [Function.update_of_ne hne] at hsent
        exact h.last i sent hsent

/-- A call keeps the server good and sends the state after its command, if this took effect. -/
theorem Good.step (h : s.Good) {c : Call} {b : Bool} (hfit : AllFit s.sm (commands [c]))
    (hs : s.step env c = .ok (s', b)) :
    s'.Good ∧ run apply s.sm (commands [c]) = .ok s'.sm ∧
      ∀ i, c ≠ .closeUpdCh i → Receives s s' i (commands [c]) := by
  cases c with
  | applier msg =>
    obtain ⟨⟨t, ch⟩, ht, hs⟩ := bind_eq_ok_iff.1 hs
    cases hs
    cases msg with
    | command term index op =>
      obtain ⟨sm, b, hap, hinv, hsized, heq⟩ := h.handle_command env hfit.1
      rw [heq] at ht
      cases ht
      obtain ⟨hgood, hsm, hrec⟩ := h.command hap hinv hsized
      refine ⟨hgood, run_cons_iff.2 ⟨_, hap, ?_⟩, fun i _ => hrec i⟩
      rw [hsm]
      rfl
    | raftUpdate isLeader =>
      cases isLeader with
      | true =>
        cases ht
        exact ⟨h, rfl, fun i _ => receives_nil rfl⟩
      | false =>
        obtain ⟨resps, hclear, ht⟩ := bind_eq_ok_iff.1 ht
        cases ht
        exact ⟨{ h with resps := h.resps.of_clear hclear }, rfl, fun i _ => receives_nil rfl⟩
    | config conf =>
      cases ht
      obtain ⟨hgood, hrec⟩ := h.sendConfigurationUpdate conf
      exact ⟨hgood, rfl, fun i _ => hrec i⟩
    | snapshot | empty =>
      obtain ⟨-, -, ht⟩ := bind_eq_ok_iff.1 ht
      cases ht
      exact ⟨h, rfl, fun i _ => receives_nil rfl⟩
  | getUpdCh =>
    obtain ⟨⟨t, index⟩, ht, hs⟩ := bind_eq_ok_iff.1 hs
    cases hs
    obtain ⟨hgood, hsm, -, -, hrec⟩ := h.getUpdCh ht
    exact ⟨hgood, by rw [hsm]; rfl, fun i _ => hrec i⟩
  | closeUpdCh index =>
    obtain ⟨t, ht, hs⟩ := bind_eq_ok_iff.1 hs
    cases hs
    obtain ⟨hgood, hsm, hrec⟩ := h.closeUpdCh ht
    exact ⟨hgood, by rw [hsm]; rfl, fun i hi => hrec i fun heq => hi (by rw [heq])⟩

/-- So do any calls, for all their commands. -/
theorem Good.run (h : s.Good) {calls : List Call} (hfit : AllFit s.sm (commands calls))
    (hs : Transition.run (Server.step env) s calls = .ok s') :
    s'.Good ∧ Transition.run apply s.sm (commands calls) = .ok s'.sm ∧
      ∀ i, .closeUpdCh i ∉ calls → Receives s s' i (commands calls) := by
  induction calls generalizing s with
  | nil =>
    cases hs
    exact ⟨h, rfl, fun i _ => receives_nil rfl⟩
  | cons c calls ih =>
    obtain ⟨⟨t, b⟩, ht, hs⟩ := run_cons_iff.1 hs
    have hsplit : commands (c :: calls) = commands [c] ++ commands calls :=
      List.filterMap_append (l := [c])
    rw [hsplit] at hfit ⊢
    obtain ⟨hfit₁, hfit₂⟩ := hfit.append
    obtain ⟨hgood, hrun, hrec⟩ := h.step hfit₁ ht
    obtain ⟨hgood', hrun', hrec'⟩ := ih hgood (hfit₂ _ hrun) hs
    refine ⟨hgood', run_append_iff.2 ⟨_, hrun, hrun'⟩, fun i hi sent hsent => ?_⟩
    rw [List.mem_cons, not_or] at hi
    obtain ⟨more, hmore, hsm⟩ := hrec i (Ne.symm hi.1) sent hsent
    obtain ⟨more', hmore', hsm'⟩ := hrec' i hi.2 _ hmore
    refine ⟨more ++ more', by rw [hmore', List.append_assoc], ?_⟩
    rw [changes_append hrun, ← hsm, ← hsm']
    exact List.filterMap_append

/-- A call does not panic, unless it closes a channel that is not open or is handed a message that
the source asserts not to occur. -/
theorem Good.step_total (h : s.Good) {c : Call} (hfit : AllFit s.sm (commands [c]))
    (hclose : ∀ i, c = .closeUpdCh i → s.updChs i ≠ none)
    (hmsg : c ≠ .applier .snapshot ∧ c ≠ .applier .empty) :
    ∃ s', s.step env c = .ok (s', true) := by
  cases c with
  | applier msg =>
    cases msg with
    | command term index op =>
      obtain ⟨sm, b, -, -, -, heq⟩ := h.handle_command env hfit.1
      exact ⟨_, by rw [Server.step, heq]; rfl⟩
    | raftUpdate isLeader =>
      cases isLeader with
      | true => exact ⟨_, rfl⟩
      | false => exact ⟨_, by simp [Server.step, handle, h.resps.clear]; rfl⟩
    | config conf => exact ⟨_, rfl⟩
    | snapshot => exact absurd rfl hmsg.1
    | empty => exact absurd rfl hmsg.2
  | getUpdCh => exact ⟨_, by rw [Server.step, Server.getUpdCh, h.deepCopy]; rfl⟩
  | closeUpdCh index =>
    obtain ⟨sent, hsent⟩ := Option.ne_none_iff_exists'.1 (hclose index rfl)
    exact ⟨_, by simp only [Server.step, Server.closeUpdCh, hsent]; rfl⟩

end Server

/-- **Subscribers miss nothing.** Let every list that gets installed have one message for every
participant.  A client that subscribes after the calls `before` is sent the state of that time and
then, during `after`, the state after each operation that takes effect, in order; the last state
sent on any open channel is the current one; an operation that changes the state reports so; and no
further call panics. -/
theorem sent_eq_changes {env : Env} {before after : List Call} {s₀ s₁ s₂ : Server} {index : ℕ}
    (hfit : AllFit newStateMachine (commands (before ++ after)))
    (h₀ : run (Server.step env) {} before = .ok s₀) (h₁ : s₀.getUpdCh = .ok (s₁, index))
    (h₂ : run (Server.step env) s₁ after = .ok s₂) :
    (.closeUpdCh index ∉ after → ∃ sent, s₂.updChs index = some sent ∧
      stateMachines sent = s₀.sm :: changes s₀.sm (commands after)) ∧
    (∀ i sent, s₂.updChs i = some sent → (stateMachines sent).getLast? = some s₂.sm) ∧
    (∀ op sm updated, s₂.sm.apply op = .ok (sm, updated) → sm ≠ s₂.sm → updated = true) ∧
    ∀ c, AllFit s₂.sm (commands [c]) → (∀ i, c = .closeUpdCh i → s₂.updChs i ≠ none) →
      c ≠ .applier .snapshot ∧ c ≠ .applier .empty → ∃ s₃, s₂.step env c = .ok (s₃, true) := by
  have hsplit : commands (before ++ after) = commands before ++ commands after :=
    List.filterMap_append
  rw [hsplit] at hfit
  obtain ⟨hfit₁, hfit₂⟩ := hfit.append
  obtain ⟨hgood₀, hrun₀, -⟩ := Server.good_new.run hfit₁ h₀
  obtain ⟨hgood₁, hsm, rfl, hfirst, -⟩ := hgood₀.getUpdCh h₁
  obtain ⟨hgood₂, -, hrec⟩ := hgood₁.run (by rw [hsm]; exact hfit₂ _ hrun₀) h₂
  refine ⟨fun hopen => ?_, hgood₂.last, fun op sm updated hap hne => ?_,
    fun c hfit hclose hmsg => hgood₂.step_total hfit hclose hmsg⟩
  · obtain ⟨more, hmore, hchanges⟩ := hrec _ hopen _ hfirst
    refine ⟨_, hmore, ?_⟩
    rw [hsm] at hchanges
    rw [← hchanges]
    rfl
  · cases updated with
    | true => rfl
    | false => exact absurd (eq_of_apply_false hap) hne

/-- A client that subscribes before the first participant joins twice. -/
theorem sent_eq_changes_join :
    ∃ sent, stateMachines sent = newStateMachine :: changes newStateMachine [.join 1 0, .join 1 0] ∧
      sent.length = 2 := by
  have hfit : ∀ sm, Fits sm (.join 1 0) := by
    rintro sm messages ⟨st, id, prev, p, hop, -⟩
    cases st <;> cases hop
  obtain ⟨s₁, h₁, s₂, h₂, hlen⟩ : ∃ s₁, Server.getUpdCh {} = .ok (s₁, 0) ∧ ∃ s₂,
      run (Server.step ⟨fun _ => Vector.replicate 32 0, fun _ => true, true⟩) s₁
        [.applier (.command 1 1 (.join 1 0)), .applier (.command 1 2 (.join 1 0))] = .ok s₂ ∧
      ∀ sent, s₂.updChs 0 = some sent → sent.length = 2 :=
    ⟨_, rfl, _, rfl, fun sent hsent => by cases hsent; rfl⟩
  have hall : AllFit newStateMachine (commands ([] ++
      [.applier (.command 1 1 (.join 1 0)), .applier (.command 1 2 (.join 1 0))])) :=
    ⟨hfit _, fun _ _ _ => ⟨hfit _, fun _ _ _ => trivial⟩⟩
  obtain ⟨sent, hsent, heq⟩ := (sent_eq_changes hall rfl h₁ h₂).1 (by decide)
  exact ⟨sent, heq, hlen sent hsent⟩

end EggScrambler
