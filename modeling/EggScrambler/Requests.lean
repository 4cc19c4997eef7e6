import Mathlib
import EggScrambler.Server

/-!
# Requests and the applier

Any number of calls of `SubmitOp` run beside the goroutine `applier`.  A call releases the lock
while it waits on its response channel, and the applier releases it while it sends on one, so these
are the points at which the others may take their steps; what runs under the lock is one step.  A
response channel has no buffer: the applier goes on when the request has received.

Raft is represented by its answers.  Nothing is assumed about them but that a command which is
delivered with a term and an index that `Start` has answered is the command that was started: the
events `enter` and `deliver` are possible only then.  In particular commands may be delivered any
number of times, in any order and before the call of `Start` returns.

`Service.Sound` is the invariant.  It follows every channel from the request that waits on it,
through the map, to the applier: all three agree on the term and the index (`keys`).
`Service.replay_of_leads` says what the commands in `applied` did: the state machine is what they
make of a new one.
-/

namespace EggScrambler

open StateMachine Transition

inductive Err where
  | ok
  | wrongLeader
  deriving DecidableEq, Repr

/-- Where a call of `SubmitOp` stands. -/
inductive RequestState where
  /-- It waits for the lock. -/
  | called
  /-- It waits on its channel. -/
  | waiting (ch : ℕ)
  /-- It has left the loop and waits for the lock. -/
  | woken (resp : Bool)
  | replied (err : Err)
  deriving DecidableEq

/-- A call of `SubmitOp`; the last two fields record what it found out. -/
structure Request where
  op : Op
  state : RequestState := .called
  /-- The state on which it asked `GuaranteedNoEffect`. -/
  checked : Option StateMachine := none
  /-- The term and the index that `Start` answered with. -/
  started : Option (ℤ × ℤ) := none
  deriving DecidableEq

/-- Where the goroutine `applier` stands. -/
inductive ApplierState where
  | idle
  /-- It has received a message and waits for the lock. -/
  | received (msg : ApplyMsg)
  /-- It has released the lock and sends on a channel. -/
  | sending (ch : ℕ)
  /-- It has sent and waits for the lock. -/
  | sent
  deriving DecidableEq

/-- Without a channel to send on, the applier goes on to the next message. -/
def ApplierState.next : Option ℕ → ApplierState
  | some ch => .sending ch
  | none => .idle

/-- The command of a message, with term and index. -/
def ApplyMsg.toApply : ApplyMsg → List ((ℤ × ℤ) × Op)
  | command term index op => [((term, index), op)]
  | _ => []

/-- A server with its goroutines. -/
structure Service where
  server : Server := {}
  applier : ApplierState := .idle
  requests : List Request := []
  dead : Bool := false
  /-- The commands that were applied, with term and index. -/
  applied : List ((ℤ × ℤ) × Op) := []
  /-- The term and index that each response channel was made for, oldest first. -/
  keys : List (ℤ × ℤ) := []

inductive ServiceEvent where
  /-- `SubmitOp` is called. -/
  | call (op : Op)
  /-- Request `k` runs up to its loop; `started` is the answer of `Start`, if it is asked. -/
  | enter (k : ℕ) (started : Option (ℤ × ℤ))
  /-- Request `k` receives from its channel. -/
  | receive (k : ℕ)
  /-- Request `k` leaves its loop because the server was killed. -/
  | expire (k : ℕ)
  | reply (k : ℕ)
  /-- The applier receives a message from Raft. -/
  | deliver (msg : ApplyMsg)
  /-- The applier handles the message under the lock. -/
  | handle
  /-- The applier tries to send. -/
  | send
  /-- The applier gets the lock back and goes on. -/
  | finish
  | getUpdCh
  | closeUpdCh (index : ℕ)
  | kill

namespace Service

/-- The commands that the applier has received. -/
def delivered (s : Service) : List ((ℤ × ℤ) × Op) :=
  match s.applier with
  | .received msg => msg.toApply ++ s.applied
  | _ => s.applied

def put (s : Service) (k : ℕ) (req : Request) : Service :=
  { s with requests := s.requests.set k req }

/-- The first part of `SubmitOp`, up to the loop. -/
def enter (env : Env) (s : Service) (k : ℕ) (req : Request)
    (started : Option (ℤ × ℤ)) : Go (Service × Bool) := do
  let req := { req with checked := some s.server.sm }
  if ← s.server.sm.guaranteedNoEffect req.op then
    return (s.put k { req with state := .replied .ok }, true)
  else
    match started with
    | none => return (s.put k { req with state := .replied .wrongLeader }, true)
    | some (term, index) =>
      if ∀ e ∈ s.delivered, e.1 = (term, index) → e.2 = req.op then
        let (resps, ch) ← s.server.resps.create env term index
        return ({ s with
          server := { s.server with resps }
          keys := s.keys ++ [(term, index)] }.put k
            { req with state := .waiting ch, started := some (term, index) }, true)
      else return (s, false)

/-- `resp = <-ch`: a closed channel yields `false`, an open one what the applier sends. -/
def receive (s : Service) (k : ℕ) (req : Request) (ch : ℕ) : Service × Bool :=
  if ch ∈ s.server.resps.closed then (s.put k { req with state := .woken false }, true)
  else if s.applier = .sending ch then
    ({ s with applier := .sent }.put k { req with state := .woken true }, true)
  else (s, false)

/-- The applier handles a message. -/
def handle (env : Env) (s : Service) (msg : ApplyMsg) : Go (Service × Bool) := do
  let (server, ch) ← s.server.handle env msg
  return ({ s with
    server
    applier := .next ch
    applied := msg.toApply ++ s.applied }, true)

/-- One step; an event that is not possible changes nothing. -/
def step (env : Env) (s : Service) : ServiceEvent → Go (Service × Bool)
  | .call op => return ({ s with requests := s.requests ++ [{ op }] }, true)
  | .enter k started =>
    match s.requests[k]? with
    | some req => if req.state = .called then s.enter env k req started else return (s, false)
    | none => return (s, false)
  | .receive k =>
    match s.requests[k]? with
    | some req =>
      match req.state with
      | .waiting ch => return s.receive k req ch
      | _ => return (s, false)
    | none => return (s, false)
  | .expire k =>
    match s.requests[k]? with
    | some req =>
      match req.state with
      | .waiting _ =>
        if s.dead then return (s.put k { req with state := .woken false }, true)
        else return (s, false)
      | _ => return (s, false)
    | none => return (s, false)
  | .reply k =>
    match s.requests[k]? with
    | some req =>
      match req.state with
      | .woken resp =>
        return (s.put k { req with state := .replied (if resp then .ok else .wrongLeader) }, true)
      | _ => return (s, false)
    | none => return (s, false)
  | .deliver msg =>
    if s.applier = .idle ∧ s.dead = false ∧
        ∀ e ∈ msg.toApply, ∀ req ∈ s.requests, req.started = some e.1 → e.2 = req.op then
      return ({ s with applier := .received msg }, true)
    else return (s, false)
  | .handle =>
    match s.applier with
    | .received msg => s.handle env msg
    | _ => return (s, false)
  | .send =>
    match s.applier with
    | .sending ch =>
      if ch ∈ s.server.resps.closed then .error .closedChannel else return (s, false)
    | _ => return (s, false)
  | .finish =>
    if s.applier = .sent then return ({ s with applier := .idle }, true) else return (s, false)
  | .getUpdCh => do
    let (server, _) ← s.server.getUpdCh
    return ({ s with server }, true)
  | .closeUpdCh index => do
    let server ← s.server.closeUpdCh index
    return ({ s with server }, true)
  | .kill => return ({ s with dead := true }, true)

end Service

/-- What a step can do. -/
inductive Serves (env : Env) (s : Service) : Service → Prop
  | call (op : Op) : Serves env s { s with requests := s.requests ++ [{ op }] }
  | enter {k : ℕ} {req : Request} {started : Option (ℤ × ℤ)} {s' : Service} {b : Bool}
      (hreq : s.requests[k]? = some req) (hst : req.state = .called)
      (h : s.enter env k req started = .ok (s', b)) : Serves env s s'
  | receive {k : ℕ} {req : Request} {ch : ℕ} (hreq : s.requests[k]? = some req)
      (hst : req.state = .waiting ch) : Serves env s (s.receive k req ch).1
  | expire {k : ℕ} {req : Request} {ch : ℕ} (hreq : s.requests[k]? = some req)
      (hst : req.state = .waiting ch) :
      Serves env s (s.put k { req with state := .woken false })
  | reply {k : ℕ} {req : Request} {resp : Bool} (hreq : s.requests[k]? = some req)
      (hst : req.state = .woken resp) : Serves env s
        (s.put k { req with state := .replied (if resp then .ok else .wrongLeader) })
  | deliver {msg : ApplyMsg} (hmsg : ∀ e ∈ msg.toApply, ∀ req ∈ s.requests,
        req.started = some e.1 → e.2 = req.op) (hidle : s.applier = .idle) :
      Serves env s { s with applier := .received msg }
  | handle {msg : ApplyMsg} {s' : Service} {b : Bool} (hap : s.applier = .received msg)
      (h : s.handle env msg = .ok (s', b)) : Serves env s s'
  | finish (hsent : s.applier = .sent) : Serves env s { s with applier := .idle }
  | server {server : Server} (hresps : server.resps = s.server.resps)
      (hsm : server.sm = s.server.sm) : Serves env s { s with server }
  | kill : Serves env s { s with dead := true }
  | stay : Serves env s s

/-- A step is of one of these forms. -/
theorem Serves.of_step {env : Env} {s s' : Service} {e : ServiceEvent}
    {b : Bool} (hs : s.step env e = .ok (s', b)) : Serves env s s' := by
  have hstay : ∀ {b b' : Bool}, (.ok (s, b) : Go (Service × Bool)) = .ok (s', b') →
      Serves env s s' := by
    rintro _ _ ⟨⟩
    exact .stay
  cases e <;> simp only [Service.step] at hs
  case call op =>
    cases hs
    exact .call op
  case enter k started =>
    split at hs
    · rename_i req hreq
      split_ifs at hs with hst
      · exact .enter hreq hst hs
      · exact hstay hs
    · exact hstay hs
  case receive k =>
    split at hs
    · rename_i req hreq
      split at hs
      · rename_i ch hch
        have hrec := @Serves.receive env s k req ch hreq hch
        rw [Except.ok.inj hs] at hrec
        exact hrec
      · exact hstay hs
    · exact hstay hs
  case expire k =>
    split at hs
    · rename_i req hreq
      split at hs
      · rename_i ch hch
        split_ifs at hs
        · cases hs
          exact .expire hreq hch
        · exact hstay hs
      · exact hstay hs
    · exact hstay hs
  case reply k =>
    split at hs
    · rename_i req hreq
      split at hs
      · rename_i resp hresp
        cases hs
        exact .reply hreq hresp
      · exact hstay hs
    · exact hstay hs
  case deliver msg =>
    split_ifs at hs with hmsg
    · cases hs
      exact .deliver hmsg.2.2 hmsg.1
    · exact hstay hs
  case handle =>
    split at hs
    · rename_i msg hmsg
      exact .handle hmsg hs
    · exact hstay hs
  case send =>
    split at hs
    · split_ifs at hs
      exact hstay hs
    · exact hstay hs
  case finish =>
    split_ifs at hs with hsent
    · cases hs
      exact .finish hsent
    · exact hstay hs
  case getUpdCh =>
    obtain ⟨⟨server, index⟩, hserver, hs⟩ := bind_eq_ok_iff.1 hs
    obtain ⟨copy, -, hserver⟩ := bind_eq_ok_iff.1 hserver
    cases hserver
    cases hs
    exact .server rfl rfl
  case closeUpdCh index =>
    obtain ⟨server, hserver, hs⟩ := bind_eq_ok_iff.1 hs
    unfold Server.closeUpdCh at hserver
    split at hserver
    · cases hserver
    · cases hserver
      cases hs
      exact .server rfl rfl
  case kill =>
    cases hs
    exact .kill

/-! ## The invariant -/

/-- Why a request may be answered with `OK`. -/
def Request.Justified (req : Request) (applied : List ((ℤ × ℤ) × Op)) : Prop :=
  (∃ sm, req.checked = some sm ∧ sm.guaranteedNoEffect req.op = .ok true) ∨
    ∃ key, req.started = some key ∧ (key, req.op) ∈ applied

/-- What a request knows about its channel, its command and its answer. -/
structure Request.Sound (s : Service) (req : Request) : Prop where
  waiting : ∀ ch, req.state = .waiting ch → ∃ key, req.started = some key ∧ s.keys[ch]? = some key
  agrees : ∀ e ∈ s.delivered, req.started = some e.1 → e.2 = req.op
  justified : req.state = .woken true ∨ req.state = .replied .ok → req.Justified s.applied

/-- The invariant. -/
structure Service.Sound (s : Service) : Prop where
  resps : s.server.resps.Sound
  keys_length : s.keys.length = s.server.resps.made
  stored : ∀ e ∈ s.server.resps.m, s.keys[e.2]? = some e.1
  requests : ∀ req ∈ s.requests, req.Sound s
  sending : ∀ ch, s.applier = .sending ch → ch ∉ s.server.resps.closed ∧
    ∃ e ∈ s.applied, s.keys[ch]? = some e.1

theorem getElem?_of_prefix {α : Type} {xs ys : List α} (h : xs <+: ys) {i : ℕ} {x : α}
    (hx : xs[i]? = some x) : ys[i]? = some x := by
  obtain ⟨t, rfl⟩ := h
  rw [List.getElem?_append_left (List.getElem?_eq_some_iff.1 hx).1, hx]

/-- A request keeps what it knows when more is known. -/
theorem Request.Sound.mono {s s' : Service} {req : Request} (h : req.Sound s)
    (hkeys : s.keys <+: s'.keys) (hdel : s'.delivered ⊆ s.delivered)
    (happ : s.applied ⊆ s'.applied) : req.Sound s' where
  waiting ch hch := by
    obtain ⟨key, hst, hkey⟩ := h.waiting ch hch
    exact ⟨key, hst, getElem?_of_prefix hkeys hkey⟩
  agrees e he := h.agrees e (hdel he)
  justified hst := (h.justified hst).imp_right fun ⟨key, hkey, hmem⟩ => ⟨key, hkey, happ hmem⟩

/-- A request that goes on without having been told that its operation was applied. -/
theorem Request.Sound.goes_on {s : Service} {req : Request} (h : req.Sound s)
    {state : RequestState} {checked : Option StateMachine} (hw : ∀ ch, state ≠ .waiting ch)
    (ht : state ≠ .woken true) (hr : state ≠ .replied .ok) :
    Request.Sound s { req with state, checked } where
  waiting ch hch := absurd hch (hw ch)
  agrees := h.agrees
  justified hst := absurd hst (by simp [ht, hr])

namespace Service

variable {env : Env} {s s' : Service} {k : ℕ} {req : Request}

theorem sound_new : Sound {} where
  resps := ⟨by simp, by simp, List.nodup_nil, by simp⟩
  keys_length := rfl
  stored := by simp
  requests := by simp
  sending := by simp

/-- A step that leaves the channels and the commands alone. -/
theorem Sound.frame (h : s.Sound) (hresps : s'.server.resps = s.server.resps)
    (hkeys : s'.keys = s.keys) (hreq : ∀ req ∈ s'.requests, req.Sound s')
    (happ : s.applied ⊆ s'.applied)
    (hsend : ∀ ch, s'.applier = .sending ch → s.applier = .sending ch) : s'.Sound where
  resps := hresps ▸ h.resps
  keys_length := by rw [hkeys, hresps, h.keys_length]
  stored := by rw [hkeys, hresps]; exact h.stored
  requests := hreq
  sending ch hch := by
    obtain ⟨hopen, e, he, hkey⟩ := h.sending ch (hsend ch hch)
    rw [hresps, hkeys]
    exact ⟨hopen, e, happ he, hkey⟩

/-- Replace a request by one that is sound. -/
theorem Sound.put (h : s.Sound) (hreq : req.Sound s) : (s.put k req).Sound := by
  have hmono : ∀ r : Request, r.Sound s → r.Sound (s.put k req) := fun r hr =>
    hr.mono List.prefix_rfl (List.Subset.refl _) (List.Subset.refl _)
  refine h.frame rfl rfl (fun r hr => ?_) (List.Subset.refl _) fun ch hch => hch
  rcases List.mem_or_eq_of_mem_set hr with hr | rfl
  · exact hmono r (h.requests r hr)
  · exact hmono r hreq

/-- A new channel is for the term and the index that `Start` answered with. -/
theorem Sound.create (h : s.Sound) {term index : ℤ} {resps : RespChannels} {ch : ℕ}
    (hc : s.server.resps.create env term index = .ok (resps, ch)) :
    Sound { s with
      server := { s.server with resps }
      keys := s.keys ++ [(term, index)] } ∧
    (s.keys ++ [(term, index)])[ch]? = some (term, index) := by
  have hresps := h.resps.create hc
  obtain ⟨-, rfl, rfl⟩ := RespChannels.create_eq_ok_iff.1 hc
  have hnew : (s.keys ++ [(term, index)])[s.server.resps.made]? = some (term, index) := by
    rw [← h.keys_length]
    simp
  have hprefix : s.keys <+: s.keys ++ [(term, index)] := List.prefix_append _ _
  refine ⟨⟨hresps, by simp [h.keys_length], ?_, fun r hr => ?_, fun ch hch => ?_⟩, hnew⟩
  · rw [List.forall_mem_cons]
    exact ⟨hnew, fun e he => getElem?_of_prefix hprefix (h.stored e (List.mem_filter.1 he).1)⟩
  · exact (h.requests r hr).mono hprefix (List.Subset.refl _) (List.Subset.refl _)
  · obtain ⟨hopen, e, he, hkey⟩ := h.sending ch hch
    exact ⟨hopen, e, he, getElem?_of_prefix hprefix hkey⟩

theorem Sound.enter (h : s.Sound) (hreq : req ∈ s.requests) {started : Option (ℤ × ℤ)} {b : Bool}
    (hs : s.enter env k req started = .ok (s', b)) : s'.Sound := by
  have hsound := h.requests req hreq
  obtain ⟨noEffect, hno, hs⟩ := bind_eq_ok_iff.1 hs
  split_ifs at hs with hb
  · cases hs
    subst hb
    exact h.put ⟨by simp, hsound.agrees, fun _ => Or.inl ⟨_, rfl, hno⟩⟩
  · rcases started with _ | ⟨term, index⟩
    · cases hs
      exact h.put (hsound.goes_on (by simp) (by simp) (by simp))
    · dsimp only at hs
      split_ifs at hs with hop
      · obtain ⟨⟨resps, ch⟩, hc, hs⟩ := bind_eq_ok_iff.1 hs
        cases hs
        obtain ⟨hnew, hkey⟩ := h.create hc
        refine hnew.put ⟨fun ch' hch => ?_, fun e he heq => ?_, by simp⟩
        · cases hch
          exact ⟨_, rfl, hkey⟩
        · exact hop e he (Option.some.inj heq).symm
      · cases hs
        exact h

theorem Sound.receive (h : s.Sound) (hreq : req ∈ s.requests) {ch : ℕ}
    (hch : req.state = .waiting ch) : (s.receive k req ch).1.Sound := by
  have hsound := h.requests req hreq
  unfold Service.receive
  split_ifs with hclosed hsend
  · exact h.put (hsound.goes_on (by simp) (by simp) (by simp))
  · -- the applier sends on this channel because it applied what the request started
    obtain ⟨key, hst, hkey⟩ := hsound.waiting ch hch
    obtain ⟨-, e, he, hkey'⟩ := h.sending ch hsend
    have hdel : s.delivered = s.applied := by simp [delivered, hsend]
    have hst' : req.started = some e.1 := hst.trans (hkey.symm.trans hkey')
    have hop := hsound.agrees e (hdel ▸ he) hst'
    have hsent : Sound { s with applier := .sent } :=
      h.frame rfl rfl (fun r hr => (h.requests r hr).mono List.prefix_rfl
        (by rw [hdel]; exact List.Subset.refl _) (List.Subset.refl _)) (List.Subset.refl _)
        (by simp)
    refine hsent.put ⟨by simp, ?_, fun _ => Or.inr ⟨e.1, hst', hop ▸ he⟩⟩
    intro e' he'
    exact hsound.agrees e' (hdel ▸ he')
  · exact h

/-- Sending updates changes nothing else. -/
theorem frame_sendStateMachineUpdate {server server' : Server}
    (hs : server.sendStateMachineUpdate = .ok server') : server'.sm = server.sm ∧
      server'.resps = server.resps ∧ server'.updChIndex = server.updChIndex := by
  unfold Server.sendStateMachineUpdate at hs
  split_ifs at hs
  · obtain ⟨copy, -, hs⟩ := bind_eq_ok_iff.1 hs
    cases hs
    exact ⟨rfl, rfl, rfl⟩
  · cases hs
    exact ⟨rfl, rfl, rfl⟩

/-- What the applier does to the response channels. -/
theorem resps_of_handle {server server' : Server} {msg : ApplyMsg} {ch : Option ℕ}
    (hs : server.handle env msg = .ok (server', ch)) :
    msg = .raftUpdate false ∧ server.resps.clear = .ok server'.resps ∧ ch = none ∨
      server'.resps = server.resps ∧ ∀ c, ch = some c → ∃ term index op,
        msg = .command term index op ∧ server.resps.get term index = some c := by
  cases msg with
  | command term index op =>
    right
    obtain ⟨⟨sm, updated⟩, -, hs⟩ := bind_eq_ok_iff.1 hs
    cases updated with
    | true =>
      obtain ⟨t, ht, hs⟩ := bind_eq_ok_iff.1 hs
      cases hs
      have hresps := (frame_sendStateMachineUpdate ht).2.1
      exact ⟨hresps, fun c hc => ⟨term, index, op, rfl, hresps ▸ hc⟩⟩
    | false =>
      cases hs
      exact ⟨rfl, fun c hc => ⟨term, index, op, rfl, hc⟩⟩
  | raftUpdate isLeader =>
    cases isLeader with
    | true =>
      cases hs
      exact Or.inr ⟨rfl, by simp⟩
    | false =>
      obtain ⟨resps, hclear, hs⟩ := bind_eq_ok_iff.1 hs
      cases hs
      exact Or.inl ⟨rfl, hclear, rfl⟩
  | config conf =>
    cases hs
    exact Or.inr ⟨rfl, by simp⟩
  | snapshot | empty =>
    obtain ⟨-, -, hs⟩ := bind_eq_ok_iff.1 hs
    cases hs
    exact Or.inr ⟨rfl, by simp⟩

theorem Sound.handle (h : s.Sound) {msg : ApplyMsg} (happ : s.applier = .received msg) {b : Bool}
    (hs : s.handle env msg = .ok (s', b)) : s'.Sound := by
  obtain ⟨⟨server, ch⟩, hh, hs⟩ := bind_eq_ok_iff.1 hs
  cases hs
  have hreq : ∀ r ∈ s.requests, r.Sound
      { s with server, applier := .next ch, applied := msg.toApply ++ s.applied } := fun r hr => by
    refine (h.requests r hr).mono List.prefix_rfl ?_ (List.subset_append_right _ _)
    cases ch <;> simp [delivered, happ, ApplierState.next]
  rcases resps_of_handle hh with ⟨rfl, hclear, rfl⟩ | ⟨hresps, hch⟩
  · have hsound := h.resps.of_clear hclear
    rw [h.resps.clear] at hclear
    have heq := Except.ok.inj hclear
    refine ⟨hsound, ?_, ?_, hreq, by simp [ApplierState.next]⟩
    · rw [← heq]
      exact h.keys_length
    · rw [← heq]
      simp
  · refine ⟨hresps ▸ h.resps, hresps ▸ h.keys_length, hresps ▸ h.stored, hreq, fun c hc => ?_⟩
    rcases ch with _ | c'
    · cases hc
    cases hc
    obtain ⟨term, index, op, rfl, hget⟩ := hch c rfl
    have hmem := RespChannels.mem_of_get hget
    exact ⟨hresps ▸ h.resps.not_closed _ hmem, _, List.mem_cons_self, h.stored _ hmem⟩

theorem Sound.deliver (h : s.Sound) {msg : ApplyMsg} (hmsg : ∀ e ∈ msg.toApply,
    ∀ req ∈ s.requests, req.started = some e.1 → e.2 = req.op)
    (hidle : s.applier = .idle) : Sound { s with applier := .received msg } := by
  refine h.frame rfl rfl (fun r hr => ⟨(h.requests r hr).waiting, fun e he hst => ?_,
    (h.requests r hr).justified⟩) (List.Subset.refl _) (by simp)
  rcases List.mem_append.1 he with he | he
  · exact hmsg e he r hr hst
  · exact (h.requests r hr).agrees e (by simpa [delivered, hidle] using he) hst

/-- Every step keeps the invariant. -/
theorem Sound.step (h : s.Sound) (hs : Serves env s s') : s'.Sound := by
  have hmono : ∀ t : Service, t.keys = s.keys → t.delivered ⊆ s.delivered →
      t.applied = s.applied → ∀ r ∈ s.requests, r.Sound t := fun t hk hd ha r hr =>
    (h.requests r hr).mono (hk ▸ List.prefix_rfl) hd (ha ▸ List.Subset.refl _)
  cases hs with
  | call op =>
    refine h.frame rfl rfl (fun r hr => ?_) (List.Subset.refl _) fun ch hch => hch
    rcases List.mem_append.1 hr with hr | hr
    · exact (h.requests r hr).mono List.prefix_rfl (List.Subset.refl _) (List.Subset.refl _)
    · rw [List.mem_singleton.1 hr]
      exact ⟨by simp, by simp, by simp⟩
  | enter hreq hst henter => exact h.enter (List.mem_of_getElem? hreq) henter
  | receive hreq hst => exact h.receive (List.mem_of_getElem? hreq) hst
  | expire hreq hst =>
    exact h.put ((h.requests _ (List.mem_of_getElem? hreq)).goes_on (by simp) (by simp) (by simp))
  | @reply k req resp hreq hst =>
    have hsound := h.requests req (List.mem_of_getElem? hreq)
    cases resp with
    | true => exact h.put ⟨by simp, hsound.agrees, fun _ => hsound.justified (Or.inl hst)⟩
    | false => exact h.put (hsound.goes_on (by simp) (by simp) (by simp))
  | deliver hmsg hidle => exact h.deliver hmsg hidle
  | handle hap hh => exact h.handle hap hh
  | finish hsent =>
    exact h.frame rfl rfl (hmono _ rfl (by simp [delivered, hsent]) rfl) (List.Subset.refl _)
      (by simp)
  | server hresps hsm =>
    exact h.frame hresps rfl (hmono _ rfl (List.Subset.refl _) rfl) (List.Subset.refl _)
      fun ch hch => hch
  | kill =>
    exact h.frame rfl rfl (hmono _ rfl (List.Subset.refl _) rfl) (List.Subset.refl _)
      fun ch hch => hch
  | stay => exact h

theorem Sound.of_leads (hl : Leads (Service.step env) {} s) : s.Sound := by
  obtain ⟨log, hlog⟩ := hl
  exact run_preserves (fun _ _ _ _ h hs => h.step (Serves.of_step hs)) sound_new hlog

/-! ## The commands that were applied -/

/-- The state machine is what the commands that were applied make of a new one. -/
def Replay (s : Service) : Prop :=
  run apply newStateMachine (s.applied.map Prod.snd).reverse = .ok s.server.sm

/-- What the applier does to the state machine. -/
theorem run_of_handle {server server' : Server} {msg : ApplyMsg} {ch : Option ℕ}
    (hs : server.handle env msg = .ok (server', ch)) :
    run apply server.sm (msg.toApply.map Prod.snd) = .ok server'.sm := by
  cases msg with
  | command term index op =>
    obtain ⟨⟨sm, updated⟩, hap, hs⟩ := bind_eq_ok_iff.1 hs
    refine run_cons_iff.2 ⟨_, hap, congrArg Except.ok ?_⟩
    cases updated with
    | true =>
      obtain ⟨t, ht, hs⟩ := bind_eq_ok_iff.1 hs
      cases hs
      exact (frame_sendStateMachineUpdate ht).1.symm
    | false =>
      cases hs
      rfl
  | raftUpdate isLeader =>
    cases isLeader with
    | true =>
      cases hs
      rfl
    | false =>
      obtain ⟨resps, -, hs⟩ := bind_eq_ok_iff.1 hs
      cases hs
      rfl
  | config conf =>
    cases hs
    rfl
  | snapshot | empty =>
    obtain ⟨-, -, hs⟩ := bind_eq_ok_iff.1 hs
    cases hs
    rfl

theorem sm_of_enter {started : Option (ℤ × ℤ)} {b : Bool}
    (hs : s.enter env k req started = .ok (s', b)) :
    s'.applied = s.applied ∧ s'.server.sm = s.server.sm := by
  obtain ⟨noEffect, -, hs⟩ := bind_eq_ok_iff.1 hs
  split_ifs at hs
  · cases hs
    exact ⟨rfl, rfl⟩
  · rcases started with _ | ⟨term, index⟩
    · cases hs
      exact ⟨rfl, rfl⟩
    · dsimp only at hs
      split_ifs at hs
      · obtain ⟨⟨resps, ch⟩, -, hs⟩ := bind_eq_ok_iff.1 hs
        cases hs
        exact ⟨rfl, rfl⟩
      · cases hs
        exact ⟨rfl, rfl⟩

theorem Replay.step (h : s.Replay) (hs : Serves env s s') : s'.Replay := by
  cases hs with
  | enter hreq hst henter =>
    obtain ⟨happlied, hsm⟩ := sm_of_enter henter
    rwa [Replay, happlied, hsm]
  | receive hreq hst =>
    unfold Service.receive
    split_ifs <;> exact h
  | handle hap hh =>
    obtain ⟨⟨server, ch⟩, hserver, hh⟩ := bind_eq_ok_iff.1 hh
    cases hh
    have hmsg : ∀ msg : ApplyMsg,
        (msg.toApply.map Prod.snd).reverse = msg.toApply.map Prod.snd := by
      intro msg
      cases msg <;> rfl
    simp only [Replay, List.map_append, List.reverse_append, hmsg]
    exact run_append_iff.2 ⟨_, h, run_of_handle hserver⟩
  | server hresps hsm => rwa [Replay, hsm]
  | call | expire | reply | deliver | finish | kill | stay => exact h

/-- Request `k` will not be answered with `OK`: nobody can send on its channel any more. -/
def Cancelled (s : Service) (k : ℕ) : Prop :=
  ∃ req, s.requests[k]? = some req ∧
    ((∃ ch, req.state = .waiting ch ∧ ch < s.server.resps.made ∧
        (∀ e ∈ s.server.resps.m, e.2 ≠ ch) ∧ s.applier ≠ .sending ch) ∨
      req.state = .woken false ∨ req.state = .replied .wrongLeader)

/-- The steps of the others: channels are only added, and the applier only sends on a stored one. -/
theorem Cancelled.mono (h : s.Cancelled k) (hreq : s'.requests[k]? = s.requests[k]?)
    (hmade : s.server.resps.made ≤ s'.server.resps.made)
    (hm : ∀ e ∈ s'.server.resps.m, e ∈ s.server.resps.m ∨ s.server.resps.made ≤ e.2)
    (happ : ∀ ch, s'.applier = .sending ch →
      s.applier = .sending ch ∨ ∃ e ∈ s.server.resps.m, e.2 = ch) : s'.Cancelled k := by
  obtain ⟨req, hk, ⟨ch, hst, hlt, hne, hsend⟩ | hst⟩ := h
  · refine ⟨req, hreq.trans hk,
      Or.inl ⟨ch, hst, hlt.trans_le hmade, fun e he heq => ?_, fun h => ?_⟩⟩
    · rcases hm e he with he | he
      · exact hne e he heq
      · omega
    · rcases happ ch h with h | ⟨e, he, heq⟩
      · exact hsend h
      · exact hne e he heq
  · exact ⟨req, hreq.trans hk, Or.inr hst⟩

theorem enter_frame {started : Option (ℤ × ℤ)} {b : Bool}
    (hs : s.enter env k req started = .ok (s', b)) :
    (∃ req', s'.requests = s.requests.set k req' ∨ s' = s) ∧ s'.applier = s.applier ∧
      s.server.resps.made ≤ s'.server.resps.made ∧
      ∀ e ∈ s'.server.resps.m, e ∈ s.server.resps.m ∨ s.server.resps.made ≤ e.2 := by
  obtain ⟨noEffect, -, hs⟩ := bind_eq_ok_iff.1 hs
  split_ifs at hs
  · cases hs
    exact ⟨⟨_, Or.inl rfl⟩, rfl, le_rfl, fun e he => Or.inl he⟩
  · rcases started with _ | ⟨term, index⟩
    · cases hs
      exact ⟨⟨_, Or.inl rfl⟩, rfl, le_rfl, fun e he => Or.inl he⟩
    · dsimp only at hs
      split_ifs at hs
      · obtain ⟨⟨resps, ch⟩, hc, hs⟩ := bind_eq_ok_iff.1 hs
        cases hs
        obtain ⟨-, rfl, rfl⟩ := RespChannels.create_eq_ok_iff.1 hc
        refine ⟨⟨_, Or.inl rfl⟩, rfl, Nat.le_succ _, fun e he => ?_⟩
        rcases List.mem_cons.1 he with rfl | he
        · exact Or.inr le_rfl
        · exact Or.inl (List.mem_filter.1 he).1
      · cases hs
        exact ⟨⟨req, Or.inr rfl⟩, rfl, le_rfl, fun e he => Or.inl he⟩

/-- Another request takes a step. -/
theorem Cancelled.put_of_ne (h : s.Cancelled k) {k' : ℕ} (hne : k' ≠ k) (req' : Request)
    {applier : ApplierState} (happ : applier = s.applier ∨ applier = .sent) :
    Cancelled ({ s with applier }.put k' req') k := by
  refine h.mono (List.getElem?_set_ne hne) le_rfl (fun e he => Or.inl he) fun ch hch => ?_
  rcases happ with rfl | rfl
  · exact Or.inl hch
  · cases hch

/-- The request takes a step itself. -/
theorem Cancelled.put_self (h : s.Cancelled k) {req' : Request}
    (hst : req'.state = .woken false ∨ req'.state = .replied .wrongLeader) :
    (s.put k req').Cancelled k := by
  obtain ⟨req, hk, -⟩ := h
  exact ⟨req', List.getElem?_set_self (List.getElem?_eq_some_iff.1 hk).1, Or.inr hst⟩

theorem Cancelled.receive (h : s.Cancelled k) {k' ch : ℕ} (hreq : s.requests[k']? = some req)
    (hst : req.state = .waiting ch) : (s.receive k' req ch).1.Cancelled k := by
  unfold Service.receive
  by_cases hne : k' = k
  · subst hne
    split_ifs with hclosed hsend
    · exact h.put_self (Or.inl rfl)
    · -- nobody sends on the channel of a cancelled request
      obtain ⟨req', hk, ⟨ch', hst', -, -, hns⟩ | hst'⟩ := h
      · cases hreq.symm.trans hk
        cases hst.symm.trans hst'
        exact absurd hsend hns
      · cases hreq.symm.trans hk
        simp [hst] at hst'
    · exact h
  · split_ifs
    · exact h.put_of_ne hne _ (Or.inl rfl)
    · exact h.put_of_ne hne _ (Or.inr rfl)
    · exact h

theorem Cancelled.reply (h : s.Cancelled k) {k' : ℕ} {resp : Bool}
    (hreq : s.requests[k']? = some req) (hst : req.state = .woken resp) :
    (s.put k' { req with state := .replied (if resp then .ok else .wrongLeader) }).Cancelled k := by
  by_cases hne : k' = k
  · subst hne
    have hresp : resp = false := by
      obtain ⟨req', hk, ⟨ch, hst', -⟩ | hst' | hst'⟩ := h <;> cases hreq.symm.trans hk <;>
        rw [hst] at hst' <;> cases hst'
      rfl
    exact h.put_self (Or.inr (by simp [hresp]))
  · exact h.put_of_ne hne _ (Or.inl rfl)

theorem Cancelled.handle (h : s.Cancelled k) {msg : ApplyMsg} {b : Bool}
    (hsound : s.server.resps.Sound) (hs : s.handle env msg = .ok (s', b)) : s'.Cancelled k := by
  obtain ⟨⟨server, ch⟩, hh, hs⟩ := bind_eq_ok_iff.1 hs
  cases hs
  rcases resps_of_handle hh with ⟨rfl, hclear, rfl⟩ | ⟨hresps, hch⟩
  · rw [hsound.clear] at hclear
    have heq := Except.ok.inj hclear
    exact h.mono rfl (by rw [← heq]) (by rw [← heq]; simp) (by simp [ApplierState.next])
  · refine h.mono rfl (by rw [hresps]) (by rw [hresps]; exact fun e he => Or.inl he) fun c hc => ?_
    rcases ch with _ | c'
    · cases hc
    cases hc
    obtain ⟨term, index, op, -, hget⟩ := hch c rfl
    exact Or.inr ⟨_, RespChannels.mem_of_get hget, rfl⟩

/-- No step makes up for it. -/
theorem Cancelled.step (h : s.Cancelled k) (hsound : s.server.resps.Sound)
    (hs : Serves env s s') : s'.Cancelled k := by
  have hsame : ∀ e ∈ s.server.resps.m, e ∈ s.server.resps.m ∨ s.server.resps.made ≤ e.2 :=
    fun e he => Or.inl he
  cases hs with
  | call op =>
    obtain ⟨req, hk, -⟩ := id h
    exact h.mono (List.getElem?_append_left (List.getElem?_eq_some_iff.1 hk).1) le_rfl hsame
      fun ch hch => Or.inl hch
  | @enter k' req' started _ b hreq hst henter =>
    obtain ⟨⟨req'', hreqs⟩, happ, hmade, hm⟩ := enter_frame henter
    refine h.mono ?_ hmade hm fun ch hch => Or.inl (happ ▸ hch)
    have hne : k' ≠ k := by
      rintro rfl
      obtain ⟨req, hk, ⟨ch, hst', -⟩ | hst' | hst'⟩ := h <;> cases hreq.symm.trans hk <;>
        simp [hst] at hst'
    rcases hreqs with hreqs | rfl
    · rw [hreqs, List.getElem?_set_ne hne]
    · rfl
  | receive hreq hst => exact h.receive hreq hst
  | @expire k' req' ch hreq hst =>
    by_cases hne : k' = k
    · subst hne
      exact h.put_self (Or.inl rfl)
    · exact h.put_of_ne hne _ (Or.inl rfl)
  | reply hreq hst => exact h.reply hreq hst
  | deliver hmsg hidle => exact h.mono rfl le_rfl hsame (by simp)
  | handle hap hh => exact h.handle hsound hh
  | finish hsent => exact h.mono rfl le_rfl hsame (by simp)
  | server hresps hsm =>
    exact h.mono rfl (by rw [hresps]) (by rw [hresps]; exact hsame) fun ch hch => Or.inl hch
  | kill => exact h.mono rfl le_rfl hsame fun ch hch => Or.inl hch
  | stay => exact h

theorem Cancelled.of_leads (h : s.Cancelled k) (hsound : s.Sound)
    (hl : Leads (Service.step env) s s') : s'.Cancelled k := by
  obtain ⟨log, hlog⟩ := hl
  refine (run_preserves (I := fun s => s.Sound ∧ s.Cancelled k) (fun t e u b ht hs => ?_)
    ⟨hsound, h⟩ hlog).2
  have hserves := Serves.of_step hs
  exact ⟨ht.1.step hserves, ht.2.step ht.1.resps hserves⟩

/-- Handling a loss of leadership cancels all requests that wait. -/
theorem Sound.cancelled (h : s.Sound) {b : Bool} {ch : ℕ}
    (hreq : s.requests[k]? = some req) (hst : req.state = .waiting ch)
    (hs : s.handle env (.raftUpdate false) = .ok (s', b)) : s'.Cancelled k := by
  obtain ⟨key, -, hkey⟩ := (h.requests req (List.mem_of_getElem? hreq)).waiting ch hst
  have hlt := (List.getElem?_eq_some_iff.1 hkey).1
  rw [h.keys_length] at hlt
  simp only [Service.handle, Server.handle, h.resps.clear, bind, Except.bind] at hs
  cases hs
  exact ⟨req, hreq, Or.inl ⟨ch, hst, hlt, by simp, by simp [ApplierState.next]⟩⟩

end Service

/-- **Acknowledged means applied.** In every state of a server with any number of requests: a
request that was answered with `OK` had asked `GuaranteedNoEffect` and was told that its operation
is void, or its operation was applied under the term and index that `Start` answered; a request
that waits when the applier handles a loss of leadership is not answered with `OK` ever after; and
the channel that the applier sends on is open, as are all those that it would close next. -/
theorem acknowledged_applied {env : Env} {s : Service} (hs : Leads (Service.step env) {} s) :
    (∀ req ∈ s.requests, req.state = .replied .ok →
      (∃ sm, req.checked = some sm ∧ sm.guaranteedNoEffect req.op = .ok true) ∨
        ∃ key, req.started = some key ∧ (key, req.op) ∈ s.applied) ∧
    (∀ (k : ℕ) (req : Request) (ch : ℕ), s.requests[k]? = some req → req.state = .waiting ch →
      s.applier = .received (.raftUpdate false) →
      ∀ s' b s'', s.step env .handle = .ok (s', b) → Leads (Service.step env) s' s'' →
        ∀ req' : Request, s''.requests[k]? = some req' → req'.state ≠ .replied .ok) ∧
    s.step env .send ≠ .error .closedChannel ∧
    ∃ resps, s.server.resps.clear = .ok resps := by
  have h := Service.Sound.of_leads hs
  refine ⟨fun req hreq hok => (h.requests req hreq).justified (Or.inr hok),
    fun k req ch hreq hst happ s' b s'' hstep hl req' hreq' => ?_, ?_, _, h.resps.clear⟩
  · have hsound := h.step (Serves.of_step hstep)
    simp only [Service.step, happ] at hstep
    obtain ⟨req'', hk, hcan⟩ := (h.cancelled hreq hst hstep).of_leads hsound hl
    cases hreq'.symm.trans hk
    rcases hcan with ⟨ch', hst', -⟩ | hst' | hst' <;> simp [hst']
  · simp only [Service.step]
    split
    · rename_i ch hch
      rw [if_neg (h.sending ch hch).1]
      simp [pure, Except.pure]
    · simp [pure, Except.pure]

/-- A request to join that is started, delivered, applied and acknowledged. -/
theorem acknowledged_applied_join : ∃ s req,
    Leads (Service.step ⟨fun _ => Vector.replicate 32 0, fun _ => true, true⟩) {} s ∧
    req ∈ s.requests ∧ req.op = .join 1 0 ∧ req.state = .replied .ok ∧
    ((∃ sm, req.checked = some sm ∧ sm.guaranteedNoEffect req.op = .ok true) ∨
      ∃ key, req.started = some key ∧ (key, req.op) ∈ s.applied) := by
  obtain ⟨s, hs, hreq⟩ := exists_of_endsWith (by decide +kernel :
    endsWith (Service.step ⟨fun _ => Vector.replicate 32 0, fun _ => true, true⟩) {}
      [.call (.join 1 0), .enter 0 (some (1, 1)), .deliver (.command 1 1 (.join 1 0)), .handle,
        .receive 0, .finish, .reply 0]
      (fun s => decide (s.requests = [⟨.join 1 0, .replied .ok, some newStateMachine,
        some (1, 1)⟩])) = true)
  have hreq := of_decide_eq_true hreq
  have hmem : (⟨.join 1 0, .replied .ok, some newStateMachine, some (1, 1)⟩ : Request) ∈
      s.requests := hreq ▸ List.mem_singleton_self _
  exact ⟨s, _, ⟨_, hs⟩, hmem, rfl, rfl, (acknowledged_applied ⟨_, hs⟩).1 _ hmem rfl⟩

end EggScrambler
