import Mathlib
import EggScrambler.Requests
import EggScrambler.Robust
import EggScrambler.Lib.Threads

/-!
# One server and no peers

The server of `Requests.lean` on the Raft that `localconfessions` gives it.  `Mockraft` accepts
every command and delivers it from a goroutine of its own, so that commands may be applied in
another order than that of its log.  The server is not killed here.

`Server.lean` records what was sent on the channels for updates.  These have a buffer of one, and
the applier keeps the lock of the server until it has sent to all of them: it applies a command and
makes the update, and then `todo` has the channels to which it has still to send.  Meanwhile calls
of `SubmitOp` wait for the lock, and the one whose command was applied for its response.

* `command_once`: what `Requests.lean` assumes about Raft is true of it; the commands are those of
  the requests, each once, and each is delivered once.
* `submitOp_returns`: all calls of `SubmitOp` return `OK`, if the subscribers read and no copy of
  the state panics; a subscriber that does not read keeps all of them waiting.
-/

namespace EggScrambler

open StateMachine Transition

structure Mockraft where
  log : List Op := []
  /-- What the goroutines have still to send, with the index. -/
  inFlight : List (ℤ × Op) := []

namespace Mockraft

/-- `Start`, with index and term. -/
def start (m : Mockraft) (command : Op) : Mockraft × ℤ × ℤ :=
  let log := m.log ++ [command]
  ({ log, inFlight := m.inFlight ++ [((log.length : ℤ), command)] }, log.length, 1)

/-- The term and index of the next command. -/
def next (m : Mockraft) : ℤ × ℤ := (1, m.log.length + 1)

/-- The commands with term and index. -/
def commands (m : Mockraft) : List ((ℤ × ℤ) × Op) :=
  m.log.zipIdx.map fun e => ((1, e.2 + 1), e.1)

/-- The commands that were not yet delivered. -/
def pending (m : Mockraft) : List ((ℤ × ℤ) × Op) := m.inFlight.map fun e => ((1, e.1), e.2)

theorem start_snd (m : Mockraft) (op : Op) : (m.start op).2 = (m.next.2, m.next.1) := by
  simp [start, next]

theorem commands_start (m : Mockraft) (op : Op) :
    (m.start op).1.commands = m.commands ++ [(m.next, op)] := by
  simp [start, commands, next, List.zipIdx_append]

theorem pending_start (m : Mockraft) (op : Op) :
    (m.start op).1.pending = m.pending ++ [(m.next, op)] := by
  simp [start, pending, next]

theorem keys_eq (m : Mockraft) : m.commands.map Prod.fst =
    (List.range m.log.length).map fun i : ℕ => ((1 : ℤ), (i : ℤ) + 1) := by
  rw [commands, List.map_map, List.range_eq_range', ← List.zipIdx_map_snd, List.map_map]
  rfl

theorem nodup_keys (m : Mockraft) : (m.commands.map Prod.fst).Nodup := by
  rw [keys_eq]
  refine List.nodup_range.map fun i j hij => ?_
  simpa using hij

theorem next_notMem (m : Mockraft) : m.next ∉ m.commands.map Prod.fst := by
  rw [keys_eq]
  simp [next]

end Mockraft

namespace Server

/-- The channels that are open. -/
def openChs (s : Server) : List ℕ :=
  (List.range s.updChIndex).filter fun i => (s.updChs i).isSome

/-- The channels on which something was sent from `s` to `t`. -/
def sentTo (s t : Server) : List ℕ := t.openChs.filter fun i => t.updChs i ≠ s.updChs i

theorem sentTo_self (s : Server) : s.sentTo s = [] := by
  simp [sentTo]

theorem length_sentTo_le (s t : Server) : (s.sentTo t).length ≤ t.updChIndex :=
  calc (s.sentTo t).length ≤ t.openChs.length := List.length_filter_le _ _
    _ ≤ (List.range t.updChIndex).length := List.length_filter_le _ _
    _ = t.updChIndex := List.length_range

end Server

/-- A server on a `Mockraft`. -/
structure Local where
  raft : Mockraft := {}
  service : Service := {}
  /-- The channels for updates whose buffer is full. -/
  full : List ℕ := []
  /-- The channels to which the applier has still to send, under the lock. -/
  todo : List ℕ := []

inductive LocalEvent where
  | call (op : Op)
  /-- Request `k` runs up to its loop. -/
  | enter (k : ℕ)
  /-- A goroutine of `Start` sends. -/
  | deliver (j : ℕ)
  /-- The applier handles a command under the lock, up to the sending of updates. -/
  | handle
  /-- The applier sends to subscriber `i`. -/
  | send (i : ℕ)
  /-- Subscriber `i` reads. -/
  | read (i : ℕ)
  | receive (k : ℕ)
  | finish
  | reply (k : ℕ)
  | getUpdCh
  | closeUpdCh (index : ℕ)

namespace Local

/-- A step of the server. -/
def serve (env : Env) (s : Local) (e : ServiceEvent) : Go (Local × Bool) := do
  let (service, b) ← s.service.step env e
  return ({ s with service }, b)

/-- `Start` is asked only if the operation may have an effect. -/
def enter (env : Env) (s : Local) (k : ℕ) (req : Request) : Go (Local × Bool) := do
  if ← s.service.server.sm.guaranteedNoEffect req.op then s.serve env (.enter k none)
  else
    let (raft, index, term) := s.raft.start req.op
    serve env { s with raft } (.enter k (some (term, index)))

/-- While the applier sends updates it has the lock, and nothing else goes on at the server. -/
def locked (s : Local) (next : Go (Local × Bool)) : Go (Local × Bool) :=
  if s.todo = [] then next else return (s, false)

/-- One step; an event that is not possible changes nothing. -/
def step (env : Env) (s : Local) : LocalEvent → Go (Local × Bool)
  | .call op => s.serve env (.call op)
  | .enter k => s.locked <|
    match s.service.requests[k]? with
    | some req => if req.state = .called then s.enter env k req else return (s, false)
    | none => return (s, false)
  | .deliver j => s.locked <|
    match s.raft.inFlight[j]?, s.service.applier with
    | some (index, op), .idle =>
      serve env { s with raft := { s.raft with inFlight := s.raft.inFlight.eraseIdx j } }
        (.deliver (.command 1 index op))
    | _, _ => return (s, false)
  | .handle => s.locked do
    let (t, b) ← s.serve env .handle
    return ({ t with todo := s.service.server.sentTo t.service.server }, b)
  | .send i =>
    if i ∈ s.todo ∧ i ∉ s.full then
      return ({ s with todo := s.todo.erase i, full := i :: s.full }, true)
    else return (s, false)
  | .read i =>
    if i ∈ s.full then return ({ s with full := s.full.erase i }, true) else return (s, false)
  | .receive k => s.locked (s.serve env (.receive k))
  | .finish => s.locked (s.serve env .finish)
  | .reply k => s.locked (s.serve env (.reply k))
  | .getUpdCh => s.locked do
    -- the buffer takes the current state
    let (t, b) ← s.serve env .getUpdCh
    return ({ t with full := s.service.server.updChIndex :: s.full }, b)
  | .closeUpdCh index => s.locked (s.serve env (.closeUpdCh index))

/-- A state after some events. -/
def Reachable (env : Env) (s : Local) : Prop := Leads (step env) {} s

def put (s : Local) (k : ℕ) (req : Request) : Local := { s with service := s.service.put k req }

/-- The state after request `k` has called `Start` and `Create`. -/
def started (s : Local) (k : ℕ) (req : Request) : Local :=
  let resps := s.service.server.resps
  { s with
    raft := (s.raft.start req.op).1
    service := { s.service with
      server := { s.service.server with
        resps := { resps with m := (s.raft.next, resps.made) :: resps.m, made := resps.made + 1 } }
      keys := s.service.keys ++ [s.raft.next] }.put k
        { req with
          state := .waiting resps.made
          checked := some s.service.server.sm
          started := some s.raft.next } }

/-- What a step can do, from a state of the invariant below. -/
inductive Moves (env : Env) (s : Local) : LocalEvent → Local → Prop
  | call (op : Op) : Moves env s (.call op)
      { s with service := { s.service with requests := s.service.requests ++ [{ op }] } }
  | void {k : ℕ} {req : Request} (hfree : s.todo = []) (hreq : s.service.requests[k]? = some req)
      (hst : req.state = .called)
      (hno : s.service.server.sm.guaranteedNoEffect req.op = .ok true) :
      Moves env s (.enter k)
        (s.put k { req with state := .replied .ok, checked := some s.service.server.sm })
  | start {k : ℕ} {req : Request} (hfree : s.todo = []) (hreq : s.service.requests[k]? = some req)
      (hst : req.state = .called)
      (hno : s.service.server.sm.guaranteedNoEffect req.op = .ok false) :
      Moves env s (.enter k) (s.started k req)
  | deliver {j : ℕ} {index : ℤ} {op : Op} (hfree : s.todo = [])
      (hj : s.raft.inFlight[j]? = some (index, op)) (hidle : s.service.applier = .idle) :
      Moves env s (.deliver j) { s with
        raft := { s.raft with inFlight := s.raft.inFlight.eraseIdx j }
        service := { s.service with applier := .received (.command 1 index op) } }
  | handle {index : ℤ} {op : Op} {server : Server} {ch : Option ℕ} (hfree : s.todo = [])
      (hap : s.service.applier = .received (.command 1 index op))
      (hh : s.service.server.handle env (.command 1 index op) = .ok (server, ch)) :
      Moves env s .handle { s with
        service := { s.service with
          server
          applier := .next ch
          applied := ((1, index), op) :: s.service.applied }
        todo := s.service.server.sentTo server }
  | send {i : ℕ} (hi : i ∈ s.todo) (hroom : i ∉ s.full) :
      Moves env s (.send i) { s with todo := s.todo.erase i, full := i :: s.full }
  | read {i : ℕ} (hi : i ∈ s.full) : Moves env s (.read i) { s with full := s.full.erase i }
  | receive {k : ℕ} {req : Request} {ch : ℕ} (hfree : s.todo = [])
      (hreq : s.service.requests[k]? = some req) (hst : req.state = .waiting ch)
      (hsend : s.service.applier = .sending ch) :
      Moves env s (.receive k) (put { s with service := { s.service with applier := .sent } } k
        { req with state := .woken true })
  | finish (hfree : s.todo = []) (hsent : s.service.applier = .sent) :
      Moves env s .finish { s with service := { s.service with applier := .idle } }
  | reply {k : ℕ} {req : Request} (hfree : s.todo = []) (hreq : s.service.requests[k]? = some req)
      (hst : req.state = .woken true) :
      Moves env s (.reply k) (s.put k { req with state := .replied .ok })
  | getUpdCh {server : Server} {index : ℕ} (hfree : s.todo = [])
      (h : s.service.server.getUpdCh = .ok (server, index)) : Moves env s .getUpdCh { s with
        service := { s.service with server }
        full := s.service.server.updChIndex :: s.full }
  | closeUpdCh {server : Server} {index : ℕ} (hfree : s.todo = [])
      (h : s.service.server.closeUpdCh index = .ok server) :
      Moves env s (.closeUpdCh index) { s with service := { s.service with server } }

end Local

/-! ## The invariant -/

/-- The command of a request that has called `Start`. -/
def Request.command (req : Request) : Option ((ℤ × ℤ) × Op) := req.started.map (·, req.op)

/-- Where a request can stand. -/
structure Request.Expects (resps : RespChannels) (applied : List (ℤ × ℤ)) (applier : ApplierState)
    (req : Request) : Prop where
  called : req.state = .called → req.started = none
  /-- It waits on the channel of its command; when this has been applied, the applier sends. -/
  waiting : ∀ ch, req.state = .waiting ch → ∃ key, req.started = some key ∧
    resps.get key.1 key.2 = some ch ∧ (key ∈ applied → applier = .sending ch)
  /-- It does not go on before its command was applied. -/
  applied : ∀ key, req.started = some key → (∃ ch, req.state = .waiting ch) ∨ key ∈ applied
  /-- It does not give up. -/
  served : req.state ≠ .woken false ∧ req.state ≠ .replied .wrongLeader

/-- A request is not disturbed by what happens to others. -/
theorem Request.Expects.mono {resps resps' : RespChannels} {applied applied' : List (ℤ × ℤ)}
    {applier applier' : ApplierState} {req : Request} (h : req.Expects resps applied applier)
    (hget : ∀ key ch, req.started = some key → resps.get key.1 key.2 = some ch →
      resps'.get key.1 key.2 = some ch)
    (happ : applied ⊆ applied')
    (hsend : ∀ key ch, req.started = some key → req.state = .waiting ch →
      resps.get key.1 key.2 = some ch → (key ∈ applied → applier = .sending ch) →
      key ∈ applied' → applier' = .sending ch) : req.Expects resps' applied' applier' where
  called := h.called
  waiting ch hch := by
    obtain ⟨key, hkey, hres, hap⟩ := h.waiting ch hch
    exact ⟨key, hkey, hget key ch hkey hres, hsend key ch hkey hch hres hap⟩
  applied key hkey := (h.applied key hkey).imp_right fun hmem => happ hmem
  served := h.served

namespace Local

/-- The terms and indices of the commands that were applied. -/
def appliedKeys (s : Local) : List (ℤ × ℤ) := s.service.applied.map Prod.fst

/-- The invariant. -/
structure Sound (env : Env) (s : Local) : Prop where
  service : Leads (Service.step env) {} s.service
  inv : Inv s.service.server.sm
  dead : s.service.dead = false
  closed : s.service.server.resps.closed = []
  /-- Every command comes from one request. -/
  started : (s.service.requests.filterMap Request.command).Perm s.raft.commands
  /-- Every command is delivered once. -/
  delivered : (s.service.delivered ++ s.raft.pending).Perm s.raft.commands
  received : ∀ msg, s.service.applier = .received msg → ∃ index op, msg = .command 1 index op
  stored : ∀ e ∈ s.service.server.resps.m, e.1 ∈ s.raft.commands.map Prod.fst
  sending : ∀ ch, s.service.applier = .sending ch → ∃ req ∈ s.service.requests,
    req.state = .waiting ch
  requests : ∀ req ∈ s.service.requests,
    req.Expects s.service.server.resps s.appliedKeys s.service.applier

variable {env : Env} {s t : Local} {e : LocalEvent} {k : ℕ} {req : Request}

namespace Sound

theorem init (env : Env) : Sound env {} where
  service := .refl _
  inv := Inv.new
  dead := rfl
  closed := rfl
  started := .refl _
  delivered := .refl _
  received := by simp
  stored := by simp
  sending := by simp
  requests := by simp

theorem mem_commands (h : s.Sound env) (hreq : req ∈ s.service.requests) {key : ℤ × ℤ}
    (hkey : req.started = some key) : (key, req.op) ∈ s.raft.commands :=
  h.started.mem_iff.1 (List.mem_filterMap.2 ⟨req, hreq, by simp [Request.command, hkey]⟩)

/-- A command is that of the request that has its term and index. -/
theorem op_eq (h : s.Sound env) {e : (ℤ × ℤ) × Op} (he : e ∈ s.raft.commands)
    (hreq : req ∈ s.service.requests) (hkey : req.started = some e.1) : e.2 = req.op := by
  have heq := List.inj_on_of_nodup_map s.raft.nodup_keys he (h.mem_commands hreq hkey) rfl
  rw [heq]

theorem ne_next (h : s.Sound env) (hreq : req ∈ s.service.requests) {key : ℤ × ℤ}
    (hkey : req.started = some key) : key ≠ s.raft.next := by
  rintro rfl
  exact s.raft.next_notMem (List.mem_map_of_mem (h.mem_commands hreq hkey))

theorem delivered_subset (h : s.Sound env) {e : (ℤ × ℤ) × Op} (he : e ∈ s.service.delivered) :
    e ∈ s.raft.commands :=
  h.delivered.mem_iff.1 (List.mem_append_left _ he)

/-- No two requests have started one command. -/
theorem eq_of_started (h : s.Sound env) {i : ℕ} {req' : Request} {key : ℤ × ℤ}
    (hi : s.service.requests[i]? = some req) (hk : s.service.requests[k]? = some req')
    (hkey : req.started = some key) (hkey' : req'.started = some key) : i = k := by
  have hnd : ((s.service.requests.filterMap Request.command).map Prod.fst).Nodup :=
    (h.started.map _).nodup_iff.2 s.raft.nodup_keys
  have heq : (s.service.requests.filterMap Request.command).map Prod.fst =
      s.service.requests.filterMap Request.started := by
    rw [List.map_filterMap]
    congr 1
    funext r
    cases hr : r.started <;> simp [Request.command, hr]
  rw [heq] at hnd
  exact Threads.eq_of_nodup_filterMap hnd hi hk hkey hkey'

end Sound

/-! ## What the steps do -/

theorem serve_eq {u : Local} {v : Service} {b : Bool} {e : ServiceEvent}
    (h : u.service.step env e = .ok (v, b)) : u.serve env e = .ok ({ u with service := v }, b) := by
  rw [serve, h]
  rfl

theorem locked_of_free (h : s.todo = []) (next : Go (Local × Bool)) : s.locked next = next :=
  if_pos h

/-- `Start` and `Create`: nobody waits on the new term and index. -/
theorem Sound.service_started (h : s.Sound env) (hreq : s.service.requests[k]? = some req)
    (hst : req.state = .called)
    (hno : s.service.server.sm.guaranteedNoEffect req.op = .ok false) :
    s.service.step env (.enter k (some s.raft.next)) = .ok ((s.started k req).service, true) := by
  have hfresh : ∀ e ∈ s.service.server.resps.m, e.1 ≠ s.raft.next := fun e he heq =>
    s.raft.next_notMem (heq ▸ h.stored e he)
  have hget : s.service.server.resps.get s.raft.next.1 s.raft.next.2 = none :=
    List.lookup_eq_none_iff.2 fun e he => by simpa using (hfresh e he).symm
  have hguard : ∀ e ∈ s.service.delivered, e.1 = s.raft.next → e.2 = req.op := fun e he heq =>
    absurd (heq ▸ List.mem_map_of_mem (h.delivered_subset he)) s.raft.next_notMem
  have hcreate := RespChannels.create_eq_ok_iff.2
    ⟨fun _ : env.debug = true => hget, rfl, rfl⟩
  have hfilter : (s.service.server.resps.m.filter fun e => e.1 ≠ s.raft.next) =
      s.service.server.resps.m := List.filter_eq_self.2 fun e he => by simpa using hfresh e he
  simp only [Prod.mk.eta] at hcreate
  rw [hfilter] at hcreate
  simp only [Service.step, hreq, hst, if_true, Service.enter, hno, bind, Except.bind]
  simp only [Bool.false_eq_true, if_false]
  rw [if_pos hguard, hcreate]
  rfl

/-- The applier can receive what a goroutine sends. -/
theorem Sound.service_deliver (h : s.Sound env) {index : ℤ} {op : Op}
    (hmem : (index, op) ∈ s.raft.inFlight) (hidle : s.service.applier = .idle) :
    s.service.step env (.deliver (.command 1 index op)) =
      .ok ({ s.service with applier := .received (.command 1 index op) }, true) := by
  have hcmd : ((1, index), op) ∈ s.raft.commands :=
    h.delivered.mem_iff.1 (List.mem_append_right _ (List.mem_map.2 ⟨_, hmem, rfl⟩))
  refine if_pos ⟨hidle, h.dead, fun e he r hr hkey => ?_⟩
  rw [List.mem_singleton.1 he] at hkey ⊢
  exact h.op_eq hcmd hr hkey

theorem Moves.step_eq (h : s.Sound env) (hm : Moves env s e t) :
    s.step env e = .ok (t, true) := by
  cases hm with
  | call op => rfl
  | void hfree hreq hst hno =>
    simp only [step, locked_of_free hfree, hreq, hst, if_true, enter, hno, bind, Except.bind]
    apply serve_eq
    simp only [Service.step, hreq, hst, if_true, Service.enter, hno, bind, Except.bind]
    rfl
  | start hfree hreq hst hno =>
    simp only [step, locked_of_free hfree, hreq, hst, if_true, enter, hno, bind, Except.bind,
      Mockraft.start_snd]
    exact serve_eq (u := { s with raft := (s.raft.start _).1 }) (h.service_started hreq hst hno)
  | deliver hfree hj hidle =>
    simp only [step, locked_of_free hfree, hj, hidle]
    exact serve_eq (u := { s with raft := _ }) (h.service_deliver (List.mem_of_getElem? hj) hidle)
  | @handle index op server ch hfree hap hh =>
    have hserve : s.service.step env .handle = .ok ({ s.service with
        server
        applier := .next ch
        applied := ((1, index), op) :: s.service.applied }, true) := by
      simp only [Service.step, hap, Service.handle, hh, bind, Except.bind]
      rfl
    simp only [step, locked_of_free hfree, serve_eq hserve, bind, Except.bind]
    rfl
  | send hi hroom => exact if_pos ⟨hi, hroom⟩
  | read hi => exact if_pos hi
  | receive hfree hreq hst hsend =>
    simp only [step, locked_of_free hfree]
    apply serve_eq
    simp only [Service.step, hreq, hst, Service.receive, h.closed, hsend]
    rfl
  | finish hfree hsent =>
    simp only [step, locked_of_free hfree]
    apply serve_eq
    simp only [Service.step, hsent]
    rfl
  | reply hfree hreq hst =>
    simp only [step, locked_of_free hfree]
    apply serve_eq
    simp only [Service.step, hreq, hst]
    rfl
  | @getUpdCh server index hfree hup =>
    have hserve : s.service.step env .getUpdCh = .ok ({ s.service with server }, true) := by
      simp only [Service.step, hup, bind, Except.bind]
      rfl
    simp only [step, locked_of_free hfree, serve_eq hserve, bind, Except.bind]
    rfl
  | closeUpdCh hfree hup =>
    simp only [step, locked_of_free hfree]
    apply serve_eq
    simp only [Service.step, hup, bind, Except.bind]
    rfl

/-- A step changes nothing, or it is one of the moves. -/
theorem Sound.moves_of_step (h : s.Sound env) {b : Bool} (hs : s.step env e = .ok (t, b)) :
    (b = true ∧ Moves env s e t) ∨ (b = false ∧ t = s) := by
  have hgo : ∀ {u : Local}, Moves env s e u → (b = true ∧ Moves env s e t) ∨ (b = false ∧ t = s) :=
    fun {u} hm => by
      rw [hm.step_eq h] at hs
      cases hs
      exact Or.inl ⟨rfl, hm⟩
  have hstay : s.step env e = .ok (s, false) →
      (b = true ∧ Moves env s e t) ∨ (b = false ∧ t = s) := fun heq => by
    rw [heq] at hs
    cases hs
    exact Or.inr ⟨rfl, rfl⟩
  by_cases hfree : s.todo = []
  swap
  · -- the applier has the lock
    cases e with
    | call op => exact hgo (.call op)
    | send i =>
      by_cases hi : i ∈ s.todo ∧ i ∉ s.full
      · exact hgo (.send hi.1 hi.2)
      · exact hstay (if_neg hi)
    | read i =>
      by_cases hi : i ∈ s.full
      · exact hgo (.read hi)
      · exact hstay (if_neg hi)
    | _ => exact hstay (if_neg hfree)
  have hserve : ∀ {e' : ServiceEvent}, s.service.step env e' = .ok (s.service, false) →
      s.locked (s.serve env e') = .ok (s, false) := fun heq =>
    (locked_of_free hfree _).trans (serve_eq heq)
  cases e with
  | call op => exact hgo (.call op)
  | enter k =>
    rcases hreq : s.service.requests[k]? with _ | req
    · exact hstay (by simp only [step, locked_of_free hfree, hreq]; rfl)
    by_cases hst : req.state = .called
    · obtain ⟨noEffect, hno⟩ := h.inv.guaranteedNoEffect_runs req.op
      cases noEffect with
      | true => exact hgo (.void hfree hreq hst hno)
      | false => exact hgo (.start hfree hreq hst hno)
    · exact hstay (by simp only [step, locked_of_free hfree, hreq, if_neg hst]; rfl)
  | deliver j =>
    rcases hj : s.raft.inFlight[j]? with _ | ⟨index, op⟩
    · exact hstay (by simp only [step, locked_of_free hfree, hj]; rfl)
    rcases hap : s.service.applier with _ | _ | _ | _
    · exact hgo (.deliver hfree hj hap)
    all_goals exact hstay (by simp only [step, locked_of_free hfree, hj, hap]; rfl)
  | handle =>
    have hnothing : s.service.step env .handle = .ok (s.service, false) →
        (b = true ∧ Moves env s .handle t) ∨ (b = false ∧ t = s) := fun heq => by
      simp only [step, locked_of_free hfree, serve_eq heq, bind, Except.bind] at hs
      cases hs
      exact Or.inr ⟨rfl, by rw [Server.sentTo_self, ← hfree]⟩
    rcases hap : s.service.applier with _ | msg | _ | _
    · exact hnothing (by simp only [Service.step, hap]; rfl)
    · obtain ⟨index, op, rfl⟩ := h.received msg hap
      rcases hh : s.service.server.handle env (.command 1 index op) with p | ⟨server, ch⟩
      · simp only [step, locked_of_free hfree, serve, Service.step, hap, Service.handle, hh, bind,
          Except.bind] at hs
        cases hs
      · exact hgo (.handle hfree hap hh)
    all_goals exact hnothing (by simp only [Service.step, hap]; rfl)
  | send i =>
    refine hstay (if_neg fun hi => ?_)
    rw [hfree] at hi
    cases hi.1
  | read i =>
    by_cases hi : i ∈ s.full
    · exact hgo (.read hi)
    · exact hstay (if_neg hi)
  | receive k =>
    rcases hreq : s.service.requests[k]? with _ | req
    · exact hstay (hserve (by simp only [Service.step, hreq]; rfl))
    rcases hst : req.state with _ | ch | _ | _
    · exact hstay (hserve (by simp only [Service.step, hreq, hst]; rfl))
    · by_cases hsend : s.service.applier = .sending ch
      · exact hgo (.receive hfree hreq hst hsend)
      · refine hstay (hserve ?_)
        simp only [Service.step, hreq, hst, Service.receive, h.closed, if_neg hsend]
        rfl
    all_goals exact hstay (hserve (by simp only [Service.step, hreq, hst]; rfl))
  | finish =>
    by_cases hsent : s.service.applier = .sent
    · exact hgo (.finish hfree hsent)
    · exact hstay (hserve (by simp only [Service.step, if_neg hsent]; rfl))
  | reply k =>
    rcases hreq : s.service.requests[k]? with _ | req
    · exact hstay (hserve (by simp only [Service.step, hreq]; rfl))
    rcases hst : req.state with _ | _ | resp | _
    · exact hstay (hserve (by simp only [Service.step, hreq, hst]; rfl))
    · exact hstay (hserve (by simp only [Service.step, hreq, hst]; rfl))
    · cases resp with
      | true => exact hgo (.reply hfree hreq hst)
      | false => exact absurd hst (h.requests req (List.mem_of_getElem? hreq)).served.1
    · exact hstay (hserve (by simp only [Service.step, hreq, hst]; rfl))
  | getUpdCh =>
    rcases hup : s.service.server.getUpdCh with p | ⟨server, index⟩
    · simp only [step, locked_of_free hfree, serve, Service.step, hup, bind, Except.bind] at hs
      cases hs
    · exact hgo (.getUpdCh hfree hup)
  | closeUpdCh index =>
    rcases hup : s.service.server.closeUpdCh index with p | server
    · simp only [step, locked_of_free hfree, serve, Service.step, hup, bind, Except.bind] at hs
      cases hs
    · exact hgo (.closeUpdCh hfree hup)

/-- A step is one of the server. -/
theorem leads_of_step {b : Bool} (hs : s.step env e = .ok (t, b)) :
    Leads (Service.step env) s.service t.service := by
  have hserve : ∀ {u v : Local} {b : Bool} {e : ServiceEvent}, u.serve env e = .ok (v, b) →
      u.service = s.service → Leads (Service.step env) s.service v.service := by
    intro u v b e hs hu
    obtain ⟨⟨w, b'⟩, hw, hs⟩ := bind_eq_ok_iff.1 hs
    cases hs
    exact hu ▸ Leads.of_step hw
  have hstay : ∀ {b' : Bool}, (.ok (s, b') : Go (Local × Bool)) = .ok (t, b) →
      Leads (Service.step env) s.service t.service := by
    rintro _ ⟨⟩
    exact .refl _
  -- behind the lock
  have hlocked : ∀ {next : Go (Local × Bool)}, s.locked next = .ok (t, b) →
      (next = .ok (t, b) → Leads (Service.step env) s.service t.service) →
      Leads (Service.step env) s.service t.service := by
    intro next hs hnext
    unfold locked at hs
    split_ifs at hs
    · exact hnext hs
    · exact hstay hs
  cases e with
  | call op => exact hserve hs rfl
  | enter k =>
    refine hlocked hs fun hs => ?_
    split at hs
    · split_ifs at hs
      · obtain ⟨noEffect, -, hs⟩ := bind_eq_ok_iff.1 hs
        dsimp only [Mockraft.start] at hs
        split_ifs at hs
        · exact hserve hs rfl
        · exact hserve hs rfl
      · exact hstay hs
    · exact hstay hs
  | deliver j =>
    refine hlocked hs fun hs => ?_
    split at hs
    · exact hserve hs rfl
    · exact hstay hs
  | handle | getUpdCh =>
    refine hlocked hs fun hs => ?_
    obtain ⟨⟨u, b'⟩, hu, hs⟩ := bind_eq_ok_iff.1 hs
    cases hs
    have hl := hserve hu rfl
    exact hl
  | send i | read i =>
    simp only [step] at hs
    split_ifs at hs
    · cases hs
      exact .refl _
    · exact hstay hs
  | receive | finish | reply | closeUpdCh => exact hlocked hs (hserve · rfl)

/-! ## Every move keeps the invariant -/

namespace Sound

/-- The channels for updates are not part of it. -/
theorem congr (h : s.Sound env) (hraft : t.raft = s.raft) (hservice : t.service = s.service) :
    t.Sound env := by
  obtain ⟨raft, service, full, todo⟩ := t
  cases hraft
  cases hservice
  exact { h with }

/-- A request goes on by itself. -/
theorem put (h : s.Sound env) {req' : Request} (hreq : s.service.requests[k]? = some req)
    (hl : Leads (Service.step env) {} (s.put k req').service)
    (hcmd : req'.command = req.command) (hnw : ∀ ch, req.state ≠ .waiting ch)
    (hexp : req'.Expects s.service.server.resps s.appliedKeys s.service.applier) :
    (s.put k req').Sound env where
  service := hl
  inv := h.inv
  dead := h.dead
  closed := h.closed
  started := by
    simp only [Local.put, Service.put, Threads.filterMap_set hreq hcmd]
    exact h.started
  delivered := h.delivered
  received := h.received
  stored := h.stored
  sending ch hch := by
    obtain ⟨r, hr, hst⟩ := h.sending ch hch
    exact ⟨r, Threads.mem_set_of_ne hreq hr (by rintro rfl; exact hnw ch hst) _, hst⟩
  requests r hr := by
    rcases List.mem_or_eq_of_mem_set hr with hr | rfl
    · exact h.requests r hr
    · exact hexp

theorem call (h : s.Sound env) (op : Op)
    (hl : Leads (Service.step env) {} { s.service with
      requests := s.service.requests ++ [{ op }] }) :
    Sound env { s with
      service := { s.service with requests := s.service.requests ++ [{ op }] } } :=
  { h with
    service := hl
    started := by
      rw [List.filterMap_append, List.filterMap_cons_none rfl, List.filterMap_nil, List.append_nil]
      exact h.started
    sending := fun ch hch => by
      obtain ⟨r, hr, hst⟩ := h.sending ch hch
      exact ⟨r, List.mem_append_left _ hr, hst⟩
    requests := fun r hr => by
      rcases List.mem_append.1 hr with hr | hr
      · exact h.requests r hr
      · rw [List.mem_singleton.1 hr]
        exact ⟨fun _ => rfl, by simp, by simp, by simp⟩ }

theorem applied_subset (h : s.Sound env) {key : ℤ × ℤ} (hkey : key ∈ s.appliedKeys) :
    key ∈ s.raft.commands.map Prod.fst := by
  obtain ⟨e, he, rfl⟩ := List.mem_map.1 hkey
  refine List.mem_map_of_mem (h.delivered_subset ?_)
  unfold Service.delivered
  split
  · exact List.mem_append_right _ he
  · exact he

/-- A request starts its command. -/
theorem start (h : s.Sound env) (hreq : s.service.requests[k]? = some req)
    (hst : req.state = .called)
    (hl : Leads (Service.step env) {} (s.started k req).service) : (s.started k req).Sound env where
  service := hl
  inv := h.inv
  dead := h.dead
  closed := h.closed
  started := by
    have hnone : req.command = none := by
      simp [Request.command, (h.requests req (List.mem_of_getElem? hreq)).called hst]
    simp only [Local.started, Service.put, Mockraft.commands_start]
    exact (Threads.perm_filterMap_set hreq hnone rfl).trans (h.started.append_right _)
  delivered := by
    simp only [Local.started, Mockraft.commands_start, Mockraft.pending_start]
    rw [← List.append_assoc]
    exact h.delivered.append_right _
  received := h.received
  stored := by
    simp only [Local.started, Mockraft.commands_start, Service.put, List.map_append,
      List.forall_mem_cons]
    exact ⟨by simp, fun e he => List.mem_append_left _ (h.stored e he)⟩
  sending ch hch := by
    obtain ⟨r, hr, hw⟩ := h.sending ch hch
    exact ⟨r, Threads.mem_set_of_ne hreq hr (by rintro rfl; simp [hst] at hw) _, hw⟩
  requests r hr := by
    rcases List.mem_or_eq_of_mem_set hr with hr | rfl
    · refine (h.requests r hr).mono (fun key ch hkey hget => ?_) (List.Subset.refl _)
        fun key ch _ _ _ hap => hap
      have hne : (key == s.raft.next) = false := beq_eq_false_iff_ne.2 (h.ne_next hr hkey)
      simpa [Local.started, Service.put, RespChannels.get, List.lookup_cons, hne] using hget
    · refine ⟨by simp, fun ch hch => ⟨s.raft.next, rfl, ?_, fun hap => ?_⟩, fun key _ =>
        Or.inl ⟨_, rfl⟩, by simp⟩
      · cases hch
        simp [Local.started, Service.put, RespChannels.get]
      · exact absurd (h.applied_subset hap) s.raft.next_notMem

/-- A goroutine has sent. -/
theorem deliver (h : s.Sound env) {j : ℕ} {index : ℤ} {op : Op}
    (hj : s.raft.inFlight[j]? = some (index, op)) (hidle : s.service.applier = .idle)
    (hl : Leads (Service.step env) {}
      { s.service with applier := .received (.command 1 index op) }) :
    Sound env { s with
      raft := { s.raft with inFlight := s.raft.inFlight.eraseIdx j }
      service := { s.service with applier := .received (.command 1 index op) } } :=
  { h with
    service := hl
    delivered := by
      refine List.Perm.trans ?_ h.delivered
      obtain ⟨hlt, hget⟩ := List.getElem?_eq_some_iff.1 hj
      have hperm := ((List.getElem_cons_eraseIdx_perm hlt).map
        fun e : ℤ × Op => (((1 : ℤ), e.1), e.2))
      rw [hget, List.map_cons] at hperm
      simp only [Service.delivered, hidle, ApplyMsg.toApply, Mockraft.pending]
      exact List.perm_middle.symm.trans (hperm.append_left _)
    received := fun msg hmsg => by
      cases hmsg
      exact ⟨_, _, rfl⟩
    sending := by simp
    requests := fun r hr => (h.requests r hr).mono (fun _ _ _ hget => hget) (List.Subset.refl _)
      fun key ch _ _ _ hap hmem => absurd (hidle.symm.trans (hap hmem)) (by simp) }

/-- What the applier does with a command. -/
theorem handle_command {server server' : Server} {term index : ℤ} {op : Op} {ch : Option ℕ}
    (hs : server.handle env (.command term index op) = .ok (server', ch)) :
    (∃ b, server.sm.apply op = .ok (server'.sm, b)) ∧ server'.resps = server.resps ∧
      server'.updChIndex = server.updChIndex ∧ ch = server.resps.get term index := by
  obtain ⟨⟨sm, updated⟩, hap, hs⟩ := bind_eq_ok_iff.1 hs
  cases updated with
  | false =>
    cases hs
    exact ⟨⟨_, hap⟩, rfl, rfl, rfl⟩
  | true =>
    obtain ⟨u, hu, hs⟩ := bind_eq_ok_iff.1 hs
    cases hs
    obtain ⟨hsm, hresps, hindex⟩ := Service.frame_sendStateMachineUpdate hu
    exact ⟨⟨_, hap.trans (by rw [hsm])⟩, hresps, hindex, by rw [hresps]⟩

/-- The applier finds the channel of the request that waits for the command. -/
theorem handle (h : s.Sound env) {index : ℤ} {op : Op} {server : Server} {ch : Option ℕ}
    (hap : s.service.applier = .received (.command 1 index op))
    (hh : s.service.server.handle env (.command 1 index op) = .ok (server, ch))
    (hl : Leads (Service.step env) {} { s.service with
      server
      applier := .next ch
      applied := ((1, index), op) :: s.service.applied }) :
    Sound env { s with service := { s.service with
      server
      applier := .next ch
      applied := ((1, index), op) :: s.service.applied } } := by
  obtain ⟨⟨b, hsm⟩, hresps, -, rfl⟩ := handle_command hh
  have hdel : s.service.delivered = ((1, index), op) :: s.service.applied := by
    simp [Service.delivered, hap, ApplyMsg.toApply]
  have hnew : (1, index) ∉ s.appliedKeys := by
    have hnd := (h.delivered.map Prod.fst).nodup_iff.2 s.raft.nodup_keys
    rw [hdel, List.cons_append, List.map_cons, List.nodup_cons, List.map_append] at hnd
    exact fun hmem => hnd.1 (List.mem_append_left _ hmem)
  refine { h with
    service := hl
    inv := ?_
    closed := by rw [hresps]; exact h.closed
    delivered := ?_
    received := ?_
    stored := by rw [hresps]; exact h.stored
    sending := fun c hc => ?_
    requests := fun r hr => ?_ }
  · obtain ⟨sm, b', hsm', hinv⟩ := h.inv.apply_total op
    rw [hsm] at hsm'
    cases hsm'
    exact hinv
  · have hperm := h.delivered
    rw [hdel] at hperm
    cases s.service.server.resps.get 1 index <;> exact hperm
  · cases s.service.server.resps.get 1 index <;> simp [ApplierState.next]
  · rcases hget : s.service.server.resps.get 1 index with _ | c'
    · simp [hget, ApplierState.next] at hc
    obtain rfl : c' = c := by simpa [hget, ApplierState.next] using hc
    have hcmd : ((1, index), op) ∈ s.raft.commands :=
      h.delivered_subset (hdel ▸ List.mem_cons_self)
    obtain ⟨r, hr, hrc⟩ := List.mem_filterMap.1 (h.started.mem_iff.2 hcmd)
    have hkey : r.started = some (1, index) := by
      rcases hrs : r.started with _ | key <;> simp [Request.command, hrs] at hrc
      rw [hrc.1]
    obtain ⟨ch, hch⟩ := ((h.requests r hr).applied _ hkey).resolve_right hnew
    obtain ⟨key, hkey', hget', -⟩ := (h.requests r hr).waiting ch hch
    cases hkey.symm.trans hkey'
    cases hget.symm.trans hget'
    exact ⟨r, hr, hch⟩
  · refine (h.requests r hr).mono (fun key c _ hget => by rwa [hresps])
      (List.subset_cons_self _ _) fun key c _ _ hget hsend hmem => ?_
    rcases List.mem_cons.1 hmem with rfl | hmem
    · simp only [hget]
      rfl
    · -- before, the applier sends to nobody
      exact absurd (hap.symm.trans (hsend hmem)) (by simp)

/-- The request receives, and nobody else waits on its channel. -/
theorem receive (h : s.Sound env) {ch : ℕ} (hreq : s.service.requests[k]? = some req)
    (hst : req.state = .waiting ch) (hsend : s.service.applier = .sending ch)
    (hl : Leads (Service.step env) {}
      ({ s.service with applier := .sent }.put k { req with state := .woken true })) :
    Sound env (Local.put { s with service := { s.service with applier := .sent } } k
      { req with state := .woken true }) := by
  have hservice := Service.Sound.of_leads h.service
  have hmem := List.mem_of_getElem? hreq
  obtain ⟨key, hkey, hkeys⟩ := (hservice.requests req hmem).waiting ch hst
  obtain ⟨-, e, he, hkeys'⟩ := hservice.sending ch hsend
  cases hkeys.symm.trans hkeys'
  have happlied : e.1 ∈ s.appliedKeys := List.mem_map_of_mem he
  refine { h with
    service := hl
    started := ?_
    delivered := ?_
    received := by simp [Local.put, Service.put]
    sending := by simp [Local.put, Service.put]
    requests := fun r hr => ?_ }
  · have hcmd : ({ req with state := .woken true } : Request).command = req.command := rfl
    simp only [Local.put, Service.put, Threads.filterMap_set hreq hcmd]
    exact h.started
  · have hperm := h.delivered
    simp only [Service.delivered, hsend] at hperm
    exact hperm
  · obtain ⟨i, hi⟩ := List.mem_iff_getElem?.1 hr
    rcases Threads.getElem?_set_cases hi with ⟨-, rfl⟩ | ⟨hne, hi⟩
    · exact ⟨by simp, by simp, fun key' hkey' => by
        cases hkey.symm.trans hkey'
        exact Or.inr happlied, by simp⟩
    · have hr' := List.mem_of_getElem? hi
      refine (h.requests r hr').mono (fun _ _ _ hget => hget) (List.Subset.refl _)
        fun key' ch' hkey' hst' _ hap hmem' => ?_
      -- two requests on one channel would have started one command
      cases hsend.symm.trans (hap hmem')
      obtain ⟨key'', hkey'', hkeys''⟩ := (hservice.requests r hr').waiting ch hst'
      cases hkeys.symm.trans hkeys''
      exact absurd (h.eq_of_started hi hreq hkey'' hkey) hne

theorem finish (h : s.Sound env) (hsent : s.service.applier = .sent)
    (hl : Leads (Service.step env) {} { s.service with applier := .idle }) :
    Sound env { s with service := { s.service with applier := .idle } } :=
  { h with
    service := hl
    delivered := by
      have hperm := h.delivered
      simp only [Service.delivered, hsent] at hperm
      exact hperm
    received := by simp
    sending := by simp
    requests := fun r hr => (h.requests r hr).mono (fun _ _ _ hget => hget) (List.Subset.refl _)
      fun key ch _ _ _ hap hmem => absurd (hsent.symm.trans (hap hmem)) (by simp) }

/-- What happens at the channels for updates. -/
theorem server (h : s.Sound env) {server : Server}
    (hl : Leads (Service.step env) {} { s.service with server })
    (hsm : server.sm = s.service.server.sm) (hresps : server.resps = s.service.server.resps) :
    Sound env { s with service := { s.service with server } } :=
  { h with
    service := hl
    inv := hsm ▸ h.inv
    closed := by rw [hresps]; exact h.closed
    stored := by rw [hresps]; exact h.stored
    requests := by rw [hresps]; exact h.requests }

theorem moves (h : s.Sound env) (hm : Moves env s e t) : t.Sound env := by
  have hl := h.service.trans (leads_of_step (hm.step_eq h))
  cases hm with
  | call op => exact h.call op hl
  | @void k req hfree hreq hst hno =>
    have hnone := (h.requests req (List.mem_of_getElem? hreq)).called hst
    exact h.put hreq hl rfl (by simp [hst]) ⟨by simp, by simp, by simp [hnone], by simp⟩
  | start hfree hreq hst hno => exact h.start hreq hst hl
  | deliver hfree hj hidle => exact h.deliver hj hidle hl
  | handle hfree hap hh => exact (h.handle hap hh hl).congr rfl rfl
  | send hi hroom => exact h.congr rfl rfl
  | read hi => exact h.congr rfl rfl
  | receive hfree hreq hst hsend => exact h.receive hreq hst hsend hl
  | finish hfree hsent => exact h.finish hsent hl
  | @reply k req hfree hreq hst =>
    have hexp := h.requests req (List.mem_of_getElem? hreq)
    refine h.put hreq hl rfl (by simp [hst]) ⟨by simp, by simp, fun key hkey => ?_, by simp⟩
    exact Or.inr ((hexp.applied key hkey).resolve_left (by simp [hst]))
  | getUpdCh hfree hup =>
    obtain ⟨copy, -, hup⟩ := bind_eq_ok_iff.1 hup
    cases hup
    exact (h.server hl rfl rfl).congr rfl rfl
  | closeUpdCh hfree hup =>
    unfold Server.closeUpdCh at hup
    split at hup
    · cases hup
    · cases hup
      exact h.server hl rfl rfl

theorem of_reachable (hs : s.Reachable env) : s.Sound env := by
  obtain ⟨log, hlog⟩ := hs
  refine run_preserves (fun u e v b hu hst => ?_) (init env) hlog
  rcases hu.moves_of_step hst with ⟨-, hm⟩ | ⟨-, rfl⟩
  · exact hu.moves hm
  · exact hu

end Sound

/-- **Each command once.** However requests, goroutines and the applier are interleaved: the server
is in a state of `Requests.lean`, the commands are those of the requests, each once, every command
is still to be sent or was delivered, once, and no call of `SubmitOp` panics. -/
theorem command_once (hs : s.Reachable env) :
    Leads (Service.step env) {} s.service ∧
    (s.service.requests.filterMap Request.command).Perm s.raft.commands ∧
    (s.service.delivered ++ s.raft.pending).Perm s.raft.commands ∧
    (s.raft.commands.map Prod.fst).Nodup ∧
    ∀ k, ∃ r, s.step env (.enter k) = .ok r := by
  have h := Sound.of_reachable hs
  refine ⟨h.service, h.started, h.delivered, s.raft.nodup_keys, fun k => ?_⟩
  by_cases hfree : s.todo = []
  swap
  · exact ⟨(s, false), if_neg hfree⟩
  rcases hreq : s.service.requests[k]? with _ | req
  · exact ⟨(s, false), by simp only [step, locked_of_free hfree, hreq]; rfl⟩
  by_cases hst : req.state = .called
  · obtain ⟨noEffect, hno⟩ := h.inv.guaranteedNoEffect_runs req.op
    cases noEffect with
    | true => exact ⟨_, (Moves.void hfree hreq hst hno).step_eq h⟩
    | false => exact ⟨_, (Moves.start hfree hreq hst hno).step_eq h⟩
  · exact ⟨(s, false), by simp only [step, locked_of_free hfree, hreq, if_neg hst]; rfl⟩

/-- Two clients join, and the command of the second is applied first. -/
def swappedEvents : List LocalEvent :=
  [.call (.join 1 0), .call (.join 2 0), .enter 0, .enter 1, .deliver 1, .handle, .receive 1]

theorem exists_run_swappedEvents : ∃ s : Local,
    s.Reachable ⟨fun _ => Vector.replicate 32 0, fun _ => true, true⟩ ∧
    s.raft.pending = [((1, 1), .join 1 0)] ∧
    s.service.applied = [((1, 2), .join 2 0)] ∧ s.service.server.updChIndex = 0 := by
  obtain ⟨s, hs, hp⟩ := exists_of_endsWith (by decide +kernel :
    endsWith (step ⟨fun _ => Vector.replicate 32 0, fun _ => true, true⟩) {} swappedEvents
      (fun s => decide (s.raft.pending = [((1, 1), .join 1 0)] ∧
        s.service.applied = [((1, 2), .join 2 0)] ∧ s.service.server.updChIndex = 0)) = true)
  exact ⟨s, ⟨_, hs⟩, of_decide_eq_true hp⟩

theorem command_once_swapped : ∃ s : Local,
    s.Reachable ⟨fun _ => Vector.replicate 32 0, fun _ => true, true⟩ ∧
    s.raft.pending = [((1, 1), .join 1 0)] ∧ s.service.applied = [((1, 2), .join 2 0)] ∧
    (s.service.requests.filterMap Request.command).Perm s.raft.commands := by
  obtain ⟨s, hs, hpending, happlied, -⟩ := exists_run_swappedEvents
  exact ⟨s, hs, hpending, happlied, (command_once hs).2.1⟩

/-! ## Calls return -/

end Local

/-- What the server, its Raft and the subscribers that read do by themselves. -/
def LocalEvent.System (reads : ℕ → Prop) : LocalEvent → Prop
  | call _ | getUpdCh | closeUpdCh _ => False
  | read i => reads i
  | _ => True

/-- With `n` subscribers. -/
def RequestState.weight (n : ℕ) : RequestState → ℕ
  | called => 2 * n + 6
  | waiting _ => 2
  | woken _ => 1
  | replied _ => 0

def requestsWeight (n : ℕ) (requests : List Request) : ℕ :=
  (requests.map fun req => req.state.weight n).sum

def ApplierState.weight (n : ℕ) : ApplierState → ℕ
  | idle => 0
  | received _ => 2 * n + 2
  | sending _ => 1
  | sent => 1

namespace Local

variable {env : Env} {s t : Local} {e : LocalEvent} {k : ℕ} {req : Request} {reads : ℕ → Prop}

/-- It bounds the number of steps to come: a request may have a command delivered, and every
subscriber may be sent an update and read it. -/
def weight (s : Local) : ℕ :=
  let n := s.service.server.updChIndex
  requestsWeight n s.service.requests + (2 * n + 3) * s.raft.inFlight.length +
    s.service.applier.weight n + 2 * s.todo.length + s.full.length

theorem requestsWeight_set (n : ℕ) (hreq : s.service.requests[k]? = some req) (req' : Request) :
    requestsWeight n (s.service.requests.set k req') + req.state.weight n =
      requestsWeight n s.service.requests + req'.state.weight n :=
  Threads.sum_map_set (fun req : Request => req.state.weight n) hreq req'

/-- A request that goes on lowers the weight. -/
theorem weight_put_lt {req' : Request} (hreq : s.service.requests[k]? = some req)
    (hlt : req'.state.weight s.service.server.updChIndex <
      req.state.weight s.service.server.updChIndex) : (s.put k req').weight < s.weight := by
  have hset := requestsWeight_set s.service.server.updChIndex hreq req'
  simp only [weight, put, Service.put]
  omega

/-- Every step of the system lowers the weight. -/
theorem Moves.weight_lt (hm : Moves env s e t) (he : e.System reads) : t.weight < s.weight := by
  cases hm with
  | call op => exact he.elim
  | void hfree hreq hst | reply hfree hreq hst =>
    exact weight_put_lt hreq (by simp [hst, RequestState.weight])
  | @start k req hfree hreq hst hno =>
    have hset := requestsWeight_set s.service.server.updChIndex hreq { req with
      state := .waiting s.service.server.resps.made
      checked := some s.service.server.sm
      started := some s.raft.next }
    rw [hst] at hset
    simp only [RequestState.weight] at hset
    simp only [weight, started, Service.put, Mockraft.start, List.length_append,
      List.length_singleton, Nat.mul_add, Nat.mul_one]
    omega
  | @deliver j index op hfree hj hidle =>
    have hlt := (List.getElem?_eq_some_iff.1 hj).1
    have hlen := List.length_eraseIdx_of_lt hlt
    obtain ⟨m, hm⟩ : ∃ m, s.raft.inFlight.length = m + 1 := Nat.exists_eq_add_one.2 (by omega)
    simp only [weight, hidle, ApplierState.weight, hlen, hm, Nat.add_sub_cancel, Nat.mul_add,
      Nat.mul_one]
    omega
  | @handle index op server ch hfree hap hh =>
    obtain ⟨-, -, hindex, -⟩ := Sound.handle_command hh
    have hsent := s.service.server.length_sentTo_le server
    have hnext : (ApplierState.next ch).weight server.updChIndex ≤ 1 := by
      cases ch <;> simp [ApplierState.next, ApplierState.weight]
    have hreceived : (ApplierState.received (.command 1 index op)).weight
        s.service.server.updChIndex = 2 * s.service.server.updChIndex + 2 := rfl
    rw [hindex] at hsent hnext
    simp only [weight, hap, hfree, hindex, hreceived, List.length_nil]
    omega
  | @send i hi hroom =>
    have herase := List.length_erase_of_mem hi
    have hpos := List.length_pos_of_mem hi
    simp only [weight, herase, List.length_cons]
    omega
  | @read i hi =>
    have herase := List.length_erase_of_mem hi
    have hpos := List.length_pos_of_mem hi
    simp only [weight, herase]
    omega
  | receive hfree hreq hst hsend =>
    -- the applier has sent, and still has to take the lock
    refine (weight_put_lt (s := { s with service := { s.service with applier := .sent } }) hreq
      ?_).trans_eq ?_
    · simp [hst, RequestState.weight]
    · simp [weight, hsend, ApplierState.weight]
  | finish hfree hsent => simp [weight, hsent, ApplierState.weight]
  | getUpdCh => exact he.elim
  | closeUpdCh => exact he.elim

section Stuck

variable (h : s.Sound env) (hstuck : Stuck (step env) (LocalEvent.System reads) s)
include h hstuck

theorem not_system_of_stuck (hm : Moves env s e t) : ¬ e.System reads := fun he =>
  hstuck e he t (hm.step_eq h)

variable (hfree : s.todo = [])
include hfree

variable (hidle : s.service.applier = .idle)
include hidle

end Stuck

/-- The applier waits, with the lock, for subscriber `i` to read. -/
def Blocked (s : Local) (i : ℕ) : Prop := i ∈ s.todo ∧ i ∈ s.full

/-- Until the subscriber reads, no call of `SubmitOp` goes on. -/
theorem Blocked.moves {i : ℕ} (hb : s.Blocked i) (he : e ≠ .read i) (hm : Moves env s e t) :
    t.Blocked i ∧ s.service.requests <+: t.service.requests := by
  obtain ⟨htodo, hfull⟩ := hb
  have hbusy : s.todo ≠ [] := List.ne_nil_of_mem htodo
  cases hm with
  | call op => exact ⟨⟨htodo, hfull⟩, List.prefix_append _ _⟩
  | @send j hj hroom =>
    have hne : i ≠ j := by
      rintro rfl
      exact hroom hfull
    exact ⟨⟨(List.mem_erase_of_ne hne).2 htodo, List.mem_cons_of_mem _ hfull⟩, List.prefix_rfl⟩
  | @read j hj =>
    have hne : i ≠ j := by
      rintro rfl
      exact he rfl
    exact ⟨⟨htodo, (List.mem_erase_of_ne hne).2 hfull⟩, List.prefix_rfl⟩
  | void hfree | start hfree | deliver hfree | handle hfree | receive hfree | finish hfree
  | reply hfree | getUpdCh hfree | closeUpdCh hfree => exact absurd hfree hbusy

theorem Blocked.run {i : ℕ} {log : List LocalEvent} (h : s.Sound env) (hb : s.Blocked i)
    (hlog : ∀ e ∈ log, e ≠ .read i) (hrun : Transition.run (step env) s log = .ok t) :
    t.Blocked i ∧ s.service.requests <+: t.service.requests := by
  refine (run_preserves_of (I := fun u => u.Sound env ∧ u.Blocked i ∧
    s.service.requests <+: u.service.requests) _ ?_ hlog ⟨h, hb, List.prefix_rfl⟩ hrun).2
  rintro u e v b ⟨hu, hblocked, hpre⟩ he hst
  rcases hu.moves_of_step hst with ⟨-, hm⟩ | ⟨-, rfl⟩
  · obtain ⟨hb', hpre'⟩ := hblocked.moves he hm
    exact ⟨hu.moves hm, hb', hpre.trans hpre'⟩
  · exact ⟨hu, hblocked, hpre⟩

end Local

end EggScrambler
