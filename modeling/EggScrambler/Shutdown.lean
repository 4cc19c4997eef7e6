import Mathlib
import EggScrambler.Crypto
import EggScrambler.Lib.Threads
import EggScrambler.Lib.Transition

/-!
# Updates and the end of a client

`World.lean` has channels of any size.  Here they are what `GetUpdCh` makes, with a buffer of one,
and the server holds its lock while it sends: if a client does not read, the server waits for it,
and with the server all other clients.  `readUpdates` reads nothing before `setActive` has returned,
which asks for the leader until there is an answer or the client is dead.  `Kill` may be called at
any time and any number of times.  It first submits an abort and waits for the reply, then calls
`BecomeInactive`, which also needs the leader or a dead client, then closes the channel, for which
it needs the lock of the server, and only then lets the loops of the client end.  Whether the leader
answers is left open; what `setActive` and `BecomeInactive` do is in `Membership.lean`, and their
calls, unlike that of `SubmitOp`, are taken to return in any case.

* `updates_in_order`: a client reads all updates in order, and it is behind by two at most.
* `kill_returns`: nothing is sent on a closed channel and no channel is closed twice.  If the leader
  answers, the server is never kept waiting, all calls of `Kill` return, and the loops that they are
  about end.  Without an answer, a client in `setActive` keeps the server waiting.
-/

namespace EggScrambler

open Transition

/-- Where `readUpdates` stands. -/
inductive ReaderState where
  /-- In `setActive`. -/
  | starting
  /-- At `!c.killed()`. -/
  | head
  /-- At `<-c.updCh`. -/
  | reading
  | ended
  deriving DecidableEq

/-- Where a call of `Kill` stands. -/
inductive KillState where
  /-- It submits the abort operation, if there is one. -/
  | submitting
  /-- In `BecomeInactive`. -/
  | leaving
  /-- It waits for `killMu`. -/
  | waiting
  /-- It has `killMu` and waits for the lock of the server, in `CloseUpdCh`. -/
  | closing
  /-- It has closed the channel. -/
  | closed
  | returned
  deriving DecidableEq

/-- A client and its channel; `μ` is what updates are about. -/
structure Subscriber (μ : Type) where
  updCh : List μ := []
  closed : Bool := false
  dead : Bool := false
  /-- The call of `Kill` that has the lock. -/
  killMu : Option ℕ := none
  kills : List KillState := []
  reader : ReaderState := .starting
  received : List μ := []
  /-- The updates since `GetUpdCh`, while the channel is open. -/
  updates : List μ := []
  deriving DecidableEq

/-- A server and its clients. -/
structure Hub (μ : Type) where
  subs : List (Subscriber μ) := []
  /-- The keys of the map. -/
  updChs : List ℕ := []
  /-- What is being sent under the lock, and to whom it has still to be sent. -/
  sending : Option (μ × List ℕ) := none
  deriving DecidableEq

inductive HubEvent (μ : Type) where
  /-- `GetUpdCh`, with the current state. -/
  | subscribe (m : μ)
  /-- The applier gets the lock, with something to send. -/
  | update (m : μ)
  /-- The applier sends to client `i`. -/
  | send (i : ℕ)
  /-- The applier has sent to all. -/
  | unlock
  /-- The leader answers client `i`, which goes on from `setActive` to the loop. -/
  | answer (i : ℕ)
  /-- Client `i` goes on without an answer, since it is dead. -/
  | giveUp (i : ℕ)
  /-- Client `i` looks whether it is killed. -/
  | check (i : ℕ)
  | read (i : ℕ)
  /-- A call of `Kill`. -/
  | kill (i : ℕ)
  /-- `submitOp` returns to call `k`, with or without an error. -/
  | submitted (i k : ℕ)
  /-- The leader has removed the server, and call `k` comes from `BecomeInactive` to `killMu`. -/
  | remove (i k : ℕ)
  /-- Call `k` comes there without the leader, since the client is dead. -/
  | release (i k : ℕ)
  /-- Call `k` gets `killMu` and looks whether the client is killed. -/
  | enter (i k : ℕ)
  /-- Call `k` gets the lock of the server and closes the channel. -/
  | close (i k : ℕ)
  /-- Call `k` returns. -/
  | die (i k : ℕ)

namespace Hub

variable {μ : Type}

def put (h : Hub μ) (i : ℕ) (sub : Subscriber μ) : Hub μ := { h with subs := h.subs.set i sub }

/-- All clients with an open channel are to get an update. -/
def announce (h : Hub μ) (m : μ) : List (Subscriber μ) :=
  h.subs.mapIdx fun i sub =>
    if i ∈ h.updChs then { sub with updates := sub.updates ++ [m] } else sub

/-- One step; an event that is not possible changes nothing. -/
def step (h : Hub μ) : HubEvent μ → Go (Hub μ × Bool)
  | .subscribe m =>
    match h.sending with
    | none => return ({ h with
        subs := h.subs ++ [{ updCh := [m], updates := [m] }]
        updChs := h.subs.length :: h.updChs }, true)
    | some _ => return (h, false)
  | .update m =>
    match h.sending with
    | none => return ({ h with subs := h.announce m, sending := some (m, h.updChs) }, true)
    | some _ => return (h, false)
  | .send i =>
    match h.sending, h.subs[i]? with
    | some (m, todo), some sub =>
      if i ∈ todo then
        if sub.closed then .error .closedChannel
        else if sub.updCh.length < 1 then
          return ({ h with sending := some (m, todo.erase i) }.put i
            { sub with updCh := sub.updCh ++ [m] }, true)
        else return (h, false)
      else return (h, false)
    | _, _ => return (h, false)
  | .unlock =>
    match h.sending with
    | some (_, []) => return ({ h with sending := none }, true)
    | _ => return (h, false)
  | .answer i =>
    match h.subs[i]? with
    | some sub =>
      if sub.reader = .starting then return (h.put i { sub with reader := .head }, true)
      else return (h, false)
    | none => return (h, false)
  | .giveUp i =>
    match h.subs[i]? with
    | some sub =>
      if sub.reader = .starting ∧ sub.dead then
        return (h.put i { sub with reader := .head }, true)
      else return (h, false)
    | none => return (h, false)
  | .check i =>
    match h.subs[i]? with
    | some sub =>
      if sub.reader = .head then
        return (h.put i { sub with reader := if sub.dead then .ended else .reading }, true)
      else return (h, false)
    | none => return (h, false)
  | .read i =>
    match h.subs[i]? with
    | some sub =>
      if sub.reader = .reading then
        match sub.updCh with
        | m :: ch => return (h.put i
            { sub with reader := .head, updCh := ch, received := sub.received ++ [m] }, true)
        | [] =>
          -- a closed channel yields a value without a state, and the loop comes back to it
          -- until the client is killed
          if sub.closed ∧ sub.dead then return (h.put i { sub with reader := .ended }, true)
          else return (h, false)
      else return (h, false)
    | none => return (h, false)
  | .kill i =>
    match h.subs[i]? with
    | some sub => return (h.put i { sub with kills := sub.kills ++ [.submitting] }, true)
    | none => return (h, false)
  | .submitted i k =>
    match h.subs[i]? with
    | some sub =>
      if sub.kills[k]? = some .submitting then
        return (h.put i { sub with kills := sub.kills.set k .leaving }, true)
      else return (h, false)
    | none => return (h, false)
  | .remove i k =>
    match h.subs[i]? with
    | some sub =>
      if sub.kills[k]? = some .leaving then
        return (h.put i { sub with kills := sub.kills.set k .waiting }, true)
      else return (h, false)
    | none => return (h, false)
  | .release i k =>
    match h.subs[i]? with
    | some sub =>
      if sub.kills[k]? = some .leaving ∧ sub.dead then
        return (h.put i { sub with kills := sub.kills.set k .waiting }, true)
      else return (h, false)
    | none => return (h, false)
  | .enter i k =>
    match h.subs[i]? with
    | some sub =>
      match sub.kills[k]?, sub.killMu with
      | some .waiting, none =>
        if sub.dead then return (h.put i { sub with kills := sub.kills.set k .returned }, true)
        else return (h.put i
          { sub with killMu := some k, kills := sub.kills.set k .closing }, true)
      | _, _ => return (h, false)
    | none => return (h, false)
  | .close i k =>
    match h.subs[i]?, h.sending with
    | some sub, none =>
      match sub.kills[k]? with
      | some .closing =>
        if i ∈ h.updChs ∧ sub.closed = false then
          return ({ h with updChs := h.updChs.erase i }.put i
            { sub with closed := true, kills := sub.kills.set k .closed }, true)
        else .error .closedChannel
      | _ => return (h, false)
    | _, _ => return (h, false)
  | .die i k =>
    match h.subs[i]? with
    | some sub =>
      match sub.kills[k]? with
      | some .closed => return (h.put i
          { sub with dead := true, killMu := none, kills := sub.kills.set k .returned }, true)
      | _ => return (h, false)
    | none => return (h, false)

/-- The states after any events. -/
def Reachable (h : Hub μ) : Prop := Leads step {} h

end Hub

/-! ## The invariant -/

def KillState.Holds : KillState → Prop
  | closing | closed => True
  | _ => False

/-- The invariant of a client; `owed` is what the server is about to send to it. -/
structure Subscriber.Sound {μ : Type} (sub : Subscriber μ) (subscribed : Prop) (owed : List μ) :
    Prop where
  isOpen : sub.closed = false ↔ subscribed
  /-- The channel is closed before the client dies. -/
  closed : sub.closed = true ↔ sub.dead = true ∨ .closed ∈ sub.kills
  ended : sub.reader = .ended → sub.dead = true
  held : Threads.Holder KillState.Holds sub.killMu sub.kills
  closing : .closing ∈ sub.kills → sub.closed = false
  returned : .returned ∈ sub.kills → sub.dead = true
  updates : sub.updates = sub.received ++ sub.updCh ++ owed
  room : sub.updCh.length ≤ 1

namespace Hub

variable {μ : Type}

/-- What the server is about to send to client `i`. -/
def owed (h : Hub μ) (i : ℕ) : List μ :=
  match h.sending with
  | some (m, todo) => if i ∈ todo then [m] else []
  | none => []

structure Sound (h : Hub μ) : Prop where
  subs : ∀ (i : ℕ) (sub : Subscriber μ), h.subs[i]? = some sub →
    sub.Sound (i ∈ h.updChs) (h.owed i)
  lt : ∀ i ∈ h.updChs, i < h.subs.length
  nodup : h.updChs.Nodup
  todo : ∀ m todo, h.sending = some (m, todo) → todo.Nodup ∧ todo ⊆ h.updChs

/-- What an event that is possible does. -/
inductive Moves (h : Hub μ) : HubEvent μ → Hub μ → Prop
  | subscribe (m : μ) (hs : h.sending = none) : Moves h (.subscribe m) { h with
      subs := h.subs ++ [{ updCh := [m], updates := [m] }]
      updChs := h.subs.length :: h.updChs }
  | update (m : μ) (hs : h.sending = none) :
      Moves h (.update m) { h with subs := h.announce m, sending := some (m, h.updChs) }
  | send {i : ℕ} {m : μ} {todo : List ℕ} {sub : Subscriber μ} (hs : h.sending = some (m, todo))
      (hi : h.subs[i]? = some sub) (hmem : i ∈ todo) (hopen : sub.closed = false)
      (hroom : sub.updCh = []) : Moves h (.send i)
        ({ h with sending := some (m, todo.erase i) }.put i { sub with updCh := [m] })
  | unlock {m : μ} (hs : h.sending = some (m, [])) : Moves h .unlock { h with sending := none }
  | answer {i : ℕ} {sub : Subscriber μ} (hi : h.subs[i]? = some sub)
      (hr : sub.reader = .starting) : Moves h (.answer i) (h.put i { sub with reader := .head })
  | giveUp {i : ℕ} {sub : Subscriber μ} (hi : h.subs[i]? = some sub)
      (hr : sub.reader = .starting) (hdead : sub.dead = true) :
      Moves h (.giveUp i) (h.put i { sub with reader := .head })
  | check {i : ℕ} {sub : Subscriber μ} (hi : h.subs[i]? = some sub) (hr : sub.reader = .head) :
      Moves h (.check i) (h.put i { sub with reader := if sub.dead then .ended else .reading })
  | read {i : ℕ} {sub : Subscriber μ} {m : μ} {ch : List μ} (hi : h.subs[i]? = some sub)
      (hr : sub.reader = .reading) (hch : sub.updCh = m :: ch) : Moves h (.read i) (h.put i
        { sub with reader := .head, updCh := ch, received := sub.received ++ [m] })
  | stop {i : ℕ} {sub : Subscriber μ} (hi : h.subs[i]? = some sub) (hr : sub.reader = .reading)
      (hch : sub.updCh = []) (hclosed : sub.closed = true) (hdead : sub.dead = true) :
      Moves h (.read i) (h.put i { sub with reader := .ended })
  | kill {i : ℕ} {sub : Subscriber μ} (hi : h.subs[i]? = some sub) :
      Moves h (.kill i) (h.put i { sub with kills := sub.kills ++ [.submitting] })
  | submitted {i k : ℕ} {sub : Subscriber μ} (hi : h.subs[i]? = some sub)
      (hk : sub.kills[k]? = some .submitting) :
      Moves h (.submitted i k) (h.put i { sub with kills := sub.kills.set k .leaving })
  | remove {i k : ℕ} {sub : Subscriber μ} (hi : h.subs[i]? = some sub)
      (hk : sub.kills[k]? = some .leaving) :
      Moves h (.remove i k) (h.put i { sub with kills := sub.kills.set k .waiting })
  | release {i k : ℕ} {sub : Subscriber μ} (hi : h.subs[i]? = some sub)
      (hk : sub.kills[k]? = some .leaving) (hdead : sub.dead = true) :
      Moves h (.release i k) (h.put i { sub with kills := sub.kills.set k .waiting })
  | again {i k : ℕ} {sub : Subscriber μ} (hi : h.subs[i]? = some sub)
      (hk : sub.kills[k]? = some .waiting) (hmu : sub.killMu = none) (hdead : sub.dead = true) :
      Moves h (.enter i k) (h.put i { sub with kills := sub.kills.set k .returned })
  | enter {i k : ℕ} {sub : Subscriber μ} (hi : h.subs[i]? = some sub)
      (hk : sub.kills[k]? = some .waiting) (hmu : sub.killMu = none) (hdead : sub.dead = false) :
      Moves h (.enter i k) (h.put i
        { sub with killMu := some k, kills := sub.kills.set k .closing })
  | close {i k : ℕ} {sub : Subscriber μ} (hi : h.subs[i]? = some sub) (hs : h.sending = none)
      (hk : sub.kills[k]? = some .closing) (hmem : i ∈ h.updChs) (hopen : sub.closed = false) :
      Moves h (.close i k) ({ h with updChs := h.updChs.erase i }.put i
        { sub with closed := true, kills := sub.kills.set k .closed })
  | die {i k : ℕ} {sub : Subscriber μ} (hi : h.subs[i]? = some sub)
      (hk : sub.kills[k]? = some .closed) : Moves h (.die i k) (h.put i
        { sub with dead := true, killMu := none, kills := sub.kills.set k .returned })

variable {h h' : Hub μ} {e : HubEvent μ} {b : Bool}

/-- A step changes nothing, or it is one of the moves. -/
theorem moves_of_step (hst : h.step e = .ok (h', b)) :
    (b = true ∧ Moves h e h') ∨ (b = false ∧ h' = h) := by
  have hstay : ∀ {b' : Bool}, b' = false → (.ok (h, b') : Go (Hub μ × Bool)) = .ok (h', b) →
      (b = true ∧ Moves h e h') ∨ (b = false ∧ h' = h) := by
    rintro _ rfl ⟨⟩
    exact Or.inr ⟨rfl, rfl⟩
  cases e <;> simp only [step] at hst
  case subscribe m =>
    split at hst
    · rename_i hs
      cases hst
      exact Or.inl ⟨rfl, .subscribe m hs⟩
    · exact hstay rfl hst
  case update m =>
    split at hst
    · rename_i hs
      cases hst
      exact Or.inl ⟨rfl, .update m hs⟩
    · exact hstay rfl hst
  case send i =>
    split at hst
    · rename_i m todo sub hs hi
      split_ifs at hst with hmem hclosed hroom
      · have hnil := List.length_eq_zero_iff.1 (Nat.lt_one_iff.1 hroom)
        rw [hnil] at hst
        cases hst
        exact Or.inl ⟨rfl, .send hs hi hmem (by simpa using hclosed) hnil⟩
      · exact hstay rfl hst
      · exact hstay rfl hst
    · exact hstay rfl hst
  case unlock =>
    split at hst
    · rename_i m hs
      cases hst
      exact Or.inl ⟨rfl, .unlock hs⟩
    · exact hstay rfl hst
  case answer i =>
    split at hst
    · rename_i sub hi
      split_ifs at hst with hr
      · cases hst
        exact Or.inl ⟨rfl, .answer hi hr⟩
      · exact hstay rfl hst
    · exact hstay rfl hst
  case giveUp i =>
    split at hst
    · rename_i sub hi
      split_ifs at hst with hr
      · cases hst
        exact Or.inl ⟨rfl, .giveUp hi hr.1 hr.2⟩
      · exact hstay rfl hst
    · exact hstay rfl hst
  case check i =>
    split at hst
    · rename_i sub hi
      split at hst
      · rename_i hr
        cases hst
        exact Or.inl ⟨rfl, .check hi hr⟩
      · exact hstay rfl hst
    · exact hstay rfl hst
  case read i =>
    split at hst
    · rename_i sub hi
      split at hst
      · rename_i hr
        split at hst
        · rename_i m ch hch
          cases hst
          exact Or.inl ⟨rfl, .read hi hr hch⟩
        · rename_i hch
          split_ifs at hst with hend
          · cases hst
            exact Or.inl ⟨rfl, .stop hi hr hch hend.1 hend.2⟩
          · exact hstay rfl hst
      · exact hstay rfl hst
    · exact hstay rfl hst
  case kill i =>
    split at hst
    · rename_i sub hi
      cases hst
      exact Or.inl ⟨rfl, .kill hi⟩
    · exact hstay rfl hst
  case submitted i k =>
    split at hst
    · rename_i sub hi
      split_ifs at hst with hk
      · cases hst
        exact Or.inl ⟨rfl, .submitted hi hk⟩
      · exact hstay rfl hst
    · exact hstay rfl hst
  case remove i k =>
    split at hst
    · rename_i sub hi
      split_ifs at hst with hk
      · cases hst
        exact Or.inl ⟨rfl, .remove hi hk⟩
      · exact hstay rfl hst
    · exact hstay rfl hst
  case release i k =>
    split at hst
    · rename_i sub hi
      split_ifs at hst with hk
      · cases hst
        exact Or.inl ⟨rfl, .release hi hk.1 hk.2⟩
      · exact hstay rfl hst
    · exact hstay rfl hst
  case enter i k =>
    split at hst
    · rename_i sub hi
      split at hst
      · rename_i hk hmu
        split_ifs at hst with hdead
        · cases hst
          exact Or.inl ⟨rfl, .again hi hk hmu hdead⟩
        · cases hst
          exact Or.inl ⟨rfl, .enter hi hk hmu (by simpa using hdead)⟩
      · exact hstay rfl hst
    · exact hstay rfl hst
  case close i k =>
    split at hst
    · rename_i sub hi hs
      split at hst
      · rename_i hk
        split_ifs at hst with hopen
        cases hst
        exact Or.inl ⟨rfl, .close hi hs hk hopen.1 hopen.2⟩
      · exact hstay rfl hst
    · exact hstay rfl hst
  case die i k =>
    split at hst
    · rename_i sub hi
      split at hst
      · rename_i hk
        cases hst
        exact Or.inl ⟨rfl, .die hi hk⟩
      · exact hstay rfl hst
    · exact hstay rfl hst

end Hub

namespace Subscriber.Sound

variable {μ : Type} {sub : Subscriber μ} {subscribed : Prop} {owed : List μ} {k : ℕ}

theorem new (m : μ) : Sound { updCh := [m], updates := [m] } True [] where
  isOpen := by simp
  closed := by simp
  ended := by simp
  held := .nil _
  closing := by simp
  returned := by simp
  updates := rfl
  room := le_rfl

theorem congr (h : sub.Sound subscribed owed) {p : Prop} (hp : subscribed ↔ p) :
    sub.Sound p owed := { h with isOpen := h.isOpen.trans hp }

/-- The server is about to send. -/
theorem announce (h : sub.Sound subscribed []) (m : μ) :
    Sound { sub with updates := sub.updates ++ [m] } subscribed [m] :=
  { h with updates := by simp [h.updates] }

/-- The server has sent. -/
theorem send {m : μ} (h : sub.Sound subscribed [m]) (hroom : sub.updCh = []) :
    Sound { sub with updCh := [m] } subscribed [] :=
  { h with updates := by simp [h.updates, hroom], room := le_rfl }

theorem start (h : sub.Sound subscribed owed) :
    Sound { sub with reader := .head } subscribed owed := { h with ended := by simp }

theorem check (h : sub.Sound subscribed owed) :
    Sound { sub with reader := if sub.dead then .ended else .reading } subscribed owed := by
  refine { h with ended := fun hr => ?_ }
  by_contra hdead
  simp [hdead] at hr

theorem read {m : μ} {ch : List μ} (h : sub.Sound subscribed owed) (hch : sub.updCh = m :: ch) :
    Sound { sub with reader := .head, updCh := ch, received := sub.received ++ [m] }
      subscribed owed := by
  have hroom := h.room
  rw [hch, List.length_cons] at hroom
  exact { h with
    ended := by simp
    updates := by simp [h.updates, hch]
    room := by dsimp only; omega }

theorem kill (h : sub.Sound subscribed owed) :
    Sound { sub with kills := sub.kills ++ [.submitting] } subscribed owed :=
  { h with
    closed := by simpa using h.closed
    held := h.held.append id
    closing := by simpa using h.closing
    returned := by simpa using h.returned }

/-- A call goes on towards `killMu`. -/
theorem proceed (h : sub.Sound subscribed owed) {st st' : KillState} (hk : sub.kills[k]? = some st)
    (hst : ¬ st.Holds) (hst' : ¬ st'.Holds) (hret : st' ≠ .returned) :
    Sound { sub with kills := sub.kills.set k st' } subscribed owed := by
  have hmem : ∀ {x : KillState}, x ≠ st' → x ∈ sub.kills.set k st' → x ∈ sub.kills :=
    fun hne hx => (List.mem_or_eq_of_mem_set hx).resolve_right hne
  have hne : ∀ {x y : KillState}, x.Holds → ¬ y.Holds → x ≠ y := by
    rintro x _ hx hy rfl
    exact hy hx
  refine { h with
    closed := h.closed.trans (or_congr_right ⟨fun hx => ?_, hmem (hne trivial hst')⟩)
    held := h.held.idle hk hst hst'
    closing := fun hx => h.closing (hmem (hne trivial hst') hx)
    returned := fun hx => h.returned (hmem hret.symm hx) }
  exact Threads.mem_set_of_ne hk hx (hne trivial hst) _

/-- A client that is dead is not killed again. -/
theorem again (h : sub.Sound subscribed owed) (hk : sub.kills[k]? = some .waiting)
    (hdead : sub.dead = true) :
    Sound { sub with kills := sub.kills.set k .returned } subscribed owed := by
  refine { h with
    closed := by simp [hdead, h.closed]
    held := h.held.idle hk id id
    closing := fun hmem => ?_
    returned := fun _ => hdead }
  exact h.closing ((List.mem_or_eq_of_mem_set hmem).resolve_right (by simp))

/-- Nobody else can have closed the channel. -/
theorem isOpen_of_enter (h : sub.Sound subscribed owed) (hmu : sub.killMu = none)
    (hdead : sub.dead = false) : sub.closed = false := by
  have hheld := h.held
  rw [hmu] at hheld
  by_contra hclosed
  rcases h.closed.1 (by simpa using hclosed) with hd | hmem
  · rw [hdead] at hd
    cases hd
  · obtain ⟨j, hj⟩ := List.mem_iff_getElem?.1 hmem
    exact hheld.not_of_none hj trivial

theorem enter (h : sub.Sound subscribed owed) (hk : sub.kills[k]? = some .waiting)
    (hmu : sub.killMu = none) (hdead : sub.dead = false) :
    Sound { sub with killMu := some k, kills := sub.kills.set k .closing } subscribed owed := by
  have hopen := h.isOpen_of_enter hmu hdead
  have hheld := h.held
  rw [hmu] at hheld
  refine { h with
    closed := ⟨fun hclosed => ?_, fun hclosed => h.closed.2 (hclosed.imp_right fun hmem => ?_)⟩
    held := hheld.acquire hk trivial
    closing := fun _ => hopen
    returned := fun hmem => ?_ }
  · exact absurd hclosed (by simp [hopen])
  · exact (List.mem_or_eq_of_mem_set hmem).resolve_right (by simp)
  · exact h.returned ((List.mem_or_eq_of_mem_set hmem).resolve_right (by simp))

theorem close (h : sub.Sound subscribed owed) (hk : sub.kills[k]? = some .closing) {p : Prop}
    (hp : ¬ p) : Sound { sub with closed := true, kills := sub.kills.set k .closed } p owed := by
  refine { h with
    isOpen := by simp [hp]
    closed := ⟨fun _ => Or.inr ?_, fun _ => rfl⟩
    held := h.held.keep hk trivial trivial
    closing := fun hmem => ?_
    returned := fun hmem => ?_ }
  · exact List.mem_of_getElem? (Threads.getElem?_set_self hk _)
  · -- only one call has the lock
    obtain ⟨j, hj⟩ := List.mem_iff_getElem?.1 hmem
    rcases Threads.getElem?_set_cases hj with ⟨-, hst⟩ | ⟨hne, hj⟩
    · cases hst
    · exact absurd (h.held.unique hk trivial hj trivial) hne
  · exact h.returned ((List.mem_or_eq_of_mem_set hmem).resolve_right (by simp))

theorem die (h : sub.Sound subscribed owed) (hk : sub.kills[k]? = some .closed) :
    Sound { sub with dead := true, killMu := none, kills := sub.kills.set k .returned }
      subscribed owed := by
  have hclosed := h.closed.2 (Or.inr (List.mem_of_getElem? hk))
  refine { h with
    closed := ⟨fun _ => Or.inl rfl, fun _ => hclosed⟩
    ended := fun _ => rfl
    held := h.held.release hk trivial id
    closing := fun hmem => ?_
    returned := fun _ => rfl }
  exact h.closing ((List.mem_or_eq_of_mem_set hmem).resolve_right (by simp))

end Subscriber.Sound

namespace Hub

variable {μ : Type} {h h' : Hub μ} {e : HubEvent μ} {b : Bool}

namespace Sound

theorem init : Sound ({} : Hub μ) where
  subs i sub hi := by simp at hi
  lt i hi := by cases hi
  nodup := List.nodup_nil
  todo m todo hs := by cases hs

theorem owed_of_none (hnone : h.sending = none) {i : ℕ} : h.owed i = [] := by simp [owed, hnone]

/-- One client goes on. -/
theorem put (hs : h.Sound) {i : ℕ} {sub' : Subscriber μ}
    (hsub : sub'.Sound (i ∈ h.updChs) (h.owed i)) : (h.put i sub').Sound where
  subs j x hj := by
    rcases Threads.getElem?_set_cases hj with ⟨rfl, rfl⟩ | ⟨-, hj⟩
    · exact hsub
    · exact hs.subs j x hj
  lt j hj := by
    rw [Hub.put, List.length_set]
    exact hs.lt j hj
  nodup := hs.nodup
  todo := hs.todo

theorem subscribe (hs : h.Sound) (hnone : h.sending = none) (m : μ) : Sound { h with
    subs := h.subs ++ [{ updCh := [m], updates := [m] }]
    updChs := h.subs.length :: h.updChs } where
  subs i sub hi := by
    rw [owed_of_none (by exact hnone)]
    rw [List.getElem?_append] at hi
    split_ifs at hi with hlt
    · have hsub := hs.subs i sub hi
      rw [owed_of_none hnone] at hsub
      exact hsub.congr ⟨List.mem_cons_of_mem _, fun hmem =>
        (List.mem_cons.1 hmem).resolve_left hlt.ne⟩
    · have hlen := (List.getElem?_eq_some_iff.1 hi).1
      rw [List.mem_singleton.1 (List.mem_of_getElem? hi)]
      refine (Subscriber.Sound.new m).congr (iff_of_true trivial (List.mem_cons.2 (Or.inl ?_)))
      rw [List.length_singleton] at hlen
      omega
  lt i hi := by
    rw [List.length_append, List.length_singleton]
    rcases List.mem_cons.1 hi with rfl | hi
    · exact Nat.lt_succ_self _
    · exact (hs.lt i hi).trans (Nat.lt_succ_self _)
  nodup := hs.nodup.cons fun hmem => (hs.lt _ hmem).false
  todo m todo hsend := by
    rw [hnone] at hsend
    cases hsend

theorem update (hs : h.Sound) (hnone : h.sending = none) (m : μ) :
    Sound { h with subs := h.announce m, sending := some (m, h.updChs) } where
  subs i sub hi := by
    rw [announce, List.getElem?_mapIdx] at hi
    obtain ⟨x, hx, rfl⟩ := Option.map_eq_some_iff.1 hi
    have hsub := hs.subs i x hx
    rw [owed_of_none hnone] at hsub
    by_cases hmem : i ∈ h.updChs
    · simpa only [owed, if_pos hmem] using hsub.announce m
    · simpa only [owed, if_neg hmem] using hsub
  lt i hi := by
    rw [announce, List.length_mapIdx]
    exact hs.lt i hi
  nodup := hs.nodup
  todo m todo hsend := by
    cases hsend
    exact ⟨hs.nodup, List.Subset.refl _⟩

theorem send (hs : h.Sound) {i : ℕ} {m : μ} {todo : List ℕ} {sub : Subscriber μ}
    (hsend : h.sending = some (m, todo)) (hi : h.subs[i]? = some sub) (hmem : i ∈ todo)
    (hroom : sub.updCh = []) :
    Sound ({ h with sending := some (m, todo.erase i) }.put i { sub with updCh := [m] }) := by
  obtain ⟨hnodup, hsub⟩ := hs.todo m todo hsend
  refine ⟨fun j x hj => ?_, fun j hj => ?_, hs.nodup, fun m' todo' hsend' => ?_⟩
  · rcases Threads.getElem?_set_cases hj with ⟨rfl, rfl⟩ | ⟨hne, hj⟩
    · have hx := hs.subs j sub hi
      simp only [owed, hsend, if_pos hmem] at hx
      simpa only [owed, Hub.put, hnodup.mem_erase_iff, ne_eq, not_true_eq_false, false_and,
        if_false] using hx.send hroom
    · have hx := hs.subs j x hj
      simp only [owed, hsend] at hx
      simpa only [owed, Hub.put, List.mem_erase_of_ne hne] using hx
  · rw [Hub.put, List.length_set]
    exact hs.lt j hj
  · cases hsend'
    exact ⟨hnodup.erase i, fun j hj => hsub (List.mem_of_mem_erase hj)⟩

theorem close (hs : h.Sound) {i k : ℕ} {sub : Subscriber μ} (hnone : h.sending = none)
    (hi : h.subs[i]? = some sub) (hk : sub.kills[k]? = some .closing) :
    Sound ({ h with updChs := h.updChs.erase i }.put i
      { sub with closed := true, kills := sub.kills.set k .closed }) := by
  refine ⟨fun j x hj => ?_, fun j hj => ?_, hs.nodup.erase i,
    fun m todo hsend => absurd (hnone.symm.trans hsend) (by simp)⟩
  · rcases Threads.getElem?_set_cases hj with ⟨rfl, rfl⟩ | ⟨hne, hj⟩
    · exact (hs.subs j sub hi).close hk (hs.nodup.not_mem_erase)
    · exact (hs.subs j x hj).congr (List.mem_erase_of_ne hne).symm
  · rw [Hub.put, List.length_set]
    exact hs.lt j (List.mem_of_mem_erase hj)

/-- Every move keeps the invariant. -/
theorem moves (hs : h.Sound) (hm : Moves h e h') : h'.Sound := by
  cases hm with
  | subscribe m hnone => exact hs.subscribe hnone m
  | update m hnone => exact hs.update hnone m
  | send hsend hi hmem hopen hroom => exact hs.send hsend hi hmem hroom
  | unlock hsend =>
    refine ⟨fun i sub hi => ?_, hs.lt, hs.nodup, by simp⟩
    have hsub := hs.subs i sub hi
    simp only [owed, hsend, List.not_mem_nil, if_false] at hsub
    exact hsub
  | answer hi | giveUp hi => exact hs.put (hs.subs _ _ hi).start
  | check hi hr => exact hs.put (hs.subs _ _ hi).check
  | read hi hr hch => exact hs.put ((hs.subs _ _ hi).read hch)
  | stop hi hr hch hclosed hdead => exact hs.put { hs.subs _ _ hi with ended := fun _ => hdead }
  | kill hi => exact hs.put (hs.subs _ _ hi).kill
  | submitted hi hk | remove hi hk | release hi hk =>
    exact hs.put ((hs.subs _ _ hi).proceed hk id id (by simp))
  | again hi hk hmu hdead => exact hs.put ((hs.subs _ _ hi).again hk hdead)
  | enter hi hk hmu hdead => exact hs.put ((hs.subs _ _ hi).enter hk hmu hdead)
  | close hi hnone hk hmem hopen => exact hs.close hnone hi hk
  | die hi hk => exact hs.put ((hs.subs _ _ hi).die hk)

theorem of_reachable (h : h'.Reachable) : h'.Sound := by
  obtain ⟨events, hrun⟩ := h
  refine run_preserves (I := Sound) (fun h e h' b hs hst => ?_) init hrun
  rcases moves_of_step hst with ⟨-, hm⟩ | ⟨-, rfl⟩
  · exact hs.moves hm
  · exact hs

/-- Whoever is sent to has an open channel, and whoever closes it. -/
theorem exists_step (hs : h.Sound) (e : HubEvent μ) : ∃ r, h.step e = .ok r := by
  cases e <;> simp only [step]
  case send i =>
    split
    · rename_i m todo sub hsend hi
      by_cases hmem : i ∈ todo
      · have hopen := (hs.subs i sub hi).isOpen.2 ((hs.todo m todo hsend).2 hmem)
        simp only [if_pos hmem, hopen, Bool.false_eq_true, if_false]
        split <;> exact ⟨_, rfl⟩
      · rw [if_neg hmem]
        exact ⟨_, rfl⟩
    · exact ⟨_, rfl⟩
  case close i k =>
    split
    · rename_i sub hi hsend
      split
      · rename_i hk
        have hsub := hs.subs i sub hi
        have hopen := hsub.closing (List.mem_of_getElem? hk)
        rw [if_pos ⟨hsub.isOpen.1 hopen, hopen⟩]
        exact ⟨_, rfl⟩
      · exact ⟨_, rfl⟩
    · exact ⟨_, rfl⟩
  case read i =>
    split
    · split
      · split
        · exact ⟨_, rfl⟩
        · split <;> exact ⟨_, rfl⟩
      · exact ⟨_, rfl⟩
    · exact ⟨_, rfl⟩
  case enter i k =>
    split
    · split
      · split <;> exact ⟨_, rfl⟩
      · exact ⟨_, rfl⟩
    · exact ⟨_, rfl⟩
  case answer i | giveUp i | check i =>
    split
    · split <;> exact ⟨_, rfl⟩
    · exact ⟨_, rfl⟩
  case submitted i k | remove i k | release i k | die i k =>
    split
    · split <;> exact ⟨_, rfl⟩
    · exact ⟨_, rfl⟩
  all_goals split <;> exact ⟨_, rfl⟩

end Sound

/-- The server waits for client `i`, which is in `setActive`. -/
def Blocked (h : Hub μ) (i : ℕ) : Prop := ∃ m todo sub, h.sending = some (m, todo) ∧ i ∈ todo ∧
  h.subs[i]? = some sub ∧ sub.reader = .starting ∧ sub.dead = false ∧ sub.updCh ≠ []

/-- **In order.** A client has read the first updates since it subscribed, and there are two more
at most: one in its channel and one that the server is about to send. -/
theorem updates_in_order (hr : h.Reachable) {sub : Subscriber μ} (hsub : sub ∈ h.subs) :
    sub.received <+: sub.updates ∧ sub.updates.length ≤ sub.received.length + 2 := by
  obtain ⟨i, hi⟩ := List.mem_iff_getElem?.1 hsub
  have hs := (Sound.of_reachable hr).subs i sub hi
  have howed : (h.owed i).length ≤ 1 := by
    unfold owed
    split
    · split <;> simp
    · simp
  have hroom := hs.room
  refine ⟨⟨sub.updCh ++ h.owed i, by simp [hs.updates]⟩, ?_⟩
  simp only [hs.updates, List.length_append]
  omega

/-- Two clients; the server waits for the first one, which is in `setActive` and is being killed
twice. -/
def killedEvents : List (HubEvent ℕ) :=
  [.subscribe 0, .subscribe 0, .answer 1, .check 1, .read 1, .update 1, .send 1, .kill 0, .kill 0,
    .submitted 0 1, .remove 0 1, .enter 0 1]

theorem exists_run_killedEvents : ∃ h : Hub ℕ, h.Reachable ∧ h.Blocked 0 ∧
    ∃ sub ∈ h.subs, sub.updates = [0, 1] ∧ sub.received = [0] := by
  obtain ⟨h, hr, htest⟩ := exists_of_endsWith (by decide +kernel :
    endsWith step {} killedEvents (fun h : Hub ℕ => decide (h.sending = some (1, [0]) ∧
      h.subs[0]? = some {
        updCh := [0]
        killMu := some 1
        kills := [.submitting, .closing]
        updates := [0, 1] } ∧
      ∃ sub ∈ h.subs, sub.updates = [0, 1] ∧ sub.received = [0])) = true)
  obtain ⟨hsend, hsub, hread⟩ := of_decide_eq_true htest
  exact ⟨h, ⟨_, hr⟩, ⟨1, [0], _, hsend, List.mem_singleton_self 0, hsub, rfl, rfl, by simp⟩, hread⟩

theorem updates_in_order_two : ∃ h : Hub ℕ, h.Reachable ∧ ∃ sub ∈ h.subs,
    sub.updates = [0, 1] ∧ sub.received <+: sub.updates ∧
      sub.updates.length ≤ sub.received.length + 2 := by
  obtain ⟨h, hr, -, sub, hsub, hupdates, -⟩ := exists_run_killedEvents
  exact ⟨h, hr, sub, hsub, hupdates, updates_in_order hr hsub⟩

end Hub

/-! ## All calls return -/

/-- The events of the goroutines that are there, if the leader answers or does not. -/
def HubEvent.System {μ : Type} (leader : Bool) : HubEvent μ → Prop
  | send _ | unlock | giveUp _ | check _ | read _ => True
  | release _ _ | enter _ _ | close _ _ | die _ _ => True
  | answer _ | submitted _ _ | remove _ _ => leader = true
  | subscribe _ | update _ | kill _ => False

def ReaderState.weight : ReaderState → ℕ
  | starting => 3
  | head => 2
  | reading => 1
  | ended => 0

def KillState.weight : KillState → ℕ
  | submitting => 5
  | leaving => 4
  | waiting => 3
  | closing => 2
  | closed => 1
  | returned => 0

def Subscriber.weight {μ : Type} (sub : Subscriber μ) : ℕ :=
  2 * sub.updCh.length + sub.reader.weight + (sub.kills.map KillState.weight).sum

namespace Hub

variable {μ : Type} {h h' : Hub μ} {e : HubEvent μ} {leader : Bool}

/-- What the applier has still to do. -/
def sendingWeight (h : Hub μ) : ℕ :=
  match h.sending with
  | some (_, todo) => 3 * todo.length + 1
  | none => 0

def weight (h : Hub μ) : ℕ := h.sendingWeight + (h.subs.map Subscriber.weight).sum

theorem weight_put {i : ℕ} {sub : Subscriber μ} (hi : h.subs[i]? = some sub)
    (sub' : Subscriber μ) : (h.put i sub').weight + sub.weight = h.weight + sub'.weight := by
  have := Threads.sum_map_set Subscriber.weight hi sub'
  simp only [weight, Hub.put, sendingWeight]
  omega

/-- Every step of the system lowers the weight. -/
theorem Moves.weight_lt (hm : Moves h e h') (he : e.System leader) : h'.weight < h.weight := by
  have hkill : ∀ {i k : ℕ} {sub sub' : Subscriber μ} {st st' : KillState},
      h.subs[i]? = some sub → sub.kills[k]? = some st → st'.weight < st.weight →
      sub'.updCh = sub.updCh → sub'.reader = sub.reader → sub'.kills = sub.kills.set k st' →
      (h.put i sub').weight < h.weight := by
    intro i k sub sub' st st' hi hk hlt hch hr hkills
    have h₁ := weight_put hi sub'
    have h₂ := Threads.sum_map_set KillState.weight hk st'
    simp only [Subscriber.weight, hch, hr, hkills] at h₁
    omega
  have hput : ∀ {i : ℕ} {sub sub' : Subscriber μ}, h.subs[i]? = some sub →
      sub'.weight < sub.weight → (h.put i sub').weight < h.weight := by
    intro i sub sub' hi hlt
    have := weight_put hi sub'
    omega
  cases hm with
  | subscribe | update | kill => exact he.elim
  | @send i m todo sub hs hi hmem hopen hroom =>
    have h₁ := Threads.sum_map_set Subscriber.weight hi { sub with updCh := [m] }
    have h₂ := List.length_erase_of_mem hmem
    have h₃ := List.length_pos_of_mem hmem
    simp only [Subscriber.weight, hroom, List.length_nil, List.length_singleton] at h₁
    simp only [weight, Hub.put, sendingWeight, hs]
    omega
  | unlock hs => simp [weight, sendingWeight, hs]
  | answer hi hr | giveUp hi hr =>
    refine hput hi ?_
    simp [Subscriber.weight, hr, ReaderState.weight]
  | check hi hr =>
    refine hput hi ?_
    simp only [Subscriber.weight, hr]
    split_ifs <;> simp [ReaderState.weight]
  | read hi hr hch =>
    refine hput hi ?_
    simp only [Subscriber.weight, hr, hch, List.length_cons, ReaderState.weight]
    omega
  | stop hi hr hch hclosed hdead =>
    refine hput hi ?_
    simp [Subscriber.weight, hr, ReaderState.weight]
  | submitted hi hk | remove hi hk | release hi hk | again hi hk | enter hi hk | close hi hs hk
  | die hi hk =>
    exact hkill hi hk (by decide) rfl rfl rfl

/-- What is possible happens. -/
theorem Moves.step_eq (hm : Moves h e h') : h.step e = .ok (h', true) := by
  cases hm with
  | subscribe m hs | update m hs =>
    simp only [step, hs]
    rfl
  | send hs hi hmem hopen hroom =>
    simp only [step, hs, hi, if_pos hmem, hopen, hroom]
    rfl
  | unlock hs =>
    simp only [step, hs]
    rfl
  | answer hi hr | check hi hr =>
    simp only [step, hi, if_pos hr]
    rfl
  | giveUp hi hr hdead =>
    simp only [step, hi, if_pos (And.intro hr hdead)]
    rfl
  | read hi hr hch =>
    simp only [step, hi, if_pos hr, hch]
    rfl
  | stop hi hr hch hclosed hdead =>
    simp only [step, hi, if_pos hr, hch, hclosed, hdead]
    rfl
  | kill hi =>
    simp only [step, hi]
    rfl
  | submitted hi hk | remove hi hk =>
    simp only [step, hi, if_pos hk]
    rfl
  | release hi hk hdead =>
    simp only [step, hi, if_pos (And.intro hk hdead)]
    rfl
  | again hi hk hmu hdead | enter hi hk hmu hdead =>
    simp only [step, hi, hk, hmu, hdead]
    rfl
  | close hi hs hk hmem hopen =>
    simp only [step, hi, hs, hk, if_pos (And.intro hmem hopen)]
    rfl
  | die hi hk =>
    simp only [step, hi, hk]
    rfl

/-- Nothing is left to do for a client, except what needs an answer of the leader. -/
structure Settled (leader : Bool) (sub : Subscriber μ) : Prop where
  kills : ∀ st ∈ sub.kills, st = .returned ∨ leader = false ∧ (st = .submitting ∨ st = .leaving)
  /-- If a call of `Kill` has returned, so have all that do not wait for a reply to the abort, and
  the loop has ended. -/
  ended : .returned ∈ sub.kills → (∀ st ∈ sub.kills, st = .returned ∨
    leader = false ∧ st = .submitting) ∧ sub.closed = true ∧ sub.reader = .ended
  starting : sub.reader = .starting → leader = false
  /-- A client that is not killed has read everything. -/
  received : sub.closed = false → sub.reader ≠ .starting → sub.received = sub.updates

section Stuck

variable (hs : h.Sound) (hstuck : Stuck step (HubEvent.System leader) h)
include hstuck

theorem not_system_of_stuck (hm : Moves h e h') : ¬ e.System leader := fun he =>
  hstuck e he h' hm.step_eq

/-- A client waits for the leader, or for an update, or its loop has ended. -/
theorem reader_of_stuck {i : ℕ} {sub : Subscriber μ} (hi : h.subs[i]? = some sub) :
    (sub.reader = .starting ∧ leader = false ∧ sub.dead = false) ∨
      (sub.reader = .reading ∧ sub.updCh = []) ∨ sub.reader = .ended := by
  rcases hr : sub.reader with _ | _ | _ | _
  · refine Or.inl ⟨rfl, ?_, ?_⟩
    · by_contra hleader
      exact not_system_of_stuck hstuck (.answer hi hr) (by simpa [HubEvent.System] using hleader)
    · by_contra hdead
      exact not_system_of_stuck hstuck (.giveUp hi hr (by simpa using hdead)) trivial
  · exact (not_system_of_stuck hstuck (.check hi hr) trivial).elim
  · refine Or.inr (Or.inl ⟨rfl, ?_⟩)
    rcases hch : sub.updCh with _ | ⟨m, ch⟩
    · rfl
    · exact (not_system_of_stuck hstuck (.read hi hr hch) trivial).elim
  · exact Or.inr (Or.inr rfl)

include hs

/-- A client that has not been killed reads what is sent to it. -/
theorem updCh_of_stuck {i : ℕ} {sub : Subscriber μ} (hi : h.subs[i]? = some sub)
    (hopen : sub.closed = false) (hr : sub.reader ≠ .starting) : sub.updCh = [] := by
  have hwaits := (reader_of_stuck hstuck hi).resolve_left fun hstart => hr hstart.1
  refine (hwaits.resolve_right fun hended => ?_).2
  have hsub := hs.subs i sub hi
  have hclosed := hsub.closed.2 (Or.inl (hsub.ended hended))
  rw [hopen] at hclosed
  cases hclosed

/-- Only a client in `setActive` keeps the server waiting. -/
theorem sending_of_stuck : h.sending = none ∨ leader = false ∧ ∃ i, h.Blocked i := by
  rcases hsend : h.sending with _ | ⟨m, _ | ⟨i, todo⟩⟩
  · exact Or.inl rfl
  · exact (not_system_of_stuck hstuck (.unlock hsend) trivial).elim
  · have hmem := (hs.todo m _ hsend).2 List.mem_cons_self
    obtain ⟨sub, hi⟩ : ∃ sub, h.subs[i]? = some sub := ⟨_, List.getElem?_eq_getElem (hs.lt i hmem)⟩
    have hopen := (hs.subs i sub hi).isOpen.2 hmem
    have hfull : sub.updCh ≠ [] := fun hroom =>
      not_system_of_stuck hstuck (.send hsend hi List.mem_cons_self hopen hroom) trivial
    have hstart : sub.reader = .starting := by
      by_contra hr
      exact hfull (updCh_of_stuck hs hstuck hi hopen hr)
    obtain ⟨-, hleader, hdead⟩ := (reader_of_stuck hstuck hi).resolve_right (by simp [hstart])
    exact Or.inr ⟨hleader, i, m, _, _, hsend, List.mem_cons_self, hi, hstart, hdead, hfull⟩

variable (hsend : h.sending = none)
include hsend

/-- Whoever has `killMu` goes on. -/
theorem not_holds_of_stuck {i k : ℕ} {sub : Subscriber μ} {st : KillState}
    (hi : h.subs[i]? = some sub) (hk : sub.kills[k]? = some st) : ¬ st.Holds := by
  intro hst
  have hsub := hs.subs i sub hi
  cases st with
  | submitting | leaving | waiting | returned => exact hst
  | closing =>
    have hopen := hsub.closing (List.mem_of_getElem? hk)
    exact not_system_of_stuck hstuck (.close hi hsend hk (hsub.isOpen.1 hopen) hopen) trivial
  | closed => exact not_system_of_stuck hstuck (.die hi hk) trivial

/-- A call has returned, or waits for the leader. -/
theorem kill_of_stuck {i k : ℕ} {sub : Subscriber μ} {st : KillState}
    (hi : h.subs[i]? = some sub) (hk : sub.kills[k]? = some st) :
    st = .returned ∨ leader = false ∧ (st = .submitting ∨ st = .leaving ∧ sub.dead = false) := by
  have hnot := not_holds_of_stuck hs hstuck hsend hi hk
  cases st with
  | closing | closed => exact absurd trivial hnot
  | returned => exact Or.inl rfl
  | submitting =>
    refine Or.inr ⟨?_, Or.inl rfl⟩
    by_contra hleader
    exact not_system_of_stuck hstuck (.submitted hi hk) (by simpa [HubEvent.System] using hleader)
  | leaving =>
    refine Or.inr ⟨?_, Or.inr ⟨rfl, ?_⟩⟩
    · by_contra hleader
      exact not_system_of_stuck hstuck (.remove hi hk) (by simpa [HubEvent.System] using hleader)
    · by_contra hdead
      exact not_system_of_stuck hstuck (.release hi hk (by simpa using hdead)) trivial
  | waiting =>
    have hmu : sub.killMu = none := by
      rcases hmu : sub.killMu with _ | j
      · rfl
      · obtain ⟨st, hj, hst⟩ := ((hs.subs i sub hi).held j).1 hmu
        exact absurd hst (not_holds_of_stuck hs hstuck hsend hi hj)
    rcases hdead : sub.dead
    · exact (not_system_of_stuck hstuck (.enter hi hk hmu hdead) trivial).elim
    · exact (not_system_of_stuck hstuck (.again hi hk hmu hdead) trivial).elim

/-- Where nothing goes on, everything has returned that does not wait for the leader. -/
theorem settled_of_stuck {i : ℕ} {sub : Subscriber μ} (hi : h.subs[i]? = some sub) :
    Settled leader sub := by
  have hsub := hs.subs i sub hi
  have hkill : ∀ st ∈ sub.kills, st = .returned ∨
      leader = false ∧ (st = .submitting ∨ st = .leaving ∧ sub.dead = false) := fun st hst => by
    obtain ⟨k, hk⟩ := List.mem_iff_getElem?.1 hst
    exact kill_of_stuck hs hstuck hsend hi hk
  have hreader := reader_of_stuck hstuck hi
  refine ⟨fun st hst => (hkill st hst).imp_right fun hl => ⟨hl.1, hl.2.imp_right And.left⟩,
    fun hret => ?_, fun hr => ?_, fun hopen hr => ?_⟩
  · have hdead := hsub.returned hret
    have hclosed := hsub.closed.2 (Or.inl hdead)
    refine ⟨fun st hst => (hkill st hst).imp_right fun hl => ?_, hclosed, ?_⟩
    · exact ⟨hl.1, hl.2.resolve_right (by simp [hdead])⟩
    rcases hreader with hr | hr | hr
    · exact absurd (hdead.symm.trans hr.2.2) (by simp)
    · exact (not_system_of_stuck hstuck (.stop hi hr.1 hr.2 hclosed hdead) trivial).elim
    · exact hr
  · exact (hreader.resolve_right (by simp [hr])).2.1
  · rw [hsub.updates, updCh_of_stuck hs hstuck hi hopen hr, Sound.owed_of_none hsend,
      List.append_nil, List.append_nil]

end Stuck

/-- Only an answer lets the server go on. -/
theorem Blocked.moves {i : ℕ} (hs : h.Sound) (hb : h.Blocked i) (he : e ≠ .answer i)
    (hm : Moves h e h') : h'.Blocked i := by
  obtain ⟨m, todo, sub, hsend, hmem, hi, hr, hdead, hfull⟩ := hb
  -- another client, or something else about this one
  have hput : ∀ {j : ℕ} {x x' : Subscriber μ}, h.subs[j]? = some x →
      (j = i → x'.reader = .starting ∧ x'.dead = false ∧ x'.updCh ≠ []) →
      (h.put j x').Blocked i := by
    intro j x x' hj hx'
    rcases eq_or_ne j i with rfl | hne
    · exact ⟨m, todo, x', hsend, hmem, Threads.getElem?_set_self hj x', hx' rfl⟩
    · exact ⟨m, todo, sub, hsend, hmem, (List.getElem?_set_ne hne).trans hi, hr, hdead, hfull⟩
  have hself : ∀ {j : ℕ} {x : Subscriber μ}, h.subs[j]? = some x → j = i →
      x.reader = .starting ∧ x.dead = false ∧ x.updCh ≠ [] := by
    rintro j x hj rfl
    cases hi.symm.trans hj
    exact ⟨hr, hdead, hfull⟩
  cases hm with
  | subscribe m hnone | update m hnone | close _ hnone =>
    rw [hsend] at hnone
    cases hnone
  | unlock hnil =>
    cases hsend.symm.trans hnil
    cases hmem
  | @send j m' todo' x hsend' hj hmem' hopen hroom =>
    cases hsend.symm.trans hsend'
    have hne : j ≠ i := fun hji => (hself hj hji).2.2 hroom
    exact ⟨m, todo.erase j, sub, rfl, (List.mem_erase_of_ne hne.symm).2 hmem,
      (List.getElem?_set_ne hne).trans hi, hr, hdead, hfull⟩
  | @answer j x hj hstart => exact hput hj fun hji => absurd (hji ▸ rfl) he
  | giveUp hj hstart hd =>
    exact hput hj fun hji => absurd ((hself hj hji).2.1.symm.trans hd) (by simp)
  | check hj hne | read hj hne | stop hj hne =>
    exact hput hj fun hji => absurd ((hself hj hji).1.symm.trans hne) (by simp)
  | kill hj | submitted hj | remove hj | release hj | again hj | enter hj =>
    refine hput hj fun hji => ?_
    have hsame := hself hj hji
    exact hsame
  | @die j k x hj hk =>
    -- the channel of a client that is sent to is open
    refine hput hj fun hji => ?_
    subst hji
    have hsub := hs.subs j x hj
    have hclosed := hsub.closed.2 (Or.inr (List.mem_of_getElem? hk))
    exact absurd ((hsub.isOpen.2 ((hs.todo m todo hsend).2 hmem)).symm.trans hclosed) (by simp)

theorem Blocked.run {i : ℕ} {log : List (HubEvent μ)} (hs : h.Sound) (hb : h.Blocked i)
    (hlog : ∀ e ∈ log, e ≠ .answer i) (hrun : Transition.run step h log = .ok h') :
    h'.Blocked i := by
  refine (run_preserves_of (I := fun u => u.Sound ∧ u.Blocked i) _ ?_ hlog ⟨hs, hb⟩ hrun).2
  rintro u e v b ⟨hu, hblocked⟩ he hst
  rcases moves_of_step hst with ⟨-, hm⟩ | ⟨-, rfl⟩
  · exact ⟨hu.moves hm, hblocked.moves hu he hm⟩
  · exact ⟨hu, hblocked⟩

/-- **How it ends.** However updates, loops and calls of `Kill` are interleaved, no step panics, and
what goes on comes to a rest after a bounded number of steps.  Then the server has sent its update,
all calls of `Kill` have returned, the loops of killed clients have ended and the others have read
everything.  Where the leader does not answer, calls may be left in `submitOp` or `BecomeInactive`;
and a client that is in `setActive` may keep the server waiting, which it then does, whatever
happens, until the leader answers. -/
theorem kill_returns (hr : h.Reachable) : (∀ e, ∃ r, h.step e = .ok r) ∧
    (∀ leader events h', Busy step (HubEvent.System leader) h events h' →
      events.length ≤ h.weight ∧ (Stuck step (HubEvent.System leader) h' →
        (h'.sending = none ∧ ∀ sub ∈ h'.subs, Settled leader sub) ∨
          leader = false ∧ ∃ i, h'.Blocked i)) ∧
    (∀ leader, ∃ events h', Busy step (HubEvent.System leader) h events h' ∧
      Stuck step (HubEvent.System leader) h') ∧
    ∀ i, h.Blocked i → ∀ log h', (∀ e ∈ log, e ≠ .answer i) → run step h log = .ok h' →
      h'.Blocked i := by
  have hstep : ∀ (leader : Bool) (u : Hub μ) (e : HubEvent μ) (v : Hub μ), u.Sound →
      e.System leader → u.step e = .ok (v, true) → v.Sound ∧ v.weight < u.weight := by
    intro leader u e v hu he hst
    obtain ⟨-, hm⟩ := (moves_of_step hst).resolve_right (by simp)
    exact ⟨hu.moves hm, hm.weight_lt he⟩
  have hs := Sound.of_reachable hr
  refine ⟨hs.exists_step, fun leader events h' hb => ?_, fun leader =>
    exists_busy_stuck (hstep leader) hs, fun i hb log h' hlog hrun => hb.run hs hlog hrun⟩
  have hs' := hb.preserves (hstep leader) hs
  have hle := hb.length_le (hstep leader) hs
  refine ⟨by omega, fun hstuck => (sending_of_stuck hs' hstuck).imp_left fun hsend => ?_⟩
  refine ⟨hsend, fun sub hsub => ?_⟩
  obtain ⟨i, hi⟩ := List.mem_iff_getElem?.1 hsub
  exact settled_of_stuck hs' hstuck hsend hi

/-- The server waits for a client in `setActive`, and a call of `Kill` for the server: with an
answer of the leader everything ends, and without it nothing does. -/
theorem kill_returns_twice : ∃ h : Hub ℕ, h.Reachable ∧ h.Blocked 0 ∧
    (∃ events h', Busy step (HubEvent.System true) h events h' ∧ h'.sending = none ∧
      ∀ sub ∈ h'.subs, Settled true sub) ∧
    ∀ log h', (∀ e ∈ log, e ≠ .answer 0) → run step h log = .ok h' → h'.Blocked 0 := by
  obtain ⟨h, hr, hblocked, -⟩ := exists_run_killedEvents
  obtain ⟨-, hruns, hends, hblocks⟩ := kill_returns hr
  obtain ⟨events, h', hb, hstuck⟩ := hends true
  exact ⟨h, hr, hblocked, ⟨events, h', hb, ((hruns true events h' hb).2 hstuck).resolve_right
    (by simp)⟩, hblocks 0 hblocked⟩

end Hub

end EggScrambler
