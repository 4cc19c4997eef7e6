import Mathlib
import EggScrambler.RoundResult
import EggScrambler.Lib.Threads
import EggScrambler.Lib.Transition

/-!
# The result channel

The last lines of `sendRoundResult`, in any number of goroutines, beside a user that calls
`CreateResCh` and `DestroyResCh`.  A goroutine sends on the channel while it holds `resChMu`, and
the channel has no buffer: if the user does not read, the goroutine keeps the lock.  What else runs
under the lock is one step.

The user keeps to what the methods ask for: the two are called in turn, each after the other has
returned.  Apart from this it reads or does not read, and does so as it likes.

`ResultChannel.Sound` is the invariant.

* `resCh_safe`: nothing is sent on a closed channel, no channel is closed twice and no assertion
  fails; what the goroutines have handed over was received once.
* `resCh_returns`: the lock is never the end of it.  If the user reads, or has called
  `DestroyResCh`, all goroutines and calls return.
-/

namespace EggScrambler

open Transition

/-- Where a goroutine stands in the last lines of `sendRoundResult`. -/
inductive SenderState where
  /-- It waits for the lock. -/
  | waiting
  /-- It has the lock and sends. -/
  | sending (ch : ℕ)
  /-- It has sent and has the lock. -/
  | sent
  /-- It has returned, after it has sent or because there was no channel. -/
  | returned (sent : Bool)
  deriving DecidableEq

structure Sender where
  result : RoundResult
  state : SenderState := .waiting
  deriving DecidableEq

/-- What the user does. -/
inductive UserState where
  | idle
  /-- It has called `CreateResCh`. -/
  | creating
  /-- It has a channel. -/
  | listening (ch : ℕ)
  /-- It has called `DestroyResCh`. -/
  | destroying (ch : ℕ)
  deriving DecidableEq

/-- The channel of a client and the goroutines around it; channels are numbered. -/
structure ResultChannel where
  resCh : Option ℕ := none
  /-- The goroutine that holds the lock. -/
  resChMu : Option ℕ := none
  made : ℕ := 0
  closed : List ℕ := []
  senders : List Sender := []
  user : UserState := .idle
  /-- The channels that the goroutines of `DestroyResCh` read. -/
  drainers : List ℕ := []
  /-- What the user has received. -/
  received : List RoundResult := []
  /-- What the goroutines of `DestroyResCh` have received. -/
  eaten : List RoundResult := []
  deriving DecidableEq

inductive ResultEvent where
  /-- A goroutine has a result. -/
  | spawn (res : RoundResult)
  /-- Goroutine `k` gets the lock and looks at the channel. -/
  | lock (k : ℕ)
  /-- Goroutine `k` tries to send. -/
  | send (k : ℕ)
  /-- The user receives from goroutine `k`. -/
  | receive (k : ℕ)
  /-- Goroutine `j` of `DestroyResCh` receives from goroutine `k`. -/
  | eat (j k : ℕ)
  | unlock (k : ℕ)
  | create
  /-- `CreateResCh` gets the lock and returns. -/
  | created
  | destroy
  /-- `DestroyResCh` gets the lock and returns. -/
  | destroyed
  /-- Goroutine `j` of `DestroyResCh` sees that its channel is closed. -/
  | finish (j : ℕ)

/-- What a goroutine has handed over. -/
def Sender.delivered (snd : Sender) : Option RoundResult :=
  match snd.state with
  | .sent | .returned true => some snd.result
  | _ => none

def SenderState.Holds : SenderState → Prop
  | .sending _ | .sent => True
  | _ => False

namespace ResultChannel

def put (s : ResultChannel) (k : ℕ) (snd : Sender) : ResultChannel :=
  { s with senders := s.senders.set k snd }

/-- One step; an event that is not possible changes nothing. -/
def step (env : Env) (s : ResultChannel) : ResultEvent → Go (ResultChannel × Bool)
  | .spawn result => return ({ s with senders := s.senders ++ [{ result }] }, true)
  | .lock k =>
    match s.senders[k]?, s.resChMu with
    | some ⟨res, .waiting⟩, none =>
      match s.resCh with
      | some ch => return ({ s with resChMu := some k }.put k ⟨res, .sending ch⟩, true)
      | none => return (s.put k ⟨res, .returned false⟩, true)
    | _, _ => return (s, false)
  | .send k =>
    match s.senders[k]? with
    | some ⟨_, .sending ch⟩ =>
      if ch ∈ s.closed then .error .closedChannel else return (s, false)
    | _ => return (s, false)
  | .receive k =>
    match s.senders[k]? with
    | some ⟨res, .sending _⟩ =>
      return ({ s with received := res :: s.received }.put k ⟨res, .sent⟩, true)
    | _ => return (s, false)
  | .eat j k =>
    match s.drainers[j]?, s.senders[k]? with
    | some ch', some ⟨res, .sending ch⟩ =>
      if ch' = ch then return ({ s with eaten := res :: s.eaten }.put k ⟨res, .sent⟩, true)
      else return (s, false)
    | _, _ => return (s, false)
  | .unlock k =>
    match s.senders[k]? with
    | some ⟨res, .sent⟩ => return ({ s with resChMu := none }.put k ⟨res, .returned true⟩, true)
    | _ => return (s, false)
  | .create =>
    match s.user with
    | .idle => return ({ s with user := .creating }, true)
    | _ => return (s, false)
  | .created =>
    match s.user, s.resChMu with
    | .creating, none => do
      assertf env (s.resCh = none)
      return ({ s with resCh := some s.made, made := s.made + 1, user := .listening s.made }, true)
    | _, _ => return (s, false)
  | .destroy =>
    match s.user with
    | .listening ch =>
      return ({ s with user := .destroying ch, drainers := ch :: s.drainers }, true)
    | _ => return (s, false)
  | .destroyed =>
    match s.user, s.resChMu with
    | .destroying _, none => do
      assertf env (s.resCh ≠ none)
      match s.resCh with
      | none => .error .closedChannel
      | some ch =>
        if ch ∈ s.closed then .error .closedChannel
        else return ({ s with resCh := none, closed := ch :: s.closed, user := .idle }, true)
    | _, _ => return (s, false)
  | .finish j =>
    match s.drainers[j]? with
    | some ch =>
      if ch ∈ s.closed then return ({ s with drainers := s.drainers.eraseIdx j }, true)
      else return (s, false)
    | none => return (s, false)

/-- The states after any events. -/
def Reachable (env : Env) (s : ResultChannel) : Prop := Leads (step env) {} s

end ResultChannel

/-! ## The invariant -/

/-- The channel that the user has. -/
def UserState.channel : UserState → Option ℕ
  | listening ch | destroying ch => some ch
  | _ => none

namespace ResultChannel

structure Sound (s : ResultChannel) : Prop where
  user : s.user.channel = s.resCh
  /-- The lock is held by a goroutine that has not returned from sending. -/
  held : Threads.Holder (fun snd : Sender => snd.state.Holds) s.resChMu s.senders
  sending : ∀ (k : ℕ) (snd : Sender) (ch : ℕ), s.senders[k]? = some snd →
    snd.state = .sending ch → s.resCh = some ch
  isOpen : ∀ ch, s.resCh = some ch → ch < s.made ∧ ch ∉ s.closed
  made : ∀ ch ∈ s.closed, ch < s.made
  drainers : ∀ ch ∈ s.drainers, ch ∈ s.closed ∨ s.user = .destroying ch
  /-- `DestroyResCh` reads the channel until it is closed. -/
  destroying : ∀ ch, s.user = .destroying ch → ch ∈ s.drainers
  delivered : (s.received ++ s.eaten).Perm (s.senders.filterMap Sender.delivered)

/-- What an event that is possible does. -/
inductive Moves (s : ResultChannel) : ResultEvent → ResultChannel → Prop
  | spawn (result : RoundResult) :
      Moves s (.spawn result) { s with senders := s.senders ++ [{ result }] }
  | skip {k : ℕ} {res : RoundResult} (hk : s.senders[k]? = some ⟨res, .waiting⟩)
      (hmu : s.resChMu = none) (hch : s.resCh = none) :
      Moves s (.lock k) (s.put k ⟨res, .returned false⟩)
  | lock {k ch : ℕ} {res : RoundResult} (hk : s.senders[k]? = some ⟨res, .waiting⟩)
      (hmu : s.resChMu = none) (hch : s.resCh = some ch) :
      Moves s (.lock k) ({ s with resChMu := some k }.put k ⟨res, .sending ch⟩)
  | receive {k ch : ℕ} {res : RoundResult} (hk : s.senders[k]? = some ⟨res, .sending ch⟩) :
      Moves s (.receive k) ({ s with received := res :: s.received }.put k ⟨res, .sent⟩)
  | eat {j k ch : ℕ} {res : RoundResult} (hj : s.drainers[j]? = some ch)
      (hk : s.senders[k]? = some ⟨res, .sending ch⟩) :
      Moves s (.eat j k) ({ s with eaten := res :: s.eaten }.put k ⟨res, .sent⟩)
  | unlock {k : ℕ} {res : RoundResult} (hk : s.senders[k]? = some ⟨res, .sent⟩) :
      Moves s (.unlock k) ({ s with resChMu := none }.put k ⟨res, .returned true⟩)
  | create (hu : s.user = .idle) : Moves s .create { s with user := .creating }
  | created (hu : s.user = .creating) (hmu : s.resChMu = none) : Moves s .created
      { s with resCh := some s.made, made := s.made + 1, user := .listening s.made }
  | destroy {ch : ℕ} (hu : s.user = .listening ch) : Moves s .destroy
      { s with user := .destroying ch, drainers := ch :: s.drainers }
  | destroyed {ch ch' : ℕ} (hu : s.user = .destroying ch') (hmu : s.resChMu = none)
      (hch : s.resCh = some ch) (hopen : ch ∉ s.closed) : Moves s .destroyed
      { s with resCh := none, closed := ch :: s.closed, user := .idle }
  | finish {j ch : ℕ} (hj : s.drainers[j]? = some ch) (hclosed : ch ∈ s.closed) :
      Moves s (.finish j) { s with drainers := s.drainers.eraseIdx j }

variable {env : Env} {s t : ResultChannel} {e : ResultEvent} {b : Bool}

/-- A step changes nothing, or it is one of the moves. -/
theorem moves_of_step (h : s.step env e = .ok (t, b)) :
    (b = true ∧ Moves s e t) ∨ (b = false ∧ t = s) := by
  have hstay : ∀ {b' : Bool}, b' = false → (.ok (s, b') : Go (ResultChannel × Bool)) = .ok (t, b) →
      (b = true ∧ Moves s e t) ∨ (b = false ∧ t = s) := by
    rintro _ rfl ⟨⟩
    exact Or.inr ⟨rfl, rfl⟩
  cases e <;> simp only [step] at h
  case spawn res =>
    cases h
    exact Or.inl ⟨rfl, .spawn res⟩
  case lock k =>
    split at h
    · rename_i res hk hmu
      split at h
      · rename_i ch hch
        cases h
        exact Or.inl ⟨rfl, .lock hk hmu hch⟩
      · rename_i hch
        cases h
        exact Or.inl ⟨rfl, .skip hk hmu hch⟩
    · exact hstay rfl h
  case send k =>
    split at h
    · split_ifs at h
      exact hstay rfl h
    · exact hstay rfl h
  case receive k =>
    split at h
    · rename_i res ch hk
      cases h
      exact Or.inl ⟨rfl, .receive hk⟩
    · exact hstay rfl h
  case eat j k =>
    split at h
    · rename_i ch' res ch hj hk
      split_ifs at h with heq
      · subst heq
        cases h
        exact Or.inl ⟨rfl, .eat hj hk⟩
      · exact hstay rfl h
    · exact hstay rfl h
  case unlock k =>
    split at h
    · rename_i res hk
      cases h
      exact Or.inl ⟨rfl, .unlock hk⟩
    · exact hstay rfl h
  case create =>
    split at h
    · rename_i hu
      cases h
      exact Or.inl ⟨rfl, .create hu⟩
    · exact hstay rfl h
  case created =>
    split at h
    · rename_i hu hmu
      obtain ⟨-, -, h⟩ := bind_eq_ok_iff.1 h
      cases h
      exact Or.inl ⟨rfl, .created hu hmu⟩
    · exact hstay rfl h
  case destroy =>
    split at h
    · rename_i ch hu
      cases h
      exact Or.inl ⟨rfl, .destroy hu⟩
    · exact hstay rfl h
  case destroyed =>
    split at h
    · rename_i ch' hu hmu
      obtain ⟨-, -, h⟩ := bind_eq_ok_iff.1 h
      split at h
      · cases h
      · rename_i ch hch
        split_ifs at h with hopen
        cases h
        exact Or.inl ⟨rfl, .destroyed hu hmu hch hopen⟩
    · exact hstay rfl h
  case finish j =>
    split at h
    · rename_i ch hj
      split_ifs at h with hclosed
      · cases h
        exact Or.inl ⟨rfl, .finish hj hclosed⟩
      · exact hstay rfl h
    · exact hstay rfl h

namespace Sound

theorem init : Sound {} where
  user := rfl
  held := .nil _
  sending k snd ch hk := by simp at hk
  isOpen ch hch := by cases hch
  made ch hch := by cases hch
  drainers ch hch := by cases hch
  destroying ch hu := by cases hu
  delivered := .refl _

/-- A goroutine goes on. -/
theorem put (h : s.Sound) {k : ℕ} {snd' : Sender} {resChMu : Option ℕ}
    {received eaten : List RoundResult}
    (hheld : Threads.Holder (fun snd : Sender => snd.state.Holds) resChMu (s.senders.set k snd'))
    (hsend : ∀ ch, snd'.state = .sending ch → s.resCh = some ch)
    (hdel : (received ++ eaten).Perm ((s.senders.set k snd').filterMap Sender.delivered)) :
    Sound ({ s with resChMu, received, eaten }.put k snd') where
  user := h.user
  held := hheld
  sending k' x ch hx hst := by
    rcases Threads.getElem?_set_cases hx with ⟨-, rfl⟩ | ⟨-, hx⟩
    · exact hsend ch hst
    · exact h.sending k' x ch hx hst
  isOpen := h.isOpen
  made := h.made
  drainers := h.drainers
  destroying := h.destroying
  delivered := hdel

theorem perm_of_delivered (h : s.Sound) {k : ℕ} {snd snd' : Sender}
    (hk : s.senders[k]? = some snd) (hsnd : snd.delivered = none) {res : RoundResult}
    (hsnd' : snd'.delivered = some res) :
    (res :: (s.received ++ s.eaten)).Perm ((s.senders.set k snd').filterMap Sender.delivered) := by
  obtain ⟨l₁, l₂, hl, hset⟩ := Threads.exists_split hk
  have hdel := h.delivered
  rw [hl] at hdel
  rw [hset]
  simp only [List.filterMap_append, List.filterMap_cons, hsnd, hsnd'] at hdel ⊢
  exact (hdel.cons res).trans List.perm_middle.symm

theorem perm_of_delivered_eq (h : s.Sound) {k : ℕ} {snd snd' : Sender}
    (hk : s.senders[k]? = some snd) (hsnd : snd'.delivered = snd.delivered) :
    (s.received ++ s.eaten).Perm ((s.senders.set k snd').filterMap Sender.delivered) := by
  obtain ⟨l₁, l₂, hl, hset⟩ := Threads.exists_split hk
  have hdel := h.delivered
  rw [hl] at hdel
  rw [hset]
  simpa only [List.filterMap_append, List.filterMap_cons, hsnd] using hdel

/-- Every move keeps the invariant. -/
theorem moves (h : s.Sound) (hm : Moves s e t) : t.Sound := by
  cases hm with
  | spawn res =>
    refine { h with
      held := h.held.append id
      sending := fun k snd ch hk hst => ?_
      delivered := ?_ }
    · rw [List.getElem?_append] at hk
      split_ifs at hk
      · exact h.sending k snd ch hk hst
      · rw [List.mem_singleton.1 (List.mem_of_getElem? hk)] at hst
        cases hst
    · rw [List.filterMap_append]
      exact h.delivered.trans (by rw [List.filterMap_cons_none rfl, List.filterMap_nil,
        List.append_nil])
  | skip hk hmu hch =>
    exact h.put (h.held.idle hk id id) (by simp) (h.perm_of_delivered_eq hk rfl)
  | lock hk hmu hch =>
    have hheld := h.held
    rw [hmu] at hheld
    exact h.put (hheld.acquire hk trivial) (by simp [hch]) (h.perm_of_delivered_eq hk rfl)
  | receive hk =>
    exact h.put (h.held.keep hk trivial trivial) (by simp) (h.perm_of_delivered hk rfl rfl)
  | eat hj hk =>
    exact h.put (h.held.keep hk trivial trivial) (by simp)
      (List.perm_middle.trans (h.perm_of_delivered hk rfl rfl))
  | unlock hk =>
    exact h.put (h.held.release hk trivial id) (by simp) (h.perm_of_delivered_eq hk rfl)
  | create hu =>
    have huser := h.user
    have hdrain := h.drainers
    rw [hu] at huser hdrain
    exact { h with
      user := huser
      drainers := fun ch hch => Or.inl ((hdrain ch hch).resolve_right (by simp))
      destroying := by simp }
  | created hu hmu =>
    have huser := h.user
    have hdrain := h.drainers
    rw [hu] at huser hdrain
    exact { h with
      user := rfl
      sending := fun k snd ch hk hst => by
        have hch := huser.trans (h.sending k snd ch hk hst)
        cases hch
      isOpen := fun ch hch => by
        cases hch
        exact ⟨Nat.lt_succ_self _, fun hmem => (h.made _ hmem).false⟩
      made := fun ch hch => (h.made ch hch).trans (Nat.lt_succ_self _)
      drainers := fun ch hch => Or.inl ((hdrain ch hch).resolve_right (by simp))
      destroying := by simp }
  | destroy hu =>
    have huser := h.user
    have hdrain := h.drainers
    rw [hu] at huser hdrain
    refine { h with user := huser, drainers := fun ch hch => ?_, destroying := fun ch hch => ?_ }
    · rcases List.mem_cons.1 hch with rfl | hch
      · exact Or.inr rfl
      · exact Or.inl ((hdrain ch hch).resolve_right (by simp))
    · cases hch
      exact List.mem_cons_self
  | destroyed hu hmu hch hopen =>
    have huser := h.user
    rw [hu, hch] at huser
    cases huser
    refine { h with
      user := rfl
      sending := fun k snd ch hk hst => ?_
      isOpen := by simp
      made := fun ch hmem => ?_
      drainers := fun ch hmem => ?_
      destroying := by simp }
    · have hheld := h.held
      rw [hmu] at hheld
      exact absurd (by rw [hst]; trivial) (hheld.not_of_none hk)
    · rcases List.mem_cons.1 hmem with rfl | hmem
      · exact (h.isOpen _ hch).1
      · exact h.made ch hmem
    · rcases h.drainers ch hmem with hclosed | hu'
      · exact Or.inl (List.mem_cons_of_mem _ hclosed)
      · rw [hu] at hu'
        cases hu'
        exact Or.inl List.mem_cons_self
  | @finish j ch hj hclosed =>
    refine { h with
      drainers := fun ch' hmem => h.drainers ch' (List.mem_of_mem_eraseIdx hmem)
      destroying := fun ch' hu => ?_ }
    have hne : ch' ≠ ch := by
      rintro rfl
      have huser := h.user
      rw [hu] at huser
      exact (h.isOpen _ huser.symm).2 hclosed
    obtain ⟨i, hi⟩ := List.mem_iff_getElem?.1 (h.destroying ch' hu)
    refine List.mem_eraseIdx_iff_getElem?.2 ⟨i, ?_, hi⟩
    rintro rfl
    exact hne (Option.some.inj (hi.symm.trans hj))

theorem of_reachable (h : s.Reachable env) : s.Sound := by
  obtain ⟨events, hrun⟩ := h
  refine run_preserves (I := Sound) (fun s e t b hs hst => ?_) init hrun
  rcases moves_of_step hst with ⟨-, hm⟩ | ⟨-, rfl⟩
  · exact hs.moves hm
  · exact hs

/-- The channel of a goroutine that sends is open, and so is the one that is destroyed. -/
theorem exists_step (h : s.Sound) (env : Env) (e : ResultEvent) : ∃ r, s.step env e = .ok r := by
  cases e <;> simp only [step]
  case send k =>
    split
    · rename_i ch hk
      rw [if_neg (h.isOpen ch (h.sending k _ ch hk rfl)).2]
      exact ⟨_, rfl⟩
    · exact ⟨_, rfl⟩
  case created =>
    split
    · rename_i hu hmu
      have huser : s.resCh = none := by simp [← h.user, hu, UserState.channel]
      rw [assertf_of huser]
      exact ⟨_, rfl⟩
    · exact ⟨_, rfl⟩
  case destroyed =>
    split
    · rename_i ch hu hmu
      have huser : s.resCh = some ch := by rw [← h.user, hu, UserState.channel]
      rw [assertf_of (by simp [huser]), huser]
      simp only [bind, Except.bind, if_neg (h.isOpen ch huser).2]
      exact ⟨_, rfl⟩
    · exact ⟨_, rfl⟩
  case lock k =>
    split
    · split <;> exact ⟨_, rfl⟩
    · exact ⟨_, rfl⟩
  case eat j k =>
    split
    · split <;> exact ⟨_, rfl⟩
    · exact ⟨_, rfl⟩
  case finish j =>
    split
    · split <;> exact ⟨_, rfl⟩
    · exact ⟨_, rfl⟩
  case spawn => exact ⟨_, rfl⟩
  all_goals split <;> exact ⟨_, rfl⟩

end Sound

/-- **Safety.** However goroutines, calls and reads are interleaved, no event panics; and what was
received, by the user or on behalf of `DestroyResCh`, is what the goroutines have sent. -/
theorem resCh_safe (h : s.Reachable env) : (∀ e, ∃ r, s.step env e = .ok r) ∧
    (s.received ++ s.eaten).Perm (s.senders.filterMap Sender.delivered) :=
  ⟨(Sound.of_reachable h).exists_step env, (Sound.of_reachable h).delivered⟩

/-- A round failed. -/
def failedResult : RoundResult := { round := 0, succeeded := false }

/-- The user has a channel, and a goroutine sends on it. -/
def sendingEvents : List ResultEvent := [.create, .created, .spawn failedResult, .lock 0]

theorem resCh_safe_received : ∃ s : ResultChannel, s.Reachable plainEnv ∧
    s.received = [failedResult] ∧
    (s.received ++ s.eaten).Perm (s.senders.filterMap Sender.delivered) := by
  obtain ⟨s, hs, hreceived⟩ := exists_of_endsWith (by decide +kernel :
    endsWith (step plainEnv) {} (sendingEvents ++ [.receive 0])
      (fun s => decide (s.received = [failedResult])) = true)
  exact ⟨s, ⟨_, hs⟩, of_decide_eq_true hreceived, (resCh_safe ⟨_, hs⟩).2⟩

end ResultChannel

/-! ## Calls and goroutines return -/

/-- The events to which the user does not contribute, apart from reading. -/
def ResultEvent.System (reads : Bool) : ResultEvent → Prop
  | lock _ | eat _ _ | unlock _ | created | destroyed | finish _ => True
  | receive _ => reads = true
  | _ => False

/-- What the user does after its call has returned; `made` is the next channel. -/
def UserState.returned (made : ℕ) : UserState → UserState
  | creating => listening made
  | destroying _ => idle
  | u => u

/-- The number of steps to the return. -/
def SenderState.weight : SenderState → ℕ
  | waiting => 3
  | sending _ => 2
  | sent => 1
  | returned _ => 0

def UserState.weight : UserState → ℕ
  | creating | destroying _ => 1
  | _ => 0

namespace ResultChannel

variable {env : Env} {s t : ResultChannel} {e : ResultEvent} {b : Bool} {reads : Bool}

def weight (s : ResultChannel) : ℕ :=
  (s.senders.map fun snd => snd.state.weight).sum + s.user.weight + s.drainers.length

/-- Every step of the system lowers the weight, and it does not change what the user is about. -/
theorem Moves.weight_lt (h : Moves s e t) (he : e.System reads) :
    t.weight < s.weight ∧ t.user.returned t.made = s.user.returned s.made := by
  have hput : ∀ {k : ℕ} {snd snd' : Sender}, s.senders[k]? = some snd →
      snd'.state.weight < snd.state.weight → ∀ {u : ResultChannel},
      u.senders = s.senders.set k snd' → u.user = s.user → u.made = s.made →
      u.drainers = s.drainers →
      u.weight < s.weight ∧ u.user.returned u.made = s.user.returned s.made := by
    intro k snd snd' hk hlt u hs hu hm hd
    have := Threads.sum_map_set (fun snd => snd.state.weight) hk snd'
    rw [hu, hm]
    refine ⟨?_, rfl⟩
    rw [weight, weight, hs, hu, hd]
    omega
  cases h with
  | spawn | create | destroy => exact he.elim
  | skip hk | lock hk | receive hk | eat hj hk | unlock hk =>
    exact hput hk (by simp [SenderState.weight]) rfl rfl rfl rfl
  | created hu hmu =>
    rw [weight, weight, hu]
    exact ⟨by simp only [UserState.weight]; omega, rfl⟩
  | destroyed hu hmu hch hopen =>
    rw [weight, weight, hu]
    exact ⟨by simp only [UserState.weight]; omega, rfl⟩
  | @finish j ch hj hclosed =>
    refine ⟨?_, rfl⟩
    have hlt := (List.getElem?_eq_some_iff.1 hj).1
    rw [weight, weight, List.length_eraseIdx_of_lt hlt]
    simp only
    omega

/-- All goroutines have returned. -/
structure AtRest (s : ResultChannel) : Prop where
  senders : ∀ snd ∈ s.senders, ∃ sent, snd.state = .returned sent
  drainers : s.drainers = []

/-- What is possible happens. -/
theorem Moves.step_eq (hm : Moves s e t) (h : s.Sound) (env : Env) :
    s.step env e = .ok (t, true) := by
  cases hm with
  | spawn => rfl
  | skip hk hmu hch | lock hk hmu hch =>
    simp only [step, hk, hmu, hch]
    rfl
  | receive hk | unlock hk =>
    simp only [step, hk]
    rfl
  | eat hj hk =>
    simp only [step, hj, hk, if_true]
    rfl
  | create hu | destroy hu =>
    simp only [step, hu]
    rfl
  | created hu hmu =>
    have hch : s.resCh = none := by simp [← h.user, hu, UserState.channel]
    simp only [step, hu, hmu, assertf_of hch]
    rfl
  | @destroyed ch ch' hu hmu hch hopen =>
    have hne : some ch ≠ none := by simp
    simp only [step, hu, hmu, hch, assertf_of hne, if_neg hopen]
    rfl
  | finish hj hclosed =>
    simp only [step, hj, if_pos hclosed]
    rfl

/-- Where nothing goes on, everything has returned. -/
theorem Sound.atRest (h : s.Sound) (hu : reads = true ∨ s.user.returned s.made = .idle)
    (hstuck : Stuck (step env) (ResultEvent.System reads) s) :
    s.AtRest ∧ s.user = s.user.returned s.made := by
  have hnext : ∀ e, e.System reads → ∀ t, ¬ Moves s e t := fun e he t hm =>
    hstuck e he t (hm.step_eq h env)
  have hmu : s.resChMu = none := by
    rcases hmu : s.resChMu with _ | k
    · rfl
    · obtain ⟨⟨res, st⟩, hk, hst⟩ := (h.held k).1 hmu
      cases st with
      | waiting | returned => exact hst.elim
      | sent => exact (hnext (.unlock k) trivial _ (.unlock hk)).elim
      | sending ch =>
        have huser := h.user.trans (h.sending k _ ch hk rfl)
        rcases hs : s.user with _ | _ | ch' | ch' <;> rw [hs] at huser <;> cases huser
        · exact (hnext (.receive k) (hu.resolve_right (by simp [hs, UserState.returned])) _
            (.receive hk)).elim
        · obtain ⟨j, hj⟩ := List.mem_iff_getElem?.1 (h.destroying ch hs)
          exact (hnext (.eat j k) trivial _ (.eat hj hk)).elim
  have huser : s.user = s.user.returned s.made := by
    rcases hs : s.user with _ | _ | ch | ch
    · rfl
    · exact (hnext .created trivial _ (.created hs hmu)).elim
    · rfl
    · have hch : s.resCh = some ch := by simp [← h.user, hs, UserState.channel]
      exact (hnext .destroyed trivial _ (.destroyed hs hmu hch (h.isOpen ch hch).2)).elim
  refine ⟨⟨fun ⟨res, st⟩ hmem => ?_, List.eq_nil_iff_forall_not_mem.2 fun ch hch => ?_⟩, huser⟩
  · obtain ⟨k, hk⟩ := List.mem_iff_getElem?.1 hmem
    cases st with
    | waiting =>
      rcases hch : s.resCh with _ | ch
      · exact (hnext (.lock k) trivial _ (.skip hk hmu hch)).elim
      · exact (hnext (.lock k) trivial _ (.lock hk hmu hch)).elim
    | sending | sent =>
      have hheld := h.held
      rw [hmu] at hheld
      exact absurd trivial (hheld.not_of_none hk)
    | returned sent => exact ⟨sent, rfl⟩
  · obtain ⟨j, hj⟩ := List.mem_iff_getElem?.1 hch
    rcases h.drainers ch hch with hclosed | hd
    · exact hnext (.finish j) trivial _ (.finish hj hclosed)
    · rw [hd] at huser
      cases huser

/-- **No deadlock.** If the user reads, or has destroyed its channel or is about to, the goroutines
and the call of the user return after a bounded number of steps, in whatever order they are taken,
and the user need not do anything. -/
theorem resCh_returns (h : s.Reachable env)
    (hu : reads = true ∨ s.user.returned s.made = .idle) :
    (∀ events t, Busy (step env) (ResultEvent.System reads) s events t →
      events.length ≤ s.weight ∧ (Stuck (step env) (ResultEvent.System reads) t →
        t.AtRest ∧ t.user = s.user.returned s.made)) ∧
    ∃ events t, Busy (step env) (ResultEvent.System reads) s events t ∧
      Stuck (step env) (ResultEvent.System reads) t := by
  have hstep : ∀ (u : ResultChannel) (e : ResultEvent) (v : ResultChannel),
      u.Sound ∧ u.user.returned u.made = s.user.returned s.made → e.System reads →
      u.step env e = .ok (v, true) →
      (v.Sound ∧ v.user.returned v.made = s.user.returned s.made) ∧ v.weight < u.weight := by
    rintro u e v ⟨hs, heq⟩ he hst
    obtain ⟨-, hm⟩ := (moves_of_step hst).resolve_right (by simp)
    obtain ⟨hlt, hsame⟩ := hm.weight_lt he
    exact ⟨⟨hs.moves hm, hsame.trans heq⟩, hlt⟩
  have hs := Sound.of_reachable h
  refine ⟨fun events t hb => ?_, exists_busy_stuck hstep ⟨hs, rfl⟩⟩
  obtain ⟨ht, heq⟩ := hb.preserves hstep ⟨hs, rfl⟩
  have hle := hb.length_le hstep ⟨hs, rfl⟩
  refine ⟨by omega, fun hstuck => ?_⟩
  obtain ⟨hrest, huser⟩ := ht.atRest (hu.imp_right heq.trans) hstuck
  exact ⟨hrest, huser.trans heq⟩

/-- The goroutine holds the lock that `DestroyResCh` waits for, and nobody reads. -/
theorem resCh_returns_unread : ∃ s : ResultChannel, s.Reachable plainEnv ∧
    s.user = .destroying 0 ∧ s.resChMu = some 0 ∧ ∃ events t,
      Busy (step plainEnv) (ResultEvent.System false) s events t ∧ t.AtRest ∧ t.user = .idle := by
  obtain ⟨s, hs, htest⟩ := exists_of_endsWith (by decide +kernel :
    endsWith (step plainEnv) {} (sendingEvents ++ [.destroy])
      (fun s => decide (s.user = .destroying 0 ∧ s.resChMu = some 0)) = true)
  obtain ⟨hu, hmu⟩ := of_decide_eq_true htest
  have hidle : s.user.returned s.made = .idle := by rw [hu, UserState.returned]
  have hreads : false = true ∨ s.user.returned s.made = .idle := Or.inr hidle
  obtain ⟨hruns, events, t, hb, hstuck⟩ := resCh_returns ⟨_, hs⟩ hreads
  obtain ⟨hrest, huser⟩ := (hruns events t hb).2 hstuck
  exact ⟨s, ⟨_, hs⟩, hu, hmu, events, t, hb, hrest, huser.trans hidle⟩

end ResultChannel

end EggScrambler
