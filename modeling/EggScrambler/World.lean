import Mathlib
import EggScrambler.ReadUpdates
import EggScrambler.View

/-!
# A client and its server

The system that a client is part of: the log is applied by its server, which sends a copy of every
changed state to the client's channel, and the client reads the channel in its own time.  The log is
arbitrary.  Goroutines are kept in `tasks` once they are started: each is handed copies, so what it
does is determined by its arguments, whenever it runs.

`Session` is the client's side.  `reads` and `generated` record the updates that it read and the
keys that it generated, newest first.  `Delivered` says that the updates are consecutive copies of
the states of the server, and `session_induction` derives invariants of a session from that: it is
the rule by which everything about `readUpdates` is proved.
-/

namespace EggScrambler

open StateMachine Transition

/-- An update that was read, and whether the client was active then. -/
structure Read where
  sm : StateMachine
  active : Bool
  deriving DecidableEq

/-- The client's side. -/
structure Session where
  reader : Reader := {}
  /-- The goroutines that were started. -/
  tasks : List Task := []
  reads : List Read := []
  generated : List Generation := []

/-- A server and a client that may have subscribed to its updates. -/
structure World where
  /-- The state of the server. -/
  sm : StateMachine := newStateMachine
  /-- What is in the channel, oldest first; `none` before `GetUpdCh`. -/
  updCh : Option (List StateMachine) := none
  session : Session := {}

inductive Action where
  /-- The log of the cluster goes on. -/
  | commit (op : Op)
  /-- `GetUpdCh`. -/
  | subscribe
  /-- The client reads an update. -/
  | read (active leaving : Bool) (draws : Draws)
  /-- The client reads a configuration update; the argument says which of the updates it read is
  stored in `lastUpdate`. -/
  | configure (active leaving : Bool) (stored : ℕ)

/-- The session after a turn of the loop. -/
def Session.react (s : Session) (v : Read) (a : Reaction) : Session where
  reader := a.reader
  tasks := a.tasks ++ s.tasks
  reads := v :: s.reads
  generated := a.generated.toList ++ s.generated

@[simp] theorem Session.reader_react (s : Session) (v : Read) (a : Reaction) :
    (s.react v a).reader = a.reader := rfl

@[simp] theorem Session.tasks_react (s : Session) (v : Read) (a : Reaction) :
    (s.react v a).tasks = a.tasks ++ s.tasks := rfl

@[simp] theorem Session.reads_react (s : Session) (v : Read) (a : Reaction) :
    (s.react v a).reads = v :: s.reads := rfl

@[simp] theorem Session.generated_react (s : Session) (v : Read) (a : Reaction) :
    (s.react v a).generated = a.generated.toList ++ s.generated := rfl

/-- The state that `lastUpdate` holds if it is the update number `k`, counted from the last one. -/
def Session.stored (s : Session) (k : ℕ) : StateMachine :=
  (s.reads[k]?.map Read.sm).getD newStateMachine

theorem Session.stored_cases (s : Session) (k : ℕ) :
    s.stored k = newStateMachine ∨ ∃ x ∈ s.reads, s.stored k = x.sm := by
  unfold stored
  rcases hx : s.reads[k]? with _ | x
  · exact Or.inl rfl
  · exact Or.inr ⟨x, List.mem_of_getElem? hx, rfl⟩

def Session.configure (s : Session) (c : Client) (active leaving : Bool) (stored : ℕ) : Session :=
  { s with tasks := Reader.prepares c active leaving (s.stored stored) ++ s.tasks }

namespace World

/-- One step of the system; the flag says whether anything happened. -/
def step (env : Env) (c : Client) (w : World) : Action → Go (World × Bool)
  | .commit op => do
    let (sm, updated) ← w.sm.apply op
    if updated then
      match w.updCh with
      | none => return ({ w with sm }, true)
      | some ch =>
        let copy ← sm.deepCopy
        return ({ w with sm, updCh := some (ch ++ [copy]) }, true)
    else return (w, false)
  | .subscribe =>
    match w.updCh with
    | some _ => .ok (w, false)
    | none => do
      let copy ← w.sm.deepCopy
      return ({ w with updCh := some [copy] }, true)
  | .read active leaving draws =>
    match w.updCh with
    | some (sm :: ch) => do
      match ← w.session.reader.update env c active leaving draws sm with
      | none => return (w, false)
      | some a =>
        return ({ w with updCh := some ch, session := w.session.react ⟨sm, active⟩ a }, true)
    | _ => .ok (w, false)
  | .configure active leaving stored =>
    .ok ({ w with session := w.session.configure c active leaving stored }, true)

/-- The states of the system after any actions. -/
def Reachable (env : Env) (c : Client) (w : World) : Prop := Leads (step env c) {} w

/-- All updates that were sent, newest first. -/
def updates (w : World) : List StateMachine :=
  (w.updCh.getD []).reverse ++ w.session.reads.map Read.sm

end World

/-! ## One step -/

/-- What an action can do. -/
inductive Steps (env : Env) (c : Client) (w : World) : Action → World → Prop
  | commit {op : Op} {sm copy : StateMachine} {ch : List StateMachine}
      (hap : w.sm.apply op = .ok (sm, true)) (hch : w.updCh = some ch)
      (hcopy : sm.deepCopy = .ok copy) :
      Steps env c w (.commit op) { w with sm, updCh := some (ch ++ [copy]) }
  | unseen {op : Op} {sm : StateMachine} (hap : w.sm.apply op = .ok (sm, true))
      (hch : w.updCh = none) : Steps env c w (.commit op) { w with sm }
  | subscribe {copy : StateMachine} (hch : w.updCh = none) (hcopy : w.sm.deepCopy = .ok copy) :
      Steps env c w .subscribe { w with updCh := some [copy] }
  | read {active leaving : Bool} {draws : Draws} {v : StateMachine} {ch : List StateMachine}
      {a : Reaction} (hch : w.updCh = some (v :: ch))
      (ha : Reads env c active draws w.session.reader v a) :
      Steps env c w (.read active leaving draws)
        { w with updCh := some ch, session := w.session.react ⟨v, active⟩ a }
  | configure (active leaving : Bool) (stored : ℕ) :
      Steps env c w (.configure active leaving stored)
        { w with session := w.session.configure c active leaving stored }
  | stay {act : Action} (hap : ∀ op, act = .commit op → w.sm.apply op = .ok (w.sm, false)) :
      Steps env c w act w

/-- A step is of one of these forms. -/
theorem Steps.of_step {env : Env} {c : Client} {w w' : World} {act : Action} {b : Bool}
    (h : w.step env c act = .ok (w', b)) : Steps env c w act w' := by
  cases act with
  | commit op =>
    obtain ⟨⟨sm, updated⟩, hap, h⟩ := bind_eq_ok_iff.1 h
    cases updated with
    | false =>
      cases h
      refine .stay fun op' heq => ?_
      cases heq
      rw [hap, eq_of_apply_false hap]
    | true =>
      change (match w.updCh with
        | none => _
        | some ch => _) = _ at h
      split at h
      · rename_i hch
        cases h
        exact .unseen hap hch
      · rename_i ch hch
        obtain ⟨copy, hcopy, h⟩ := bind_eq_ok_iff.1 h
        cases h
        exact .commit hap hch hcopy
  | subscribe =>
    unfold World.step at h
    simp only at h
    split at h
    · cases h
      exact .stay (by simp)
    · rename_i hch
      obtain ⟨copy, hcopy, h⟩ := bind_eq_ok_iff.1 h
      cases h
      exact .subscribe hch hcopy
  | read active leaving draws =>
    unfold World.step at h
    simp only at h
    split at h
    · rename_i v ch hch
      obtain ⟨a, ha, h⟩ := bind_eq_ok_iff.1 h
      cases a with
      | none =>
        cases h
        exact .stay (by simp)
      | some a =>
        cases h
        exact .read hch (Reads.of_update ha)
    · cases h
      exact .stay (by simp)
  | configure active leaving stored =>
    cases h
    exact .configure active leaving stored

theorem Reads.lastSm {env : Env} {c : Client} {active : Bool} {draws : Draws} {rd : Reader}
    {v : StateMachine} {a : Reaction} (h : Reads env c active draws rd v a) :
    a.reader.lastSm = v := by
  cases h with
  | generate | submit =>
    unfold Reader.submitOnce
    split_ifs <;> rfl
  | reveal =>
    unfold Reader.remember
    split_ifs <;> rfl
  | _ => rfl

/-! ## In order and without gaps -/

/-- The updates are consecutive copies of the states of the server, up to the current one. -/
structure Delivered (w : World) : Prop where
  reachable : Reachable w.sm
  views : ∀ v ∈ w.updates, IsView v
  chain : w.updates.IsChain fun v' v => Consecutive v v'
  newest : w.updCh ≠ none → ∃ v rest, w.updates = v :: rest ∧ w.sm.deepCopy = .ok v
  unread : w.updCh = none → w.session.reads = []
  /-- The loop remembers the last update. -/
  last : w.session.reader.lastSm = ((w.session.reads.map Read.sm).head?).getD newStateMachine

namespace Delivered

variable {env : Env} {c : Client} {w w' : World}

theorem init : Delivered {} where
  reachable := Leads.refl _
  views v hv := by simp [World.updates] at hv
  chain := by simp [World.updates]
  newest h := absurd rfl h
  unread _ := rfl
  last := rfl

theorem commit (h : Delivered w) {op : Op} {sm copy : StateMachine} {ch : List StateMachine}
    (hap : w.sm.apply op = .ok (sm, true)) (hch : w.updCh = some ch)
    (hcopy : sm.deepCopy = .ok copy) :
    Delivered { w with sm, updCh := some (ch ++ [copy]) } := by
  obtain ⟨v, rest, hv, hcur⟩ := h.newest (by rw [hch]; exact Option.some_ne_none _)
  have hup : World.updates { w with sm, updCh := some (ch ++ [copy]) } = copy :: w.updates := by
    simp [World.updates, hch]
  have hreach : Reachable sm := h.reachable.trans (Leads.of_step hap)
  have hcons : Consecutive v copy := ⟨w.sm, sm, op, h.reachable.inv, hap, hcur, hcopy⟩
  exact {
    reachable := hreach
    views := by
      rw [hup, List.forall_mem_cons]
      exact ⟨⟨sm, hreach, hcopy⟩, h.views⟩
    chain := by
      rw [hup, hv]
      exact List.isChain_cons_cons.2 ⟨hcons, hv ▸ h.chain⟩
    newest := fun _ => ⟨copy, w.updates, hup, hcopy⟩
    unread := fun he => absurd he (Option.some_ne_none _)
    last := h.last }

theorem read (h : Delivered w) {active : Bool} {draws : Draws} {v : StateMachine}
    {ch : List StateMachine} {a : Reaction} (hch : w.updCh = some (v :: ch))
    (ha : Reads env c active draws w.session.reader v a) :
    Delivered { w with updCh := some ch, session := w.session.react ⟨v, active⟩ a } := by
  have hup : World.updates { w with updCh := some ch, session := w.session.react ⟨v, active⟩ a } =
      w.updates := by
    simp [World.updates, hch, Session.react]
  exact {
    reachable := h.reachable
    views := hup ▸ h.views
    chain := hup ▸ h.chain
    newest := fun _ => by
      rw [hup]
      exact h.newest (by rw [hch]; exact Option.some_ne_none _)
    unread := fun he => absurd he (Option.some_ne_none _)
    last := ha.lastSm }

/-- Sending and reading keep the updates consecutive. -/
theorem step (h : Delivered w) {act : Action} (hs : Steps env c w act w') : Delivered w' := by
  cases hs with
  | commit hap hch hcopy => exact h.commit hap hch hcopy
  | unseen hap hch =>
    exact {
      reachable := h.reachable.trans (Leads.of_step hap)
      views := h.views
      chain := h.chain
      newest := fun hne => absurd hch hne
      unread := h.unread
      last := h.last }
  | @subscribe copy hch hcopy =>
    have hup : World.updates { w with updCh := some [copy] } = [copy] := by
      simp [World.updates, h.unread hch]
    exact {
      reachable := h.reachable
      views := by
        rw [hup, List.forall_mem_singleton]
        exact ⟨w.sm, h.reachable, hcopy⟩
      chain := by
        rw [hup]
        exact List.isChain_singleton _
      newest := fun _ => ⟨copy, [], hup, hcopy⟩
      unread := fun he => absurd he (Option.some_ne_none _)
      last := h.last }
  | read hch ha => exact h.read hch ha
  | configure active leaving stored =>
    exact ⟨h.reachable, h.views, h.chain, h.newest, h.unread, h.last⟩
  | stay => exact h

theorem of_reachable (h : World.Reachable env c w) : Delivered w := by
  obtain ⟨log, hlog⟩ := h
  exact run_preserves (fun _ _ _ _ hw hs => hw.step (Steps.of_step hs)) init hlog

end Delivered

/-- `v` is the update that a session is about to read. -/
structure Session.Next (s : Session) (v : StateMachine) : Prop where
  view : IsView v
  inv_last : Inv s.reader.lastSm
  follows : Follows s.reader.lastSm v
  last : s.reader.lastSm = ((s.reads.map Read.sm).head?).getD newStateMachine
  consecutive : s.reads ≠ [] → Consecutive s.reader.lastSm v

theorem Delivered.next {w : World} (h : Delivered w) {v : StateMachine} {ch : List StateMachine}
    (hch : w.updCh = some (v :: ch)) : w.session.Next v := by
  have hup : w.updates = ch.reverse ++ v :: w.session.reads.map Read.sm := by
    simp [World.updates, hch]
  have hview : IsView v := h.views v (by simp [hup])
  rcases hreads : w.session.reads with _ | ⟨x, rest⟩
  · have hlast : w.session.reader.lastSm = newStateMachine := by rw [h.last, hreads]; rfl
    refine ⟨hview, hlast ▸ Inv.new, hlast ▸ hview.follows_new, h.last, fun hne => absurd hreads hne⟩
  · have hlast : w.session.reader.lastSm = x.sm := by rw [h.last, hreads]; rfl
    have hchain := h.chain
    rw [hup, hreads, List.map_cons] at hchain
    have hcons : Consecutive x.sm v := (List.isChain_append_cons_cons.1 hchain).2.1
    have hx : IsView x.sm := h.views _ (by simp [hup, hreads])
    exact ⟨hview, hlast ▸ hx.inv, hlast ▸ hcons.follows, h.last, fun _ => hlast ▸ hcons⟩

/-- **States are delivered in order.** An earlier state `s` of a run may precede a later one `t`,
and conversely only within one phase of one round, so that a phase which is left before `t` is not
entered again up to any `u`; and the update that a client reads next never fails the assertion of
the loop, whenever the client subscribed. -/
theorem mayPrecede_of_leads {s t u : StateMachine} (hs : StateMachine.Reachable s)
    (hst : Leads apply s t) (htu : Leads apply t u) {env : Env} {c : Client} {w : World}
    (hw : World.Reachable env c w) :
    s.mayPrecede t = true ∧
    (t.mayPrecede s = true →
      t.round = s.round ∧ t.currentRoundInfo.phase = s.currentRoundInfo.phase) ∧
    (u.round = s.round → u.currentRoundInfo.phase = s.currentRoundInfo.phase →
      t.round = s.round ∧ t.currentRoundInfo.phase = s.currentRoundInfo.phase) ∧
    ∀ v ch, w.updCh = some (v :: ch) → w.session.reader.lastSm.mayPrecede v = true := by
  have ht := hs.inv.of_leads hst
  have hfst := Follows.of_leads hs.inv hst
  have hftu := Follows.of_leads ht htu
  refine ⟨hfst.mayPrecede ht.round_nonneg, hfst.phase_eq hs.inv ht,
    hfst.phase_eq_of_between hftu hs.inv ht (ht.of_leads htu).round_nonneg, fun v ch hch => ?_⟩
  have hnext := (Delivered.of_reachable hw).next hch
  exact hnext.follows.mayPrecede hnext.view.inv.round_nonneg

/-- A client that subscribes in the scramble phase of a round. -/
theorem mayPrecede_of_leads_scrambleState :
    newStateMachine.mayPrecede scrambleState = true ∧
      ∃ w, World.Reachable plainEnv ⟨1, 0⟩ w ∧ w.updCh = some [scrambleState] ∧
        w.session.reader.lastSm.mayPrecede scrambleState = true := by
  obtain ⟨w, hw, hch⟩ := exists_of_endsWith (by decide +kernel :
    endsWith (World.step plainEnv ⟨1, 0⟩) {} (scrambleLog.map .commit ++ [.subscribe])
      (fun w => decide (w.updCh = some [scrambleState])) = true)
  have hch := of_decide_eq_true hch
  have h := mayPrecede_of_leads (Leads.refl _) reachable_scrambleState (Leads.refl _) ⟨_, hw⟩
  exact ⟨h.1, w, ⟨_, hw⟩, hch, h.2.2.2 _ _ hch⟩

/-- **Induction over sessions**, given what is already known of them: what holds at first and is
kept by every turn of the loop, for every update that may come next, holds in every state of the
system. -/
theorem World.session_induction_of {env : Env} {c : Client} {P Q : Session → Prop}
    (hQ : ∀ {w}, World.Reachable env c w → Q w.session) (h₀ : P {})
    (hread : ∀ s v active draws a, Q s → P s → s.Next v → Reads env c active draws s.reader v a →
      P (s.react ⟨v, active⟩ a))
    (hconf : ∀ s active leaving stored, P s → P (s.configure c active leaving stored))
    {w : World} (h : World.Reachable env c w) : P w.session := by
  obtain ⟨log, hlog⟩ := h
  refine (run_preserves (I := fun w => World.Reachable env c w ∧ P w.session)
    (fun w act w' b hw hs => ⟨hw.1.trans (Leads.of_step hs), ?_⟩) ⟨Leads.refl _, h₀⟩ hlog).2
  cases Steps.of_step hs with
  | read hch ha =>
    exact hread _ _ _ _ _ (hQ hw.1) hw.2 ((Delivered.of_reachable hw.1).next hch) ha
  | configure active leaving stored => exact hconf _ _ _ _ hw.2
  | _ => exact hw.2

theorem World.session_induction {env : Env} {c : Client} {P : Session → Prop} (h₀ : P {})
    (hread : ∀ s v active draws a, P s → s.Next v → Reads env c active draws s.reader v a →
      P (s.react ⟨v, active⟩ a))
    (hconf : ∀ s active leaving stored, P s → P (s.configure c active leaving stored))
    {w : World} (h : World.Reachable env c w) : P w.session :=
  World.session_induction_of (Q := fun _ => True) (fun _ => trivial) h₀
    (fun s v active draws a _ => hread s v active draws a) hconf h

end EggScrambler
