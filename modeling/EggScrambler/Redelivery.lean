import Mathlib
import EggScrambler.Order

/-!
# Operations that are delivered more than once

A client that has lost a reply submits its operation again, so that the log may contain an operation
several times, in other phases and rounds than the first time.  Every handler has its own way of
coping: a join finds its participant, a start the phase, a list operation its raised flag; messages
and keys are overwritten with equal values; and an abort has moved the round number on.

`RoundInfo.Keeps ri op` says for every kind of operation what is left of it in a round that it took
effect on.  An operation leaves its trace (`Accepts.keeps`), the others do not remove it
(`RoundInfo.Keeps.step`), and where it is left a copy changes nothing (`RoundInfo.Keeps.eq`).
-/

namespace EggScrambler

open StateMachine Transition

namespace RoundInfo

/-- The participant has raised its flag of the stage `st`. -/
def Raised (ri : RoundInfo) (st : Stage) (id : UUID) : Prop :=
  1 ≤ phaseOrder ri.phase ∧ ∃ p, ri.participantIndex id = some p ∧ (st.flags ri)[p]? = some true

/-- The trace of an operation that took effect on the round. -/
def Keeps (ri : RoundInfo) : Op → Prop
  | .join id _ => id ∈ ri.participants
  | .start .. => 1 ≤ phaseOrder ri.phase
  | .message id _ msg hash => 1 ≤ phaseOrder ri.phase ∧ (ri.phase = .submit →
      ∃ p, ri.participantIndex id = some p ∧ ri.messages[p]? = some msg ∧
        ri.revealKeyHashes[p]? = some hash)
  | .encrypted id .. => ri.Raised .encrypt id
  | .scrambled id .. => ri.Raised .scramble id
  | .decrypted id .. => ri.Raised .decrypt id
  | .reveal id _ key => 5 ≤ phaseOrder ri.phase ∧ (ri.phase = .reveal →
      ∃ p, ri.participantIndex id = some p ∧ ri.revealedKeys[p]? = some key)
  | .abort _ => False

theorem keeps_op {ri : RoundInfo} {st : Stage} {id : UUID} {r : ℤ} {messages : List Msg}
    {prev : ℤ} : ri.Keeps (st.op id r messages prev) ↔ ri.Raised st id := by
  cases st <;> rfl

end RoundInfo

/-- Two different messages, or two different keys, of one participant in one round. -/
def Op.Conflicts : Op → Op → Prop
  | message id r msg hash, message id' r' msg' hash' =>
    id = id' ∧ r = r' ∧ ¬ (msg = msg' ∧ hash = hash')
  | reveal id r key, reveal id' r' key' => id = id' ∧ r = r' ∧ key ≠ key'
  | _, _ => False

instance (a b : Op) : Decidable (a.Conflicts b) := by
  unfold Op.Conflicts
  split <;> infer_instance

section Round

variable {ri ri' : RoundInfo} {op op' : Op}

/-- An operation leaves its trace, unless it finishes the round. -/
theorem Accepts.keeps (h : Accepts ri op ri')
    (hfin : ¬ (ri'.phase = .done ∨ ri'.phase = .failed)) : ri'.Keeps op := by
  cases h with
  | join hph hid => exact List.mem_append_right _ (List.mem_singleton_self _)
  | start hph => exact le_rfl
  | message hph hp hm hh =>
    refine ⟨?_, fun _ => ⟨_, hp, ?_, ?_⟩⟩
    · exact (show 1 ≤ phaseOrder ri.phase by rw [hph]; decide).trans
        (later_putMessage _ _ _ hph).order
    · exact List.getElem?_set_self hm
    · exact List.getElem?_set_self hh
  | @transform st prev id r messages p hph hp hn hf =>
    rw [RoundInfo.keeps_op]
    refine ⟨?_, p, ?_, ?_⟩
    · have := st.phaseOrder_mem
      have := (later_install messages hph hf).order
      rw [hph] at this
      omega
    · rw [RoundInfo.participantIndex, (ri.install_frame st p messages).1]
      exact hp
    · rw [RoundInfo.flags_install_self]
      exact List.getElem?_set_self (List.getElem?_eq_some_iff.1 hf).1
  | reveal hph hp hk =>
    refine ⟨?_, fun _ => ⟨_, hp, List.getElem?_set_self hk⟩⟩
    exact (show 5 ≤ phaseOrder ri.phase by rw [hph]; decide).trans (later_putKey _ _ hph).order
  | abort => exact absurd (Or.inr rfl) hfin

theorem RoundInfo.Raised.later {st : Stage} {id : UUID} (h : ri.Raised st id) (hl : Later ri ri') :
    ri'.Raised st id := by
  obtain ⟨hord, p, hp, hf⟩ := h
  refine ⟨hord.trans hl.order, p, ?_, hl.raised st p hf⟩
  rw [RoundInfo.participantIndex, (hl.fixed hord).1]
  exact hp

/-- The index of a participant identifies it. -/
theorem RoundInfo.id_eq_of_participantIndex {id id' : UUID} {p : ℕ}
    (h : ri.participantIndex id = some p) (h' : ri.participantIndex id' = some p) : id = id' :=
  Option.some.inj ((participantIndex_eq_some h).symm.trans (participantIndex_eq_some h'))

theorem RoundInfo.keeps_message_step {id : UUID} {r : ℤ} {msg : Msg} {hash : Bytes}
    (h : ri.Keeps (.message id r msg hash)) (ha : Accepts ri op' ri') (hr : op'.round = r)
    (hc : ¬ Op.Conflicts (.message id r msg hash) op') : ri'.Keeps (.message id r msg hash) := by
  have hord := ha.later.order
  refine ⟨h.1.trans hord, fun hph' => ?_⟩
  have hph : ri.phase = .submit := by
    have := h.1
    rw [hph'] at hord
    cases hph : ri.phase <;> rw [hph] at this hord <;> first | rfl | simp [phaseOrder] at this hord
  obtain ⟨p, hp, hm, hh⟩ := h.2 hph
  cases ha with
  | join hph₂ | start hph₂ | reveal hph₂ => rw [hph] at hph₂; cases hph₂
  | transform st prev hph₂ => rw [hph] at hph₂; cases st <;> cases hph₂
  | abort => cases hph'
  | @message id₂ r₂ msg₂ hash₂ p₂ hph₂ hp₂ hm₂ hh₂ =>
    refine ⟨p, hp, ?_⟩
    by_cases heq : p₂ = p
    · -- the same participant, so it is the same message
      subst heq
      have hsame : msg = msg₂ ∧ hash = hash₂ := by
        by_contra hne
        exact hc ⟨id_eq_of_participantIndex hp hp₂, hr.symm, hne⟩
      rw [hsame.1, hsame.2]
      exact ⟨List.getElem?_set_self hm₂, List.getElem?_set_self hh₂⟩
    · exact ⟨(List.getElem?_set_ne heq).trans hm, (List.getElem?_set_ne heq).trans hh⟩

theorem RoundInfo.keeps_reveal_step {id : UUID} {r : ℤ} {key : PrivateKey}
    (h : ri.Keeps (.reveal id r key)) (ha : Accepts ri op' ri') (hr : op'.round = r)
    (hc : ¬ Op.Conflicts (.reveal id r key) op') : ri'.Keeps (.reveal id r key) := by
  have hord := ha.later.order
  refine ⟨h.1.trans hord, fun hph' => ?_⟩
  have hph : ri.phase = .reveal := by
    have := h.1
    rw [hph'] at hord
    cases hph : ri.phase <;> rw [hph] at this hord <;> first | rfl | simp [phaseOrder] at this hord
  obtain ⟨p, hp, hk⟩ := h.2 hph
  cases ha with
  | join hph₂ | start hph₂ | message hph₂ => rw [hph] at hph₂; cases hph₂
  | transform st prev hph₂ => rw [hph] at hph₂; cases st <;> cases hph₂
  | abort => cases hph'
  | @reveal id₂ r₂ key₂ p₂ hph₂ hp₂ hk₂ =>
    refine ⟨p, hp, ?_⟩
    by_cases heq : p₂ = p
    · subst heq
      have hsame : key = key₂ := by
        by_contra hne
        exact hc ⟨id_eq_of_participantIndex hp hp₂, hr.symm, hne⟩
      rw [hsame]
      exact List.getElem?_set_self hk₂
    · exact (List.getElem?_set_ne heq).trans hk

/-- No other operation removes the trace, except that a participant could change its mind. -/
theorem RoundInfo.Keeps.step (h : ri.Keeps op) (ha : Accepts ri op' ri')
    (hr : op'.round = op.round) (hc : ¬ op.Conflicts op') : ri'.Keeps op := by
  cases op with
  | join id r => exact ha.participants_subset h
  | start id r crypto => exact le_trans h ha.later.order
  | message id r msg hash => exact keeps_message_step h ha hr hc
  | encrypted id r messages prev => exact RoundInfo.Raised.later h ha.later
  | scrambled id r messages => exact RoundInfo.Raised.later h ha.later
  | decrypted id r messages prev => exact RoundInfo.Raised.later h ha.later
  | reveal id r key => exact keeps_reveal_step h ha hr hc
  | abort r => exact h

/-- Writing to a list what it holds. -/
theorem set_of_getElem? {α : Type} {xs : List α} {p : ℕ} {x : α} (h : xs[p]? = some x) :
    xs.set p x = xs := by
  obtain ⟨hlt, rfl⟩ := List.getElem?_eq_some_iff.1 h
  exact List.set_getElem_self hlt

/-- Where an operation left its trace, it has no further effect. -/
theorem RoundInfo.Keeps.eq (h : ri.Keeps op) (hinv : RoundInv ri) (ha : Accepts ri op ri') :
    ri' = ri := by
  cases ha with
  | join hph hid => exact absurd h hid
  | start hph => exact absurd h (by simp [Keeps, hph, phaseOrder])
  | @message id r msg hash p hph hp hm hh =>
    obtain ⟨q, hq, hmsg, hhash⟩ := h.2 hph
    obtain rfl : q = p := Option.some.inj (hq.symm.trans hp)
    -- some other message is still missing, so the phase does not change either
    have hnil : ri.messages.any Msg.isNil = true :=
      List.any_eq_true.2 (hinv.submit_nil hph (List.ne_nil_of_mem
        (List.mem_of_getElem? (participantIndex_eq_some hp))))
    rw [putMessage, set_of_getElem? hmsg, set_of_getElem? hhash, if_pos hnil]
  | @transform st prev id r messages p hph hp hn hf =>
    obtain ⟨-, q, hq, hraised⟩ := keeps_op.1 h
    obtain rfl : q = p := Option.some.inj (hq.symm.trans hp)
    rw [hraised] at hf
    cases hf
  | @reveal id r key p hph hp hk =>
    obtain ⟨q, hq, hkey⟩ := h.2 hph
    obtain rfl : q = p := Option.some.inj (hq.symm.trans hp)
    have hnil : ri.revealedKeys.any PrivateKey.isNil = true :=
      List.any_eq_true.2 (hinv.reveal_nil hph)
    rw [putKey, set_of_getElem? hkey, if_pos hnil]
  | abort => exact h.elim

end Round

/-! ## Runs -/

/-- The operation took effect on a round that is over or still shows it. -/
def Absorbs (s : StateMachine) (op : Op) : Prop :=
  op.round ≤ s.round ∧ (op.round = s.round → s.currentRoundInfo.Keeps op)

section Run

variable {s t : StateMachine} {op op' : Op}

/-- An operation that took effect is absorbed. -/
theorem Inv.absorbs (h : Inv s) (ha : s.apply op = .ok (t, true)) : Absorbs t op := by
  obtain ⟨hr, ri, hacc, rfl⟩ := apply_true_iff.1 ha
  have hle := (Follows.of_advance h.round_nonneg hacc).round_le
  refine ⟨hr ▸ hle, fun heq => ?_⟩
  obtain ⟨hfin, hcur⟩ := h.currentRoundInfo_advance (heq.symm.trans hr)
  rw [hcur]
  exact hacc.keeps hfin

/-- An operation that is void stays so unless one that conflicts with it is accepted. -/
theorem Absorbs.step {b : Bool} (h : Absorbs s op) (hs : Inv s) (ha : s.apply op' = .ok (t, b))
    (hc : b = true → ¬ op.Conflicts op') : Absorbs t op := by
  cases b with
  | false =>
    rw [eq_of_apply_false ha]
    exact h
  | true =>
    obtain ⟨hr, ri, hacc, rfl⟩ := apply_true_iff.1 ha
    have hle := (Follows.of_advance hs.round_nonneg hacc).round_le
    refine ⟨h.1.trans hle, fun heq => ?_⟩
    have hrop := h.1
    have hrs : (s.advance ri).round = s.round := by omega
    rw [(hs.currentRoundInfo_advance hrs).2]
    exact (h.2 (by omega)).step hacc (by omega) (hc rfl)

/-- Storing the current round as it is. -/
theorem Inv.advance_currentRoundInfo (h : Inv s) : s.advance s.currentRoundInfo = s := by
  have hfin : ¬ (s.currentRoundInfo.phase = .done ∨ s.currentRoundInfo.phase = .failed) := by
    rcases h.live with hph | hph | hph | hph | hph | hph <;> simp [hph]
  rw [advance_unfinished hfin, setCurrent_eq h.round_nonneg, currentRoundInfo_eq h.round_nonneg,
    Function.update_eq_self]

/-- A copy of an absorbed operation changes nothing. -/
theorem Absorbs.apply_eq (h : Absorbs s op) (hs : Inv s) : ∃ b, s.apply op = .ok (s, b) := by
  obtain ⟨t, b, ha, -⟩ := hs.apply_total op
  cases b with
  | false =>
    rw [eq_of_apply_false ha] at ha
    exact ⟨false, ha⟩
  | true =>
    obtain ⟨hr, ri, hacc, rfl⟩ := apply_true_iff.1 ha
    rw [(h.2 hr).eq hs.current hacc, hs.advance_currentRoundInfo] at ha
    exact ⟨true, ha⟩

end Run

/-- The operation is in the log at a place where it takes effect. -/
def Effective (log : List Op) (op : Op) : Prop :=
  ∃ pre post s t, log = pre ++ op :: post ∧ run apply newStateMachine pre = .ok s ∧
    s.apply op = .ok (t, true)

theorem Effective.append {log : List Op} {op : Op} (h : Effective log op) (log' : List Op) :
    Effective (log ++ log') op := by
  obtain ⟨pre, post, s, t, rfl, hs, ht⟩ := h
  exact ⟨pre, post ++ log', s, t, by simp, hs, ht⟩

/-- No participant has two different messages, or two different keys, that take effect in one
round. -/
def Consistent (log : List Op) : Prop :=
  ∀ a b, Effective log a → Effective log b → ¬ a.Conflicts b

theorem Effective.mem {log : List Op} {op : Op} (h : Effective log op) : op ∈ log := by
  obtain ⟨pre, post, s, t, rfl, -, -⟩ := h
  simp

/-- It is enough that the log contains no conflict at all. -/
theorem consistent_of_forall {log : List Op} (h : ∀ a ∈ log, ∀ b ∈ log, ¬ a.Conflicts b) :
    Consistent log := fun a b ha hb => h a ha.mem b hb.mem

/-- What took effect somewhere in a consistent log is absorbed at its end. -/
theorem Consistent.absorbs {log : List Op} {op : Op} {s : StateMachine} (hc : Consistent log)
    (hop : Effective log op) (hs : run apply newStateMachine log = .ok s) : Absorbs s op := by
  have hcop := fun b => hc op b hop
  obtain ⟨pre, post, s₀, t, rfl, hs₀, ht⟩ := hop
  clear hc
  have hinv₀ : Inv s₀ := Inv.new.of_leads ⟨pre, hs₀⟩
  induction post using List.reverseRecOn generalizing s with
  | nil =>
    obtain ⟨u, hu, hs⟩ := run_append_iff.1 hs
    cases hs₀.symm.trans hu
    obtain ⟨r, hr, hs⟩ := run_cons_iff.1 hs
    cases ht.symm.trans hr
    cases hs
    exact hinv₀.absorbs ht
  | append_singleton post a ih =>
    rw [← List.cons_append, ← List.append_assoc] at hs hcop
    obtain ⟨u, hu, hs⟩ := run_append_iff.1 hs
    obtain ⟨⟨v, b⟩, hr, hs⟩ := run_cons_iff.1 hs
    cases hs
    refine (ih hu fun b hb => hcop b (hb.append [a])).step (Inv.new.of_leads ⟨_, hu⟩) hr
      fun hb => ?_
    subst hb
    exact hcop a ⟨_, [], u, _, rfl, hu, hr⟩

/-! ## Logs with copies -/

/-- An entry of a log in which operations may be delivered again. -/
inductive Entry where
  | original (op : Op)
  | copy (op : Op)

def Entry.op : Entry → Op
  | original op | copy op => op

/-- The log without the copies. -/
def originals (log : List Entry) : List Op :=
  log.filterMap fun
    | .original op => some op
    | .copy _ => none

/-- Every copy is of an operation that took effect before it. -/
def Redelivers (log : List Entry) : Prop :=
  ∀ pre op post, log = pre ++ .copy op :: post → Effective (originals pre) op

/-- **Redelivery is harmless.** In every log, if no participant has two different messages or two
different keys that take effect in one round, copies of operations that took effect earlier change
no state: after every entry the state is the one without the copies. -/
theorem run_of_redelivers {log : List Entry} (hl : Redelivers log)
    (hc : Consistent (originals log)) (pre post : List Entry) (hpre : log = pre ++ post) :
    ∃ s, run apply newStateMachine (pre.map Entry.op) = .ok s ∧
      run apply newStateMachine (originals pre) = .ok s := by
  induction pre using List.reverseRecOn generalizing post with
  | nil => exact ⟨_, rfl, rfl⟩
  | append_singleton pre e ih =>
    rw [List.append_assoc, List.singleton_append] at hpre
    obtain ⟨s, hs, hs'⟩ := ih (e :: post) hpre
    have hinv : Inv s := Inv.new.of_leads ⟨_, hs⟩
    cases e with
    | original op =>
      obtain ⟨t, b, ht, -⟩ := hinv.apply_total op
      have hstep : run apply s [op] = .ok t := run_cons_iff.2 ⟨_, ht, rfl⟩
      refine ⟨t, ?_, ?_⟩
      · rw [List.map_append]
        exact run_append_iff.2 ⟨s, hs, hstep⟩
      · rw [originals, List.filterMap_append]
        exact run_append_iff.2 ⟨s, hs', hstep⟩
    | copy op =>
      have hc' : Consistent (originals pre) := by
        rw [hpre, originals, List.filterMap_append] at hc
        exact fun a b ha hb => hc a b (ha.append _) (hb.append _)
      obtain ⟨b, hb⟩ := (hc'.absorbs (hl pre op post hpre) hs').apply_eq hinv
      refine ⟨s, ?_, ?_⟩
      · rw [List.map_append]
        exact run_append_iff.2 ⟨s, hs, run_cons_iff.2 ⟨_, hb, rfl⟩⟩
      · rw [originals, List.filterMap_append]
        exact run_append_iff.2 ⟨s, hs', rfl⟩

/-- The first of two participants sends its message twice. -/
theorem run_of_redelivers_message :
    let log := [.join 1 0, .join 2 0, .start 1 0 (some ⟨[7]⟩), .message 1 0 ⟨[5]⟩ [8]]
    ∃ s, run apply newStateMachine (log ++ [.message 1 0 ⟨[5]⟩ [8]]) = .ok s ∧
      run apply newStateMachine log = .ok s := by
  refine @run_of_redelivers [.original (.join 1 0), .original (.join 2 0),
    .original (.start 1 0 (some ⟨[7]⟩)), .original (.message 1 0 ⟨[5]⟩ [8]),
    .copy (.message 1 0 ⟨[5]⟩ [8])] ?_ (consistent_of_forall ?_) _ [] (List.append_nil _).symm
  · intro pre op post h
    rcases pre with _ | ⟨e₀, _ | ⟨e₁, _ | ⟨e₂, _ | ⟨e₃, _ | ⟨e₄, pre⟩⟩⟩⟩⟩ <;> simp at h
    obtain ⟨rfl, rfl, rfl, rfl, rfl, rfl⟩ := h
    exact ⟨[.join 1 0, .join 2 0, .start 1 0 (some ⟨[7]⟩)], [], _, _, rfl, rfl, rfl⟩
  · decide

end EggScrambler
