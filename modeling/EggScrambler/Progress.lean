import Mathlib
import EggScrambler.Rep

/-!
# An honest round can always go on

`RoundInfo.pending` counts, for every type of operation, how many of them a round still needs: the
null messages, the flags that are down at each stage, and the null keys.

* `exists_offer`: as long as a round that was started is not over, some participant builds an
  operation from the state as it is.
* `offers_spec`: such an operation is accepted, and one of its type less is needed then.
* `Plays.pending`: so the operations of a whole round add up to what was needed at its start, which
  is `n` of each of the five types for `n` participants.
-/

namespace EggScrambler

open StateMachine Transition

/-! ## What is left to do -/

/-- The type of the operations of a stage. -/
def Stage.type : Stage → OpType
  | encrypt => .encrypted
  | scramble => .scrambled
  | decrypt => .decrypted

@[simp] theorem Stage.type_op (st : Stage) (id : UUID) (r : ℤ) (messages : List Msg) (prev : ℤ) :
    (st.op id r messages prev).type = st.type := by cases st <;> rfl

/-- The types of the operations that take a round from its start to its end. -/
def roundTypes : List OpType := [.message, .encrypted, .scrambled, .decrypted, .reveal]

namespace RoundInfo

/-- How many operations of a type a round still needs. -/
def pending (ri : RoundInfo) : OpType → ℕ
  | .message => ri.messages.countP Msg.isNil
  | .encrypted => ri.participants.length - ri.numEncrypted
  | .scrambled => ri.participants.length - ri.numScrambled
  | .decrypted => ri.participants.length - ri.numDecrypted
  | .reveal => ri.revealedKeys.countP PrivateKey.isNil
  | .join | .start | .abort => 0

theorem pending_type (ri : RoundInfo) (st : Stage) :
    ri.pending st.type = ri.participants.length - numTrue (st.flags ri) := by cases st <;> rfl

/-- How many operations a round still needs. -/
def remaining (ri : RoundInfo) : ℕ := (roundTypes.map ri.pending).sum

end RoundInfo

/-- The operation is one of those that `ri` still needs and `ri'` does not. -/
def Spends (ri : RoundInfo) (op : Op) (ri' : RoundInfo) : Prop :=
  ∀ t, ri.pending t = ri'.pending t + if op.type = t then 1 else 0

section Spends

variable {ri : RoundInfo} {id : UUID} {r : ℤ} {p : ℕ}

theorem countP_set {α : Type} {P : α → Bool} {l : List α} {x y : α} (hx : l[p]? = some x)
    (hPx : P x = true) (hPy : P y = false) : l.countP P = (l.set p y).countP P + 1 := by
  obtain ⟨hlt, rfl⟩ := List.getElem?_eq_some_iff.1 hx
  have hpos : 0 < l.countP P := List.countP_pos_iff.2 ⟨_, List.getElem_mem hlt, hPx⟩
  rw [List.countP_set hlt, hPx, hPy]
  simp only [Bool.false_eq_true, if_true, if_false]
  omega

theorem spends_putMessage {m msg : Msg} {hash : Bytes} (hm : ri.messages[p]? = some m)
    (hnil : m.isNil = true) (hmsg : msg.isNil = false) :
    Spends ri (.message id r msg hash) (ri.putMessage p msg hash) := by
  intro t
  cases t with
  | message => exact countP_set hm hnil hmsg
  | _ => rfl

theorem spends_putKey {k key : PrivateKey} (hk : ri.revealedKeys[p]? = some k)
    (hnil : k.isNil = true) (hkey : key.isNil = false) :
    Spends ri (.reveal id r key) (ri.putKey p key) := by
  intro t
  cases t with
  | reveal => exact countP_set hk hnil hkey
  | _ => rfl

/-- At a stage one flag is raised, and the messages are all there before and after. -/
theorem spends_install (hI : RoundInv ri) (st : Stage) (hph : ri.phase = st.phase) {prev : ℤ}
    (hf : (st.flags ri)[p]? = some false) {messages : List Msg}
    (hold : ∀ m ∈ ri.messages, m.isNil = false) (hnew : ∀ m ∈ messages, m.isNil = false) :
    Spends ri (st.op id r messages prev) (ri.install st p messages) := by
  obtain ⟨hparts, -, hkeys, -⟩ := ri.install_frame st p messages
  have hstage : ∀ st' : Stage, ri.pending st'.type =
      (ri.install st p messages).pending st'.type + if st.type = st'.type then 1 else 0 := by
    intro st'
    rw [RoundInfo.pending_type, RoundInfo.pending_type, hparts]
    by_cases hst : st' = st
    · subst hst
      have hlt := hI.during st' hph
      rw [RoundInfo.flags_install_self, numTrue_set hf, if_pos rfl]
      omega
    · have hne : st.type ≠ st'.type := by
        intro heq
        cases st <;> cases st' <;> first | exact hst rfl | cases heq
      rw [RoundInfo.flags_install_ne _ _ hst, if_neg hne, Nat.add_zero]
  intro t
  rw [Stage.type_op]
  cases t with
  | message =>
    have hzero : ∀ ms : List Msg, (∀ m ∈ ms, m.isNil = false) → ms.countP Msg.isNil = 0 :=
      fun ms hms => List.countP_eq_zero.2 fun m hm => by simp [hms m hm]
    have hne : st.type ≠ .message := by cases st <;> decide
    simp only [RoundInfo.pending, RoundInfo.messages_install, hzero _ hold, hzero _ hnew,
      if_neg hne]
  | encrypted => exact hstage .encrypt
  | scrambled => exact hstage .scramble
  | decrypted => exact hstage .decrypt
  | reveal =>
    have hne : st.type ≠ .reveal := by cases st <;> decide
    simp only [RoundInfo.pending, hkeys, if_neg hne, Nat.add_zero]
  | _ => cases st <;> rfl

/-- Each of these operations brings the end closer by one. -/
theorem Spends.remaining_eq {ri' : RoundInfo} {op : Op} (h : Spends ri op ri')
    (hop : op.type ∈ roundTypes) : ri.remaining = ri'.remaining + 1 := by
  have h₁ := h .message
  have h₂ := h .encrypted
  have h₃ := h .scrambled
  have h₄ := h .decrypted
  have h₅ := h .reveal
  simp only [RoundInfo.remaining, roundTypes, List.map_cons, List.map_nil, List.sum_cons,
    List.sum_nil]
  simp only [roundTypes, List.mem_cons, List.not_mem_nil, or_false] at hop
  rcases hop with hop | hop | hop | hop | hop <;> rw [hop] at h₁ h₂ h₃ h₄ h₅ <;>
    simp only [reduceCtorEq, if_true, if_false] at h₁ h₂ h₃ h₄ h₅ <;> omega

end Spends

/-- At the start of a round everything is left to do. -/
theorem RoundInv.pending_start {ri : RoundInfo} (h : RoundInv ri) (hph : ri.phase = .prepare)
    (crypto : Option Crypto) {t : OpType} (ht : t ∈ roundTypes) :
    RoundInfo.pending { ri with phase := .submit, crypto } t = ri.participants.length := by
  have hstage : ∀ st : Stage,
      RoundInfo.pending { ri with phase := .submit, crypto } st.type = ri.participants.length := by
    intro st
    rw [RoundInfo.pending_type, RoundInfo.flags_start, h.numTrue_eq_zero (by rw [hph]; decide)]
    rfl
  simp only [roundTypes, List.mem_cons, List.not_mem_nil, or_false] at ht
  rcases ht with rfl | rfl | rfl | rfl | rfl
  · rw [← h.messages_length (by rw [hph]; decide)]
    exact List.countP_eq_length.2 (h.prepare_nil hph)
  · exact hstage .encrypt
  · exact hstage .scramble
  · exact hstage .decrypt
  · rw [← h.keys_length]
    exact List.countP_eq_length.2 (h.keys_nil (by rw [hph]; decide))

section Layered

variable {s : Setup} {env : Env} {mo : Crypto} {r : ℤ} {ri : RoundInfo}

theorem Layered.forall_isNil (h : Layered s env mo r ri) (hord : 2 ≤ phaseOrder ri.phase)
    (hph : ri.phase ≠ .failed) : ∀ m ∈ ri.messages, m.isNil = false := by
  intro m hm
  obtain ⟨p, hp⟩ := List.mem_iff_getElem?.1 hm
  exact h.isNil_eq_false hord hph hp

/-- At the end of an honest round nothing is left to do. -/
theorem Layered.pending_of_done (h : Layered s env mo r ri) (hI : RoundInv ri)
    (hph : ri.phase = .done) (t : OpType) : ri.pending t = 0 := by
  have hstage : ∀ st : Stage, ri.pending st.type = 0 := by
    intro st
    have hmem := st.phaseOrder_mem.2
    have hlt : phaseOrder st.phase < phaseOrder ri.phase := by
      rw [hph]
      exact lt_of_le_of_lt hmem (by decide)
    rw [RoundInfo.pending_type, hI.after st hlt (by rw [hph]; decide), Nat.sub_self]
  cases t with
  | message =>
    refine List.countP_eq_zero.2 fun m hm => ?_
    rw [h.forall_isNil (by rw [hph]; decide) (by rw [hph]; decide) m hm]
    decide
  | encrypted => exact hstage .encrypt
  | scrambled => exact hstage .scramble
  | decrypted => exact hstage .decrypt
  | reveal =>
    refine List.countP_eq_zero.2 fun k hk => ?_
    rw [hI.done_keys hph k hk]
    decide
  | _ => rfl

end Layered

/-! ## Rounds that were started -/

/-- A round that was started has participants and a crypto that passes `Verify` for some
`MessageSize`. -/
structure Started (env : Env) (ri : RoundInfo) : Prop where
  participants : ri.participants ≠ []
  crypto : ∃ mo, ri.crypto = some mo ∧ mo.verify env (mo.messageSize + 16) = .ok ()

section Run

variable {plan : Plan} {env : Env} {sm : StateMachine} {hist : List StateMachine}

theorem Honest.started {op : Op} {ri' : RoundInfo} (hop : Honest (plan.conduct env) hist op)
    (hhist : ∀ S ∈ hist, Inv S ∧ Leads apply S sm) (hr : op.round = sm.round)
    (hstarted : 1 ≤ phaseOrder sm.currentRoundInfo.phase → Started env sm.currentRoundInfo)
    (ha : Accepts sm.currentRoundInfo op ri') (hord : 1 ≤ phaseOrder ri'.phase)
    (hfail : ri'.phase ≠ .failed) : Started env ri' := by
  by_cases hcur : 1 ≤ phaseOrder sm.currentRoundInfo.phase
  · obtain ⟨hparts, hcrypto⟩ := ha.later.fixed hcur
    exact ⟨hparts ▸ (hstarted hcur).participants, hcrypto ▸ (hstarted hcur).crypto⟩
  · have hother : ∀ {ph : Phase}, sm.currentRoundInfo.phase = ph → 1 ≤ phaseOrder ph →
        Started env ri' := fun hph hle => absurd (hph ▸ hle) hcur
    -- only a `StartOp` leaves the prepare phase, and it comes from a participant
    cases hop with
    | prepare hsm hs hop =>
      unfold Client.prepare at hop
      split_ifs at hop
      cases hop
      obtain ⟨-, -, rfl⟩ := ha.of_join
      exact absurd hord hcur
    | @start S c round mo op hsm hmo hop =>
      unfold Client.start at hop
      split_ifs at hop with hround hid
      cases hop
      obtain ⟨-, rfl⟩ := ha.of_start
      obtain ⟨size, hv⟩ := hmo
      obtain ⟨hS, hl⟩ := hhist S hsm
      have hSr : sm.round = S.round := hr.symm.trans (not_not.1 hround).symm
      refine ⟨List.ne_nil_of_mem (participants_subset_of_leads hS hl hSr hid), mo, rfl, ?_⟩
      rw [Crypto.messageSize_of_verify hv]
      exact hv
    | submit hsm hs hph hme hop =>
      obtain ⟨-, mo, -, rfl⟩ := Plan.submits_setup hop
      exact hother (Accepts.of_message ha).1 (by decide)
    | encrypt hsm hs hph hme hmo hk hop =>
      obtain ⟨-, rfl⟩ := (Client.encrypt_eq_some_iff hmo).1 hop
      exact hother (Accepts.of_op .encrypt _ ha).1 (by decide)
    | scramble hsm hs hph hme hturn hmo hk hop =>
      obtain ⟨-, rfl⟩ := (Client.scramble_eq_some_iff hmo).1 hop
      exact hother (Accepts.of_op .scramble 0 ha).1 (by decide)
    | decrypt hsm hs hph hme hmo hk hop =>
      obtain ⟨-, rfl⟩ := (Client.decrypt_eq_some_iff hmo).1 hop
      exact hother (Accepts.of_op .decrypt _ ha).1 (by decide)
    | reveal hsm hs hph hme hmo hk hop =>
      obtain ⟨-, rfl⟩ := Client.reveal_eq_some_iff.1 hop
      exact hother ha.of_reveal.1 (by decide)
    | abort r =>
      obtain rfl := ha.of_abort
      exact absurd rfl hfail

/-- In honest runs a round that was started has participants and a crypto to use. -/
theorem HonestRun.started (h : HonestRun (plan.conduct env) hist) : ∀ sm ∈ hist,
    1 ≤ phaseOrder sm.currentRoundInfo.phase → Started env sm.currentRoundInfo := by
  refine h.forall_mem (fun hord => absurd hord (by decide))
    fun sm hist op sm' b hh hall hop hap => ?_
  have hinv : ∀ S ∈ sm :: hist, Inv S := fun S hS => Reachable.inv (hh.leads_of_mem hS)
  have hsm : sm ∈ sm :: hist := List.mem_cons_self
  cases b with
  | false =>
    rw [eq_of_apply_false hap]
    exact hall sm hsm
  | true =>
    obtain ⟨hr, ri, ha, rfl⟩ := apply_true_iff.1 hap
    by_cases hfin : ri.phase = .done ∨ ri.phase = .failed
    · rw [advance_finished hfin,
        currentRoundInfo_nextRound (by simpa using (hinv sm hsm).round_nonneg)]
      exact fun hord => absurd hord (by decide)
    · rw [advance_unfinished hfin, currentRoundInfo_setCurrent (hinv sm hsm).round_nonneg]
      exact fun hord => hop.started (fun S hS => ⟨hinv S hS, hh.leads hS⟩) hr (hall sm hsm) ha hord
        fun hph => hfin (Or.inr hph)

/-- A generated key is not null. -/
theorem Crypto.isNil_genKey {mo : Crypto} {draws : List ℕ} {key : PrivateKey}
    (h : mo.genKey draws = some key) : key.isNil = false := by
  have hpos := (Crypto.genKey_spec h).1
  rw [Bool.eq_false_iff]
  intro hnil
  rw [PrivateKey.getE, List.isEmpty_iff.1 hnil] at hpos
  exact absurd hpos (by decide)

/-! ## One step -/

/-- What client `c` builds from the state `sm` by the plan, as the phase dictates. -/
abbrev Plan.act (plan : Plan) (env : Env) (shuffle : Shuffle) (c : Client) (sm : StateMachine) :
    Option Op := (plan.conduct env).act (plan.submit env) shuffle c sm

section Step

variable (hexact : env.Exact) (h : HonestRun (plan.conduct env) (sm :: hist))
  (hord : 1 ≤ phaseOrder sm.currentRoundInfo.phase)
include hexact h hord

/-- The layers of the current round. -/
theorem HonestRun.layered_current :
    ∃ mo, Layered plan.setup env mo sm.round sm.currentRoundInfo := by
  have hinv : Inv sm := Reachable.inv (h.leads_of_mem List.mem_cons_self)
  have hsm := HonestRun.layered (plan.honestRun_setup hexact h) sm List.mem_cons_self
  exact hsm.layered_current hinv hord

/-- **What a helper builds from a state is accepted there** and is one of the operations needed. -/
theorem HonestRun.act_spec {shuffle : Shuffle} {c : Client} {op : Op}
    (hact : plan.act env shuffle c sm = some op) :
    op.type ∈ roundTypes ∧ ∃ ri', sm.apply op = .ok (sm.advance ri', true) ∧
      Accepts sm.currentRoundInfo op ri' ∧ Spends sm.currentRoundInfo op ri' := by
  have hinv : Inv sm := Reachable.inv (h.leads_of_mem List.mem_cons_self)
  have hI := hinv.current
  obtain ⟨mo, hL⟩ := h.layered_current hexact hord
  have hindex : ∀ {me}, c.me sm.currentRoundInfo = some me →
      sm.currentRoundInfo.participantIndex c.id = some me :=
    fun hme => (Client.me_eq_participantIndex hI.nodup).symm.trans hme
  cases Conduct.Offers.of_act hord hact with
  | @submit me op hph hme hop =>
    obtain ⟨⟨m, hm, hnil⟩, mo', hmo', rfl⟩ :=
      Plan.submits_setup (plan.submits_submit env _ _ _ _ _ hop)
    obtain rfl : mo = mo' := Option.some.inj (hL.crypto.symm.trans hmo')
    have hlt := RoundInfo.participantIndex_lt (hindex hme)
    have ha : Accepts sm.currentRoundInfo (plan.setup.messageOp env mo c.id sm.round) _ :=
      .message hph (hindex hme) (hL.length ▸ hlt) (hI.hashes_length ▸ hlt)
    refine ⟨List.mem_cons_self, _, apply_of_accepts rfl ha, ha, spends_putMessage hm hnil ?_⟩
    rw [← plan.setup.layer_one sm.round hL.prime, plan.setup.encrypt_layer]
    exact plan.setup.isNil_layer sm.round hL.prime _ _
  | @work st me mo' keys hph hme hmo hk hturn hf =>
    have hn : (numTrue (st.flags sm.currentRoundInfo) : ℤ) =
        st.ticket (numTrue (st.flags sm.currentRoundInfo)) me := by
      cases st with
      | scramble => exact congrArg _ (hturn rfl).symm
      | _ => rfl
    have ha : Accepts sm.currentRoundInfo (st.op c.id sm.round
        (st.work mo' keys shuffle me sm.currentRoundInfo.messages)
        (numTrue (st.flags sm.currentRoundInfo))) _ := .transform st _ hph (hindex hme) hn hf
    have hap := apply_of_accepts (by rw [Stage.round_op]) ha
    -- the round stays layered, so that no message is null afterwards either
    have hnext := HonestRun.layered (plan.honestRun_setup hexact (History.next h
      (Conduct.act_honest (plan.submits_submit env) List.mem_cons_self hact) hap)) _
      List.mem_cons_self _ _ (getRoundInfo_advance_self hinv.round_nonneg)
    have hunf := RoundInfo.install_unfinished hph me
      (st.work mo' keys shuffle me sm.currentRoundInfo.messages)
    have hord₂ : 2 ≤ phaseOrder sm.currentRoundInfo.phase := by
      rw [hph]
      exact st.phaseOrder_mem.1
    have hord' := hord₂.trans ha.later.order
    obtain ⟨_, hL'⟩ := hnext.layered (le_trans (by decide) hord') fun hfail => hunf (Or.inr hfail)
    have hnew := hL'.forall_isNil hord' fun hfail => hunf (Or.inr hfail)
    rw [RoundInfo.messages_install] at hnew
    refine ⟨by rw [Stage.type_op]; cases st <;> decide, _, hap, ha,
      spends_install hI st hph hf (hL.forall_isNil hord₂ (hph ▸ st.phase_ne_failed)) hnew⟩
  | @reveal me mo' keys key hph hme hmo hk hkey hnil =>
    have ha : Accepts sm.currentRoundInfo (.reveal c.id sm.round keys.revealKey) _ :=
      .reveal hph (hindex hme) (List.getElem?_eq_some_iff.1 hkey).1
    exact ⟨by simp [roundTypes, Op.type], _, apply_of_accepts rfl ha, ha,
      spends_putKey hkey hnil (Crypto.isNil_genKey (Crypto.genKeys_spec hk).2.2)⟩

end Step

/-- `GenKey` returns for every participant of the current round. -/
def Plan.Supplies (plan : Plan) (sm : StateMachine) : Prop :=
  ∀ mo, sm.currentRoundInfo.crypto = some mo → ∀ id ∈ sm.currentRoundInfo.participants,
    mo.genKeys (plan.draws id sm.round) ≠ none

/-- The participant with index `p` has not yet done what the phase asks for, and may do it now. -/
inductive Turn (ri : RoundInfo) (p : ℕ) : Prop
  | submit {m : Msg} (hph : ri.phase = .submit) (hm : ri.messages[p]? = some m)
      (hnil : m.isNil = true)
  | work (st : Stage) (hph : ri.phase = st.phase) (hf : (st.flags ri)[p]? = some false)
      (hturn : st = .scramble → p = ri.numScrambled)
  | reveal {key : PrivateKey} (hph : ri.phase = .reveal) (hkey : ri.revealedKeys[p]? = some key)
      (hnil : key.isNil = true)

/-- At a stage there is a flag that is down; when messages are scrambled, it is the next one. -/
theorem RoundInv.exists_turn_work {ri : RoundInfo} (hI : RoundInv ri) (st : Stage)
    (hph : ri.phase = st.phase) : ∃ p < ri.participants.length, Turn ri p := by
  have hlt := hI.during st hph
  by_cases hst : st = .scramble
  · subst hst
    have hlt' := hlt
    rw [← hI.flags_length .scramble] at hlt'
    exact ⟨_, hlt, .work .scramble hph ((hI.scrambled_run.numTrue_eq_iff hlt').1 rfl).2
      fun _ => rfl⟩
  · have hdown : false ∈ st.flags ri := by
      by_contra hno
      rw [← hI.flags_length st] at hlt
      refine hlt.ne ((numTrue_eq_length_iff _).2 fun b hb => ?_)
      cases b with
      | true => rfl
      | false => exact absurd hb hno
    obtain ⟨p, hp⟩ := List.mem_iff_getElem?.1 hdown
    exact ⟨p, hI.flags_length st ▸ (List.getElem?_eq_some_iff.1 hp).1,
      .work st hph hp fun h => absurd h hst⟩

/-- Nobody waits for anybody else in vain: it is somebody's turn. -/
theorem RoundInv.exists_turn {ri : RoundInfo} (hI : RoundInv ri) (hlive : ri.phase.Live)
    (hord : 1 ≤ phaseOrder ri.phase) (hne : ri.participants ≠ []) :
    ∃ p < ri.participants.length, Turn ri p := by
  rcases hlive with hph | hph | hph | hph | hph | hph
  · rw [hph] at hord
    exact absurd hord (by decide)
  · obtain ⟨m, hm, hnil⟩ := hI.submit_nil hph hne
    obtain ⟨p, hp⟩ := List.mem_iff_getElem?.1 hm
    have hlt := (List.getElem?_eq_some_iff.1 hp).1
    exact ⟨p, hI.messages_length (by rw [hph]; decide) ▸ hlt, .submit hph hp hnil⟩
  · exact hI.exists_turn_work .encrypt hph
  · exact hI.exists_turn_work .scramble hph
  · exact hI.exists_turn_work .decrypt hph
  · obtain ⟨k, hk, hnil⟩ := hI.reveal_nil hph
    obtain ⟨p, hp⟩ := List.mem_iff_getElem?.1 hk
    exact ⟨p, hI.keys_length ▸ (List.getElem?_eq_some_iff.1 hp).1, .reveal hph hp hnil⟩

/-- A participant that has keys and whose turn it is builds an operation. -/
theorem Turn.exists_act {p : ℕ} (h : Turn sm.currentRoundInfo p) {c : Client} {mo : Crypto}
    {keys : Keys} (hme : c.me sm.currentRoundInfo = some p)
    (hmo : sm.currentRoundInfo.crypto = some mo)
    (hv : mo.verify env (c.messageSize + 16) = .ok ())
    (hk : mo.genKeys (plan.draws c.id sm.round) = some keys) (shuffle : Shuffle) :
    ∃ op, plan.act env shuffle c sm = some op := by
  cases h with
  | submit hph hm hnil =>
    obtain ⟨op, hop⟩ : ∃ op, c.submit env sm.round sm.currentRoundInfo p keys.encryptKey
        keys.revealKey (plan.message c.id sm.round) (plan.nonce c.id sm.round)
        (plan.nonce₂ c.id sm.round) = .ok (some op) :=
      ⟨_, (Client.submit_eq_some_iff (Crypto.bytesMaxSize_of_verify hv) hmo).2
        ⟨⟨_, hm, hnil⟩, rfl⟩⟩
    have hsubmit : plan.submit env c sm.round sm.currentRoundInfo p = some op := by
      simp only [Plan.submit, hmo, hk, hop, hv, Option.bind_eq_bind, Option.bind_some, if_true]
      rfl
    exact ⟨_, (Conduct.Offers.submit hph hme hsubmit).act_eq⟩
  | work st hph hf hturn => exact ⟨_, (Conduct.Offers.work st hph hme hmo hk hturn hf).act_eq⟩
  | reveal hph hkey hnil => exact ⟨_, (Conduct.Offers.reveal hph hme hmo hk hkey hnil).act_eq⟩

/-- Some participant can go on. -/
theorem HonestRun.exists_act (h : HonestRun (plan.conduct env) (sm :: hist))
    (hord : 1 ≤ phaseOrder sm.currentRoundInfo.phase) (hkeys : plan.Supplies sm) :
    ∃ mo id, sm.currentRoundInfo.crypto = some mo ∧ id ∈ sm.currentRoundInfo.participants ∧
      ∀ shuffle, ∃ op, plan.act env shuffle ⟨id, mo.messageSize⟩ sm = some op := by
  have hinv : Inv sm := Reachable.inv (h.leads_of_mem List.mem_cons_self)
  have hI := hinv.current
  obtain ⟨hne, mo, hmo, hv⟩ := HonestRun.started h sm List.mem_cons_self hord
  obtain ⟨p, hp, hturn⟩ := hI.exists_turn hinv.live hord hne
  have hid := List.getElem?_eq_getElem hp
  obtain ⟨keys, hk⟩ := Option.ne_none_iff_exists'.1 (hkeys mo hmo _ (List.getElem_mem hp))
  refine ⟨mo, _, hmo, List.getElem_mem hp, hturn.exists_act ?_ hmo hv hk⟩
  exact (Client.me_eq_participantIndex hI.nodup).trans
    (RoundInfo.participantIndex_of_getElem? hI.nodup hid)

/-! ## Whole rounds -/

/-- The operations `ops` are built and accepted one after the other, each from the state that it is
applied to, in a round that was started. -/
inductive Plays (plan : Plan) (env : Env) : StateMachine → List Op → StateMachine → Prop
  | nil (sm : StateMachine) : Plays plan env sm [] sm
  | cons {sm sm' t : StateMachine} {shuffle : Shuffle} {c : Client} {op : Op} {ops : List Op}
      (hord : 1 ≤ phaseOrder sm.currentRoundInfo.phase)
      (hact : plan.act env shuffle c sm = some op) (hap : sm.apply op = .ok (sm', true))
      (h : Plays plan env sm' ops t) : Plays plan env sm (op :: ops) t

/-- What is known after some operations of a round. -/
structure Played (plan : Plan) (env : Env) (sm : StateMachine) (ops : List Op) (t : StateMachine)
    (ri : RoundInfo) : Prop where
  getRoundInfo : t.getRoundInfo sm.round = .ok ri
  types : ∀ op ∈ ops, op.type ∈ roundTypes
  pending : ∀ ty, sm.currentRoundInfo.pending ty =
    ri.pending ty + ops.countP fun op => op.type = ty
  /-- The round is done and nothing is left to do, or it is the current one. -/
  stands : ri.phase = .done ∧ (∀ ty, ri.pending ty = 0) ∨
    t.round = sm.round ∧ 1 ≤ phaseOrder t.currentRoundInfo.phase ∧ Leads apply sm t ∧
      ∃ hist, HonestRun (plan.conduct env) (t :: hist)

/-- Every operation of a round takes one from what is pending of its type. -/
theorem Plays.played (hexact : env.Exact) {ops : List Op} {t : StateMachine}
    (hp : Plays plan env sm ops t) (h : HonestRun (plan.conduct env) (sm :: hist))
    (hord : 1 ≤ phaseOrder sm.currentRoundInfo.phase) : ∃ ri, Played plan env sm ops t ri := by
  induction hp generalizing hist with
  | nil sm =>
    have hinv : Inv sm := Reachable.inv (h.leads_of_mem List.mem_cons_self)
    exact ⟨sm.currentRoundInfo, getRoundInfo_currentRoundInfo hinv.round_nonneg, by simp, by simp,
      Or.inr ⟨rfl, hord, Leads.refl _, hist, h⟩⟩
  | @cons sm sm' t shuffle c op ops _ hact hap hrest ih =>
    have hinv : Inv sm := Reachable.inv (h.leads_of_mem List.mem_cons_self)
    obtain ⟨htype, ri', hap', ha, hspends⟩ := h.act_spec hexact hord hact
    obtain rfl : sm' = sm.advance ri' := (Prod.mk.inj (Except.ok.inj (hap.symm.trans hap'))).1
    have hnext := History.next h
      (Conduct.act_honest (plan.submits_submit env) List.mem_cons_self hact) hap
    have hget : (sm.advance ri').getRoundInfo sm.round = .ok ri' :=
      getRoundInfo_advance_self hinv.round_nonneg
    have hcount : ∀ ty, sm.currentRoundInfo.pending ty =
        ri'.pending ty + [op].countP fun op => op.type = ty := by
      intro ty
      rw [hspends ty, List.countP_singleton]
      simp only [decide_eq_true_eq]
    by_cases hfin : ri'.phase = .done ∨ ri'.phase = .failed
    · -- the round is over, so that was the last operation
      have hdone : ri'.phase = .done := by
        refine hfin.resolve_right fun hfail => ?_
        have hspent := hspends op.type
        rw [ha.eq_of_failed hfail, if_pos rfl] at hspent
        exact absurd hspent (Nat.succ_ne_self _).symm
      obtain ⟨mo, hL⟩ := (HonestRun.layered (plan.honestRun_setup hexact hnext) _
        List.mem_cons_self _ _ hget).layered (by rw [hdone]; decide) (by rw [hdone]; decide)
      have hprep : (sm.advance ri').currentRoundInfo.phase = .prepare := by
        rw [advance_finished hfin, currentRoundInfo_nextRound (by simpa using hinv.round_nonneg)]
      cases hrest with
      | nil =>
        exact ⟨ri', hget, by simpa using htype, hcount,
          Or.inl ⟨hdone, hL.pending_of_done (ha.roundInv hinv.current) hdone⟩⟩
      | cons hord' =>
        rw [hprep] at hord'
        exact absurd hord' (by decide)
    · have hcur : (sm.advance ri').currentRoundInfo = ri' := by
        rw [advance_unfinished hfin, currentRoundInfo_setCurrent hinv.round_nonneg]
      have hround : (sm.advance ri').round = sm.round := by
        rw [advance_unfinished hfin, round_setCurrent]
      obtain ⟨ri, hplayed⟩ := ih hnext (by rw [hcur]; exact hord.trans ha.later.order)
      refine ⟨ri, hround ▸ hplayed.getRoundInfo, List.forall_mem_cons.2 ⟨htype, hplayed.types⟩,
        fun ty => ?_, hplayed.stands.imp_right fun ⟨hr, hle, hl, hrun⟩ =>
          ⟨hr.trans hround, hle, (Leads.of_step hap).trans hl, hrun⟩⟩
      have hrest := hplayed.pending ty
      rw [hcur] at hrest
      rw [hcount ty, hrest, List.countP_singleton, List.countP_cons]
      omega

/-- What the operations of a round add up to. -/
theorem length_eq_sum_countP {ops : List Op} (h : ∀ op ∈ ops, op.type ∈ roundTypes) :
    ops.length = (roundTypes.map fun ty => ops.countP fun op => op.type = ty).sum := by
  induction ops with
  | nil => rfl
  | cons op ops ih =>
    obtain ⟨hop, hops⟩ := List.forall_mem_cons.1 h
    rw [List.length_cons, ih hops]
    simp only [roundTypes, List.map_cons, List.map_nil, List.sum_cons, List.sum_nil,
      List.countP_cons]
    simp only [roundTypes, List.mem_cons, List.not_mem_nil, or_false] at hop
    rcases hop with hop | hop | hop | hop | hop <;> simp [hop] <;> omega

namespace Played

variable {ops : List Op} {t : StateMachine} {ri : RoundInfo} {n : ℕ}

theorem count_eq (hp : Played plan env sm ops t ri)
    (hneed : ∀ ty ∈ roundTypes, sm.currentRoundInfo.pending ty = n) :
    ∀ ty ∈ roundTypes, n = ri.pending ty + ops.countP fun op => op.type = ty :=
  fun ty hty => (hneed ty hty).symm.trans (hp.pending ty)

theorem length_le (hp : Played plan env sm ops t ri)
    (hneed : ∀ ty ∈ roundTypes, sm.currentRoundInfo.pending ty = n) : ops.length ≤ 5 * n := by
  rw [length_eq_sum_countP hp.types]
  refine List.sum_le_card_nsmul _ n (List.forall_mem_map.2 fun ty hty => ?_)
  rw [hp.count_eq hneed ty hty]
  exact Nat.le_add_left _ _

/-- If nobody can go on, the round is done. -/
theorem done_of_maximal (hexact : env.Exact) (hp : Played plan env sm ops t ri) (hinv : Inv sm)
    (hord : 1 ≤ phaseOrder sm.currentRoundInfo.phase) (hkeys : plan.Supplies sm)
    (hmax : ∀ op t', ¬ Plays plan env t [op] t') :
    ri.phase = .done ∧ ∀ ty, ri.pending ty = 0 := by
  rcases hp.stands with hdone | ⟨hround, hord', hl, hist, hrun⟩
  · exact hdone
  · obtain ⟨hparts, hcrypto⟩ := ((Follows.of_leads hinv hl).later_of_round_eq
      (hinv.of_leads hl).round_nonneg hround).fixed hord
    have hkeys' : plan.Supplies t := by
      unfold Plan.Supplies
      rw [hparts, hcrypto, hround]
      exact hkeys
    obtain ⟨mo, id, -, -, hact⟩ := HonestRun.exists_act hrun hord' hkeys'
    obtain ⟨op, hop⟩ := hact ⟨fun messages => messages, fun _ => List.Perm.refl _⟩
    obtain ⟨-, ri', hap, -⟩ := HonestRun.act_spec hexact hrun hord' hop
    exact absurd (.cons hord' hop hap (.nil _)) (hmax op _)

end Played

/-- Right after a `StartOp` each participant has one operation of each type to send. -/
theorem pending_of_start {S : StateMachine} (hS : Inv S) {id : UUID} {r : ℤ}
    {crypto : Option Crypto} (hstart : S.apply (.start id r crypto) = .ok (sm, true)) :
    ∀ ty ∈ roundTypes, sm.currentRoundInfo.pending ty =
      sm.currentRoundInfo.participants.length := by
  obtain ⟨-, ri, ha, rfl⟩ := apply_true_iff.1 hstart
  obtain ⟨hph, rfl⟩ := ha.of_start
  intro ty hty
  rw [advance_unfinished (by simp), currentRoundInfo_setCurrent hS.round_nonneg]
  exact hS.current.pending_start hph crypto hty

end Run

/-- **Progress.** In every state of an honest run whose round was started, some participant builds
an operation that is accepted, and every operation that is built from that state leaves one less to
do.  If the round was started just now, with `n` participants, then there are at most `5 * n` such
operations one after the other; and if there cannot be another one, then the round is done and they
were `n` of each type. -/
theorem honest_progress (plan : Plan) {env : Env} (hexact : env.Exact) {hist : List StateMachine}
    (h : HonestRun (plan.conduct env) hist) {sm : StateMachine} (hsm : sm ∈ hist)
    (hord : 1 ≤ phaseOrder sm.currentRoundInfo.phase) (hkeys : plan.Supplies sm) :
    (∃ mo id, sm.currentRoundInfo.crypto = some mo ∧ id ∈ sm.currentRoundInfo.participants ∧
      ∀ shuffle, ∃ op sm', plan.act env shuffle ⟨id, mo.messageSize⟩ sm = some op ∧
        sm.apply op = .ok (sm', true)) ∧
    (∀ shuffle c op sm', plan.act env shuffle c sm = some op → sm.apply op = .ok (sm', true) →
      ∃ ri', sm'.getRoundInfo sm.round = .ok ri' ∧
        sm.currentRoundInfo.remaining = ri'.remaining + 1) ∧
    ∀ S id crypto n, StateMachine.Reachable S →
      S.apply (.start id sm.round crypto) = .ok (sm, true) →
      sm.currentRoundInfo.participants.length = n → ∀ ops t, Plays plan env sm ops t →
        ops.length ≤ 5 * n ∧
        ((∀ op t', ¬ Plays plan env t [op] t') → ops.length = 5 * n ∧
          (∀ ty ∈ roundTypes, (ops.countP fun op => op.type = ty) = n) ∧
          ∃ ri, t.getRoundInfo sm.round = .ok ri ∧ ri.phase = .done) := by
  obtain ⟨hist, h⟩ := h.of_mem hsm
  have hinv : Inv sm := Reachable.inv (h.leads_of_mem List.mem_cons_self)
  refine ⟨?_, fun shuffle c op sm' hact hap => ?_, ?_⟩
  · obtain ⟨mo, id, hmo, hid, hact⟩ := HonestRun.exists_act h hord hkeys
    refine ⟨mo, id, hmo, hid, fun shuffle => ?_⟩
    obtain ⟨op, hop⟩ := hact shuffle
    obtain ⟨-, ri', hap, -⟩ := HonestRun.act_spec hexact h hord hop
    exact ⟨op, _, hop, hap⟩
  · obtain ⟨htype, ri', hap', -, hspends⟩ := HonestRun.act_spec hexact h hord hact
    obtain rfl : sm' = sm.advance ri' := (Prod.mk.inj (Except.ok.inj (hap.symm.trans hap'))).1
    exact ⟨ri', getRoundInfo_advance_self hinv.round_nonneg, hspends.remaining_eq htype⟩
  · rintro S id crypto n hS hstart rfl ops t hplays
    have hneed := pending_of_start hS.inv hstart
    obtain ⟨ri, hplayed⟩ := hplays.played hexact h hord
    refine ⟨hplayed.length_le hneed, fun hmax => ?_⟩
    obtain ⟨hdone, hzero⟩ := hplayed.done_of_maximal hexact hinv hord hkeys hmax
    have hall : ∀ ty ∈ roundTypes, (ops.countP fun op => op.type = ty) =
        sm.currentRoundInfo.participants.length := by
      intro ty hty
      rw [hplayed.count_eq hneed ty hty, hzero ty, Nat.zero_add]
    refine ⟨?_, hall, ri, hplayed.getRoundInfo, hdone⟩
    rw [length_eq_sum_countP hplayed.types, List.map_congr_left hall, List.map_const',
      List.sum_replicate]
    rfl

/-- Two participants join and one of them starts the round. -/
theorem honest_progress_pair : ∃ sm hist, sm = begun [1, 2] pairCrypto ∧
    HonestRun (twoPlan.conduct exactEnv) (sm :: hist) ∧
    (∃ mo id, sm.currentRoundInfo.crypto = some mo ∧ id ∈ sm.currentRoundInfo.participants ∧
      ∀ shuffle, ∃ op sm', twoPlan.act exactEnv shuffle ⟨id, mo.messageSize⟩ sm = some op ∧
        sm.apply op = .ok (sm', true)) ∧
    ∀ ops t, Plays twoPlan exactEnv sm ops t →
      (∀ op t', ¬ Plays twoPlan exactEnv t [op] t') → ops.length = 10 := by
  obtain ⟨hist, h⟩ := Conduct.honestRun_of_turns (twoPlan.submits_submit exactEnv)
    ⟨List.reverse, List.reverse_perm⟩
    (History.init : HonestRun (twoPlan.conduct exactEnv) [newStateMachine])
    (fun t ht => starts_twoTurns verify_pairCrypto t (List.mem_of_mem_take ht))
    (run_of_endsIn (t := begun [1, 2] pairCrypto) (by decide +kernel :
      endsIn _ newStateMachine ((twoTurns 2 pairCrypto).take 3) (begun [1, 2] pairCrypto) = true))
  have hkeys : twoPlan.Supplies (begun [1, 2] pairCrypto) := by
    intro mo hmo
    have hcr : (begun [1, 2] pairCrypto).currentRoundInfo.crypto = some pairCrypto := rfl
    obtain rfl : pairCrypto = mo := Option.some.inj (hcr.symm.trans hmo)
    have hgen : ∀ id : UUID, pairCrypto.genKeys (twoPlan.draws id 0) ≠ none := by
      intro id
      change pairCrypto.genKeys ⟨[0], [0], [0]⟩ ≠ none
      decide +kernel
    exact fun id _ => hgen id
  have hjoined : StateMachine.Reachable (joined [1, 2]) :=
    ⟨[.join 1 0, .join 2 0], run_of_endsIn (by decide +kernel)⟩
  obtain ⟨hact, -, hplays⟩ := honest_progress twoPlan exactEnv_exact h List.mem_cons_self
    (by decide) hkeys
  refine ⟨_, hist, rfl, h, hact, fun ops t hp hmax => ?_⟩
  have hstart : (joined [1, 2]).apply (.start 1 0 (some pairCrypto)) =
      .ok (begun [1, 2] pairCrypto, true) :=
    apply_true_iff.2 ⟨rfl, _, .start rfl, by decide +kernel⟩
  exact ((hplays (joined [1, 2]) 1 _ 2 hjoined hstart rfl ops t hp).2 hmax).1

end EggScrambler
