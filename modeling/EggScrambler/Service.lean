import Mathlib
import EggScrambler.Duties
import EggScrambler.Redelivery

/-!
# Operations that a round needs

`Advances c S op` says that `op` is an operation of client `c` that takes the current round of `S`
further.  Three facts are needed to see that the queue of a client does not keep it back.

* `Advances.of_rank_eq`: an operation of the same rank, which the queue may hold instead, is as
  good.
* `Logged.not_advances`: an operation that the queue has finished is in the log and does not advance
  the round any more, because what the log of honest clients has accepted is still there.
* `Advances.exists_step`: an operation that advances the round brings its end closer.

`Deployment.Hosts` says where the participants and the crypto of a round come from.
-/

namespace EggScrambler

open StateMachine Transition

/-! ## What honest participants say -/

section Honest

variable {plan : Plan} {env : Env} {hist : List StateMachine} {op : Op}

/-- A participant has one message and one key for a round with a given crypto. -/
structure Plan.Said (plan : Plan) (env : Env) (mo : Crypto) (op : Op) : Prop where
  message : ∀ id r m hash, op = .message id r m hash →
    op = plan.setup.messageOp env mo id r ∧ mo.getP.Prime
  reveal : ∀ id r key, op = .reveal id r key →
    ∃ keys, mo.genKeys (plan.draws id r) = some keys ∧ key = keys.revealKey

/-- Messages and keys are those of the plan, for the crypto of the round. -/
theorem Honest.said (hexact : env.Exact) (hinv : ∀ S ∈ hist, Inv S)
    (h : Honest (plan.conduct env) hist op) (hty : op.type = .message ∨ op.type = .reveal) :
    ∃ S ∈ hist, ∃ mo, S.round = op.round ∧ 1 ≤ phaseOrder S.currentRoundInfo.phase ∧
      S.currentRoundInfo.crypto = some mo ∧ plan.Said env mo op := by
  cases h with
  | prepare hsm hs h =>
    unfold Client.prepare at h
    split_ifs at h
    cases h
    simp [Op.type] at hty
  | start hsm hmo h =>
    unfold Client.start at h
    split_ifs at h
    cases h
    simp [Op.type] at hty
  | @submit S ri c me op hsm hs hph hme hop =>
    have hprime : ∀ mo, ri.crypto = some mo → mo.getP.Prime := by
      obtain ⟨mo, keys, hmo, hver, -⟩ := hop
      intro mo' hmo'
      rw [hmo] at hmo'
      cases hmo'
      exact (hexact _).1 (Crypto.verify_eq_ok_iff.1 hver).2
    obtain ⟨-, mo, hmo, rfl⟩ := Plan.submits_setup hop
    refine ⟨S, hsm, mo, rfl, ?_, ?_, fun id r m hash heq => ?_, fun id r key heq => by cases heq⟩
    · rw [← hs.phase (hinv S hsm), hph]
      decide
    · rw [← hmo, hs.eq (hinv S hsm)]
    · cases heq
      exact ⟨rfl, hprime mo hmo⟩
  | encrypt hsm hs hph hme hmo hk h =>
    obtain ⟨-, ms, -, rfl⟩ := Client.offer_eq_some_iff.1 h
    simp [Op.type, Stage.op] at hty
  | scramble hsm hs hph hme hturn hmo hk h =>
    obtain ⟨-, ms, -, rfl⟩ := Client.offer_eq_some_iff.1 h
    simp [Op.type, Stage.op] at hty
  | decrypt hsm hs hph hme hmo hk h =>
    obtain ⟨-, ms, -, rfl⟩ := Client.offer_eq_some_iff.1 h
    simp [Op.type, Stage.op] at hty
  | @reveal S ri c me mo keys op hsm hs hph hme hmo hk h =>
    obtain ⟨-, rfl⟩ := Client.reveal_eq_some_iff.1 h
    refine ⟨S, hsm, mo, rfl, ?_, ?_, fun id r m hash heq => (by cases heq), fun id r key heq => ?_⟩
    · rw [← hs.phase (hinv S hsm), hph]
      decide
    · rw [← hmo, hs.eq (hinv S hsm)]
    · cases heq
      exact ⟨keys, hk, rfl⟩
  | abort r => simp [Op.type, Client.abort] at hty

theorem Honest.exists_said (hexact : env.Exact) (hinv : ∀ S ∈ hist, Inv S)
    (h : Honest (plan.conduct env) hist op) (hty : op.type = .message ∨ op.type = .reveal) :
    ∃ mo, plan.Said env mo op := by
  obtain ⟨-, -, mo, -, -, -, hsaid⟩ := h.said hexact hinv hty
  exact ⟨mo, hsaid⟩

/-- The message is not null. -/
theorem Plan.Said.isNil_message {mo : Crypto} {id : UUID} {r : ℤ} {m : Msg} {hash : Bytes}
    (h : plan.Said env mo (.message id r m hash)) : m.isNil = false := by
  obtain ⟨heq, hP⟩ := h.message id r m hash rfl
  cases heq
  rw [← plan.setup.layer_one r hP, plan.setup.encrypt_layer]
  exact plan.setup.isNil_layer r hP _ _

/-- The key is not null. -/
theorem Plan.Said.isNil_reveal {mo : Crypto} {id : UUID} {r : ℤ} {key : PrivateKey}
    (h : plan.Said env mo (.reveal id r key)) : key.isNil = false := by
  obtain ⟨keys, hk, rfl⟩ := h.reveal id r key rfl
  exact Crypto.isNil_genKey (Crypto.genKeys_spec hk).2.2

/-- Nobody says two different things. -/
theorem Plan.Said.not_conflicts {mo : Crypto} {a b : Op} (ha : plan.Said env mo a)
    (hb : plan.Said env mo b) : ¬ a.Conflicts b := by
  intro hc
  cases a with
  | message id r m hash =>
    cases b with
    | message id' r' m' hash' =>
      obtain ⟨rfl, rfl, hne⟩ := hc
      have heq := (ha.message _ _ _ _ rfl).1.trans (hb.message _ _ _ _ rfl).1.symm
      cases heq
      exact hne ⟨rfl, rfl⟩
    | _ => exact hc
  | reveal id r key =>
    cases b with
    | reveal id' r' key' =>
      obtain ⟨rfl, rfl, hne⟩ := hc
      obtain ⟨keys, hk, rfl⟩ := ha.reveal _ _ _ rfl
      obtain ⟨keys', hk', rfl⟩ := hb.reveal _ _ _ rfl
      rw [hk] at hk'
      cases hk'
      exact hne rfl
    | _ => exact hc
  | _ => exact hc

end Honest

theorem Op.Conflicts.types {a b : Op} (h : a.Conflicts b) : a.round = b.round ∧
    (a.type = .message ∨ a.type = .reveal) ∧ (b.type = .message ∨ b.type = .reveal) := by
  cases a with
  | message =>
    cases b with
    | message => exact ⟨h.2.1, Or.inl rfl, Or.inl rfl⟩
    | _ => exact h.elim
  | reveal =>
    cases b with
    | reveal => exact ⟨h.2.1, Or.inr rfl, Or.inr rfl⟩
    | _ => exact h.elim
  | _ => exact h.elim

section Log

variable {ι : Type} {D : Deployment ι} {C : Cluster ι}

theorem Cluster.Faithful.honest_of_mem (h : C.Faithful D) {op : Op} (hop : op ∈ C.log) :
    Honest (D.plan.conduct D.env) (states C.log) op := by
  obtain ⟨n, hn⟩ := List.mem_iff_getElem?.1 hop
  exact (h.log n op hn).1.of_subset (states_take_subset _ _)

/-- The log of honest clients is consistent. -/
theorem Cluster.Faithful.consistent (hexact : D.env.Exact) (h : C.Faithful D) :
    Consistent C.log := by
  refine consistent_of_forall fun a ha b hb hc => ?_
  have hinv : ∀ S ∈ states C.log, Inv S := fun S hS => (reachable_of_mem_states hS).inv
  obtain ⟨hr, hta, htb⟩ := hc.types
  obtain ⟨S, hS, mo, hSr, hSo, hmo, hsa⟩ := (h.honest_of_mem ha).said hexact hinv hta
  obtain ⟨T, hT, mo', hTr, hTo, hmo', hsb⟩ := (h.honest_of_mem hb).said hexact hinv htb
  have heq := crypto_eq_of_mem_states hS hT (by omega) hSo hTo
  rw [hmo, hmo'] at heq
  cases heq
  exact hsa.not_conflicts hsb hc

end Log

/-! ## Operations that the round needs -/

section Advances

variable {plan : Plan} {env : Env} {c : Client} {S : StateMachine} {p : ℕ} {x y : Op}

theorem Advances.type_ne_abort (h : Advances c S x) : x.type ≠ .abort := by
  intro hab
  have hmem := h.type
  rw [hab] at hmem
  simp [roundTypes] at hmem

/-- It has an effect. -/
theorem Advances.apply_ne (h : Advances c S x) (T : StateMachine) : S.apply x ≠ .ok (T, false) := by
  obtain ⟨ri, ha⟩ := h.accepts
  rw [apply_of_accepts h.round ha]
  simp

theorem Advances.guaranteedNoEffect_eq (h : Advances c S x) (hinv : Inv S) :
    S.guaranteedNoEffect x = .ok false := by
  obtain ⟨b, hb⟩ := hinv.guaranteedNoEffect_runs x
  cases b with
  | false => exact hb
  | true => exact absurd (apply_of_guaranteedNoEffect hinv (Leads.refl _) hb) (h.apply_ne S)

/-- Operations of one client and one rank advance the round together. -/
theorem Advances.of_rank_eq (h : Advances c S x) (hr : rank y = rank x) (hid : y.id = some c.id) :
    Advances c S y := by
  obtain ⟨hround, hidx, hprev⟩ := rank_eq_iff.1 hr
  have htype := type_eq_of_opIndex hidx
  refine ⟨hround.trans h.round, hid, htype ▸ h.type, ?_⟩
  have hids := h.id
  have hmem := h.type
  obtain ⟨ri, ha⟩ := h.accepts
  cases ha with
  | join | start | abort => simp [roundTypes, Op.type] at hmem
  | message hph hp hm hh =>
    cases y with
    | message =>
      cases hid
      cases hids
      exact ⟨_, .message hph hp hm hh⟩
    | _ => cases htype
  | @transform st prev id r messages q hph hp hn hf =>
    obtain ⟨r', ms, rfl⟩ : ∃ r' ms, y = st.op id r' ms prev := by
      cases st <;> cases y <;> first
        | cases htype; done
        | cases hid; cases hids; cases hprev; exact ⟨_, _, rfl⟩
    exact ⟨_, .transform st prev hph hp hn hf⟩
  | reveal hph hp hk =>
    cases y with
    | reveal =>
      cases hid
      cases hids
      exact ⟨_, .reveal hph hp hk⟩
    | _ => cases htype

/-- The operations of a stage are built by its helper. -/
theorem Makes.exists_builds (h : Makes env c S x) {st : Stage} (hty : x.type = st.type) :
    ∃ st', Builds c S st' x := by
  cases h with
  | transform hb => exact ⟨_, hb⟩
  | prepare me h =>
    unfold Client.prepare at h
    split_ifs at h
    cases h
    cases st <;> cases hty
  | start crypto hv h =>
    unfold Client.start at h
    split_ifs at h
    cases h
    cases st <;> cases hty
  | submit _ _ _ _ _ hs hph hme h =>
    obtain ⟨m, hash, rfl⟩ := Client.eq_message_of_submit h
    cases st <;> cases hty
  | reveal _ hs hph hme h =>
    obtain ⟨-, rfl⟩ := Client.reveal_eq_some_iff.1 h
    cases st <;> cases hty
  | abort => cases st <;> cases hty

/-- An operation that advances the round in a state is accepted in every state since it was made. -/
theorem Makes.exists_accepts {S₀ T : StateMachine} (hm : Makes env c S₀ x) (h₀ : Inv S₀)
    (h₁ : Leads apply S₀ T) (h₂ : Leads apply T S) (hx : Advances c S x) :
    x.round = T.round ∧ ∃ ri, Accepts T.currentRoundInfo x ri := by
  have ht := hm.timely h₀
  have hT := h₀.of_leads h₁
  have hS := hT.of_leads h₂
  have hf₁ := Follows.of_leads h₀ h₁
  have hf₂ := Follows.of_leads hT h₂
  have hTr : T.round = S₀.round := by
    have := hf₁.round_le
    have := hf₂.round_le
    have := ht.round_eq
    have := hx.round
    omega
  have hSr : S.round = T.round := by
    rw [hTr, ← ht.round_eq, hx.round]
  have hl₁ := hf₁.later_of_round_eq hT.round_nonneg hTr
  have hl₂ := hf₂.later_of_round_eq hS.round_nonneg hSr
  refine ⟨hx.round.trans hSr, ?_⟩
  obtain ⟨ri, ha⟩ := hx.accepts
  have hord : phaseOrder T.currentRoundInfo.phase = phaseOrder S.currentRoundInfo.phase := by
    have := ha.phaseOrder_eq hx.type_ne_abort
    have := ht.phaseOrder_le hx.type_ne_abort
    have := hl₁.order
    have := hl₂.order
    omega
  have hph := hT.live.phaseOrder_injective hS.live hord
  have hmem := hx.type
  have hpos : 1 ≤ phaseOrder T.currentRoundInfo.phase := by
    rw [hord, ha.phaseOrder_eq hx.type_ne_abort]
    generalize x.type = ty at hmem
    revert ty
    decide
  have hparts := (hl₂.fixed hpos).1
  have hindex : ∀ id, S.currentRoundInfo.participantIndex id =
      T.currentRoundInfo.participantIndex id := fun id => by
    rw [RoundInfo.participantIndex, hparts]
    rfl
  cases ha with
  | join | start | abort => simp [roundTypes, Op.type] at hmem
  | message hphS hp hm hh =>
    rw [hindex] at hp
    have hlt := RoundInfo.participantIndex_lt hp
    refine ⟨_, .message (hph.trans hphS) hp ?_ ?_⟩
    · rwa [hT.current.messages_length (by rw [hph, hphS]; decide)]
    · rwa [hT.current.hashes_length]
  | @transform st prev id r messages q hphS hp hn hf =>
    obtain ⟨st', hb⟩ := hm.exists_builds (Stage.type_op st id r messages prev)
    have hap : S.apply (st.op id r messages prev) = .ok (S.advance _, true) :=
      apply_of_accepts hx.round (.transform st prev hphS hp hn hf)
    have heq := (hb.eq_of_accepted h₀ (h₁.trans h₂) hap).2
    -- the number of flags has not changed in between, so nothing has
    have hphb := (hb.spec h₀).1
    have hphT := hph.trans (heq ▸ hphb)
    have hle := (hl₁.ticket _ hphb hphT).1
    have hle' := (hl₂.ticket _ hphT (heq ▸ hphb)).1
    rw [heq] at hle'
    rw [(hl₁.ticket _ hphb hphT).2 (le_antisymm hle hle'), ← heq]
    exact ⟨_, .transform st prev hphS hp hn hf⟩
  | reveal hphS hp hk =>
    rw [hindex] at hp
    refine ⟨_, .reveal (hph.trans hphS) hp ?_⟩
    rw [hT.current.keys_length]
    exact RoundInfo.participantIndex_lt hp

/-- What has left its trace does not advance the round any more. -/
theorem Turn.not_keeps (hturn : Turn S.currentRoundInfo p)
    (hp : S.currentRoundInfo.participantIndex c.id = some p) (hx : Advances c S x)
    (hsaid : x.type = .message ∨ x.type = .reveal → ∃ mo, plan.Said env mo x) :
    ¬ S.currentRoundInfo.Keeps x := by
  intro hk
  have hmem := hx.type
  have hid := hx.id
  obtain ⟨ri, ha⟩ := hx.accepts
  cases ha with
  | join | start | abort => simp [roundTypes, Op.type] at hmem
  | message hph hq hm hh =>
    cases hid
    obtain ⟨q, hq, hmsg, -⟩ := hk.2 hph
    obtain rfl : p = q := Option.some.inj (hp.symm.trans hq)
    cases hturn with
    | submit _ hm hnil =>
      rw [hmsg] at hm
      cases hm
      obtain ⟨mo, hs⟩ := hsaid (Or.inl rfl)
      rw [hs.isNil_message] at hnil
      cases hnil
    | work st hph' =>
      rw [hph] at hph'
      cases st <;> cases hph'
    | reveal hph' =>
      rw [hph] at hph'
      cases hph'
  | @transform st prev id r messages q hph hq hn hf =>
    obtain ⟨-, q', hq', hraised⟩ := RoundInfo.keeps_op.1 hk
    obtain rfl : q = q' := Option.some.inj (hq.symm.trans hq')
    rw [hf] at hraised
    cases hraised
  | reveal hph hq hkey =>
    cases hid
    obtain ⟨q, hq, hkey⟩ := hk.2 hph
    obtain rfl : p = q := Option.some.inj (hp.symm.trans hq)
    cases hturn with
    | submit hph' =>
      rw [hph] at hph'
      cases hph'
    | work st hph' =>
      rw [hph] at hph'
      cases st <;> cases hph'
    | reveal _ hk' hnil =>
      rw [hkey] at hk'
      cases hk'
      obtain ⟨mo, hs⟩ := hsaid (Or.inr rfl)
      rw [hs.isNil_reveal] at hnil
      cases hnil

/-- An operation in the log does not advance the round any more. -/
theorem Logged.not_advances {log : List Op} (hcons : Consistent log)
    (hsaid : x.type = .message ∨ x.type = .reveal → ∃ mo, plan.Said env mo x)
    (hS : run apply newStateMachine log = .ok S) (hturn : Turn S.currentRoundInfo p)
    (hp : S.currentRoundInfo.participantIndex c.id = some p) (h : Logged env c log x) :
    ¬ Advances c S x := by
  intro hx
  obtain ⟨pre, post, rfl, S₀, hS₀, hm⟩ := h
  obtain ⟨T, hT, hrest⟩ := run_append_iff.1 hS
  obtain ⟨hr, ri, ha⟩ := hm.exists_accepts (reachable_of_mem_states hS₀).inv
    (leads_of_mem_trace hT hS₀).2 ⟨_, hrest⟩ hx
  have heff : Effective (pre ++ x :: post) x :=
    ⟨pre, post, T, _, rfl, hT, apply_of_accepts hr ha⟩
  exact hturn.not_keeps hp hx hsaid ((hcons.absorbs heff hS).2 hx.round)

/-- It is one of those that the round needs. -/
theorem Advances.spends {hist : List StateMachine} (hexact : env.Exact)
    (hrun : HonestRun (plan.conduct env) (S :: hist))
    (hop : Honest (plan.conduct env) (S :: hist) x)
    (hsaid : x.type = .message ∨ x.type = .reveal → ∃ mo, plan.Said env mo x)
    (hturn : Turn S.currentRoundInfo p)
    (hp : S.currentRoundInfo.participantIndex c.id = some p) (hx : Advances c S x) {ri : RoundInfo}
    (ha : Accepts S.currentRoundInfo x ri) : Spends S.currentRoundInfo x ri := by
  have hinv : Inv S := Reachable.inv (hrun.leads_of_mem List.mem_cons_self)
  have hap := apply_of_accepts hx.round ha
  have hnext := HonestRun.layered (plan.honestRun_setup hexact (History.next hrun hop hap)) _
    List.mem_cons_self _ _ (getRoundInfo_advance_self hinv.round_nonneg)
  have hmem := hx.type
  have hid := hx.id
  have hlater := ha.later
  cases ha with
  | join | start | abort => simp [roundTypes, Op.type] at hmem
  | message hph hq hm hh =>
    cases hid
    cases hp.symm.trans hq
    cases hturn with
    | submit _ hm hnil =>
      obtain ⟨mo, hs⟩ := hsaid (Or.inl rfl)
      exact spends_putMessage hm hnil hs.isNil_message
    | work st hph' =>
      rw [hph] at hph'
      cases st <;> cases hph'
    | reveal hph' =>
      rw [hph] at hph'
      cases hph'
  | @transform st prev id r messages q hph hq hn hf =>
    have hord : 2 ≤ phaseOrder S.currentRoundInfo.phase := by
      rw [hph]
      exact st.phaseOrder_mem.1
    obtain ⟨mo, hL⟩ := hrun.layered_current hexact (le_trans (by decide) hord)
    -- the round stays layered, so that no message is null afterwards either
    have hunf := RoundInfo.install_unfinished hph q messages
    have hord' := hord.trans hlater.order
    obtain ⟨_, hL'⟩ := hnext.layered (le_trans (by decide) hord') fun hfail => hunf (Or.inr hfail)
    have hnew := hL'.forall_isNil hord' fun hfail => hunf (Or.inr hfail)
    rw [RoundInfo.messages_install] at hnew
    exact spends_install hinv.current st hph hf
      (hL.forall_isNil hord (hph ▸ st.phase_ne_failed)) hnew
  | reveal hph hq hk =>
    cases hid
    cases hp.symm.trans hq
    cases hturn with
    | reveal _ hkey hnil =>
      obtain ⟨mo, hs⟩ := hsaid (Or.inr rfl)
      exact spends_putKey hkey hnil hs.isNil_reveal
    | submit hph' =>
      rw [hph] at hph'
      cases hph'
    | work st hph' =>
      rw [hph] at hph'
      cases st <;> cases hph'

/-- An operation that advances the round brings its end closer. -/
theorem Advances.exists_step {hist : List StateMachine} (hexact : env.Exact)
    (hrun : HonestRun (plan.conduct env) (S :: hist))
    (hop : Honest (plan.conduct env) (S :: hist) x)
    (hsaid : x.type = .message ∨ x.type = .reveal → ∃ mo, plan.Said env mo x)
    (hturn : Turn S.currentRoundInfo p)
    (hp : S.currentRoundInfo.participantIndex c.id = some p) (hx : Advances c S x) :
    ∃ ri, S.apply x = .ok (S.advance ri, true) ∧ Later S.currentRoundInfo ri ∧
      ri.phase ≠ .failed ∧ S.currentRoundInfo.remaining = ri.remaining + 1 := by
  obtain ⟨ri, ha⟩ := hx.accepts
  have hrem := (hx.spends hexact hrun hop hsaid hturn hp ha).remaining_eq hx.type
  refine ⟨ri, apply_of_accepts hx.round ha, ha.later, fun hfail => ?_, hrem⟩
  rw [ha.eq_of_failed hfail] at hrem
  exact absurd hrem (Nat.succ_ne_self _).symm

end Advances

/-! ## Where operations come from -/

section Origin

variable {ι : Type} {D : Deployment ι} {C C' : Cluster ι}

/-- The operation is from a client, and the crypto of a start passes that client's `Verify`. -/
def Deployment.Origin (D : Deployment ι) (op : Op) : Prop :=
  ∀ id, op.id = some id → ∃ i, (D.clients i).id = id ∧ ∀ r mo, op = .start id r (some mo) →
    mo.verify D.env ((D.clients i).messageSize + 16) = .ok ()

/-- All operations are from clients. -/
structure Cluster.Native (D : Deployment ι) (C : Cluster ι) : Prop where
  added : ∀ i, ∀ op ∈ (C.nodes i).submission.added, D.Origin op
  started : ∀ op ∈ C.started, D.Origin op
  log : ∀ op ∈ C.log, D.Origin op

theorem Deployment.origin_abort (D : Deployment ι) (r : ℤ) : D.Origin (Client.abort r) := by
  intro id hid
  cases hid

/-- A goroutine never starts a round. -/
theorem Deployment.origin_of_task {i : ι} {t : Task} {chance : Chance} {op : Op}
    (hop : t.op D.env (D.clients i) chance = .ok (some op)) : D.Origin op := by
  intro id hid
  refine ⟨i, ?_, fun r mo heq => ?_⟩
  · rcases Task.id_of_op hop with hnone | hsome
    · rw [hnone] at hid
      cases hid
    · exact Option.some.inj (hsome.symm.trans hid)
  · subst heq
    have hsends := Task.sends_of_op hop
    cases t <;> cases hsends

namespace Cluster.Native

variable [DecidableEq ι]

theorem put (h : C.Native D) {i : ι} {node : Node}
    (hn : ∀ op ∈ node.submission.added, D.Origin op) : (C.put i node).Native D := by
  refine ⟨fun j => ?_, h.started, h.log⟩
  by_cases hj : j = i
  · subst hj
    simpa [Cluster.put] using hn
  · simpa [Cluster.put, hj] using h.added j

theorem queue (h : C.Native D) {i : ι} {e : SubmissionEvent} {n : ℕ}
    (he : ∀ op, e = .add op → D.Origin op) : (C.put i { C.nodes i with
      submission := (C.nodes i).submission.step e, since := n }).Native D := by
  refine h.put fun op hop => ?_
  rcases Submission.mem_added_step.1 hop with hnew | hold
  · exact he op hnew
  · exact h.added i op hold

/-- Whatever the nodes do, the operations in the log come from the clients. -/
theorem evolves (hhostile : ∀ op, D.hostile op = false) (hs : C.Sound D) (h : C.Native D)
    (he : Evolves D C C') : C'.Native D := by
  cases he with
  | @commit op hop =>
    refine ⟨h.added, h.started, fun op' hop' => ?_⟩
    rcases List.mem_append.1 hop' with hold | hnew
    · exact h.log op' hold
    · rw [List.mem_singleton.1 hnew]
      rcases hop with hop | hop
      · exact h.started op hop
      · rw [hhostile] at hop
        cases hop
  | @apply i | @act i | @flag i => exact h.put (h.added i)
  | @run i t shuffle op ht hop =>
    refine h.queue fun op' heq => ?_
    cases heq
    exact Deployment.origin_of_task hop
  | @start i r stored mo op hmo hop =>
    refine h.queue fun op' heq => ?_
    cases heq
    unfold Client.start at hop
    split_ifs at hop
    cases hop
    intro id hid
    cases hid
    refine ⟨i, rfl, fun r mo' heq => ?_⟩
    cases heq
    exact hmo
  | @abort i stored =>
    refine h.queue fun op' heq => ?_
    cases heq
    exact D.origin_abort _
  | kill => exact ⟨h.added, List.forall_mem_cons.2 ⟨D.origin_abort _, h.started⟩, h.log⟩
  | get | fail | finish => exact h.queue (by simp)
  | @submit i op hin =>
    have hmem := (hs i).tidy.inFlight op hin
    exact ⟨h.added, List.forall_mem_cons.2 ⟨h.added i op hmem, h.started⟩, h.log⟩
  | stay => exact h

theorem of_reachable (hhostile : ∀ op, D.hostile op = false) (h : C.Reachable D) : C.Native D := by
  obtain ⟨events, hrun⟩ := h
  refine (run_preserves (I := fun C => C.Sound D ∧ C.Native D) (fun _ _ _ _ hC hs => ?_)
    ⟨fun _ => Node.Sound.init _ _, by simp, by simp, by simp⟩ hrun).2
  have he := Evolves.of_step hs
  exact ⟨hC.1.evolves he, hC.2.evolves hhostile hC.1 he⟩

end Cluster.Native

/-- The participants of the current round are clients, and one of them has created its crypto. -/
structure Deployment.Hosts (D : Deployment ι) (S : StateMachine) : Prop where
  participants : ∀ id ∈ S.currentRoundInfo.participants, ∃ i, (D.clients i).id = id
  crypto : ∀ mo, S.currentRoundInfo.crypto = some mo →
    ∃ i, mo.verify D.env ((D.clients i).messageSize + 16) = .ok ()

theorem Deployment.hosts_of_run {log : List Op} (hlog : ∀ op ∈ log, D.Origin op)
    {S : StateMachine} (hS : run apply newStateMachine log = .ok S) : D.Hosts S := by
  have hempty : ∀ {S : StateMachine}, S.currentRoundInfo = { phase := .prepare } → D.Hosts S :=
    fun {S} heq => ⟨by simp [heq], by simp [heq]⟩
  induction log using List.reverseRecOn generalizing S with
  | nil =>
    cases hS
    exact hempty rfl
  | append_singleton log op ih =>
    obtain ⟨T, hT, hS⟩ := run_append_iff.1 hS
    obtain ⟨⟨S', b⟩, hap, hS⟩ := run_cons_iff.1 hS
    cases hS
    obtain ⟨horigin, hop⟩ := List.forall_mem_append.1 hlog
    have hop := hop op (List.mem_singleton_self op)
    have hold := ih horigin hT
    have hinv : Inv T := Inv.new.of_leads ⟨_, hT⟩
    cases b with
    | false =>
      rw [eq_of_apply_false hap]
      exact hold
    | true =>
      obtain ⟨hr, ri, ha, rfl⟩ := apply_true_iff.1 hap
      by_cases hfin : ri.phase = .done ∨ ri.phase = .failed
      · refine hempty ?_
        rw [advance_finished hfin,
          currentRoundInfo_nextRound (by simpa using hinv.round_nonneg)]
      · have hcur : (T.advance ri).currentRoundInfo = ri := by
          rw [advance_unfinished hfin, currentRoundInfo_setCurrent hinv.round_nonneg]
        have hsame : ri.participants = T.currentRoundInfo.participants →
            ri.crypto = T.currentRoundInfo.crypto → D.Hosts (T.advance ri) := fun hp hc =>
          ⟨by rw [hcur, hp]; exact hold.participants, by rw [hcur, hc]; exact hold.crypto⟩
        cases ha with
        | @join id r hph hid =>
          refine ⟨fun id' hid' => ?_, by rw [hcur]; exact hold.crypto⟩
          rw [hcur] at hid'
          rcases List.mem_append.1 hid' with hid' | hid'
          · exact hold.participants id' hid'
          · rw [List.mem_singleton.1 hid']
            obtain ⟨i, hi, -⟩ := hop id rfl
            exact ⟨i, hi⟩
        | @start id r crypto hph =>
          refine ⟨by rw [hcur]; exact hold.participants, fun mo hmo => ?_⟩
          rw [hcur] at hmo
          obtain ⟨i, -, hv⟩ := hop id rfl
          exact ⟨i, hv r mo (by rw [← hmo])⟩
        | transform st => exact hsame (by cases st <;> rfl) (by cases st <;> rfl)
        | message | reveal | abort => exact hsame rfl rfl

end Origin

end EggScrambler
