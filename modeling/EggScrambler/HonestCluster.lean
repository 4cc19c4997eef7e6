import Mathlib
import EggScrambler.Cluster
import EggScrambler.KeyHygiene
import EggScrambler.OneShot
import EggScrambler.Success

/-!
# A cluster of honest clients

If nobody else commits operations and the identities of the clients differ, a cluster refines the
honest runs (`cluster_honestRun`), so what is known of these (`Layers.lean`, `Success.lean`) is true
of the interleaved system: its logs, with its channels, its queues and goroutines that wake up late.

`Cluster.Faithful` says what is true of every run.  The keys that a client has drawn and the message
its user was asked for do not change in a round, and every operation that is queued, in flight or
committed comes from a goroutine which was started for a state of the log.
-/

namespace EggScrambler

open StateMachine Transition

/-! ## A participant has spoken before it works -/

/-- The client was asked for its message of round `r`. -/
def Session.Submits (s : Session) (r : ℤ) : Prop := ∃ t ∈ s.tasks, t.submitRound = some r

theorem Session.Sends.submits {env : Env} {c : Client} {s : Session} {id : UUID} {r : ℤ} {m : Msg}
    {hash : Bytes} (h : s.Sends env c (.message id r m hash)) : s.Submits r := by
  obtain ⟨t, ht, chance, hop⟩ := h
  have hsends := Task.sends_of_op hop
  refine ⟨t, ht, ?_⟩
  cases t <;> cases hsends
  rfl

theorem Session.Submits.mono {s s' : Session} {r : ℤ} (h : s.Submits r)
    (hsub : s.tasks ⊆ s'.tasks) : s'.Submits r := by
  obtain ⟨t, ht, hr⟩ := h
  exact ⟨t, hsub ht, hr⟩

/-- The message of the client in round `r`, without which the round does not go on, comes from a
goroutine of the client. -/
structure Spoken (c : Client) (s : Session) (r : ℤ) (ri : RoundInfo) : Prop where
  message : ri.phase = .submit → ∀ (p : ℕ) (m : Msg), ri.participants[p]? = some c.id →
    ri.messages[p]? = some m → m.isNil = false → s.Submits r
  later : 2 ≤ phaseOrder ri.phase → ri.phase ≠ .failed → c.id ∈ ri.participants → s.Submits r

namespace Spoken

variable {env : Env} {c : Client} {s s' : Session} {r : ℤ} {ri ri' : RoundInfo}

theorem mono (h : Spoken c s r ri) (hsub : s.tasks ⊆ s'.tasks) : Spoken c s' r ri where
  message hph p m hp hm hnil := (h.message hph p m hp hm hnil).mono hsub
  later hord hne hid := (h.later hord hne hid).mono hsub

theorem of_prepare (hph : ri.phase = .prepare) : Spoken c s r ri where
  message hph' := by
    rw [hph] at hph'
    cases hph'
  later hord _ := by
    rw [hph] at hord
    exact absurd hord (by decide)

/-- A message of a participant, which may be this one. -/
theorem putMessage (h : Spoken c s r ri) (hI : RoundInv ri) {id : UUID} {q : ℕ} {m : Msg}
    {hash : Bytes} (hph : ri.phase = .submit) (hq : ri.participantIndex id = some q)
    (hown : id = c.id → s.Submits r) : Spoken c s r (ri.putMessage q m hash) := by
  have hold : ∀ (p : ℕ) (m' : Msg), ri.participants[p]? = some c.id →
      (ri.messages.set q m)[p]? = some m' → m'.isNil = false → s.Submits r := by
    intro p m' hp hm' hnil
    by_cases heq : q = p
    · subst heq
      exact hown (Option.some.inj ((RoundInfo.participantIndex_eq_some hq).symm.trans hp))
    · rw [List.getElem?_set_ne heq] at hm'
      exact h.message hph p m' hp hm' hnil
  refine ⟨fun _ => hold, fun hord _ hid => ?_⟩
  -- the last message has come, so there is one of this client
  obtain ⟨p, hp⟩ := List.mem_iff_getElem?.1 hid
  have hlt : p < (ri.messages.set q m).length := by
    rw [List.length_set, hI.messages_length (by rw [hph]; decide)]
    exact (List.getElem?_eq_some_iff.1 hp).1
  refine hold p _ hp (List.getElem?_eq_getElem hlt) ?_
  simp only [RoundInfo.putMessage, hph] at hord
  split_ifs at hord with hany
  · exact absurd hord (by decide)
  · simp only [List.any_eq_true, not_exists, not_and, Bool.not_eq_true] at hany
    exact hany _ (List.getElem_mem hlt)

/-- It stays so after an accepted operation, since the client sends its own. -/
theorem accepts (h : Spoken c s r ri) (hI : RoundInv ri) {op : Op} (ha : Accepts ri op ri')
    (hr : op.round = r) (hown : op.id = some c.id → op.type ≠ .start → s.Sends env c op) :
    Spoken c s r ri' := by
  -- once the messages are there, the participants stay
  have hwork : 2 ≤ phaseOrder ri.phase → ri.phase ≠ .failed → ri'.participants = ri.participants →
      ri'.phase ≠ .submit → Spoken c s r ri' := fun hord hfail hparts hne =>
    ⟨fun hph => absurd hph hne, fun _ _ hid => h.later hord hfail (hparts ▸ hid)⟩
  cases ha with
  | join hph => exact of_prepare hph
  | start hph =>
    refine ⟨fun _ p m hp hm hnil => ?_, fun hord _ => absurd hord (show ¬ 2 ≤ 1 by decide)⟩
    rw [hI.prepare_nil hph m (List.mem_of_getElem? hm)] at hnil
    cases hnil
  | @message id r' m hash q hph hq hm hh =>
    refine h.putMessage hI hph hq fun hid => ?_
    have hsends := hown (by rw [hid]; rfl) (by simp [Op.type])
    exact (show r' = r from hr) ▸ hsends.submits
  | @transform st prev id r' messages q hst hq hn hf =>
    refine hwork (by rw [hst]; cases st <;> decide) (by rw [hst]; cases st <;> decide)
      (by cases st <;> rfl) ?_
    simp only [RoundInfo.install, hst]
    split_ifs <;> cases st <;> decide
  | reveal hph hq hk =>
    refine hwork (by rw [hph]; decide) (by rw [hph]; decide) rfl ?_
    simp only [RoundInfo.putKey, hph]
    split_ifs <;> decide
  | abort => exact ⟨by simp, fun _ hne => absurd rfl hne⟩

end Spoken

/-- A participant has spoken before it works. -/
theorem HonestWorld.spoken {plan : Plan} {env : Env} {c : Client} {hist : List StateMachine}
    {w : World} (h : HonestWorld plan env c hist w) :
    ∀ S ∈ hist, ∀ r ri, S.getRoundInfo r = .ok ri → Spoken c w.session r ri := by
  induction h with
  | init =>
    rintro S hS r ri hri
    rw [List.mem_singleton.1 hS] at hri
    obtain ⟨h₀, hle, -, rfl⟩ := getRoundInfo_eq_ok_iff.1 hri
    obtain rfl : r = 0 := le_antisymm hle h₀
    exact .of_prepare rfl
  | @commit hist w w' op b h hop hown hs ih =>
    have hst := Steps.of_step hs
    have hinv : Inv w.sm := Reachable.inv (h.honestRun.1.leads_of_mem h.sm_mem)
    have hsub := World.tasks_subset hst
    intro S hS r ri hri
    rcases List.mem_cons.1 hS with rfl | hS
    · obtain ⟨b', hap⟩ := World.apply_of_commit hst
      cases b' with
      | false =>
        rw [eq_of_apply_false hap] at hri
        exact (ih w.sm h.sm_mem r ri hri).mono hsub
      | true =>
        obtain ⟨hr, ri', ha, heq⟩ := apply_true_iff.1 hap
        rw [heq] at hri
        rcases getRoundInfo_advance hinv.round_nonneg hri with ⟨-, hold⟩ | ⟨rfl, rfl⟩ | ⟨rfl, rfl⟩
        · exact (ih w.sm h.sm_mem r ri hold).mono hsub
        · have hcur := ih w.sm h.sm_mem _ _ (getRoundInfo_currentRoundInfo hinv.round_nonneg)
          exact (hcur.accepts hinv.current ha hr hown).mono hsub
        · exact .of_prepare rfl
    · exact (ih S hS r ri hri).mono hsub
  | other h hact hs ih =>
    intro S hS r ri hri
    exact (ih S hS r ri hri).mono (World.tasks_subset (Steps.of_step hs))

/-! ## The keys are those of the plan -/

theorem Reads.submitRound_of_mem {env : Env} {c : Client} {active : Bool} {draws : Draws}
    {rd : Reader} {v : StateMachine} {a : Reaction} (h : Reads env c active draws rd v a) {t : Task}
    (ht : t ∈ a.tasks) {r : ℤ} (hr : t.submitRound = some r) :
    r = v.round ∧ v.round ≤ a.reader.lastKeyGen := by
  cases h with
  | result hph hp hlast =>
    rcases List.mem_cons.1 ht with rfl | ht
    · cases hr
    · obtain ⟨me, rfl⟩ := hp t ht
      cases hr
  | prepare hph hp hlast =>
    obtain ⟨me, rfl⟩ := hp t ht
    cases hr
  | idle => cases ht
  | generate hph hme hlast hmo hv hk =>
    rw [Reader.eq_of_mem_submitOnce ht] at hr
    cases hr
    rw [Reader.submitOnce_frame]
    exact ⟨rfl, le_rfl⟩
  | submit hph hme hlast =>
    rw [Reader.eq_of_mem_submitOnce ht] at hr
    cases hr
    rw [Reader.submitOnce_frame]
    exact ⟨rfl, hlast⟩
  | _ =>
    rw [List.mem_singleton.1 ht] at hr
    cases hr

/-- Who was asked for a message has generated keys. -/
theorem World.Reachable.generated_of_submits {env : Env} {c : Client} {w : World}
    (h : World.Reachable env c w) {r : ℤ} (hs : w.session.Submits r) :
    ∃ g ∈ w.session.generated, g.round = r := by
  obtain ⟨t, ht, hr⟩ := hs
  refine World.session_induction_of
    (P := fun s => ∀ t ∈ s.tasks, ∀ r, t.submitRound = some r → ∃ g ∈ s.generated, g.round = r)
    KeyInv.of_reachable (by simp) ?_ ?_ h t ht r hr
  · intro s v active draws a hk hs hnext ha t ht r hr
    rcases List.mem_append.1 ht with ht | ht
    · obtain ⟨rfl, hle⟩ := ha.submitRound_of_mem ht hr
      have hbound := hk.bound_read hnext ha
      have h₀ := hnext.view.inv.round_nonneg
      obtain ⟨g, hg, hgr, -⟩ := KeyInv.keys_read hk ha (by omega)
      exact ⟨g, hg, by omega⟩
    · obtain ⟨g, hg, hgr⟩ := hs t ht r hr
      exact ⟨g, List.mem_append_right _ hg, hgr⟩
  · intro s active leaving stored hs t ht r hr
    rcases List.mem_append.1 ht with ht | ht
    · obtain ⟨me, rfl⟩ := Reader.eq_of_mem_prepares ht
      cases hr
    · exact hs t ht r hr

theorem KeyInv.le_lastKeyGen {env : Env} {c : Client} {s : Session} (h : KeyInv env c s)
    {g : Generation} (hg : g ∈ s.generated) : g.round ≤ s.reader.lastKeyGen := by
  obtain ⟨-, -, x, hx, hacc, hxr⟩ := h.generated g hg
  exact hxr ▸ h.accepted x hx hacc

/-- Keys were drawn as planned, under the crypto of an update of their round. -/
def Session.Planned (plan : Plan) (c : Client) (s : Session) : Prop :=
  ∀ g ∈ s.generated, g.crypto.genKeys (plan.draws c.id g.round) = some g.keys ∧
    ∃ x ∈ s.reads, x.sm.round = g.round ∧ x.sm.currentRoundInfo.phase = .submit ∧
      x.sm.currentRoundInfo.crypto = some g.crypto

theorem Session.Planned.react {plan : Plan} {env : Env} {c : Client} {s : Session} {active : Bool}
    {v : StateMachine} {a : Reaction} (h : s.Planned plan c)
    (ha : Reads env c active (plan.draws c.id v.round) s.reader v a) :
    (s.react ⟨v, active⟩ a).Planned plan c := by
  have hold : ∀ g ∈ s.generated, g.crypto.genKeys (plan.draws c.id g.round) = some g.keys ∧
      ∃ x ∈ (s.react ⟨v, active⟩ a).reads, x.sm.round = g.round ∧
        x.sm.currentRoundInfo.phase = .submit ∧ x.sm.currentRoundInfo.crypto = some g.crypto := by
    intro g hg
    obtain ⟨hk, x, hx, hround⟩ := h g hg
    exact ⟨hk, x, List.mem_cons_of_mem _ hx, hround⟩
  intro g hg
  rw [Session.generated_react] at hg
  rcases ha.keys_cases with ⟨hnone, -⟩ | ⟨mo, keys, hsome, -, -, hacc, hmo, -, hk⟩
  · rw [hnone] at hg
    exact hold g hg
  · rw [hsome] at hg
    rcases List.mem_cons.1 hg with rfl | hg
    · exact ⟨hk, _, List.mem_cons_self, rfl, hacc.1, hmo⟩
    · exact hold g hg

/-- The crypto of a round does not change once the round has started. -/
theorem crypto_eq_of_mem_states {log : List Op} {S T : StateMachine} (hS : S ∈ states log)
    (hT : T ∈ states log) (hr : S.round = T.round)
    (hs : 1 ≤ phaseOrder S.currentRoundInfo.phase) (ht : 1 ≤ phaseOrder T.currentRoundInfo.phase) :
    S.currentRoundInfo.crypto = T.currentRoundInfo.crypto := by
  have hSi := (reachable_of_mem_states hS).inv
  have hTi := (reachable_of_mem_states hT).inv
  rcases follows_total_of_mem_states hS hT with hf | hf
  · exact ((hf.later_of_round_eq hTi.round_nonneg hr.symm).fixed hs).2.symm
  · exact ((hf.later_of_round_eq hSi.round_nonneg hr).fixed ht).2

/-- The keys that a client uses in round `v.round`. -/
def Crypto.Keyed (plan : Plan) (env : Env) (c : Client) (v : StateMachine) (keys : Keys) : Prop :=
  ∃ mo, v.currentRoundInfo.crypto = some mo ∧ mo.verify env (c.messageSize + 16) = .ok () ∧
    mo.genKeys (plan.draws c.id v.round) = some keys

section Read

variable {plan : Plan} {env : Env} {c : Client} {w : World} {log : List Op} {v : StateMachine}
  {ch : List StateMachine}

/-- The keys of the round that a client reads an update of, once it has generated them. -/
theorem Session.Planned.keyed (h : w.session.Planned plan c) (hw : World.Reachable env c w)
    (hup : ∀ v ∈ w.updates, v ∈ states log) (hch : w.updCh = some (v :: ch))
    (hord : 1 ≤ phaseOrder v.currentRoundInfo.phase)
    (hlast : v.round ≤ w.session.reader.lastKeyGen) :
    Crypto.Keyed plan env c v w.session.reader.keys := by
  have hk := KeyInv.of_reachable hw
  have hnext := (Delivered.of_reachable hw).next hch
  have hround := hnext.follows.round_le
  have hbound := hk.bound
  have h₀ := hnext.view.inv.round_nonneg
  obtain ⟨g, hg, hgr, hgk⟩ := hk.keys (by omega)
  obtain ⟨hkeys, x, hx, hxr, hxph, hxmo⟩ := h g hg
  have hxv : x.sm.round = v.round := by omega
  have hmo := crypto_eq_of_mem_states
    (hup x.sm (List.mem_append_right _ (List.mem_map_of_mem hx)))
    (hup v (by simp [World.updates, hch])) hxv (by rw [hxph]; decide) hord
  refine ⟨g.crypto, hmo ▸ hxmo, (hk.generated g hg).1, ?_⟩
  rw [← hxv, hxr, ← hgk]
  exact hkeys

/-- A participant that reads an update of a round at work has the keys of the round. -/
theorem HonestWorld.keyed {hist : List StateMachine} (h : HonestWorld plan env c hist w)
    (hp : w.session.Planned plan c) (hhist : hist ⊆ states log)
    (hup : ∀ v ∈ w.updates, v ∈ hist) (hch : w.updCh = some (v :: ch)) {active : Bool} {me : ℕ}
    (hme : c.business active v = some me) (hord : 2 ≤ phaseOrder v.currentRoundInfo.phase) :
    Crypto.Keyed plan env c v w.session.reader.keys := by
  have hv : v ∈ hist := hup v (by simp [World.updates, hch])
  have hid : c.id ∈ v.currentRoundInfo.participants :=
    List.mem_of_getElem? ((Client.foldl_zipIdx _).1 me (Client.me_of_business hme))
  have hinv : Inv v := Reachable.inv (h.honestRun.1.leads_of_mem hv)
  have hlive := hinv.live.unfinished
  have hsub := (h.spoken v hv _ _ (getRoundInfo_currentRoundInfo hinv.round_nonneg)).later hord
    (fun hf => hlive (Or.inr hf)) hid
  obtain ⟨g, hg, hgr⟩ := h.reachable.generated_of_submits hsub
  exact hp.keyed h.reachable (fun u hu => hhist (hup u hu)) hch (by omega)
    (hgr ▸ (KeyInv.of_reachable h.reachable).le_lastKeyGen hg)

end Read

/-! ## The goroutines are honest -/

/-- More states to build operations from. -/
theorem Honest.of_subset {k : Conduct} {hist hist' : List StateMachine} {op : Op}
    (h : Honest k hist op) (hsub : hist ⊆ hist') : Honest k hist' op := by
  cases h with
  | prepare hsm hs h => exact .prepare (hsub hsm) hs h
  | start hsm hmo h => exact .start (hsub hsm) hmo h
  | submit hsm hs hph hme h => exact .submit (hsub hsm) hs hph hme h
  | encrypt hsm hs hph hme hmo hk h => exact .encrypt (hsub hsm) hs hph hme hmo hk h
  | scramble hsm hs hph hme ht hmo hk h => exact .scramble (hsub hsm) hs hph hme ht hmo hk h
  | decrypt hsm hs hph hme hmo hk h => exact .decrypt (hsub hsm) hs hph hme hmo hk h
  | reveal hsm hs hph hme hmo hk h => exact .reveal (hsub hsm) hs hph hme hmo hk h
  | abort r => exact .abort r

section Tasks

variable {plan : Plan} {env : Env} {c : Client} {active leaving : Bool} {draws : Draws}
  {rd : Reader} {v : StateMachine} {a : Reaction}

/-- A goroutine that one turn of the loop starts, other than a join. -/
theorem Reads.honest {hist : List StateMachine} (hv : v ∈ hist)
    (ha : Reads env c active (plan.draws c.id v.round) rd v a)
    (hsub : v.currentRoundInfo.phase = .submit → v.round ≤ rd.lastKeyGen →
      Crypto.Keyed plan env c v rd.keys)
    (hwork : ∀ me, c.business active v = some me → 2 ≤ phaseOrder v.currentRoundInfo.phase →
      Crypto.Keyed plan env c v rd.keys)
    {t : Task} (ht : t ∈ a.tasks) (hjoin : ∀ r me, t ≠ .prepare r me) {shuffle : Shuffle} {op : Op}
    (hop : t.op env c (plan.chance c.id t shuffle) = .ok (some op)) :
    Honest (plan.conduct env) hist op := by
  cases ha with
  | result hph hp hlast =>
    rcases List.mem_cons.1 ht with rfl | ht
    · exact absurd hop Task.op_sendRoundResult_ne
    · obtain ⟨me, rfl⟩ := hp t ht
      exact absurd rfl (hjoin _ _)
  | prepare hph hp hlast =>
    obtain ⟨me, rfl⟩ := hp t ht
    exact absurd rfl (hjoin _ _)
  | idle => cases ht
  | refuse hph hme hmo =>
    rw [List.mem_singleton.1 ht] at hop
    cases hop
    exact .abort _
  | generate hph hme hlast hmo hver hk =>
    rw [Reader.eq_of_mem_submitOnce ht] at hop
    exact .submit hv (Or.inl rfl) hph (Client.me_of_business hme) ⟨_, _, hmo, hver, hk, hop⟩
  | submit hph hme hlast =>
    rw [Reader.eq_of_mem_submitOnce ht] at hop
    obtain ⟨mo, hmo, hver, hk⟩ := hsub hph hlast
    exact .submit hv (Or.inl rfl) hph (Client.me_of_business hme) ⟨mo, _, hmo, hver, hk, hop⟩
  | encrypt hph hme =>
    rw [List.mem_singleton.1 ht] at hop
    obtain ⟨mo, hmo, -, hk⟩ := hwork _ hme (by rw [hph]; decide)
    exact .encrypt hv (Or.inl rfl) hph (Client.me_of_business hme) hmo hk hop
  | scramble hph hme hlast hturn =>
    rw [List.mem_singleton.1 ht] at hop
    obtain ⟨mo, hmo, -, hk⟩ := hwork _ hme (by rw [hph]; decide)
    exact .scramble hv (Or.inl rfl) hph (Client.me_of_business hme) hturn hmo hk hop
  | decrypt hph hme =>
    rw [List.mem_singleton.1 ht] at hop
    obtain ⟨mo, hmo, -, hk⟩ := hwork _ hme (by rw [hph]; decide)
    exact .decrypt hv (Or.inl rfl) hph (Client.me_of_business hme) hmo hk hop
  | reveal hph hme =>
    rw [List.mem_singleton.1 ht] at hop
    obtain ⟨mo, hmo, -, hk⟩ := hwork _ hme (by rw [hph]; decide)
    exact .reveal hv (Or.inl rfl) hph (Client.me_of_business hme) hmo hk hop

theorem Reader.eq_prepare_of_mem {r : ℤ} {me : Option ℕ}
    (h : .prepare r me ∈ prepares c active leaving v) :
    r = v.round ∧ me = c.me v.currentRoundInfo := by
  unfold prepares at h
  split_ifs at h
  · simpa using h
  · cases h

/-- `prepare` is handed the index of the client. -/
theorem Reader.prepare_of_update (h : rd.update env c active leaving draws v = .ok (some a))
    {r : ℤ} {me : Option ℕ} (ht : .prepare r me ∈ a.tasks) :
    r = v.round ∧ me = c.me v.currentRoundInfo := by
  have ha := Reads.of_update h
  by_cases hph : v.currentRoundInfo.phase = .prepare
  · obtain ⟨-, -, h⟩ := bind_eq_ok_iff.1 h
    simp only [hph] at h
    obtain ⟨a', ha', h⟩ := bind_eq_ok_iff.1 h
    cases h
    unfold onPrepare at ha'
    simp only at ha'
    split_ifs at ha'
    · obtain ⟨-, -, ha'⟩ := bind_eq_ok_iff.1 ha'
      cases ha'
      exact eq_prepare_of_mem (by simpa using ht)
    · cases ha'
      exact eq_prepare_of_mem ht
  · cases ha with
    | result hph' | prepare hph' => exact absurd hph' hph
    | idle => cases ht
    | generate | submit => cases eq_of_mem_submitOnce ht
    | _ => cases List.mem_singleton.1 ht

/-- A step starts joins only for the states that the client sees. -/
theorem World.prepare_of_step {w w' : World} {act : Action} {b : Bool}
    (h : w.step env c act = .ok (w', b)) {r : ℤ} {me : Option ℕ}
    (ht : .prepare r me ∈ w'.session.tasks) : .prepare r me ∈ w.session.tasks ∨
      ∃ v, (v ∈ w.updates ∨ v = newStateMachine) ∧ r = v.round ∧ me = c.me v.currentRoundInfo := by
  cases act with
  | read active leaving draws =>
    unfold World.step at h
    simp only at h
    split at h
    · rename_i v ch hch
      obtain ⟨a, ha, h⟩ := bind_eq_ok_iff.1 h
      cases a with
      | none =>
        cases h
        exact Or.inl ht
      | some a =>
        cases h
        rcases List.mem_append.1 ht with ht | ht
        · exact Or.inr ⟨v, Or.inl (by simp [World.updates, hch]), Reader.prepare_of_update ha ht⟩
        · exact Or.inl ht
    · cases h
      exact Or.inl ht
  | configure active leaving stored =>
    cases h
    rcases List.mem_append.1 ht with ht | ht
    · refine Or.inr ⟨w.session.stored stored, ?_, Reader.eq_prepare_of_mem ht⟩
      rcases w.session.stored_cases stored with hnew | ⟨x, hx, hst⟩
      · exact Or.inr hnew
      · exact Or.inl (List.mem_append_right _ (hst ▸ List.mem_map_of_mem hx))
    · exact Or.inl ht
  | commit op | subscribe =>
    left
    cases Steps.of_step h <;> exact ht

/-- A goroutine sends operations in the name of its client. -/
theorem Task.id_of_op {t : Task} {chance : Chance} {op : Op}
    (h : t.op env c chance = .ok (some op)) : op.id = none ∨ op.id = some c.id := by
  cases t with
  | sendRoundResult => exact absurd h op_sendRoundResult_ne
  | prepare r me =>
    have h : c.prepare r me = some op := Except.ok.inj h
    unfold Client.prepare at h
    split_ifs at h
    cases h
    exact Or.inr rfl
  | abort r =>
    cases h
    exact Or.inl rfl
  | submit r ri me encryptKey revealKey =>
    obtain ⟨m, hash, rfl⟩ := Client.eq_message_of_submit h
    exact Or.inr rfl
  | encrypt r ri me encryptKey =>
    obtain ⟨-, ms, -, rfl⟩ := Client.offer_eq_some_iff.1 h
    exact Or.inr rfl
  | scramble r ri me scrambleKey revealKey =>
    obtain ⟨-, ms, -, rfl⟩ := Client.offer_eq_some_iff.1 h
    exact Or.inr rfl
  | decrypt r ri me scrambleKey encryptKey =>
    obtain ⟨-, ms, -, rfl⟩ := Client.offer_eq_some_iff.1 h
    exact Or.inr rfl
  | reveal r ri me revealKey =>
    obtain ⟨-, rfl⟩ := Client.reveal_eq_some_iff.1 h
    exact Or.inr rfl

end Tasks

/-! ## Whole runs -/

/-- A node of a cluster of honest clients. -/
structure Node.Faithful (plan : Plan) (env : Env) (c : Client) (log : List Op) (node : Node) :
    Prop where
  world : HonestWorld plan env c (states (log.take node.applied)) node.world
  planned : node.world.session.Planned plan c
  tasks : ∀ t ∈ node.world.session.tasks, ∀ shuffle op,
    t.op env c (plan.chance c.id t shuffle) = .ok (some op) →
      Honest (plan.conduct env) (states log) op
  added : ∀ op ∈ node.submission.added, Honest (plan.conduct env) (states log) op
  /-- What is added in the client's name comes from its goroutines. -/
  own : ∀ op ∈ node.submission.added, op.id = none ∨
    op.id = some c.id ∧ (op.type ≠ .start → node.world.session.Sends env c op)

theorem Session.Sends.mono {env : Env} {c : Client} {s s' : Session} {op : Op}
    (h : s.Sends env c op) (hsub : s.tasks ⊆ s'.tasks) : s'.Sends env c op := by
  obtain ⟨t, ht, hop⟩ := h
  exact ⟨t, hsub ht, hop⟩

namespace Node.Faithful

variable {plan : Plan} {env : Env} {c : Client} {log : List Op} {node : Node}

theorem init (plan : Plan) (env : Env) (c : Client) : Node.Faithful plan env c [] {} where
  world := .init
  planned := by simp [Session.Planned]
  tasks := by simp
  added := by simp
  own := by simp

theorem commit (h : node.Faithful plan env c log) (hle : node.applied ≤ log.length) (op : Op) :
    node.Faithful plan env c (log ++ [op]) where
  world := by
    rw [List.take_append_of_le_length hle]
    exact h.world
  planned := h.planned
  tasks t ht shuffle op hop := (h.tasks t ht shuffle op hop).of_subset (states_mono _ _)
  added op hop := (h.added op hop).of_subset (states_mono _ _)
  own := h.own

/-- The server applies the next entry. -/
theorem apply (h : node.Faithful plan env c log) (hs : node.Sound env c log) {op : Op}
    {w' : World} {b : Bool} (hget : log[node.applied]? = some op)
    (hop : Honest (plan.conduct env) (states (log.take node.applied)) op)
    (hown : op.id = some c.id → op.type ≠ .start → node.world.session.Sends env c op)
    (hstep : node.world.step env c (.commit op) = .ok (w', b)) :
    Node.Faithful plan env c log { node with world := w', applied := node.applied + 1 } := by
  have hst := Steps.of_step hstep
  obtain ⟨b', hap⟩ := World.apply_of_commit hst
  have hstates : states (log.take (node.applied + 1)) =
      w'.sm :: states (log.take node.applied) := by
    rw [List.take_add_one, hget]
    exact trace_concat hs.sm hap
  have hsess : w'.session = node.world.session := by cases hst <;> rfl
  exact {
    world := by
      rw [hstates]
      exact .commit h.world hop hown hstep
    planned := hsess ▸ h.planned
    tasks := hsess ▸ h.tasks
    added := h.added
    own := hsess ▸ h.own }

/-- The client does something. -/
theorem act (hexact : env.Exact) (h : node.Faithful plan env c log) {a : Action} {w' : World}
    {b : Bool} (ha : ∀ op, a ≠ .commit op) (hdraws : ∀ active leaving draws,
      a = .read active leaving draws → draws = plan.draws c.id node.world.nextRound)
    (hstep : node.world.step env c a = .ok (w', b)) :
    Node.Faithful plan env c log { node with world := w' } := by
  have hst := Steps.of_step hstep
  have hup := h.world.mem_of_mem_updates hexact
  have hsub := states_take_subset log node.applied
  refine ⟨.other h.world ha hstep, ?_, fun t ht shuffle op hop => ?_, h.added,
    fun op hop => (h.own op hop).imp_right (And.imp_right fun hs hty =>
      (hs hty).mono (World.tasks_subset hst))⟩
  · cases hst with
    | @read active leaving draws v ch r hch hr =>
      obtain rfl : draws = plan.draws c.id v.round := by
        rw [hdraws _ _ _ rfl, World.nextRound, hch]
        rfl
      exact h.planned.react hr
    | _ => exact h.planned
  · by_cases hjoin : ∃ r me, t = .prepare r me
    · obtain ⟨r, me, rfl⟩ := hjoin
      rcases World.prepare_of_step hstep ht with hold | ⟨v, hv, rfl, rfl⟩
      · exact h.tasks _ hold shuffle op hop
      · have hv : v ∈ states log := by
          rcases hv with hv | rfl
          · exact hsub (hup v hv)
          · exact mem_trace_self _ _
        exact .prepare hv (Or.inl rfl) (Except.ok.inj hop)
    · cases hst with
      | @read active leaving draws v ch r hch hr =>
        obtain rfl : draws = plan.draws c.id v.round := by
          rw [hdraws _ _ _ rfl, World.nextRound, hch]
          rfl
        rcases List.mem_append.1 ht with ht | ht
        · refine hr.honest (hsub (hup v (by simp [World.updates, hch])))
            (fun hph hlast => ?_) (fun me hme hord => ?_) ht
            (fun r me heq => hjoin ⟨r, me, heq⟩) hop
          · exact h.planned.keyed h.world.reachable (fun u hu => hsub (hup u hu)) hch
              (by rw [hph]; decide) hlast
          · exact h.world.keyed h.planned hsub hup hch hme hord
        · exact h.tasks t ht shuffle op hop
      | configure active leaving stored =>
        rcases List.mem_append.1 ht with ht | ht
        · obtain ⟨me, rfl⟩ := Reader.eq_of_mem_prepares ht
          exact absurd ⟨_, _, rfl⟩ hjoin
        · exact h.tasks t ht shuffle op hop
      | _ => exact h.tasks t ht shuffle op hop

/-- The flags of the client do not matter. -/
theorem flag (h : node.Faithful plan env c log) (active leaving : Bool) :
    Node.Faithful plan env c log { node with active, leaving } :=
  { h with }

/-- An operation is added to the queue. -/
theorem add (h : node.Faithful plan env c log) {op : Op}
    (hop : Honest (plan.conduct env) (states log) op)
    (hown : op.id = none ∨ op.id = some c.id ∧
      (op.type ≠ .start → node.world.session.Sends env c op)) :
    Node.Faithful plan env c log { node with submission := node.submission.step (.add op) } :=
  { h with
    added := List.forall_mem_cons.2 ⟨hop, h.added⟩
    own := List.forall_mem_cons.2 ⟨hown, h.own⟩ }

/-- Nothing is added to the queue. -/
theorem queue (h : node.Faithful plan env c log) {e : SubmissionEvent} (he : ∀ op, e ≠ .add op)
    (n : ℕ) :
    Node.Faithful plan env c log
      { node with submission := node.submission.step e, since := n } := by
  have hold : ∀ op ∈ (node.submission.step e).added, op ∈ node.submission.added := by
    intro op hop
    exact (Submission.mem_added_step.1 hop).resolve_left (he op)
  exact { h with
    added := fun op hop => h.added op (hold op hop)
    own := fun op hop => h.own op (hold op hop) }

/-- What `lastUpdate` holds is a state of the log. -/
theorem stored_mem (hexact : env.Exact) (h : node.Faithful plan env c log) (k : ℕ) :
    node.world.session.stored k ∈ states log := by
  rcases node.world.session.stored_cases k with hnew | ⟨x, hx, hst⟩
  · rw [hnew]
    exact mem_trace_self _ _
  · have hmem : x.sm ∈ node.world.updates := List.mem_append_right _ (List.mem_map_of_mem hx)
    rw [hst]
    exact states_take_subset log _ (h.world.mem_of_mem_updates hexact x.sm hmem)

end Node.Faithful

section Cluster

variable {ι : Type} {D : Deployment ι} {C C' : Cluster ι}

/-- The clients in whose name the operation is have started goroutines that send it. -/
def Cluster.Vouched (D : Deployment ι) (C : Cluster ι) (op : Op) : Prop :=
  ∀ i, op.id = some (D.clients i).id → op.type ≠ .start →
    (C.nodes i).world.session.Sends D.env (D.clients i) op

/-- A cluster of honest clients. -/
structure Cluster.Faithful (D : Deployment ι) (C : Cluster ι) : Prop where
  sound : C.Sound D
  nodes : ∀ i, (C.nodes i).Faithful D.plan D.env (D.clients i) C.log
  started : ∀ op ∈ C.started,
    Honest (D.plan.conduct D.env) (states C.log) op ∧ C.Vouched D op
  log : ∀ n op, C.log[n]? = some op →
    Honest (D.plan.conduct D.env) (states (C.log.take n)) op ∧ C.Vouched D op

namespace Cluster.Faithful

theorem init (D : Deployment ι) : Cluster.Faithful D {} where
  sound _ := Node.Sound.init _ _
  nodes _ := Node.Faithful.init _ _ _
  started := by simp
  log := by simp

/-- One node changes, without forgetting goroutines. -/
theorem put [DecidableEq ι] (h : C.Faithful D) {i : ι} {node : Node}
    (hs : node.Sound D.env (D.clients i) C.log)
    (hn : node.Faithful D.plan D.env (D.clients i) C.log)
    (hsub : (C.nodes i).world.session.tasks ⊆ node.world.session.tasks) :
    (C.put i node).Faithful D := by
  have hv : ∀ op, C.Vouched D op → (C.put i node).Vouched D op := by
    intro op hop j hid hty
    have hsends := hop j hid hty
    by_cases hj : j = i
    · subst hj
      simpa [Cluster.put] using hsends.mono hsub
    · simpa [Cluster.put, hj] using hsends
  refine ⟨h.sound.put hs, fun j => ?_, fun op hop => ?_, fun n op hop => ?_⟩
  · by_cases hj : j = i
    · subst hj
      simpa [Cluster.put] using hn
    · simpa [Cluster.put, hj] using h.nodes j
  · exact (h.started op hop).imp_right (hv op)
  · exact (h.log n op hop).imp_right (hv op)

/-- A command is started. -/
theorem start (h : C.Faithful D) {op : Op}
    (hop : Honest (D.plan.conduct D.env) (states C.log) op) (hv : C.Vouched D op) :
    Cluster.Faithful D { C with started := op :: C.started } :=
  ⟨h.sound, h.nodes, List.forall_mem_cons.2 ⟨⟨hop, hv⟩, h.started⟩, h.log⟩

theorem commit (h : C.Faithful D) {op : Op} (hop : op ∈ C.started) :
    Cluster.Faithful D { C with log := C.log ++ [op] } where
  sound i := (h.sound i).commit op
  nodes i := (h.nodes i).commit (h.sound i).applied_le op
  started op' hop' := by
    obtain ⟨hh, hv⟩ := h.started op' hop'
    exact ⟨hh.of_subset (states_mono _ _), hv⟩
  log n op' hop' := by
    rcases lt_trichotomy n C.log.length with hlt | rfl | hgt
    · rw [List.getElem?_append_left hlt] at hop'
      rw [List.take_append_of_le_length hlt.le]
      exact h.log n op' hop'
    · rw [List.getElem?_concat_length] at hop'
      rw [List.take_left]
      cases hop'
      exact h.started op hop
    · rw [List.getElem?_eq_none (by simp; omega)] at hop'
      cases hop'

/-- Every node stays faithful if nobody else commits. -/
theorem evolves [DecidableEq ι] (hexact : D.env.Exact)
    (hids : Function.Injective fun i => (D.clients i).id)
    (hhostile : ∀ op, D.hostile op = false) (h : C.Faithful D) (he : Evolves D C C') :
    C'.Faithful D := by
  have hsound := h.sound.evolves he
  have hnode : ∀ {i : ι} {node : Node}, C' = C.put i node →
      node.Sound D.env (D.clients i) C.log := by
    rintro i node rfl
    simpa [Cluster.put] using hsound i
  cases he with
  | commit hop =>
    rcases hop with hop | hop
    · exact h.commit hop
    · rw [hhostile] at hop
      cases hop
  | @apply i op world b hop hs =>
    obtain ⟨hh, hv⟩ := h.log _ op hop
    exact h.put (hnode rfl) ((h.nodes i).apply (h.sound i) hop hh (hv i) hs)
      (World.tasks_subset (Steps.of_step hs))
  | @act i a world b active leaving ha hdraws hs =>
    exact h.put (hnode rfl) (((h.nodes i).act hexact ha hdraws hs).flag active leaving)
      (World.tasks_subset (Steps.of_step hs))
  | @flag i active leaving =>
    exact h.put (hnode rfl) ((h.nodes i).flag active leaving) (List.Subset.refl _)
  | @run i t shuffle op ht hop =>
    refine h.put (hnode rfl) ((h.nodes i).add ((h.nodes i).tasks t ht shuffle op hop) ?_)
      (List.Subset.refl _)
    exact (Task.id_of_op hop).imp_right fun hid => ⟨hid, fun _ => ⟨t, ht, _, hop⟩⟩
  | @start i r stored mo op hmo hop =>
    have hop' := hop
    unfold Client.start at hop'
    split_ifs at hop'
    cases hop'
    exact h.put (hnode rfl) ((h.nodes i).add
      (.start ((h.nodes i).stored_mem hexact stored) ⟨(D.clients i).messageSize, hmo⟩ hop)
      (Or.inr ⟨rfl, fun hne => absurd rfl hne⟩)) (List.Subset.refl _)
  | @abort i stored =>
    exact h.put (hnode rfl) ((h.nodes i).add (.abort _) (Or.inl rfl)) (List.Subset.refl _)
  | kill => exact h.start (.abort _) fun i hid => by cases hid
  | @get i hin =>
    exact h.put (hnode rfl) ((h.nodes i).queue (by simp) _) (List.Subset.refl _)
  | @fail i => exact h.put (hnode rfl) ((h.nodes i).queue (by simp) _) (List.Subset.refl _)
  | @submit i op hin =>
    have hmem := (h.sound i).tidy.inFlight op hin
    refine h.start ((h.nodes i).added op hmem) fun j hid hty => ?_
    rcases (h.nodes i).own op hmem with hnone | ⟨hsome, hsends⟩
    · rw [hnone] at hid
      cases hid
    · -- identities differ, so it is this client
      obtain rfl : i = j := hids (Option.some.inj (hsome.symm.trans hid))
      exact hsends hty
  | @finish i j op hin hack =>
    exact h.put (hnode rfl) ((h.nodes i).queue (by simp) _) (List.Subset.refl _)
  | stay => exact h

theorem of_reachable [DecidableEq ι] (hexact : D.env.Exact)
    (hids : Function.Injective fun i => (D.clients i).id)
    (hhostile : ∀ op, D.hostile op = false) (h : C.Reachable D) : C.Faithful D := by
  obtain ⟨events, hrun⟩ := h
  exact run_preserves
    (fun _ _ _ _ hC hs => hC.evolves hexact hids hhostile (Evolves.of_step hs)) (init D) hrun

/-- The log is that of an honest run. -/
theorem honestRun (h : C.Faithful D) (n : ℕ) :
    HonestRun (D.plan.conduct D.env) (states (C.log.take n)) := by
  induction n with
  | zero => exact .init
  | succ n ih =>
    rcases hop : C.log[n]? with _ | op
    · rw [List.take_add_one, hop, Option.toList_none, List.append_nil]
      exact ih
    · obtain ⟨S, hS, hinv⟩ := exists_run_states (C.log.take n)
      obtain ⟨S', b, hap, -⟩ := hinv.apply_total op
      obtain ⟨rest, hrest⟩ := exists_trace_eq hS
      have hh := (h.log n op hop).1
      rw [List.take_add_one, hop, Option.toList_some, states, trace_concat hS hap]
      rw [states, hrest] at ih hh
      rw [hrest]
      exact .next ih hh hap

end Cluster.Faithful

/-- A cluster of honest clients refines the honest runs. -/
theorem cluster_honestRun [DecidableEq ι] {D : Deployment ι} (hexact : D.env.Exact)
    (hids : Function.Injective fun i => (D.clients i).id) (hhostile : ∀ op, D.hostile op = false)
    {C : Cluster ι} (h : C.Reachable D) :
    HonestRun (D.plan.conduct D.env) (states C.log) ∧ ∀ i,
      HonestWorld D.plan D.env (D.clients i) (states (C.log.take (C.nodes i).applied))
        (C.nodes i).world := by
  have hf := Cluster.Faithful.of_reachable hexact hids hhostile h
  refine ⟨?_, fun i => (hf.nodes i).world⟩
  have hrun := hf.honestRun C.log.length
  rwa [List.take_length] at hrun

/-- The two clients of `pairEvents`. -/
theorem cluster_honestRun_pair : ∃ C : Cluster Bool, C.Reachable pairDeployment ∧
    (C.nodes true).world.sm = twoDone pairCrypto pairMessages ∧
    HonestRun (twoPlan.conduct exactEnv) (states C.log) ∧ ∀ i,
      HonestWorld twoPlan exactEnv (pairDeployment.clients i)
        (states (C.log.take (C.nodes i).applied)) (C.nodes i).world := by
  obtain ⟨C, hC, hsm⟩ := exists_of_endsWith (by decide +kernel :
    endsWith (Cluster.step pairDeployment) {} pairEvents
      (fun C => decide ((C.nodes true).world.sm = twoDone pairCrypto pairMessages)) = true)
  exact ⟨C, ⟨_, hC⟩, of_decide_eq_true hsm,
    cluster_honestRun exactEnv_exact (by decide) (fun _ => rfl) ⟨_, hC⟩⟩

end Cluster

end EggScrambler
