import Mathlib
import EggScrambler.Client
import EggScrambler.Copy

/-!
# Test-and-set

An operation that replaces the message list was computed by a client from a state that may be long
gone when the operation is applied.  It is accepted only if the number of raised flags is still the
one that the client saw (for a `ScrambledOp`, the client's index, which was that number).  Within a
stage this number identifies the state of the round (`Later.ticket`), so an accepted operation was
computed from the very round it is applied to (`no_lost_update`), whatever the other operations of
the log.
-/

namespace EggScrambler

open StateMachine Transition

/-- Client `c` builds `op` from the state `sm`, in the phase of the stage `st` and, when it
scrambles, in its turn. -/
inductive Builds (c : Client) (sm : StateMachine) : Stage → Op → Prop
  | encrypt (encryptKey : PrivateKey) {ri : RoundInfo} {me : ℕ} {op : Op} (hs : Seen sm ri)
      (hph : ri.phase = .encrypt) (hme : c.me ri = some me)
      (h : c.encrypt sm.round ri me encryptKey = .ok (some op)) : Builds c sm .encrypt op
  | scramble (scrambleKey revealKey : PrivateKey) (shuffle : Shuffle) {ri : RoundInfo} {me : ℕ}
      {op : Op} (hs : Seen sm ri) (hph : ri.phase = .scramble) (hme : c.me ri = some me)
      (hturn : me = ri.numScrambled)
      (h : c.scramble sm.round ri me scrambleKey revealKey shuffle = .ok (some op)) :
      Builds c sm .scramble op
  | decrypt (scrambleKey encryptKey : PrivateKey) {ri : RoundInfo} {me : ℕ} {op : Op}
      (hs : Seen sm ri) (hph : ri.phase = .decrypt) (hme : c.me ri = some me)
      (h : c.decrypt sm.round ri me scrambleKey encryptKey = .ok (some op)) :
      Builds c sm .decrypt op

namespace Seen

variable {sm : StateMachine} {ri : RoundInfo}

/-- What is seen differs from the current round in the messages at most. -/
theorem eq (h : Inv sm) (hs : Seen sm ri) :
    ri = { sm.currentRoundInfo with messages := ri.messages } := by
  rcases hs with rfl | hs
  · rfl
  · exact (RoundInfo.eq_of_deepCopy h.current hs).1

theorem phase (h : Inv sm) (hs : Seen sm ri) : ri.phase = sm.currentRoundInfo.phase := by
  rw [hs.eq h]

theorem flags (h : Inv sm) (hs : Seen sm ri) (st : Stage) :
    st.flags ri = st.flags sm.currentRoundInfo := by
  rw [hs.eq h]
  cases st <;> rfl

theorem me (h : Inv sm) (hs : Seen sm ri) (c : Client) :
    c.me ri = sm.currentRoundInfo.participantIndex c.id := by
  have hparts : ri.participants = sm.currentRoundInfo.participants := by rw [hs.eq h]
  rw [← Client.me_eq_participantIndex h.current.nodup]
  unfold Client.me
  rw [hparts]

end Seen

/-- The common content of the three cases: the operation is for this round, carries the number of
raised flags, and the client's own flag is down. -/
theorem Builds.spec {c : Client} {sm : StateMachine} {st : Stage} {op : Op} (h : Inv sm)
    (hb : Builds c sm st op) :
    sm.currentRoundInfo.phase = st.phase ∧ ∃ me messages,
      sm.currentRoundInfo.participantIndex c.id = some me ∧
      (st = .scramble → me = numTrue (st.flags sm.currentRoundInfo)) ∧
      op = st.op c.id sm.round messages (numTrue (st.flags sm.currentRoundInfo)) := by
  cases hb with
  | encrypt encryptKey hs hph hme hop =>
    obtain ⟨-, messages, -, rfl⟩ := Client.offer_eq_some_iff.1 hop
    exact ⟨(hs.phase h).symm.trans hph, _, messages, (hs.me h c).symm.trans hme, by simp,
      by rw [hs.flags h]⟩
  | scramble scrambleKey revealKey shuffle hs hph hme hturn hop =>
    obtain ⟨-, messages, -, rfl⟩ := Client.offer_eq_some_iff.1 hop
    refine ⟨(hs.phase h).symm.trans hph, _, messages, (hs.me h c).symm.trans hme, fun _ => ?_,
      by rw [hs.flags h]⟩
    rw [hturn, ← hs.flags h]
    rfl
  | decrypt scrambleKey encryptKey hs hph hme hop =>
    obtain ⟨-, messages, -, rfl⟩ := Client.offer_eq_some_iff.1 hop
    exact ⟨(hs.phase h).symm.trans hph, _, messages, (hs.me h c).symm.trans hme, by simp,
      by rw [hs.flags h]⟩

/-- An operation that is accepted in a later state was built from that state. -/
theorem Builds.eq_of_accepted {c : Client} {S S' T : StateMachine} {st : Stage} {op : Op}
    (h : Inv S) (hl : Leads apply S S') (hb : Builds c S st op)
    (ha : S'.apply op = .ok (T, true)) :
    S'.round = S.round ∧ S'.currentRoundInfo = S.currentRoundInfo := by
  obtain ⟨hph, me, messages, hme, hturn, rfl⟩ := hb.spec h
  obtain ⟨hr, ri, hacc, -⟩ := apply_true_iff.1 ha
  rw [Stage.round_op] at hr
  obtain ⟨hph', p, hp, hn, -, -⟩ := hacc.of_op st _
  have hlater := (Follows.of_leads h hl).later_of_round_eq (h.of_leads hl).round_nonneg hr.symm
  refine ⟨hr.symm, (hlater.ticket st hph hph').2 ?_⟩
  -- the ticket that was accepted is the number of flags the client saw
  have hord : 1 ≤ phaseOrder S.currentRoundInfo.phase := by
    have := st.phaseOrder_mem.1
    rw [hph]
    omega
  have hparts := (hlater.fixed hord).1
  have hpme : p = me := by
    rw [RoundInfo.participantIndex, hparts] at hp
    exact Option.some.inj (hp.symm.trans hme)
  cases st with
  | encrypt | decrypt => exact (Int.ofNat.inj hn).symm
  | scramble => exact (hturn rfl).symm.trans (hpme.symm.trans (Int.ofNat.inj hn).symm)

/-- A flag that was raised bars its owner from the stage for the rest of the round. -/
theorem apply_of_raised {S T S' : StateMachine} {st : Stage} {id : UUID} {r : ℤ}
    {messages messages' : List Msg} {prev prev' : ℤ} (h : Inv S)
    (ha : S.apply (st.op id r messages prev) = .ok (T, true)) (hl : Leads apply T S') :
    S'.apply (st.op id r messages' prev') = .ok (S', false) := by
  obtain ⟨hr, ri, hacc, rfl⟩ := apply_true_iff.1 ha
  have hT := h.advance hacc
  refine (hT.of_leads hl).apply_of_not_accepts fun hr' ri' hacc' => ?_
  rw [Stage.round_op] at hr hr'
  obtain ⟨hph, p, hp, -, hf, rfl⟩ := hacc.of_op st _
  obtain ⟨hph', p', hp', -, hf', -⟩ := hacc'.of_op st _
  rw [advance_unfinished (RoundInfo.install_unfinished hph p messages)] at hl hT
  have hfol := Follows.of_leads hT hl
  have hlater := hfol.later_of_round_eq (hT.of_leads hl).round_nonneg
    (hr'.symm.trans (hr.trans (round_setCurrent _).symm))
  rw [currentRoundInfo_setCurrent h.round_nonneg] at hlater
  have hord : 1 ≤ phaseOrder (S.currentRoundInfo.install st p messages).phase := by
    have := (later_install messages hph hf).order
    have := st.phaseOrder_mem.1
    rw [hph] at *
    omega
  have hparts := (hlater.fixed hord).1
  rw [(RoundInfo.install_frame _ st p messages).1] at hparts
  have hpp : p' = p := by
    rw [RoundInfo.participantIndex, hparts] at hp'
    exact Option.some.inj (hp'.symm.trans hp)
  have hraised : (st.flags (S.currentRoundInfo.install st p messages))[p]? = some true := by
    rw [RoundInfo.flags_install_self, List.getElem?_set, if_pos rfl,
      if_pos (List.getElem?_eq_some_iff.1 hf).1]
  rw [hpp, hlater.raised st p hraised] at hf'
  cases hf'

/-- **No lost update.** For every log: an operation that a client built from a state of the run is
accepted only in a state of the same round and phase with the same messages, from which the client
would build it again; and no participant has two operations of one stage accepted in a round. -/
theorem no_lost_update {S : StateMachine} (hS : Reachable S) :
    (∀ c st op log S' T, Builds c S st op → run apply S log = .ok S' →
      S'.apply op = .ok (T, true) →
        S'.round = S.round ∧ S'.currentRoundInfo.phase = S.currentRoundInfo.phase ∧
        S'.currentRoundInfo.messages = S.currentRoundInfo.messages ∧ Builds c S' st op) ∧
    ∀ st id r messages prev messages' prev' T log S',
      S.apply (Stage.op st id r messages prev) = .ok (T, true) → run apply T log = .ok S' →
        S'.apply (Stage.op st id r messages' prev') = .ok (S', false) := by
  refine ⟨fun c st op log S' T hb hlog ha => ?_, fun st id r messages prev messages' prev' T log S'
    ha hlog => apply_of_raised hS.inv ha ⟨log, hlog⟩⟩
  obtain ⟨hr, hcur⟩ := hb.eq_of_accepted hS.inv ⟨log, hlog⟩ ha
  refine ⟨hr, by rw [hcur], by rw [hcur], ?_⟩
  cases hb with
  | encrypt ek hs hph hme h => exact .encrypt ek (by rwa [Seen, hcur]) hph hme (by rwa [hr])
  | scramble sk rk sh hs hph hme ht h =>
    exact .scramble sk rk sh (by rwa [Seen, hcur]) hph hme ht (by rwa [hr])
  | decrypt sk ek hs hph hme h => exact .decrypt sk ek (by rwa [Seen, hcur]) hph hme (by rwa [hr])

/-- The first participant of `scrambleState` scrambles; an operation out of turn is in between, and
a second `ScrambledOp` of the same participant follows. -/
theorem no_lost_update_scrambleState : ∃ T,
    run apply scrambleState [.scrambled 2 0 []] = .ok scrambleState ∧
    scrambleState.apply (.scrambled 1 0 [⟨[3]⟩, ⟨[5]⟩]) = .ok (T, true) ∧
    Builds ⟨1, 0⟩ scrambleState .scramble (.scrambled 1 0 [⟨[3]⟩, ⟨[5]⟩]) ∧
    T.apply (.scrambled 1 0 []) = .ok (T, false) := by
  have hb : Builds ⟨1, 0⟩ scrambleState .scramble (.scrambled 1 0 [⟨[3]⟩, ⟨[5]⟩]) :=
    .scramble ⟨[1], [1]⟩ ⟨[1], [1]⟩ ⟨List.reverse, List.reverse_perm⟩ (Or.inl rfl) rfl rfl rfl
      ((Client.scramble_eq_some_iff rfl).2 ⟨rfl, by decide +kernel⟩)
  have hrun : run apply scrambleState [.scrambled 2 0 []] = .ok scrambleState :=
    run_of_endsIn (by decide +kernel)
  obtain ⟨T, hT⟩ : ∃ T, scrambleState.apply (.scrambled 1 0 [⟨[3]⟩, ⟨[5]⟩]) = .ok (T, true) :=
    ⟨_, rfl⟩
  obtain ⟨h₁, h₂⟩ := no_lost_update reachable_scrambleState
  exact ⟨T, hrun, hT, (h₁ _ _ _ _ _ _ hb hrun hT).2.2.2,
    h₂ .scramble 1 0 _ 0 [] 0 T [] T hT rfl⟩

end EggScrambler
