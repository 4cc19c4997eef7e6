import Mathlib
import EggScrambler.TestAndSet

/-!
# What a subscriber sees

The server sends copies of its states.  A copy has the invariants of a state (`IsView.inv`) and one
message for every participant, and what holds between two states of a run (`Follows`) holds between
their copies.  `Consecutive` relates copies of two states that are one accepted operation apart;
`Consecutive.cases` is the only fact about it that the rest of the development uses.
-/

namespace EggScrambler

open StateMachine Transition

/-! ## Copies of rounds -/

section Round

variable {ri v : RoundInfo}

theorem Stage.flags_of_deepCopy (st : Stage) (h : RoundInv ri) (hv : ri.deepCopy = .ok v) :
    st.flags v = st.flags ri := by
  rw [(RoundInfo.eq_of_deepCopy h hv).1]
  cases st <;> rfl

/-- What a copy has in common with the original. -/
theorem RoundInfo.deepCopy_frame (h : RoundInv ri) (hv : ri.deepCopy = .ok v) :
    v.phase = ri.phase ∧ v.crypto = ri.crypto ∧ v.participants = ri.participants ∧
      v.revealedKeys = ri.revealedKeys ∧ v.revealKeyHashes = ri.revealKeyHashes := by
  rw [(RoundInfo.eq_of_deepCopy h hv).1]
  exact ⟨rfl, rfl, rfl, rfl, rfl⟩

/-- Until the list handlers run, the copy is the original. -/
theorem RoundInv.eq_of_deepCopy (h : RoundInv ri) (hord : phaseOrder ri.phase ≤ 1)
    (hv : ri.deepCopy = .ok v) : v = ri := by
  rw [(RoundInfo.deepCopy_eq_self_iff h).2 (h.messages_length hord)] at hv
  exact (Except.ok.inj hv).symm

theorem RoundInv.deepCopy (h : RoundInv ri) (hv : ri.deepCopy = .ok v) : RoundInv v := by
  by_cases hord : phaseOrder ri.phase ≤ 1
  · rwa [h.eq_of_deepCopy hord hv]
  · have hflags : ∀ st : Stage, st.flags v = st.flags ri := fun st => st.flags_of_deepCopy h hv
    obtain ⟨hphase, -, hparts, hkeys, hhashes⟩ := RoundInfo.deepCopy_frame h hv
    have hscr : v.scrambled = ri.scrambled := hflags .scramble
    exact {
      nodup := by rw [hparts]; exact h.nodup
      flags_length := fun st => by rw [hflags, hparts, h.flags_length]
      keys_length := by rw [hkeys, hparts, h.keys_length]
      hashes_length := by rw [hhashes, hparts, h.hashes_length]
      messages_length := fun _ => by rw [(RoundInfo.eq_of_deepCopy h hv).2, hparts]
      scrambled_run := by rw [hscr]; exact h.scrambled_run
      before := fun st => by rw [hphase, hflags]; exact h.before st
      during := fun st => by rw [hphase, hflags, hparts]; exact h.during st
      after := fun st => by rw [hphase, hflags, hparts]; exact h.after st
      prepare_nil := fun hph => by
        rw [← hphase, hph] at hord
        exact absurd (by decide) hord
      submit_nil := fun hph => by
        rw [← hphase, hph] at hord
        exact absurd (by decide) hord
      keys_nil := by rw [hphase, hkeys]; exact h.keys_nil
      reveal_nil := by rw [hphase, hkeys]; exact h.reveal_nil
      done_keys := by rw [hphase, hkeys]; exact h.done_keys }

theorem Later.deepCopy {a b a' b' : RoundInfo} (h : Later a b) (ha : RoundInv a) (hb : RoundInv b)
    (ha' : a.deepCopy = .ok a') (hb' : b.deepCopy = .ok b') : Later a' b' := by
  obtain ⟨hphA, hcrA, hpA, -, hhA⟩ := RoundInfo.deepCopy_frame ha ha'
  obtain ⟨hphB, hcrB, hpB, -, hhB⟩ := RoundInfo.deepCopy_frame hb hb'
  have hfA : ∀ st : Stage, st.flags a' = st.flags a := fun st => st.flags_of_deepCopy ha ha'
  have hfB : ∀ st : Stage, st.flags b' = st.flags b := fun st => st.flags_of_deepCopy hb hb'
  exact {
    order := by rw [hphA, hphB]; exact h.order
    fixed := by rw [hphA, hpA, hpB, hcrA, hcrB]; exact h.fixed
    hashes := by rw [hphA, hhA, hhB]; exact h.hashes
    raised := fun st => by rw [hfA, hfB]; exact h.raised st
    ticket := fun st => by
      rw [hphA, hphB, hfA, hfB]
      intro hpa hpb
      refine ⟨(h.ticket st hpa hpb).1, fun heq => ?_⟩
      have hab := (h.ticket st hpa hpb).2 heq
      subst hab
      exact Except.ok.inj (hb'.symm.trans ha')
    frozen := fun hord => by
      rw [hphA] at hord
      refine ⟨?_, fun st => by rw [hfA, hfB]; exact (h.frozen hord).2 st⟩
      have hm := (RoundInfo.assign_of_deepCopy hb hb').2
      rw [(h.fixed (le_trans (by decide) hord)).1, (h.frozen hord).1,
        (RoundInfo.assign_of_deepCopy ha ha').2] at hm
      exact (Except.ok.inj hm).symm }

end Round

/-! ## Copies of states -/

/-- `v` is a copy of a state of the server. -/
def IsView (v : StateMachine) : Prop := ∃ S, Reachable S ∧ S.deepCopy = .ok v

section View

variable {S S' v v' : StateMachine}

theorem getRoundInfo_of_deepCopy (hv : S.deepCopy = .ok v) {r : ℤ} {x : RoundInfo} :
    v.getRoundInfo r = .ok x ↔ ∃ y, S.getRoundInfo r = .ok y ∧ y.deepCopy = .ok x := by
  obtain ⟨hround, hrounds⟩ := deepCopy_eq_ok_iff.1 hv
  simp only [getRoundInfo_eq_ok_iff, hround]
  constructor
  · rintro ⟨h₁, h₂, h₃, rfl⟩
    exact ⟨_, ⟨h₁, h₂, h₃, rfl⟩, hrounds _⟩
  · rintro ⟨y, ⟨h₁, h₂, h₃, rfl⟩, hy⟩
    rw [hrounds] at hy
    exact ⟨h₁, h₂, h₃, (Except.ok.inj hy).symm⟩

theorem Inv.currentRoundInfo_deepCopy (h : Inv S) (hv : S.deepCopy = .ok v) :
    S.currentRoundInfo.deepCopy = .ok v.currentRoundInfo := by
  obtain ⟨hround, hrounds⟩ := deepCopy_eq_ok_iff.1 hv
  rw [currentRoundInfo_eq h.round_nonneg,
    currentRoundInfo_eq (by rw [hround]; exact h.round_nonneg),
    hround]
  exact hrounds _

/-- A copy keeps the invariants. -/
theorem Inv.deepCopy (h : Inv S) (hv : S.deepCopy = .ok v) : Inv v where
  round_nonneg := by rw [(deepCopy_eq_ok_iff.1 hv).1]; exact h.round_nonneg
  rounds i := (h.rounds i).deepCopy ((deepCopy_eq_ok_iff.1 hv).2 i)
  live := by
    rw [(RoundInfo.deepCopy_frame h.current (h.currentRoundInfo_deepCopy hv)).1]
    exact h.live

theorem Inv.sized_deepCopy (h : Inv S) (hv : S.deepCopy = .ok v) : Sized v := by
  intro i
  have hi := (deepCopy_eq_ok_iff.1 hv).2 i
  rw [(RoundInfo.eq_of_deepCopy (h.rounds i) hi).2,
    (RoundInfo.deepCopy_frame (h.rounds i) hi).2.2.1]

theorem Follows.deepCopy (h : Follows S S') (hS : Inv S) (hS' : Inv S') (hv : S.deepCopy = .ok v)
    (hv' : S'.deepCopy = .ok v') : Follows v v' where
  round_le := by
    rw [(deepCopy_eq_ok_iff.1 hv).1, (deepCopy_eq_ok_iff.1 hv').1]
    exact h.round_le
  finished r hr ri hri := by
    rw [(deepCopy_eq_ok_iff.1 hv).1] at hr
    obtain ⟨y, hy, hri⟩ := (getRoundInfo_of_deepCopy hv').1 hri
    exact (getRoundInfo_of_deepCopy hv).2 ⟨y, h.finished r hr y hy, hri⟩
  later ri hri := by
    rw [(deepCopy_eq_ok_iff.1 hv).1] at hri
    obtain ⟨y, hy, hri⟩ := (getRoundInfo_of_deepCopy hv').1 hri
    exact (h.later y hy).deepCopy hS.current (hS'.roundInv hy) (hS.currentRoundInfo_deepCopy hv) hri

end View

theorem IsView.inv {v : StateMachine} (h : IsView v) : Inv v := by
  obtain ⟨S, hS, hv⟩ := h
  exact hS.inv.deepCopy hv

theorem IsView.sized {v : StateMachine} (h : IsView v) : Sized v := by
  obtain ⟨S, hS, hv⟩ := h
  exact hS.inv.sized_deepCopy hv

theorem IsView.length_of_getRoundInfo {v : StateMachine} (h : IsView v) {r : ℤ} {ri : RoundInfo}
    (hri : v.getRoundInfo r = .ok ri) : ri.messages.length = ri.participants.length := by
  obtain ⟨-, -, -, rfl⟩ := getRoundInfo_eq_ok_iff.1 hri
  exact h.sized _

theorem IsView.length_messages {v : StateMachine} (h : IsView v) :
    v.currentRoundInfo.messages.length = v.currentRoundInfo.participants.length := by
  rw [currentRoundInfo_eq h.inv.round_nonneg]
  exact h.sized _

/-- Every view follows the initial state. -/
theorem IsView.follows_new {v : StateMachine} (h : IsView v) : Follows newStateMachine v := by
  obtain ⟨S, hS, hv⟩ := h
  exact (Follows.of_leads Inv.new hS).deepCopy Inv.new hS.inv
    (Inv.new.deepCopy_eq_self_iff.2 Sized.new) hv

/-! ## Consecutive updates -/

/-- `v` and `v'` are copies of two states that are one accepted operation apart. -/
def Consecutive (v v' : StateMachine) : Prop :=
  ∃ S S' op, Inv S ∧ S.apply op = .ok (S', true) ∧ S.deepCopy = .ok v ∧ S'.deepCopy = .ok v'

/-- The turn of a participant to scramble is not left out. -/
theorem Accepts.turn {a b : RoundInfo} {op : Op} (hacc : Accepts a op b) (ha : RoundInv a)
    (hfail : b.phase ≠ .failed) {p : ℕ} (hp : p < b.participants.length)
    (hturn : b.phase = .scramble ∧ p < b.numScrambled ∨ 4 ≤ phaseOrder b.phase) :
    a.phase = .scramble ∧ p ≤ a.numScrambled ∨ 4 ≤ phaseOrder a.phase := by
  have hb := hacc.roundInv ha
  cases hacc with
  | @join id r hprep hid =>
    have hprep' : (a.addParticipant id).phase = .prepare := hprep
    rw [hprep'] at hturn
    exact absurd hturn (by simp [phaseOrder])
  | start => exact absurd hturn (by simp [phaseOrder])
  | message hsub hp hm hh =>
    exfalso
    simp only [RoundInfo.putMessage, hsub] at hturn
    split_ifs at hturn <;> simp [phaseOrder] at hturn
  | @transform st prev id r messages q hst hq hn hf =>
    cases st with
    | encrypt =>
      exfalso
      have hzero : numTrue a.scrambled = 0 := ha.before .scramble (by rw [hst]; decide)
      have hscr : (a.install .encrypt q messages).numScrambled = 0 := hzero
      rw [hscr, RoundInfo.phase_install, hst] at hturn
      split_ifs at hturn <;> simp [Stage.phase, Stage.next, phaseOrder] at hturn
    | scramble =>
      refine Or.inl ⟨hst, ?_⟩
      have hsucc : (a.install .scramble q messages).numScrambled = a.numScrambled + 1 :=
        numTrue_set hf
      rcases hturn with ⟨-, hlt⟩ | hord
      · omega
      · have hall : (a.install .scramble q messages).numScrambled = _ :=
          hb.after .scramble (lt_of_lt_of_le (by decide) hord) hfail
        omega
    | decrypt =>
      right
      rw [hst]
      decide
  | reveal hrev hp hk =>
    right
    rw [hrev]
    decide
  | abort => exact absurd rfl hfail

namespace Consecutive

variable {v v' : StateMachine}

theorem follows (h : Consecutive v v') : Follows v v' := by
  obtain ⟨S, S', op, hS, hap, hv, hv'⟩ := h
  exact (Follows.of_apply hS hap).deepCopy hS (hS.apply hap) hv hv'

/-- The operation in between is accepted by the round `a` and leaves the round `b`; the two views
show copies of them, the second one as its current round or, if it is finished, as the one before.
-/
theorem cases (h : Consecutive v v') : ∃ a op b, RoundInv a ∧ Accepts a op b ∧
    a.deepCopy = .ok v.currentRoundInfo ∧
    (v'.round = v.round ∧ b.deepCopy = .ok v'.currentRoundInfo ∨
      (b.phase = .done ∨ b.phase = .failed) ∧ v'.round = v.round + 1 ∧
        v'.currentRoundInfo = { phase := .prepare } ∧
        ∀ x, v'.getRoundInfo v.round = .ok x → b.deepCopy = .ok x) := by
  obtain ⟨S, S', op, hS, hap, hv, hv'⟩ := h
  have hS' := hS.apply hap
  have hround := (deepCopy_eq_ok_iff.1 hv).1
  have hround' := (deepCopy_eq_ok_iff.1 hv').1
  have hcur' := hS'.currentRoundInfo_deepCopy hv'
  obtain ⟨-, b, ha, rfl⟩ := apply_true_iff.1 hap
  refine ⟨_, op, b, hS.current, ha, hS.currentRoundInfo_deepCopy hv, ?_⟩
  by_cases hfin : b.phase = .done ∨ b.phase = .failed
  · have hself : (S.advance b).getRoundInfo S.round = .ok b :=
      getRoundInfo_advance_self hS.round_nonneg
    rw [advance_finished hfin] at hround' hcur'
    rw [currentRoundInfo_nextRound (by simpa using hS.round_nonneg)] at hcur'
    refine Or.inr ⟨hfin, ?_, ?_, fun x hx => ?_⟩
    · rw [hround', hround, round_nextRound, round_setCurrent]
    · exact (RoundInv.of_empty (Or.inr rfl)).eq_of_deepCopy (by simp [phaseOrder]) hcur'
    · rw [hround] at hx
      obtain ⟨y, hy, hx⟩ := (getRoundInfo_of_deepCopy hv').1 hx
      rw [hself] at hy
      cases hy
      exact hx
  · rw [advance_unfinished hfin] at hround' hcur'
    rw [currentRoundInfo_setCurrent hS.round_nonneg] at hcur'
    exact Or.inl ⟨by rw [hround', hround, round_setCurrent], hcur'⟩

/-- No round is left out, and a round begins with its prepare phase. -/
theorem round_cases (h : Consecutive v v') : v'.round = v.round ∨
    v'.round = v.round + 1 ∧ v'.currentRoundInfo.phase = .prepare := by
  obtain ⟨a, op, b, -, -, -, ⟨hr, -⟩ | ⟨-, hr, hcur, -⟩⟩ := h.cases
  · exact Or.inl hr
  · exact Or.inr ⟨hr, by rw [hcur]⟩

theorem inv (h : Consecutive v v') : Inv v ∧ Inv v' := by
  obtain ⟨S, S', op, hS, hap, hv, hv'⟩ := h
  exact ⟨hS.deepCopy hv, (hS.apply hap).deepCopy hv'⟩

/-- A round is done after its reveal phase. -/
theorem reveal_of_done (h : Consecutive v v') {x : RoundInfo}
    (hx : v'.getRoundInfo v.round = .ok x) (hr : v'.round = v.round + 1) (hph : x.phase = .done) :
    v.currentRoundInfo.phase = .reveal := by
  obtain ⟨a, op, b, ha, hacc, hav, ⟨hr', -⟩ | ⟨-, -, -, hb⟩⟩ := h.cases
  · omega
  · rw [(RoundInfo.deepCopy_frame ha hav).1]
    rw [(RoundInfo.deepCopy_frame (hacc.roundInv ha) (hb x hx)).1] at hph
    rcases hacc.finished_cases (Or.inl hph) with ⟨hrev, -⟩ | rfl
    · exact hrev
    · cases hph

/-- The turn of a participant to scramble is not left out: where it is over, it was there or over
one operation before. -/
theorem turn (h : Consecutive v v') (hr : v'.round = v.round) {p : ℕ}
    (hp : p < v'.currentRoundInfo.participants.length)
    (hturn : v'.currentRoundInfo.phase = .scramble ∧ p < v'.currentRoundInfo.numScrambled ∨
      4 ≤ phaseOrder v'.currentRoundInfo.phase) :
    v.currentRoundInfo.phase = .scramble ∧ p ≤ v.currentRoundInfo.numScrambled ∨
      4 ≤ phaseOrder v.currentRoundInfo.phase := by
  have hlive := h.inv.2.live
  obtain ⟨a, op, b, ha, hacc, hav, ⟨-, hbv⟩ | ⟨-, hr', -⟩⟩ := h.cases
  · have hb := hacc.roundInv ha
    obtain ⟨hphA, -⟩ := RoundInfo.deepCopy_frame ha hav
    obtain ⟨hphB, -, hpartsB, -⟩ := RoundInfo.deepCopy_frame hb hbv
    have hnA : v.currentRoundInfo.numScrambled = a.numScrambled :=
      congrArg numTrue (Stage.flags_of_deepCopy .scramble ha hav)
    have hnB : v'.currentRoundInfo.numScrambled = b.numScrambled :=
      congrArg numTrue (Stage.flags_of_deepCopy .scramble hb hbv)
    rw [hphA, hnA]
    rw [hphB, hnB] at hturn
    rw [hpartsB] at hp
    rw [hphB] at hlive
    exact hacc.turn ha (fun hfail => hlive.unfinished (Or.inr hfail)) hp hturn
  · omega

end Consecutive

end EggScrambler
