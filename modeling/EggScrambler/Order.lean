import Mathlib
import EggScrambler.Invariant

/-!
# The order of the states of a run

`Later a b` relates an earlier state `a` of a round to a later state `b` of the same round: phases
only go up, participants and crypto are fixed once the round started, key hashes once all messages
are in, and everything but the revealed keys once the reveal phase began.  The clause `ticket` is
what the test-and-set counters rest on: within a stage the number of raised flags never goes down,
and as long as it does not change nothing else does.

`Follows s t` lifts this to state machines: the current round of `s` is related to what `t` still
stores of it, and the rounds finished before `s` are unchanged in `t`.  It holds across one step
(`Follows.of_apply`), it is transitive, and so it holds between any two states of a run
(`Follows.of_leads`).

Until a round is started, it has nothing but participants (`Reachable.blank`).

The last section is about `GuaranteedNoEffect`, whose answer has to be right in all later states.
-/

namespace EggScrambler

open StateMachine Transition

/-- `b` is a later state of the round `a`. -/
structure Later (a b : RoundInfo) : Prop where
  order : phaseOrder a.phase ≤ phaseOrder b.phase
  fixed : 1 ≤ phaseOrder a.phase → b.participants = a.participants ∧ b.crypto = a.crypto
  hashes : 2 ≤ phaseOrder a.phase → b.revealKeyHashes = a.revealKeyHashes
  raised : ∀ (st : Stage) (p : ℕ), (st.flags a)[p]? = some true → (st.flags b)[p]? = some true
  ticket : ∀ st : Stage, a.phase = st.phase → b.phase = st.phase →
    numTrue (st.flags a) ≤ numTrue (st.flags b) ∧
      (numTrue (st.flags a) = numTrue (st.flags b) → b = a)
  frozen : 5 ≤ phaseOrder a.phase → b.messages = a.messages ∧ ∀ st : Stage, st.flags b = st.flags a

theorem Stage.eq_phase_of_phaseOrder {st : Stage} {ph : Phase}
    (h : phaseOrder ph = phaseOrder st.phase) : ph = st.phase := by
  cases ph <;> cases st <;> first | rfl | exact absurd h (by decide)

theorem phaseOrder_le (ph : Phase) : phaseOrder ph ≤ 7 := by cases ph <;> decide

/-- A current round that is past its decrypt phase is in its reveal phase. -/
theorem Phase.Live.eq_reveal {ph : Phase} (h : ph.Live) (hord : 5 ≤ phaseOrder ph) :
    ph = .reveal := by
  rcases h with rfl | rfl | rfl | rfl | rfl | rfl <;> first | rfl | exact absurd hord (by decide)

theorem Phase.Live.unfinished {ph : Phase} (h : ph.Live) : ¬ (ph = .done ∨ ph = .failed) := by
  rcases h with rfl | rfl | rfl | rfl | rfl | rfl <;> decide

theorem Phase.Live.eq_prepare {ph : Phase} (h : ph.Live) (hord : phaseOrder ph ≤ 0) :
    ph = .prepare := by
  rcases h with rfl | rfl | rfl | rfl | rfl | rfl <;> first | rfl | exact absurd hord (by decide)

theorem Phase.Live.phaseOrder_injective {a b : Phase} (ha : a.Live) (hb : b.Live)
    (h : phaseOrder a = phaseOrder b) : a = b := by
  rcases ha with rfl | rfl | rfl | rfl | rfl | rfl <;>
    rcases hb with rfl | rfl | rfl | rfl | rfl | rfl <;>
    first | rfl | exact absurd h (by decide)

namespace Later

theorem refl (a : RoundInfo) : Later a a where
  order := le_rfl
  fixed _ := ⟨rfl, rfl⟩
  hashes _ := rfl
  raised _ _ h := h
  ticket _ _ _ := ⟨le_rfl, fun _ => rfl⟩
  frozen _ := ⟨rfl, fun _ => rfl⟩

theorem trans {a b c : RoundInfo} (h₁ : Later a b) (h₂ : Later b c) : Later a c where
  order := h₁.order.trans h₂.order
  fixed h := by
    obtain ⟨hp₁, hc₁⟩ := h₁.fixed h
    obtain ⟨hp₂, hc₂⟩ := h₂.fixed (h.trans h₁.order)
    exact ⟨hp₂.trans hp₁, hc₂.trans hc₁⟩
  hashes h := (h₂.hashes (h.trans h₁.order)).trans (h₁.hashes h)
  raised st p h := h₂.raised st p (h₁.raised st p h)
  ticket st ha hc := by
    -- the state in between is in the same phase, so the two counts add up
    have hb : b.phase = st.phase := Stage.eq_phase_of_phaseOrder (le_antisymm
      (hc ▸ h₂.order) (ha ▸ h₁.order))
    obtain ⟨hle₁, heq₁⟩ := h₁.ticket st ha hb
    obtain ⟨hle₂, heq₂⟩ := h₂.ticket st hb hc
    exact ⟨hle₁.trans hle₂, fun heq => (heq₂ (by omega)).trans (heq₁ (by omega))⟩
  frozen h := by
    obtain ⟨hm₁, hf₁⟩ := h₁.frozen h
    obtain ⟨hm₂, hf₂⟩ := h₂.frozen (h.trans h₁.order)
    exact ⟨hm₂.trans hm₁, fun st => (hf₂ st).trans (hf₁ st)⟩

end Later

/-! ## One step -/

section Step

variable {ri : RoundInfo}

theorem later_addParticipant (id : UUID) (hph : ri.phase = .prepare) :
    Later ri (ri.addParticipant id) where
  order := le_rfl
  fixed h := absurd h (by rw [hph]; decide)
  hashes h := absurd h (by rw [hph]; decide)
  raised st p h := by
    rw [RoundInfo.flags_addParticipant, List.getElem?_append_left
      (List.getElem?_eq_some_iff.1 h).1]
    exact h
  ticket st h := absurd (h.symm.trans hph) (by cases st <;> decide)
  frozen h := absurd h (by rw [hph]; decide)

theorem later_start (crypto : Option Crypto) (hph : ri.phase = .prepare) :
    Later ri { ri with phase := .submit, crypto } where
  order := by
    rw [hph]
    exact Nat.zero_le _
  fixed h := absurd h (by rw [hph]; decide)
  hashes h := absurd h (by rw [hph]; decide)
  raised st p h := by rwa [RoundInfo.flags_start]
  ticket st h := absurd (h.symm.trans hph) (by cases st <;> decide)
  frozen h := absurd h (by rw [hph]; decide)

theorem later_putMessage (p : ℕ) (msg : Msg) (hash : Bytes) (hph : ri.phase = .submit) :
    Later ri (ri.putMessage p msg hash) where
  order := by
    simp only [RoundInfo.putMessage, hph]
    split_ifs <;> decide
  fixed _ := ⟨rfl, rfl⟩
  hashes h := absurd h (by rw [hph]; decide)
  raised st p h := by rwa [RoundInfo.flags_putMessage]
  ticket st h := absurd (h.symm.trans hph) (by cases st <;> decide)
  frozen h := absurd h (by rw [hph]; decide)

theorem later_install {st : Stage} {p : ℕ} (messages : List Msg) (hph : ri.phase = st.phase)
    (hf : (st.flags ri)[p]? = some false) : Later ri (ri.install st p messages) where
  order := by
    rw [RoundInfo.phase_install, hph]
    split_ifs
    · rw [st.phaseOrder_next]
      exact Nat.le_succ _
    · exact le_rfl
  fixed _ := ⟨(ri.install_frame st p messages).1, (ri.install_frame st p messages).2.1⟩
  hashes _ := (ri.install_frame st p messages).2.2.2
  raised st' q h := by
    by_cases hst : st' = st
    · subst hst
      have hlt := (List.getElem?_eq_some_iff.1 hf).1
      rw [RoundInfo.flags_install_self, List.getElem?_set, if_pos hlt]
      split_ifs
      · rfl
      · exact h
    · rwa [RoundInfo.flags_install_ne _ _ hst]
  ticket st' h _ := by
    obtain rfl : st' = st := Stage.phase_injective (by rw [← h, hph])
    rw [RoundInfo.flags_install_self, numTrue_set hf]
    exact ⟨Nat.le_succ _, fun heq => absurd heq (by omega)⟩
  frozen h := by
    have := st.phaseOrder_mem
    rw [hph] at h
    omega

theorem later_putKey (p : ℕ) (key : PrivateKey) (hph : ri.phase = .reveal) :
    Later ri (ri.putKey p key) where
  order := by
    simp only [RoundInfo.putKey, hph]
    split_ifs <;> decide
  fixed _ := ⟨rfl, rfl⟩
  hashes _ := rfl
  raised st p h := by rwa [RoundInfo.flags_putKey]
  ticket st h := absurd (h.symm.trans hph) (by cases st <;> decide)
  frozen _ := ⟨rfl, fun st => ri.flags_putKey st p key⟩

theorem later_abort : Later ri { ri with phase := .failed } where
  order := phaseOrder_le ri.phase
  fixed _ := ⟨rfl, rfl⟩
  hashes _ := rfl
  raised st p h := by rwa [RoundInfo.flags_abort]
  ticket st _ h := absurd h.symm st.phase_ne_failed
  frozen _ := ⟨rfl, fun st => ri.flags_abort st⟩

theorem Accepts.later {op : Op} {ri' : RoundInfo} (h : Accepts ri op ri') : Later ri ri' := by
  cases h with
  | join hph hid => exact later_addParticipant _ hph
  | start hph => exact later_start _ hph
  | message hph hp hm hh => exact later_putMessage _ _ _ hph
  | transform st prev hph hp hn hf => exact later_install _ hph hf
  | reveal hph hp hk => exact later_putKey _ _ hph
  | abort => exact later_abort

end Step

/-! ## State machines -/

/-- `t` is a later state of the run of `s`. -/
structure Follows (s t : StateMachine) : Prop where
  round_le : s.round ≤ t.round
  finished : ∀ r < s.round, ∀ ri, t.getRoundInfo r = .ok ri → s.getRoundInfo r = .ok ri
  later : ∀ ri, t.getRoundInfo s.round = .ok ri → Later s.currentRoundInfo ri

theorem StateMachine.getRoundInfo_eq_ok_iff {sm : StateMachine} {r : ℤ} {ri : RoundInfo} :
    sm.getRoundInfo r = .ok ri ↔
      0 ≤ r ∧ r ≤ sm.round ∧ sm.round - 3 < r ∧ ri = sm.rounds (slot r) := by
  unfold getRoundInfo
  split_ifs with h₁ h₂ h₃
  · simp only [false_iff]
    omega
  · simp only [false_iff]
    omega
  · simp only [false_iff]
    omega
  · simp only [Except.ok.injEq]
    constructor
    · rintro rfl
      exact ⟨by omega, by omega, by omega, rfl⟩
    · rintro ⟨-, -, -, rfl⟩
      rfl

theorem Inv.roundInv {sm : StateMachine} (h : Inv sm) {r : ℤ} {ri : RoundInfo}
    (hri : sm.getRoundInfo r = .ok ri) : RoundInv ri := by
  obtain ⟨-, -, -, rfl⟩ := getRoundInfo_eq_ok_iff.1 hri
  exact h.rounds _

theorem StateMachine.slot_ne_of_lt {a b : ℤ} (h₁ : a < b) (h₂ : b < a + 3) : slot a ≠ slot b := by
  simp only [slot, ne_eq, Fin.mk.injEq]
  omega

theorem StateMachine.getRoundInfo_currentRoundInfo {sm : StateMachine} (h : 0 ≤ sm.round) :
    sm.getRoundInfo sm.round = .ok sm.currentRoundInfo := by
  rw [currentRoundInfo_eq h, getRoundInfo_current h]

/-- What can be retrieved after the current round changed. -/
theorem StateMachine.getRoundInfo_advance {sm : StateMachine} {r : ℤ} {ri x : RoundInfo}
    (h₀ : 0 ≤ sm.round) (hx : (sm.advance ri).getRoundInfo r = .ok x) :
    r < sm.round ∧ sm.getRoundInfo r = .ok x ∨ r = sm.round ∧ x = ri ∨
      r = sm.round + 1 ∧ x = { phase := .prepare } := by
  obtain ⟨h₁, h₂, h₃, rfl⟩ := getRoundInfo_eq_ok_iff.1 hx
  unfold advance at h₂ h₃ ⊢
  rw [setCurrent_eq h₀] at h₂ h₃ ⊢
  split_ifs at h₂ h₃ ⊢ with hfin
  · simp only [nextRound, initRound] at h₂ h₃ ⊢
    rcases lt_trichotomy r sm.round with hlt | rfl | hgt
    · refine Or.inl ⟨hlt, getRoundInfo_eq_ok_iff.2 ⟨h₁, by omega, by omega, ?_⟩⟩
      rw [Function.update_of_ne (slot_ne_of_lt (by omega) (by omega)),
        Function.update_of_ne (slot_ne_of_lt hlt (by omega))]
    · refine Or.inr (Or.inl ⟨rfl, ?_⟩)
      rw [Function.update_of_ne (slot_succ_ne _).symm, Function.update_self]
    · obtain rfl : r = sm.round + 1 := by omega
      exact Or.inr (Or.inr ⟨rfl, Function.update_self ..⟩)
  · rcases h₂.lt_or_eq with hlt | rfl
    · refine Or.inl ⟨hlt, getRoundInfo_eq_ok_iff.2 ⟨h₁, h₂, h₃, ?_⟩⟩
      exact Function.update_of_ne (slot_ne_of_lt hlt (by omega)) _ _
    · exact Or.inr (Or.inl ⟨rfl, Function.update_self ..⟩)

/-- The changed round can be retrieved. -/
theorem StateMachine.getRoundInfo_advance_self {sm : StateMachine} {ri : RoundInfo}
    (h₀ : 0 ≤ sm.round) : (sm.advance ri).getRoundInfo sm.round = .ok ri := by
  refine getRoundInfo_eq_ok_iff.2 ?_
  unfold advance
  rw [setCurrent_eq h₀]
  split_ifs
  · simp only [nextRound, initRound]
    refine ⟨h₀, by omega, by omega, ?_⟩
    rw [Function.update_of_ne (slot_succ_ne _).symm, Function.update_self]
  · exact ⟨h₀, le_rfl, by simp, by simp⟩

namespace Follows

theorem refl {s : StateMachine} (h : 0 ≤ s.round) : Follows s s where
  round_le := le_rfl
  finished _ _ _ h := h
  later ri hri := by
    rw [getRoundInfo_currentRoundInfo h] at hri
    cases hri
    exact Later.refl _

/-- Between two states of one round. -/
theorem later_of_round_eq {s t : StateMachine} (h : Follows s t) (ht : 0 ≤ t.round)
    (hr : t.round = s.round) : Later s.currentRoundInfo t.currentRoundInfo :=
  h.later _ (by rw [← hr]; exact getRoundInfo_currentRoundInfo ht)

/-- Between two states in which a round can be retrieved. -/
theorem later_of_getRoundInfo {s t : StateMachine} (h : Follows s t) {r : ℤ} {a b : RoundInfo}
    (ha : s.getRoundInfo r = .ok a) (hb : t.getRoundInfo r = .ok b) : Later a b := by
  obtain ⟨h₀, hle, -, -⟩ := getRoundInfo_eq_ok_iff.1 ha
  rcases hle.lt_or_eq with hlt | rfl
  · rw [h.finished r hlt b hb] at ha
    cases ha
    exact Later.refl _
  · rw [getRoundInfo_currentRoundInfo h₀] at ha
    cases ha
    exact h.later b hb

theorem trans {s t u : StateMachine} (ht : 0 ≤ t.round) (h₁ : Follows s t) (h₂ : Follows t u) :
    Follows s u where
  round_le := h₁.round_le.trans h₂.round_le
  finished r hr ri hri := h₁.finished r hr ri (h₂.finished r (hr.trans_le h₁.round_le) ri hri)
  later ri hri := by
    rcases h₁.round_le.lt_or_eq with hlt | heq
    · exact h₁.later ri (h₂.finished s.round hlt ri hri)
    · exact (h₁.later_of_round_eq ht heq.symm).trans (h₂.later ri (by rw [← heq]; exact hri))

/-- A state follows the one before an accepted operation. -/
theorem of_advance {sm : StateMachine} {op : Op} {ri : RoundInfo} (h₀ : 0 ≤ sm.round)
    (ha : Accepts sm.currentRoundInfo op ri) : Follows sm (sm.advance ri) where
  round_le := by
    unfold advance
    split_ifs <;> simp
  finished r hr x hx := by
    rcases getRoundInfo_advance h₀ hx with ⟨-, hold⟩ | ⟨rfl, -⟩ | ⟨rfl, -⟩
    · exact hold
    · omega
    · omega
  later x hx := by
    rcases getRoundInfo_advance h₀ hx with ⟨hlt, -⟩ | ⟨-, rfl⟩ | ⟨heq, -⟩
    · omega
    · exact ha.later
    · omega

theorem of_apply {sm sm' : StateMachine} {op : Op} {b : Bool} (h : Inv sm)
    (hs : sm.apply op = .ok (sm', b)) : Follows sm sm' := by
  cases b with
  | false =>
    rw [eq_of_apply_false hs]
    exact refl h.round_nonneg
  | true =>
    obtain ⟨-, ri, ha, rfl⟩ := apply_true_iff.1 hs
    exact of_advance h.round_nonneg ha

theorem of_leads {s t : StateMachine} (h : Inv s) (hl : Leads apply s t) : Follows s t := by
  obtain ⟨log, hlog⟩ := hl
  induction log generalizing s with
  | nil =>
    cases hlog
    exact refl h.round_nonneg
  | cons op log ih =>
    obtain ⟨r, hr, ht⟩ := run_cons_iff.1 hlog
    have hinv := h.apply hr
    exact trans hinv.round_nonneg (of_apply h hr) (ih hinv ht)

end Follows

theorem Accepts.participants_subset {ri ri' : RoundInfo} {op : Op} (h : Accepts ri op ri') :
    ri.participants ⊆ ri'.participants := by
  cases h with
  | join => exact List.subset_append_left _ _
  | transform st prev =>
    rw [(ri.install_frame _ _ _).1]
    exact List.Subset.refl _
  | start | message | reveal | abort => exact List.Subset.refl _

/-- Nobody leaves a round. -/
theorem participants_subset_of_leads {s t : StateMachine} (h : Inv s) (hl : Leads apply s t)
    (hr : t.round = s.round) :
    s.currentRoundInfo.participants ⊆ t.currentRoundInfo.participants := by
  obtain ⟨log, hlog⟩ := hl
  induction log generalizing s with
  | nil =>
    cases hlog
    exact List.Subset.refl _
  | cons op log ih =>
    obtain ⟨⟨u, b⟩, hs, ht⟩ := run_cons_iff.1 hlog
    have hu := h.apply hs
    -- the state in between is in the same round
    have hsu := (Follows.of_apply h hs).round_le
    have hut := (Follows.of_leads hu ⟨log, ht⟩).round_le
    have hru : u.round = s.round := by omega
    refine List.Subset.trans ?_ (ih hu (hr.trans hru.symm) ht)
    cases b with
    | false =>
      rw [eq_of_apply_false hs]
      exact List.Subset.refl _
    | true =>
      obtain ⟨-, ri, ha, rfl⟩ := apply_true_iff.1 hs
      rw [(h.currentRoundInfo_advance hru).2]
      exact ha.participants_subset

theorem StateMachine.mayPrecede_iff {s t : StateMachine} :
    s.mayPrecede t = true ↔ s.round < t.round ∨ s.round = t.round ∧
      phaseOrder s.currentRoundInfo.phase ≤ phaseOrder t.currentRoundInfo.phase := by
  unfold mayPrecede
  split_ifs with hlt hgt hph
  · simp [hlt]
  · simp only [false_iff]
    omega
  · simp only [false_iff]
    omega
  · simp only [true_iff]
    omega

/-- A later state may come later. -/
theorem Follows.mayPrecede {s t : StateMachine} (h : Follows s t) (ht : 0 ≤ t.round) :
    s.mayPrecede t = true := by
  rw [mayPrecede_iff]
  rcases h.round_le.lt_or_eq with hlt | heq
  · exact Or.inl hlt
  · exact Or.inr ⟨heq, (h.later_of_round_eq ht heq.symm).order⟩

/-- A later state may come earlier only if the run has stayed in its phase. -/
theorem Follows.phase_eq {s t : StateMachine} (h : Follows s t) (hs : Inv s) (ht : Inv t)
    (hts : t.mayPrecede s = true) :
    t.round = s.round ∧ t.currentRoundInfo.phase = s.currentRoundInfo.phase := by
  have hle := h.round_le
  rcases mayPrecede_iff.1 hts with hlt | ⟨heq, hord⟩
  · omega
  · have hord' := (h.later_of_round_eq ht.round_nonneg heq).order
    exact ⟨heq, ht.live.phaseOrder_injective hs.live (le_antisymm hord hord')⟩

/-- A phase that is left is not entered again: what lies between two states of one phase is in it.
-/
theorem Follows.phase_eq_of_between {s t u : StateMachine} (hst : Follows s t) (htu : Follows t u)
    (hs : Inv s) (ht : Inv t) (hu : 0 ≤ u.round) (hr : u.round = s.round)
    (hph : u.currentRoundInfo.phase = s.currentRoundInfo.phase) :
    t.round = s.round ∧ t.currentRoundInfo.phase = s.currentRoundInfo.phase := by
  have h := mayPrecede_iff.1 (htu.mayPrecede hu)
  rw [hr, hph] at h
  exact hst.phase_eq hs ht (mayPrecede_iff.2 h)

/-! ## Before the start -/

/-- A round that was not yet started, with its participants. -/
def RoundInfo.blank (ids : List UUID) : RoundInfo where
  phase := .prepare
  participants := ids
  messages := ids.map fun _ => nilMsg
  encrypted := ids.map fun _ => false
  scrambled := ids.map fun _ => false
  decrypted := ids.map fun _ => false
  revealedKeys := ids.map fun _ => nilPrivateKey
  revealKeyHashes := ids.map fun _ => []

theorem Accepts.blank {ri ri' : RoundInfo} {op : Op} (ha : Accepts ri op ri')
    (h : ri.phase = .prepare → ri = .blank ri.participants) (hph' : ri'.phase = .prepare) :
    ri' = .blank ri'.participants := by
  have hord := ha.later.order
  rw [hph'] at hord
  cases ha with
  | join hph hid =>
    rw [h hph]
    simp [RoundInfo.addParticipant, RoundInfo.blank]
  | start hph => cases hph'
  | message hph hp hm hh =>
    rw [hph] at hord
    exact absurd hord (by decide)
  | transform st prev hph hp hn hf =>
    rw [hph] at hord
    exact absurd hord (by cases st <;> decide)
  | reveal hph hp hk =>
    rw [hph] at hord
    exact absurd hord (by decide)
  | abort => cases hph'

theorem StateMachine.Reachable.blank {sm : StateMachine} (h : Reachable sm)
    (hph : sm.currentRoundInfo.phase = .prepare) :
    sm.currentRoundInfo = .blank sm.currentRoundInfo.participants := by
  obtain ⟨log, hlog⟩ := h
  have hstep : ∀ s (op : Op) t b,
      (Inv s ∧ (s.currentRoundInfo.phase = .prepare →
        s.currentRoundInfo = .blank s.currentRoundInfo.participants)) → s.apply op = .ok (t, b) →
      Inv t ∧ (t.currentRoundInfo.phase = .prepare →
        t.currentRoundInfo = .blank t.currentRoundInfo.participants) := by
    rintro s op t b ⟨hI, hs⟩ hap
    refine ⟨hI.apply hap, ?_⟩
    cases b with
    | false =>
      rw [eq_of_apply_false hap]
      exact hs
    | true =>
      obtain ⟨-, ri, ha, rfl⟩ := apply_true_iff.1 hap
      by_cases hfin : ri.phase = .done ∨ ri.phase = .failed
      · rw [advance_finished hfin, currentRoundInfo_nextRound (by simpa using hI.round_nonneg)]
        exact fun _ => rfl
      · rw [advance_unfinished hfin, currentRoundInfo_setCurrent hI.round_nonneg]
        exact ha.blank hs
  exact (run_preserves hstep ⟨Inv.new, fun _ => rfl⟩ hlog).2 hph

/-- The first round before it is started. -/
def StateMachine.joined (ids : List UUID) : StateMachine := ⟨0, ![.blank ids, {}, {}]⟩

/-- The first round right after it was started. -/
def StateMachine.begun (ids : List UUID) (mo : Crypto) : StateMachine :=
  ⟨0, ![{ RoundInfo.blank ids with phase := .submit, crypto := some mo }, {}, {}]⟩

/-! ## Operations that have become void -/

/-- The order of the phase in which an operation can take effect; an abort can in all of them. -/
def OpType.phaseOrder : OpType → ℕ
  | .join | .start => 0
  | .message => 1
  | .encrypted => 2
  | .scrambled => 3
  | .decrypted => 4
  | .reveal => 5
  | .abort => 7

theorem Accepts.phaseOrder_eq {ri ri' : RoundInfo} {op : Op} (h : Accepts ri op ri')
    (hop : op.type ≠ .abort) : phaseOrder ri.phase = op.type.phaseOrder := by
  cases h with
  | transform st prev hph hp hn hf =>
    rw [hph]
    cases st <;> rfl
  | abort => exact absurd rfl hop
  | join hph _ | start hph | message hph _ _ _ | reveal hph _ _ => rw [hph]; rfl

/-- The table of `GuaranteedNoEffect` lists operations of earlier phases only. -/
theorem noEffectIn_true {ph : Phase} {ty : OpType} (h : noEffectIn ph ty = .ok true) :
    ty ≠ .abort ∧ ty.phaseOrder < phaseOrder ph := by
  cases ph <;> cases ty <;> first | exact ⟨by decide, by decide⟩ | exact absurd h (by decide)

theorem noEffectIn_of_live {ph : Phase} (h : ph.Live) (ty : OpType) :
    ∃ b, noEffectIn ph ty = .ok b := by
  rcases h with rfl | rfl | rfl | rfl | rfl | rfl <;> exact ⟨_, rfl⟩

/-- An operation that is not accepted changes nothing and does not crash. -/
theorem Inv.apply_of_not_accepts {sm : StateMachine} (h : Inv sm) {op : Op}
    (hop : op.round = sm.round → ∀ ri, ¬ Accepts sm.currentRoundInfo op ri) :
    sm.apply op = .ok (sm, false) := by
  obtain ⟨sm', b, hs, -⟩ := h.apply_total op
  rcases StateMachine.apply_of_not_accepts hop with hf | ⟨e, he⟩
  · exact hf
  · rw [he] at hs
    cases hs

/-- An operation with a `true` answer is rejected in every later state. -/
theorem apply_of_guaranteedNoEffect {sm sm' : StateMachine} {op : Op} (h : Inv sm)
    (hl : Leads apply sm sm') (hop : sm.guaranteedNoEffect op = .ok true) :
    sm'.apply op = .ok (sm', false) := by
  have hf := Follows.of_leads h hl
  have h' := h.of_leads hl
  refine h'.apply_of_not_accepts fun hr ri ha => ?_
  unfold guaranteedNoEffect at hop
  split_ifs at hop with hlt heq
  · have := hf.round_le
    omega
  · obtain ⟨hne, hord⟩ := noEffectIn_true hop
    have hle := (hf.later_of_round_eq h'.round_nonneg (hr.symm.trans heq)).order
    have := ha.phaseOrder_eq hne
    omega
  · cases hop

/-- **`GuaranteedNoEffect`** is right about all later states, and its last branch is never taken. -/
theorem guaranteedNoEffect_sound {sm : StateMachine} (h : Reachable sm) (op : Op) :
    (sm.guaranteedNoEffect op = .ok true → ∀ log, ∃ sm', run apply sm log = .ok sm' ∧
      sm'.apply op = .ok (sm', false)) ∧
    sm.guaranteedNoEffect op ≠ .error .assertionFailed := by
  constructor
  · intro hop log
    obtain ⟨sm', hrun, -⟩ := run_total (fun s a hs => Inv.apply_total hs a) h.inv log
    exact ⟨sm', hrun, apply_of_guaranteedNoEffect h.inv ⟨log, hrun⟩ hop⟩
  · unfold guaranteedNoEffect
    split_ifs
    · simp
    · obtain ⟨b, hb⟩ := noEffectIn_of_live h.inv.live op.type
      simp [hb]
    · simp

/-- In the scramble phase an `EncryptedOp` has become void for good. -/
theorem guaranteedNoEffect_sound_scrambleState :
    scrambleState.guaranteedNoEffect (.encrypted 1 0 [] 0) = .ok true ∧
      ∃ sm', run apply scrambleState [.scrambled 1 0 [], .abort 0] = .ok sm' ∧
        sm'.apply (.encrypted 1 0 [] 0) = .ok (sm', false) :=
  ⟨by decide, (guaranteedNoEffect_sound reachable_scrambleState (.encrypted 1 0 [] 0)).1 (by decide)
    [.scrambled 1 0 [], .abort 0]⟩

end EggScrambler
