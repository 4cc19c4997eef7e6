import Mathlib
import EggScrambler.Apply

/-!
# The invariant of the state machine

`RoundInv` is what holds of every stored round, whatever operations the log contains: the
per-participant lists have the length of `Participants`, the flags of a stage are all down before
its phase, not all up during it and all up after it, and the scans for null messages and keys found
what the phase says.  `Inv` adds that the current round is in one of the six live phases.

`Accepts.roundInv` is the step lemma, one case for every handler, and `Reachable.inv` the run lemma.
-/

namespace EggScrambler

open StateMachine Transition

/-- Raised flags first, then lowered ones. -/
def IsRun (flags : List Bool) : Prop :=
  ∃ a b, flags = List.replicate a true ++ List.replicate b false

namespace IsRun

theorem numTrue_eq {a b : ℕ} :
    numTrue (List.replicate a true ++ List.replicate b false) = a := by
  simp [numTrue_eq_count, List.count_replicate]

theorem of_numTrue_eq_zero {flags : List Bool} (h : numTrue flags = 0) : IsRun flags :=
  ⟨0, flags.length, by
    simpa using List.eq_replicate_of_mem ((numTrue_eq_zero_iff flags).1 h)⟩

/-- Raising the flag whose index is the number of raised flags keeps the run. -/
theorem set {flags : List Bool} (h : IsRun flags) {p : ℕ} (hn : numTrue flags = p)
    (hp : p < flags.length) : IsRun (flags.set p true) := by
  obtain ⟨a, b, rfl⟩ := h
  rw [numTrue_eq] at hn
  subst hn
  simp only [List.length_append, List.length_replicate] at hp
  obtain ⟨c, rfl⟩ : ∃ c, b = c + 1 := ⟨b - 1, by omega⟩
  have hsucc : List.replicate (a + 1) true = List.replicate a true ++ [true] :=
    List.replicate_succ'
  refine ⟨a + 1, c, ?_⟩
  rw [List.set_append_right _ _ (by simp), hsucc]
  simp [List.replicate_succ]

/-- In a run, the flag `p` is the next one to raise exactly when those before it are raised and it
is not. -/
theorem numTrue_eq_iff {flags : List Bool} (h : IsRun flags) {p : ℕ} (hp : p < flags.length) :
    numTrue flags = p ↔ (∀ q < p, flags[q]? = some true) ∧ flags[p]? = some false := by
  obtain ⟨a, b, rfl⟩ := h
  simp only [List.length_append, List.length_replicate] at hp
  rw [numTrue_eq]
  have hget : ∀ q, q < a + b → (List.replicate a true ++ List.replicate b false)[q]? =
      some (decide (q < a)) := by
    intro q hq
    by_cases hqa : q < a
    · rw [List.getElem?_append_left (by simpa using hqa)]
      simp [hqa]
    · rw [List.getElem?_append_right (by simpa using hqa), List.length_replicate,
        List.getElem?_replicate_of_lt (by omega)]
      simp [hqa]
  constructor
  · rintro rfl
    exact ⟨fun q hq => by simp [hget q (by omega), hq], by simp [hget a hp]⟩
  · rintro ⟨hlow, hself⟩
    rw [hget p hp] at hself
    have h₁ : ¬ p < a := by simpa using hself
    by_contra hne
    have h₂ := hlow a (by omega)
    rw [hget a (by omega)] at h₂
    simp at h₂

end IsRun

/-- What holds of every stored round. -/
structure RoundInv (ri : RoundInfo) : Prop where
  nodup : ri.participants.Nodup
  flags_length : ∀ st : Stage, (st.flags ri).length = ri.participants.length
  keys_length : ri.revealedKeys.length = ri.participants.length
  hashes_length : ri.revealKeyHashes.length = ri.participants.length
  /-- Until the list handlers run, there is one message for every participant. -/
  messages_length : phaseOrder ri.phase ≤ 1 → ri.messages.length = ri.participants.length
  scrambled_run : IsRun ri.scrambled
  before : ∀ st : Stage, phaseOrder ri.phase < phaseOrder st.phase → numTrue (st.flags ri) = 0
  during : ∀ st : Stage, ri.phase = st.phase → numTrue (st.flags ri) < ri.participants.length
  after : ∀ st : Stage, phaseOrder st.phase < phaseOrder ri.phase → ri.phase ≠ .failed →
    numTrue (st.flags ri) = ri.participants.length
  prepare_nil : ri.phase = .prepare → ∀ m ∈ ri.messages, m.isNil = true
  submit_nil : ri.phase = .submit → ri.participants ≠ [] → ∃ m ∈ ri.messages, m.isNil = true
  keys_nil : phaseOrder ri.phase < 5 → ∀ k ∈ ri.revealedKeys, k.isNil = true
  reveal_nil : ri.phase = .reveal → ∃ k ∈ ri.revealedKeys, k.isNil = true
  done_keys : ri.phase = .done → ∀ k ∈ ri.revealedKeys, k.isNil = false

/-- The phases of a current round. -/
def Phase.Live (ph : Phase) : Prop :=
  ph = .prepare ∨ ph = .submit ∨ ph = .encrypt ∨ ph = .scramble ∨ ph = .decrypt ∨ ph = .reveal

/-- The invariant of the state machine. -/
structure Inv (sm : StateMachine) : Prop where
  round_nonneg : 0 ≤ sm.round
  rounds : ∀ i, RoundInv (sm.rounds i)
  live : sm.currentRoundInfo.phase.Live

/-! ## One step -/

/-- A round nobody has joined, before or at the start. -/
theorem RoundInv.of_empty {ph : Phase} (h : ph = .unset ∨ ph = .prepare) :
    RoundInv { phase := ph } := by
  have hflags : ∀ st : Stage, st.flags { phase := ph } = [] := fun st => by cases st <;> rfl
  have hst : ∀ st : Stage, ph ≠ st.phase ∧ ¬ phaseOrder st.phase < phaseOrder ph := by
    intro st
    rcases h with rfl | rfl <;> cases st <;> simp [Stage.phase, phaseOrder]
  constructor <;> try simp
  · intro st
    exact hflags st
  · exact ⟨0, 0, rfl⟩
  · intro st _
    rw [hflags]
    rfl
  · intro st hph
    exact absurd hph (hst st).1
  · intro st hlt
    exact absurd hlt (hst st).2
  · rcases h with rfl | rfl <;> simp

namespace Stage

theorem phaseOrder_mem (st : Stage) : 2 ≤ phaseOrder st.phase ∧ phaseOrder st.phase ≤ 4 := by
  cases st <;> decide

theorem phaseOrder_next (st : Stage) : phaseOrder st.next = phaseOrder st.phase + 1 := by
  cases st <;> rfl

theorem phase_injective {st st' : Stage} (h : phaseOrder st.phase = phaseOrder st'.phase) :
    st = st' := by
  cases st <;> cases st' <;> first | rfl | exact absurd h (by decide)

theorem phase_ne_failed (st : Stage) : st.phase ≠ .failed := by cases st <;> decide

end Stage

namespace RoundInfo

variable (ri : RoundInfo) (st : Stage)

@[simp] theorem flags_addParticipant (id : UUID) :
    st.flags (ri.addParticipant id) = st.flags ri ++ [false] := by cases st <;> rfl

@[simp] theorem flags_start (crypto : Option Crypto) :
    st.flags { ri with phase := .submit, crypto } = st.flags ri := by cases st <;> rfl

@[simp] theorem flags_putMessage (p : ℕ) (msg : Msg) (hash : Bytes) :
    st.flags (ri.putMessage p msg hash) = st.flags ri := by cases st <;> rfl

@[simp] theorem flags_putKey (p : ℕ) (key : PrivateKey) :
    st.flags (ri.putKey p key) = st.flags ri := by cases st <;> rfl

@[simp] theorem flags_abort : st.flags { ri with phase := .failed } = st.flags ri := by
  cases st <;> rfl

@[simp] theorem flags_install_self (p : ℕ) (messages : List Msg) :
    st.flags (ri.install st p messages) = (st.flags ri).set p true := by cases st <;> rfl

theorem flags_install_ne {st' : Stage} (h : st' ≠ st) (p : ℕ) (messages : List Msg) :
    st'.flags (ri.install st p messages) = st'.flags ri := by
  cases st <;> cases st' <;> first | rfl | exact absurd rfl h

@[simp] theorem messages_install (p : ℕ) (messages : List Msg) :
    (ri.install st p messages).messages = messages := by cases st <;> rfl

/-- The fields that a list handler leaves alone. -/
theorem install_frame (p : ℕ) (messages : List Msg) :
    (ri.install st p messages).participants = ri.participants ∧
    (ri.install st p messages).crypto = ri.crypto ∧
    (ri.install st p messages).revealedKeys = ri.revealedKeys ∧
    (ri.install st p messages).revealKeyHashes = ri.revealKeyHashes := by
  cases st <;> exact ⟨rfl, rfl, rfl, rfl⟩

/-- A list handler ends its phase when all flags are raised. -/
theorem phase_install (p : ℕ) (messages : List Msg) :
    (ri.install st p messages).phase =
      if numTrue ((st.flags ri).set p true) = (st.flags ri).length then st.next else ri.phase := by
  simp [install]

end RoundInfo

namespace RoundInv

variable {ri : RoundInfo}

/-- While the round is prepared or messages are submitted, no flag is raised. -/
theorem numTrue_eq_zero (h : RoundInv ri) (hph : phaseOrder ri.phase ≤ 1) (st : Stage) :
    numTrue (st.flags ri) = 0 := h.before st (lt_of_le_of_lt hph st.phaseOrder_mem.1)

theorem addParticipant (h : RoundInv ri) {id : UUID} (hph : ri.phase = .prepare)
    (hid : id ∉ ri.participants) : RoundInv (ri.addParticipant id) := by
  have hphase : (ri.addParticipant id).phase = .prepare := hph
  have hle : phaseOrder ri.phase ≤ 1 := by rw [hph]; decide
  have hzero : ∀ st : Stage, numTrue (st.flags (ri.addParticipant id)) = 0 := by
    intro st
    have := h.numTrue_eq_zero hle st
    simp_all [numTrue_eq_count]
  exact {
    nodup := by
      simp only [RoundInfo.addParticipant, List.nodup_append, h.nodup, List.nodup_singleton,
        List.mem_singleton, true_and]
      rintro a ha b rfl rfl
      exact hid ha
    flags_length := fun st => by
      rw [RoundInfo.flags_addParticipant, List.length_append, h.flags_length st]
      simp [RoundInfo.addParticipant]
    keys_length := by simp [RoundInfo.addParticipant, h.keys_length]
    hashes_length := by simp [RoundInfo.addParticipant, h.hashes_length]
    messages_length := fun _ => by simp [RoundInfo.addParticipant, h.messages_length hle]
    scrambled_run := IsRun.of_numTrue_eq_zero (hzero .scramble)
    before := fun st _ => hzero st
    during := fun st hst => by cases st <;> simp [hphase, Stage.phase] at hst
    after := fun st hst => by simp [hphase, phaseOrder] at hst
    prepare_nil := fun _ m hm => by
      rcases List.mem_append.1 hm with hm | hm
      · exact h.prepare_nil hph m hm
      · rw [List.mem_singleton.1 hm]
        rfl
    submit_nil := by simp [hphase]
    keys_nil := fun _ k hk => by
      rcases List.mem_append.1 hk with hk | hk
      · exact h.keys_nil (by omega) k hk
      · rw [List.mem_singleton.1 hk]
        rfl
    reveal_nil := by simp [hphase]
    done_keys := by simp [hphase] }

theorem start (h : RoundInv ri) (crypto : Option Crypto) (hph : ri.phase = .prepare) :
    RoundInv { ri with phase := .submit, crypto } := by
  have hle : phaseOrder ri.phase ≤ 1 := by rw [hph]; decide
  have hlen := h.messages_length hle
  exact {
    nodup := h.nodup
    flags_length := fun st => by
      rw [RoundInfo.flags_start]
      exact h.flags_length st
    keys_length := h.keys_length
    hashes_length := h.hashes_length
    messages_length := fun _ => hlen
    scrambled_run := h.scrambled_run
    before := fun st _ => by
      rw [RoundInfo.flags_start]
      exact h.numTrue_eq_zero hle st
    during := fun st hst => by cases st <;> simp [Stage.phase] at hst
    after := fun st hst => by
      have := st.phaseOrder_mem.1
      have hst : phaseOrder st.phase < 1 := hst
      omega
    prepare_nil := by simp
    submit_nil := fun _ hne => by
      obtain ⟨m, hm⟩ := List.exists_mem_of_length_pos
        (show 0 < ri.messages.length by rw [hlen]; exact List.length_pos_of_ne_nil hne)
      exact ⟨m, hm, h.prepare_nil hph m hm⟩
    keys_nil := fun _ => h.keys_nil (by omega)
    reveal_nil := by simp
    done_keys := by simp }

theorem putMessage (h : RoundInv ri) {p : ℕ} (msg : Msg) (hash : Bytes) (hph : ri.phase = .submit)
    (hp : p < ri.participants.length) : RoundInv (ri.putMessage p msg hash) := by
  have hle : phaseOrder ri.phase ≤ 1 := by rw [hph]; decide
  have hzero : ∀ st : Stage, numTrue (st.flags (ri.putMessage p msg hash)) = 0 := fun st => by
    rw [RoundInfo.flags_putMessage]
    exact h.numTrue_eq_zero hle st
  have hphase : (ri.putMessage p msg hash).phase = .submit ∧
        (∃ m ∈ (ri.putMessage p msg hash).messages, m.isNil = true) ∨
      (ri.putMessage p msg hash).phase = .encrypt := by
    simp only [RoundInfo.putMessage, hph]
    split_ifs with hany
    · exact Or.inl ⟨rfl, by simpa using hany⟩
    · exact Or.inr rfl
  have hord : phaseOrder (ri.putMessage p msg hash).phase ≤ 2 := by
    rcases hphase with ⟨hph', -⟩ | hph' <;> rw [hph'] <;> decide
  exact {
    nodup := h.nodup
    flags_length := fun st => by
      rw [RoundInfo.flags_putMessage]
      exact h.flags_length st
    keys_length := h.keys_length
    hashes_length := by simpa [RoundInfo.putMessage] using h.hashes_length
    messages_length := fun _ => by simpa [RoundInfo.putMessage] using h.messages_length hle
    scrambled_run := h.scrambled_run
    before := fun st _ => hzero st
    during := fun st _ => by
      rw [hzero st]
      exact Nat.zero_lt_of_lt hp
    after := fun st hst => by
      have := st.phaseOrder_mem.1
      omega
    prepare_nil := by rcases hphase with ⟨hph', -⟩ | hph' <;> simp [hph']
    submit_nil := fun hst _ => by
      rcases hphase with ⟨-, hnil⟩ | hph'
      · exact hnil
      · simp [hph'] at hst
    keys_nil := fun _ => h.keys_nil (by omega)
    reveal_nil := by rcases hphase with ⟨hph', -⟩ | hph' <;> simp [hph']
    done_keys := by rcases hphase with ⟨hph', -⟩ | hph' <;> simp [hph'] }

/-- The phase either stays or, with all flags raised, moves on by one. -/
theorem phaseOrder_install (h : RoundInv ri) {st : Stage} {p : ℕ} (messages : List Msg)
    (hph : ri.phase = st.phase) (hf : (st.flags ri)[p]? = some false) :
    numTrue (st.flags ri) + 1 < ri.participants.length ∧
        phaseOrder (ri.install st p messages).phase = phaseOrder st.phase ∨
      numTrue (st.flags ri) + 1 = ri.participants.length ∧
        phaseOrder (ri.install st p messages).phase = phaseOrder st.phase + 1 := by
  have hlt := h.during st hph
  rw [RoundInfo.phase_install, numTrue_set hf, h.flags_length st, hph]
  split_ifs with hall
  · exact Or.inr ⟨hall, st.phaseOrder_next⟩
  · exact Or.inl ⟨by omega, rfl⟩

theorem install (h : RoundInv ri) {st : Stage} {p : ℕ} (messages : List Msg)
    (hph : ri.phase = st.phase) (hp : p < ri.participants.length)
    (hf : (st.flags ri)[p]? = some false) (hrun : st = .scramble → numTrue ri.scrambled = p) :
    RoundInv (ri.install st p messages) := by
  obtain ⟨hparts, -, hkeys, hhashes⟩ := ri.install_frame st p messages
  have hn : numTrue ((st.flags ri).set p true) = numTrue (st.flags ri) + 1 := numTrue_set hf
  have hlt := h.during st hph
  have hmem := st.phaseOrder_mem
  have hord := h.phaseOrder_install messages hph hf
  have hge : 2 ≤ phaseOrder (ri.install st p messages).phase := by omega
  have hle : phaseOrder (ri.install st p messages).phase ≤ 5 := by omega
  exact {
    nodup := hparts ▸ h.nodup
    flags_length := fun st' => by
      rw [hparts]
      by_cases hst : st' = st
      · subst hst
        simpa using h.flags_length st'
      · rw [RoundInfo.flags_install_ne _ _ hst]
        exact h.flags_length st'
    keys_length := by rw [hkeys, hparts, h.keys_length]
    hashes_length := by rw [hhashes, hparts, h.hashes_length]
    messages_length := fun hle => by omega
    scrambled_run := by
      cases st with
      | scramble =>
        exact h.scrambled_run.set (hrun rfl) (hp.trans_eq (h.flags_length .scramble).symm)
      | encrypt => exact h.scrambled_run
      | decrypt => exact h.scrambled_run
    before := fun st' hlt' => by
      have hst : st' ≠ st := by
        rintro rfl
        omega
      rw [RoundInfo.flags_install_ne _ _ hst]
      exact h.before st' (by rw [hph]; omega)
    during := fun st' hph' => by
      rw [hparts]
      by_cases hst : st' = st
      · subst hst
        rw [RoundInfo.flags_install_self, hn]
        rw [hph'] at hord
        omega
      · have hne : phaseOrder st'.phase ≠ phaseOrder st.phase :=
          fun e => hst (Stage.phase_injective e)
        rw [RoundInfo.flags_install_ne _ _ hst,
          h.before st' (by rw [hph]; rw [hph'] at hord; omega)]
        omega
    after := fun st' hlt' _ => by
      rw [hparts]
      by_cases hst : st' = st
      · subst hst
        rw [RoundInfo.flags_install_self, hn]
        omega
      · have hne : phaseOrder st'.phase ≠ phaseOrder st.phase :=
          fun e => hst (Stage.phase_injective e)
        rw [RoundInfo.flags_install_ne _ _ hst]
        exact h.after st' (by rw [hph]; omega) (hph ▸ st.phase_ne_failed)
    prepare_nil := fun hph' => by
      rw [hph'] at hge
      exact absurd hge (by decide)
    submit_nil := fun hph' => by
      rw [hph'] at hge
      exact absurd hge (by decide)
    keys_nil := fun _ => by
      rw [hkeys]
      exact h.keys_nil (by rw [hph]; omega)
    reveal_nil := fun _ => by
      rw [hkeys]
      obtain ⟨k, hk⟩ := List.exists_mem_of_length_pos
        (show 0 < ri.revealedKeys.length by rw [h.keys_length]; omega)
      exact ⟨k, hk, h.keys_nil (by rw [hph]; omega) k hk⟩
    done_keys := fun hph' => by
      rw [hph'] at hle
      exact absurd hle (by decide) }

theorem putKey (h : RoundInv ri) {p : ℕ} (key : PrivateKey) (hph : ri.phase = .reveal) :
    RoundInv (ri.putKey p key) := by
  have hphase : (ri.putKey p key).phase = .reveal ∧
        (∃ k ∈ (ri.putKey p key).revealedKeys, k.isNil = true) ∨
      (ri.putKey p key).phase = .done ∧ ∀ k ∈ (ri.putKey p key).revealedKeys, k.isNil = false := by
    simp only [RoundInfo.putKey, hph]
    split_ifs with hany
    · exact Or.inl ⟨rfl, by simpa using hany⟩
    · exact Or.inr ⟨rfl, by simpa using hany⟩
  have hord : 5 ≤ phaseOrder (ri.putKey p key).phase := by
    rcases hphase with ⟨hph', -⟩ | ⟨hph', -⟩ <;> rw [hph'] <;> decide
  have hall : ∀ st : Stage, numTrue (st.flags (ri.putKey p key)) = ri.participants.length := by
    intro st
    rw [RoundInfo.flags_putKey]
    refine h.after st ?_ (by rw [hph]; decide)
    rw [hph]
    exact lt_of_le_of_lt st.phaseOrder_mem.2 (by decide)
  exact {
    nodup := h.nodup
    flags_length := fun st => by
      rw [RoundInfo.flags_putKey]
      exact h.flags_length st
    keys_length := by simpa [RoundInfo.putKey] using h.keys_length
    hashes_length := h.hashes_length
    messages_length := fun _ => by omega
    scrambled_run := h.scrambled_run
    before := fun st _ => by
      have := st.phaseOrder_mem.2
      omega
    during := fun st hst => by
      have := st.phaseOrder_mem.2
      rw [hst] at hord
      omega
    after := fun st _ _ => hall st
    prepare_nil := by rcases hphase with ⟨hph', -⟩ | ⟨hph', -⟩ <;> simp [hph']
    submit_nil := by rcases hphase with ⟨hph', -⟩ | ⟨hph', -⟩ <;> simp [hph']
    keys_nil := fun _ => by omega
    reveal_nil := by
      rcases hphase with ⟨-, hnil⟩ | ⟨hph', -⟩
      · exact fun _ => hnil
      · simp [hph']
    done_keys := by
      rcases hphase with ⟨hph', -⟩ | ⟨-, hkeys⟩
      · simp [hph']
      · exact fun _ => hkeys }

theorem abort (h : RoundInv ri) : RoundInv { ri with phase := .failed } := by
  have hst : ∀ st : Stage, phaseOrder st.phase < 7 := fun st =>
    lt_of_le_of_lt st.phaseOrder_mem.2 (by decide)
  exact {
    nodup := h.nodup
    flags_length := fun st => by
      rw [RoundInfo.flags_abort]
      exact h.flags_length st
    keys_length := h.keys_length
    hashes_length := h.hashes_length
    messages_length := by simp [phaseOrder]
    scrambled_run := h.scrambled_run
    before := fun st hlt => absurd hlt (not_lt.2 (hst st).le)
    during := fun st hph => absurd hph.symm st.phase_ne_failed
    after := by simp
    prepare_nil := by simp
    submit_nil := by simp
    keys_nil := by simp [phaseOrder]
    reveal_nil := by simp
    done_keys := by simp }

end RoundInv

/-- Every handler keeps the invariant of the current round. -/
theorem Accepts.roundInv {ri ri' : RoundInfo} {op : Op} (ha : Accepts ri op ri')
    (h : RoundInv ri) : RoundInv ri' := by
  cases ha with
  | join hph hid => exact h.addParticipant hph hid
  | start hph => exact h.start _ hph
  | message hph hp hm hh => exact h.putMessage _ _ hph (RoundInfo.participantIndex_lt hp)
  | @transform st prev id r messages p hph hp hn hf =>
    refine h.install messages hph (RoundInfo.participantIndex_lt hp) hf ?_
    rintro rfl
    exact Int.ofNat.inj hn
  | reveal hph hp hk => exact h.putKey _ hph
  | abort => exact h.abort

/-- A handler leaves the current round in a live phase or finishes it. -/
theorem Accepts.live_or_finished {ri ri' : RoundInfo} {op : Op} (ha : Accepts ri op ri') :
    ri'.phase.Live ∨ ri'.phase = .done ∨ ri'.phase = .failed := by
  cases ha with
  | join hph hid => exact Or.inl (Or.inl hph)
  | start hph => simp [Phase.Live]
  | message hph hp hm hh =>
    simp only [RoundInfo.putMessage, hph]
    split_ifs <;> simp [Phase.Live]
  | @transform st prev id r messages p hph hp hn hf =>
    rw [RoundInfo.phase_install, hph]
    split_ifs <;> cases st <;> simp [Phase.Live, Stage.phase, Stage.next]
  | reveal hph hp hk =>
    simp only [RoundInfo.putKey, hph]
    split_ifs <;> simp [Phase.Live]
  | abort => simp

/-- A round is done after its reveal phase, and only an abort makes it fail. -/
theorem Accepts.finished_cases {ri ri' : RoundInfo} {op : Op} (ha : Accepts ri op ri')
    (hfin : ri'.phase = .done ∨ ri'.phase = .failed) :
    ri.phase = .reveal ∧ ri'.phase = .done ∨ ri' = { ri with phase := .failed } := by
  cases ha with
  | @join id r hph hid =>
    have hph' : (ri.addParticipant id).phase = .prepare := hph
    simp [hph'] at hfin
  | start hph => simp at hfin
  | message hph hp hm hh =>
    simp only [RoundInfo.putMessage, hph] at hfin
    split_ifs at hfin <;> simp at hfin
  | @transform st prev id r messages p hph hp hn hf =>
    exact absurd hfin (RoundInfo.install_unfinished hph p messages)
  | @reveal id r key p hph hp hk =>
    refine Or.inl ⟨hph, hfin.resolve_right fun hfail => ?_⟩
    simp only [RoundInfo.putKey, hph] at hfail
    split_ifs at hfail
  | abort => exact Or.inr rfl

namespace Inv

variable {sm : StateMachine}

theorem current (h : Inv sm) : RoundInv sm.currentRoundInfo := by
  rw [currentRoundInfo_eq h.round_nonneg]
  exact h.rounds _

theorem advance (h : Inv sm) {op : Op} {ri : RoundInfo} (ha : Accepts sm.currentRoundInfo op ri) :
    Inv (sm.advance ri) where
  round_nonneg := by
    have := h.round_nonneg
    unfold StateMachine.advance
    split_ifs <;> simp
    · omega
    · exact this
  rounds := forall_rounds_advance h.round_nonneg h.rounds (ha.roundInv h.current)
    (RoundInv.of_empty (Or.inr rfl))
  live := by
    by_cases hfin : ri.phase = .done ∨ ri.phase = .failed
    · rw [advance_finished hfin, currentRoundInfo_nextRound (by simpa using h.round_nonneg)]
      exact Or.inl rfl
    · rw [advance_unfinished hfin, currentRoundInfo_setCurrent h.round_nonneg]
      exact ha.live_or_finished.resolve_right hfin

/-- A round that goes on is stored as the current one. -/
theorem currentRoundInfo_advance {ri : RoundInfo} (h : Inv sm)
    (hr : (sm.advance ri).round = sm.round) :
    ¬ (ri.phase = .done ∨ ri.phase = .failed) ∧ (sm.advance ri).currentRoundInfo = ri := by
  by_cases hfin : ri.phase = .done ∨ ri.phase = .failed
  · rw [advance_finished hfin, round_nextRound, round_setCurrent] at hr
    omega
  · rw [advance_unfinished hfin]
    exact ⟨hfin, currentRoundInfo_setCurrent h.round_nonneg ri⟩

/-- `Apply` keeps the invariant. -/
theorem apply (h : Inv sm) {op : Op} {sm' : StateMachine} {b : Bool}
    (hs : sm.apply op = .ok (sm', b)) : Inv sm' := by
  cases b with
  | false =>
    rw [eq_of_apply_false hs]
    exact h
  | true =>
    obtain ⟨-, ri, ha, rfl⟩ := apply_true_iff.1 hs
    exact h.advance ha

theorem new : Inv newStateMachine where
  round_nonneg := le_rfl
  rounds i := by
    simp only [newStateMachine, initRound]
    by_cases hi : i = slot 0
    · subst hi
      simpa using RoundInv.of_empty (Or.inr rfl)
    · rw [Function.update_of_ne hi]
      exact RoundInv.of_empty (Or.inl rfl)
  live := Or.inl rfl

/-! ## No handler crashes -/

theorem message_ne_error (h : Inv sm) (id : UUID) (msg : Msg) (hash : Bytes) (e : Panic) :
    sm.message id msg hash ≠ .error e := by
  intro he
  by_cases hph : sm.currentRoundInfo.phase = .submit
  · rcases hp : sm.currentRoundInfo.participantIndex id with _ | p
    · simp [message, hph, hp] at he
    · have hlt := RoundInfo.participantIndex_lt hp
      rw [message_accepts hph hp
        (by rw [h.current.messages_length (by rw [hph]; decide)]; exact hlt)
        (by rw [h.current.hashes_length]; exact hlt)] at he
      cases he
  · simp [message, hph] at he

theorem transform_ne_error (h : Inv sm) (st : Stage) (id : UUID) (messages : List Msg)
    (expected : ℕ → ℤ) (e : Panic) : transform st sm id messages expected ≠ .error e := by
  intro he
  by_cases hph : sm.currentRoundInfo.phase = st.phase
  · rcases hp : sm.currentRoundInfo.participantIndex id with _ | p
    · simp [transform, hph, hp] at he
    · by_cases hn : (numTrue (st.flags sm.currentRoundInfo) : ℤ) = expected p
      · have hlt : p < (st.flags sm.currentRoundInfo).length := by
          rw [h.current.flags_length]
          exact RoundInfo.participantIndex_lt hp
        rcases hf : (st.flags sm.currentRoundInfo)[p]? with _ | b
        · exact absurd hlt (not_lt.2 (List.getElem?_eq_none_iff.1 hf))
        · cases b
          · rw [transform_accepts hph hp hn hf] at he
            cases he
          · simp [transform, hph, hp, hn, getAt_of_some hf, bind, Except.bind, pure,
              Except.pure] at he
      · simp [transform, hph, hp, hn] at he
  · simp [transform, hph] at he

theorem reveal_ne_error (h : Inv sm) (id : UUID) (key : PrivateKey) (e : Panic) :
    sm.reveal id key ≠ .error e := by
  intro he
  by_cases hph : sm.currentRoundInfo.phase = .reveal
  · rcases hp : sm.currentRoundInfo.participantIndex id with _ | p
    · simp [reveal, hph, hp] at he
    · rw [reveal_accepts hph hp
        (by rw [h.current.keys_length]; exact RoundInfo.participantIndex_lt hp)] at he
      cases he
  · simp [reveal, hph] at he

/-- `Apply` never indexes out of range. -/
theorem apply_total (h : Inv sm) (op : Op) : ∃ sm' b, sm.apply op = .ok (sm', b) ∧ Inv sm' := by
  rcases hs : sm.apply op with e | ⟨sm', b⟩
  · exfalso
    unfold StateMachine.apply at hs
    split_ifs at hs with hr
    cases op with
    | join id r => cases hs
    | start id r crypto => cases hs
    | message id r msg hash => exact h.message_ne_error _ _ _ _ hs
    | encrypted id r messages prev => exact h.transform_ne_error _ _ _ _ _ hs
    | scrambled id r messages => exact h.transform_ne_error _ _ _ _ _ hs
    | decrypted id r messages prev => exact h.transform_ne_error _ _ _ _ _ hs
    | reveal id r key => exact h.reveal_ne_error _ _ _ hs
    | abort r => cases hs
  · exact ⟨sm', b, rfl, h.apply hs⟩

theorem of_leads (h : Inv sm) {sm' : StateMachine} (hl : Leads StateMachine.apply sm sm') :
    Inv sm' := by
  obtain ⟨log, hlog⟩ := hl
  exact run_preserves (fun s a t b hs ht => Inv.apply hs ht) h hlog

end Inv

theorem StateMachine.Reachable.inv {sm : StateMachine} (h : Reachable sm) : Inv sm :=
  Inv.new.of_leads h

/-! ## Phases and flags -/

/-- What the phase of a round says about its participants, flags, messages and keys. -/
def PhaseFlags (ri : RoundInfo) : Prop :=
  ri.participants.Nodup ∧
  ri.encrypted.length = ri.participants.length ∧
  ri.scrambled.length = ri.participants.length ∧
  ri.decrypted.length = ri.participants.length ∧
  ri.revealedKeys.length = ri.participants.length ∧
  ri.revealKeyHashes.length = ri.participants.length ∧
  IsRun ri.scrambled ∧
  (ri.phase = .submit → 1 ≤ ri.participants.length → ∃ m ∈ ri.messages, m.isNil = true) ∧
  (ri.phase = .encrypt → (∀ b ∈ ri.scrambled, b = false) ∧ (∀ b ∈ ri.decrypted, b = false) ∧
    ri.numEncrypted < ri.participants.length) ∧
  (ri.phase = .scramble → (∀ b ∈ ri.encrypted, b = true) ∧ (∀ b ∈ ri.decrypted, b = false) ∧
    ri.numScrambled < ri.participants.length) ∧
  (ri.phase = .decrypt → (∀ b ∈ ri.encrypted, b = true) ∧ (∀ b ∈ ri.scrambled, b = true) ∧
    ri.numDecrypted < ri.participants.length) ∧
  (ri.phase = .reveal → (∀ b ∈ ri.encrypted, b = true) ∧ (∀ b ∈ ri.scrambled, b = true) ∧
    (∀ b ∈ ri.decrypted, b = true) ∧ ∃ k ∈ ri.revealedKeys, k.isNil = true) ∧
  (ri.phase = .done → (∀ b ∈ ri.encrypted, b = true) ∧ (∀ b ∈ ri.scrambled, b = true) ∧
    (∀ b ∈ ri.decrypted, b = true) ∧ ∀ k ∈ ri.revealedKeys, k.isNil = false)

namespace RoundInv

variable {ri : RoundInfo}

theorem lowered (h : RoundInv ri) (st : Stage) (hlt : phaseOrder ri.phase < phaseOrder st.phase) :
    ∀ b ∈ st.flags ri, b = false := (numTrue_eq_zero_iff _).1 (h.before st hlt)

theorem raised (h : RoundInv ri) (st : Stage) (hlt : phaseOrder st.phase < phaseOrder ri.phase)
    (hf : ri.phase ≠ .failed) : ∀ b ∈ st.flags ri, b = true :=
  (numTrue_eq_length_iff _).1 ((h.after st hlt hf).trans (h.flags_length st).symm)

theorem phaseFlags (h : RoundInv ri) : PhaseFlags ri := by
  refine ⟨h.nodup, h.flags_length .encrypt, h.flags_length .scramble, h.flags_length .decrypt,
    h.keys_length, h.hashes_length, h.scrambled_run,
    fun hph hn => h.submit_nil hph (List.ne_nil_of_length_pos hn), fun hph => ?_, fun hph => ?_,
    fun hph => ?_, fun hph => ?_, fun hph => ?_⟩
  · exact ⟨h.lowered .scramble (by rw [hph]; decide), h.lowered .decrypt (by rw [hph]; decide),
      h.during .encrypt hph⟩
  · exact ⟨h.raised .encrypt (by rw [hph]; decide) (by rw [hph]; decide),
      h.lowered .decrypt (by rw [hph]; decide), h.during .scramble hph⟩
  · exact ⟨h.raised .encrypt (by rw [hph]; decide) (by rw [hph]; decide),
      h.raised .scramble (by rw [hph]; decide) (by rw [hph]; decide), h.during .decrypt hph⟩
  · exact ⟨h.raised .encrypt (by rw [hph]; decide) (by rw [hph]; decide),
      h.raised .scramble (by rw [hph]; decide) (by rw [hph]; decide),
      h.raised .decrypt (by rw [hph]; decide) (by rw [hph]; decide), h.reveal_nil hph⟩
  · exact ⟨h.raised .encrypt (by rw [hph]; decide) (by rw [hph]; decide),
      h.raised .scramble (by rw [hph]; decide) (by rw [hph]; decide),
      h.raised .decrypt (by rw [hph]; decide) (by rw [hph]; decide), h.done_keys hph⟩

end RoundInv

/-- In the scramble phase an operation is accepted exactly when it is its sender's turn. -/
theorem Inv.scrambled_accepted_iff {sm : StateMachine} (h : Inv sm)
    (hph : sm.currentRoundInfo.phase = .scramble) (id : UUID) (messages : List Msg) :
    (∃ sm', sm.apply (.scrambled id sm.round messages) = .ok (sm', true)) ↔
      ∃ p : ℕ, sm.currentRoundInfo.participants[p]? = some id ∧
        (∀ q < p, sm.currentRoundInfo.scrambled[q]? = some true) ∧
        sm.currentRoundInfo.scrambled[p]? = some false := by
  have hlen := h.current.flags_length .scramble
  constructor
  · rintro ⟨sm', hs⟩
    obtain ⟨-, ri, ha, -⟩ := apply_true_iff.1 hs
    obtain ⟨-, p, hp, hn, hf, -⟩ := Accepts.of_op .scramble 0 ha
    have hlt := (List.getElem?_eq_some_iff.1 hf).1
    refine ⟨p, RoundInfo.participantIndex_eq_some hp, ?_⟩
    exact (h.current.scrambled_run.numTrue_eq_iff hlt).1 (Int.ofNat.inj hn)
  · rintro ⟨p, hid, hturn⟩
    have hlt := (List.getElem?_eq_some_iff.1 hturn.2).1
    have hn := (h.current.scrambled_run.numTrue_eq_iff hlt).2 hturn
    exact ⟨_, apply_of_accepts rfl (.transform .scramble 0 hph
      (RoundInfo.participantIndex_of_getElem? h.current.nodup hid) (congrArg Int.ofNat hn)
      hturn.2)⟩

/-- **Phases and flags** agree in every stored round after every log. -/
theorem phase_flags {sm : StateMachine} (h : Reachable sm) :
    0 ≤ sm.round ∧ sm.currentRoundInfo.phase.Live ∧ (∀ i, PhaseFlags (sm.rounds i)) ∧
      (sm.currentRoundInfo.phase = .scramble → ∀ id messages,
        (∃ sm', sm.apply (.scrambled id sm.round messages) = .ok (sm', true)) ↔
          ∃ p : ℕ, sm.currentRoundInfo.participants[p]? = some id ∧
            (∀ q < p, sm.currentRoundInfo.scrambled[q]? = some true) ∧
            sm.currentRoundInfo.scrambled[p]? = some false) :=
  ⟨h.inv.round_nonneg, h.inv.live, fun i => (h.inv.rounds i).phaseFlags,
    fun hph id messages => h.inv.scrambled_accepted_iff hph id messages⟩

/-- A log that brings a round of two participants to its scramble phase. -/
def scrambleLog : List Op :=
  [.join 1 0, .join 2 0, .start 1 0 (some ⟨[7]⟩), .message 2 0 ⟨[3]⟩ [9], .message 1 0 ⟨[5]⟩ [8],
    .encrypted 2 0 [⟨[5]⟩, ⟨[3]⟩] 0, .encrypted 1 0 [⟨[5]⟩, ⟨[3]⟩] 1]

/-- The state after `scrambleLog`. -/
def scrambleState : StateMachine where
  round := 0
  rounds := ![{
    phase := .scramble
    crypto := some ⟨[7]⟩
    participants := [1, 2]
    messages := [⟨[5]⟩, ⟨[3]⟩]
    encrypted := [true, true]
    scrambled := [false, false]
    decrypted := [false, false]
    revealedKeys := [nilPrivateKey, nilPrivateKey]
    revealKeyHashes := [[8], [9]] }, {}, {}]

theorem reachable_scrambleState : Reachable scrambleState :=
  ⟨scrambleLog, run_of_endsIn (by decide +kernel)⟩

theorem phase_flags_scrambleState :
    ∃ sm', scrambleState.apply (.scrambled 1 0 []) = .ok (sm', true) :=
  ((phase_flags reachable_scrambleState).2.2.2 rfl 1 []).2
    ⟨0, rfl, fun q hq => absurd hq (Nat.not_lt_zero q), rfl⟩

end EggScrambler
