import Mathlib
import EggScrambler.StateMachine

/-!
# What one operation can do

`Accepts ri op ri'` says that `op` takes effect on a current round `ri` and turns it into `ri'`; it
has one constructor for every handler, with all the handler's guards (the three list handlers are
one, at their `Stage`).  `advance` stores the changed round and, when it is finished, opens the
next one.

`apply_true_iff` and `eq_of_apply_false` are the only facts about `apply` that the rest of the
development uses: an operation either takes effect as `Accepts` says or changes nothing.
-/

namespace EggScrambler

open StateMachine

/-! ## Lists -/

theorem numTrue_eq_count (flags : List Bool) : numTrue flags = flags.count true := by
  have h : ∀ n, flags.foldl (fun n s => if s then n + 1 else n) n = n + flags.count true := by
    induction flags with
    | nil => simp
    | cons b flags ih =>
      intro n
      cases b <;> simp [ih]
      omega
  simpa [numTrue] using h 0

theorem numTrue_eq_zero_iff (flags : List Bool) : numTrue flags = 0 ↔ ∀ b ∈ flags, b = false := by
  rw [numTrue_eq_count, List.count_eq_zero]
  constructor
  · intro h b hb
    cases b
    · rfl
    · exact absurd hb h
  · intro h hb
    exact absurd (h true hb) (by decide)

theorem numTrue_eq_length_iff (flags : List Bool) :
    numTrue flags = flags.length ↔ ∀ b ∈ flags, b = true := by
  rw [numTrue_eq_count, List.count_eq_length]
  exact forall₂_congr fun b _ => eq_comm

theorem numTrue_set {flags : List Bool} {p : ℕ} (hp : flags[p]? = some false) :
    numTrue (flags.set p true) = numTrue flags + 1 := by
  obtain ⟨hlt, hget⟩ := List.getElem?_eq_some_iff.1 hp
  rw [numTrue_eq_count, numTrue_eq_count, List.count_set hlt, hget]
  simp

theorem getAt_of_some {α : Type} {xs : List α} {i : ℕ} {x : α} (h : xs[i]? = some x) :
    getAt xs i = .ok x := by simp [getAt, h]

theorem setAt_of_lt {α : Type} {xs : List α} {i : ℕ} {x : α} (h : i < xs.length) :
    setAt xs i x = .ok (xs.set i x) := by simp [setAt, h]

namespace RoundInfo

theorem participantIndex_eq_some {ri : RoundInfo} {id : UUID} {p : ℕ}
    (h : ri.participantIndex id = some p) : ri.participants[p]? = some id := by
  obtain ⟨hlt, hid, -⟩ := List.findIdx?_eq_some_iff_getElem.1 h
  rw [List.getElem?_eq_getElem hlt, beq_iff_eq.1 hid]

theorem participantIndex_lt {ri : RoundInfo} {id : UUID} {p : ℕ}
    (h : ri.participantIndex id = some p) : p < ri.participants.length :=
  (List.getElem?_eq_some_iff.1 (participantIndex_eq_some h)).1

theorem participantIndex_eq_none_iff {ri : RoundInfo} {id : UUID} :
    ri.participantIndex id = none ↔ id ∉ ri.participants := by
  rw [participantIndex, List.findIdx?_eq_none_iff]
  constructor
  · intro h hid
    simpa using h id hid
  · intro h x hx
    simp only [beq_eq_false_iff_ne]
    rintro rfl
    exact h hx

theorem participantIndex_of_getElem? {ri : RoundInfo} (hnd : ri.participants.Nodup) {id : UUID}
    {p : ℕ} (h : ri.participants[p]? = some id) : ri.participantIndex id = some p := by
  rcases hq : ri.participantIndex id with _ | q
  · exact absurd (List.mem_of_getElem? h) (participantIndex_eq_none_iff.1 hq)
  · have hlt := (List.getElem?_eq_some_iff.1 h).1
    rw [(List.getElem?_inj hlt hnd).1 (h.trans (participantIndex_eq_some hq).symm)]

/-! ## The changed round of each handler -/

/-- The round after a join. -/
def addParticipant (ri : RoundInfo) (id : UUID) : RoundInfo :=
  { ri with
    participants := ri.participants ++ [id]
    messages := ri.messages ++ [nilMsg]
    encrypted := ri.encrypted ++ [false]
    scrambled := ri.scrambled ++ [false]
    decrypted := ri.decrypted ++ [false]
    revealedKeys := ri.revealedKeys ++ [nilPrivateKey]
    revealKeyHashes := ri.revealKeyHashes ++ [[]] }

/-- The round after the message of the participant with index `p`. -/
def putMessage (ri : RoundInfo) (p : ℕ) (msg : Msg) (hash : Bytes) : RoundInfo :=
  { ri with
    messages := ri.messages.set p msg
    revealKeyHashes := ri.revealKeyHashes.set p hash
    phase := if (ri.messages.set p msg).any Msg.isNil then ri.phase else .encrypt }

/-- The round after the participant with index `p` replaced the messages at the stage `st`. -/
def install (ri : RoundInfo) (st : Stage) (p : ℕ) (messages : List Msg) : RoundInfo :=
  { st.setFlags { ri with messages } ((st.flags ri).set p true) with
    phase := if numTrue ((st.flags ri).set p true) = ((st.flags ri).set p true).length then st.next
      else ri.phase }

/-- The round after the participant with index `p` revealed a key. -/
def putKey (ri : RoundInfo) (p : ℕ) (key : PrivateKey) : RoundInfo :=
  { ri with
    revealedKeys := ri.revealedKeys.set p key
    phase := if (ri.revealedKeys.set p key).any PrivateKey.isNil then ri.phase else .done }

end RoundInfo

namespace Stage

/-- What the number of raised flags must be: the counter, or the index of the participant. -/
def ticket (st : Stage) (prev : ℤ) (p : ℕ) : ℤ :=
  match st with
  | encrypt | decrypt => prev
  | scramble => p

@[simp] theorem round_op (st : Stage) (id : UUID) (r : ℤ) (messages : List Msg) (prev : ℤ) :
    (st.op id r messages prev).round = r := by cases st <;> rfl

end Stage

/-- A list handler never finishes the round. -/
theorem RoundInfo.install_unfinished {ri : RoundInfo} {st : Stage} (hph : ri.phase = st.phase)
    (p : ℕ) (messages : List Msg) : ¬ ((ri.install st p messages).phase = .done ∨
      (ri.install st p messages).phase = .failed) := by
  simp only [install, hph]
  split_ifs <;> cases st <;> simp [Stage.next, Stage.phase]

/-- Operation `op` takes effect on the current round `ri` and leaves `ri'`. -/
inductive Accepts (ri : RoundInfo) : Op → RoundInfo → Prop
  | join {id : UUID} {r : ℤ} (hph : ri.phase = .prepare) (hid : id ∉ ri.participants) :
      Accepts ri (.join id r) (ri.addParticipant id)
  | start {id : UUID} {r : ℤ} {crypto : Option Crypto} (hph : ri.phase = .prepare) :
      Accepts ri (.start id r crypto) { ri with phase := .submit, crypto }
  | message {id : UUID} {r : ℤ} {msg : Msg} {hash : Bytes} {p : ℕ} (hph : ri.phase = .submit)
      (hp : ri.participantIndex id = some p) (hm : p < ri.messages.length)
      (hh : p < ri.revealKeyHashes.length) :
      Accepts ri (.message id r msg hash) (ri.putMessage p msg hash)
  | transform (st : Stage) (prev : ℤ) {id : UUID} {r : ℤ} {messages : List Msg} {p : ℕ}
      (hph : ri.phase = st.phase) (hp : ri.participantIndex id = some p)
      (hn : (numTrue (st.flags ri) : ℤ) = st.ticket prev p) (hf : (st.flags ri)[p]? = some false) :
      Accepts ri (st.op id r messages prev) (ri.install st p messages)
  | reveal {id : UUID} {r : ℤ} {key : PrivateKey} {p : ℕ} (hph : ri.phase = .reveal)
      (hp : ri.participantIndex id = some p) (hk : p < ri.revealedKeys.length) :
      Accepts ri (.reveal id r key) (ri.putKey p key)
  | abort {r : ℤ} : Accepts ri (.abort r) { ri with phase := .failed }

namespace Accepts

variable {ri ri' : RoundInfo} {id : UUID} {r : ℤ}

theorem of_join (ha : Accepts ri (.join id r) ri') :
    ri.phase = .prepare ∧ id ∉ ri.participants ∧ ri' = ri.addParticipant id := by
  generalize hop : Op.join id r = op at ha
  cases ha with
  | join hph hid =>
    cases hop
    exact ⟨hph, hid, rfl⟩
  | transform st => cases st <;> cases hop
  | _ => cases hop

theorem of_start {crypto : Option Crypto} (ha : Accepts ri (.start id r crypto) ri') :
    ri.phase = .prepare ∧ ri' = { ri with phase := .submit, crypto } := by
  generalize hop : Op.start id r crypto = op at ha
  cases ha with
  | start hph =>
    cases hop
    exact ⟨hph, rfl⟩
  | transform st => cases st <;> cases hop
  | _ => cases hop

theorem of_message {msg : Msg} {hash : Bytes} (ha : Accepts ri (.message id r msg hash) ri') :
    ri.phase = .submit ∧ ∃ p, ri.participantIndex id = some p ∧ ri' = ri.putMessage p msg hash := by
  generalize hop : Op.message id r msg hash = op at ha
  cases ha with
  | message hph hp hm hh =>
    cases hop
    exact ⟨hph, _, hp, rfl⟩
  | transform st => cases st <;> cases hop
  | _ => cases hop

theorem of_op (st : Stage) (prev : ℤ) {messages : List Msg}
    (ha : Accepts ri (st.op id r messages prev) ri') :
    ri.phase = st.phase ∧ ∃ p, ri.participantIndex id = some p ∧
      (numTrue (st.flags ri) : ℤ) = st.ticket prev p ∧ (st.flags ri)[p]? = some false ∧
      ri' = ri.install st p messages := by
  generalize hop : st.op id r messages prev = op at ha
  cases ha with
  | @transform st' prev' id' r' messages' p hph hp hn hf =>
    cases st <;> cases st' <;> cases hop <;> exact ⟨hph, p, hp, hn, hf, rfl⟩
  | _ => cases st <;> cases hop

theorem of_reveal {key : PrivateKey} (ha : Accepts ri (.reveal id r key) ri') :
    ri.phase = .reveal ∧ ∃ p, ri.participantIndex id = some p ∧ p < ri.revealedKeys.length ∧
      ri' = ri.putKey p key := by
  generalize hop : Op.reveal id r key = op at ha
  cases ha with
  | reveal hph hp hk =>
    cases hop
    exact ⟨hph, _, hp, hk, rfl⟩
  | transform st => cases st <;> cases hop
  | _ => cases hop

theorem of_abort (ha : Accepts ri (.abort r) ri') : ri' = { ri with phase := .failed } := by
  generalize hop : Op.abort r = op at ha
  cases ha with
  | abort => rfl
  | transform st => cases st <;> cases hop
  | _ => cases hop

end Accepts

/-! ## The current round -/

namespace StateMachine

variable {sm : StateMachine}

theorem getRoundInfo_current (h : 0 ≤ sm.round) :
    sm.getRoundInfo sm.round = .ok (sm.rounds (slot sm.round)) := by
  rw [getRoundInfo, if_neg (lt_irrefl _), if_neg (by omega), if_neg (by omega)]

theorem currentRoundInfo_eq (h : 0 ≤ sm.round) :
    sm.currentRoundInfo = sm.rounds (slot sm.round) := by
  rw [currentRoundInfo, getRoundInfo_current h]

theorem setCurrent_eq (h : 0 ≤ sm.round) (ri : RoundInfo) :
    sm.setCurrent ri = { sm with rounds := Function.update sm.rounds (slot sm.round) ri } := by
  rw [setCurrent, getRoundInfo_current h]

@[simp] theorem round_setCurrent (ri : RoundInfo) : (sm.setCurrent ri).round = sm.round := by
  unfold setCurrent
  split <;> rfl

theorem currentRoundInfo_setCurrent (h : 0 ≤ sm.round) (ri : RoundInfo) :
    (sm.setCurrent ri).currentRoundInfo = ri := by
  rw [currentRoundInfo_eq (by simpa using h), setCurrent_eq h]
  simp

theorem slot_succ_ne (r : ℤ) : slot (r + 1) ≠ slot r := by
  simp only [slot, ne_eq, Fin.mk.injEq]
  omega

/-- Store a changed current round; a finished one is followed by a new round. -/
def advance (sm : StateMachine) (ri : RoundInfo) : StateMachine :=
  if ri.phase = .done ∨ ri.phase = .failed then (sm.setCurrent ri).nextRound else sm.setCurrent ri

theorem advance_finished {ri : RoundInfo} (h : ri.phase = .done ∨ ri.phase = .failed) :
    sm.advance ri = (sm.setCurrent ri).nextRound := if_pos h

theorem advance_unfinished {ri : RoundInfo} (h : ¬ (ri.phase = .done ∨ ri.phase = .failed)) :
    sm.advance ri = sm.setCurrent ri := if_neg h

/-- Only the last change of the current round counts. -/
theorem advance_setCurrent (h : 0 ≤ sm.round) (a b : RoundInfo) :
    (sm.setCurrent a).advance b = sm.advance b := by
  have hset : (sm.setCurrent a).setCurrent b = sm.setCurrent b := by
    rw [setCurrent_eq (by simpa using h), setCurrent_eq h, setCurrent_eq h, Function.update_idem]
  rw [advance, advance, hset]

@[simp] theorem round_nextRound : sm.nextRound.round = sm.round + 1 := rfl

theorem currentRoundInfo_nextRound (h : 0 ≤ sm.round) :
    sm.nextRound.currentRoundInfo = { phase := .prepare } := by
  rw [currentRoundInfo_eq (by rw [round_nextRound]; omega)]
  simp [nextRound, initRound]

/-- A property of all stored rounds is kept if the changed round has it and an empty round does. -/
theorem forall_rounds_advance {Q : RoundInfo → Prop} (h : 0 ≤ sm.round)
    (hs : ∀ i, Q (sm.rounds i)) {ri : RoundInfo} (hri : Q ri) (hnew : Q { phase := .prepare }) :
    ∀ i, Q ((sm.advance ri).rounds i) := by
  have hset : ∀ i, Q ((sm.setCurrent ri).rounds i) := by
    intro i
    rw [setCurrent_eq h]
    by_cases hi : i = slot sm.round
    · subst hi
      simpa using hri
    · simpa [Function.update_of_ne hi] using hs i
  intro i
  unfold advance
  split_ifs
  · simp only [nextRound, initRound]
    by_cases hi : i = slot ((sm.setCurrent ri).round + 1)
    · subst hi
      simpa using hnew
    · rw [Function.update_of_ne hi]
      exact hset i
  · exact hset i

/-! ## The handlers -/

theorem join_accepts {id : UUID} (hph : sm.currentRoundInfo.phase = .prepare)
    (hid : id ∉ sm.currentRoundInfo.participants) :
    sm.join id = (sm.setCurrent (sm.currentRoundInfo.addParticipant id), true) := by
  simp [join, hph, RoundInfo.participantIndex_eq_none_iff.2 hid, RoundInfo.addParticipant]

theorem join_rejects {id : UUID}
    (h : ¬ (sm.currentRoundInfo.phase = .prepare ∧ id ∉ sm.currentRoundInfo.participants)) :
    sm.join id = (sm, false) := by
  unfold join
  by_cases hph : sm.currentRoundInfo.phase = .prepare
  · rcases hp : sm.currentRoundInfo.participantIndex id with _ | p
    · exact absurd ⟨hph, RoundInfo.participantIndex_eq_none_iff.1 hp⟩ h
    · simp [hph, hp]
  · simp [hph]

theorem message_accepts {id : UUID} {msg : Msg} {hash : Bytes} {p : ℕ}
    (hph : sm.currentRoundInfo.phase = .submit)
    (hp : sm.currentRoundInfo.participantIndex id = some p)
    (hm : p < sm.currentRoundInfo.messages.length)
    (hh : p < sm.currentRoundInfo.revealKeyHashes.length) :
    sm.message id msg hash =
      .ok (sm.setCurrent (sm.currentRoundInfo.putMessage p msg hash), true) := by
  simp only [message, hph, hp, setAt_of_lt hm, setAt_of_lt hh, copyBytes_eq, RoundInfo.putMessage,
    bind, Except.bind, pure, Except.pure, ne_eq, not_true_eq_false, if_false]
  split_ifs <;> rfl

theorem message_rejects {id : UUID} {msg : Msg} {hash : Bytes}
    (h : ∀ p, sm.currentRoundInfo.phase = .submit →
      sm.currentRoundInfo.participantIndex id = some p →
      p < sm.currentRoundInfo.messages.length →
      ¬ p < sm.currentRoundInfo.revealKeyHashes.length) :
    sm.message id msg hash = .ok (sm, false) ∨ ∃ e, sm.message id msg hash = .error e := by
  unfold message
  by_cases hph : sm.currentRoundInfo.phase = .submit
  · rcases hp : sm.currentRoundInfo.participantIndex id with _ | p
    · simp [hph, hp]
    · by_cases hm : p < sm.currentRoundInfo.messages.length
      · simp [hph, hp, setAt, hm, h p hph hp hm, bind, Except.bind]
      · simp [hph, hp, setAt, hm, bind, Except.bind]
  · simp [hph]

theorem transform_accepts {st : Stage} {id : UUID} {messages : List Msg} {expected : ℕ → ℤ} {p : ℕ}
    (hph : sm.currentRoundInfo.phase = st.phase)
    (hp : sm.currentRoundInfo.participantIndex id = some p)
    (hn : (numTrue (st.flags sm.currentRoundInfo) : ℤ) = expected p)
    (hf : (st.flags sm.currentRoundInfo)[p]? = some false) :
    transform st sm id messages expected =
      .ok (sm.setCurrent (sm.currentRoundInfo.install st p messages), true) := by
  have hlt := (List.getElem?_eq_some_iff.1 hf).1
  simp only [transform, hph, hp, hn, getAt_of_some hf, setAt_of_lt hlt, RoundInfo.install, bind,
    Except.bind, pure, Except.pure, ne_eq, not_true_eq_false, if_false]
  rw [if_neg (by decide)]
  split_ifs
  · rfl
  · cases st <;> rfl

theorem transform_rejects {st : Stage} {id : UUID} {messages : List Msg} {expected : ℕ → ℤ}
    (h : ∀ p, sm.currentRoundInfo.phase = st.phase →
      sm.currentRoundInfo.participantIndex id = some p →
      (numTrue (st.flags sm.currentRoundInfo) : ℤ) = expected p →
      (st.flags sm.currentRoundInfo)[p]? ≠ some false) :
    transform st sm id messages expected = .ok (sm, false) ∨
      ∃ e, transform st sm id messages expected = .error e := by
  unfold transform
  by_cases hph : sm.currentRoundInfo.phase = st.phase
  · rcases hp : sm.currentRoundInfo.participantIndex id with _ | p
    · simp [hph, hp]
    · by_cases hn : (numTrue (st.flags sm.currentRoundInfo) : ℤ) = expected p
      · rcases hf : (st.flags sm.currentRoundInfo)[p]? with _ | b
        · simp [hph, hp, hn, hf, getAt, bind, Except.bind]
        · cases b
          · exact absurd hf (h p hph hp hn)
          · simp [hph, hp, hn, hf, getAt, bind, Except.bind, pure, Except.pure]
      · simp [hph, hp, hn]
  · simp [hph]

theorem reveal_accepts {id : UUID} {key : PrivateKey} {p : ℕ}
    (hph : sm.currentRoundInfo.phase = .reveal)
    (hp : sm.currentRoundInfo.participantIndex id = some p)
    (hk : p < sm.currentRoundInfo.revealedKeys.length) :
    sm.reveal id key = .ok (sm.advance (sm.currentRoundInfo.putKey p key), true) := by
  simp only [reveal, hph, hp, setAt_of_lt hk, RoundInfo.putKey, bind, Except.bind, pure,
    Except.pure, ne_eq, not_true_eq_false, if_false]
  split_ifs
  · rw [advance_unfinished (by simp)]
  · rw [advance_finished (by simp)]

theorem reveal_rejects {id : UUID} {key : PrivateKey}
    (h : ∀ p, sm.currentRoundInfo.phase = .reveal →
      sm.currentRoundInfo.participantIndex id = some p →
      ¬ p < sm.currentRoundInfo.revealedKeys.length) :
    sm.reveal id key = .ok (sm, false) ∨ ∃ e, sm.reveal id key = .error e := by
  unfold reveal
  by_cases hph : sm.currentRoundInfo.phase = .reveal
  · rcases hp : sm.currentRoundInfo.participantIndex id with _ | p
    · simp [hph, hp]
    · simp [hph, hp, setAt, h p hph hp, bind, Except.bind]
  · simp [hph]

/-! ## One operation -/

/-- An operation that is accepted takes effect. -/
theorem apply_of_accepts {op : Op} {ri : RoundInfo} (hr : op.round = sm.round)
    (h : Accepts sm.currentRoundInfo op ri) : sm.apply op = .ok (sm.advance ri, true) := by
  unfold apply
  rw [if_neg (not_not.2 hr)]
  cases h with
  | join hph hid =>
    rw [advance_unfinished (by simp [RoundInfo.addParticipant, hph])]
    simp only [join_accepts hph hid]
  | start hph =>
    rw [advance_unfinished (by simp)]
    simp [start, hph]
  | message hph hp hm hh =>
    rw [advance_unfinished (by simp only [RoundInfo.putMessage, hph]; split_ifs <;> simp)]
    exact message_accepts hph hp hm hh
  | @transform st prev id r messages p hph hp hn hf =>
    rw [advance_unfinished (RoundInfo.install_unfinished hph p messages)]
    cases st <;> exact transform_accepts hph hp hn hf
  | reveal hph hp hk => exact reveal_accepts hph hp hk
  | abort =>
    rw [advance_finished (by simp)]
    rfl

/-- An operation that is not accepted has no effect. -/
theorem apply_of_not_accepts {op : Op}
    (h : op.round = sm.round → ∀ ri, ¬ Accepts sm.currentRoundInfo op ri) :
    sm.apply op = .ok (sm, false) ∨ ∃ e, sm.apply op = .error e := by
  unfold apply
  by_cases hr : op.round = sm.round
  · rw [if_neg (not_not.2 hr)]
    have h := h hr
    cases op with
    | join id r =>
      left
      simp only [join_rejects fun hj => h _ (.join hj.1 hj.2)]
    | start id r crypto =>
      left
      have hph : sm.currentRoundInfo.phase ≠ .prepare := fun hph => h _ (.start hph)
      simp [start, hph]
    | message id r msg hash =>
      exact message_rejects fun p hph hp hm hh => h _ (.message hph hp hm hh)
    | encrypted id r messages prev =>
      exact transform_rejects fun p hph hp hn hf => h _ (.transform .encrypt prev hph hp hn hf)
    | scrambled id r messages =>
      exact transform_rejects fun p hph hp hn hf =>
        h _ (.transform .scramble 0 hph hp hn hf)
    | decrypted id r messages prev =>
      exact transform_rejects fun p hph hp hn hf => h _ (.transform .decrypt prev hph hp hn hf)
    | reveal id r key => exact reveal_rejects fun p hph hp hk => h _ (.reveal hph hp hk)
    | abort r => exact absurd .abort (h _)
  · exact Or.inl (if_pos hr)

theorem eq_of_apply_false {op : Op} {sm' : StateMachine}
    (h : sm.apply op = .ok (sm', false)) : sm' = sm := by
  by_cases ha : op.round = sm.round ∧ ∃ ri, Accepts sm.currentRoundInfo op ri
  · obtain ⟨hr, ri, ha⟩ := ha
    rw [apply_of_accepts hr ha] at h
    cases h
  · rcases apply_of_not_accepts fun hr ri hri => ha ⟨hr, ri, hri⟩ with hf | ⟨e, he⟩
    · rw [hf] at h
      cases h
      rfl
    · rw [he] at h
      cases h

theorem apply_true_iff {op : Op} {sm' : StateMachine} :
    sm.apply op = .ok (sm', true) ↔
      op.round = sm.round ∧ ∃ ri, Accepts sm.currentRoundInfo op ri ∧ sm' = sm.advance ri := by
  constructor
  · intro h
    by_cases ha : op.round = sm.round ∧ ∃ ri, Accepts sm.currentRoundInfo op ri
    · obtain ⟨hr, ri, ha⟩ := ha
      rw [apply_of_accepts hr ha] at h
      cases h
      exact ⟨hr, ri, ha, rfl⟩
    · rcases apply_of_not_accepts fun hr ri hri => ha ⟨hr, ri, hri⟩ with hf | ⟨e, he⟩
      · rw [hf] at h
        cases h
      · rw [he] at h
        cases h
  · rintro ⟨hr, ri, ha, rfl⟩
    exact apply_of_accepts hr ha

end StateMachine

end EggScrambler
