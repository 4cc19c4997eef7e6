import Mathlib
import EggScrambler.Order

/-!
# Deep copies

The server sends a `DeepCopy` of its state machine after every operation that took effect and to
every new subscriber.  The copy of a round allocates its lists with the number of participants and
then assigns the messages one by one, so it equals the original exactly when there are as many
messages as participants, and it panics when there are more (`RoundInfo.deepCopy_eq_self_iff`).

The list handlers install whatever list the operation carries.  `Installs` says when they do, as a
condition on the state before; a log can be copied after each of its prefixes exactly when every
list installed has the length of `Participants` (`copies_iff_fits`).
-/

namespace EggScrambler

open StateMachine Transition

/-! ## Assignment loops -/

theorem assign_of_le {α : Type} {dst src : List α} (h : src.length ≤ dst.length) :
    assign dst src = .ok (src ++ dst.drop src.length) := by
  induction src generalizing dst with
  | nil => cases dst <;> rfl
  | cons x src ih =>
    cases dst with
    | nil => simp at h
    | cons y dst =>
      rw [assign, ih (by simpa using h)]
      rfl

theorem assign_of_lt {α : Type} {dst src : List α} (h : dst.length < src.length) :
    assign dst src = .error .indexOutOfRange := by
  induction src generalizing dst with
  | nil => simp at h
  | cons x src ih =>
    cases dst with
    | nil => rfl
    | cons y dst =>
      rw [assign, ih (by simpa using h)]
      rfl

/-- A loop over a list of the same length replaces everything. -/
theorem assign_of_length_eq {α : Type} {dst src : List α} (h : src.length = dst.length) :
    assign dst src = .ok src := by
  rw [assign_of_le h.le, h, List.drop_length, List.append_nil]

theorem length_of_assign {α : Type} {dst src xs : List α} (h : assign dst src = .ok xs) :
    xs.length = dst.length := by
  rcases le_or_gt src.length dst.length with hle | hlt
  · rw [assign_of_le hle] at h
    cases h
    rw [List.length_append, List.length_drop]
    omega
  · rw [assign_of_lt hlt] at h
    cases h

/-! ## One round -/

theorem RoundInfo.map_deepCopy_crypto (ri : RoundInfo) :
    ri.crypto.map Crypto.deepCopy = ri.crypto := by cases ri.crypto <;> simp

/-- The copied messages have the number of participants; everything else of a round is copied as it
is. -/
theorem RoundInfo.deepCopy_eq {ri : RoundInfo} (h : RoundInv ri) :
    ri.deepCopy = (assign (List.replicate ri.participants.length nilMsg) ri.messages).map
      fun messages => { ri with messages } := by
  have hcopy : ∀ {α : Type} (a : α) {xs : List α}, xs.length = ri.participants.length →
      copy (List.replicate ri.participants.length a) xs = xs :=
    fun a xs hxs => copy_eq (by simp [hxs])
  have hassign : ∀ {α : Type} (a : α) {xs : List α}, xs.length = ri.participants.length →
      assign (List.replicate ri.participants.length a) xs = .ok xs :=
    fun a xs hxs => assign_of_length_eq (by simp [hxs])
  have he : ri.encrypted.length = ri.participants.length := h.flags_length .encrypt
  have hs : ri.scrambled.length = ri.participants.length := h.flags_length .scramble
  have hd : ri.decrypted.length = ri.participants.length := h.flags_length .decrypt
  unfold deepCopy
  simp only [List.map_congr_left (fun m _ => Msg.deepCopy_eq m), List.map_id',
    List.map_congr_left (fun k _ => PrivateKey.deepCopy_eq k),
    List.map_congr_left (fun b _ => copyBytes_eq b), map_deepCopy_crypto,
    hcopy _ rfl, hcopy _ he, hcopy _ hs, hcopy _ hd, hassign _ h.keys_length,
    hassign _ h.hashes_length, bind, Except.bind, pure, Except.pure]
  cases assign (List.replicate ri.participants.length nilMsg) ri.messages <;> rfl

/-- Only the messages of a copy can differ from the original. -/
theorem RoundInfo.assign_of_deepCopy {ri v : RoundInfo} (h : RoundInv ri)
    (hv : ri.deepCopy = .ok v) : v = { ri with messages := v.messages } ∧
      assign (List.replicate ri.participants.length nilMsg) ri.messages = .ok v.messages := by
  rw [deepCopy_eq h] at hv
  cases hm : assign (List.replicate ri.participants.length nilMsg) ri.messages with
  | error e =>
    rw [hm] at hv
    cases hv
  | ok messages =>
    rw [hm] at hv
    cases hv
    exact ⟨rfl, rfl⟩

/-- A copy has one message for every participant. -/
theorem RoundInfo.eq_of_deepCopy {ri v : RoundInfo} (h : RoundInv ri) (hv : ri.deepCopy = .ok v) :
    v = { ri with messages := v.messages } ∧ v.messages.length = ri.participants.length := by
  obtain ⟨heq, hm⟩ := assign_of_deepCopy h hv
  exact ⟨heq, by rw [length_of_assign hm, List.length_replicate]⟩

/-- A copy equals its original exactly when there is one message for every participant. -/
theorem RoundInfo.deepCopy_eq_self_iff {ri : RoundInfo} (h : RoundInv ri) :
    ri.deepCopy = .ok ri ↔ ri.messages.length = ri.participants.length := by
  constructor
  · exact fun hc => (eq_of_deepCopy h hc).2
  · intro hlen
    rw [deepCopy_eq h, assign_of_length_eq (by simpa using hlen)]
    rfl

/-! ## State machines -/

/-- Every stored round has one message for every participant. -/
def Sized (sm : StateMachine) : Prop :=
  ∀ i, (sm.rounds i).messages.length = (sm.rounds i).participants.length

theorem StateMachine.deepCopy_eq_ok_iff {sm v : StateMachine} :
    sm.deepCopy = .ok v ↔ v.round = sm.round ∧ ∀ i, (sm.rounds i).deepCopy = .ok (v.rounds i) := by
  constructor
  · intro h
    unfold deepCopy at h
    obtain ⟨r₀, h₀, h⟩ := bind_eq_ok_iff.1 h
    obtain ⟨r₁, h₁, h⟩ := bind_eq_ok_iff.1 h
    obtain ⟨r₂, h₂, h⟩ := bind_eq_ok_iff.1 h
    cases h
    refine ⟨rfl, fun i => ?_⟩
    fin_cases i
    · exact h₀
    · exact h₁
    · exact h₂
  · rintro ⟨hr, h⟩
    simp only [deepCopy, h, bind, Except.bind, pure, Except.pure]
    exact congrArg _ (StateMachine.ext_slots ⟨hr.symm, rfl, rfl, rfl⟩)

theorem Inv.deepCopy_eq_self_iff {sm : StateMachine} (h : Inv sm) :
    sm.deepCopy = .ok sm ↔ Sized sm := by
  rw [deepCopy_eq_ok_iff]
  simp only [true_and, RoundInfo.deepCopy_eq_self_iff (h.rounds _)]
  rfl

/-- Operation `op` is an `EncryptedOp`, `ScrambledOp` or `DecryptedOp` that is due in `sm`, so that
its `messages` will be installed: it is for the current round and its phase, its sender is a
participant whose flag is down, and the number of raised flags is its counter (for a `ScrambledOp`,
the index of the sender). -/
def Installs (sm : StateMachine) (op : Op) (messages : List Msg) : Prop :=
  ∃ st id prev p, op = Stage.op st id sm.round messages prev ∧
    sm.currentRoundInfo.phase = st.phase ∧ sm.currentRoundInfo.participantIndex id = some p ∧
    (numTrue (st.flags sm.currentRoundInfo) : ℤ) = st.ticket prev p ∧
    (st.flags sm.currentRoundInfo)[p]? = some false

/-- If `op` is about to install a message list, it has one message for every participant. -/
def Fits (sm : StateMachine) (op : Op) : Prop :=
  ∀ messages, Installs sm op messages →
    messages.length = sm.currentRoundInfo.participants.length

theorem Accepts.messages_length {sm : StateMachine} {op : Op} {ri : RoundInfo}
    (ha : Accepts sm.currentRoundInfo op ri) (hr : op.round = sm.round) (hfit : Fits sm op)
    (hlen : sm.currentRoundInfo.messages.length = sm.currentRoundInfo.participants.length) :
    ri.messages.length = ri.participants.length := by
  cases ha with
  | join hph hid => simp [RoundInfo.addParticipant, hlen]
  | message hph hp hm hh => simpa [RoundInfo.putMessage] using hlen
  | @transform st prev id r messages p hph hp hn hf =>
    rw [Stage.round_op] at hr
    rw [RoundInfo.messages_install, (RoundInfo.install_frame _ st p messages).1]
    exact hfit messages ⟨st, id, prev, p, by rw [hr], hph, hp, hn, hf⟩
  | start hph | reveal hph hp hk | abort => exact hlen

/-- An operation that fits keeps the lengths. -/
theorem Sized.apply {sm sm' : StateMachine} {op : Op} {b : Bool} (h : Inv sm) (hs : Sized sm)
    (hfit : Fits sm op) (hap : sm.apply op = .ok (sm', b)) : Sized sm' := by
  cases b with
  | false =>
    rw [eq_of_apply_false hap]
    exact hs
  | true =>
    obtain ⟨hr, ri, ha, rfl⟩ := apply_true_iff.1 hap
    have hlen : sm.currentRoundInfo.messages.length = sm.currentRoundInfo.participants.length := by
      rw [currentRoundInfo_eq h.round_nonneg]
      exact hs _
    exact forall_rounds_advance (Q := fun ri => ri.messages.length = ri.participants.length)
      h.round_nonneg hs (ha.messages_length hr hfit hlen) rfl

theorem Sized.new : Sized newStateMachine := by
  intro i
  fin_cases i <;> rfl

/-- An operation that does not fit is accepted and spoils the lengths. -/
theorem not_sized_of_not_fits {sm : StateMachine} {op : Op} (h : Inv sm) (hfit : ¬ Fits sm op) :
    ∃ sm', sm.apply op = .ok (sm', true) ∧ ¬ Sized sm' := by
  simp only [Fits, not_forall] at hfit
  obtain ⟨messages, ⟨st, id, prev, p, rfl, hph, hp, hn, hf⟩, hlen⟩ := hfit
  have ha : Accepts sm.currentRoundInfo (st.op id sm.round messages prev)
    (sm.currentRoundInfo.install st p messages) := .transform st prev hph hp hn hf
  refine ⟨_, apply_of_accepts (by simp) ha, fun hs => hlen ?_⟩
  rw [advance_unfinished (RoundInfo.install_unfinished hph p messages),
    setCurrent_eq h.round_nonneg] at hs
  have := hs (slot sm.round)
  simpa [(RoundInfo.install_frame _ st p messages).1] using this

/-! ## Whole logs -/

/-- The server applied the log and the copy it then sends has the contents of its state. -/
def Copies (log : List Op) : Prop :=
  ∃ sm, run apply newStateMachine log = .ok sm ∧ sm.deepCopy = .ok sm

/-- A log whose operations fit, each in its state, ends in a state that can be copied. -/
theorem sized_of_fits {log : List Op}
    (h : ∀ pre op sm, pre ++ [op] <+: log → run apply newStateMachine pre = .ok sm → Fits sm op) :
    ∃ sm, run apply newStateMachine log = .ok sm ∧ Inv sm ∧ Sized sm := by
  induction log using List.reverseRecOn with
  | nil => exact ⟨newStateMachine, rfl, Inv.new, Sized.new⟩
  | append_singleton log op ih =>
    obtain ⟨sm, hrun, hinv, hs⟩ := ih fun pre op' sm hpre =>
      h pre op' sm (hpre.trans (List.prefix_append _ _))
    obtain ⟨sm', b, hap, hinv'⟩ := hinv.apply_total op
    refine ⟨sm', ?_, hinv', hs.apply hinv (h log op sm List.prefix_rfl hrun) hap⟩
    exact run_append_iff.2 ⟨sm, hrun, run_cons_iff.2 ⟨_, hap, rfl⟩⟩

/-- **Which logs can be copied.** After every prefix of a log the server is alive and its copies are
right, exactly when every message list that the log gets installed has one message for every
participant. -/
theorem copies_iff_fits (log : List Op) :
    (∀ pre, pre <+: log → Copies pre) ↔
      ∀ pre op sm, pre ++ [op] <+: log → run apply newStateMachine pre = .ok sm → Fits sm op := by
  constructor
  · intro h pre op sm hpre hrun
    by_contra hfit
    have hinv : Inv sm := Reachable.inv ⟨pre, hrun⟩
    obtain ⟨sm', hap, hns⟩ := not_sized_of_not_fits hinv hfit
    obtain ⟨t, ht, hcopy⟩ := h _ hpre
    obtain ⟨m, hm, hlast⟩ := run_append_iff.1 ht
    rw [hrun] at hm
    cases hm
    obtain ⟨r, hr, hnil⟩ := run_cons_iff.1 hlast
    rw [hap] at hr
    cases hr
    cases hnil
    exact hns ((hinv.apply hap).deepCopy_eq_self_iff.1 hcopy)
  · intro h pre hpre
    obtain ⟨sm, hrun, hinv, hs⟩ := sized_of_fits fun pre' op sm hpre' =>
      h pre' op sm (hpre'.trans hpre)
    exact ⟨sm, hrun, hinv.deepCopy_eq_self_iff.2 hs⟩

/-- An `EncryptedOp` with two messages in a round of one participant. -/
def oversizedLog : List Op :=
  [.join 1 0, .start 1 0 (some ⟨[7]⟩), .message 1 0 ⟨[3]⟩ [9], .encrypted 1 0 [⟨[3]⟩, ⟨[3]⟩] 0]

def oversizedState : StateMachine where
  round := 0
  rounds := ![{
    phase := .scramble
    crypto := some ⟨[7]⟩
    participants := [1]
    messages := [⟨[3]⟩, ⟨[3]⟩]
    encrypted := [true]
    scrambled := [false]
    decrypted := [false]
    revealedKeys := [nilPrivateKey]
    revealKeyHashes := [[9]] }, {}, {}]

/-- The server applies `oversizedLog` and then panics in `DeepCopy`. -/
theorem not_copies_oversizedLog :
    run apply newStateMachine oversizedLog = .ok oversizedState ∧
      oversizedState.deepCopy = .error .indexOutOfRange ∧ ¬ Copies oversizedLog := by
  have hrun : run apply newStateMachine oversizedLog = .ok oversizedState :=
    run_of_endsIn (by decide +kernel)
  have hcopy : oversizedState.deepCopy = .error .indexOutOfRange := rfl
  refine ⟨hrun, hcopy, ?_⟩
  rintro ⟨sm, hsm, hc⟩
  rw [hrun] at hsm
  cases hsm
  rw [hcopy] at hc
  cases hc

end EggScrambler
