import Mathlib
import EggScrambler.TestAndSet

/-!
# Honest runs

In an honest run every operation of the log is an abort or was built by a helper of a client from
some earlier state of the run, in the phase in which `readUpdates` calls the helper.  When the
operation is applied, how often, and whether at all, is left open.

`Conduct` is what the clients bring along: the keys of each participant in each round, the cryptos
they start rounds with and the `MessageOp`s they submit.  `Setup` is one such conduct, with
arbitrary inverse key pairs and arbitrary plaintexts.  Keys and plaintexts may depend on the crypto
of the round, which is fixed when they are chosen; for each participant and round there is one
triple and one plaintext.
-/

namespace EggScrambler

open StateMachine Transition

/-- What the clients of an honest run bring along. -/
structure Conduct where
  /-- The key triple of a participant in a round with the given crypto, once it is generated. -/
  keys : Crypto → UUID → ℤ → Option Keys
  /-- The cryptos that `Start` creates. -/
  starts : Crypto → Prop
  /-- The operations that `submit` builds from a `RoundInfo` for the participant with the index
  given. -/
  submits : Client → ℤ → RoundInfo → ℕ → Op → Prop

/-- Operation `op` is an abort or was built by a client from a state among `hist`. -/
inductive Honest (k : Conduct) (hist : List StateMachine) : Op → Prop
  | prepare {sm : StateMachine} {ri : RoundInfo} {c : Client} {op : Op} (hsm : sm ∈ hist)
      (hs : Seen sm ri) (h : c.prepare sm.round (c.me ri) = some op) : Honest k hist op
  | start {sm : StateMachine} {c : Client} {round : ℤ} {mo : Crypto} {op : Op} (hsm : sm ∈ hist)
      (hmo : k.starts mo) (h : c.start sm round mo = .ok op) : Honest k hist op
  | submit {sm : StateMachine} {ri : RoundInfo} {c : Client} {me : ℕ} {op : Op} (hsm : sm ∈ hist)
      (hs : Seen sm ri) (hph : ri.phase = .submit) (hme : c.me ri = some me)
      (h : k.submits c sm.round ri me op) : Honest k hist op
  | encrypt {sm : StateMachine} {ri : RoundInfo} {c : Client} {me : ℕ} {mo : Crypto} {keys : Keys}
      {op : Op} (hsm : sm ∈ hist) (hs : Seen sm ri) (hph : ri.phase = .encrypt)
      (hme : c.me ri = some me) (hmo : ri.crypto = some mo)
      (hk : k.keys mo c.id sm.round = some keys)
      (h : c.encrypt sm.round ri me keys.encryptKey = .ok (some op)) : Honest k hist op
  | scramble {sm : StateMachine} {ri : RoundInfo} {c : Client} {me : ℕ} {mo : Crypto} {keys : Keys}
      {shuffle : Shuffle} {op : Op} (hsm : sm ∈ hist) (hs : Seen sm ri)
      (hph : ri.phase = .scramble) (hme : c.me ri = some me) (hturn : me = ri.numScrambled)
      (hmo : ri.crypto = some mo) (hk : k.keys mo c.id sm.round = some keys)
      (h : c.scramble sm.round ri me keys.scrambleKey keys.revealKey shuffle = .ok (some op)) :
      Honest k hist op
  | decrypt {sm : StateMachine} {ri : RoundInfo} {c : Client} {me : ℕ} {mo : Crypto} {keys : Keys}
      {op : Op} (hsm : sm ∈ hist) (hs : Seen sm ri) (hph : ri.phase = .decrypt)
      (hme : c.me ri = some me) (hmo : ri.crypto = some mo)
      (hk : k.keys mo c.id sm.round = some keys)
      (h : c.decrypt sm.round ri me keys.scrambleKey keys.encryptKey = .ok (some op)) :
      Honest k hist op
  | reveal {sm : StateMachine} {ri : RoundInfo} {c : Client} {me : ℕ} {mo : Crypto} {keys : Keys}
      {op : Op} (hsm : sm ∈ hist) (hs : Seen sm ri) (hph : ri.phase = .reveal)
      (hme : c.me ri = some me) (hmo : ri.crypto = some mo)
      (hk : k.keys mo c.id sm.round = some keys)
      (h : c.reveal sm.round ri me keys.revealKey = .ok (some op)) : Honest k hist op
  | abort (r : ℤ) : Honest k hist (Client.abort r)

/-- The states of an honest run, newest first. -/
abbrev HonestRun (k : Conduct) (hist : List StateMachine) : Prop :=
  History apply (Honest k) newStateMachine hist

/-- Clients with more to bring along have more honest runs. -/
theorem Honest.mono {k k' : Conduct} {hist : List StateMachine} {op : Op}
    (hkeys : ∀ mo id r keys, k.keys mo id r = some keys → k'.keys mo id r = some keys)
    (hstarts : ∀ mo, k.starts mo → k'.starts mo)
    (hsubmits : ∀ c r ri me op, k.submits c r ri me op → k'.submits c r ri me op)
    (h : Honest k hist op) : Honest k' hist op := by
  cases h with
  | prepare hsm hs h => exact .prepare hsm hs h
  | start hsm hmo h => exact .start hsm (hstarts _ hmo) h
  | submit hsm hs hph hme h => exact .submit hsm hs hph hme (hsubmits _ _ _ _ _ h)
  | encrypt hsm hs hph hme hmo hk h => exact .encrypt hsm hs hph hme hmo (hkeys _ _ _ _ hk) h
  | scramble hsm hs hph hme ht hmo hk h =>
    exact .scramble hsm hs hph hme ht hmo (hkeys _ _ _ _ hk) h
  | decrypt hsm hs hph hme hmo hk h => exact .decrypt hsm hs hph hme hmo (hkeys _ _ _ _ hk) h
  | reveal hsm hs hph hme hmo hk h => exact .reveal hsm hs hph hme hmo (hkeys _ _ _ _ hk) h
  | abort r => exact .abort r

/-! ## Arbitrary keys and plaintexts -/

/-- The two exponents of a key undo each other modulo `P`. -/
def PrivateKey.Inverts (key : PrivateKey) (P : ℕ) : Prop :=
  key.getE * key.getD ≡ 1 [MOD P - 1]

/-- For every prime and every participant and round, three inverse key pairs and a plaintext. -/
structure Setup where
  keys : Crypto → UUID → ℤ → Keys
  plain : Crypto → UUID → ℤ → ℕ
  inverts : ∀ mo id r, mo.getP.Prime → (keys mo id r).encryptKey.Inverts mo.getP ∧
    (keys mo id r).scrambleKey.Inverts mo.getP ∧ (keys mo id r).revealKey.Inverts mo.getP
  plain_mem : ∀ mo id r, mo.getP.Prime → 1 ≤ plain mo id r ∧ plain mo id r ≤ mo.getP - 1

namespace Setup

/-- The operation in which a participant submits its plaintext. -/
def messageOp (s : Setup) (env : Env) (mo : Crypto) (id : UUID) (r : ℤ) : Op :=
  .message id r (mo.encrypt (s.keys mo id r).encryptKey (newMsg (s.plain mo id r)))
    ((s.keys mo id r).revealKey.hash env)

/-- Rounds are started with primes, and everybody submits their plaintext. -/
def conduct (s : Setup) (env : Env) : Conduct where
  keys mo id r := some (s.keys mo id r)
  starts mo := mo.getP.Prime
  submits c r ri me op := (∃ m, ri.messages[me]? = some m ∧ m.isNil = true) ∧
    ∃ mo, ri.crypto = some mo ∧ op = s.messageOp env mo c.id r

/-- What `submit` sends. -/
def submit (s : Setup) (env : Env) (c : Client) (r : ℤ) (ri : RoundInfo) (me : ℕ) : Option Op :=
  if ri.messages[me]?.map Msg.isNil = some true then
    ri.crypto.map fun mo => s.messageOp env mo c.id r
  else none

theorem submits_of_submit {s : Setup} {env : Env} {c : Client} {r : ℤ} {ri : RoundInfo} {me : ℕ}
    {op : Op} (h : s.submit env c r ri me = some op) : (s.conduct env).submits c r ri me op := by
  unfold submit at h
  split_ifs at h with hnil
  obtain ⟨m, hm, hnil⟩ := Option.map_eq_some_iff.1 hnil
  obtain ⟨mo, hmo, rfl⟩ := Option.map_eq_some_iff.1 h
  exact ⟨⟨m, hm, hnil⟩, mo, hmo, rfl⟩

end Setup

/-! ## Computed runs -/

/-- The messages that a participant sends at a stage. -/
def Stage.work (st : Stage) (mo : Crypto) (keys : Keys) (shuffle : Shuffle) (me : ℕ)
    (messages : List Msg) : List Msg :=
  match st with
  | .encrypt => messages.zipIdx.map fun m =>
    if m.2 = me then m.1 else mo.encrypt keys.encryptKey m.1
  | .scramble => shuffle.apply (messages.map fun m =>
    mo.encrypt keys.revealKey (mo.encrypt keys.scrambleKey m))
  | .decrypt => messages.map fun m => mo.decrypt keys.encryptKey (mo.decrypt keys.scrambleKey m)

namespace Conduct

/-- How the clients of a conduct submit. -/
def Submits (k : Conduct) (submit : Client → ℤ → RoundInfo → ℕ → Option Op) : Prop :=
  ∀ c r ri me op, submit c r ri me = some op → k.submits c r ri me op

/-- What client `c` builds from the state `sm`, as the phase dictates. -/
def act (k : Conduct) (submit : Client → ℤ → RoundInfo → ℕ → Option Op) (shuffle : Shuffle)
    (c : Client) (sm : StateMachine) : Option Op :=
  let ri := sm.currentRoundInfo
  let keys := ri.crypto.bind fun mo => k.keys mo c.id sm.round
  match ri.phase, c.me ri, keys with
  | .prepare, me, _ => c.prepare sm.round me
  | .submit, some me, _ => submit c sm.round ri me
  | .encrypt, some me, some keys => (c.encrypt sm.round ri me keys.encryptKey).toOption.join
  | .scramble, some me, some keys =>
    if me = ri.numScrambled then
      (c.scramble sm.round ri me keys.scrambleKey keys.revealKey shuffle).toOption.join
    else none
  | .decrypt, some me, some keys =>
    (c.decrypt sm.round ri me keys.scrambleKey keys.encryptKey).toOption.join
  | .reveal, some me, some keys => (c.reveal sm.round ri me keys.revealKey).toOption.join
  | _, _, _ => none

theorem toOption_join_eq_some {ε α : Type} {x : Except ε (Option α)} {a : α}
    (h : x.toOption.join = some a) : x = .ok (some a) := by
  rcases x with e | a'
  · simp [Except.toOption] at h
  · simpa [Except.toOption] using h

variable {k : Conduct} {submit : Client → ℤ → RoundInfo → ℕ → Option Op} {shuffle : Shuffle}
  {sm : StateMachine} {c : Client}

theorem act_honest (hsubmit : k.Submits submit) {op : Op} {hist : List StateMachine}
    (hsm : sm ∈ hist) (h : k.act submit shuffle c sm = some op) : Honest k hist op := by
  unfold act at h
  simp only at h
  split at h
  · exact .prepare hsm (Or.inl rfl) h
  · rename_i me hph hme
    exact .submit hsm (Or.inl rfl) hph hme (hsubmit _ _ _ _ _ h)
  · rename_i me keys hph hme hkeys
    obtain ⟨mo, hmo, hk⟩ := Option.bind_eq_some_iff.1 hkeys
    exact .encrypt hsm (Or.inl rfl) hph hme hmo hk (toOption_join_eq_some h)
  · rename_i me keys hph hme hkeys
    obtain ⟨mo, hmo, hk⟩ := Option.bind_eq_some_iff.1 hkeys
    split_ifs at h with hturn
    exact .scramble hsm (Or.inl rfl) hph hme hturn hmo hk (toOption_join_eq_some h)
  · rename_i me keys hph hme hkeys
    obtain ⟨mo, hmo, hk⟩ := Option.bind_eq_some_iff.1 hkeys
    exact .decrypt hsm (Or.inl rfl) hph hme hmo hk (toOption_join_eq_some h)
  · rename_i me keys hph hme hkeys
    obtain ⟨mo, hmo, hk⟩ := Option.bind_eq_some_iff.1 hkeys
    exact .reveal hsm (Or.inl rfl) hph hme hmo hk (toOption_join_eq_some h)
  · cases h

/-- `act`, once the round has started: the cases in which a client builds an operation. -/
inductive Offers (k : Conduct) (submit : Client → ℤ → RoundInfo → ℕ → Option Op)
    (shuffle : Shuffle) (c : Client) (sm : StateMachine) : Op → Prop
  | submit {me : ℕ} {op : Op} (hph : sm.currentRoundInfo.phase = .submit)
      (hme : c.me sm.currentRoundInfo = some me)
      (h : submit c sm.round sm.currentRoundInfo me = some op) : Offers k submit shuffle c sm op
  | work (st : Stage) {me : ℕ} {mo : Crypto} {keys : Keys}
      (hph : sm.currentRoundInfo.phase = st.phase) (hme : c.me sm.currentRoundInfo = some me)
      (hmo : sm.currentRoundInfo.crypto = some mo) (hk : k.keys mo c.id sm.round = some keys)
      (hturn : st = .scramble → me = sm.currentRoundInfo.numScrambled)
      (hf : (st.flags sm.currentRoundInfo)[me]? = some false) :
      Offers k submit shuffle c sm (st.op c.id sm.round
        (st.work mo keys shuffle me sm.currentRoundInfo.messages)
        (numTrue (st.flags sm.currentRoundInfo)))
  | reveal {me : ℕ} {mo : Crypto} {keys : Keys} {key : PrivateKey}
      (hph : sm.currentRoundInfo.phase = .reveal) (hme : c.me sm.currentRoundInfo = some me)
      (hmo : sm.currentRoundInfo.crypto = some mo) (hk : k.keys mo c.id sm.round = some keys)
      (hkey : sm.currentRoundInfo.revealedKeys[me]? = some key) (hnil : key.isNil = true) :
      Offers k submit shuffle c sm (.reveal c.id sm.round keys.revealKey)

/-- What a client does is one of its offers. -/
theorem Offers.of_act (hord : 1 ≤ phaseOrder sm.currentRoundInfo.phase) {op : Op}
    (h : k.act submit shuffle c sm = some op) : k.Offers submit shuffle c sm op := by
  unfold act at h
  simp only at h
  split at h
  · rename_i hph
    rw [hph] at hord
    exact absurd hord (by decide)
  · rename_i me hph hme
    exact .submit hph hme h
  · rename_i me keys hph hme hkeys
    obtain ⟨mo, hmo, hk⟩ := Option.bind_eq_some_iff.1 hkeys
    obtain ⟨hf, rfl⟩ := (Client.encrypt_eq_some_iff hmo).1 (toOption_join_eq_some h)
    exact .work .encrypt hph hme hmo hk (by simp) hf
  · rename_i me keys hph hme hkeys
    obtain ⟨mo, hmo, hk⟩ := Option.bind_eq_some_iff.1 hkeys
    split_ifs at h with hturn
    obtain ⟨hf, rfl⟩ := (Client.scramble_eq_some_iff hmo).1 (toOption_join_eq_some h)
    exact .work .scramble hph hme hmo hk (fun _ => hturn) hf
  · rename_i me keys hph hme hkeys
    obtain ⟨mo, hmo, hk⟩ := Option.bind_eq_some_iff.1 hkeys
    obtain ⟨hf, rfl⟩ := (Client.decrypt_eq_some_iff hmo).1 (toOption_join_eq_some h)
    exact .work .decrypt hph hme hmo hk (by simp) hf
  · rename_i me keys hph hme hkeys
    obtain ⟨mo, hmo, hk⟩ := Option.bind_eq_some_iff.1 hkeys
    obtain ⟨⟨key, hkey, hnil⟩, rfl⟩ := Client.reveal_eq_some_iff.1 (toOption_join_eq_some h)
    exact .reveal hph hme hmo hk hkey hnil
  · cases h

/-- And in these cases it does. -/
theorem Offers.act_eq {op : Op} (h : k.Offers submit shuffle c sm op) :
    k.act submit shuffle c sm = some op := by
  cases h with
  | submit hph hme h => simp only [act, hph, hme, h]
  | @work st me mo keys hph hme hmo hk hturn hf =>
    cases st with
    | encrypt =>
      have hop : c.encrypt sm.round sm.currentRoundInfo me keys.encryptKey = .ok (some _) :=
        (Client.encrypt_eq_some_iff hmo).2 ⟨hf, rfl⟩
      simp only [act, hph, Stage.phase, hme, hmo, Option.bind_some, hk, hop]
      rfl
    | scramble =>
      have hop : c.scramble sm.round sm.currentRoundInfo me keys.scrambleKey keys.revealKey
          shuffle = .ok (some _) := (Client.scramble_eq_some_iff hmo).2 ⟨hf, rfl⟩
      simp only [act, hph, Stage.phase, hme, hmo, Option.bind_some, hk, if_pos (hturn rfl), hop]
      rfl
    | decrypt =>
      have hop : c.decrypt sm.round sm.currentRoundInfo me keys.scrambleKey keys.encryptKey =
          .ok (some _) := (Client.decrypt_eq_some_iff hmo).2 ⟨hf, rfl⟩
      simp only [act, hph, Stage.phase, hme, hmo, Option.bind_some, hk, hop]
      rfl
  | @reveal me mo keys key hph hme hmo hk hkey hnil =>
    have hop : c.reveal sm.round sm.currentRoundInfo me keys.revealKey = .ok (some _) :=
      Client.reveal_eq_some_iff.2 ⟨⟨key, hkey, hnil⟩, rfl⟩
    simp only [act, hph, hme, hmo, Option.bind_some, hk, hop]
    rfl

/-- The operation of one turn of a computed run: a client follows the protocol, or it starts the
round with the crypto given. -/
def turnOp (k : Conduct) (submit : Client → ℤ → RoundInfo → ℕ → Option Op) (shuffle : Shuffle)
    (sm : StateMachine) (c : Client) : Option Crypto → Option Op
  | none => k.act submit shuffle c sm
  | some mo => (c.start sm sm.round mo).toOption

/-- A turn in which the operation is applied to the state that it was built from. -/
def turn (k : Conduct) (submit : Client → ℤ → RoundInfo → ℕ → Option Op) (shuffle : Shuffle)
    (sm : StateMachine) (t : Client × Option Crypto) : Go (StateMachine × Bool) :=
  match k.turnOp submit shuffle sm t.1 t.2 with
  | some op => sm.apply op
  | none => .ok (sm, false)

theorem turnOp_honest (hsubmit : k.Submits submit) {start : Option Crypto} {op : Op}
    {hist : List StateMachine} (hsm : sm ∈ hist) (hstarts : ∀ mo, start = some mo → k.starts mo)
    (h : k.turnOp submit shuffle sm c start = some op) : Honest k hist op := by
  cases start with
  | none => exact act_honest hsubmit hsm h
  | some mo =>
    change (c.start sm sm.round mo).toOption = some op at h
    rcases hstart : c.start sm sm.round mo with e | op'
    · rw [hstart] at h
      cases h
    · rw [hstart] at h
      cases h
      exact .start hsm (hstarts mo rfl) hstart

/-- Taking turns makes an honest run. -/
theorem honestRun_of_turns (hsubmit : k.Submits submit) (shuffle : Shuffle) {sm' : StateMachine}
    {hist : List StateMachine} {turns : List (Client × Option Crypto)}
    (h : HonestRun k (sm :: hist)) (hstarts : ∀ t ∈ turns, ∀ mo, t.2 = some mo → k.starts mo)
    (hrun : run (k.turn submit shuffle) sm turns = .ok sm') :
    ∃ hist', HonestRun k (sm' :: hist') := by
  induction turns generalizing sm hist with
  | nil =>
    cases hrun
    exact ⟨hist, h⟩
  | cons t turns ih =>
    obtain ⟨⟨sm₁, b⟩, hstep, hrest⟩ := run_cons_iff.1 hrun
    obtain ⟨ht, hturns⟩ := List.forall_mem_cons.1 hstarts
    unfold turn at hstep
    split at hstep
    · rename_i op hop
      exact ih (.next h (turnOp_honest hsubmit List.mem_cons_self ht hop) hstep) hturns hrest
    · cases hstep
      exact ih h hturns hrest

end Conduct

end EggScrambler
