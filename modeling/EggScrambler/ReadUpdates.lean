import Mathlib
import EggScrambler.RoundResult

/-!
# Following the updates

One turn of the loop of `readUpdates`.  `Reader` holds the local variables of the loop, and `Task`
is a goroutine that the loop starts, with the arguments that it is handed; `Task.op` is the
operation that it adds to `pending` when it runs.  The flags `active` and `leaving` are read from
the client at every update, and configuration updates change them, so they are arguments.  Left out
are the logging, the version counter and the timestamps of `lastUpdate`.

`Reads` says what one turn can do, with one constructor for every way through the loop.
-/

namespace EggScrambler

open StateMachine

/-- The local variables of `readUpdates`. -/
structure Reader where
  lastResChSend : ℤ := -1
  lastMessageRound : ℤ := -1
  keys : Keys := {}
  lastKeyGen : ℤ := -1
  /-- `lastRevealKeyHashes`, `lastRevealKeyHashesRound`, `lastMessagesBeforeReveal` and
  `lastNumberOfMessageWhenScrambled`. -/
  snapshot : Snapshot := {}
  lastScrambledRound : ℤ := -1
  lastSm : StateMachine := newStateMachine

/-- A goroutine that `readUpdates` starts. -/
inductive Task where
  | sendRoundResult (sm : StateMachine) (round : ℤ) (snapshot : Snapshot)
  | prepare (round : ℤ) (me : Option ℕ)
  | abort (round : ℤ)
  | submit (round : ℤ) (ri : RoundInfo) (me : ℕ) (encryptKey revealKey : PrivateKey)
  | encrypt (round : ℤ) (ri : RoundInfo) (me : ℕ) (encryptKey : PrivateKey)
  | scramble (round : ℤ) (ri : RoundInfo) (me : ℕ) (scrambleKey revealKey : PrivateKey)
  | decrypt (round : ℤ) (ri : RoundInfo) (me : ℕ) (scrambleKey encryptKey : PrivateKey)
  | reveal (round : ℤ) (ri : RoundInfo) (me : ℕ) (revealKey : PrivateKey)
  deriving DecidableEq

/-- What the user and chance contribute when a goroutine runs. -/
structure Chance where
  message : Bytes
  nonce : Nonce
  nonce₂ : Nonce
  shuffle : Shuffle

/-- The operation that a goroutine adds to `pending`, if any.  `sendRoundResult` adds none, but it
may panic. -/
def Task.op (env : Env) (c : Client) (chance : Chance) : Task → Go (Option Op)
  | sendRoundResult sm r snapshot => (fun _ => none) <$> c.sendRoundResult env sm r snapshot
  | prepare r me => .ok (c.prepare r me)
  | abort r => .ok (some (Client.abort r))
  | submit r ri me encryptKey revealKey =>
    c.submit env r ri me encryptKey revealKey chance.message chance.nonce chance.nonce₂
  | encrypt r ri me encryptKey => c.encrypt r ri me encryptKey
  | scramble r ri me scrambleKey revealKey =>
    c.scramble r ri me scrambleKey revealKey chance.shuffle
  | decrypt r ri me scrambleKey encryptKey => c.decrypt r ri me scrambleKey encryptKey
  | reveal r ri me revealKey => c.reveal r ri me revealKey

/-- The three calls of `GenKey`, with the round and the crypto of the update. -/
structure Generation where
  round : ℤ
  crypto : Crypto
  keys : Keys
  deriving DecidableEq

/-- What one turn of the loop does. -/
structure Reaction where
  reader : Reader
  tasks : List Task := []
  generated : Option Generation := none

/-- The index of the client, if it has any business in this round. -/
def Client.business (c : Client) (active : Bool) (sm : StateMachine) : Option ℕ :=
  if active then c.me sm.currentRoundInfo else none

/-- The copies that are made when a snapshot is handed on. -/
def Snapshot.deepCopy (snap : Snapshot) : Snapshot :=
  { snap with
    revealKeyHashes := snap.revealKeyHashes.map copyBytes
    messagesBeforeReveal := snap.messagesBeforeReveal.map Msg.deepCopy }

namespace Reader

/-- The client only joins a round if it is in the configuration and not trying to leave it. -/
def prepares (c : Client) (active leaving : Bool) (sm : StateMachine) : List Task :=
  if active && !leaving then [.prepare sm.round (c.me sm.currentRoundInfo)] else []

def onPrepare (env : Env) (c : Client) (active leaving : Bool) (rd : Reader) (sm : StateMachine) :
    Go Reaction := do
  let prepares := prepares c active leaving sm
  if sm.round - 1 > rd.lastResChSend then
    assertf env (rd.lastResChSend = sm.round - 2)
    return {
      reader := { rd with lastResChSend := sm.round - 1 }
      tasks := .sendRoundResult sm sm.round rd.snapshot.deepCopy :: prepares }
  else return { reader := rd, tasks := prepares }

/-- The user is asked for a message once per round. -/
def submitOnce (rd : Reader) (sm : StateMachine) (me : ℕ) : Reaction :=
  if sm.round > rd.lastMessageRound then {
    reader := { rd with lastMessageRound := sm.round }
    tasks := [.submit sm.round sm.currentRoundInfo me rd.keys.encryptKey.deepCopy
      rd.keys.revealKey.deepCopy] }
  else { reader := rd }

/-- `none` if `GenKey` does not return. -/
def onSubmit (env : Env) (c : Client) (active : Bool) (draws : Draws) (rd : Reader)
    (sm : StateMachine) : Go (Option Reaction) :=
  match c.business active sm with
  | none => .ok (some { reader := rd })
  | some me =>
    if sm.round > rd.lastKeyGen then do
      let crypto ← deref sm.currentRoundInfo.crypto
      match crypto.verify env (c.messageSize + Client.messageHeaderLength) with
      | .error _ => return some { reader := rd, tasks := [.abort sm.round] }
      | .ok () =>
        return (crypto.genKeys draws).map fun keys =>
          { submitOnce { rd with keys, lastKeyGen := sm.round } sm me with
            generated := some ⟨sm.round, crypto, keys⟩ }
    else .ok (some (submitOnce rd sm me))

def onEncrypt (c : Client) (active : Bool) (rd : Reader) (sm : StateMachine) : Reaction :=
  match c.business active sm with
  | none => { reader := rd }
  | some me => {
    reader := rd
    tasks := [.encrypt sm.round sm.currentRoundInfo me rd.keys.encryptKey.deepCopy] }

/-- The client scrambles once per round, in its turn. -/
def onScramble (c : Client) (active : Bool) (rd : Reader) (sm : StateMachine) : Reaction :=
  match c.business active sm with
  | none => { reader := rd }
  | some me =>
    if sm.round > rd.lastScrambledRound then
      if me ≠ sm.currentRoundInfo.numScrambled then { reader := rd }
      else {
        reader := { rd with
          snapshot := { rd.snapshot with
            numberOfMessagesWhenScrambled := sm.currentRoundInfo.messages.length }
          lastScrambledRound := sm.round }
        tasks := [.scramble sm.round sm.currentRoundInfo me rd.keys.scrambleKey.deepCopy
          rd.keys.revealKey.deepCopy] }
    else { reader := rd }

def onDecrypt (c : Client) (active : Bool) (rd : Reader) (sm : StateMachine) : Reaction :=
  match c.business active sm with
  | none => { reader := rd }
  | some me => {
    reader := rd
    tasks := [.decrypt sm.round sm.currentRoundInfo me rd.keys.scrambleKey.deepCopy
      rd.keys.encryptKey.deepCopy] }

/-- What the client remembers from the first update of a reveal phase. -/
def remember (rd : Reader) (sm : StateMachine) : Reader :=
  if sm.round > rd.snapshot.revealKeyHashesRound then
    { rd with
      snapshot := { rd.snapshot with
        revealKeyHashes := sm.currentRoundInfo.revealKeyHashes.map copyBytes
        messagesBeforeReveal := sm.currentRoundInfo.messages.map Msg.deepCopy
        revealKeyHashesRound := sm.round } }
  else rd

def onReveal (c : Client) (active : Bool) (rd : Reader) (sm : StateMachine) : Reaction :=
  match c.business active sm with
  | none => { reader := rd }
  | some me => {
    reader := rd.remember sm
    tasks := [.reveal sm.round sm.currentRoundInfo me rd.keys.revealKey.deepCopy] }

/-- One turn of the loop, for a state machine update. -/
def update (env : Env) (c : Client) (active leaving : Bool) (draws : Draws) (rd : Reader)
    (sm : StateMachine) : Go (Option Reaction) := do
  assertf env (rd.lastSm.mayPrecede sm)
  let rd := { rd with lastSm := sm }
  match sm.currentRoundInfo.phase with
  | .prepare =>
    let reaction ← rd.onPrepare env c active leaving sm
    return some reaction
  | .submit => rd.onSubmit env c active draws sm
  | .encrypt => return some (rd.onEncrypt c active sm)
  | .scramble => return some (rd.onScramble c active sm)
  | .decrypt => return some (rd.onDecrypt c active sm)
  | .reveal => return some (rd.onReveal c active sm)
  -- "which should never happen"
  | .unset | .done | .failed =>
    assertf env False
    return some { reader := rd }

end Reader

/-! ## What one turn can do -/

@[simp] theorem map_copyBytes (hashes : List Bytes) : hashes.map copyBytes = hashes := by
  rw [funext copyBytes_eq, List.map_id']

@[simp] theorem map_deepCopy (messages : List Msg) : messages.map Msg.deepCopy = messages := by
  rw [funext Msg.deepCopy_eq, List.map_id']

@[simp] theorem Snapshot.deepCopy_eq (snap : Snapshot) : snap.deepCopy = snap := by
  simp [Snapshot.deepCopy]

theorem Task.op_sendRoundResult_ne {env : Env} {c : Client} {chance : Chance} {sm : StateMachine}
    {r : ℤ} {snapshot : Snapshot} {op : Op} :
    (sendRoundResult sm r snapshot).op env c chance ≠ .ok (some op) := by
  rcases h : c.sendRoundResult env sm r snapshot <;> simp [Task.op, h]

theorem Client.me_of_business {c : Client} {active : Bool} {sm : StateMachine} {me : ℕ}
    (h : c.business active sm = some me) : c.me sm.currentRoundInfo = some me := by
  unfold Client.business at h
  split_ifs at h
  exact h

theorem Reader.eq_of_mem_prepares {c : Client} {active leaving : Bool} {sm : StateMachine}
    {t : Task} (ht : t ∈ prepares c active leaving sm) : ∃ me, t = .prepare sm.round me := by
  unfold prepares at ht
  split_ifs at ht
  · exact ⟨_, List.mem_singleton.1 ht⟩
  · cases ht

@[simp] theorem Reader.submitOnce_generated (rd : Reader) (sm : StateMachine) (me : ℕ) :
    (rd.submitOnce sm me).generated = none := by
  unfold submitOnce
  split_ifs <;> rfl

/-- What asking for a message leaves alone. -/
theorem Reader.submitOnce_frame (rd : Reader) (sm : StateMachine) (me : ℕ) :
    (rd.submitOnce sm me).reader =
      { rd with lastMessageRound := (rd.submitOnce sm me).reader.lastMessageRound } := by
  unfold submitOnce
  split_ifs <;> rfl

theorem Reader.remember_frame (rd : Reader) (sm : StateMachine) :
    rd.remember sm = { rd with snapshot := (rd.remember sm).snapshot } := by
  unfold remember
  split_ifs <;> rfl

theorem Reader.eq_of_mem_submitOnce {rd : Reader} {sm : StateMachine} {me : ℕ} {t : Task}
    (ht : t ∈ (rd.submitOnce sm me).tasks) :
    t = .submit sm.round sm.currentRoundInfo me rd.keys.encryptKey rd.keys.revealKey := by
  unfold submitOnce at ht
  split_ifs at ht
  · simpa using ht
  · cases ht

/-- One turn of the loop: the reaction of a client to the update `sm`. -/
inductive Reads (env : Env) (c : Client) (active : Bool) (draws : Draws) (rd : Reader)
    (sm : StateMachine) : Reaction → Prop
  | result {prepares : List Task} (hph : sm.currentRoundInfo.phase = .prepare)
      (hp : ∀ t ∈ prepares, ∃ me, t = .prepare sm.round me)
      (hlast : rd.lastResChSend < sm.round - 1) :
      Reads env c active draws rd sm {
        reader := { rd with lastSm := sm, lastResChSend := sm.round - 1 }
        tasks := .sendRoundResult sm sm.round rd.snapshot :: prepares }
  | prepare {prepares : List Task} (hph : sm.currentRoundInfo.phase = .prepare)
      (hp : ∀ t ∈ prepares, ∃ me, t = .prepare sm.round me)
      (hlast : sm.round - 1 ≤ rd.lastResChSend) :
      Reads env c active draws rd sm { reader := { rd with lastSm := sm }, tasks := prepares }
  | idle (hph : sm.currentRoundInfo.phase ≠ .prepare)
      (hidle : sm.currentRoundInfo.phase.Live → c.business active sm = none ∨
        sm.currentRoundInfo.phase = .scramble ∧ (sm.round ≤ rd.lastScrambledRound ∨
          c.business active sm ≠ some sm.currentRoundInfo.numScrambled)) :
      Reads env c active draws rd sm { reader := { rd with lastSm := sm } }
  | refuse {me : ℕ} (hph : sm.currentRoundInfo.phase = .submit)
      (hme : c.business active sm = some me)
      (hmo : ∀ mo, sm.currentRoundInfo.crypto = some mo →
        mo.verify env (c.messageSize + 16) ≠ .ok ()) :
      Reads env c active draws rd sm {
        reader := { rd with lastSm := sm }
        tasks := [.abort sm.round] }
  | generate {me : ℕ} {mo : Crypto} {keys : Keys}
      (hph : sm.currentRoundInfo.phase = .submit) (hme : c.business active sm = some me)
      (hlast : rd.lastKeyGen < sm.round) (hmo : sm.currentRoundInfo.crypto = some mo)
      (hv : mo.verify env (c.messageSize + 16) = .ok ()) (hk : mo.genKeys draws = some keys) :
      Reads env c active draws rd sm
        { Reader.submitOnce { rd with lastSm := sm, keys, lastKeyGen := sm.round } sm me with
          generated := some ⟨sm.round, mo, keys⟩ }
  | submit {me : ℕ} (hph : sm.currentRoundInfo.phase = .submit)
      (hme : c.business active sm = some me) (hlast : sm.round ≤ rd.lastKeyGen) :
      Reads env c active draws rd sm (Reader.submitOnce { rd with lastSm := sm } sm me)
  | encrypt {me : ℕ} (hph : sm.currentRoundInfo.phase = .encrypt)
      (hme : c.business active sm = some me) :
      Reads env c active draws rd sm {
        reader := { rd with lastSm := sm }
        tasks := [.encrypt sm.round sm.currentRoundInfo me rd.keys.encryptKey] }
  | scramble {me : ℕ} (hph : sm.currentRoundInfo.phase = .scramble)
      (hme : c.business active sm = some me) (hlast : rd.lastScrambledRound < sm.round)
      (hturn : me = sm.currentRoundInfo.numScrambled) :
      Reads env c active draws rd sm {
        reader := { rd with
          lastSm := sm
          snapshot := { rd.snapshot with
            numberOfMessagesWhenScrambled := sm.currentRoundInfo.messages.length }
          lastScrambledRound := sm.round }
        tasks := [.scramble sm.round sm.currentRoundInfo me rd.keys.scrambleKey rd.keys.revealKey] }
  | decrypt {me : ℕ} (hph : sm.currentRoundInfo.phase = .decrypt)
      (hme : c.business active sm = some me) :
      Reads env c active draws rd sm {
        reader := { rd with lastSm := sm }
        tasks := [.decrypt sm.round sm.currentRoundInfo me rd.keys.scrambleKey rd.keys.encryptKey] }
  | reveal {me : ℕ} (hph : sm.currentRoundInfo.phase = .reveal)
      (hme : c.business active sm = some me) :
      Reads env c active draws rd sm {
        reader := Reader.remember { rd with lastSm := sm } sm
        tasks := [.reveal sm.round sm.currentRoundInfo me rd.keys.revealKey] }

namespace Reads

variable {env : Env} {c : Client} {active leaving : Bool} {draws : Draws} {rd : Reader}
  {sm : StateMachine} {a : Reaction}

theorem of_onPrepare (hph : sm.currentRoundInfo.phase = .prepare)
    (h : Reader.onPrepare env c active leaving { rd with lastSm := sm } sm = .ok a) :
    Reads env c active draws rd sm a := by
  unfold Reader.onPrepare at h
  simp only [Snapshot.deepCopy_eq] at h
  split_ifs at h with hlast
  · obtain ⟨-, -, h⟩ := bind_eq_ok_iff.1 h
    cases h
    exact .result hph (fun t => Reader.eq_of_mem_prepares) hlast
  · cases h
    exact .prepare hph (fun t => Reader.eq_of_mem_prepares) (not_lt.1 hlast)

theorem of_onSubmit (hph : sm.currentRoundInfo.phase = .submit)
    (h : Reader.onSubmit env c active draws { rd with lastSm := sm } sm = .ok (some a)) :
    Reads env c active draws rd sm a := by
  unfold Reader.onSubmit at h
  split at h
  · rename_i hme
    cases h
    exact .idle (by rw [hph]; decide) fun _ => Or.inl hme
  · rename_i me hme
    split_ifs at h with hlast
    · obtain ⟨mo, hmo, h⟩ := bind_eq_ok_iff.1 h
      rw [deref_eq_ok_iff] at hmo
      split at h
      · rename_i e hv
        cases h
        refine .refuse hph hme fun mo' hmo' hv' => ?_
        rw [hmo] at hmo'
        cases hmo'
        rw [show (16 : ℤ) = (Client.messageHeaderLength : ℤ) from rfl, hv] at hv'
        cases hv'
      · rename_i hv
        obtain ⟨keys, hk, rfl⟩ := Option.map_eq_some_iff.1 (Except.ok.inj h)
        exact .generate hph hme hlast hmo hv hk
    · cases h
      exact .submit hph hme (not_lt.1 hlast)

theorem of_onScramble (hph : sm.currentRoundInfo.phase = .scramble)
    (h : Reader.onScramble c active { rd with lastSm := sm } sm = a) :
    Reads env c active draws rd sm a := by
  have hne : sm.currentRoundInfo.phase ≠ .prepare := by rw [hph]; decide
  unfold Reader.onScramble at h
  split at h
  · rename_i hme
    cases h
    exact .idle hne fun _ => Or.inl hme
  · rename_i me hme
    split_ifs at h with hlast hturn
    · cases h
      refine .idle hne fun _ => Or.inr ⟨hph, Or.inr fun he => hturn ?_⟩
      exact Option.some.inj (hme.symm.trans he)
    · cases h
      simp only [PrivateKey.deepCopy_eq]
      exact .scramble hph hme hlast (not_not.1 hturn)
    · cases h
      exact .idle hne fun _ => Or.inr ⟨hph, Or.inl (not_lt.1 hlast)⟩

/-- Every reaction of the loop is one of those that `Reads` lists. -/
theorem of_update (h : rd.update env c active leaving draws sm = .ok (some a)) :
    Reads env c active draws rd sm a := by
  obtain ⟨-, -, h⟩ := bind_eq_ok_iff.1 h
  split at h
  · rename_i hph
    obtain ⟨a', ha, h⟩ := bind_eq_ok_iff.1 h
    cases h
    exact of_onPrepare hph ha
  · rename_i hph
    exact of_onSubmit hph h
  · rename_i hph
    cases h
    unfold Reader.onEncrypt
    split
    · rename_i hme
      exact .idle (by rw [hph]; decide) fun _ => Or.inl hme
    · rename_i me hme
      simp only [PrivateKey.deepCopy_eq]
      exact .encrypt hph hme
  · rename_i hph
    cases h
    exact of_onScramble hph rfl
  · rename_i hph
    cases h
    unfold Reader.onDecrypt
    split
    · rename_i hme
      exact .idle (by rw [hph]; decide) fun _ => Or.inl hme
    · rename_i me hme
      simp only [PrivateKey.deepCopy_eq]
      exact .decrypt hph hme
  · rename_i hph
    cases h
    unfold Reader.onReveal
    split
    · rename_i hme
      exact .idle (by rw [hph]; decide) fun _ => Or.inl hme
    · rename_i me hme
      simp only [PrivateKey.deepCopy_eq]
      exact .reveal hph hme
  all_goals
    rename_i hph
    obtain ⟨-, -, h⟩ := bind_eq_ok_iff.1 h
    cases h
    refine .idle (by rw [hph]; decide) fun hlive => ?_
    rw [hph] at hlive
    exact absurd hlive (by simp [Phase.Live])

end Reads

end EggScrambler
