import Mathlib
import EggScrambler.Invariant

/-!
# The client's helpers

The methods of `anonbcast/client.go` that build operations.  Each takes the round of an update and
what its goroutine was handed, and returns the operation it passes to `pending.add`, if any.
Random choices are arguments: the eight header bytes, and the shuffle of `scramble` as a function
that permutes every list.

`encrypt`, `scramble` and `decrypt` differ in the message list they send; what they share is
`offer`, at their `Stage`.  The second half says what an operation built by a helper looks like.
-/

namespace EggScrambler

open StateMachine

/-- Use a pointer or interface that may be nil. -/
def deref {α : Type} : Option α → Go α
  | some a => .ok a
  | none => .error .nilDereference

theorem deref_eq_ok_iff {α : Type} {x : Option α} {a : α} : deref x = .ok a ↔ x = some a := by
  cases x <;> simp [deref]

/-- The identity of a client and the part of `ClientConfig` that its helpers read. -/
structure Client where
  id : UUID
  /-- `Config.MessageSize`, a number of bytes.  With a header it is supposed to be in the range in
  which `bitsMaxSize` does not overflow, so less than `2 ^ 60 - 17`. -/
  messageSize : ℕ
  deriving DecidableEq, Repr

/-- The keys of a client in a round. -/
structure Keys where
  encryptKey : PrivateKey := nilPrivateKey
  scrambleKey : PrivateKey := nilPrivateKey
  revealKey : PrivateKey := nilPrivateKey
  deriving DecidableEq, Repr

/-- The random streams for the three calls of `GenKey`. -/
structure Draws where
  encrypt : List ℕ
  scramble : List ℕ
  reveal : List ℕ

/-- The three calls of `GenKey` in `readUpdates`; `none` if a stream is too short for its call to
return. -/
def Crypto.genKeys (mo : Crypto) (draws : Draws) : Option Keys := do
  let encryptKey ← mo.genKey draws.encrypt
  let scrambleKey ← mo.genKey draws.scramble
  let revealKey ← mo.genKey draws.reveal
  return { encryptKey, scrambleKey, revealKey }

/-- What `rand.Shuffle` may do to a list of messages. -/
structure Shuffle where
  apply : List Msg → List Msg
  perm : ∀ messages, (apply messages).Perm messages

/-- The random part of a message header. -/
abbrev Nonce := Vector UInt8 8

/-- The errors of `Start`. -/
inductive StartError where
  | notCurrent
  | notParticipant
  deriving DecidableEq, Repr

namespace Client

/-- The loop that looks for the client; `none` is `me == -1`, and the last match wins. -/
def me (c : Client) (ri : RoundInfo) : Option ℕ :=
  ri.participants.zipIdx.foldl (fun me p => if p.1 = c.id then some p.2 else me) none

def prepare (c : Client) (round : ℤ) (me : Option ℕ) : Option Op :=
  if me = none then some (.join c.id round) else none

def abort (round : ℤ) : Op := .abort round

def messageHeaderLength : ℕ := 16

/-- Eight bytes 13, then eight random bytes. -/
def messageHeader (r : Nonce) : Bytes := List.replicate 8 13 ++ r.toList

def messageWithHeader (r : Nonce) (m : Bytes) : Bytes := messageHeader r ++ m

/-- The part of `submit` that prepares the user's message, or the empty one if it is too long. -/
def prepareMessage (env : Env) (c : Client) (crypto : Crypto) (msg : Bytes) (r₁ r₂ : Nonce) :
    Go Msg := do
  match ← crypto.prepareMsg (messageWithHeader r₁ msg) with
  | .error _ =>
    assertf env (msg.length > c.messageSize)
    let m ← crypto.prepareMsg (messageWithHeader r₂ [])
    assertf env (m.toBool = true)
    -- with the error comes the null message
    return m.toOption.getD nilMsg
  | .ok m =>
    assertf env (msg.length ≤ c.messageSize)
    return m

/-- `submit`, with the user's message (empty after a timeout) and the random bytes of the two
headers that it may draw. -/
def submit (env : Env) (c : Client) (round : ℤ) (ri : RoundInfo) (me : ℕ)
    (encryptKey revealKey : PrivateKey) (msg : Bytes) (r₁ r₂ : Nonce) : Go (Option Op) := do
  if (← getAt ri.messages me).isNil then
    let crypto ← deref ri.crypto
    let m ← c.prepareMessage env crypto msg r₁ r₂
    return some (.message c.id round (crypto.encrypt encryptKey m) (revealKey.hash env))
  else return none

/-- The common part of `encrypt`, `scramble` and `decrypt`: unless the client's flag is raised, send
`messages` with the number of raised flags. -/
def offer (st : Stage) (c : Client) (round : ℤ) (ri : RoundInfo) (me : ℕ)
    (messages : Go (List Msg)) : Go (Option Op) := do
  if ← getAt (st.flags ri) me then return none
  else
    let messages ← messages
    return some (st.op c.id round messages (numTrue (st.flags ri)))

/-- The client's own message was encrypted when it was submitted. -/
def encrypt (c : Client) (round : ℤ) (ri : RoundInfo) (me : ℕ) (encryptKey : PrivateKey) :
    Go (Option Op) :=
  offer .encrypt c round ri me <| ri.messages.zipIdx.mapM fun m =>
    if m.2 = me then pure m.1.deepCopy
    else do
      let crypto ← deref ri.crypto
      return crypto.encrypt encryptKey m.1

def scramble (c : Client) (round : ℤ) (ri : RoundInfo) (me : ℕ)
    (scrambleKey revealKey : PrivateKey) (shuffle : Shuffle) : Go (Option Op) :=
  offer .scramble c round ri me <| shuffle.apply <$> ri.messages.mapM fun m => do
    let crypto ← deref ri.crypto
    let m1 := crypto.encrypt scrambleKey m
    return crypto.encrypt revealKey m1

def decrypt (c : Client) (round : ℤ) (ri : RoundInfo) (me : ℕ)
    (scrambleKey encryptKey : PrivateKey) : Go (Option Op) :=
  offer .decrypt c round ri me <| ri.messages.mapM fun m => do
    let crypto ← deref ri.crypto
    let m1 := crypto.decrypt scrambleKey m
    return crypto.decrypt encryptKey m1

def reveal (c : Client) (round : ℤ) (ri : RoundInfo) (me : ℕ) (revealKey : PrivateKey) :
    Go (Option Op) := do
  if (← getAt ri.revealedKeys me).isNil then return some (.reveal c.id round revealKey)
  else return none

/-- `Start`, from the last state machine and with the crypto that it creates. -/
def start (c : Client) (sm : StateMachine) (round : ℤ) (crypto : Crypto) : Except StartError Op :=
  if sm.round ≠ round then .error .notCurrent
  else if c.id ∉ sm.currentRoundInfo.participants then .error .notParticipant
  else .ok (.start c.id round (some crypto))

end Client

/-- A goroutine of a client is handed the current round of a state or, as the server sends it, a
copy of it. -/
def Seen (sm : StateMachine) (ri : RoundInfo) : Prop :=
  ri = sm.currentRoundInfo ∨ sm.currentRoundInfo.deepCopy = .ok ri

/-! ## What the helpers build -/

theorem getAt_eq_ok_iff {α : Type} {xs : List α} {i : ℕ} {x : α} :
    getAt xs i = .ok x ↔ xs[i]? = some x := by
  unfold getAt
  cases xs[i]? <;> simp

/-- A loop whose every step succeeds. -/
theorem mapM_eq_ok {α β : Type} {f : α → Go β} {g : α → β} (h : ∀ a, f a = .ok (g a))
    (xs : List α) : xs.mapM f = .ok (xs.map g) := by
  rw [funext h]
  exact List.mapM_pure

namespace Client

theorem foldl_zipIdx {c : Client} (ids : List UUID) :
    (∀ i, ids.zipIdx.foldl (fun me p => if p.1 = c.id then some p.2 else me) none = some i →
      ids[i]? = some c.id) ∧
    (ids.zipIdx.foldl (fun me p => if p.1 = c.id then some p.2 else me) none = none ↔
      c.id ∉ ids) := by
  induction ids using List.reverseRecOn with
  | nil => simp
  | append_singleton ids id ih =>
    rw [List.zipIdx_append, List.foldl_append]
    by_cases hid : id = c.id
    · simp [hid]
    · refine ⟨fun i hi => ?_, ?_⟩
      · have := ih.1 i (by simpa [hid] using hi)
        rw [List.getElem?_append_left (List.getElem?_eq_some_iff.1 this).1, this]
      · simpa [hid, eq_comm] using ih.2

/-- Participants being distinct, the client's loop and the server's find the same index. -/
theorem me_eq_participantIndex {c : Client} {ri : RoundInfo} (hnd : ri.participants.Nodup) :
    c.me ri = ri.participantIndex c.id := by
  obtain ⟨hsome, hnone⟩ := foldl_zipIdx (c := c) ri.participants
  rcases hme : c.me ri with _ | i
  · exact (RoundInfo.participantIndex_eq_none_iff.2 (hnone.1 hme)).symm
  · exact (RoundInfo.participantIndex_of_getElem? hnd (hsome i hme)).symm

theorem offer_eq_some_iff {st : Stage} {c : Client} {round : ℤ} {ri : RoundInfo} {me : ℕ}
    {messages : Go (List Msg)} {op : Op} :
    offer st c round ri me messages = .ok (some op) ↔ (st.flags ri)[me]? = some false ∧
      ∃ ms, messages = .ok ms ∧ op = st.op c.id round ms (numTrue (st.flags ri)) := by
  unfold offer
  rw [bind_eq_ok_iff]
  constructor
  · rintro ⟨b, hb, h⟩
    rw [getAt_eq_ok_iff] at hb
    cases b with
    | true => simp [pure, Except.pure] at h
    | false =>
      simp only [Bool.false_eq_true, if_false, bind_eq_ok_iff] at h
      obtain ⟨ms, hms, h⟩ := h
      cases h
      exact ⟨hb, ms, hms, rfl⟩
  · rintro ⟨hb, ms, hms, rfl⟩
    exact ⟨false, getAt_eq_ok_iff.2 hb, by simp [hms, bind, Except.bind, pure, Except.pure]⟩

theorem reveal_eq_some_iff {c : Client} {round : ℤ} {ri : RoundInfo} {me : ℕ}
    {revealKey : PrivateKey} {op : Op} :
    c.reveal round ri me revealKey = .ok (some op) ↔
      (∃ k, ri.revealedKeys[me]? = some k ∧ k.isNil = true) ∧
        op = .reveal c.id round revealKey := by
  unfold reveal
  rw [bind_eq_ok_iff]
  constructor
  · rintro ⟨k, hk, h⟩
    split_ifs at h with hnil
    · cases h
      exact ⟨⟨k, getAt_eq_ok_iff.1 hk, hnil⟩, rfl⟩
    · simp [pure, Except.pure] at h
  · rintro ⟨⟨k, hk, hnil⟩, rfl⟩
    exact ⟨k, getAt_eq_ok_iff.2 hk, by simp [hnil, pure, Except.pure]⟩

section Crypto

variable {c : Client} {round : ℤ} {ri : RoundInfo} {me : ℕ} {mo : Crypto} {op : Op}

theorem encrypt_eq_some_iff (hmo : ri.crypto = some mo) {encryptKey : PrivateKey} :
    c.encrypt round ri me encryptKey = .ok (some op) ↔ ri.encrypted[me]? = some false ∧
      op = .encrypted c.id round (ri.messages.zipIdx.map fun m =>
        if m.2 = me then m.1 else mo.encrypt encryptKey m.1) ri.numEncrypted := by
  rw [encrypt, offer_eq_some_iff,
    mapM_eq_ok (g := fun m => if m.2 = me then m.1 else mo.encrypt encryptKey m.1) fun m => by
      split_ifs <;> simp [hmo, deref, bind, Except.bind, pure, Except.pure]]
  simp [Stage.flags, Stage.op, RoundInfo.numEncrypted]

theorem scramble_eq_some_iff (hmo : ri.crypto = some mo) {scrambleKey revealKey : PrivateKey}
    {shuffle : Shuffle} :
    c.scramble round ri me scrambleKey revealKey shuffle = .ok (some op) ↔
      ri.scrambled[me]? = some false ∧
      op = .scrambled c.id round (shuffle.apply (ri.messages.map fun m =>
        mo.encrypt revealKey (mo.encrypt scrambleKey m))) := by
  rw [scramble, offer_eq_some_iff,
    mapM_eq_ok (g := fun m => mo.encrypt revealKey (mo.encrypt scrambleKey m)) fun m => by
      simp [hmo, deref, bind, Except.bind, pure, Except.pure]]
  simp [Stage.flags, Stage.op, Functor.map, Except.map]

theorem decrypt_eq_some_iff (hmo : ri.crypto = some mo) {scrambleKey encryptKey : PrivateKey} :
    c.decrypt round ri me scrambleKey encryptKey = .ok (some op) ↔
      ri.decrypted[me]? = some false ∧
      op = .decrypted c.id round (ri.messages.map fun m =>
        mo.decrypt encryptKey (mo.decrypt scrambleKey m)) ri.numDecrypted := by
  rw [decrypt, offer_eq_some_iff,
    mapM_eq_ok (g := fun m => mo.decrypt encryptKey (mo.decrypt scrambleKey m)) fun m => by
      simp [hmo, deref, bind, Except.bind, pure, Except.pure]]
  simp [Stage.flags, Stage.op, RoundInfo.numDecrypted]

end Crypto

end Client

end EggScrambler
