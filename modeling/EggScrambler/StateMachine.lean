import Mathlib
import EggScrambler.Crypto
import EggScrambler.Lib.Transition

/-!
# The replicated state machine

`anonbcast/op.go` and `anonbcast/statemachine.go`.  The log of the cluster is a list of `Op`s;
`apply` is one step of a replica, and `Reachable` are its states after any log whatsoever.

The round number is an unbounded integer.  A handler of the source changes the current round through
a pointer; here it builds the changed `RoundInfo` and stores it with `setCurrent`.  The handlers
`encrypted`, `scrambled` and `decrypted` differ only in the phase, the flags and the number they
compare the count of raised flags with, so each is `transform` at its own `Stage`.
-/

namespace EggScrambler

open Transition

/-- `uuid.UUID`, sixteen bytes compared for equality. -/
@[reducible] def UUID := BitVec 128
  deriving DecidableEq

/-- The phases; `unset` is the empty string, the zero value. -/
inductive Phase where
  | unset
  | prepare
  | submit
  | encrypt
  | scramble
  | decrypt
  | reveal
  | done
  | failed
  deriving DecidableEq, Repr

inductive OpType where
  | join
  | start
  | message
  | encrypted
  | scrambled
  | decrypted
  | reveal
  | abort
  deriving DecidableEq, Repr

/-- Operations; `r` is the round an operation is meant for and `prev` the test-and-set counter. -/
inductive Op where
  | join (id : UUID) (r : ℤ)
  | start (id : UUID) (r : ℤ) (crypto : Option Crypto)
  | message (id : UUID) (r : ℤ) (message : Msg) (revealKeyHash : Bytes)
  | encrypted (id : UUID) (r : ℤ) (messages : List Msg) (prev : ℤ)
  | scrambled (id : UUID) (r : ℤ) (messages : List Msg)
  | decrypted (id : UUID) (r : ℤ) (messages : List Msg) (prev : ℤ)
  | reveal (id : UUID) (r : ℤ) (revealKey : PrivateKey)
  | abort (r : ℤ)
  deriving DecidableEq, Repr

namespace Op

def type : Op → OpType
  | join .. => .join
  | start .. => .start
  | message .. => .message
  | encrypted .. => .encrypted
  | scrambled .. => .scrambled
  | decrypted .. => .decrypted
  | reveal .. => .reveal
  | abort .. => .abort

def round : Op → ℤ
  | join _ r | start _ r _ | message _ r _ _ | encrypted _ r _ _ | scrambled _ r _
  | decrypted _ r _ _ | reveal _ r _ | abort r => r

end Op

/-- The data of one round; the default is Go's zero value. -/
structure RoundInfo where
  phase : Phase := .unset
  crypto : Option Crypto := none
  participants : List UUID := []
  messages : List Msg := []
  encrypted : List Bool := []
  scrambled : List Bool := []
  decrypted : List Bool := []
  revealedKeys : List PrivateKey := []
  revealKeyHashes : List Bytes := []
  deriving DecidableEq, Repr

/-- The rounds are stored at their number modulo `NumRoundsPersisted = 3`. -/
structure StateMachine where
  round : ℤ
  rounds : Fin 3 → RoundInfo

theorem StateMachine.ext_slots {a b : StateMachine} (h : a.round = b.round ∧
    a.rounds 0 = b.rounds 0 ∧ a.rounds 1 = b.rounds 1 ∧ a.rounds 2 = b.rounds 2) : a = b := by
  obtain ⟨hr, h₀, h₁, h₂⟩ := h
  cases a
  cases b
  congr
  funext i
  fin_cases i
  · exact h₀
  · exact h₁
  · exact h₂

instance : DecidableEq StateMachine := fun a b =>
  decidable_of_iff (a.round = b.round ∧ a.rounds 0 = b.rounds 0 ∧ a.rounds 1 = b.rounds 1 ∧
      a.rounds 2 = b.rounds 2)
    ⟨StateMachine.ext_slots, fun h => h ▸ ⟨rfl, rfl, rfl, rfl⟩⟩

/-! ## Indexing -/

/-- `xs[i]`. -/
def getAt {α : Type} (xs : List α) (i : ℕ) : Go α :=
  match xs[i]? with
  | some x => .ok x
  | none => .error .indexOutOfRange

/-- `xs[i] = x`. -/
def setAt {α : Type} (xs : List α) (i : ℕ) (x : α) : Go (List α) :=
  if i < xs.length then .ok (xs.set i x) else .error .indexOutOfRange

/-- `for i, x := range src { dst[i] = x }`. -/
def assign {α : Type} : (dst src : List α) → Go (List α)
  | dst, [] => .ok dst
  | [], _ :: _ => .error .indexOutOfRange
  | _ :: dst, x :: src => do
    let rest ← assign dst src
    return x :: rest

/-- The counting loop of `numEncrypted`, `numScrambled` and `numDecrypted`. -/
def numTrue (flags : List Bool) : ℕ := flags.foldl (fun n s => if s then n + 1 else n) 0

namespace RoundInfo

/-- The first index of a participant; `none` is the error "participant not found". -/
def participantIndex (ri : RoundInfo) (id : UUID) : Option ℕ :=
  ri.participants.findIdx? (· == id)

def numEncrypted (ri : RoundInfo) : ℕ := numTrue ri.encrypted

def numScrambled (ri : RoundInfo) : ℕ := numTrue ri.scrambled

def numDecrypted (ri : RoundInfo) : ℕ := numTrue ri.decrypted

/-- The assertions of `RoundInfo.checkRep`. -/
def checkRep (ri : RoundInfo) : Prop :=
  ri.participants.length = ri.messages.length ∧
  ri.participants.length = ri.encrypted.length ∧
  ri.participants.length = ri.scrambled.length ∧
  ri.participants.length = ri.decrypted.length ∧
  ri.participants.length = ri.revealedKeys.length ∧
  ri.participants.length = ri.revealKeyHashes.length ∧
  (ri.phase = .unset ∨ ri.phase = .prepare ∨ ri.phase = .failed ∨ ri.crypto ≠ none) ∧
  (ri.phase ≠ .prepare ∨ ri.crypto = none) ∧
  (∀ i < ri.scrambled.length, 0 < i → ri.scrambled[i]? = some true →
    ri.scrambled[i - 1]? = some true) ∧
  (∀ i1 < ri.participants.length, ∀ i2 < ri.participants.length,
    ri.participants[i1]? = ri.participants[i2]? → i1 = i2) ∧
  ∀ i < ri.messages.length,
    if (ri.messages[i]?.getD nilMsg).isNil then ri.revealKeyHashes[i]?.getD [] = []
    else ri.revealKeyHashes[i]?.getD [] ≠ []

def deepCopy (ri : RoundInfo) : Go RoundInfo := do
  let n := ri.participants.length
  let messages ← assign (List.replicate n nilMsg) (ri.messages.map Msg.deepCopy)
  let revealedKeys ← assign (List.replicate n nilPrivateKey)
    (ri.revealedKeys.map PrivateKey.deepCopy)
  let revealKeyHashes ← assign (List.replicate n []) (ri.revealKeyHashes.map copyBytes)
  return {
    phase := ri.phase
    crypto := ri.crypto.map Crypto.deepCopy
    participants := copy (List.replicate n 0) ri.participants
    messages
    encrypted := copy (List.replicate n false) ri.encrypted
    scrambled := copy (List.replicate n false) ri.scrambled
    decrypted := copy (List.replicate n false) ri.decrypted
    revealedKeys
    revealKeyHashes }

end RoundInfo

/-! ## The three list handlers -/

/-- The phases in which the whole message list is replaced. -/
inductive Stage where
  | encrypt
  | scramble
  | decrypt
  deriving DecidableEq, Repr

namespace Stage

def phase : Stage → Phase
  | encrypt => .encrypt
  | scramble => .scramble
  | decrypt => .decrypt

def next : Stage → Phase
  | encrypt => .scramble
  | scramble => .decrypt
  | decrypt => .reveal

def flags : Stage → RoundInfo → List Bool
  | encrypt, ri => ri.encrypted
  | scramble, ri => ri.scrambled
  | decrypt, ri => ri.decrypted

def setFlags : Stage → RoundInfo → List Bool → RoundInfo
  | encrypt, ri, flags => { ri with encrypted := flags }
  | scramble, ri, flags => { ri with scrambled := flags }
  | decrypt, ri, flags => { ri with decrypted := flags }

/-- The operation of a stage; `ScrambledOp` carries no counter. -/
def op (st : Stage) (id : UUID) (r : ℤ) (messages : List Msg) (prev : ℤ) : Op :=
  match st with
  | encrypt => .encrypted id r messages prev
  | scramble => .scrambled id r messages
  | decrypt => .decrypted id r messages prev

end Stage

namespace StateMachine

/-- Where round `round` is stored; the source computes it for rounds `≥ 0` only. -/
def slot (round : ℤ) : Fin 3 := ⟨(round % 3).toNat, by omega⟩

/-- The errors of `GetRoundInfo`. -/
inductive RoundInfoError where
  | future
  | negative
  | tooOld
  deriving DecidableEq, Repr

def getRoundInfo (sm : StateMachine) (round : ℤ) : Except RoundInfoError RoundInfo :=
  if round > sm.round then .error .future
  else if round < 0 then .error .negative
  else if round ≤ sm.round - 3 then .error .tooOld
  else .ok (sm.rounds (slot round))

/-- On an error the pointer is to a fresh zero value. -/
def currentRoundInfo (sm : StateMachine) : RoundInfo :=
  match sm.getRoundInfo sm.round with
  | .ok ri => ri
  | .error _ => {}

/-- Store through the pointer that `CurrentRoundInfo` returned. -/
def setCurrent (sm : StateMachine) (ri : RoundInfo) : StateMachine :=
  match sm.getRoundInfo sm.round with
  | .ok _ => { sm with rounds := Function.update sm.rounds (slot sm.round) ri }
  | .error _ => sm

def initRound (sm : StateMachine) (round : ℤ) : StateMachine :=
  { sm with rounds := Function.update sm.rounds (slot round) { phase := .prepare } }

/-- `sm.Round++; sm.initRound(sm.Round)`. -/
def nextRound (sm : StateMachine) : StateMachine :=
  { sm with round := sm.round + 1 }.initRound (sm.round + 1)

def newStateMachine : StateMachine := initRound ⟨0, fun _ => {}⟩ 0

def checkRep (sm : StateMachine) : Prop := 0 ≤ sm.round ∧ ∀ i, (sm.rounds i).checkRep

def join (sm : StateMachine) (id : UUID) : StateMachine × Bool :=
  let ri := sm.currentRoundInfo
  if ri.phase ≠ .prepare then (sm, false)
  else
    match ri.participantIndex id with
    | none =>
      (sm.setCurrent { ri with
        participants := ri.participants ++ [id]
        messages := ri.messages ++ [nilMsg]
        encrypted := ri.encrypted ++ [false]
        scrambled := ri.scrambled ++ [false]
        decrypted := ri.decrypted ++ [false]
        revealedKeys := ri.revealedKeys ++ [nilPrivateKey]
        revealKeyHashes := ri.revealKeyHashes ++ [[]] }, true)
    | some _ => (sm, false)

def start (sm : StateMachine) (crypto : Option Crypto) : StateMachine × Bool :=
  let ri := sm.currentRoundInfo
  if ri.phase ≠ .prepare then (sm, false)
  else (sm.setCurrent { ri with phase := .submit, crypto }, true)

def message (sm : StateMachine) (id : UUID) (msg : Msg) (revealKeyHash : Bytes) :
    Go (StateMachine × Bool) :=
  let ri := sm.currentRoundInfo
  if ri.phase ≠ .submit then .ok (sm, false)
  else
    match ri.participantIndex id with
    | none => .ok (sm, false)
    | some p => do
      let messages ← setAt ri.messages p msg
      let revealKeyHashes ← setAt ri.revealKeyHashes p (copyBytes revealKeyHash)
      let ri := { ri with messages, revealKeyHashes }
      -- the scan for a missing message returns before the phase changes
      if messages.any Msg.isNil then return (sm.setCurrent ri, true)
      else return (sm.setCurrent { ri with phase := .encrypt }, true)

/-- The common body of `encrypted`, `scrambled` and `decrypted`: `expected p` is what the number of
raised flags must be for the participant with index `p`. -/
def transform (st : Stage) (sm : StateMachine) (id : UUID) (messages : List Msg)
    (expected : ℕ → ℤ) : Go (StateMachine × Bool) :=
  let ri := sm.currentRoundInfo
  if ri.phase ≠ st.phase then .ok (sm, false)
  else
    match ri.participantIndex id with
    | none => .ok (sm, false)
    | some p =>
      if (numTrue (st.flags ri) : ℤ) ≠ expected p then .ok (sm, false)
      else do
        if ← getAt (st.flags ri) p then return (sm, false)
        else
          let flags ← setAt (st.flags ri) p true
          let ri := st.setFlags { ri with messages } flags
          if numTrue flags = flags.length then
            return (sm.setCurrent { ri with phase := st.next }, true)
          else return (sm.setCurrent ri, true)

def encrypted (sm : StateMachine) (id : UUID) (messages : List Msg) (prev : ℤ) :
    Go (StateMachine × Bool) := transform .encrypt sm id messages fun _ => prev

/-- The count must be the participant's own index. -/
def scrambled (sm : StateMachine) (id : UUID) (messages : List Msg) : Go (StateMachine × Bool) :=
  transform .scramble sm id messages fun p => p

def decrypted (sm : StateMachine) (id : UUID) (messages : List Msg) (prev : ℤ) :
    Go (StateMachine × Bool) := transform .decrypt sm id messages fun _ => prev

def reveal (sm : StateMachine) (id : UUID) (revealKey : PrivateKey) : Go (StateMachine × Bool) :=
  let ri := sm.currentRoundInfo
  if ri.phase ≠ .reveal then .ok (sm, false)
  else
    match ri.participantIndex id with
    | none => .ok (sm, false)
    | some p => do
      let revealedKeys ← setAt ri.revealedKeys p revealKey
      let ri := { ri with revealedKeys }
      if revealedKeys.any PrivateKey.isNil then return (sm.setCurrent ri, true)
      else return ((sm.setCurrent { ri with phase := .done }).nextRound, true)

/-- Any round can be aborted, in any phase. -/
def abort (sm : StateMachine) : StateMachine × Bool :=
  ((sm.setCurrent { sm.currentRoundInfo with phase := .failed }).nextRound, true)

/-- `Apply`: the new state and whether the operation had an effect. -/
def apply (sm : StateMachine) (op : Op) : Go (StateMachine × Bool) :=
  if op.round ≠ sm.round then .ok (sm, false)
  else
    match op with
    | .join id _ => .ok (sm.join id)
    | .start _ _ crypto => .ok (sm.start crypto)
    | .message id _ msg revealKeyHash => sm.message id msg revealKeyHash
    | .encrypted id _ messages prev => sm.encrypted id messages prev
    | .scrambled id _ messages => sm.scrambled id messages
    | .decrypted id _ messages prev => sm.decrypted id messages prev
    | .reveal id _ revealKey => sm.reveal id revealKey
    | .abort _ => .ok sm.abort

/-- The switch of `GuaranteedNoEffect`: each phase's own test, then `fallthrough` to the next one.
-/
def noEffectIn (phase : Phase) (type : OpType) : Go Bool :=
  let prepare := false
  let submit := if type = .join ∨ type = .start then true else prepare
  let encrypt := if type = .message then true else submit
  let scramble := if type = .encrypted then true else encrypt
  let decrypt := if type = .scrambled then true else scramble
  let reveal := if type = .decrypted then true else decrypt
  match phase with
  | .reveal => .ok reveal
  | .decrypt => .ok decrypt
  | .scramble => .ok scramble
  | .encrypt => .ok encrypt
  | .submit => .ok submit
  | .prepare => .ok prepare
  -- "should never happen; exhaustively all phases should be checked"
  | .unset | .done | .failed => .error .assertionFailed

def guaranteedNoEffect (sm : StateMachine) (op : Op) : Go Bool :=
  if op.round < sm.round then .ok true
  else if op.round = sm.round then noEffectIn sm.currentRoundInfo.phase op.type
  else .ok false

def deepCopy (sm : StateMachine) : Go StateMachine := do
  let r₀ ← (sm.rounds 0).deepCopy
  let r₁ ← (sm.rounds 1).deepCopy
  let r₂ ← (sm.rounds 2).deepCopy
  return ⟨sm.round, ![r₀, r₁, r₂]⟩

/-- The map `phaseOrder` of `MayPrecede`; a missing key gives zero. -/
def phaseOrder : Phase → ℕ
  | .prepare => 0
  | .submit => 1
  | .encrypt => 2
  | .scramble => 3
  | .decrypt => 4
  | .reveal => 5
  | .done => 6
  | .failed => 7
  | .unset => 0

def mayPrecede (sm sm2 : StateMachine) : Bool :=
  if sm.round < sm2.round then true
  else if sm.round > sm2.round then false
  else if phaseOrder sm.currentRoundInfo.phase > phaseOrder sm2.currentRoundInfo.phase then false
  else true

/-- The states of a replica after any log. -/
def Reachable (sm : StateMachine) : Prop := Leads apply newStateMachine sm

end StateMachine

end EggScrambler
