import Mathlib
import EggScrambler.Codec
import EggScrambler.Layers

/-!
# The result of a round

`sendRoundResult` of `anonbcast/client.go`: after a round the client checks the messages against
what it remembers of the round (`Snapshot`), decrypts them with the revealed keys and looks at
their headers. The loops of the source are functions here.  An inner error is a `MaliciousError`,
with the data that its text prints; the outer one of `Go` is a panic.

The second half computes the verdict on a round that is done and whose snapshot agrees with it
(`sendRoundResult_of_agrees`): one lemma for each loop.
-/

namespace EggScrambler

open StateMachine BigEndian

/-- The error of `verifyHeader`: a byte that is not 13, and its index. -/
structure HeaderError where
  index : ℕ
  byte : UInt8
  deriving DecidableEq, Repr

/-- The errors that `sendRoundResult` reports. -/
inductive MaliciousError where
  | revealKeySubmitted
  | numberOfMessages (before now : ℕ)
  | messagesChanged (m m2 : Msg)
  | revealKeyHash (hash meHash : Bytes)
  | invalidHeader (err : HeaderError)
  | duplicateHeader (h1 h2 : Bytes)
  deriving DecidableEq, Repr

structure RoundResult where
  round : ℤ
  succeeded : Bool
  messages : List Bytes := []
  maliciousError : Option MaliciousError := none
  deriving DecidableEq, Repr

/-- What the client remembers of a round, as `sendRoundResult` is handed it. -/
structure Snapshot where
  revealKeyHashes : List Bytes := []
  revealKeyHashesRound : ℤ := -1
  messagesBeforeReveal : List Msg := []
  numberOfMessagesWhenScrambled : ℕ := 0
  deriving DecidableEq, Repr

/-- `m[:n]`, of a slice without spare capacity. -/
def sliceTo (m : Bytes) (n : ℕ) : Go Bytes :=
  if n ≤ m.length then .ok (m.take n) else .error .sliceOutOfRange

namespace Client

/-- The messages must be those from before the keys were revealed. -/
def checkUnchanged : (messages messagesBeforeReveal : List Msg) → Go (Except MaliciousError Unit)
  | [], _ => .ok (.ok ())
  | _ :: _, [] => .error .indexOutOfRange
  | m :: ms, m2 :: before =>
    if m.equal m2 then checkUnchanged ms before else .ok (.error (.messagesChanged m m2))

/-- The loop over the revealed keys: check the hash of each, and decrypt with it. -/
def revealMessage (env : Env) (crypto : Option Crypto) :
    (revealedKeys : List PrivateKey) → (revealKeyHashes : List Bytes) → Msg →
      Go (Except MaliciousError Msg)
  | [], _, om => .ok (.ok om)
  | _ :: _, [], _ => .error .indexOutOfRange
  | revealKey :: keys, hash :: hashes, om =>
    if revealKey.hashEquals env hash then do
      let crypto' ← deref crypto
      revealMessage env crypto keys hashes (crypto'.decrypt revealKey om)
    else .ok (.error (.revealKeyHash hash (revealKey.hash env)))

def revealMessages (env : Env) (crypto : Option Crypto) (revealedKeys : List PrivateKey)
    (revealKeyHashes : List Bytes) : List Msg → Go (Except MaliciousError (List Bytes))
  | [] => .ok (.ok [])
  | m :: ms => do
    match ← revealMessage env crypto revealedKeys revealKeyHashes m with
    | .error e => return .error e
    | .ok om =>
      let crypto' ← deref crypto
      let msg ← crypto'.extractMsg om
      match ← revealMessages env crypto revealedKeys revealKeyHashes ms with
      | .error e => return .error e
      | .ok messages => return .ok (msg :: messages)

/-- The loop of `verifyHeader` over the indices that are left. -/
def verifyBytes (h : Bytes) : List ℕ → Go (Except HeaderError Unit)
  | [] => .ok (.ok ())
  | i :: is => do
    let b ← getAt h i
    if b ≠ 13 then return .error ⟨i, b⟩ else verifyBytes h is

def verifyHeader (env : Env) (h : Bytes) : Go (Except HeaderError Unit) := do
  assertf env (h.length = 16)
  verifyBytes h (List.range 8)

/-- Headers and messages, of those messages that are not empty. -/
def verifyMessages (env : Env) : List Bytes → Go (Except MaliciousError (List (Bytes × Bytes)))
  | [] => .ok (.ok [])
  | m :: ms => do
    let h ← sliceTo m messageHeaderLength
    match ← verifyHeader env h with
    | .error e => return .error (.invalidHeader e)
    | .ok () =>
      match ← verifyMessages env ms with
      | .error e => return .error e
      | .ok verified =>
        if m.length > messageHeaderLength then
          return .ok ((h, m.drop messageHeaderLength) :: verified)
        else return .ok verified

/-- The loop that compares two headers. -/
def equalHeader : (h1 h2 : Bytes) → Go Bool
  | [], _ => .ok true
  | _ :: _, [] => .error .indexOutOfRange
  | b :: h1, b2 :: h2 => do
    let equal ← equalHeader h1 h2
    return decide (b = b2) && equal

def checkDuplicate (env : Env) (h1 : Bytes) : List Bytes → Go (Except MaliciousError Unit)
  | [] => .ok (.ok ())
  | h2 :: headers => do
    assertf env (h1.length = h2.length)
    if ← equalHeader h1 h2 then return .error (.duplicateHeader h1 h2)
    else checkDuplicate env h1 headers

/-- The loops over pairs of headers, the first before the second. -/
def checkDuplicates (env : Env) : List Bytes → Go (Except MaliciousError Unit)
  | [] => .ok (.ok ())
  | h1 :: headers => do
    match ← checkDuplicate env h1 headers with
    | .error e => return .error e
    | .ok () => checkDuplicates env headers

/-- The checks of the extracted messages, and what is sent to the user. -/
def verifyTexts (env : Env) (messages : List Bytes) : Go (Except MaliciousError (List Bytes)) := do
  match ← verifyMessages env messages with
  | .error e => return .error e
  | .ok verified =>
    match ← checkDuplicates env (verified.map Prod.fst) with
    | .error e => return .error e
    | .ok () => return .ok (verified.map Prod.snd)

/-- The checks of a round that is done. -/
def verifyRound (env : Env) (ri : RoundInfo) (snap : Snapshot) :
    Go (Except MaliciousError (List Bytes)) := do
  if ri.messages.length ≠ snap.numberOfMessagesWhenScrambled then
    return .error (.numberOfMessages snap.numberOfMessagesWhenScrambled ri.messages.length)
  match ← checkUnchanged ri.messages snap.messagesBeforeReveal with
  | .error e => return .error e
  | .ok () =>
    match ← revealMessages env ri.crypto ri.revealedKeys snap.revealKeyHashes ri.messages with
    | .error e => return .error e
    | .ok messages => verifyTexts env messages

/-- `sendRoundResult` for the round before `round`; `none` if the client did not participate. -/
def sendRoundResult (env : Env) (c : Client) (sm : StateMachine) (round : ℤ) (snap : Snapshot) :
    Go (Option RoundResult) := do
  let ri ← match sm.getRoundInfo (round - 1) with
    | .ok ri => pure ri
    | .error _ => do
      assertf env False
      pure {}
  assertf env (ri.phase = .done ∨ ri.phase = .failed)
  if c.id ∉ ri.participants then return none
  if ri.phase = .failed then
    return some {
      round := round - 1
      succeeded := false
      maliciousError :=
        if snap.revealKeyHashesRound = round - 1 then some .revealKeySubmitted else none }
  assertf env (snap.revealKeyHashesRound = round - 1)
  match ← verifyRound env ri snap with
  | .error e => return some { round := round - 1, succeeded := false, maliciousError := some e }
  | .ok messages =>
    return some { round := round - 1, succeeded := decide (ri.phase = .done), messages }

end Client

/-! ## Decrypted values -/

/-- What follows the first zero byte, if there is one. -/
def MasseyOmura.afterZero (b : Bytes) : Bytes := (b.dropWhile (· ≠ 0)).tail

theorem MasseyOmura.unPad_eq (b : Bytes) :
    unPad b = if 0 ∈ b then .ok (afterZero b) else .error .noZeroInMessage := by
  induction b with
  | nil => rfl
  | cons x b ih =>
    rw [unPad]
    by_cases hx : x = 0
    · simp [hx, afterZero]
    · rw [if_neg hx, ih]
      simp [afterZero, hx, Ne.symm hx]

namespace Msg

/-- There is a zero byte after which the text of a decrypted value begins. -/
def Readable (m : Msg) : Prop := 0 ∈ bytes m.getM

/-- The text of a decrypted value. -/
def text (m : Msg) : Bytes := MasseyOmura.afterZero (bytes m.getM)

instance (m : Msg) : Decidable m.Readable := inferInstanceAs (Decidable (_ ∈ _))

theorem extractMsg_of_readable {m : Msg} (h : m.Readable) (mo : Crypto) :
    mo.extractMsg m = .ok m.text := by
  rw [Crypto.extractMsg, MasseyOmura.extractMsg, MasseyOmura.unPad_eq]
  exact if_pos h

theorem extractMsg_of_not_readable {m : Msg} (h : ¬ m.Readable) (mo : Crypto) :
    mo.extractMsg m = .error .noZeroInMessage := by
  rw [Crypto.extractMsg, MasseyOmura.extractMsg, MasseyOmura.unPad_eq]
  exact if_neg h

end Msg

/-- The text of a message is long enough and begins with eight bytes 13. -/
def Marked (b : Bytes) : Prop := 16 ≤ b.length ∧ ∀ i < 8, b[i]? = some 13

instance (b : Bytes) : Decidable (Marked b) := inferInstanceAs (Decidable (_ ∧ _))

/-- Headers and messages, of those texts that have more than a header. -/
def entries (texts : List Bytes) : List (Bytes × Bytes) :=
  (texts.filter fun b => 16 < b.length).map fun b => (b.take 16, b.drop 16)

/-! ## One lemma for each loop -/

namespace Client

variable {env : Env} {mo : Crypto}

theorem checkUnchanged_self (ms : List Msg) : checkUnchanged ms ms = .ok (.ok ()) := by
  induction ms with
  | nil => rfl
  | cons m ms ih => rw [checkUnchanged, if_pos ((Msg.equal_iff m m).2 rfl), ih]

theorem revealMessage_of_eq {keys : List PrivateKey} {hashes : List Bytes}
    (h : keys.map (·.hash env) = hashes) (m : Msg) :
    revealMessage env (some mo) keys hashes m =
      .ok (.ok (keys.foldl (fun m key => mo.decrypt key m) m)) := by
  subst h
  induction keys generalizing m with
  | nil => rfl
  | cons key keys ih =>
    rw [List.map_cons, revealMessage, if_pos ((key.hashEquals_iff env _).2 rfl), List.foldl_cons]
    exact ih _

theorem revealMessage_of_ne {keys : List PrivateKey} {hashes : List Bytes}
    (hlen : keys.length = hashes.length) (h : keys.map (·.hash env) ≠ hashes) (m : Msg) :
    ∃ e, revealMessage env (some mo) keys hashes m = .ok (.error e) := by
  induction keys generalizing hashes m with
  | nil => exact absurd (List.length_eq_zero_iff.1 hlen.symm).symm h
  | cons key keys ih =>
    cases hashes with
    | nil => cases hlen
    | cons hash hashes =>
      rw [revealMessage]
      by_cases hk : key.hash env = hash
      · rw [if_pos ((key.hashEquals_iff env _).2 hk)]
        refine ih (by simpa using hlen) (fun hks => h ?_) _
        rw [List.map_cons, hk, hks]
      · rw [if_neg fun he => hk ((key.hashEquals_iff env _).1 he)]
        exact ⟨_, rfl⟩

section Reveal

variable {keys : List PrivateKey} {hashes : List Bytes}

theorem revealMessages_of_readable (h : keys.map (·.hash env) = hashes) {ms : List Msg}
    (hms : ∀ m ∈ ms, (keys.foldl (fun m key => mo.decrypt key m) m).Readable) :
    revealMessages env (some mo) keys hashes ms =
      .ok (.ok (ms.map fun m => (keys.foldl (fun m key => mo.decrypt key m) m).text)) := by
  induction ms with
  | nil => rfl
  | cons m ms ih =>
    rw [revealMessages, revealMessage_of_eq h, ih fun m hm => hms m (List.mem_cons_of_mem _ hm)]
    simp only [deref, bind, Except.bind,
      Msg.extractMsg_of_readable (hms m List.mem_cons_self)]
    rfl

theorem revealMessages_of_not_readable (h : keys.map (·.hash env) = hashes) {ms : List Msg}
    (hms : ∃ m ∈ ms, ¬ (keys.foldl (fun m key => mo.decrypt key m) m).Readable) :
    revealMessages env (some mo) keys hashes ms = .error .noZeroInMessage := by
  induction ms with
  | nil => simp at hms
  | cons m ms ih =>
    rw [revealMessages, revealMessage_of_eq h]
    by_cases hm : (keys.foldl (fun m key => mo.decrypt key m) m).Readable
    · have hms' : ∃ m ∈ ms, ¬ (keys.foldl (fun m key => mo.decrypt key m) m).Readable := by
        obtain ⟨m', hm', hr⟩ := hms
        rcases List.mem_cons.1 hm' with rfl | hm'
        · exact absurd hm hr
        · exact ⟨m', hm', hr⟩
      simp only [deref, bind, Except.bind, Msg.extractMsg_of_readable hm, ih hms']
    · simp only [deref, bind, Except.bind, Msg.extractMsg_of_not_readable hm]

/-- A wrong key is found with the first message. -/
theorem revealMessages_of_ne (hlen : keys.length = hashes.length)
    (h : keys.map (·.hash env) ≠ hashes) {ms : List Msg} (hms : ms ≠ []) :
    ∃ e, revealMessages env (some mo) keys hashes ms = .ok (.error e) := by
  obtain ⟨m, ms, rfl⟩ := List.exists_cons_of_ne_nil hms
  obtain ⟨e, he⟩ : ∃ e, revealMessage env (some mo) keys hashes m = .ok (.error e) :=
    revealMessage_of_ne hlen h m
  exact ⟨e, by simp only [revealMessages, he, bind, Except.bind]; rfl⟩

end Reveal

theorem verifyBytes_cases (h : Bytes) {is : List ℕ} (his : ∀ i ∈ is, i < h.length) :
    (∀ i ∈ is, h[i]? = some 13) ∧ verifyBytes h is = .ok (.ok ()) ∨
      ¬ (∀ i ∈ is, h[i]? = some 13) ∧ ∃ e, verifyBytes h is = .ok (.error e) := by
  induction is with
  | nil => exact Or.inl ⟨by simp, rfl⟩
  | cons i is ih =>
    obtain ⟨b, hb⟩ : ∃ b, h[i]? = some b :=
      ⟨_, List.getElem?_eq_getElem (his i List.mem_cons_self)⟩
    rw [verifyBytes, getAt_of_some hb]
    by_cases h13 : b = 13
    · have hstep : (do
          let b ← (.ok b : Go UInt8)
          if b ≠ 13 then return .error ⟨i, b⟩ else verifyBytes h is) = verifyBytes h is := by
        simp [bind, Except.bind, h13]
      rw [hstep, List.forall_mem_cons, hb, h13]
      simpa using ih fun i hi => his i (List.mem_cons_of_mem _ hi)
    · right
      refine ⟨fun hall => h13 ?_, ⟨i, b⟩, by simp [bind, Except.bind, h13, pure, Except.pure]⟩
      rw [hall i List.mem_cons_self] at hb
      exact (Option.some.inj hb).symm

/-- The header of a text that is long enough. -/
theorem verifyHeader_cases (env : Env) {b : Bytes} (hb : 16 ≤ b.length) :
    Marked b ∧ verifyHeader env (b.take 16) = .ok (.ok ()) ∨
      ¬ Marked b ∧ ∃ e, verifyHeader env (b.take 16) = .ok (.error e) := by
  have hlen : (b.take 16).length = 16 := by simp [hb]
  have hiff : Marked b ↔ ∀ i ∈ List.range 8, (b.take 16)[i]? = some 13 := by
    simp only [Marked, hb, true_and, List.mem_range]
    refine forall₂_congr fun i hi => ?_
    rw [List.getElem?_take_of_lt (by omega)]
  have hv : verifyHeader env (b.take 16) = verifyBytes (b.take 16) (List.range 8) := by
    rw [verifyHeader, assertf_of hlen]
    rfl
  rw [hiff, hv]
  exact verifyBytes_cases _ fun i hi => by
    rw [List.mem_range] at hi
    omega

/-- Marked texts pass. -/
theorem verifyMessages_append {pre : List Bytes} (h : ∀ b ∈ pre, Marked b) (bs : List Bytes) :
    verifyMessages env (pre ++ bs) =
      (verifyMessages env bs).map fun v => v.map fun verified => entries pre ++ verified := by
  induction pre with
  | nil => rcases hv : verifyMessages env bs with e | (e | verified) <;> simp [hv, entries] <;> rfl
  | cons b pre ih =>
    have hb := h b List.mem_cons_self
    have hv : verifyHeader env (b.take 16) = .ok (.ok ()) :=
      ((verifyHeader_cases env hb.1).resolve_right fun hne => hne.1 hb).2
    rw [List.cons_append, verifyMessages, sliceTo, messageHeaderLength, if_pos hb.1,
      ih fun b hb => h b (List.mem_cons_of_mem _ hb)]
    simp only [bind, Except.bind, hv]
    rcases verifyMessages env bs with e | (e | verified)
    · rfl
    · rfl
    · by_cases hlong : 16 < b.length
      · simp [Except.map, entries, hlong, pure, Except.pure]
      · simp [Except.map, entries, hlong, pure, Except.pure]

theorem verifyMessages_of_marked {bs : List Bytes} (h : ∀ b ∈ bs, Marked b) :
    verifyMessages env bs = .ok (.ok (entries bs)) := by
  rw [← List.append_nil bs, verifyMessages_append h]
  simp [verifyMessages, Except.map]

/-- A short text before any wrong header. -/
theorem verifyMessages_of_short {pre post : List Bytes} {b : Bytes} (h : ∀ a ∈ pre, Marked a)
    (hb : b.length < 16) :
    verifyMessages env (pre ++ b :: post) = .error .sliceOutOfRange := by
  rw [verifyMessages_append h, verifyMessages, sliceTo, messageHeaderLength, if_neg (not_le.2 hb)]
  rfl

/-- A wrong header before any short text. -/
theorem verifyMessages_of_wrong {pre post : List Bytes} {b : Bytes} (h : ∀ a ∈ pre, Marked a)
    (hb : 16 ≤ b.length) (hm : ¬ Marked b) :
    ∃ e, verifyMessages env (pre ++ b :: post) = .ok (.error e) := by
  obtain ⟨e, he⟩ := ((verifyHeader_cases env hb).resolve_left fun hne => hm hne.1).2
  refine ⟨.invalidHeader e, ?_⟩
  rw [verifyMessages_append h, verifyMessages, sliceTo, messageHeaderLength, if_pos hb]
  simp only [bind, Except.bind, he]
  rfl

theorem equalHeader_eq {h1 h2 : Bytes} (hlen : h1.length = h2.length) :
    equalHeader h1 h2 = .ok (decide (h1 = h2)) := by
  induction h1 generalizing h2 with
  | nil =>
    cases h2 with
    | nil => rfl
    | cons b2 h2 => cases hlen
  | cons b h1 ih =>
    cases h2 with
    | nil => cases hlen
    | cons b2 h2 =>
      rw [equalHeader, ih (by simpa using hlen)]
      simp [bind, Except.bind, pure, Except.pure]

theorem checkDuplicate_cases (env : Env) (h1 : Bytes) {headers : List Bytes}
    (hlen : ∀ h2 ∈ headers, h1.length = h2.length) :
    h1 ∉ headers ∧ checkDuplicate env h1 headers = .ok (.ok ()) ∨
      h1 ∈ headers ∧ ∃ e, checkDuplicate env h1 headers = .ok (.error e) := by
  induction headers with
  | nil => exact Or.inl ⟨by simp, rfl⟩
  | cons h2 headers ih =>
    have h12 := hlen h2 List.mem_cons_self
    simp only [checkDuplicate, assertf_of h12, equalHeader_eq h12, bind, Except.bind]
    by_cases heq : h1 = h2
    · exact Or.inr ⟨by simp [heq], .duplicateHeader h1 h2, by simp [heq, pure, Except.pure]⟩
    · simpa [heq] using ih fun h hh => hlen h (List.mem_cons_of_mem _ hh)

theorem checkDuplicates_cases (env : Env) {n : ℕ} {headers : List Bytes}
    (hlen : ∀ h ∈ headers, h.length = n) :
    headers.Nodup ∧ checkDuplicates env headers = .ok (.ok ()) ∨
      ¬ headers.Nodup ∧ ∃ e, checkDuplicates env headers = .ok (.error e) := by
  induction headers with
  | nil => exact Or.inl ⟨List.nodup_nil, rfl⟩
  | cons h1 headers ih =>
    have hrest := ih fun h hh => hlen h (List.mem_cons_of_mem _ hh)
    rw [checkDuplicates, List.nodup_cons]
    have hsame : ∀ h2 ∈ headers, h1.length = h2.length := fun h2 hh => by
      rw [hlen h1 List.mem_cons_self, hlen h2 (List.mem_cons_of_mem _ hh)]
    rcases checkDuplicate_cases env h1 hsame with ⟨hmem, hd⟩ | ⟨hmem, e, hd⟩
    · simpa only [hd, hmem, not_false_eq_true, true_and, bind, Except.bind] using hrest
    · exact Or.inr ⟨fun hn => hn.1 hmem, e, by simp only [hd, bind, Except.bind]; rfl⟩

theorem length_of_mem_entries {texts : List Bytes} {h : Bytes}
    (hh : h ∈ (entries texts).map Prod.fst) : h.length = 16 := by
  simp only [entries, List.map_map, List.mem_map, List.mem_filter, decide_eq_true_eq,
    Function.comp] at hh
  obtain ⟨b, ⟨-, hb⟩, rfl⟩ := hh
  simp only [List.length_take]
  omega

/-- When all texts are marked, only a duplicate header is wrong. -/
theorem verifyTexts_of_marked (env : Env) {texts : List Bytes} (h : ∀ b ∈ texts, Marked b) :
    ((entries texts).map Prod.fst).Nodup ∧
        verifyTexts env texts = .ok (.ok ((entries texts).map Prod.snd)) ∨
      ¬ ((entries texts).map Prod.fst).Nodup ∧ ∃ e, verifyTexts env texts = .ok (.error e) := by
  rw [verifyTexts, verifyMessages_of_marked h]
  rcases checkDuplicates_cases env fun _ => length_of_mem_entries with ⟨hn, hd⟩ | ⟨hn, e, hd⟩
  · exact Or.inl ⟨hn, by simp only [bind, Except.bind, hd]; rfl⟩
  · exact Or.inr ⟨hn, e, by simp only [bind, Except.bind, hd]; rfl⟩

/-- The first text without the mark decides whether its header is found wrong or cannot be read. -/
theorem verifyTexts_of_unmarked (env : Env) {texts : List Bytes} {b : Bytes}
    (h : texts.find? (fun b => ¬ Marked b) = some b) :
    b.length < 16 ∧ verifyTexts env texts = .error .sliceOutOfRange ∨
      16 ≤ b.length ∧ ∃ e, verifyTexts env texts = .ok (.error e) := by
  obtain ⟨hm, pre, post, rfl, hpre⟩ := List.find?_eq_some_iff_append.1 h
  simp only [decide_not, Bool.not_eq_true', decide_eq_false_iff_not] at hm
  simp only [decide_not, Bool.not_not, decide_eq_true_eq] at hpre
  rw [verifyTexts]
  rcases lt_or_ge b.length 16 with hb | hb
  · exact Or.inl ⟨hb, by rw [verifyMessages_of_short hpre hb]; rfl⟩
  · obtain ⟨e, he⟩ : ∃ e, verifyMessages env (pre ++ b :: post) = .ok (.error e) :=
      verifyMessages_of_wrong hpre hb hm
    exact Or.inr ⟨hb, e, by rw [he]; rfl⟩

end Client

/-! ## The verdict -/

/-- What the client remembers agrees with round `r`. -/
structure Snapshot.Agrees (snap : Snapshot) (r : ℤ) (ri : RoundInfo) : Prop where
  round : snap.revealKeyHashesRound = r
  hashes : snap.revealKeyHashes = ri.revealKeyHashes
  messages : snap.messagesBeforeReveal = ri.messages
  number : snap.numberOfMessagesWhenScrambled = ri.messages.length

/-- The result for a round that is done. -/
def RoundResult.ofVerdict (r : ℤ) : Except MaliciousError (List Bytes) → Option RoundResult
  | .error e => some { round := r, succeeded := false, maliciousError := some e }
  | .ok messages => some { round := r, succeeded := true, messages }

/-- The fully decrypted values of a round. -/
def RoundInfo.values (ri : RoundInfo) (mo : Crypto) : List Msg := ri.messages.map (ri.decryptAll mo)

namespace Client

variable {env : Env} {c : Client} {mo : Crypto} {r : ℤ} {ri : RoundInfo} {snap : Snapshot}

theorem verifyRound_of_hash_ne (h : snap.Agrees r ri) (hmo : ri.crypto = some mo)
    (hI : RoundInv ri) (hms : ri.messages ≠ [])
    (hne : ri.revealedKeys.map (·.hash env) ≠ ri.revealKeyHashes) :
    ∃ e, verifyRound env ri snap = .ok (.error e) := by
  obtain ⟨e, he⟩ : ∃ e, revealMessages env (some mo) ri.revealedKeys ri.revealKeyHashes
      ri.messages = .ok (.error e) :=
    revealMessages_of_ne (by rw [hI.keys_length, hI.hashes_length]) hne hms
  refine ⟨e, ?_⟩
  rw [verifyRound, h.number, h.messages, h.hashes, checkUnchanged_self, hmo, he]
  simp [bind, Except.bind, pure, Except.pure]

theorem verifyRound_of_not_readable (h : snap.Agrees r ri) (hmo : ri.crypto = some mo)
    (heq : ri.revealedKeys.map (·.hash env) = ri.revealKeyHashes)
    (hv : ∃ v ∈ ri.values mo, ¬ v.Readable) :
    verifyRound env ri snap = .error .noZeroInMessage := by
  obtain ⟨v, hv, hr⟩ := hv
  obtain ⟨m, hm, rfl⟩ := List.mem_map.1 hv
  rw [verifyRound, h.number, h.messages, h.hashes, checkUnchanged_self, hmo,
    revealMessages_of_not_readable heq ⟨m, hm, hr⟩]
  simp [bind, Except.bind]

theorem verifyRound_of_readable (h : snap.Agrees r ri) (hmo : ri.crypto = some mo)
    (heq : ri.revealedKeys.map (·.hash env) = ri.revealKeyHashes)
    (hv : ∀ v ∈ ri.values mo, v.Readable) :
    verifyRound env ri snap = verifyTexts env ((ri.values mo).map Msg.text) := by
  have hms : ∀ m ∈ ri.messages, (ri.decryptAll mo m).Readable := fun m hm =>
    hv _ (List.mem_map_of_mem hm)
  rw [verifyRound, h.number, h.messages, h.hashes, checkUnchanged_self, hmo,
    revealMessages_of_readable heq hms, RoundInfo.values, List.map_map]
  simp only [ne_eq, not_true_eq_false, if_false, bind, Except.bind]
  rfl

/-- For a round that is done and in which it participated, the client sends the verdict, unless an
assertion fails. -/
theorem sendRoundResult_of_done {sm : StateMachine} {round : ℤ} (snap : Snapshot)
    (hri : sm.getRoundInfo (round - 1) = .ok ri) (hph : ri.phase = .done)
    (hme : c.id ∈ ri.participants) :
    c.sendRoundResult env sm round snap =
      (do
        assertf env (snap.revealKeyHashesRound = round - 1)
        (verifyRound env ri snap).map (RoundResult.ofVerdict (round - 1))) := by
  rw [sendRoundResult, hri]
  simp only [bind, Except.bind, pure, Except.pure, hph, assertf_of, true_or, hme,
    not_true_eq_false, if_false, reduceCtorEq, decide_true]
  rcases assertf env (snap.revealKeyHashesRound = round - 1) with e | -
  · rfl
  · rcases verifyRound env ri snap with e | (e | messages) <;> rfl

/-- If the snapshot agrees with the round, no assertion fails. -/
theorem sendRoundResult_of_agrees {sm : StateMachine} (h : snap.Agrees r ri)
    (hri : sm.getRoundInfo r = .ok ri) (hph : ri.phase = .done) (hme : c.id ∈ ri.participants) :
    c.sendRoundResult env sm (r + 1) snap =
      (verifyRound env ri snap).map (RoundResult.ofVerdict r) := by
  have hr : r + 1 - 1 = r := by omega
  rw [sendRoundResult_of_done snap (by rw [hr, hri]) hph hme, hr, h.round, assertf_of]
  · rfl
  · rfl

end Client

end EggScrambler
