import Mathlib
import EggScrambler.Codec
import EggScrambler.Layers

/-!
# Generated keys and prepared messages

`Plan` fixes what chance and the users contribute to an honest run: for each participant and round
the random streams that its keys are drawn from, the user's message and the random bytes of its
headers.  The conduct of such clients uses `Verify`, `GenKey` and `submit` as they are, and it is
that of a `Setup` (`Plan.honestRun_setup`), so that everything about layers applies to it.
-/

namespace EggScrambler

open StateMachine Transition BigEndian

/-! ## Key generation -/

namespace MasseyOmura

/-- Every generated key is an inverse pair. -/
theorem genUserKey_spec {P : ℕ} {draws : List ℕ} {key : PrivateKey}
    (h : genUserKey P draws = some key) :
    key.P = P ∧ 1 ≤ key.E ∧ key.E < P - 1 ∧ key.E * key.D ≡ 1 [MOD P - 1] := by
  induction draws with
  | nil => cases h
  | cons r draws ih =>
    rw [genUserKey] at h
    simp only at h
    split_ifs at h with hr hgcd
    · exact ih h
    · obtain ⟨d, hd, rfl⟩ := Option.map_eq_some_iff.1 h
      exact ⟨rfl, by simp, by simp only; omega, modInverse_spec (by omega) hd⟩
    · exact ih h

end MasseyOmura

namespace Crypto

variable {mo : Crypto}

theorem genKey_spec {draws : List ℕ} {key : PrivateKey} (h : mo.genKey draws = some key) :
    1 ≤ key.getE ∧ key.Inverts mo.getP := by
  obtain ⟨k, hk, rfl⟩ := Option.map_eq_some_iff.1 h
  obtain ⟨-, hpos, -, hinv⟩ := MasseyOmura.genUserKey_spec hk
  simp only [PrivateKey.Inverts, PrivateKey.getE, PrivateKey.getD, setBytes_bytes]
  exact ⟨hpos, hinv⟩

theorem genKeys_spec {draws : Draws} {keys : Keys} (h : mo.genKeys draws = some keys) :
    mo.genKey draws.encrypt = some keys.encryptKey ∧
      mo.genKey draws.scramble = some keys.scrambleKey ∧
      mo.genKey draws.reveal = some keys.revealKey := by
  simp only [genKeys, Option.bind_eq_bind, Option.bind_eq_some_iff, Option.pure_def,
    Option.some.injEq] at h
  obtain ⟨e, he, s, hs, r, hr, rfl⟩ := h
  exact ⟨he, hs, hr⟩

theorem verify_eq_ok_iff {env : Env} {messageSize : ℤ} :
    mo.verify env messageSize = .ok () ↔
      (Nat.size mo.getP : ℤ) = MasseyOmura.bitsMaxSize messageSize ∧
        env.probablyPrime mo.getP = true := by
  unfold verify MasseyOmura.verifySysKey
  split_ifs with h₁ h₂
  · simp [h₁]
  · simp only [Bool.not_eq_true'] at h₂
    simp [h₂]
  · simp only [Bool.not_eq_true', Bool.not_eq_false] at h₂
    simp [not_not.1 h₁, h₂]

end Crypto

/-! ## What is submitted -/

namespace Client

/-- Header and message as a client submits them; a message that is too long is replaced by the empty
one, under a new header. -/
def sent (messageSize : ℕ) (msg : Bytes) (r₁ r₂ : Nonce) : Bytes :=
  if msg.length ≤ messageSize then messageWithHeader r₁ msg else messageWithHeader r₂ []

@[simp] theorem length_messageWithHeader (r : Nonce) (m : Bytes) :
    (messageWithHeader r m).length = 16 + m.length := by
  simp only [messageWithHeader, messageHeader, List.length_append, List.length_replicate,
    Vector.length_toList]

/-- The integer of a message with a header is not zero. -/
theorem setBytes_padding_pos (r : Nonce) (m : Bytes) (plen : ℤ) :
    0 < setBytes (MasseyOmura.padding (messageWithHeader r m) plen) := by
  have hmem : (13 : UInt8) ∈ messageWithHeader r m := by simp [messageWithHeader, messageHeader]
  exact setBytes_pos_of_mem (List.mem_append_right _ (List.mem_cons_of_mem _ hmem)) (by decide)

theorem length_sent_le (messageSize : ℕ) (msg : Bytes) (r₁ r₂ : Nonce) :
    (sent messageSize msg r₁ r₂).length ≤ messageSize + 16 := by
  unfold sent
  split_ifs with h <;> simp
  omega

section Submit

variable {env : Env} {c : Client} {mo : Crypto}
  (hmax : MasseyOmura.bytesMaxSize (Nat.size mo.getP) = c.messageSize + 16)
include hmax

theorem prepareMsg_eq {b : Bytes} (hb : b.length ≤ c.messageSize + 16) : mo.prepareMsg b =
    .ok (.ok (newMsg (setBytes (MasseyOmura.padding b (Nat.size mo.getP))))) := by
  rw [Crypto.prepareMsg, MasseyOmura.prepareMsg_of_le (by omega)]
  rfl

/-- `PrepareMsg` accepts exactly the messages up to `MessageSize`, so no assertion fails. -/
theorem prepareMessage_eq (msg : Bytes) (r₁ r₂ : Nonce) :
    c.prepareMessage env mo msg r₁ r₂ = .ok (newMsg (setBytes (MasseyOmura.padding
      (sent c.messageSize msg r₁ r₂) (Nat.size mo.getP)))) := by
  unfold prepareMessage sent
  by_cases hle : msg.length ≤ c.messageSize
  · rw [prepareMsg_eq hmax (by simpa [add_comm] using hle), if_pos hle]
    simp only [bind, Except.bind, assertf_of hle]
    rfl
  · have herr : mo.prepareMsg (messageWithHeader r₁ msg) =
        .ok (.error ⟨(messageWithHeader r₁ msg).length, Nat.size mo.getP⟩) := by
      rw [Crypto.prepareMsg, MasseyOmura.prepareMsg_of_lt]
      · rfl
      · rw [hmax, length_messageWithHeader]
        push_cast
        omega
    rw [herr, prepareMsg_eq hmax (by simp), if_neg hle]
    simp [bind, Except.bind, assertf, not_le.1 hle, Except.toBool, Except.toOption, pure,
      Except.pure]

/-- What `submit` sends under a modulus of the right size. -/
theorem submit_eq_some_iff {round : ℤ} {ri : RoundInfo} {me : ℕ}
    {encryptKey revealKey : PrivateKey} {msg : Bytes} {r₁ r₂ : Nonce} {op : Op}
    (hmo : ri.crypto = some mo) :
    c.submit env round ri me encryptKey revealKey msg r₁ r₂ = .ok (some op) ↔
      (∃ m, ri.messages[me]? = some m ∧ m.isNil = true) ∧
      op = .message c.id round (mo.encrypt encryptKey (newMsg (setBytes (MasseyOmura.padding
        (sent c.messageSize msg r₁ r₂) (Nat.size mo.getP))))) (revealKey.hash env) := by
  unfold submit
  simp only [bind_eq_ok_iff, hmo, deref]
  constructor
  · rintro ⟨m, hm, h⟩
    split_ifs at h with hnil
    · rw [bind_eq_ok_iff] at h
      obtain ⟨crypto, hcrypto, h⟩ := h
      cases hcrypto
      rw [prepareMessage_eq hmax] at h
      cases h
      exact ⟨⟨m, getAt_eq_ok_iff.1 hm, hnil⟩, rfl⟩
    · simp [pure, Except.pure] at h
  · rintro ⟨⟨m, hm, hnil⟩, rfl⟩
    refine ⟨m, getAt_eq_ok_iff.2 hm, ?_⟩
    rw [if_pos hnil]
    simp only [bind, Except.bind, prepareMessage_eq hmax]
    rfl

end Submit

end Client

/-! ## Plans -/

/-- The `MessageSize` under which a crypto passes `Verify`, if there is one. -/
def Crypto.messageSize (mo : Crypto) : ℕ :=
  (MasseyOmura.bytesMaxSize (Nat.size mo.getP) - 16).toNat

theorem Crypto.bytesMaxSize_of_verify {env : Env} {mo : Crypto} {size : ℕ}
    (h : mo.verify env (size + 16) = .ok ()) :
    MasseyOmura.bytesMaxSize (Nat.size mo.getP) = size + 16 := by
  rw [(verify_eq_ok_iff.1 h).1]
  exact MasseyOmura.bytesMaxSize_bitsMaxSize (by omega)

theorem Crypto.messageSize_of_verify {env : Env} {mo : Crypto} {size : ℕ}
    (h : mo.verify env (size + 16) = .ok ()) : mo.messageSize = size := by
  rw [messageSize, bytesMaxSize_of_verify h]
  omega

/-- What chance and the users contribute, for each participant and round. -/
structure Plan where
  draws : UUID → ℤ → Draws
  /-- The message of the user; empty if it does not come in time. -/
  message : UUID → ℤ → Bytes
  nonce : UUID → ℤ → Nonce
  /-- The random bytes of the second header, if one is needed. -/
  nonce₂ : UUID → ℤ → Nonce

namespace Plan

/-- Clients that verify the crypto of a round, then generate keys and submit their message. -/
def conduct (plan : Plan) (env : Env) : Conduct where
  keys mo id r := mo.genKeys (plan.draws id r)
  starts mo := ∃ size : ℕ, mo.verify env (size + 16) = .ok ()
  submits c r ri me op := ∃ mo keys, ri.crypto = some mo ∧
    mo.verify env (c.messageSize + 16) = .ok () ∧ mo.genKeys (plan.draws c.id r) = some keys ∧
    c.submit env r ri me keys.encryptKey keys.revealKey (plan.message c.id r) (plan.nonce c.id r)
      (plan.nonce₂ c.id r) = .ok (some op)

/-- Header and message of a participant. -/
def sent (plan : Plan) (mo : Crypto) (id : UUID) (r : ℤ) : Bytes :=
  Client.sent mo.messageSize (plan.message id r) (plan.nonce id r) (plan.nonce₂ id r)

/-- The prepared integer of a participant. -/
def prepared (plan : Plan) (mo : Crypto) (id : UUID) (r : ℤ) : ℕ :=
  setBytes (MasseyOmura.padding (plan.sent mo id r) (Nat.size mo.getP))

/-- It is a nonzero residue. -/
theorem prepared_mem {plan : Plan} {env : Env} {mo : Crypto} {size : ℕ}
    (h : mo.verify env (size + 16) = .ok ()) (id : UUID) (r : ℤ) :
    1 ≤ plan.prepared mo id r ∧ plan.prepared mo id r < mo.getP := by
  constructor
  · unfold prepared sent Client.sent
    split_ifs <;> exact Client.setBytes_padding_pos _ _ _
  · apply MasseyOmura.setBytes_padding_lt
    have := Client.length_sent_le mo.messageSize (plan.message id r) (plan.nonce id r)
      (plan.nonce₂ id r)
    rw [Crypto.bytesMaxSize_of_verify h, ← Crypto.messageSize_of_verify h]
    exact_mod_cast this

theorem residue_mem {P : ℕ} (hP : P.Prime) (n : ℕ) :
    1 ≤ (if 1 ≤ n ∧ n < P then n else 1) ∧ (if 1 ≤ n ∧ n < P then n else 1) ≤ P - 1 := by
  have := hP.two_le
  split_ifs <;> omega

/-- The setup of a plan.  Where no key is generated or no message prepared, one that is never used
takes its place. -/
def setup (plan : Plan) : Setup where
  keys mo id r :=
    (mo.genKeys (plan.draws id r)).getD ⟨⟨[1], [1]⟩, ⟨[1], [1]⟩, ⟨[1], [1]⟩⟩
  plain mo id r :=
    if 1 ≤ plan.prepared mo id r ∧ plan.prepared mo id r < mo.getP then plan.prepared mo id r else 1
  inverts mo id r _ := by
    rcases h : mo.genKeys (plan.draws id r) with _ | keys
    · exact ⟨rfl, rfl, rfl⟩
    · obtain ⟨he, hs, hr⟩ := Crypto.genKeys_spec h
      exact ⟨(Crypto.genKey_spec he).2, (Crypto.genKey_spec hs).2, (Crypto.genKey_spec hr).2⟩
  plain_mem mo id r hP := residue_mem hP _

/-- What a plan submits, its setup submits. -/
theorem submits_setup {plan : Plan} {env : Env} {c : Client} {r : ℤ} {ri : RoundInfo} {me : ℕ}
    {op : Op} (h : (plan.conduct env).submits c r ri me op) :
    (plan.setup.conduct env).submits c r ri me op := by
  obtain ⟨mo, keys, hmo, hv, hkeys, hop⟩ := h
  obtain ⟨hnil, rfl⟩ := (Client.submit_eq_some_iff (Crypto.bytesMaxSize_of_verify hv) hmo).1 hop
  refine ⟨hnil, mo, hmo, ?_⟩
  have hplain : plan.setup.plain mo c.id r = plan.prepared mo c.id r :=
    if_pos (prepared_mem hv c.id r)
  have hk : plan.setup.keys mo c.id r = keys := by
    change (mo.genKeys (plan.draws c.id r)).getD _ = keys
    rw [hkeys]
    rfl
  rw [Setup.messageOp, hplain, hk, prepared, sent, Crypto.messageSize_of_verify hv]

/-- **Refinement.** The honest runs of a plan are honest runs of its setup. -/
theorem honestRun_setup {plan : Plan} {env : Env} (hexact : env.Exact) {hist : List StateMachine}
    (h : HonestRun (plan.conduct env) hist) : HonestRun (plan.setup.conduct env) hist := by
  refine History.mono h fun hist op hop =>
    hop.mono ?_ ?_ fun _ _ _ _ _ hsubmits => submits_setup hsubmits
  · intro mo id r keys hkeys
    change mo.genKeys (plan.draws id r) = some keys at hkeys
    change some ((mo.genKeys (plan.draws id r)).getD _) = some keys
    rw [hkeys]
    rfl
  · rintro mo ⟨size, hv⟩
    exact (hexact _).1 (Crypto.verify_eq_ok_iff.1 hv).2

/-- What a client submits. -/
def submit (plan : Plan) (env : Env) (c : Client) (r : ℤ) (ri : RoundInfo) (me : ℕ) :
    Option Op := do
  let mo ← ri.crypto
  let keys ← mo.genKeys (plan.draws c.id r)
  if mo.verify env (c.messageSize + 16) = .ok () then
    (c.submit env r ri me keys.encryptKey keys.revealKey (plan.message c.id r) (plan.nonce c.id r)
      (plan.nonce₂ c.id r)).toOption.join
  else none

theorem submits_submit (plan : Plan) (env : Env) :
    (plan.conduct env).Submits (plan.submit env) := by
  intro c r ri me op h
  unfold submit at h
  simp only [Option.bind_eq_bind, Option.bind_eq_some_iff] at h
  obtain ⟨mo, hmo, keys, hkeys, h⟩ := h
  split_ifs at h with hv
  exact ⟨mo, keys, hmo, hv, hkeys, Conduct.toOption_join_eq_some h⟩

end Plan

/-! ## Two moduli -/

/-- Lucas' criterion, for a number of this form. -/
theorem prime_of_lucas {a b k n : ℕ} (hn : n = a * b * 2 ^ k + 1) (ha : a.Prime) (hb : b.Prime)
    (x : ZMod n) (hx : x ^ (n - 1) = 1)
    (hne : ∀ q, q = a ∨ q = b ∨ q = 2 → x ^ ((n - 1) / q) ≠ 1) : n.Prime := by
  refine lucas_primality n x hx fun q hq hdvd => hne q ?_
  rw [hn, Nat.add_sub_cancel] at hdvd
  rcases hq.dvd_mul.1 hdvd with hab | h2
  · rcases hq.dvd_mul.1 hab with h | h
    · exact Or.inl ((Nat.prime_dvd_prime_iff_eq hq ha).1 h)
    · exact Or.inr (Or.inl ((Nat.prime_dvd_prime_iff_eq hq hb).1 h))
  · exact Or.inr (Or.inr ((Nat.prime_dvd_prime_iff_eq hq Nat.prime_two).1 (hq.dvd_of_dvd_pow h2)))

/-- A prime of 137 bits, which is what headers alone need. -/
def headerModulus : ℕ := 5 * 59 * 2 ^ 128 + 1

theorem prime_headerModulus : headerModulus.Prime := by
  have hval : headerModulus = 100383298241676846721695509192371622379521 := by decide +kernel
  rw [hval]
  refine prime_of_lucas (a := 5) (b := 59) (k := 128) (by norm_num) (by norm_num) (by norm_num)
    3 ?_ ?_
  · norm_num
    reduce_mod_char
  · rintro q (rfl | rfl | rfl) <;> norm_num <;> reduce_mod_char <;> decide

/-- A prime of 153 bits, for messages of up to two bytes. -/
def pairModulus : ℕ := 5 * 7 * 2 ^ 147 + 1

theorem prime_pairModulus : pairModulus.Prime := by
  have hval : pairModulus = 6244208655588574479630001116341541221674516481 := by decide +kernel
  rw [hval]
  refine prime_of_lucas (a := 5) (b := 7) (k := 147) (by norm_num) (by norm_num) (by norm_num)
    3 ?_ ?_
  · norm_num
    reduce_mod_char
  · rintro q (rfl | rfl | rfl) <;> norm_num <;> reduce_mod_char <;> decide

def headerCrypto : Crypto := ⟨bytes headerModulus⟩

def pairCrypto : Crypto := ⟨bytes pairModulus⟩

/-- `ProbablyPrime` is exact here, and known for the two moduli. -/
def exactEnv : Env where
  sha256 := firstBytes
  probablyPrime n := n == headerModulus || n == pairModulus || decide n.Prime
  debug := true

theorem exactEnv_exact : exactEnv.Exact := by
  intro n
  simp only [exactEnv, Bool.or_eq_true, beq_iff_eq, decide_eq_true_eq]
  constructor
  · rintro ((rfl | rfl) | h)
    · exact prime_headerModulus
    · exact prime_pairModulus
    · exact h
  · exact Or.inr

/-- Two participants, with keys 1 and messages of one byte. -/
def twoPlan : Plan where
  draws _ _ := ⟨[0], [0], [0]⟩
  message id _ := [if id = 1 then 65 else 66]
  nonce id _ := Vector.replicate 8 (if id = 1 then 7 else 9)
  nonce₂ id _ := Vector.replicate 8 (if id = 1 then 7 else 9)

/-- The key that a draw of 0 gives. -/
def keyOne : PrivateKey := ⟨[1], [1]⟩

/-- A round of two participants with keys 1, when it is done. -/
def twoRound (mo : Crypto) (messages : List Msg) : RoundInfo where
  phase := .done
  crypto := some mo
  participants := [1, 2]
  messages := messages
  encrypted := [true, true]
  scrambled := [true, true]
  decrypted := [true, true]
  revealedKeys := [keyOne, keyOne]
  revealKeyHashes := [keyOne.hash exactEnv, keyOne.hash exactEnv]

def twoDone (mo : Crypto) (messages : List Msg) : StateMachine where
  round := 1
  rounds := ![twoRound mo messages, { phase := .prepare }, {}]

/-- The turns of the two participants that lead there. -/
def twoTurns (size : ℕ) (mo : Crypto) : List (Client × Option Crypto) :=
  [(⟨1, size⟩, none), (⟨2, size⟩, none), (⟨1, size⟩, some mo), (⟨1, size⟩, none),
    (⟨2, size⟩, none), (⟨1, size⟩, none), (⟨2, size⟩, none), (⟨1, size⟩, none),
    (⟨2, size⟩, none), (⟨1, size⟩, none), (⟨2, size⟩, none), (⟨1, size⟩, none),
    (⟨2, size⟩, none)]

theorem starts_twoTurns {size : ℕ} {mo : Crypto} (h : mo.verify exactEnv (size + 16) = .ok ()) :
    ∀ t ∈ twoTurns size mo, ∀ mo', t.2 = some mo' → (twoPlan.conduct exactEnv).starts mo' := by
  intro t ht mo' hmo
  have heq : mo' = mo := by
    simp only [twoTurns, List.mem_cons, List.not_mem_nil, or_false] at ht
    rcases ht with rfl | rfl | rfl | rfl | rfl | rfl | rfl | rfl | rfl | rfl | rfl | rfl | rfl <;>
      cases hmo
    rfl
  exact ⟨size, heq ▸ h⟩

theorem verify_pairCrypto : pairCrypto.verify exactEnv (2 + 16) = .ok () := by decide +kernel

theorem verify_headerCrypto : headerCrypto.verify exactEnv (0 + 16) = .ok () := by decide +kernel

end EggScrambler
