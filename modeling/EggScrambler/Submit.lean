import Mathlib
import EggScrambler.Cipher

/-!
# What a client submits

Under a crypto that passes `Verify(MessageSize + 16)`, a header and a message of at most
`MessageSize` bytes are a nonzero residue, and so is its encryption: the message of a `MessageOp` is
never the null message.  Nothing is lost on the way, since the padded bytes all have one length and
encryption can be undone.
-/

namespace EggScrambler

open StateMachine BigEndian

namespace Crypto

variable {mo : Crypto}

theorem prepareMsg_eq_ok_iff {b : Bytes} {m : Msg} : mo.prepareMsg b = .ok (.ok m) ↔
    b.length ≤ MasseyOmura.bytesMaxSize (Nat.size mo.getP) ∧
      m = newMsg (setBytes (MasseyOmura.padding b (Nat.size mo.getP))) := by
  unfold prepareMsg
  rcases le_or_gt (b.length : ℤ) (MasseyOmura.bytesMaxSize (Nat.size mo.getP)) with hle | hlt
  · rw [MasseyOmura.prepareMsg_of_le hle]
    simp [bind, Except.bind, pure, Except.pure, Except.map, hle, eq_comm]
  · rw [MasseyOmura.prepareMsg_of_lt hlt]
    simp [bind, Except.bind, pure, Except.pure, Except.map, hlt]

/-- A modulus of that many bits is not two. -/
theorem three_le_of_verify {env : Env} {size : ℕ} (h : mo.verify env (size + 16) = .ok ()) :
    3 ≤ mo.getP := by
  have hsize := (verify_eq_ok_iff.1 h).1
  have hlt : 2 < Nat.size mo.getP := by
    unfold MasseyOmura.bitsMaxSize at hsize
    omega
  have := Nat.lt_size.1 hlt
  omega

theorem encrypt_mem (hP : mo.getP.Prime) (key : PrivateKey) {m : Msg} (h₁ : 1 ≤ m.getM)
    (hm : m.getM ≤ mo.getP - 1) :
    1 ≤ (mo.encrypt key m).getM ∧ (mo.encrypt key m).getM ≤ mo.getP - 1 := by
  have hcop := ExpCipher.coprime_of_lt hP h₁ (by omega)
  have hlt : m.getM ^ key.getE % mo.getP < mo.getP := Nat.mod_lt _ hP.pos
  rw [encrypt, getM_newMsg]
  exact ⟨ExpCipher.pow_mod_pos hP hcop _, Nat.le_sub_one_of_lt hlt⟩

/-- Decryption undoes encryption. -/
theorem decrypt_encrypt (hP : mo.getP.Prime) (h3 : 3 ≤ mo.getP) {draws : List ℕ} {key : PrivateKey}
    (hkey : mo.genKey draws = some key) {m : ℕ} (hm : m < mo.getP) :
    (mo.decrypt key (mo.encrypt key (newMsg m))).getM = m := by
  have hkeys : ∀ u ∈ [Use.encrypt key, .decrypt key], ∃ draws, mo.genKey draws = some u.key := by
    rw [List.forall_mem_cons, List.forall_mem_singleton]
    exact ⟨⟨draws, hkey⟩, ⟨draws, hkey⟩⟩
  have hle : (newMsg m).getM ≤ mo.getP - 1 := by
    rw [getM_newMsg]
    omega
  exact (getM_applyAll_of_balanced hP h3 hkeys (.refl _) hle).trans (getM_newMsg m)

/-- Different accepted strings have different encryptions. -/
theorem eq_of_encrypt (hP : mo.getP.Prime) (h3 : 3 ≤ mo.getP) {draws : List ℕ} {key : PrivateKey}
    (hkey : mo.genKey draws = some key) {b b' : Bytes} {m m' : Msg}
    (hm : mo.prepareMsg b = .ok (.ok m)) (hm' : mo.prepareMsg b' = .ok (.ok m'))
    (heq : mo.encrypt key m = mo.encrypt key m') : b = b' := by
  obtain ⟨hb, rfl⟩ := prepareMsg_eq_ok_iff.1 hm
  obtain ⟨hb', rfl⟩ := prepareMsg_eq_ok_iff.1 hm'
  refine MasseyOmura.eq_of_setBytes_padding hb hb' ?_
  rw [← decrypt_encrypt hP h3 hkey (MasseyOmura.setBytes_padding_lt hb), heq,
    decrypt_encrypt hP h3 hkey (MasseyOmura.setBytes_padding_lt hb')]

end Crypto

namespace Client

theorem exists_prepareMsg_iff {c : Client} {mo : Crypto}
    (hmax : MasseyOmura.bytesMaxSize (Nat.size mo.getP) = c.messageSize + 16) {r : Nonce}
    {msg : Bytes} : (∃ m, mo.prepareMsg (messageWithHeader r msg) = .ok (.ok m)) ↔
      msg.length ≤ c.messageSize := by
  simp only [Crypto.prepareMsg_eq_ok_iff, exists_and_left, exists_eq, and_true, hmax,
    length_messageWithHeader]
  push_cast
  omega

/-- What is sent is a header and a message that is not too long. -/
theorem exists_sent_eq (messageSize : ℕ) (msg : Bytes) (r₁ r₂ : Nonce) :
    ∃ r b, sent messageSize msg r₁ r₂ = messageWithHeader r b ∧ b.length ≤ messageSize := by
  unfold sent
  split_ifs with h
  · exact ⟨r₁, msg, rfl, h⟩
  · exact ⟨r₂, [], rfl, Nat.zero_le _⟩

/-- What is prepared is a nonzero residue. -/
theorem prepareMsg_mem {mo : Crypto} {r : Nonce} {b : Bytes} {m : Msg}
    (hm : mo.prepareMsg (messageWithHeader r b) = .ok (.ok m)) :
    1 ≤ m.getM ∧ m.getM ≤ mo.getP - 1 := by
  obtain ⟨hb, rfl⟩ := Crypto.prepareMsg_eq_ok_iff.1 hm
  rw [getM_newMsg]
  exact ⟨setBytes_padding_pos r b _, Nat.le_sub_one_of_lt (MasseyOmura.setBytes_padding_lt hb)⟩

/-- **A submission is a real message.** Under a verified crypto, `PrepareMsg` accepts a header and a
message exactly if the message has at most `MessageSize` bytes, so that no assertion of `submit`
fails, in debug mode or not; the prepared integer and its encryption are nonzero residues, and the
`MessageOp` that `submit` sends carries a message that is not the null message; and different
strings that `PrepareMsg` accepts have different encryptions. -/
theorem submit_spec (env : Env) (hexact : env.Exact) (c : Client) (mo : Crypto)
    (hverify : mo.verify env (c.messageSize + 16) = .ok ()) (draws : List ℕ) (key : PrivateKey)
    (hkey : mo.genKey draws = some key) (msg : Bytes) (r₁ r₂ : Nonce) :
    ((∃ m, mo.prepareMsg (messageWithHeader r₁ msg) = .ok (.ok m)) ↔
      msg.length ≤ c.messageSize) ∧
    (∀ r b m, mo.prepareMsg (messageWithHeader r b) = .ok (.ok m) →
      (1 ≤ m.getM ∧ m.getM ≤ mo.getP - 1) ∧
      (1 ≤ (mo.encrypt key m).getM ∧ (mo.encrypt key m).getM ≤ mo.getP - 1) ∧
      (mo.encrypt key m).isNil = false) ∧
    (∃ r b m, mo.prepareMsg (messageWithHeader r b) = .ok (.ok m) ∧
      c.prepareMessage env mo msg r₁ r₂ = .ok m ∧
      ∀ round ri me revealKey, ri.crypto = some mo →
        (∃ x, ri.messages[me]? = some x ∧ x.isNil = true) →
        c.submit env round ri me key revealKey msg r₁ r₂ =
          .ok (some (.message c.id round (mo.encrypt key m) (revealKey.hash env)))) ∧
    ∀ b b' m m', mo.prepareMsg b = .ok (.ok m) → mo.prepareMsg b' = .ok (.ok m') → b ≠ b' →
      mo.encrypt key m ≠ mo.encrypt key m' := by
  have hmax := Crypto.bytesMaxSize_of_verify hverify
  have hP : mo.getP.Prime := (hexact _).1 (Crypto.verify_eq_ok_iff.1 hverify).2
  have h3 := Crypto.three_le_of_verify hverify
  refine ⟨exists_prepareMsg_iff hmax, fun r b m hm => ?_, ?_, fun b b' m m' hm hm' hne heq => ?_⟩
  · obtain ⟨h₁, hle⟩ := prepareMsg_mem hm
    have henc := Crypto.encrypt_mem hP key h₁ hle
    exact ⟨⟨h₁, hle⟩, henc, Msg.isNil_eq_false henc.1⟩
  · obtain ⟨r, b, hsent, hb⟩ := exists_sent_eq c.messageSize msg r₁ r₂
    have hprep : c.prepareMessage env mo msg r₁ r₂ = _ := prepareMessage_eq hmax msg r₁ r₂
    rw [hsent] at hprep
    refine ⟨r, b, _, Crypto.prepareMsg_eq_ok_iff.2 ⟨?_, rfl⟩, hprep, ?_⟩
    · rw [hmax, length_messageWithHeader]
      push_cast
      omega
    · intro round ri me revealKey hmo hnil
      rw [submit_eq_some_iff hmax hmo, hsent]
      exact ⟨hnil, rfl⟩
  · exact hne (Crypto.eq_of_encrypt hP h3 hkey hm hm' heq)

/-- A message of one byte under the key 1, with `MessageSize = 2`. -/
theorem submit_spec_pair : ∃ m,
    Client.prepareMessage exactEnv ⟨1, 2⟩ pairCrypto [65] (Vector.replicate 8 7)
      (Vector.replicate 8 9) = .ok m ∧ (pairCrypto.encrypt ⟨[1], [1]⟩ m).isNil = false := by
  have hkey : pairCrypto.genKey [0] = some ⟨[1], [1]⟩ := by decide +kernel
  obtain ⟨-, hmem, ⟨r, b, m, hm, hprep, -⟩, -⟩ := submit_spec exactEnv exactEnv_exact ⟨1, 2⟩
    pairCrypto verify_pairCrypto [0] _ hkey [65] (Vector.replicate 8 7) (Vector.replicate 8 9)
  exact ⟨m, hprep, (hmem r b m hm).2.2⟩

end Client

end EggScrambler
