import Mathlib
import EggScrambler.Honest
import EggScrambler.Lib.ExpCipher

/-!
# Layers of encryption

In an honest run every message is a plaintext raised to a product of key exponents.  `Setup.layer x
id` is the plaintext of `id` under the exponent `x`, and `Layered` says, phase by phase, which
exponent that is: while messages are submitted the sender's own encrypt key; in the encrypt phase
the keys of the sender and of everyone whose flag is raised; from the scramble phase on the same
exponent for all messages, of which only the multiset is known.

* `encLayers_install`, `scrLayers_install`, `decLayers_install`: one accepted list operation.
* `EncLayers.scrLayers`, `ScrLayers.decLayers`, `DecLayers.revLayers`: from one phase to the next.
* `HonestRun.layered`: the run lemma.
* `honest_done_perm`: the outcome of a finished round.
-/

namespace EggScrambler

open StateMachine Transition ExpCipher

/-! ## One message -/

namespace Setup

variable (s : Setup) (mo : Crypto) (r : ℤ)

/-- The plaintext of a participant under the exponent `x`. -/
def layer (x : ℕ) (id : UUID) : Msg := newMsg (s.plain mo id r ^ x % mo.getP)

def encryptExp (id : UUID) : ℕ := (s.keys mo id r).encryptKey.getE

def scrambleExp (id : UUID) : ℕ := (s.keys mo id r).scrambleKey.getE

def revealExp (id : UUID) : ℕ := (s.keys mo id r).revealKey.getE

variable {mo}

theorem encrypt_layer (key : PrivateKey) (x : ℕ) (id : UUID) :
    mo.encrypt key (s.layer mo r x id) = s.layer mo r (x * key.getE) id := by
  simp only [Crypto.encrypt, layer, getM_newMsg, MasseyOmura.encrypt, Crypto.createPrivateKey,
    pow_mod_pow]

theorem coprime_plain (hP : mo.getP.Prime) (id : UUID) : (s.plain mo id r).Coprime mo.getP := by
  obtain ⟨hpos, hle⟩ := s.plain_mem mo id r hP
  have := hP.two_le
  exact coprime_of_lt hP hpos (by omega)

theorem decrypt_layer (hP : mo.getP.Prime) {key : PrivateKey} (hkey : key.Inverts mo.getP) (x : ℕ)
    (id : UUID) : mo.decrypt key (s.layer mo r (x * key.getE) id) = s.layer mo r x id := by
  simp only [Crypto.decrypt, layer, getM_newMsg, MasseyOmura.decrypt, Crypto.createPrivateKey,
    pow_mod_pow, pow_mul_cancel hP (s.coprime_plain r hP id) hkey]

theorem layer_one (hP : mo.getP.Prime) (id : UUID) :
    s.layer mo r 1 id = newMsg (s.plain mo id r) := by
  obtain ⟨hpos, hle⟩ := s.plain_mem mo id r hP
  rw [layer, pow_one, Nat.mod_eq_of_lt (by omega)]

/-- No stack of layers maps a plaintext to the null message. -/
theorem isNil_layer (hP : mo.getP.Prime) (x : ℕ) (id : UUID) :
    (s.layer mo r x id).isNil = false := by
  have hpos := pow_mod_pos hP (s.coprime_plain r hP id) x
  rw [Bool.eq_false_iff, Ne, layer, isNil_newMsg]
  omega

/-- Decrypting with all reveal keys takes the last layers off. -/
theorem foldl_decrypt_layer (hP : mo.getP.Prime) (ids : List UUID) (x : ℕ) (id : UUID) :
    (ids.map fun id => (s.keys mo id r).revealKey).foldl (fun m key => mo.decrypt key m)
      (s.layer mo r (x * (ids.map (s.revealExp mo r)).prod) id) = s.layer mo r x id := by
  induction ids generalizing x with
  | nil => simp
  | cons i ids ih =>
    have hexp : x * ((i :: ids).map (s.revealExp mo r)).prod =
        x * (ids.map (s.revealExp mo r)).prod * s.revealExp mo r i := by
      rw [List.map_cons, List.prod_cons]
      ring
    rw [hexp, List.map_cons, List.foldl_cons, revealExp,
      s.decrypt_layer r hP (s.inverts mo i r hP).2.2, ih]

end Setup

/-! ## All messages of a round -/

section Layers

variable (s : Setup) (mo : Crypto) (r : ℤ) (ri : RoundInfo)

/-- In the encrypt phase, message `p` has the layers of its sender and of all raised flags. -/
def EncLayers : Prop := ∀ p id, ri.participants[p]? = some id → ri.messages[p]? =
  some (s.layer mo r (select (s.encryptExp mo r) ri.participants (ri.encrypted.set p true)) id)

/-- In the scramble phase, the messages have all encrypt layers and two for each raised flag. -/
def ScrLayers : Prop := ri.messages.Perm (ri.participants.map (s.layer mo r
  ((ri.participants.map (s.encryptExp mo r)).prod *
    select (fun id => s.scrambleExp mo r id * s.revealExp mo r id) ri.participants ri.scrambled)))

/-- In the decrypt phase, they have the reveal layers and two for each flag that is still down. -/
def DecLayers : Prop := ri.messages.Perm (ri.participants.map (s.layer mo r
  (select (fun id => s.encryptExp mo r id * s.scrambleExp mo r id) ri.participants
    (ri.decrypted.map not) * (ri.participants.map (s.revealExp mo r)).prod)))

/-- In the end they have the reveal layers. -/
def RevLayers : Prop := ri.messages.Perm (ri.participants.map (s.layer mo r
  (ri.participants.map (s.revealExp mo r)).prod))

variable {s mo r ri}

theorem encLayers_install {q : ℕ} {id : UUID} (h : EncLayers s mo r ri)
    (hid : ri.participants[q]? = some id) (hf : ri.encrypted[q]? = some false) :
    EncLayers s mo r (ri.install .encrypt q (ri.messages.zipIdx.map fun m =>
      if m.2 = q then m.1 else mo.encrypt (s.keys mo id r).encryptKey m.1)) := by
  intro p i hp
  change ri.participants[p]? = some i at hp
  change (ri.messages.zipIdx.map _)[p]? =
    some (s.layer mo r (select _ ri.participants ((ri.encrypted.set q true).set p true)) i)
  rw [List.getElem?_map, List.getElem?_zipIdx, h p i hp]
  by_cases hpq : p = q
  · subst hpq
    simp [List.set_set]
  · rw [List.set_comm true true (Ne.symm hpq), select_set_true (s.encryptExp mo r) hid
      (by rw [List.getElem?_set_ne hpq]; exact hf)]
    simp [hpq, s.encrypt_layer, Setup.encryptExp]

theorem scrLayers_install {q : ℕ} {id : UUID} (h : ScrLayers s mo r ri) (shuffle : Shuffle)
    (hid : ri.participants[q]? = some id) (hf : ri.scrambled[q]? = some false) :
    ScrLayers s mo r (ri.install .scramble q (shuffle.apply (ri.messages.map fun m =>
      mo.encrypt (s.keys mo id r).revealKey (mo.encrypt (s.keys mo id r).scrambleKey m)))) := by
  change (shuffle.apply _).Perm (ri.participants.map (s.layer mo r
    ((ri.participants.map (s.encryptExp mo r)).prod *
      select _ ri.participants (ri.scrambled.set q true))))
  refine (shuffle.perm _).trans ((h.map _).trans ?_)
  rw [List.map_map, select_set_true _ hid hf]
  refine List.Perm.of_eq (List.map_congr_left fun i _ => ?_)
  simp only [Function.comp, s.encrypt_layer]
  congr 1
  simp only [Setup.scrambleExp, Setup.revealExp]
  ring

theorem decLayers_install {q : ℕ} {id : UUID} (hP : mo.getP.Prime) (h : DecLayers s mo r ri)
    (hid : ri.participants[q]? = some id) (hf : ri.decrypted[q]? = some false) :
    DecLayers s mo r (ri.install .decrypt q (ri.messages.map fun m =>
      mo.decrypt (s.keys mo id r).encryptKey (mo.decrypt (s.keys mo id r).scrambleKey m))) := by
  change (ri.messages.map _).Perm (ri.participants.map (s.layer mo r
    (select _ ri.participants ((ri.decrypted.set q true).map not) *
      (ri.participants.map (s.revealExp mo r)).prod)))
  refine (h.map _).trans ?_
  rw [List.map_map, List.map_set]
  refine List.Perm.of_eq (List.map_congr_left fun i _ => ?_)
  -- bring the two layers of `id` to the end, where they cancel one after the other
  have hsel := select_set_false (fun id => s.encryptExp mo r id * s.scrambleExp mo r id) hid
    (show (ri.decrypted.map not)[q]? = some true by simp [hf])
  obtain ⟨henc, hscr, -⟩ := s.inverts mo id r hP
  have hexp : ∀ a b e f : ℕ, a * (e * f) * b = a * b * e * f := fun a b e f => by ring
  rw [← hsel, Function.comp, hexp, Setup.scrambleExp, s.decrypt_layer r hP hscr,
    Setup.encryptExp, s.decrypt_layer r hP henc]
  rfl

/-! ### From one phase to the next -/

/-- After its phase, the flags of a stage are all raised. -/
theorem RoundInv.flags_eq_true (hI : RoundInv ri) (st : Stage)
    (hlt : phaseOrder st.phase < phaseOrder ri.phase) (hf : ri.phase ≠ .failed) :
    st.flags ri = List.replicate ri.participants.length true := by
  rw [← hI.flags_length st]
  exact List.eq_replicate_of_mem (hI.raised st hlt hf)

/-- Before its phase, they are all down. -/
theorem RoundInv.flags_eq_false (hI : RoundInv ri) (st : Stage)
    (hlt : phaseOrder ri.phase < phaseOrder st.phase) :
    st.flags ri = List.replicate ri.participants.length false := by
  rw [← hI.flags_length st]
  exact List.eq_replicate_of_mem (hI.lowered st hlt)

theorem EncLayers.scrLayers (h : EncLayers s mo r ri)
    (hlen : ri.messages.length = ri.participants.length)
    (henc : ri.encrypted = List.replicate ri.participants.length true)
    (hscr : ri.scrambled = List.replicate ri.participants.length false) :
    ScrLayers s mo r ri := by
  unfold ScrLayers
  rw [hscr, select_false, mul_one]
  refine List.Perm.of_eq (List.ext_getElem? fun p => ?_)
  rcases hp : ri.participants[p]? with _ | id
  · rw [List.getElem?_map, hp, Option.map_none, List.getElem?_eq_none_iff, hlen]
    exact List.getElem?_eq_none_iff.1 hp
  · rw [h p id hp, List.getElem?_map, hp, henc, List.set_replicate_self, select_true]
    rfl

theorem ScrLayers.decLayers (h : ScrLayers s mo r ri)
    (hscr : ri.scrambled = List.replicate ri.participants.length true)
    (hdec : ri.decrypted = List.replicate ri.participants.length false) :
    DecLayers s mo r ri := by
  unfold ScrLayers at h
  unfold DecLayers
  rw [hscr, select_true, List.prod_map_mul, ← mul_assoc] at h
  rwa [hdec, List.map_replicate, Bool.not_false, select_true, List.prod_map_mul]

theorem DecLayers.revLayers (h : DecLayers s mo r ri)
    (hdec : ri.decrypted = List.replicate ri.participants.length true) : RevLayers s mo r ri := by
  unfold DecLayers at h
  rwa [hdec, List.map_replicate, Bool.not_true, select_false, one_mul] at h

end Layers

/-! ## One round -/

/-- The layers that the phase of a round calls for. -/
def Layers (s : Setup) (mo : Crypto) (r : ℤ) (ri : RoundInfo) : Prop :=
  match ri.phase with
  | .encrypt => EncLayers s mo r ri
  | .scramble => ScrLayers s mo r ri
  | .decrypt => DecLayers s mo r ri
  | .reveal | .done => RevLayers s mo r ri
  | .unset | .prepare | .submit | .failed => True

section Phases

variable {s : Setup} {mo : Crypto} {r : ℤ} {ri : RoundInfo}

theorem layers_encrypt_iff (hph : ri.phase = .encrypt) :
    Layers s mo r ri ↔ EncLayers s mo r ri := by simp only [Layers, hph]

theorem layers_scramble_iff (hph : ri.phase = .scramble) :
    Layers s mo r ri ↔ ScrLayers s mo r ri := by simp only [Layers, hph]

theorem layers_decrypt_iff (hph : ri.phase = .decrypt) :
    Layers s mo r ri ↔ DecLayers s mo r ri := by simp only [Layers, hph]

theorem layers_reveal_iff (hph : ri.phase = .reveal ∨ ri.phase = .done) :
    Layers s mo r ri ↔ RevLayers s mo r ri := by
  rcases hph with hph | hph <;> simp only [Layers, hph]

end Phases

/-- A round of an honest run, from its start on. -/
structure Layered (s : Setup) (env : Env) (mo : Crypto) (r : ℤ) (ri : RoundInfo) : Prop where
  crypto : ri.crypto = some mo
  prime : mo.getP.Prime
  length : ri.messages.length = ri.participants.length
  /-- Who has submitted a message, has submitted a hash. -/
  submitted : ri.phase = .submit → ∀ (p : ℕ) (id : UUID), ri.participants[p]? = some id →
    ri.messages[p]? = some nilMsg ∧ ri.revealKeyHashes[p]? = some [] ∨
    ri.messages[p]? = some (s.layer mo r (s.encryptExp mo r id) id) ∧
      ri.revealKeyHashes[p]? = some ((s.keys mo id r).revealKey.hash env)
  hashes : 2 ≤ phaseOrder ri.phase → ∀ (p : ℕ) (id : UUID), ri.participants[p]? = some id →
    ri.revealKeyHashes[p]? = some ((s.keys mo id r).revealKey.hash env)
  layers : Layers s mo r ri
  /-- Nobody reveals anything but their key. -/
  revealed : ∀ (p : ℕ) (id : UUID) (key : PrivateKey), ri.participants[p]? = some id →
    ri.revealedKeys[p]? = some key →
    key.isNil = true ∨ key = (s.keys mo id r).revealKey

/-- A round of an honest run. -/
structure HonestRound (s : Setup) (env : Env) (r : ℤ) (ri : RoundInfo) : Prop where
  prepared : ri.phase = .prepare → ri.crypto = none ∧ ∀ hash ∈ ri.revealKeyHashes, hash = []
  layered : 1 ≤ phaseOrder ri.phase → ri.phase ≠ .failed → ∃ mo, Layered s env mo r ri

namespace Layered

variable {s : Setup} {env : Env} {mo : Crypto} {r : ℤ} {ri : RoundInfo}

theorem start (hI : RoundInv ri) (hph : ri.phase = .prepare)
    (hhash : ∀ hash ∈ ri.revealKeyHashes, hash = []) (hP : mo.getP.Prime) :
    Layered s env mo r { ri with phase := .submit, crypto := some mo } where
  crypto := rfl
  prime := hP
  length := hI.messages_length (by rw [hph]; decide)
  submitted _ p id hid := by
    have hp : p < ri.participants.length := (List.getElem?_eq_some_iff.1 hid).1
    left
    constructor
    · have hlt : p < ri.messages.length := by rwa [hI.messages_length (by rw [hph]; decide)]
      have hnil := hI.prepare_nil hph _ (List.getElem_mem hlt)
      rw [List.getElem?_eq_getElem hlt]
      exact congrArg some (Msg.eq_nilMsg hnil)
    · have hlt : p < ri.revealKeyHashes.length := by rwa [hI.hashes_length]
      rw [List.getElem?_eq_getElem hlt, hhash _ (List.getElem_mem hlt)]
  hashes h := absurd (show 2 ≤ phaseOrder .submit from h) (by decide)
  layers := trivial
  revealed p id key _ hkey :=
    Or.inl (hI.keys_nil (by rw [hph]; decide) key (List.mem_of_getElem? hkey))

/-- The entries of a submit phase after another message came in. -/
theorem submitted_putMessage (h : Layered s env mo r ri) (hI : RoundInv ri)
    (hph : ri.phase = .submit) {q : ℕ} {id : UUID} (hid : ri.participants[q]? = some id)
    {ri' : RoundInfo} (hri' : ri' = ri.putMessage q (s.layer mo r (s.encryptExp mo r id) id)
      ((s.keys mo id r).revealKey.hash env)) (p : ℕ) (i : UUID)
    (hp : ri'.participants[p]? = some i) :
    ri'.messages[p]? = some nilMsg ∧ ri'.revealKeyHashes[p]? = some [] ∨
    ri'.messages[p]? = some (s.layer mo r (s.encryptExp mo r i) i) ∧
      ri'.revealKeyHashes[p]? = some ((s.keys mo i r).revealKey.hash env) := by
  subst hri'
  change ri.participants[p]? = some i at hp
  have hq : q < ri.participants.length := (List.getElem?_eq_some_iff.1 hid).1
  simp only [RoundInfo.putMessage]
  by_cases hpq : q = p
  · subst hpq
    obtain rfl : id = i := Option.some.inj (hid.symm.trans hp)
    right
    rw [List.getElem?_set_self (by rwa [h.length]),
      List.getElem?_set_self (by rwa [hI.hashes_length])]
    exact ⟨rfl, rfl⟩
  · rw [List.getElem?_set_ne hpq, List.getElem?_set_ne hpq]
    exact h.submitted hph p i hp

theorem putMessage (h : Layered s env mo r ri) (hI : RoundInv ri) (hph : ri.phase = .submit)
    {q : ℕ} {id : UUID} (hid : ri.participants[q]? = some id) :
    Layered s env mo r (ri.putMessage q (s.layer mo r (s.encryptExp mo r id) id)
      ((s.keys mo id r).revealKey.hash env)) := by
  have hsub := h.submitted_putMessage hI hph hid rfl
  generalize hri' : ri.putMessage q (s.layer mo r (s.encryptExp mo r id) id)
    ((s.keys mo id r).revealKey.hash env) = ri' at hsub ⊢
  have hparts : ri'.participants = ri.participants := by rw [← hri']; rfl
  -- the phase changes when no message is missing, so all of them have been submitted
  have hphase : ri'.phase = .submit ∨
      ri'.phase = .encrypt ∧ ∀ m ∈ ri'.messages, m.isNil = false := by
    rw [← hri']
    simp only [RoundInfo.putMessage, hph]
    split_ifs with hany
    · exact Or.inl rfl
    · exact Or.inr ⟨rfl, by simpa using hany⟩
  have hall : ri'.phase = .encrypt → ∀ (p : ℕ) (i : UUID), ri'.participants[p]? = some i →
      ri'.messages[p]? = some (s.layer mo r (s.encryptExp mo r i) i) ∧
        ri'.revealKeyHashes[p]? = some ((s.keys mo i r).revealKey.hash env) := by
    intro hph' p i hp
    rcases hphase with hsubmit | ⟨-, hfull⟩
    · rw [hph'] at hsubmit
      cases hsubmit
    · rcases hsub p i hp with ⟨hnil, -⟩ | hlayer
      · have := hfull nilMsg (List.mem_of_getElem? hnil)
        cases this
      · exact hlayer
  exact {
    crypto := by rw [← hri']; exact h.crypto
    prime := h.prime
    length := by rw [← hri']; simpa [RoundInfo.putMessage] using h.length
    submitted := fun _ => hsub
    hashes := fun hle p i hp => by
      rcases hphase with hph' | ⟨hph', -⟩
      · rw [hph'] at hle
        exact absurd hle (by decide)
      · exact (hall hph' p i hp).2
    layers := by
      rcases hphase with hph' | ⟨hph', -⟩
      · simp only [Layers, hph']
      · refine (layers_encrypt_iff hph').2 fun p i hp => ?_
        have henc : ri'.encrypted = List.replicate ri.participants.length false := by
          rw [← hri']
          exact hI.flags_eq_false .encrypt (by rw [hph]; decide)
        have hlt : p < ri.participants.length := by
          rw [← hparts]
          exact (List.getElem?_eq_some_iff.1 hp).1
        rw [(hall hph' p i hp).1, henc, select_set_true _ hp (by simp [hlt]), select_false, one_mul]
    revealed := by rw [← hri']; exact h.revealed }

/-- What the three list operations have in common. -/
theorem install (h : Layered s env mo r ri) (st : Stage) (hph : ri.phase = st.phase) {q : ℕ}
    {messages : List Msg} (hlen : messages.length = ri.messages.length)
    (hlayers : Layers s mo r (ri.install st q messages)) :
    Layered s env mo r (ri.install st q messages) := by
  obtain ⟨hparts, hcrypto, hkeys, hhashes⟩ := ri.install_frame st q messages
  have hmem := st.phaseOrder_mem.1
  have hord : 2 ≤ phaseOrder (ri.install st q messages).phase := by
    rw [RoundInfo.phase_install, hph]
    split_ifs
    · rw [st.phaseOrder_next]
      omega
    · exact hmem
  exact {
    crypto := hcrypto.trans h.crypto
    prime := h.prime
    length := by rw [RoundInfo.messages_install, hparts, hlen, h.length]
    submitted := fun hsub => by
      rw [hsub] at hord
      exact absurd hord (by decide)
    hashes := fun _ p i hp => by
      rw [hparts] at hp
      rw [hhashes]
      exact h.hashes (by rwa [hph]) p i hp
    layers := hlayers
    revealed := fun p i key hp hkey => by
      rw [hparts] at hp
      rw [hkeys] at hkey
      exact h.revealed p i key hp hkey }

/-- After a list operation its phase goes on, or all its flags are raised and the next one begins.
-/
theorem install_cases (hI : RoundInv ri) (st : Stage) (hph : ri.phase = st.phase) (q : ℕ)
    (messages : List Msg) : (ri.install st q messages).phase = st.phase ∨
      (ri.install st q messages).phase = st.next ∧
        (st.flags ri).set q true = List.replicate ri.participants.length true := by
  rw [RoundInfo.phase_install, hph]
  split_ifs with hall
  · right
    refine ⟨rfl, ?_⟩
    have := List.eq_replicate_of_mem ((numTrue_eq_length_iff ((st.flags ri).set q true)).1
      (by rw [hall, List.length_set]))
    rwa [List.length_set, hI.flags_length] at this
  · exact Or.inl rfl

theorem encrypt (h : Layered s env mo r ri) (hI : RoundInv ri) (hph : ri.phase = .encrypt) {q : ℕ}
    {id : UUID} (hid : ri.participants[q]? = some id) (hf : ri.encrypted[q]? = some false) :
    Layered s env mo r (ri.install .encrypt q (ri.messages.zipIdx.map fun m =>
      if m.2 = q then m.1 else mo.encrypt (s.keys mo id r).encryptKey m.1)) := by
  have hnew := encLayers_install ((layers_encrypt_iff hph).1 h.layers) hid hf
  refine h.install .encrypt hph (by simp) ?_
  rcases install_cases hI .encrypt hph q _ with hph' | ⟨hph', hall⟩
  · exact (layers_encrypt_iff hph').2 hnew
  · have hscr : ri.scrambled = _ := hI.flags_eq_false .scramble (by rw [hph]; decide)
    refine (layers_scramble_iff hph').2 (hnew.scrLayers ?_ hall hscr)
    rw [(ri.install_frame _ _ _).1]
    simpa using h.length

theorem scramble (h : Layered s env mo r ri) (hI : RoundInv ri) (hph : ri.phase = .scramble) {q : ℕ}
    {id : UUID} (shuffle : Shuffle) (hid : ri.participants[q]? = some id)
    (hf : ri.scrambled[q]? = some false) :
    Layered s env mo r (ri.install .scramble q (shuffle.apply (ri.messages.map fun m =>
      mo.encrypt (s.keys mo id r).revealKey (mo.encrypt (s.keys mo id r).scrambleKey m)))) := by
  have hnew := scrLayers_install ((layers_scramble_iff hph).1 h.layers) shuffle hid hf
  refine h.install .scramble hph (by rw [(shuffle.perm _).length_eq, List.length_map]) ?_
  rcases install_cases hI .scramble hph q _ with hph' | ⟨hph', hall⟩
  · exact (layers_scramble_iff hph').2 hnew
  · have hdec : ri.decrypted = _ := hI.flags_eq_false .decrypt (by rw [hph]; decide)
    exact (layers_decrypt_iff hph').2 (hnew.decLayers hall hdec)

theorem decrypt (h : Layered s env mo r ri) (hI : RoundInv ri) (hph : ri.phase = .decrypt) {q : ℕ}
    {id : UUID} (hid : ri.participants[q]? = some id) (hf : ri.decrypted[q]? = some false) :
    Layered s env mo r (ri.install .decrypt q (ri.messages.map fun m =>
      mo.decrypt (s.keys mo id r).encryptKey (mo.decrypt (s.keys mo id r).scrambleKey m))) := by
  have hnew := decLayers_install h.prime ((layers_decrypt_iff hph).1 h.layers) hid hf
  refine h.install .decrypt hph (by rw [List.length_map]) ?_
  rcases install_cases hI .decrypt hph q _ with hph' | ⟨hph', hall⟩
  · exact (layers_decrypt_iff hph').2 hnew
  · exact (layers_reveal_iff (Or.inl hph')).2 (hnew.revLayers hall)

theorem putKey (h : Layered s env mo r ri) (hI : RoundInv ri) (hph : ri.phase = .reveal) {q : ℕ}
    {id : UUID} (hid : ri.participants[q]? = some id) :
    Layered s env mo r (ri.putKey q (s.keys mo id r).revealKey) := by
  have hrev : RevLayers s mo r ri := (layers_reveal_iff (Or.inl hph)).1 h.layers
  have hphase : (ri.putKey q (s.keys mo id r).revealKey).phase = .reveal ∨
      (ri.putKey q (s.keys mo id r).revealKey).phase = .done := by
    simp only [RoundInfo.putKey, hph]
    split_ifs <;> simp
  exact {
    crypto := h.crypto
    prime := h.prime
    length := h.length
    submitted := fun hsub => by
      rcases hphase with hph' | hph' <;> rw [hph'] at hsub <;> cases hsub
    hashes := fun _ => h.hashes (by rw [hph]; decide)
    layers := (layers_reveal_iff hphase).2 hrev
    revealed := fun p i key hp hkey => by
      change ri.participants[p]? = some i at hp
      change (ri.revealedKeys.set q _)[p]? = some key at hkey
      by_cases hpq : q = p
      · subst hpq
        obtain rfl : id = i := Option.some.inj (hid.symm.trans hp)
        have hlt : q < ri.revealedKeys.length := by
          rw [hI.keys_length]
          exact (List.getElem?_eq_some_iff.1 hid).1
        rw [List.getElem?_set_self hlt] at hkey
        exact Or.inr (Option.some.inj hkey).symm
      · rw [List.getElem?_set_ne hpq] at hkey
        exact h.revealed p i key hp hkey }

end Layered

/-! ## Whole runs -/

section Run

variable {s : Setup} {env : Env} {sm : StateMachine} {hist : List StateMachine}

/-- A round that has one message for every participant is seen as it is. -/
theorem Seen.eq_current {ri : RoundInfo} (h : Inv sm) (hs : Seen sm ri)
    (hlen : sm.currentRoundInfo.messages.length = sm.currentRoundInfo.participants.length) :
    ri = sm.currentRoundInfo := by
  rcases hs with rfl | hs
  · rfl
  · rw [(RoundInfo.deepCopy_eq_self_iff h.current).2 hlen] at hs
    exact (Except.ok.inj hs).symm

/-- An operation built from an earlier state of this round and its crypto. -/
theorem Seen.crypto_eq {S : StateMachine} {ri : RoundInfo} {mo : Crypto} (h : Inv S)
    (hl : Leads apply S sm) (hs : Seen S ri) (hr : S.round = sm.round)
    (hord : 1 ≤ phaseOrder ri.phase) (hmo : ri.crypto = some mo) :
    sm.currentRoundInfo.crypto = some mo := by
  have hlater := (Follows.of_leads h hl).later_of_round_eq (h.of_leads hl).round_nonneg hr.symm
  rw [hs.phase h] at hord
  rw [(hlater.fixed hord).2, ← hmo, hs.eq h]

theorem HonestRound.of_layered {mo : Crypto} {r : ℤ} {ri : RoundInfo}
    (h : Layered s env mo r ri) (hord : 1 ≤ phaseOrder ri.phase) : HonestRound s env r ri where
  prepared hph := by
    rw [hph] at hord
    exact absurd hord (by decide)
  layered _ _ := ⟨mo, h⟩

/-- The layers of a round are about the crypto that was seen earlier in it. -/
theorem HonestRound.layered_of_seen {S : StateMachine} {ri : RoundInfo} {mo : Crypto}
    (hround : HonestRound s env sm.round sm.currentRoundInfo) (h : Inv S) (hl : Leads apply S sm)
    (hs : Seen S ri) (hr : S.round = sm.round) (hmo : ri.crypto = some mo)
    (hseen : 1 ≤ phaseOrder ri.phase) (hord : 1 ≤ phaseOrder sm.currentRoundInfo.phase)
    (hfail : sm.currentRoundInfo.phase ≠ .failed) :
    Layered s env mo sm.round sm.currentRoundInfo := by
  obtain ⟨mo', hL⟩ := hround.layered hord hfail
  have hcrypto := hs.crypto_eq h hl hr hseen hmo
  obtain rfl : mo' = mo := Option.some.inj (hL.crypto.symm.trans hcrypto)
  exact hL

/-- A list operation that is accepted was built from the round as it is. -/
theorem Builds.fresh {S : StateMachine} {c : Client} {st : Stage} {op : Op} {ri ri' : RoundInfo}
    {mo : Crypto} {me : ℕ} (hb : Builds c S st op) (h : Inv sm) (hS : Inv S)
    (hl : Leads apply S sm) (hs : Seen S ri) (hme : c.me ri = some me) (hmo : ri.crypto = some mo)
    (hround : HonestRound s env sm.round sm.currentRoundInfo) (hr : op.round = sm.round)
    (ha : Accepts sm.currentRoundInfo op ri') :
    S.round = sm.round ∧ ri = sm.currentRoundInfo ∧
      Layered s env mo sm.round sm.currentRoundInfo ∧
      sm.currentRoundInfo.participantIndex c.id = some me := by
  obtain ⟨hSr, hcur⟩ := hb.eq_of_accepted hS hl (apply_of_accepts hr ha)
  have hph := (hb.spec hS).1
  rw [← hcur] at hph
  obtain ⟨mo', hL⟩ := hround.layered
    (by rw [hph]; exact le_trans (by decide) st.phaseOrder_mem.1) (hph ▸ st.phase_ne_failed)
  have hri := hs.eq_current hS (by rw [← hcur]; exact hL.length)
  rw [← hcur] at hri
  subst hri
  obtain rfl : mo' = mo := Option.some.inj (hL.crypto.symm.trans hmo)
  exact ⟨hSr.symm, rfl, hL, (Client.me_eq_participantIndex h.current.nodup).symm.trans hme⟩

/-- An honest operation that is accepted keeps the layers of the current round. -/
theorem Honest.honestRound {op : Op} {ri' : RoundInfo} (hop : Honest (s.conduct env) hist op)
    (hhist : ∀ S ∈ hist, Inv S ∧ Leads apply S sm) (h : Inv sm)
    (hround : HonestRound s env sm.round sm.currentRoundInfo) (hr : op.round = sm.round)
    (ha : Accepts sm.currentRoundInfo op ri') : HonestRound s env sm.round ri' := by
  have hord := ha.later.order
  cases hop with
  | prepare hsm hs hop =>
    unfold Client.prepare at hop
    split_ifs at hop
    cases hop
    obtain ⟨hph, -, rfl⟩ := ha.of_join
    obtain ⟨hcrypto, hhash⟩ := hround.prepared hph
    refine ⟨fun _ => ⟨hcrypto, fun hash hmem => ?_⟩, fun hle => ?_⟩
    · rcases List.mem_append.1 hmem with hmem | hmem
      · exact hhash hash hmem
      · exact List.mem_singleton.1 hmem
    · exact absurd (show 1 ≤ phaseOrder sm.currentRoundInfo.phase from hle) (by rw [hph]; decide)
  | start hsm hmo hop =>
    unfold Client.start at hop
    split_ifs at hop
    cases hop
    obtain ⟨hph, rfl⟩ := ha.of_start
    exact .of_layered (.start h.current hph (hround.prepared hph).2 hmo)
      (show 1 ≤ phaseOrder .submit by decide)
  | @submit S ri c me op hsm hs hph hme hop =>
    obtain ⟨-, mo, hmo, rfl⟩ := hop
    obtain ⟨hph', p, hp, rfl⟩ := Accepts.of_message ha
    have hSr : S.round = sm.round := hr
    have hL := hround.layered_of_seen (hhist S hsm).1 (hhist S hsm).2 hs hSr hmo
      (by rw [hph]; decide) (by rw [hph']; decide) (by rw [hph']; decide)
    rw [hph'] at hord
    rw [hSr, ← s.layer_one sm.round hL.prime, s.encrypt_layer, one_mul] at hord ⊢
    exact .of_layered (hL.putMessage h.current hph' (RoundInfo.participantIndex_eq_some hp)) hord
  | @encrypt S ri c me mo keys op hsm hs hph hme hmo hk hop =>
    obtain ⟨hS, hl⟩ := hhist S hsm
    obtain ⟨hSr, rfl, hL, hp⟩ := (Builds.encrypt _ hs hph hme hop).fresh h hS hl hs hme hmo hround
      hr ha
    obtain ⟨hf, rfl⟩ := (Client.encrypt_eq_some_iff hmo).1 hop
    cases hk
    obtain ⟨-, p, hp', -, -, rfl⟩ := Accepts.of_op .encrypt _ ha
    obtain rfl : p = me := Option.some.inj (hp'.symm.trans hp)
    rw [hph] at hord
    rw [hSr] at hord ⊢
    exact .of_layered (hL.encrypt h.current hph (RoundInfo.participantIndex_eq_some hp) hf)
      (le_trans (by decide) hord)
  | @scramble S ri c me mo keys shuffle op hsm hs hph hme hturn hmo hk hop =>
    obtain ⟨hS, hl⟩ := hhist S hsm
    obtain ⟨hSr, rfl, hL, hp⟩ := (Builds.scramble _ _ _ hs hph hme hturn hop).fresh h hS hl hs hme
      hmo hround hr ha
    obtain ⟨hf, rfl⟩ := (Client.scramble_eq_some_iff hmo).1 hop
    cases hk
    obtain ⟨-, p, hp', -, -, rfl⟩ := Accepts.of_op .scramble 0 ha
    obtain rfl : p = me := Option.some.inj (hp'.symm.trans hp)
    rw [hph] at hord
    rw [hSr] at hord ⊢
    exact .of_layered
      (hL.scramble h.current hph shuffle (RoundInfo.participantIndex_eq_some hp) hf)
      (le_trans (by decide) hord)
  | @decrypt S ri c me mo keys op hsm hs hph hme hmo hk hop =>
    obtain ⟨hS, hl⟩ := hhist S hsm
    obtain ⟨hSr, rfl, hL, hp⟩ := (Builds.decrypt _ _ hs hph hme hop).fresh h hS hl hs hme hmo
      hround hr ha
    obtain ⟨hf, rfl⟩ := (Client.decrypt_eq_some_iff hmo).1 hop
    cases hk
    obtain ⟨-, p, hp', -, -, rfl⟩ := Accepts.of_op .decrypt _ ha
    obtain rfl : p = me := Option.some.inj (hp'.symm.trans hp)
    rw [hph] at hord
    rw [hSr] at hord ⊢
    exact .of_layered (hL.decrypt h.current hph (RoundInfo.participantIndex_eq_some hp) hf)
      (le_trans (by decide) hord)
  | @reveal S ri c me mo keys op hsm hs hph hme hmo hk hop =>
    obtain ⟨-, rfl⟩ := Client.reveal_eq_some_iff.1 hop
    obtain ⟨hph', p, hp, -, rfl⟩ := ha.of_reveal
    cases hk
    have hSr : S.round = sm.round := hr
    have hL := hround.layered_of_seen (hhist S hsm).1 (hhist S hsm).2 hs hSr hmo
      (by rw [hph]; decide) (by rw [hph']; decide) (by rw [hph']; decide)
    rw [hph'] at hord
    rw [hSr] at hord ⊢
    exact .of_layered (hL.putKey h.current hph' (RoundInfo.participantIndex_eq_some hp))
      (le_trans (by decide) hord)
  | abort r =>
    obtain rfl := ha.of_abort
    exact ⟨by simp, by simp⟩

/-- Every round that can be retrieved is a round of an honest run. -/
def HonestState (s : Setup) (env : Env) (sm : StateMachine) : Prop :=
  ∀ r ri, sm.getRoundInfo r = .ok ri → HonestRound s env r ri

theorem HonestRound.new (r : ℤ) : HonestRound s env r { phase := .prepare } where
  prepared _ := ⟨rfl, by simp⟩
  layered h := absurd (show 1 ≤ phaseOrder .prepare from h) (by decide)

theorem HonestState.new : HonestState s env newStateMachine := by
  intro r ri hri
  obtain ⟨h₀, hle, -, rfl⟩ := getRoundInfo_eq_ok_iff.1 hri
  obtain rfl : r = 0 := le_antisymm hle h₀
  exact HonestRound.new 0

theorem HonestState.apply {sm' : StateMachine} {op : Op} {b : Bool}
    (hs : HonestState s env sm) (hop : Honest (s.conduct env) hist op)
    (hhist : ∀ S ∈ hist, Inv S ∧ Leads apply S sm) (h : Inv sm)
    (hap : sm.apply op = .ok (sm', b)) : HonestState s env sm' := by
  cases b with
  | false =>
    rw [eq_of_apply_false hap]
    exact hs
  | true =>
    obtain ⟨hr, ri', ha, rfl⟩ := apply_true_iff.1 hap
    have hcur := hs sm.round _ (getRoundInfo_currentRoundInfo h.round_nonneg)
    intro r ri hri
    rcases getRoundInfo_advance h.round_nonneg hri with ⟨-, hold⟩ | ⟨rfl, rfl⟩ | ⟨rfl, rfl⟩
    · exact hs r ri hold
    · exact hop.honestRound hhist h hcur hr ha
    · exact HonestRound.new _

/-- A current round that was started has its layers. -/
theorem HonestState.layered_current (hs : HonestState s env sm) (h : Inv sm)
    (hord : 1 ≤ phaseOrder sm.currentRoundInfo.phase) :
    ∃ mo, Layered s env mo sm.round sm.currentRoundInfo :=
  (hs _ _ (getRoundInfo_currentRoundInfo h.round_nonneg)).layered hord
    fun hfail => h.live.unfinished (Or.inr hfail)

/-- The states of an honest run have honest rounds only. -/
theorem HonestRun.layered (h : HonestRun (s.conduct env) hist) :
    ∀ v ∈ hist, HonestState s env v := by
  refine h.forall_mem HonestState.new fun sm hist op sm' b hh hall hop hap => ?_
  have hinv : ∀ S ∈ sm :: hist, Inv S := fun S hS => Reachable.inv (hh.leads_of_mem hS)
  exact (hall sm List.mem_cons_self).apply hop (fun S hS => ⟨hinv S hS, hh.leads hS⟩)
    (hinv sm List.mem_cons_self) hap

end Run

/-! ## The outcome -/

/-- What `sendRoundResult` does to a message: decrypt it with one revealed key after the other. -/
def RoundInfo.decryptAll (ri : RoundInfo) (mo : Crypto) (m : Msg) : Msg :=
  ri.revealedKeys.foldl (fun m key => mo.decrypt key m) m

/-- At the end all keys have been revealed. -/
theorem Layered.revealedKeys_eq {s : Setup} {env : Env} {mo : Crypto} {r : ℤ} {ri : RoundInfo}
    (h : Layered s env mo r ri) (hI : RoundInv ri) (hph : ri.phase = .done) :
    ri.revealedKeys = ri.participants.map fun id => (s.keys mo id r).revealKey := by
  refine List.ext_getElem? fun p => ?_
  rw [List.getElem?_map]
  rcases hid : ri.participants[p]? with _ | id
  · rw [Option.map_none, List.getElem?_eq_none_iff, hI.keys_length]
    exact List.getElem?_eq_none_iff.1 hid
  · have hlt : p < ri.revealedKeys.length := by
      rw [hI.keys_length]
      exact (List.getElem?_eq_some_iff.1 hid).1
    rw [List.getElem?_eq_getElem hlt]
    rcases h.revealed p id _ hid (List.getElem?_eq_getElem hlt) with hnil | hkey
    · rw [hI.done_keys hph _ (List.getElem_mem hlt)] at hnil
      cases hnil
    · exact congrArg some hkey

theorem Layered.decryptAll_perm {s : Setup} {env : Env} {mo : Crypto} {r : ℤ} {ri : RoundInfo}
    (h : Layered s env mo r ri) (hI : RoundInv ri) (hph : ri.phase = .done) :
    (ri.messages.map (ri.decryptAll mo)).Perm
      (ri.participants.map fun id => newMsg (s.plain mo id r)) := by
  have hrev : RevLayers s mo r ri := (layers_reveal_iff (Or.inr hph)).1 h.layers
  refine (hrev.map _).trans (List.Perm.of_eq ?_)
  rw [List.map_map]
  refine List.map_congr_left fun id _ => ?_
  have := s.foldl_decrypt_layer r h.prime ri.participants 1 id
  rw [one_mul, s.layer_one r h.prime] at this
  rw [Function.comp, RoundInfo.decryptAll, h.revealedKeys_eq hI hph, this]

/-- **Honest rounds are correct.** In every honest run, when a round is done, decrypting its
messages with all revealed keys gives the plaintexts that were submitted, each exactly once. -/
theorem honest_done_perm (s : Setup) (env : Env) {hist : List StateMachine}
    (h : HonestRun (s.conduct env) hist) {sm : StateMachine} (hsm : sm ∈ hist) {r : ℤ}
    {ri : RoundInfo} (hri : sm.getRoundInfo r = .ok ri) (hph : ri.phase = .done) :
    ∃ mo, ri.crypto = some mo ∧ (ri.messages.map (ri.decryptAll mo)).Perm
      (ri.participants.map fun id => newMsg (s.plain mo id r)) := by
  obtain ⟨mo, hL⟩ := (HonestRun.layered h sm hsm r ri hri).layered (by rw [hph]; decide)
    (by rw [hph]; decide)
  have hI := (Reachable.inv (h.leads_of_mem hsm)).roundInv hri
  exact ⟨mo, hL.crypto, hL.decryptAll_perm hI hph⟩

/-- Over the prime 7 all exponents are 5, which is its own inverse. -/
def sevenSetup : Setup where
  keys mo _ _ :=
    if mo.getP = 7 then ⟨⟨[5], [5]⟩, ⟨[5], [5]⟩, ⟨[5], [5]⟩⟩
    else ⟨⟨[1], [1]⟩, ⟨[1], [1]⟩, ⟨[1], [1]⟩⟩
  plain mo id _ := if mo.getP = 7 ∧ id = 2 then 4 else 1
  inverts mo id r hP := by
    split_ifs with h
    · rw [h]
      exact ⟨rfl, rfl, rfl⟩
    · exact ⟨rfl, rfl, rfl⟩
  plain_mem mo id r hP := by
    have := hP.two_le
    split_ifs <;> omega

/-- An environment for computed runs. -/
def plainEnv : Env := ⟨firstBytes, fun n => decide n.Prime, true⟩

/-- A round of two participants after all of it. -/
def sevenDone : StateMachine where
  round := 1
  rounds := ![{
    phase := .done
    crypto := some ⟨[7]⟩
    participants := [1, 2]
    messages := [⟨[1]⟩, ⟨[4]⟩]
    encrypted := [true, true]
    scrambled := [true, true]
    decrypted := [true, true]
    revealedKeys := [⟨[5], [5]⟩, ⟨[5], [5]⟩]
    revealKeyHashes := [PrivateKey.hash plainEnv ⟨[5], [5]⟩, PrivateKey.hash plainEnv ⟨[5], [5]⟩] },
    { phase := .prepare }, {}]

/-- The turns of the two participants that lead there. -/
def sevenTurns : List (Client × Option Crypto) :=
  [(⟨1, 0⟩, none), (⟨2, 0⟩, none), (⟨1, 0⟩, some ⟨[7]⟩), (⟨2, 0⟩, none), (⟨1, 0⟩, none),
    (⟨2, 0⟩, none), (⟨1, 0⟩, none), (⟨1, 0⟩, none), (⟨2, 0⟩, none), (⟨2, 0⟩, none),
    (⟨1, 0⟩, none), (⟨2, 0⟩, none), (⟨1, 0⟩, none)]

theorem honest_done_perm_seven : ∃ hist,
    HonestRun (sevenSetup.conduct plainEnv) (sevenDone :: hist) ∧
    ∃ ri, sevenDone.getRoundInfo 0 = .ok ri ∧ ri.phase = .done ∧ ∃ mo, ri.crypto = some mo ∧
      (ri.messages.map (ri.decryptAll mo)).Perm
        (ri.participants.map fun id => newMsg (sevenSetup.plain mo id 0)) := by
  have hP : ∀ t ∈ sevenTurns, ∀ mo, t.2 = some mo → mo.getP.Prime := by
    intro t ht mo hmo
    have : mo.getP = 7 := by
      revert mo
      revert t
      decide
    rw [this]
    norm_num
  obtain ⟨hist, h⟩ := Conduct.honestRun_of_turns
    (fun _ _ _ _ _ hop => Setup.submits_of_submit hop) ⟨List.reverse, List.reverse_perm⟩
    (History.init : HonestRun (sevenSetup.conduct plainEnv) [newStateMachine]) hP
    (run_of_endsIn (t := sevenDone) (by decide +kernel))
  exact ⟨hist, h, _, rfl, rfl,
    honest_done_perm sevenSetup plainEnv h List.mem_cons_self rfl rfl⟩

end EggScrambler
