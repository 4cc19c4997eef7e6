import Mathlib
import EggScrambler.Rep

/-!
# Rounds that differ in who wrote what

Two honest rounds with the same participants, crypto and keys, whose plaintexts are the same but for
who sends which (`Permuted`).  They are `Alike` if they differ in the messages at most, and not even
there once a certain participant `j` has scrambled.

* `Permuted.scrLayers_perm`: while messages are scrambled, the two lists are rearrangements of each
  other, since all messages carry the same layers.
* `Alike.counterpart`: from rounds that are alike a client builds operations that are counterparts.
* `Counterpart.accepts`, `Counterpart.alike`: counterparts are accepted alike and keep the rounds
  alike.
-/

namespace EggScrambler

open StateMachine Transition ExpCipher

namespace Setup

/-- What client `c` builds from the state `sm`, as the phase dictates. -/
abbrev act (s : Setup) (env : Env) (shuffle : Shuffle) (c : Client) (sm : StateMachine) :
    Option Op :=
  (s.conduct env).act (s.submit env) shuffle c sm

end Setup

/-! ## Two rounds -/

/-- Participant `j` has scrambled. -/
def RoundInfo.HasScrambled (ri : RoundInfo) (j : UUID) : Prop :=
  ∃ p : ℕ, ri.participants[p]? = some j ∧ ri.scrambled[p]? = some true

/-- Two rounds that differ in the messages at most, and not even there once `j` has scrambled. -/
structure Alike (j : UUID) (a b : RoundInfo) : Prop where
  eq : b = { a with messages := b.messages }
  messages : a.HasScrambled j → a.messages = b.messages

namespace Alike

variable {j : UUID} {a b : RoundInfo}

theorem symm (h : Alike j a b) : Alike j b a where
  eq := by rw [h.eq]
  messages hj := by
    rw [h.eq] at hj
    exact (h.messages hj).symm

theorem phase (h : Alike j a b) : b.phase = a.phase := by rw [h.eq]

theorem participants (h : Alike j a b) : b.participants = a.participants := by rw [h.eq]

theorem crypto (h : Alike j a b) : b.crypto = a.crypto := by rw [h.eq]

theorem revealedKeys (h : Alike j a b) : b.revealedKeys = a.revealedKeys := by rw [h.eq]

theorem revealKeyHashes (h : Alike j a b) : b.revealKeyHashes = a.revealKeyHashes := by rw [h.eq]

theorem flags (h : Alike j a b) (st : Stage) : st.flags b = st.flags a := by
  rw [h.eq]
  cases st <;> rfl

theorem participantIndex (h : Alike j a b) (id : UUID) :
    b.participantIndex id = a.participantIndex id := by
  rw [RoundInfo.participantIndex, h.participants]
  rfl

theorem me (h : Alike j a b) (c : Client) : c.me b = c.me a := by
  unfold Client.me
  rw [h.participants]

end Alike

/-- Two rounds with the same keys and the same plaintexts, but for who sends which. -/
structure Permuted (s₁ s₂ : Setup) (mo : Crypto) (r₁ r₂ : ℤ) (ids : List UUID) : Prop where
  keys : ∀ id ∈ ids, s₁.keys mo id r₁ = s₂.keys mo id r₂
  plain : (ids.map fun id => s₁.plain mo id r₁).Perm (ids.map fun id => s₂.plain mo id r₂)

namespace Permuted

variable {s₁ s₂ : Setup} {env : Env} {mo : Crypto} {r₁ r₂ : ℤ} {ids : List UUID}

theorem symm (h : Permuted s₁ s₂ mo r₁ r₂ ids) : Permuted s₂ s₁ mo r₂ r₁ ids :=
  ⟨fun id hid => (h.keys id hid).symm, h.plain.symm⟩

theorem layer_perm (h : Permuted s₁ s₂ mo r₁ r₂ ids) (x : ℕ) :
    (ids.map (s₁.layer mo r₁ x)).Perm (ids.map (s₂.layer mo r₂ x)) := by
  have hperm := h.plain.map fun m => newMsg (m ^ x % mo.getP)
  rwa [List.map_map, List.map_map] at hperm

/-- While the messages are scrambled, those of the two rounds are rearrangements of each other. -/
theorem scrLayers_perm {a b : RoundInfo} {j : UUID} (h : Permuted s₁ s₂ mo r₁ r₂ a.participants)
    (hab : Alike j a b) (ha : ScrLayers s₁ mo r₁ a) (hb : ScrLayers s₂ mo r₂ b) :
    a.messages.Perm b.messages := by
  have henc : a.participants.map (s₁.encryptExp mo r₁) = a.participants.map (s₂.encryptExp mo r₂) :=
    List.map_congr_left fun id hid => by simp only [Setup.encryptExp, h.keys id hid]
  have hscr : ∀ id ∈ a.participants, s₁.scrambleExp mo r₁ id * s₁.revealExp mo r₁ id =
      s₂.scrambleExp mo r₂ id * s₂.revealExp mo r₂ id :=
    fun id hid => by simp only [Setup.scrambleExp, Setup.revealExp, h.keys id hid]
  unfold ScrLayers at ha hb
  rw [hab.participants, show b.scrambled = a.scrambled from hab.flags .scramble, ← henc,
    ← select_congr hscr] at hb
  exact ha.trans ((h.layer_perm _).trans hb.symm)

end Permuted

section Layered

variable {s s₁ s₂ : Setup} {env : Env} {mo mo₁ mo₂ : Crypto} {r r₁ r₂ : ℤ} {ri a b : RoundInfo}

/-- Who has not submitted a hash has not submitted a message. -/
theorem Layered.isNil_iff (h : Layered s env mo r ri) (hph : ri.phase = .submit) {p : ℕ} {id : UUID}
    {m : Msg} (hid : ri.participants[p]? = some id) (hm : ri.messages[p]? = some m) :
    m.isNil = true ↔ ri.revealKeyHashes[p]? = some [] := by
  rcases h.submitted hph p id hid with ⟨hnil, hhash⟩ | ⟨hlayer, hhash⟩
  · rw [hm] at hnil
    cases hnil
    simp [hhash, nilMsg, Msg.isNil]
  · rw [hm] at hlayer
    cases hlayer
    simp [hhash, s.isNil_layer r h.prime, PrivateKey.hash_ne_nil]

/-- The last hash that comes in ends the submit phase. -/
theorem Layered.not_submit (ha : Layered s₁ env mo₁ r₁ a) (hb : Layered s₂ env mo₂ r₂ b)
    (hI : RoundInv a) (hne : a.participants ≠ []) (hparts : b.participants = a.participants)
    (hhash : b.revealKeyHashes = a.revealKeyHashes) (hord : 2 ≤ phaseOrder b.phase) :
    a.phase ≠ .submit := by
  intro hph
  obtain ⟨m, hm, hnil⟩ := hI.submit_nil hph hne
  obtain ⟨p, hp⟩ := List.mem_iff_getElem?.1 hm
  have hlt : p < a.participants.length := by
    rw [← ha.length]
    exact (List.getElem?_eq_some_iff.1 hp).1
  have hid := List.getElem?_eq_getElem hlt
  have hmissing := (ha.isNil_iff hph hid hp).1 hnil
  rw [← hhash, hb.hashes hord p _ (by rw [hparts]; exact hid)] at hmissing
  exact PrivateKey.hash_ne_nil env _ (Option.some.inj hmissing)

theorem HonestRound.not_submit (ha : HonestRound s₁ env r₁ a) (hb : HonestRound s₂ env r₂ b)
    (hI : RoundInv a) (hne : a.participants ≠ []) (hparts : b.participants = a.participants)
    (hhash : b.revealKeyHashes = a.revealKeyHashes) (hph : b.phase = .encrypt) :
    a.phase ≠ .submit := by
  intro hph'
  obtain ⟨mo₁, hL₁⟩ := ha.layered (by rw [hph']; decide) (by rw [hph']; decide)
  obtain ⟨mo₂, hL₂⟩ := hb.layered (by rw [hph]; decide) (by rw [hph]; decide)
  exact hL₁.not_submit hL₂ hI hne hparts hhash (by rw [hph]; decide) hph'

end Layered

/-! ## Counterparts -/

/-- What a client builds in the two rounds, from `a` and from `b`. -/
inductive Counterpart (s₁ s₂ : Setup) (env : Env) (mo : Crypto) (r₁ r₂ : ℤ) (c : Client)
    (sh₁ sh₂ : Shuffle) (a b : RoundInfo) : Op → Op → Prop
  | message : Counterpart s₁ s₂ env mo r₁ r₂ c sh₁ sh₂ a b (s₁.messageOp env mo c.id r₁)
      (s₂.messageOp env mo c.id r₂)
  | work (st : Stage) {keys : Keys} (me : ℕ) (prev : ℤ) (h₁ : s₁.keys mo c.id r₁ = keys)
      (h₂ : s₂.keys mo c.id r₂ = keys) : Counterpart s₁ s₂ env mo r₁ r₂ c sh₁ sh₂ a b
        (st.op c.id r₁ (st.work mo keys sh₁ me a.messages) prev)
        (st.op c.id r₂ (st.work mo keys sh₂ me b.messages) prev)
  | reveal (key : PrivateKey) :
      Counterpart s₁ s₂ env mo r₁ r₂ c sh₁ sh₂ a b (.reveal c.id r₁ key) (.reveal c.id r₂ key)

section Counterpart

variable {s₁ s₂ : Setup} {env : Env} {mo : Crypto} {r₁ r₂ : ℤ} {c : Client} {sh₁ sh₂ : Shuffle}
  {a b a₀ b₀ a' b' : RoundInfo} {j : UUID} {op₁ op₂ : Op}

theorem Counterpart.symm (h : Counterpart s₁ s₂ env mo r₁ r₂ c sh₁ sh₂ a b op₁ op₂) :
    Counterpart s₂ s₁ env mo r₂ r₁ c sh₂ sh₁ b a op₂ op₁ := by
  cases h with
  | message => exact .message
  | work st me prev h₁ h₂ => exact .work st me prev h₂ h₁
  | reveal key => exact .reveal key

theorem Counterpart.round (h : Counterpart s₁ s₂ env mo r₁ r₂ c sh₁ sh₂ a b op₁ op₂) :
    op₁.round = r₁ ∧ op₂.round = r₂ := by
  cases h with
  | message => exact ⟨rfl, rfl⟩
  | work st => exact ⟨st.round_op .., st.round_op ..⟩
  | reveal key => exact ⟨rfl, rfl⟩

/-- What is sent when `c` scrambles. -/
theorem Counterpart.of_scrambled {id : UUID} {r : ℤ} {messages : List Msg}
    (h : Counterpart s₁ s₂ env mo r₁ r₂ c sh₁ sh₂ a b (.scrambled id r messages) op₂) :
    id = c.id ∧ messages = Stage.work .scramble mo (s₁.keys mo c.id r₁) sh₁ 0 a.messages ∧
      op₂ = .scrambled c.id r₂
        (Stage.work .scramble mo (s₁.keys mo c.id r₁) sh₂ 0 b.messages) := by
  generalize hop : Op.scrambled id r messages = op₁ at h
  cases h with
  | message => cases hop
  | work st me prev h₁ h₂ =>
    subst h₁
    cases st <;> cases hop
    exact ⟨rfl, rfl, rfl⟩
  | reveal key => cases hop

/-- What is built in one round is built in the other. -/
theorem Alike.counterpart {S₁ S₂ : StateMachine}
    (hp : Permuted s₁ s₂ mo S₁.round S₂.round S₁.currentRoundInfo.participants)
    (h : Alike j S₁.currentRoundInfo S₂.currentRoundInfo)
    (h₁ : Layered s₁ env mo S₁.round S₁.currentRoundInfo)
    (h₂ : Layered s₂ env mo S₂.round S₂.currentRoundInfo) (hI : RoundInv S₁.currentRoundInfo)
    (hord : 1 ≤ phaseOrder S₁.currentRoundInfo.phase) (hact : s₁.act env sh₁ c S₁ = some op₁) :
    ∃ op₂, s₂.act env sh₂ c S₂ = some op₂ ∧ Counterpart s₁ s₂ env mo S₁.round S₂.round c sh₁ sh₂
      S₁.currentRoundInfo S₂.currentRoundInfo op₁ op₂ := by
  have hid : ∀ {me}, c.me S₁.currentRoundInfo = some me →
      S₁.currentRoundInfo.participants[me]? = some c.id := fun hme =>
    RoundInfo.participantIndex_eq_some ((Client.me_eq_participantIndex hI.nodup).symm.trans hme)
  have hkeys : ∀ {mo' keys me}, c.me S₁.currentRoundInfo = some me →
      S₁.currentRoundInfo.crypto = some mo' → (s₁.conduct env).keys mo' c.id S₁.round = some keys →
      mo' = mo ∧ (s₂.conduct env).keys mo c.id S₂.round = some keys := by
    intro mo' keys me hme hmo hk
    obtain rfl : mo = mo' := Option.some.inj (h₁.crypto.symm.trans hmo)
    cases hk
    exact ⟨rfl, congrArg some (hp.keys c.id (List.mem_of_getElem? (hid hme))).symm⟩
  cases Conduct.Offers.of_act hord hact with
  | @submit me op hph hme hop =>
    obtain ⟨⟨m, hm, hnil⟩, mo', hmo', rfl⟩ := Setup.submits_of_submit hop
    obtain rfl : mo = mo' := Option.some.inj (h₁.crypto.symm.trans hmo')
    have hid₂ : S₂.currentRoundInfo.participants[me]? = some c.id := by
      rw [h.participants]
      exact hid hme
    -- the message is null in both rounds, as the hash is missing in both
    have hlt : me < S₂.currentRoundInfo.messages.length := by
      rw [h₂.length]
      exact (List.getElem?_eq_some_iff.1 hid₂).1
    have hnil₂ := (h₂.isNil_iff (h.phase.trans hph) hid₂ (List.getElem?_eq_getElem hlt)).2
      (h.revealKeyHashes ▸ (h₁.isNil_iff hph (hid hme) hm).1 hnil)
    have hsubmit : s₂.submit env c S₂.round S₂.currentRoundInfo me =
        some (s₂.messageOp env mo c.id S₂.round) := by
      rw [Setup.submit, List.getElem?_eq_getElem hlt, Option.map_some, hnil₂, if_pos rfl,
        h₂.crypto]
      rfl
    exact ⟨_, (Conduct.Offers.submit (h.phase.trans hph) ((h.me c).trans hme) hsubmit).act_eq,
      .message⟩
  | @work st me mo' keys hph hme hmo hk hturn hf =>
    obtain ⟨rfl, hk₂⟩ := hkeys hme hmo hk
    have hoffer : (s₂.conduct env).Offers (s₂.submit env) sh₂ c S₂ _ :=
      .work st (h.phase.trans hph) ((h.me c).trans hme) h₂.crypto hk₂
        (fun hst => (hturn hst).trans (congrArg numTrue (h.flags .scramble)).symm)
        (by rw [h.flags]; exact hf)
    rw [h.flags st] at hoffer
    exact ⟨_, hoffer.act_eq, .work st me _ (Option.some.inj hk) (Option.some.inj hk₂)⟩
  | @reveal me mo' keys key hph hme hmo hk hkey hnil =>
    obtain ⟨rfl, hk₂⟩ := hkeys hme hmo hk
    exact ⟨_, (Conduct.Offers.reveal (h.phase.trans hph) ((h.me c).trans hme) h₂.crypto hk₂
      (by rw [h.revealedKeys]; exact hkey) hnil).act_eq, .reveal _⟩

/-- What is accepted in one round is accepted in the other. -/
theorem Counterpart.accepts (hc : Counterpart s₁ s₂ env mo r₁ r₂ c sh₁ sh₂ a₀ b₀ op₁ op₂)
    (h : Alike j a b) (hI : RoundInv b) (ha : Accepts a op₁ a') : ∃ b', Accepts b op₂ b' := by
  cases hc with
  | message =>
    obtain ⟨hph, p, hp, -⟩ := Accepts.of_message ha
    have hp₂ := (h.participantIndex c.id).trans hp
    have hlt := RoundInfo.participantIndex_lt hp₂
    exact ⟨_, .message (h.phase.trans hph) hp₂
      (hI.messages_length (by rw [h.phase, hph]; decide) ▸ hlt) (hI.hashes_length ▸ hlt)⟩
  | work st me prev =>
    obtain ⟨hph, p, hp, hn, hf, -⟩ := Accepts.of_op st prev ha
    exact ⟨_, .transform st prev (h.phase.trans hph) ((h.participantIndex c.id).trans hp)
      (by rw [h.flags]; exact hn) (by rw [h.flags]; exact hf)⟩
  | reveal key =>
    obtain ⟨hph, p, hp, hlt, -⟩ := ha.of_reveal
    exact ⟨_, .reveal (h.phase.trans hph) ((h.participantIndex c.id).trans hp)
      (by rw [h.revealedKeys]; exact hlt)⟩

/-- A list operation raises the flag of `j` only if `j` scrambles. -/
theorem RoundInfo.HasScrambled.of_install {st : Stage} {p : ℕ} {id : UUID} {messages : List Msg}
    (hp : a.participantIndex id = some p) (h : (a.install st p messages).HasScrambled j) :
    a.HasScrambled j ∨ st = .scramble ∧ id = j := by
  obtain ⟨q, hq, hf⟩ := h
  rw [(a.install_frame st p messages).1] at hq
  by_cases hst : st = .scramble
  · subst hst
    change (a.scrambled.set p true)[q]? = some true at hf
    by_cases hpq : p = q
    · subst hpq
      exact Or.inr ⟨rfl, Option.some.inj ((participantIndex_eq_some hp).symm.trans hq)⟩
    · rw [List.getElem?_set_ne hpq] at hf
      exact Or.inl ⟨q, hq, hf⟩
  · have hflags : (a.install st p messages).scrambled = a.scrambled :=
      a.flags_install_ne st (Ne.symm hst) p messages
    exact Or.inl ⟨q, hq, hflags ▸ hf⟩

theorem RoundInfo.phase_putMessage (p : ℕ) (msg : Msg) (hash : Bytes) :
    (a.putMessage p msg hash).phase = a.phase ∨ (a.putMessage p msg hash).phase = .encrypt := by
  unfold putMessage
  split_ifs
  · exact Or.inl rfl
  · exact Or.inr rfl

/-- The submit phase ends in both rounds or in none. -/
theorem phase_putMessage_eq {p : ℕ} {m₁ m₂ : Msg} {hash : Bytes} (h : Alike j a b)
    (hph : a.phase = .submit) (hp : p < a.participants.length)
    (hI₁ : RoundInv (a.putMessage p m₁ hash)) (hI₂ : RoundInv (b.putMessage p m₂ hash))
    (h₁ : HonestRound s₁ env r₁ (a.putMessage p m₁ hash))
    (h₂ : HonestRound s₂ env r₂ (b.putMessage p m₂ hash)) :
    (b.putMessage p m₂ hash).phase = (a.putMessage p m₁ hash).phase := by
  have hparts : (b.putMessage p m₂ hash).participants = (a.putMessage p m₁ hash).participants :=
    h.participants
  have hhash : (b.putMessage p m₂ hash).revealKeyHashes =
      (a.putMessage p m₁ hash).revealKeyHashes := congrArg (List.set · p hash) h.revealKeyHashes
  have hne : a.participants ≠ [] := List.ne_nil_of_length_pos (by omega)
  have hph₁ := a.phase_putMessage p m₁ hash
  have hph₂ := b.phase_putMessage p m₂ hash
  rw [h.phase, hph] at hph₂
  rw [hph] at hph₁
  rcases hph₁ with hph₁ | hph₁ <;> rcases hph₂ with hph₂ | hph₂
  · rw [hph₁, hph₂]
  · exact absurd hph₁ (h₁.not_submit h₂ hI₁ hne hparts hhash hph₂)
  · exact absurd hph₂ (h₂.not_submit h₁ hI₂ (hparts ▸ hne) hparts.symm hhash.symm hph₁)
  · rw [hph₁, hph₂]

/-- Nobody aborts. -/
theorem Counterpart.not_failed (hc : Counterpart s₁ s₂ env mo r₁ r₂ c sh₁ sh₂ a₀ b₀ op₁ op₂)
    (ha : Accepts a op₁ a') : a'.phase ≠ .failed := by
  intro hfail
  have heq := ha.eq_of_failed hfail
  subst heq
  cases hc with
  | message =>
    obtain ⟨hph, p, -, heq⟩ := Accepts.of_message ha
    rcases a.phase_putMessage p _ _ with hput | hput <;> rw [← heq] at hput
    · cases hput.trans hph
    · cases hput
  | work st me prev =>
    obtain ⟨hph, p, -, -, -, heq⟩ := Accepts.of_op st prev ha
    exact RoundInfo.install_unfinished hph p _ (Or.inr (congrArg RoundInfo.phase heq.symm))
  | reveal key =>
    obtain ⟨hph, p, -, -, heq⟩ := ha.of_reveal
    have hput := congrArg RoundInfo.phase heq
    simp only [RoundInfo.putKey, hph] at hput
    split_ifs at hput

/-- **One operation.** Accepted in both rounds, counterparts keep them alike, if a list operation
was built from the round as it is and if the list that `j` sends is the same. -/
theorem Counterpart.alike (hc : Counterpart s₁ s₂ env mo r₁ r₂ c sh₁ sh₂ a₀ b₀ op₁ op₂)
    (hkeys : ∀ id ∈ a.participants, s₁.keys mo id r₁ = s₂.keys mo id r₂) (h : Alike j a b)
    (hI₁ : RoundInv a) (hI₂ : RoundInv b) (h₁ : HonestRound s₁ env r₁ a')
    (h₂ : HonestRound s₂ env r₂ b')
    (hfresh₁ : ∀ st id r messages prev, op₁ = Stage.op st id r messages prev → a = a₀)
    (hfresh₂ : ∀ st id r messages prev, op₂ = Stage.op st id r messages prev → b = b₀)
    (hshuffle : c.id ≠ j → sh₂ = sh₁)
    (hj : ∀ ms₁ ms₂, op₁ = .scrambled j r₁ ms₁ → op₂ = .scrambled j r₂ ms₂ → ms₁ = ms₂)
    (ha : Accepts a op₁ a') (hb : Accepts b op₂ b') : Alike j a' b' := by
  have hI₁' := ha.roundInv hI₁
  have hI₂' := hb.roundInv hI₂
  cases hc with
  | message =>
    obtain ⟨hph, p, hp, rfl⟩ := Accepts.of_message ha
    obtain ⟨-, p₂, hp₂, rfl⟩ := Accepts.of_message hb
    obtain rfl : p₂ = p := Option.some.inj (hp₂.symm.trans ((h.participantIndex c.id).trans hp))
    rw [hkeys c.id (List.mem_of_getElem? (RoundInfo.participantIndex_eq_some hp))] at hI₁' h₁ ⊢
    have hphase := phase_putMessage_eq h hph (RoundInfo.participantIndex_lt hp) hI₁' hI₂' h₁ h₂
    refine ⟨?_, fun hscr => ?_⟩
    · rw [h.eq] at hphase ⊢
      simp only [RoundInfo.putMessage] at hphase ⊢
      rw [hphase]
    · -- nobody scrambles in the submit phase
      obtain ⟨q, -, hf⟩ := hscr
      cases hI₁.lowered .scramble (by rw [hph]; decide) true (List.mem_of_getElem? hf)
  | work st me prev =>
    obtain ⟨-, p, hp, -, -, rfl⟩ := Accepts.of_op st prev ha
    obtain ⟨-, p₂, hp₂, -, -, rfl⟩ := Accepts.of_op st prev hb
    obtain rfl : p₂ = p := Option.some.inj (hp₂.symm.trans ((h.participantIndex c.id).trans hp))
    obtain rfl := hfresh₁ st _ _ _ _ rfl
    obtain rfl := hfresh₂ st _ _ _ _ rfl
    refine ⟨?_, fun hscr => ?_⟩
    · rw [h.eq]
      cases st <;> rfl
    · rw [RoundInfo.messages_install, RoundInfo.messages_install]
      by_cases hown : st = .scramble ∧ c.id = j
      · obtain ⟨rfl, rfl⟩ := hown
        exact hj _ _ rfl rfl
      · rw [h.messages ((hscr.of_install hp).resolve_right hown)]
        rcases not_and_or.1 hown with hst | hid
        · cases st with
          | scramble => exact absurd rfl hst
          | encrypt | decrypt => rfl
        · rw [hshuffle hid]
  | reveal key =>
    obtain ⟨-, p, hp, -, rfl⟩ := ha.of_reveal
    obtain ⟨-, p₂, hp₂, -, rfl⟩ := hb.of_reveal
    obtain rfl : p₂ = p := Option.some.inj (hp₂.symm.trans ((h.participantIndex c.id).trans hp))
    refine ⟨?_, h.messages⟩
    rw [h.eq]
    rfl

end Counterpart

end EggScrambler
