import Mathlib
import EggScrambler.Plan
import EggScrambler.World

/-!
# Which keys a client uses

Keys are generated in the submit phase only, after the crypto has been verified, but the later
phases use the key variables as they are.  So an operation of a round uses keys of that round
exactly when the client read, active and as a participant, an update of its submit phase whose
crypto passes `Verify` (`usesFreshKeys_iff`).  A participant that is not active then, while someone
submits a message in its name, goes on with the keys of an earlier round or with none at all
(`not_usesFreshKeys_forged`).
-/

namespace EggScrambler

open StateMachine Transition

/-- The round of a goroutine that adds an `EncryptedOp`, `ScrambledOp`, `DecryptedOp` or
`RevealOp`. -/
def Task.keyedRound : Task → Option ℤ
  | encrypt r .. | scramble r .. | decrypt r .. | reveal r .. => some r
  | sendRoundResult .. | prepare .. | abort .. | submit .. => none

/-- The keys that a goroutine was handed are those of the triple. -/
def Task.Uses (keys : Keys) : Task → Prop
  | encrypt _ _ _ encryptKey => encryptKey = keys.encryptKey
  | scramble _ _ _ scrambleKey revealKey =>
    scrambleKey = keys.scrambleKey ∧ revealKey = keys.revealKey
  | decrypt _ _ _ scrambleKey encryptKey =>
    scrambleKey = keys.scrambleKey ∧ encryptKey = keys.encryptKey
  | reveal _ _ _ revealKey => revealKey = keys.revealKey
  | submit _ _ _ encryptKey revealKey =>
    encryptKey = keys.encryptKey ∧ revealKey = keys.revealKey
  | sendRoundResult .. | prepare .. | abort .. => True

/-- The keys of `t` were generated by the client in round `r`, under a crypto that passed `Verify`.
-/
def UsesFreshKeys (env : Env) (c : Client) (s : Session) (t : Task) (r : ℤ) : Prop :=
  ∃ g ∈ s.generated, g.round = r ∧ g.crypto.verify env (c.messageSize + 16) = .ok () ∧
    (∃ draws, g.crypto.genKeys draws = some g.keys) ∧ t.Uses g.keys

/-- The client, active and a participant, read an update of a submit phase whose crypto it accepts.
-/
def AcceptsCrypto (env : Env) (c : Client) (v : Read) : Prop :=
  v.sm.currentRoundInfo.phase = .submit ∧ c.business v.active v.sm ≠ none ∧
    ∃ mo, v.sm.currentRoundInfo.crypto = some mo ∧ mo.verify env (c.messageSize + 16) = .ok ()

instance (env : Env) (c : Client) (v : Read) : Decidable (AcceptsCrypto env c v) :=
  decidable_of_iff (v.sm.currentRoundInfo.phase = .submit ∧ c.business v.active v.sm ≠ none ∧
      ∃ mo ∈ v.sm.currentRoundInfo.crypto, mo.verify env (c.messageSize + 16) = .ok ())
    Iff.rfl

/-! ## One turn -/

section Turn

variable {env : Env} {c : Client} {active : Bool} {draws : Draws} {rd : Reader} {v : StateMachine}
  {a : Reaction}

/-- Either no keys are generated, and the keys of an accepted update are there already, or the keys
are those that are generated now. -/
theorem Reads.keys_cases (h : Reads env c active draws rd v a) :
    a.generated = none ∧ a.reader.keys = rd.keys ∧ a.reader.lastKeyGen = rd.lastKeyGen ∧
        (AcceptsCrypto env c ⟨v, active⟩ → v.round ≤ rd.lastKeyGen) ∨
      ∃ mo keys, a.generated = some ⟨v.round, mo, keys⟩ ∧ a.reader.keys = keys ∧
        a.reader.lastKeyGen = v.round ∧ AcceptsCrypto env c ⟨v, active⟩ ∧
        v.currentRoundInfo.crypto = some mo ∧ mo.verify env (c.messageSize + 16) = .ok () ∧
        mo.genKeys draws = some keys := by
  -- outside the submit phase nothing is accepted
  have hother : v.currentRoundInfo.phase ≠ .submit →
      AcceptsCrypto env c ⟨v, active⟩ → v.round ≤ rd.lastKeyGen := fun hne hacc => absurd hacc.1 hne
  cases h with
  | result hph hp hlast => exact Or.inl ⟨rfl, rfl, rfl, hother (by rw [hph]; decide)⟩
  | prepare hph hp hlast => exact Or.inl ⟨rfl, rfl, rfl, hother (by rw [hph]; decide)⟩
  | idle hph hidle =>
    refine Or.inl ⟨rfl, rfl, rfl, fun hacc => ?_⟩
    have hsub : v.currentRoundInfo.phase = .submit := hacc.1
    rcases hidle (Or.inr (Or.inl hsub)) with hnone | ⟨hscr, -⟩
    · exact absurd hnone hacc.2.1
    · rw [hsub] at hscr
      cases hscr
  | refuse hph hme hmo =>
    refine Or.inl ⟨rfl, rfl, rfl, fun hacc => ?_⟩
    obtain ⟨-, -, mo, hmo', hv⟩ := hacc
    exact absurd hv (hmo mo hmo')
  | @generate me mo keys hph hme hlast hmo hv hk =>
    refine Or.inr ⟨mo, keys, rfl, ?_, ?_, ⟨hph, ?_, mo, hmo, hv⟩, hmo, hv, hk⟩
    · rw [Reader.submitOnce_frame]
    · rw [Reader.submitOnce_frame]
    · change c.business active v ≠ none
      rw [hme]
      exact Option.some_ne_none me
  | submit hph hme hlast =>
    refine Or.inl ⟨Reader.submitOnce_generated _ _ _, ?_, ?_, fun _ => hlast⟩
    · rw [Reader.submitOnce_frame]
    · rw [Reader.submitOnce_frame]
  | encrypt hph hme => exact Or.inl ⟨rfl, rfl, rfl, hother (by rw [hph]; decide)⟩
  | scramble hph hme hlast hturn => exact Or.inl ⟨rfl, rfl, rfl, hother (by rw [hph]; decide)⟩
  | decrypt hph hme => exact Or.inl ⟨rfl, rfl, rfl, hother (by rw [hph]; decide)⟩
  | reveal hph hme =>
    refine Or.inl ⟨rfl, ?_, ?_, hother (by rw [hph]; decide)⟩
    · rw [Reader.remember_frame]
    · rw [Reader.remember_frame]

/-- A goroutine that needs keys is started after the submit phase, with the keys as they are. -/
theorem Reads.uses_of_mem (h : Reads env c active draws rd v a) {t : Task} (ht : t ∈ a.tasks)
    {r : ℤ} (hr : t.keyedRound = some r) :
    r = v.round ∧ 2 ≤ phaseOrder v.currentRoundInfo.phase ∧ t.Uses rd.keys := by
  cases h with
  | result hph hp hlast =>
    rcases List.mem_cons.1 ht with rfl | ht
    · cases hr
    · obtain ⟨me, rfl⟩ := hp t ht
      cases hr
  | prepare hph hp hlast =>
    obtain ⟨me, rfl⟩ := hp t ht
    cases hr
  | idle hph hidle => cases ht
  | refuse hph hme hmo =>
    rw [List.mem_singleton.1 ht] at hr
    cases hr
  | generate hph hme hlast hmo hv hk =>
    rw [Reader.eq_of_mem_submitOnce ht] at hr
    cases hr
  | submit hph hme hlast =>
    rw [Reader.eq_of_mem_submitOnce ht] at hr
    cases hr
  | encrypt hph hme =>
    rw [List.mem_singleton.1 ht] at hr ⊢
    exact ⟨(Option.some.inj hr).symm, by rw [hph]; decide, rfl⟩
  | scramble hph hme hlast hturn =>
    rw [List.mem_singleton.1 ht] at hr ⊢
    exact ⟨(Option.some.inj hr).symm, by rw [hph]; decide, rfl, rfl⟩
  | decrypt hph hme =>
    rw [List.mem_singleton.1 ht] at hr ⊢
    exact ⟨(Option.some.inj hr).symm, by rw [hph]; decide, rfl, rfl⟩
  | reveal hph hme =>
    rw [List.mem_singleton.1 ht] at hr ⊢
    exact ⟨(Option.some.inj hr).symm, by rw [hph]; decide, rfl⟩

end Turn

/-! ## Whole sessions -/

/-- The submit phase of round `r` is over. -/
def Past (sm : StateMachine) (r : ℤ) : Prop :=
  r < sm.round ∨ r = sm.round ∧ 2 ≤ phaseOrder sm.currentRoundInfo.phase

theorem Past.mono {sm v : StateMachine} {r : ℤ} (h : Past sm r) (hf : Follows sm v) (hv : Inv v) :
    Past v r := by
  have hle := hf.round_le
  rcases h with hlt | ⟨rfl, hord⟩
  · exact Or.inl (by omega)
  · rcases hle.lt_or_eq with hlt | heq
    · exact Or.inl hlt
    · exact Or.inr ⟨heq, hord.trans (hf.later_of_round_eq hv.round_nonneg heq.symm).order⟩

/-- The keys of a session. -/
structure KeyInv (env : Env) (c : Client) (s : Session) : Prop where
  bound : s.reader.lastKeyGen ≤ s.reader.lastSm.round
  accepted : ∀ v ∈ s.reads, AcceptsCrypto env c v → v.sm.round ≤ s.reader.lastKeyGen
  keys : 0 ≤ s.reader.lastKeyGen →
    ∃ g ∈ s.generated, g.round = s.reader.lastKeyGen ∧ g.keys = s.reader.keys
  generated : ∀ g ∈ s.generated, g.crypto.verify env (c.messageSize + 16) = .ok () ∧
    (∃ draws, g.crypto.genKeys draws = some g.keys) ∧
    ∃ v ∈ s.reads, AcceptsCrypto env c v ∧ v.sm.round = g.round
  past : ∀ t ∈ s.tasks, ∀ r, t.keyedRound = some r → Past s.reader.lastSm r
  fresh : ∀ t ∈ s.tasks, ∀ r, t.keyedRound = some r →
    (∃ v ∈ s.reads, AcceptsCrypto env c v ∧ v.sm.round = r) →
    ∃ g ∈ s.generated, g.round = r ∧ t.Uses g.keys

namespace KeyInv

variable {env : Env} {c : Client} {s : Session}

theorem init : KeyInv env c {} where
  bound := by decide
  accepted v hv := by cases hv
  keys h := absurd h (by decide)
  generated g hg := by cases hg
  past t ht := by cases ht
  fresh t ht := by cases ht

/-- Configuration updates start no goroutine that needs keys. -/
theorem configure (h : KeyInv env c s) (active leaving : Bool) (stored : ℕ) :
    KeyInv env c (s.configure c active leaving stored) := by
  have hold : ∀ t ∈ (s.configure c active leaving stored).tasks, ∀ r, t.keyedRound = some r →
      t ∈ s.tasks := by
    intro t ht r hr
    rcases List.mem_append.1 ht with ht | ht
    · obtain ⟨me, rfl⟩ := Reader.eq_of_mem_prepares ht
      cases hr
    · exact ht
  exact {
    bound := h.bound
    accepted := h.accepted
    keys := h.keys
    generated := h.generated
    past := fun t ht r hr => h.past t (hold t ht r hr) r hr
    fresh := fun t ht r hr => h.fresh t (hold t ht r hr) r hr }

/-- After the submit phase of a round, no update of the round is accepted any more. -/
theorem not_acceptsCrypto {v : StateMachine} {active : Bool} {r : ℤ} (h : Past v r)
    (hr : v.round = r) : ¬ AcceptsCrypto env c ⟨v, active⟩ := by
  intro hacc
  have hsub : v.currentRoundInfo.phase = .submit := hacc.1
  rcases h with hlt | ⟨-, hord⟩
  · omega
  · rw [hsub] at hord
    exact absurd hord (by decide)

section Read

variable {v : StateMachine} {active : Bool} {draws : Draws} {a : Reaction}

theorem bound_read (h : KeyInv env c s) (hv : s.Next v)
    (ha : Reads env c active draws s.reader v a) : a.reader.lastKeyGen ≤ v.round := by
  have hround := hv.follows.round_le
  have hbound := h.bound
  rcases ha.keys_cases with ⟨-, -, hl, -⟩ | ⟨mo, keys, -, -, hl, -⟩
  · omega
  · exact hl.le

/-- An update whose crypto is accepted has keys generated. -/
theorem accepted_read (h : KeyInv env c s) (hv : s.Next v)
    (ha : Reads env c active draws s.reader v a) :
    ∀ x ∈ (s.react ⟨v, active⟩ a).reads, AcceptsCrypto env c x →
      x.sm.round ≤ a.reader.lastKeyGen := by
  have hround := hv.follows.round_le
  have hbound := h.bound
  intro x hx hxacc
  rcases List.mem_cons.1 hx with rfl | hx
  · rcases ha.keys_cases with ⟨-, -, hl, hacc⟩ | ⟨mo, keys, -, -, hl, -⟩
    · rw [hl]
      exact hacc hxacc
    · exact hl.ge
  · have hold := h.accepted x hx hxacc
    rcases ha.keys_cases with ⟨-, -, hl, -⟩ | ⟨mo, keys, -, -, hl, -⟩ <;> omega

/-- The keys in use are those that were generated last. -/
theorem keys_read (h : KeyInv env c s) (ha : Reads env c active draws s.reader v a)
    (h₀ : 0 ≤ a.reader.lastKeyGen) : ∃ g ∈ (s.react ⟨v, active⟩ a).generated,
      g.round = a.reader.lastKeyGen ∧ g.keys = a.reader.keys := by
  rw [Session.generated_react]
  rcases ha.keys_cases with ⟨hg, hk, hl, -⟩ | ⟨mo, keys, hg, hk, hl, -⟩
  · rw [hl] at h₀
    rw [hg, hk, hl]
    exact h.keys h₀
  · rw [hg, hk, hl]
    exact ⟨_, List.mem_cons_self, rfl, rfl⟩

theorem generated_read (h : KeyInv env c s) (ha : Reads env c active draws s.reader v a) :
    ∀ g ∈ (s.react ⟨v, active⟩ a).generated, g.crypto.verify env (c.messageSize + 16) = .ok () ∧
      (∃ draws, g.crypto.genKeys draws = some g.keys) ∧
      ∃ x ∈ (s.react ⟨v, active⟩ a).reads, AcceptsCrypto env c x ∧ x.sm.round = g.round := by
  have hold : ∀ g ∈ s.generated, g.crypto.verify env (c.messageSize + 16) = .ok () ∧
      (∃ draws, g.crypto.genKeys draws = some g.keys) ∧
      ∃ x ∈ (s.react ⟨v, active⟩ a).reads, AcceptsCrypto env c x ∧ x.sm.round = g.round := by
    intro g hg
    obtain ⟨hver, hk, x, hx, hacc⟩ := h.generated g hg
    exact ⟨hver, hk, x, List.mem_cons_of_mem _ hx, hacc⟩
  intro g hmem
  rw [Session.generated_react] at hmem
  rcases ha.keys_cases with ⟨hg, -⟩ | ⟨mo, keys, hg, -, -, hacc, -, hver, hgk⟩
  · rw [hg] at hmem
    exact hold g hmem
  · rw [hg] at hmem
    rcases List.mem_cons.1 hmem with rfl | hmem
    · exact ⟨hver, ⟨draws, hgk⟩, _, List.mem_cons_self, hacc, rfl⟩
    · exact hold g hmem

theorem past_read (h : KeyInv env c s) (hv : s.Next v)
    (ha : Reads env c active draws s.reader v a) {t : Task}
    (ht : t ∈ (s.react ⟨v, active⟩ a).tasks) {r : ℤ} (hr : t.keyedRound = some r) : Past v r := by
  rcases List.mem_append.1 ht with ht | ht
  · obtain ⟨rfl, hord, -⟩ := ha.uses_of_mem ht hr
    exact Or.inr ⟨rfl, hord⟩
  · exact (h.past t ht r hr).mono hv.follows hv.view.inv

/-- A goroutine that is started now uses the keys of its round, if there are any; what is accepted
now comes too late for the others. -/
theorem fresh_read (h : KeyInv env c s) (hv : s.Next v)
    (ha : Reads env c active draws s.reader v a) {t : Task}
    (ht : t ∈ (s.react ⟨v, active⟩ a).tasks) {r : ℤ} (hr : t.keyedRound = some r)
    (hacc : ∃ x ∈ (s.react ⟨v, active⟩ a).reads, AcceptsCrypto env c x ∧ x.sm.round = r) :
    ∃ g ∈ (s.react ⟨v, active⟩ a).generated, g.round = r ∧ t.Uses g.keys := by
  have hold : ∃ x ∈ s.reads, AcceptsCrypto env c x ∧ x.sm.round = r := by
    obtain ⟨x, hx, hacc, hxr⟩ := hacc
    rcases List.mem_cons.1 hx with rfl | hx
    · exact absurd hacc (not_acceptsCrypto (h.past_read hv ha ht hr) hxr)
    · exact ⟨x, hx, hacc, hxr⟩
  rcases List.mem_append.1 ht with ht | ht
  · obtain ⟨rfl, -, huses⟩ := ha.uses_of_mem ht hr
    obtain ⟨x, hx, hacc, hxr⟩ := hold
    have hle := h.accepted x hx hacc
    have hbound := h.bound
    have hround := hv.follows.round_le
    have h₀ := hv.view.inv.round_nonneg
    obtain ⟨g, hg, hgr, hgk⟩ := h.keys (by omega)
    exact ⟨g, List.mem_append_right _ hg, by omega, hgk ▸ huses⟩
  · obtain ⟨g, hg, hgr, huses⟩ := h.fresh t ht r hr hold
    exact ⟨g, List.mem_append_right _ hg, hgr, huses⟩

/-- Keys are drawn only for a later round, and goroutines use those of their round. -/
theorem read (h : KeyInv env c s) (hv : s.Next v) (ha : Reads env c active draws s.reader v a) :
    KeyInv env c (s.react ⟨v, active⟩ a) where
  bound := by
    rw [Session.reader_react, ha.lastSm]
    exact h.bound_read hv ha
  accepted := h.accepted_read hv ha
  keys := h.keys_read ha
  generated := h.generated_read ha
  past t ht r hr := by
    rw [Session.reader_react, ha.lastSm]
    exact h.past_read hv ha ht hr
  fresh t ht r hr := h.fresh_read hv ha ht hr

end Read

theorem of_reachable {w : World} (h : World.Reachable env c w) : KeyInv env c w.session :=
  World.session_induction init (fun _ _ _ _ _ hs hv ha => hs.read hv ha)
    (fun _ active leaving stored hs => hs.configure active leaving stored) h

end KeyInv

/-- **Key hygiene.** For every log, every interleaving and every order of the goroutines: an
operation for round `r` uses keys that were generated in that round, under a crypto that passed
`Verify`, exactly when the client read, active and as a participant, an update of the round's
submit phase whose crypto passes `Verify`. -/
theorem usesFreshKeys_iff {env : Env} {c : Client} {w : World} (h : World.Reachable env c w)
    {t : Task} (ht : t ∈ w.session.tasks) {r : ℤ} (hr : t.keyedRound = some r) :
    UsesFreshKeys env c w.session t r ↔
      ∃ v ∈ w.session.reads, AcceptsCrypto env c v ∧ v.sm.round = r := by
  have hinv := KeyInv.of_reachable h
  constructor
  · rintro ⟨g, hg, rfl, -⟩
    exact (hinv.generated g hg).2.2
  · intro hacc
    obtain ⟨g, hg, hgr, huses⟩ := hinv.fresh t ht r hr hacc
    obtain ⟨hv, hk, -⟩ := hinv.generated g hg
    exact ⟨g, hg, hgr, hv, hk, huses⟩

/-- A client follows a round up to its encrypt phase. -/
def followedActions : List Action :=
  [.subscribe, .commit (.join 1 0), .commit (.start 1 0 (some headerCrypto)),
    .commit (.message 1 0 ⟨[3]⟩ [9])] ++ List.replicate 4 (.read true false ⟨[0], [0], [0]⟩)

/-- The round that the client then encrypts. -/
def followedRound : RoundInfo where
  phase := .encrypt
  crypto := some headerCrypto
  participants := [1]
  messages := [⟨[3]⟩]
  encrypted := [false]
  scrambled := [false]
  decrypted := [false]
  revealedKeys := [nilPrivateKey]
  revealKeyHashes := [[9]]

theorem usesFreshKeys_iff_followed : ∃ w, World.Reachable exactEnv ⟨1, 0⟩ w ∧
    ∃ t ∈ w.session.tasks, t.keyedRound = some 0 ∧
      UsesFreshKeys exactEnv ⟨1, 0⟩ w.session t 0 := by
  obtain ⟨w, hw, htest⟩ : ∃ w, run (World.step exactEnv ⟨1, 0⟩) {} followedActions = .ok w ∧
      decide (Task.encrypt 0 followedRound 0 ⟨[1], [1]⟩ ∈ w.session.tasks ∧
        ∃ v ∈ w.session.reads, AcceptsCrypto exactEnv ⟨1, 0⟩ v ∧ v.sm.round = 0) = true :=
    exists_of_endsWith (by decide +kernel)
  obtain ⟨ht, hacc⟩ := of_decide_eq_true htest
  exact ⟨w, ⟨_, hw⟩, _, ht, rfl, (usesFreshKeys_iff ⟨_, hw⟩ ht rfl).2 hacc⟩

/-- The client is not active in the submit phase, in which someone else submits a message in its
name; then it is active again. -/
def forgedActions : List Action :=
  [.subscribe, .commit (.join 1 0), .commit (.join 2 0), .commit (.start 2 0 (some ⟨[7]⟩)),
    .commit (.message 1 0 ⟨[3]⟩ [9]), .commit (.message 2 0 ⟨[5]⟩ [8])] ++
  List.replicate 3 (.read true false ⟨[], [], []⟩) ++
  List.replicate 2 (.read false false ⟨[], [], []⟩) ++ [.read true false ⟨[], [], []⟩]

/-- The round that the client then encrypts. -/
def forgedRound : RoundInfo where
  phase := .encrypt
  crypto := some ⟨[7]⟩
  participants := [1, 2]
  messages := [⟨[3]⟩, ⟨[5]⟩]
  encrypted := [false, false]
  scrambled := [false, false]
  decrypted := [false, false]
  revealedKeys := [nilPrivateKey, nilPrivateKey]
  revealKeyHashes := [[9], [8]]

/-- It uses the zero value as its key, which replaces the other message by 1. -/
theorem not_usesFreshKeys_forged :
    (∃ w, World.Reachable plainEnv ⟨1, 0⟩ w ∧ ∃ t ∈ w.session.tasks, t.keyedRound = some 0 ∧
      (∀ chance, t.op plainEnv ⟨1, 0⟩ chance = .ok (some (.encrypted 1 0 [⟨[3]⟩, ⟨[1]⟩] 0))) ∧
      ¬ UsesFreshKeys plainEnv ⟨1, 0⟩ w.session t 0) ∧
    ¬ ∀ (env : Env) (c : Client) (w : World), World.Reachable env c w → ∀ t ∈ w.session.tasks,
      ∀ chance op r, t.op env c chance = .ok (some op) → t.keyedRound = some r →
        UsesFreshKeys env c w.session t r := by
  obtain ⟨w, hw, htest⟩ : ∃ w, run (World.step plainEnv ⟨1, 0⟩) {} forgedActions = .ok w ∧
      decide (Task.encrypt 0 forgedRound 0 nilPrivateKey ∈ w.session.tasks ∧
        w.session.generated = []) = true :=
    exists_of_endsWith (by decide +kernel)
  obtain ⟨ht, hgen⟩ := of_decide_eq_true htest
  have hnot : ¬ UsesFreshKeys plainEnv ⟨1, 0⟩ w.session
      (.encrypt 0 forgedRound 0 nilPrivateKey) 0 := by
    rintro ⟨g, hg, -⟩
    rw [hgen] at hg
    cases hg
  have hop : ∀ chance, Task.op plainEnv ⟨1, 0⟩ chance (.encrypt 0 forgedRound 0 nilPrivateKey) =
      .ok (some (.encrypted 1 0 [⟨[3]⟩, ⟨[1]⟩] 0)) := fun _ =>
    (Client.encrypt_eq_some_iff rfl).2 ⟨rfl, by decide +kernel⟩
  refine ⟨⟨w, ⟨_, hw⟩, _, ht, rfl, hop, hnot⟩, fun h => hnot ?_⟩
  have chance : Chance :=
    ⟨[], Vector.replicate 8 0, Vector.replicate 8 0, id, fun _ => List.Perm.refl _⟩
  exact h plainEnv ⟨1, 0⟩ w ⟨_, hw⟩ _ ht chance _ 0 (hop chance) rfl

end EggScrambler
