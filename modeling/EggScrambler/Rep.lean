import Mathlib
import EggScrambler.Plan

/-!
# The representation invariant

`checkRep` asks for more than `Inv`: one message for every participant, a crypto exactly when the
round has been started, and a key hash exactly where there is a message.  Arbitrary operations can
break all three; in honest runs they hold in every state (`checkRep_of_honestRun`).  A message is
null when it is the integer zero, so the last one rests on the fact that no stack of layers maps a
plaintext to zero.
-/

namespace EggScrambler

open StateMachine Transition

/-- The assertions of `checkRep` that arbitrary operations can break. -/
structure Rep (ri : RoundInfo) : Prop where
  length : ri.messages.length = ri.participants.length
  crypto : ri.phase = .unset ∨ ri.phase = .prepare ∨ ri.phase = .failed ∨ ri.crypto ≠ none
  no_crypto : ri.phase ≠ .prepare ∨ ri.crypto = none
  hashes : ∀ (p : ℕ) (m : Msg) (hash : Bytes), ri.messages[p]? = some m →
    ri.revealKeyHashes[p]? = some hash → (m.isNil = true ↔ hash = [])

theorem IsRun.pred {flags : List Bool} (h : IsRun flags) {i : ℕ} (hi : flags[i]? = some true)
    (h₀ : 0 < i) : flags[i - 1]? = some true := by
  obtain ⟨a, b, rfl⟩ := h
  have hlt : i < a := by
    by_contra hge
    have hlen := (List.getElem?_eq_some_iff.1 hi).1
    rw [List.getElem?_append_right (by simpa using hge)] at hi
    simp [List.getElem?_replicate] at hi
  rw [List.getElem?_append_left (by rw [List.length_replicate]; omega)]
  simp only [List.getElem?_replicate]
  rw [if_pos (by omega)]

/-- Together with `RoundInv` they are all of it. -/
theorem Rep.checkRep {ri : RoundInfo} (h : Rep ri) (hI : RoundInv ri) : ri.checkRep := by
  refine ⟨h.length.symm, (hI.flags_length .encrypt).symm, (hI.flags_length .scramble).symm,
    (hI.flags_length .decrypt).symm, hI.keys_length.symm, hI.hashes_length.symm, h.crypto,
    h.no_crypto, fun i _ h₀ hi => hI.scrambled_run.pred hi h₀, fun i hi j _ hij => ?_,
    fun i hi => ?_⟩
  · exact (List.getElem?_inj hi hI.nodup).1 hij
  · have hi' : i < ri.revealKeyHashes.length := by rwa [hI.hashes_length, ← h.length]
    have := h.hashes i _ _ (List.getElem?_eq_getElem hi) (List.getElem?_eq_getElem hi')
    rw [List.getElem?_eq_getElem hi, List.getElem?_eq_getElem hi']
    simp only [Option.getD_some]
    split_ifs with hnil
    · exact this.1 hnil
    · exact fun he => hnil (this.2 he)

/-! ## Honest rounds -/

section Layered

variable {s : Setup} {env : Env} {mo : Crypto} {r : ℤ} {ri : RoundInfo}

theorem PrivateKey.hash_ne_nil (env : Env) (key : PrivateKey) : key.hash env ≠ [] := by
  intro h
  have := congrArg List.length h
  simp [PrivateKey.hash] at this

/-- Once all messages are in, none of them is null. -/
theorem Layered.isNil_eq_false (h : Layered s env mo r ri) (hord : 2 ≤ phaseOrder ri.phase)
    (hph : ri.phase ≠ .failed) {p : ℕ} {m : Msg} (hm : ri.messages[p]? = some m) :
    m.isNil = false := by
  have hperm : ∀ x, ri.messages.Perm (ri.participants.map (s.layer mo r x)) →
      m.isNil = false := by
    intro x hx
    obtain ⟨id, -, rfl⟩ := List.mem_map.1 (hx.mem_iff.1 (List.mem_of_getElem? hm))
    exact s.isNil_layer r h.prime x id
  have hl := h.layers
  unfold Layers at hl
  split at hl
  · have hlt : p < ri.participants.length := by
      rw [← h.length]
      exact (List.getElem?_eq_some_iff.1 hm).1
    rw [hl p _ (List.getElem?_eq_getElem hlt)] at hm
    cases hm
    exact s.isNil_layer r h.prime _ _
  · exact hperm _ hl
  · exact hperm _ hl
  · exact hperm _ hl
  · exact hperm _ hl
  · rename_i hunset
    rw [hunset] at hord
    exact absurd hord (by decide)
  · rename_i hprep
    rw [hprep] at hord
    exact absurd hord (by decide)
  · rename_i hsub
    rw [hsub] at hord
    exact absurd hord (by decide)
  · rename_i hfail
    exact absurd hfail hph

theorem Layered.rep (h : Layered s env mo r ri) (hord : 1 ≤ phaseOrder ri.phase)
    (hph : ri.phase ≠ .failed) : Rep ri where
  length := h.length
  crypto := by simp [h.crypto]
  no_crypto := by
    left
    intro hprep
    rw [hprep] at hord
    exact absurd hord (by decide)
  hashes p m hash hm hhash := by
    have hlt : p < ri.participants.length := by
      rw [← h.length]
      exact (List.getElem?_eq_some_iff.1 hm).1
    by_cases hsub : ri.phase = .submit
    · rcases h.submitted hsub p _ (List.getElem?_eq_getElem hlt) with ⟨hm', hh'⟩ | ⟨hm', hh'⟩
      · rw [hm] at hm'
        rw [hhash] at hh'
        cases hm'
        cases hh'
        simp
      · rw [hm] at hm'
        rw [hhash] at hh'
        cases hm'
        cases hh'
        simp [s.isNil_layer r h.prime, PrivateKey.hash_ne_nil]
    · have hord' : 2 ≤ phaseOrder ri.phase := by
        rcases hcase : ri.phase <;> simp_all [phaseOrder]
      rw [h.hashes hord' p _ (List.getElem?_eq_getElem hlt)] at hhash
      cases hhash
      simp [h.isNil_eq_false hord' hph hm, PrivateKey.hash_ne_nil]

end Layered

/-! ## Whole runs -/

section Run

variable {s : Setup} {env : Env} {r : ℤ} {ri ri' : RoundInfo}

theorem HonestRound.rep (h : HonestRound s env r ri) (hI : RoundInv ri)
    (hph : ri.phase.Live ∨ ri.phase = .done) : Rep ri := by
  by_cases hprep : ri.phase = .prepare
  · obtain ⟨hcrypto, hhash⟩ := h.prepared hprep
    exact {
      length := hI.messages_length (by rw [hprep]; decide)
      crypto := Or.inr (Or.inl hprep)
      no_crypto := Or.inr hcrypto
      hashes := fun p m hash hm hh => by
        simp [hI.prepare_nil hprep m (List.mem_of_getElem? hm),
          hhash hash (List.mem_of_getElem? hh)] }
  · have hord : 1 ≤ phaseOrder ri.phase ∧ ri.phase ≠ .failed := by
      rcases hph with (hl | hl | hl | hl | hl | hl) | hl <;> simp_all [phaseOrder]
    obtain ⟨mo, hL⟩ := h.layered hord.1 hord.2
    exact hL.rep hord.1 hord.2

/-- Only an abort makes a round fail. -/
theorem Accepts.eq_of_failed {op : Op} (ha : Accepts ri op ri') (hph : ri'.phase = .failed) :
    ri' = { ri with phase := .failed } := by
  rcases ha.finished_cases (Or.inr hph) with ⟨-, hdone⟩ | heq
  · rw [hph] at hdone
    cases hdone
  · exact heq

theorem Accepts.rep {op : Op} (ha : Accepts ri op ri') (hI : RoundInv ri) (h : Rep ri)
    (hround : HonestRound s env r ri') : Rep ri' := by
  rcases ha.live_or_finished with hlive | hdone | hfail
  · exact hround.rep (ha.roundInv hI) (Or.inl hlive)
  · exact hround.rep (ha.roundInv hI) (Or.inr hdone)
  · rw [ha.eq_of_failed hfail]
    exact ⟨h.length, Or.inr (Or.inr (Or.inl rfl)), Or.inl (by simp), h.hashes⟩

/-- An empty round, used or not. -/
theorem Rep.of_empty {ph : Phase} (hph : ph = .unset ∨ ph = .prepare) : Rep { phase := ph } where
  length := rfl
  crypto := by rcases hph with rfl | rfl <;> simp
  no_crypto := Or.inr rfl
  hashes p m hash hm := by simp at hm

theorem HonestRun.rep {hist : List StateMachine} (h : HonestRun (s.conduct env) hist) :
    ∀ sm ∈ hist, ∀ i, Rep (sm.rounds i) := by
  refine h.forall_mem (fun i => ?_) fun sm hist op sm' b hh hall hop hap => ?_
  · fin_cases i
    · exact Rep.of_empty (Or.inr rfl)
    · exact Rep.of_empty (Or.inl rfl)
    · exact Rep.of_empty (Or.inl rfl)
  · have hmem : sm ∈ sm :: hist := List.mem_cons_self
    have hinv : Inv sm := Reachable.inv (hh.leads_of_mem hmem)
    cases b with
    | false =>
      rw [eq_of_apply_false hap]
      exact hall sm hmem
    | true =>
      have hnext := HonestRun.layered (History.next hh hop hap) sm' List.mem_cons_self
      obtain ⟨-, ri', ha, rfl⟩ := apply_true_iff.1 hap
      refine forall_rounds_advance hinv.round_nonneg (hall sm hmem) ?_ (Rep.of_empty (Or.inr rfl))
      refine ha.rep hinv.current ?_
        (hnext sm.round ri' (getRoundInfo_advance_self hinv.round_nonneg))
      rw [currentRoundInfo_eq hinv.round_nonneg]
      exact hall sm hmem _

end Run

/-- `checkRep` holds throughout honest runs. -/
theorem checkRep_of_honestRun (plan : Plan) {env : Env} (hexact : env.Exact)
    {hist : List StateMachine} (h : HonestRun (plan.conduct env) hist) :
    ∀ sm ∈ hist, sm.checkRep := by
  intro sm hsm
  have hinv : Inv sm := Reachable.inv (h.leads_of_mem hsm)
  have hrep := HonestRun.rep (plan.honestRun_setup hexact h) sm hsm
  exact ⟨hinv.round_nonneg, fun i => (hrep i).checkRep (hinv.rounds i)⟩

/-- The messages of `twoPlan`, padded. -/
def pairMessages : List Msg :=
  [⟨[1, 0] ++ List.replicate 8 13 ++ List.replicate 8 7 ++ [65]⟩,
    ⟨[1, 0] ++ List.replicate 8 13 ++ List.replicate 8 9 ++ [66]⟩]

theorem checkRep_of_honestRun_pair : ∃ hist,
    HonestRun (twoPlan.conduct exactEnv) (twoDone pairCrypto pairMessages :: hist) ∧
      (twoDone pairCrypto pairMessages).checkRep := by
  obtain ⟨hist, h⟩ := Conduct.honestRun_of_turns (twoPlan.submits_submit exactEnv)
    ⟨List.reverse, List.reverse_perm⟩
    (History.init : HonestRun (twoPlan.conduct exactEnv) [newStateMachine])
    (starts_twoTurns verify_pairCrypto)
    (run_of_endsIn (t := twoDone pairCrypto pairMessages) (by decide +kernel))
  exact ⟨hist, h, checkRep_of_honestRun twoPlan exactEnv_exact h _ List.mem_cons_self⟩

end EggScrambler
