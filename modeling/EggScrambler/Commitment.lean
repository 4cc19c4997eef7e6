import Mathlib
import EggScrambler.RoundResult

/-!
# What a reveal key hash commits to

With its message a participant sends the hash of its reveal key, and `sendRoundResult` accepts a
revealed key only if it has this hash.  The hash is taken over the bytes of `E` followed by those of
`D`, without their lengths, so it commits to the concatenation only: the same bytes can be divided
in another way (`commitment_iff`).

SHA-256 has no collision among the byte strings of a set `S`; on all byte strings it cannot be
injective.
-/

namespace EggScrambler

open BigEndian

namespace PrivateKey

variable {env : Env} {S : Set Bytes} {pk₁ pk₂ : PrivateKey}

theorem hashEquals_hash_iff (hinj : Set.InjOn env.sha256 S) (h₁ : pk₁.E ++ pk₁.D ∈ S)
    (h₂ : pk₂.E ++ pk₂.D ∈ S) :
    pk₂.hashEquals env (pk₁.hash env) = true ↔ pk₁.E ++ pk₁.D = pk₂.E ++ pk₂.D := by
  rw [hashEquals_iff, hash, hash, Vector.toList_inj, eq_comm]
  exact hinj.eq_iff h₁ h₂

/-- Moving `Y` from the second string to the first one changes neither number only if it is empty or
all is zero. -/
theorem setBytes_shift_iff (X Y Z : Bytes) :
    setBytes X = setBytes (X ++ Y) ∧ setBytes (Y ++ Z) = setBytes Z ↔
      Y = [] ∨ setBytes X = 0 ∧ setBytes (X ++ Y) = 0 := by
  rw [setBytes_append, setBytes_append]
  have hpos : 0 < 256 ^ Z.length := by positivity
  constructor
  · rintro ⟨hX, hZ⟩
    have hY : setBytes Y = 0 := by
      have : setBytes Y * 256 ^ Z.length = 0 := by omega
      exact (Nat.mul_eq_zero.1 this).resolve_right hpos.ne'
    rw [hY, add_zero] at hX ⊢
    rcases Y.eq_nil_or_concat with hnil | ⟨Y', y, hY'⟩
    · exact Or.inl hnil
    · right
      have hlt : 1 < 256 ^ Y.length := Nat.one_lt_pow (by simp [hY']) (by norm_num)
      have hzero : setBytes X = 0 := by
        by_contra hne
        exact (lt_mul_of_one_lt_right (Nat.pos_of_ne_zero hne) hlt).ne hX
      simp [hzero]
  · rintro (rfl | ⟨hX, hXY⟩)
    · simp
    · simp only [hX, zero_mul, zero_add] at hXY ⊢
      simp [hXY]

/-- Keys with the same bytes denote the same numbers only if these are divided in the same way, or
the parts that `E` may have are all zero. -/
theorem same_iff (h : pk₁.E ++ pk₁.D = pk₂.E ++ pk₂.D) :
    (pk₁.getE = pk₂.getE ∧ pk₁.getD = pk₂.getD) ↔
      pk₁.E.length = pk₂.E.length ∨ pk₁.getE = 0 ∧ pk₂.getE = 0 := by
  obtain ⟨E₁, D₁⟩ := pk₁
  obtain ⟨E₂, D₂⟩ := pk₂
  simp only [getE, getD] at h ⊢
  rcases List.append_eq_append_iff.1 h with ⟨Y, rfl, rfl⟩ | ⟨Y, rfl, rfl⟩
  · rw [setBytes_shift_iff, List.length_append]
    simp
  · have hshift := setBytes_shift_iff E₂ Y D₁
    rw [eq_comm (a := setBytes E₂), eq_comm (b := setBytes D₁)] at hshift
    rw [hshift, List.length_append, and_comm]
    simp

end PrivateKey

/-- **Binding.** A key passes the check against the hash of another one if and only if the two have
the same bytes, one field after the other; such keys denote the same `E` and the same `D` if and
only if their fields `E` are equally long, or both denote zero. -/
theorem commitment_iff (env : Env) (S : Set Bytes) (hinj : Set.InjOn env.sha256 S)
    (pk₁ pk₂ : PrivateKey) (h₁ : pk₁.E ++ pk₁.D ∈ S) (h₂ : pk₂.E ++ pk₂.D ∈ S) :
    (pk₂.hashEquals env (pk₁.hash env) = true ↔ pk₁.E ++ pk₁.D = pk₂.E ++ pk₂.D) ∧
    (pk₂.hashEquals env (pk₁.hash env) = true →
      ((pk₁.getE = pk₂.getE ∧ pk₁.getD = pk₂.getD) ↔
        pk₁.E.length = pk₂.E.length ∨ pk₁.getE = 0 ∧ pk₂.getE = 0)) :=
  ⟨PrivateKey.hashEquals_hash_iff hinj h₁ h₂, fun h =>
    PrivateKey.same_iff ((PrivateKey.hashEquals_hash_iff hinj h₁ h₂).1 h)⟩

/-- Two different keys with the same bytes: both denote 0 and 5. -/
theorem commitment_iff_zero :
    PrivateKey.hash plainEnv ⟨[0], [5]⟩ ≠ PrivateKey.hash plainEnv ⟨[5], [5]⟩ ∧
    PrivateKey.hashEquals plainEnv ⟨[], [0, 5]⟩ (PrivateKey.hash plainEnv ⟨[0], [5]⟩) = true ∧
      PrivateKey.getE ⟨[0], [5]⟩ = PrivateKey.getE ⟨[], [0, 5]⟩ ∧
      PrivateKey.getD ⟨[0], [5]⟩ = PrivateKey.getD ⟨[], [0, 5]⟩ := by
  have hinj : Set.InjOn plainEnv.sha256 {[0, 5], [5, 5]} := by
    rintro a (rfl | rfl) b (rfl | rfl) h <;> first | rfl | exact absurd h (by decide)
  have h := commitment_iff plainEnv {[0, 5], [5, 5]} hinj ⟨[0], [5]⟩ ⟨[], [0, 5]⟩ (Or.inl rfl)
    (Or.inl rfl)
  have hpass := h.1.2 rfl
  exact ⟨by decide, hpass, (h.2 hpass).2 (Or.inr ⟨rfl, rfl⟩)⟩

/-- A key that `GenKey` returned for the prime 7, and what is left of it if its bytes are moved to
the first field: the second one has the hash of the first, passes the check of `sendRoundResult` and
decrypts differently. -/
theorem not_commitment_shifted :
    Crypto.genKey ⟨[7]⟩ [4] = some ⟨[5], [5]⟩ ∧
    (∀ env, Client.revealMessage env (some ⟨[7]⟩) [⟨[5, 5], []⟩] [PrivateKey.hash env ⟨[5], [5]⟩]
      ⟨[3]⟩ = .ok (.ok (Crypto.decrypt ⟨[7]⟩ ⟨[5, 5], []⟩ ⟨[3]⟩))) ∧
    Crypto.decrypt ⟨[7]⟩ ⟨[5, 5], []⟩ ⟨[3]⟩ ≠ Crypto.decrypt ⟨[7]⟩ ⟨[5], [5]⟩ ⟨[3]⟩ ∧
    ¬ ∀ (env : Env) (S : Set Bytes) (pk₁ pk₂ : PrivateKey), Set.InjOn env.sha256 S →
      pk₁.E ++ pk₁.D ∈ S → pk₂.E ++ pk₂.D ∈ S → pk₂.hashEquals env (pk₁.hash env) = true →
        pk₁.getE = pk₂.getE ∧ pk₁.getD = pk₂.getD := by
  have hcheck : ∀ env, PrivateKey.hashEquals env ⟨[5, 5], []⟩ (PrivateKey.hash env ⟨[5], [5]⟩) =
      true := fun env => (PrivateKey.hashEquals_iff _ _ _).2 rfl
  refine ⟨by decide +kernel, fun env => ?_, by decide +kernel, fun h => ?_⟩
  · rw [Client.revealMessage, if_pos (hcheck env)]
    rfl
  · have hsame := h plainEnv {[5, 5]} ⟨[5], [5]⟩ ⟨[5, 5], []⟩ (Set.injOn_singleton _ _) rfl rfl
      (hcheck plainEnv)
    exact absurd hsame.1 (by decide)

end EggScrambler
