import Mathlib
import EggScrambler.Plan

/-!
# Encryption and decryption in any order

Keys are used one after the other, each for encryption or for decryption.  The effect of such a
sequence is one power, whose exponent is the product of the exponents used; if each key is used for
encryption as often as for decryption (`Balanced`), the product is one modulo `P - 1`, and nothing
changes.  The same is true of messages and keys as bytes, up to the leading zeros of a message that
was not written by `newMsg`.
-/

namespace EggScrambler

open BigEndian

/-- One use of a key. -/
inductive Use (K : Type) where
  | encrypt (key : K)
  | decrypt (key : K)

namespace Use

variable {K : Type}

def key : Use K → K
  | encrypt key => key
  | decrypt key => key

def encryptKey? : Use K → Option K
  | encrypt key => some key
  | decrypt _ => none

def decryptKey? : Use K → Option K
  | encrypt _ => none
  | decrypt key => some key

/-- The keys that are used for encryption. -/
def encryptions (uses : List (Use K)) : List K := uses.filterMap encryptKey?

/-- The keys that are used for decryption. -/
def decryptions (uses : List (Use K)) : List K := uses.filterMap decryptKey?

/-- Each key is used for encryption as often as for decryption. -/
def Balanced (uses : List (Use K)) : Prop := (encryptions uses).Perm (decryptions uses)

/-- The exponent of a use, if keys have the exponents `E` and `D`. -/
def exponent (E D : K → ℕ) : Use K → ℕ
  | encrypt key => E key
  | decrypt key => D key

theorem exists_of_mem_encryptions {key : K} {uses : List (Use K)} (h : key ∈ encryptions uses) :
    ∃ u ∈ uses, u.key = key := by
  obtain ⟨u, hu, hkey⟩ := List.mem_filterMap.1 h
  cases u with
  | encrypt k => exact ⟨_, hu, Option.some.inj hkey⟩
  | decrypt k => cases hkey

theorem prod_exponent (E D : K → ℕ) (uses : List (Use K)) : (uses.map (exponent E D)).prod =
    ((encryptions uses).map E).prod * ((decryptions uses).map D).prod := by
  induction uses with
  | nil => rfl
  | cons u uses ih =>
    simp only [encryptions, decryptions] at ih ⊢
    cases u with
    | encrypt key =>
      simp only [List.map_cons, List.prod_cons, List.filterMap_cons, encryptKey?, decryptKey?,
        exponent, ih, mul_assoc]
    | decrypt key =>
      simp only [List.map_cons, List.prod_cons, List.filterMap_cons, encryptKey?, decryptKey?,
        exponent, ih]
      rw [mul_left_comm]

/-- Inverse exponents that are used equally often multiply to one. -/
theorem Balanced.prod_modEq_one {E D : K → ℕ} {n : ℕ} {uses : List (Use K)} (h : Balanced uses)
    (hinv : ∀ key ∈ encryptions uses, E key * D key ≡ 1 [MOD n]) :
    (uses.map (exponent E D)).prod ≡ 1 [MOD n] := by
  rw [prod_exponent, ← (h.map D).prod_eq, ← List.prod_map_mul]
  exact Nat.ModEq.listProd_map_one hinv

end Use

/-! ## Integers -/

namespace MasseyOmura

/-- A sequence of calls of `Encrypt` and `Decrypt`. -/
def applyAll : List (Use PrivateKey) → ℕ → ℕ
  | [], m => m
  | .encrypt key :: uses, m => applyAll uses (encrypt key m)
  | .decrypt key :: uses, m => applyAll uses (decrypt key m)

theorem applyAll_eq {P : ℕ} {uses : List (Use PrivateKey)} (h : ∀ u ∈ uses, u.key.P = P) (m : ℕ) :
    applyAll uses m =
      (uses.map (Use.exponent PrivateKey.E PrivateKey.D)).foldl (fun y e => y ^ e % P) m := by
  induction uses generalizing m with
  | nil => rfl
  | cons u uses ih =>
    obtain ⟨hu, huses⟩ := List.forall_mem_cons.1 h
    subst hu
    cases u <;> exact ih huses _

/-- A balanced sequence of generated keys changes nothing. -/
theorem applyAll_of_balanced {P : ℕ} (hP : P.Prime) (h3 : 3 ≤ P) {uses : List (Use PrivateKey)}
    (hkeys : ∀ u ∈ uses, ∃ draws, genUserKey P draws = some u.key) (h : Use.Balanced uses) {m : ℕ}
    (hm : m ≤ P - 1) : applyAll uses m = m := by
  have hspec : ∀ u ∈ uses, u.key.P = P ∧ u.key.E * u.key.D ≡ 1 [MOD P - 1] := fun u hu => by
    obtain ⟨draws, hdraws⟩ := hkeys u hu
    obtain ⟨hkeyP, -, -, hinv⟩ := genUserKey_spec hdraws
    exact ⟨hkeyP, hinv⟩
  have hlt : m < P := by omega
  rw [applyAll_eq (fun u hu => (hspec u hu).1), ExpCipher.foldl_pow_mod hlt]
  refine ExpCipher.pow_mod_self hP h3 hlt (h.prod_modEq_one fun key hkey => ?_)
  obtain ⟨u, hu, rfl⟩ := Use.exists_of_mem_encryptions hkey
  exact (hspec u hu).2

end MasseyOmura

/-! ## Bytes -/

namespace Crypto

/-- A sequence of calls of `Encrypt` and `Decrypt` on a message. -/
def applyAll (mo : Crypto) : List (Use PrivateKey) → Msg → Msg
  | [], m => m
  | .encrypt key :: uses, m => mo.applyAll uses (mo.encrypt key m)
  | .decrypt key :: uses, m => mo.applyAll uses (mo.decrypt key m)

variable {mo : Crypto}

theorem getM_applyAll (uses : List (Use PrivateKey)) (m : Msg) : (mo.applyAll uses m).getM =
    (uses.map (Use.exponent PrivateKey.getE PrivateKey.getD)).foldl
      (fun y e => y ^ e % mo.getP) m.getM := by
  induction uses generalizing m with
  | nil => rfl
  | cons u uses ih =>
    cases u with
    | encrypt key =>
      rw [applyAll, ih, encrypt, getM_newMsg]
      rfl
    | decrypt key =>
      rw [applyAll, ih, decrypt, getM_newMsg]
      rfl

/-- Every call writes its result without leading zeros. -/
theorem applyAll_newMsg (uses : List (Use PrivateKey)) (m : ℕ) :
    mo.applyAll uses (newMsg m) = newMsg (mo.applyAll uses (newMsg m)).getM := by
  induction uses generalizing m with
  | nil => simp [applyAll]
  | cons u uses ih => cases u <;> exact ih _

theorem getM_applyAll_of_balanced (hP : mo.getP.Prime) (h3 : 3 ≤ mo.getP)
    {uses : List (Use PrivateKey)} (hkeys : ∀ u ∈ uses, ∃ draws, mo.genKey draws = some u.key)
    (h : Use.Balanced uses) {m : Msg} (hm : m.getM ≤ mo.getP - 1) :
    (mo.applyAll uses m).getM = m.getM := by
  have hlt : m.getM < mo.getP := by omega
  rw [getM_applyAll, ExpCipher.foldl_pow_mod hlt]
  refine ExpCipher.pow_mod_self hP h3 hlt (h.prod_modEq_one fun key hkey => ?_)
  obtain ⟨u, hu, rfl⟩ := Use.exists_of_mem_encryptions hkey
  obtain ⟨draws, hdraws⟩ := hkeys u hu
  exact (genKey_spec hdraws).2

end Crypto

/-- **Commuting and inverting.** Every key that `GenUserKey` returns is an inverse pair, and a
sequence of encryptions and decryptions, in any order, in which each key is used for one as often as
for the other, maps every residue to itself; the same sequence on messages and keys as bytes keeps
the integer of every message, and every message that was written without leading zeros. -/
theorem masseyOmura_commutes (P : ℕ) (hP : P.Prime) (h3 : 3 ≤ P) :
    (∀ draws key, MasseyOmura.genUserKey P draws = some key →
      1 ≤ key.E ∧ key.E < P - 1 ∧ key.E * key.D ≡ 1 [MOD P - 1]) ∧
    (∀ uses, (∀ u ∈ uses, ∃ draws, MasseyOmura.genUserKey P draws = some u.key) →
      Use.Balanced uses → ∀ m ≤ P - 1, MasseyOmura.applyAll uses m = m) ∧
    ∀ (mo : Crypto) uses, mo.getP = P → (∀ u ∈ uses, ∃ draws, mo.genKey draws = some u.key) →
      Use.Balanced uses → (∀ m ≤ P - 1, mo.applyAll uses (newMsg m) = newMsg m) ∧
        ∀ m : Msg, m.getM ≤ P - 1 → (mo.applyAll uses m).getM = m.getM := by
  refine ⟨fun draws key hkey => (MasseyOmura.genUserKey_spec hkey).2, fun uses hkeys h m hm =>
    MasseyOmura.applyAll_of_balanced hP h3 hkeys h hm, ?_⟩
  rintro mo uses rfl hkeys h
  refine ⟨fun m hm => ?_, fun m hm => Crypto.getM_applyAll_of_balanced hP h3 hkeys h hm⟩
  have hget := Crypto.getM_applyAll_of_balanced hP h3 hkeys h (m := newMsg m) (by simpa using hm)
  rw [Crypto.applyAll_newMsg, hget, getM_newMsg]

/-- Two keys modulo 7, with the exponents 1 and 5, the second one used for decryption before the
first one. -/
def crossedUses {K : Type} (one five : K) : List (Use K) :=
  [.encrypt one, .decrypt five, .decrypt one, .encrypt five]

theorem crossedUses_balanced {K : Type} (one five : K) : Use.Balanced (crossedUses one five) :=
  List.Perm.swap five one []

theorem forall_mem_crossedUses {K : Type} {p : K → Prop} {one five : K} (h₁ : p one)
    (h₅ : p five) : ∀ u ∈ crossedUses one five, p u.key := by
  simp [crossedUses, Use.key, h₁, h₅]

theorem masseyOmura_commutes_seven :
    MasseyOmura.applyAll (crossedUses ⟨7, 1, 1⟩ ⟨7, 5, 5⟩) 3 = 3 ∧
      Crypto.applyAll ⟨[7]⟩ (crossedUses ⟨[1], [1]⟩ ⟨[5], [5]⟩) (newMsg 3) = newMsg 3 := by
  obtain ⟨-, hint, hbytes⟩ := masseyOmura_commutes 7 (by norm_num) (by norm_num)
  have h₁ : MasseyOmura.genUserKey 7 [0] = some ⟨7, 1, 1⟩ := by decide +kernel
  have h₅ : MasseyOmura.genUserKey 7 [4] = some ⟨7, 5, 5⟩ := by decide +kernel
  have hb₁ : Crypto.genKey ⟨[7]⟩ [0] = some ⟨[1], [1]⟩ := by decide +kernel
  have hb₅ : Crypto.genKey ⟨[7]⟩ [4] = some ⟨[5], [5]⟩ := by decide +kernel
  refine ⟨hint _ ?_ (crossedUses_balanced _ _) 3 (by decide),
    (hbytes ⟨[7]⟩ _ rfl ?_ (crossedUses_balanced _ _)).1 3 (by decide)⟩
  · exact forall_mem_crossedUses
      (p := fun key => ∃ draws, MasseyOmura.genUserKey 7 draws = some key) ⟨_, h₁⟩ ⟨_, h₅⟩
  · exact forall_mem_crossedUses (p := fun key => ∃ draws, Crypto.genKey ⟨[7]⟩ draws = some key)
      ⟨_, hb₁⟩ ⟨_, hb₅⟩

end EggScrambler
