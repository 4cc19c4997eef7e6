import Mathlib

/-!
# Exponentiation ciphers

The commutative cipher `x ↦ x ^ e % p` over a prime modulus: a stack of layers is one power whose
exponent is the product of the layer exponents (`pow_mod_pow`), a pair of exponents that are
inverse modulo `p - 1` cancels wherever it stands in the stack (`pow_mul_cancel`), a stack whose
exponents multiply to one modulo `p - 1` is the identity (`foldl_pow_mod`, `pow_mod_self`), and no
layer maps a nonzero residue to zero (`pow_mod_pos`).

`select f ids flags` is the product of the factors `f id` of the flagged entries of `ids`, in any
commutative monoid; raising or lowering one flag multiplies by or takes away one factor.
-/

namespace ExpCipher

/-! ## Powers modulo a prime -/

/-- Two layers are one layer with the product of the exponents. -/
theorem pow_mod_pow (x a b p : ℕ) : (x ^ a % p) ^ b % p = x ^ (a * b) % p := by
  rw [← Nat.pow_mod, ← pow_mul]

/-- Exponents matter only modulo `p - 1`. -/
theorem pow_mod_eq_of_modEq {p x a b : ℕ} (hp : p.Prime) (hx : x.Coprime p)
    (h : a ≡ b [MOD p - 1]) : x ^ a % p = x ^ b % p := by
  have : Fact p.Prime := ⟨hp⟩
  have hu : (ZMod.unitOfCoprime x hx) ^ a = (ZMod.unitOfCoprime x hx) ^ b := by
    rw [pow_eq_pow_iff_modEq]
    exact h.of_dvd (ZMod.orderOf_units_dvd_card_sub_one _)
  have hz : ((x ^ a : ℕ) : ZMod p) = ((x ^ b : ℕ) : ZMod p) := by
    have := congrArg Units.val hu
    simpa using this
  exact (ZMod.natCast_eq_natCast_iff _ _ _).1 hz

/-- A pair of inverse exponents cancels. -/
theorem pow_mul_cancel {p x e d : ℕ} (hp : p.Prime) (hx : x.Coprime p)
    (h : e * d ≡ 1 [MOD p - 1]) (y : ℕ) : x ^ (y * e * d) % p = x ^ y % p := by
  apply pow_mod_eq_of_modEq hp hx
  have := h.mul_left y
  rwa [← mul_assoc, mul_one] at this

/-- Residues from one to `p - 1` are coprime to a prime `p`. -/
theorem coprime_of_lt {p x : ℕ} (hp : p.Prime) (h₀ : 0 < x) (h₁ : x < p) : x.Coprime p :=
  (Nat.coprime_of_lt_prime (by omega) h₁ hp).symm

theorem pow_mod_pos {p x : ℕ} (hp : p.Prime) (hx : x.Coprime p) (e : ℕ) : 0 < x ^ e % p := by
  rw [Nat.pos_iff_ne_zero, Ne, ← Nat.dvd_iff_mod_eq_zero]
  intro h
  have hd : p ∣ x := hp.dvd_of_dvd_pow h
  exact hp.one_lt.ne' (Nat.dvd_one.1 (hx ▸ Nat.dvd_gcd hd dvd_rfl))

/-- A stack of layers is one power. -/
theorem foldl_pow_mod {p x : ℕ} (hx : x < p) (exps : List ℕ) :
    exps.foldl (fun y e => y ^ e % p) x = x ^ exps.prod % p := by
  induction exps generalizing x with
  | nil => simp [Nat.mod_eq_of_lt hx]
  | cons e exps ih =>
    rw [List.foldl_cons, ih (Nat.mod_lt _ (by omega)), pow_mod_pow, List.prod_cons]

/-- An exponent that is one modulo `p - 1` changes nothing, zero included. -/
theorem pow_mod_self {p x a : ℕ} (hp : p.Prime) (h3 : 3 ≤ p) (hx : x < p)
    (ha : a ≡ 1 [MOD p - 1]) : x ^ a % p = x := by
  rcases Nat.eq_zero_or_pos x with rfl | hpos
  · have hne : a ≠ 0 := by
      rintro rfl
      rw [Nat.ModEq, Nat.zero_mod, Nat.mod_eq_of_lt (by omega)] at ha
      exact absurd ha (by decide)
    rw [zero_pow hne, Nat.zero_mod]
  · rw [pow_mod_eq_of_modEq hp (coprime_of_lt hp hpos hx) ha, pow_one, Nat.mod_eq_of_lt hx]

/-! ## Products over flagged entries -/

section Select

variable {ι M : Type} [CommMonoid M]

/-- The product of the factors of the flagged entries. -/
def select (f : ι → M) : List ι → List Bool → M
  | id :: ids, b :: flags => (if b then f id else 1) * select f ids flags
  | _, _ => 1

theorem select_congr {f g : ι → M} {ids : List ι} (h : ∀ id ∈ ids, f id = g id)
    (flags : List Bool) : select f ids flags = select g ids flags := by
  induction ids generalizing flags with
  | nil => rfl
  | cons id ids ih =>
    obtain ⟨hid, hids⟩ := List.forall_mem_cons.1 h
    cases flags with
    | nil => rfl
    | cons b flags => rw [select, select, hid, ih hids]

theorem select_true (f : ι → M) (ids : List ι) :
    select f ids (List.replicate ids.length true) = (ids.map f).prod := by
  induction ids with
  | nil => rfl
  | cons id ids ih => simp [select, List.replicate_succ, ih]

theorem select_false (f : ι → M) (ids : List ι) (n : ℕ) :
    select f ids (List.replicate n false) = 1 := by
  induction ids generalizing n with
  | nil => cases n <;> rfl
  | cons id ids ih => cases n <;> simp [select, List.replicate_succ, ih]

/-- Raising a flag multiplies by its factor. -/
theorem select_set_true (f : ι → M) {ids : List ι} {flags : List Bool} {p : ℕ} {id : ι}
    (hid : ids[p]? = some id) (hp : flags[p]? = some false) :
    select f ids (flags.set p true) = select f ids flags * f id := by
  induction ids generalizing flags p with
  | nil => simp at hid
  | cons i ids ih =>
    cases flags with
    | nil => simp at hp
    | cons b flags =>
      cases p with
      | zero =>
        simp only [List.getElem?_cons_zero, Option.some.injEq] at hid hp
        subst hid hp
        simp [select, mul_comm]
      | succ p =>
        simp only [List.getElem?_cons_succ] at hid hp
        simp only [List.set_cons_succ, select, ih hid hp, mul_assoc]

/-- Lowering a flag takes its factor away. -/
theorem select_set_false (f : ι → M) {ids : List ι} {flags : List Bool} {p : ℕ} {id : ι}
    (hid : ids[p]? = some id) (hp : flags[p]? = some true) :
    select f ids (flags.set p false) * f id = select f ids flags := by
  obtain ⟨hlt, hget⟩ := List.getElem?_eq_some_iff.1 hp
  have h : (flags.set p false).set p true = flags := by
    rw [List.set_set]
    simpa [hget] using List.set_getElem_self hlt
  rw [← select_set_true f hid (by simp [hlt]), h]

end Select

end ExpCipher
