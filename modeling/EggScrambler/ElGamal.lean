import Mathlib
import EggScrambler.Crypto
import EggScrambler.Lib.ExpCipher

/-!
# The package `elgamal`

`elgamal/basics.go`, `elgamal/keygen.go`, and `Encrypt` and `Decrypt` of `elgamal/encrypt.go`: a
commutative version of ElGamal, which the repository keeps for reference.

A user encrypts by multiplying with a share `Y ^ r` and saves `K = G ^ r`; it decrypts by dividing
by `K ^ X`, the same share.  Ciphertexts are integers that are never reduced, and decryption works
modulo `P`, so everything is computed in `ZMod P`: there a ciphertext is the message times the
product of the shares (`encryptAll_spec`), and decryption takes out one factor at a time, in any
order (`decryptAll_spec`).

`GenSysKey` takes `P = 2 * r * Q + 1` but `G = h ^ r`, so that `G ^ Q` is `h ^ ((P - 1) / 2)`: the
generator has order `Q` only if `h` is a square (`isSchnorr_iff`).
-/

namespace EggScrambler.ElGamal

/-- Systemwide values. -/
structure SystemKey where
  P : ℕ
  Q : ℕ
  G : ℕ
  deriving DecidableEq, Repr

structure PublicKey where
  P : ℕ
  Q : ℕ
  G : ℕ
  Y : ℕ
  deriving DecidableEq, Repr

structure PrivateKey extends PublicKey where
  X : ℕ
  deriving DecidableEq, Repr

/-- What the calls of `crypto/rand` on a random stream return. -/
structure Random where
  /-- The results of `rand.Prime`, for each bit length. -/
  prime : ℤ → List ℕ
  /-- The draws of `rand.Int`, which skips those that are not below its bound. -/
  int : List ℕ

/-- `rand.Prime` returns primes of the requested size. -/
def Random.Sound (random : Random) : Prop :=
  ∀ bits, ∀ q ∈ random.prime bits, q.Prime ∧ (Nat.size q : ℤ) = bits

/-- A number from 1 to `Q - 1`, with the rest of the stream; `none` if the stream ends, and then the
nil result of `rand.Int` is used. -/
def randHelp (Q : ℕ) : List ℕ → Option (ℕ × List ℕ)
  | [] => none
  | r :: random => if r < Q - 1 then some (r + 1, random) else randHelp Q random

theorem randHelp_spec {Q r : ℕ} {random rest : List ℕ} (h : randHelp Q random = some (r, rest)) :
    1 ≤ r ∧ r < Q := by
  induction random with
  | nil => cases h
  | cons d random ih =>
    rw [randHelp] at h
    split_ifs at h with hd
    · cases h
      omega
    · exact ih h

/-- Every exponent in the range is drawn from some stream. -/
theorem randHelp_cons {Q r : ℕ} (h₁ : 1 ≤ r) (hQ : r < Q) (rest : List ℕ) :
    randHelp Q ((r - 1) :: rest) = some (r, rest) := by
  rw [randHelp, if_pos (by omega), Nat.sub_add_cancel h₁]

/-! ## System keys -/

/-- The first loop of `GenSysKey`, over the results of `rand.Prime`: `q`, `r`, `p` and the rest of
the draws. -/
def genModulus (env : Env) : List ℕ → List ℕ → Option (ℕ × ℕ × ℕ × List ℕ)
  | [], _ => none
  | q :: primes, random =>
    if !env.probablyPrime q then genModulus env primes random
    else do
      let (r, random) ← randHelp 10 random
      let p := r * q * 2 + 1
      if env.probablyPrime p then return (q, r, p, random)
      else genModulus env primes random

/-- The second loop, over the draws of `randHelp(random, q)`: the `h` that gives a generator. -/
def genBase (p q r : ℕ) : List ℕ → Option ℕ
  | [] => none
  | d :: random =>
    if d < q - 1 then
      let h := d + 1
      let g := h ^ r % p
      if 1 < Nat.size g then some h else genBase p q r random
    else genBase p q r random

/-- `GenSysKey` on a random stream that it does not exhaust, with the `h` that it accepted. -/
def genSysKeyFrom (env : Env) (random : Random) (bitsq : ℤ) : Option (SystemKey × ℕ) := do
  let (q, r, p, rest) ← genModulus env (random.prime bitsq) random.int
  let h ← genBase p q r rest
  return (⟨p, q, h ^ r % p⟩, h)

def genSysKey (env : Env) (random : Random) (bitsq : ℤ) : Option SystemKey :=
  (genSysKeyFrom env random bitsq).map Prod.fst

/-- A Schnorr group, and a generator of its subgroup of order `Q`. -/
structure SystemKey.IsSchnorr (key : SystemKey) : Prop where
  prime_P : key.P.Prime
  prime_Q : key.Q.Prime
  dvd : key.Q ∣ key.P - 1
  ne_one : ¬ key.G ≡ 1 [MOD key.P]
  pow_eq_one : key.G ^ key.Q ≡ 1 [MOD key.P]

theorem genModulus_spec {env : Env} {primes random rest : List ℕ} {q r p : ℕ}
    (h : genModulus env primes random = some (q, r, p, rest)) :
    env.probablyPrime q = true ∧ 1 ≤ r ∧ p = r * q * 2 + 1 ∧ env.probablyPrime p = true := by
  induction primes generalizing random with
  | nil => cases h
  | cons d primes ih =>
    rw [genModulus] at h
    split_ifs at h with hd
    · exact ih h
    · obtain ⟨⟨r', random'⟩, hr, h⟩ := Option.bind_eq_some_iff.1 h
      simp only at h
      split_ifs at h with hp
      · cases h
        exact ⟨by simpa using hd, (randHelp_spec hr).1, rfl, hp⟩
      · exact ih h

theorem genBase_spec {p q r h : ℕ} {random : List ℕ} (hb : genBase p q r random = some h) :
    1 ≤ h ∧ h < q ∧ 1 < Nat.size (h ^ r % p) := by
  induction random with
  | nil => cases hb
  | cons d random ih =>
    rw [genBase] at hb
    simp only at hb
    split_ifs at hb with hd hsize
    · cases hb
      exact ⟨by omega, by omega, hsize⟩
    · exact ih hb
    · exact ih hb

/-- What the two loops return. -/
theorem genSysKeyFrom_spec {env : Env} {random : Random} {bitsq : ℤ} {key : SystemKey} {h : ℕ}
    (hkey : genSysKeyFrom env random bitsq = some (key, h)) :
    env.probablyPrime key.P = true ∧ env.probablyPrime key.Q = true ∧
      ∃ r, 1 ≤ r ∧ key.P = r * key.Q * 2 + 1 ∧ key.G = h ^ r % key.P ∧
        1 ≤ h ∧ h < key.Q ∧ 1 < Nat.size key.G := by
  obtain ⟨⟨q, r, p, rest⟩, hmod, hkey⟩ := Option.bind_eq_some_iff.1 hkey
  obtain ⟨h', hbase, hkey⟩ := Option.bind_eq_some_iff.1 hkey
  cases hkey
  obtain ⟨hq, hr, hp, hpp⟩ := genModulus_spec hmod
  exact ⟨hpp, hq, r, hr, hp, rfl, genBase_spec hbase⟩

/-- The power that decides: `(P - 1) / 2` is `r * Q`. -/
theorem pow_eq_one_iff_isSquare {P Q r h : ℕ} (hP : P.Prime) (hr : 1 ≤ r)
    (hPQ : P = r * Q * 2 + 1) (h₁ : 1 ≤ h) (hQ : h < Q) :
    (h ^ r % P) ^ Q ≡ 1 [MOD P] ↔ IsSquare (h : ZMod P) := by
  have : Fact P.Prime := ⟨hP⟩
  have hlt : h < P := by
    have : Q ≤ r * Q := Nat.le_mul_of_pos_left Q hr
    omega
  have hne : (h : ZMod P) ≠ 0 := by
    rw [Ne, ZMod.natCast_eq_zero_iff]
    exact Nat.not_dvd_of_pos_of_lt h₁ hlt
  have hhalf : P / 2 = r * Q := by omega
  rw [ZMod.euler_criterion P hne, hhalf, ← ZMod.natCast_eq_natCast_iff]
  simp [ZMod.natCast_mod, pow_mul]

/-- **System keys.** Every key that `GenSysKey` returns has a prime `P`, a prime `Q` that divides
`P - 1`, and a `G` that is not one; it is a Schnorr group, and `G` has order `Q`, exactly if the
accepted `h` is a square modulo `P`. -/
theorem isSchnorr_iff (env : Env) (hexact : env.Exact) (random : Random) (bitsq : ℤ)
    (key : SystemKey) (hkey : genSysKey env random bitsq = some key) :
    key.P.Prime ∧ key.Q.Prime ∧ key.Q ∣ key.P - 1 ∧ ¬ key.G ≡ 1 [MOD key.P] ∧
      ∃ h, genSysKeyFrom env random bitsq = some (key, h) ∧
        (key.IsSchnorr ↔ IsSquare (h : ZMod key.P)) ∧
        (orderOf (key.G : ZMod key.P) = key.Q ↔ IsSquare (h : ZMod key.P)) := by
  obtain ⟨⟨key', h⟩, hfrom, rfl⟩ := Option.map_eq_some_iff.1 hkey
  obtain ⟨hP, hQ, r, hr, hPQ, hG, h₁, hlt, hsize⟩ := genSysKeyFrom_spec hfrom
  rw [hexact] at hP hQ
  have hdvd : key'.Q ∣ key'.P - 1 := by
    rw [hPQ, Nat.add_sub_cancel, mul_comm r, mul_assoc]
    exact dvd_mul_right _ _
  have hne : ¬ key'.G ≡ 1 [MOD key'.P] := by
    have hGP : key'.G < key'.P := hG ▸ Nat.mod_lt _ hP.pos
    have hG₂ : 2 ^ 1 ≤ key'.G := Nat.lt_size.1 hsize
    rw [Nat.ModEq, Nat.mod_eq_of_lt hGP, Nat.mod_eq_of_lt hP.one_lt]
    omega
  have hpow : key'.G ^ key'.Q ≡ 1 [MOD key'.P] ↔ IsSquare (h : ZMod key'.P) := by
    rw [← pow_eq_one_iff_isSquare hP hr hPQ h₁ hlt, ← hG]
  refine ⟨hP, hQ, hdvd, hne, h, hfrom, ⟨fun hs => hpow.1 hs.pow_eq_one, fun hs => ?_⟩, ?_⟩
  · exact ⟨hP, hQ, hdvd, hne, hpow.2 hs⟩
  · have : Fact key'.Q.Prime := ⟨hQ⟩
    rw [orderOf_eq_prime_iff, ← hpow, ← ZMod.natCast_eq_natCast_iff]
    rw [← ZMod.natCast_eq_natCast_iff] at hne
    simp only [Nat.cast_pow, Nat.cast_one] at hne ⊢
    exact and_iff_left hne

/-- An environment whose primality test is exact. -/
def primeEnv : Env where
  sha256 := firstBytes
  probablyPrime n := decide n.Prime
  debug := false

theorem primeEnv_exact : primeEnv.Exact := fun _ => decide_eq_true_iff

/-- A stream that gives `Q = 7` for three bits, `r = 2`, and then the draws `int`. -/
def sevenStream (int : List ℕ) : Random where
  prime bits := if bits = 3 then [7] else []
  int := 1 :: int

theorem sevenStream_sound (int : List ℕ) : (sevenStream int).Sound := by
  intro bits q hq
  simp only [sevenStream] at hq
  split_ifs at hq with hbits
  · obtain rfl := List.mem_singleton.1 hq
    exact ⟨by norm_num, by rw [hbits]; decide⟩
  · cases hq

/-- With `h = 4` the generator is 16. -/
theorem isSchnorr_iff_seven : genSysKey primeEnv (sevenStream [3]) 3 = some ⟨29, 7, 16⟩ ∧
    Nat.Prime 29 ∧ Nat.Prime 7 ∧ 7 ∣ 29 - 1 ∧ ¬ 16 ≡ 1 [MOD 29] ∧
      ∃ h, genSysKeyFrom primeEnv (sevenStream [3]) 3 = some (⟨29, 7, 16⟩, h) ∧
        (SystemKey.IsSchnorr ⟨29, 7, 16⟩ ↔ IsSquare (h : ZMod 29)) ∧
        (orderOf ((16 : ℕ) : ZMod 29) = 7 ↔ IsSquare (h : ZMod 29)) :=
  have hkey : genSysKey primeEnv (sevenStream [3]) 3 = some ⟨29, 7, 16⟩ := by decide +kernel
  ⟨hkey, isSchnorr_iff primeEnv primeEnv_exact (sevenStream [3]) 3 ⟨29, 7, 16⟩ hkey⟩

/-- With `h = 2`, which is not a square modulo 29, `G = 4` and `G ^ Q` is `-1`. -/
theorem not_isSchnorr_four : (sevenStream [1]).Sound ∧
    genSysKey primeEnv (sevenStream [1]) 3 = some ⟨29, 7, 4⟩ ∧ 4 ^ 7 % 29 = 28 ∧
    ¬ ∀ (env : Env) (random : Random) (bitsq : ℤ) (key : SystemKey), env.Exact → random.Sound →
      genSysKey env random bitsq = some key → key.IsSchnorr := by
  have hkey : genSysKey primeEnv (sevenStream [1]) 3 = some ⟨29, 7, 4⟩ := by decide +kernel
  refine ⟨sevenStream_sound _, hkey, by norm_num, fun h => ?_⟩
  have := (h primeEnv _ 3 _ primeEnv_exact (sevenStream_sound _) hkey).pow_eq_one
  exact absurd this (by decide)

/-! ## Users -/

/-- The private key with exponent `x`. -/
def privateKey (syskey : SystemKey) (x : ℕ) : PrivateKey where
  P := syskey.P
  Q := syskey.Q
  G := syskey.G
  Y := syskey.G ^ x % syskey.P
  X := x

def genUserKey (syskey : SystemKey) (random : List ℕ) : Option PrivateKey :=
  (randHelp syskey.Q random).map fun x => privateKey syskey x.1

/-- `K`, which the user saves, and `C`, which is not reduced. -/
def encrypt (random : List ℕ) (pubkey : PublicKey) (prevC : ℕ) : Option (ℕ × ℕ) := do
  let (r, _) ← randHelp pubkey.Q random
  let K := pubkey.G ^ r % pubkey.P
  let C := pubkey.Y ^ r % pubkey.P
  return (K, C * prevC)

/-- "Decrypt received invalid private key" -/
inductive DecryptError where
  | invalidPrivateKey
  deriving DecidableEq, Repr

def decrypt (privkey : PrivateKey) (K prevD : ℕ) : Except DecryptError ℕ :=
  let denom := K ^ privkey.X % privkey.P
  match MasseyOmura.modInverse denom privkey.P with
  | none => .error .invalidPrivateKey
  | some denom => .ok (prevD * denom % privkey.P)

/-- A user, with the random stream that its call of `Encrypt` reads. -/
structure User where
  key : PrivateKey
  random : List ℕ

/-- All users encrypt, one after the other: what each of them keeps for decryption, and the
ciphertext. -/
def encryptAll : List User → ℕ → Option (List (PrivateKey × ℕ) × ℕ)
  | [], C => some ([], C)
  | u :: users, prevC => do
    let (K, C) ← encrypt u.random u.key.toPublicKey prevC
    let (saved, C) ← encryptAll users C
    return ((u.key, K) :: saved, C)

/-- All users decrypt, in the order of the list. -/
def decryptAll : List (PrivateKey × ℕ) → ℕ → Except DecryptError ℕ
  | [], D => .ok D
  | (privkey, K) :: saved, prevD => do
    let D ← decrypt privkey K prevD
    decryptAll saved D

/-- A user of the system with modulus `P` and generator `G`, whose stream is long enough; the bound
`Q` on its exponent is not restricted. -/
structure User.Valid (P G : ℕ) (u : User) : Prop where
  P_eq : u.key.P = P
  G_eq : u.key.G = G
  Y_eq : u.key.Y = G ^ u.key.X % P
  draws : ∃ r rest, randHelp u.key.Q u.random = some (r, rest)

/-- Users that `GenUserKey` gave their keys. -/
theorem User.Valid.of_genUserKey {syskey : SystemKey} {draws : List ℕ} {u : User} {r : ℕ}
    {rest : List ℕ} (hkey : genUserKey syskey draws = some u.key)
    (hr : randHelp syskey.Q u.random = some (r, rest)) : u.Valid syskey.P syskey.G := by
  obtain ⟨key, random⟩ := u
  obtain ⟨x, -, rfl⟩ := Option.map_eq_some_iff.1 hkey
  exact ⟨rfl, rfl, rfl, r, rest, hr⟩

/-- The factor that `Decrypt` takes out. -/
def share (P : ℕ) (x : PrivateKey × ℕ) : ZMod P := (x.2 : ZMod P) ^ x.1.X

section Commute

variable {P G : ℕ}

/-- A saved pair that `Decrypt` can use. -/
def Usable (P : ℕ) (x : PrivateKey × ℕ) : Prop := x.1.P = P ∧ x.2.Coprime P

theorem coprime_mod {a : ℕ} (h : a.Coprime P) : (a % P).Coprime P :=
  (Nat.mod_modEq a P).gcd_eq.trans h

theorem encrypt_spec (hGP : G.Coprime P) {u : User} (hu : u.Valid P G) (prevC : ℕ) :
    ∃ K C, encrypt u.random u.key.toPublicKey prevC = some (K, C) ∧ Usable P (u.key, K) ∧
      (C : ZMod P) = prevC * share P (u.key, K) := by
  obtain ⟨r, rest, hr⟩ := hu.draws
  refine ⟨_, _, by rw [encrypt, hr]; rfl, ⟨hu.P_eq, ?_⟩, ?_⟩
  · simp only [hu.P_eq, hu.G_eq]
    exact coprime_mod (hGP.pow_left r)
  · simp only [share, hu.P_eq, hu.G_eq, hu.Y_eq]
    push_cast [ZMod.natCast_mod]
    rw [← pow_mul, ← pow_mul, mul_comm r, mul_comm]

/-- The ciphertext is the message times the shares of all users. -/
theorem encryptAll_spec (hGP : G.Coprime P) {users : List User} (hu : ∀ u ∈ users, u.Valid P G)
    (m : ℕ) : ∃ saved C, encryptAll users m = some (saved, C) ∧
      saved.map Prod.fst = users.map User.key ∧ (∀ x ∈ saved, Usable P x) ∧
      (C : ZMod P) = m * (saved.map (share P)).prod := by
  induction users generalizing m with
  | nil => exact ⟨[], m, rfl, rfl, by simp, by simp⟩
  | cons u users ih =>
    obtain ⟨hu, husers⟩ := List.forall_mem_cons.1 hu
    obtain ⟨K, C, henc, hK, hC⟩ := encrypt_spec hGP hu m
    obtain ⟨saved, C', hall, hkeys, hsaved, hC'⟩ := ih husers C
    refine ⟨(u.key, K) :: saved, C', ?_, by simp [hkeys], List.forall_mem_cons.2 ⟨hK, hsaved⟩, ?_⟩
    · rw [encryptAll, henc]
      simp [hall]
    · rw [hC', hC, List.map_cons, List.prod_cons, mul_assoc]

theorem decrypt_spec (hP : P.Prime) {x : PrivateKey × ℕ} (hx : Usable P x) (D : ℕ) :
    ∃ D', decrypt x.1 x.2 D = .ok D' ∧ D' < P ∧ (D' : ZMod P) * share P x = D := by
  have hcop : (x.2 ^ x.1.X % P).Coprime P := coprime_mod (hx.2.pow_left _)
  obtain ⟨d, hd⟩ : ∃ d, MasseyOmura.modInverse (x.2 ^ x.1.X % P) P = some d :=
    ⟨_, if_pos hcop⟩
  have hinv := MasseyOmura.modInverse_spec hP.pos hd
  refine ⟨D * d % P, by rw [decrypt, hx.1]; simp [hd], Nat.mod_lt _ hP.pos, ?_⟩
  rw [← ZMod.natCast_eq_natCast_iff] at hinv
  push_cast [ZMod.natCast_mod] at hinv ⊢
  rw [share, mul_assoc, mul_comm (d : ZMod P), hinv, mul_one]

/-- Decryption takes out the shares of a list one by one. -/
theorem decryptAll_spec (hP : P.Prime) {saved : List (PrivateKey × ℕ)}
    (h : ∀ x ∈ saved, Usable P x) (D : ℕ) :
    ∃ D', decryptAll saved D = .ok D' ∧ (saved ≠ [] → D' < P) ∧
      (D' : ZMod P) * (saved.map (share P)).prod = D := by
  induction saved generalizing D with
  | nil => exact ⟨D, rfl, fun h => absurd rfl h, by simp⟩
  | cons x saved ih =>
    obtain ⟨hx, hsaved⟩ := List.forall_mem_cons.1 h
    obtain ⟨D₁, hD₁, hlt, hshare⟩ := decrypt_spec hP hx D
    obtain ⟨D₂, hD₂, hlt₂, hprod⟩ := ih hsaved D₁
    refine ⟨D₂, by rw [decryptAll, hD₁]; exact hD₂, fun _ => ?_, ?_⟩
    · rcases eq_or_ne saved [] with rfl | hne
      · cases hD₂
        exact hlt
      · exact hlt₂ hne
    · rw [List.map_cons, List.prod_cons, mul_left_comm, hprod, mul_comm, hshare]

/-- No share is zero. -/
theorem prod_share_ne_zero (hP : P.Prime) {saved : List (PrivateKey × ℕ)}
    (h : ∀ x ∈ saved, Usable P x) : (saved.map (share P)).prod ≠ 0 := by
  have : Fact P.Prime := ⟨hP⟩
  rw [Ne, List.prod_eq_zero_iff, List.mem_map]
  rintro ⟨x, hx, hzero⟩
  have hdvd : P ∣ x.2 := (ZMod.natCast_eq_zero_iff _ _).1 (eq_zero_of_pow_eq_zero hzero)
  exact hP.one_lt.ne' (Nat.dvd_one.1 ((h x hx).2 ▸ Nat.dvd_gcd hdvd dvd_rfl))

/-- **Commutative ElGamal.** Users encrypt a message one after the other and decrypt it in any
order, each with the `K` it saved: no call fails, and the message comes back. -/
theorem decryptAll_encryptAll (hP : P.Prime) (hG : 0 < G) (hGP : G < P) {users : List User}
    (hne : users ≠ []) (hu : ∀ u ∈ users, u.Valid P G) {m : ℕ} (hm : m ≤ P - 1) :
    ∃ saved C, encryptAll users m = some (saved, C) ∧
      saved.map Prod.fst = users.map User.key ∧
      ∀ saved', saved'.Perm saved → decryptAll saved' C = .ok m := by
  have hcop := ExpCipher.coprime_of_lt hP hG hGP
  obtain ⟨saved, C, henc, hkeys, hsaved, hC⟩ := encryptAll_spec hcop hu m
  refine ⟨saved, C, henc, hkeys, fun saved' hperm => ?_⟩
  have hsaved' : ∀ x ∈ saved', Usable P x := fun x hx => hsaved x (hperm.mem_iff.1 hx)
  obtain ⟨D, hD, hlt, hprod⟩ := decryptAll_spec hP hsaved' C
  have hne' : saved' ≠ [] := by
    rintro rfl
    obtain rfl := hperm.nil_eq
    exact hne (List.map_eq_nil_iff.1 hkeys.symm)
  -- both are the message times the shares
  have hDm : (D : ZMod P) = m := by
    have : Fact P.Prime := ⟨hP⟩
    rw [hC, (hperm.map (share P)).prod_eq] at hprod
    exact mul_right_cancel₀ (prod_share_ne_zero hP hsaved) hprod
  rw [ZMod.natCast_eq_natCast_iff, Nat.ModEq, Nat.mod_eq_of_lt (hlt hne'),
    Nat.mod_eq_of_lt (by have := hP.pos; omega)] at hDm
  rw [hD, hDm]

end Commute

/-- Two users of the system with `P = 29`, `Q = 7` and `G = 16`. -/
def twoUsers : List User :=
  [⟨privateKey ⟨29, 7, 16⟩ 3, [4]⟩, ⟨privateKey ⟨29, 7, 16⟩ 6, [0]⟩]

theorem twoUsers_valid : ∀ u ∈ twoUsers, u.Valid 29 16 := by
  simp only [twoUsers, List.forall_mem_cons, List.not_mem_nil, false_imp_iff, implies_true,
    and_true]
  have h₁ : genUserKey ⟨29, 7, 16⟩ [2] = some (privateKey ⟨29, 7, 16⟩ 3) := rfl
  have h₂ : genUserKey ⟨29, 7, 16⟩ [5] = some (privateKey ⟨29, 7, 16⟩ 6) := rfl
  have h₃ : randHelp 7 [4] = some (5, []) := randHelp_cons (r := 5) (by decide) (by decide) []
  have h₄ : randHelp 7 [0] = some (1, []) := randHelp_cons (r := 1) (by decide) (by decide) []
  have hone := User.Valid.of_genUserKey (u := ⟨_, [4]⟩) h₁ h₃
  have htwo := User.Valid.of_genUserKey (u := ⟨_, [0]⟩) h₂ h₄
  exact ⟨hone, htwo⟩

/-- They send 20 around. -/
theorem decryptAll_encryptAll_two : ∃ saved C, encryptAll twoUsers 20 = some (saved, C) ∧
    saved.map Prod.fst = twoUsers.map User.key ∧
    ∀ saved', saved'.Perm saved → decryptAll saved' C = .ok 20 :=
  decryptAll_encryptAll (by norm_num) (by norm_num) (by norm_num) (List.cons_ne_nil _ _)
    twoUsers_valid (by norm_num)

end EggScrambler.ElGamal
