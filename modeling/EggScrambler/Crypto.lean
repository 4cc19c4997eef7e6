import Mathlib
import EggScrambler.Lib.BigEndian

/-!
# The Massey-Omura cipher and its message codec

`masseyomura/encrypt.go`, `masseyomura/keygen.go` and `anonbcast/crypto.go`.  Integers of `math/big`
are naturals, read from and written to big-endian bytes; `Exp` with modulus zero is the plain power,
as in Go and in `x ^ y % 0`.  Byte slices are lists, so a nil slice and an empty one are the same.
Sizes are integers without a bound: `bitsMaxSize` is the function of the source for less than
`2 ^ 60 - 1` bytes, beyond which `8 * (bytes + 1) + 1` does not fit into an `int`.

A run-time panic is an error of `Go`, an `error` result of the source is a value of an inductive
type with the data its text prints, and randomness (key draws, header bytes, shuffles) is an
argument.  SHA-256, `ProbablyPrime` and the debug mode are the fields of `Env`.
-/

namespace EggScrambler

open BigEndian

abbrev Bytes := List UInt8

/-- The ways the modelled code can panic. -/
inductive Panic where
  | indexOutOfRange
  | sliceOutOfRange
  | nilDereference
  /-- `pad`: "cannot make message shorter through padding" -/
  | cannotShorten
  /-- `pad`: "message too long to encrypt" -/
  | messageTooLong
  /-- `unPad`: "no 0 in message" -/
  | noZeroInMessage
  /-- A send on a closed channel, or the close of a channel that is closed or nil. -/
  | closedChannel
  /-- A type assertion on a value of another type. -/
  | typeAssertion
  /-- An `assertf` that fails; it panics only in debug mode. -/
  | assertionFailed
  deriving DecidableEq, Repr

/-- A computation of the source, which may panic. -/
abbrev Go := Except Panic

theorem bind_eq_ok_iff {ε α β : Type} {x : Except ε α} {f : α → Except ε β} {b : β} :
    x >>= f = .ok b ↔ ∃ a, x = .ok a ∧ f a = .ok b := by
  cases x <;> simp [bind, Except.bind]

/-- What the code takes from its surroundings: two library functions and the mode it runs in. -/
structure Env where
  /-- `sha256.Sum256`. -/
  sha256 : Bytes → Vector UInt8 32
  /-- `(*big.Int).ProbablyPrime(40)`. -/
  probablyPrime : ℕ → Bool
  /-- `IsDebug()`. -/
  debug : Bool

/-- A digest for computed runs: the first 32 bytes, filled up with zeros. -/
def firstBytes (b : Bytes) : Vector UInt8 32 :=
  ⟨((b ++ List.replicate 32 0).take 32).toArray, by simp⟩

/-- `ProbablyPrime` makes no mistakes. -/
def Env.Exact (env : Env) : Prop := ∀ n, env.probablyPrime n = true ↔ n.Prime

/-- `assertf`: panics in debug mode only. -/
def assertf (env : Env) (condition : Prop) [Decidable condition] : Go Unit :=
  if env.debug = true ∧ ¬ condition then .error .assertionFailed else .ok ()

theorem assertf_of {env : Env} {condition : Prop} [Decidable condition] (h : condition) :
    assertf env condition = .ok () := by simp [assertf, h]

/-- Go's `copy(dst, src)`: overwrites the common prefix. -/
def copy {α : Type} (dst src : List α) : List α := src.take dst.length ++ dst.drop src.length

/-- `make([]byte, len(b))` followed by `copy`. -/
def copyBytes (b : Bytes) : Bytes := copy (List.replicate b.length 0) b

@[simp] theorem copy_eq {α : Type} {dst src : List α} (h : dst.length = src.length) :
    copy dst src = src := by
  rw [copy, h, List.take_length, ← h, List.drop_length, List.append_nil]

@[simp] theorem copyBytes_eq (b : Bytes) : copyBytes b = b := by simp [copyBytes]

/-! ## The package `masseyomura` -/

namespace MasseyOmura

/-- The user's keys together with the system's prime. -/
structure PrivateKey where
  P : ℕ
  E : ℕ
  D : ℕ
  deriving DecidableEq, Repr

/-- The longest message, in bytes, for a modulus of `bits` bits. -/
def bytesMaxSize (bits : ℤ) : ℤ := (bits - 1).tdiv 8 - 1

def bitsMaxSize (bytes : ℤ) : ℤ := 8 * (bytes + 1) + 1

/-- The error of `PrepareMsg`: the message size and the bit length. -/
structure TooLong where
  size : ℕ
  bits : ℤ
  deriving DecidableEq, Repr

/-- Ones, a zero, and the message, `targetlen` bytes in all. -/
def pad (msg : Bytes) (targetlen : ℤ) : Go Bytes :=
  if targetlen < msg.length then .error .cannotShorten
  else if msg.length = targetlen then .error .messageTooLong
  else .ok (List.replicate (targetlen - 1 - msg.length).toNat 1 ++ 0 :: msg)

/-- What follows the first zero byte. -/
def unPad : Bytes → Go Bytes
  | [] => .error .noZeroInMessage
  | b :: msg => if b = 0 then .ok msg else unPad msg

def prepareMsg (msg : Bytes) (plen : ℤ) : Go (Except TooLong ℕ) :=
  let maxsize := bytesMaxSize plen
  if maxsize < msg.length then .ok (.error ⟨msg.length, plen⟩)
  else do
    let padded ← pad msg (maxsize + 1)
    return .ok (setBytes padded)

def encrypt (privkey : PrivateKey) (prevC : ℕ) : ℕ := prevC ^ privkey.E % privkey.P

def decrypt (privkey : PrivateKey) (prevD : ℕ) : ℕ := prevD ^ privkey.D % privkey.P

def extractMsg (D : ℕ) : Go Bytes := unPad (bytes D)

/-- The errors of `VerifySysKey`. -/
inductive SysKeyError where
  | bitLen (actual : ℕ) (expected : ℤ)
  | notProbablyPrime
  deriving DecidableEq, Repr

def verifySysKey (env : Env) (P : ℕ) (bitsp : ℤ) : Except SysKeyError Unit :=
  if (Nat.size P : ℤ) ≠ bitsp then .error (.bitLen (Nat.size P) bitsp)
  else if !env.probablyPrime P then .error .notProbablyPrime
  else .ok ()

/-- `z.ModInverse(g, n)`: the inverse of `g` in `[0, n)`, if there is one. -/
def modInverse (g n : ℕ) : Option ℕ :=
  if g.gcd n = 1 then some (g.gcdA n % n).toNat else none

theorem modInverse_spec {g n d : ℕ} (hn : 0 < n) (h : modInverse g n = some d) :
    g * d ≡ 1 [MOD n] := by
  unfold modInverse at h
  split_ifs at h with hg
  cases h
  have hbez := Nat.gcd_eq_gcd_ab g n
  rw [hg] at hbez
  have hnn : 0 ≤ g.gcdA n % n := Int.emod_nonneg _ (by omega)
  rw [← Int.natCast_modEq_iff]
  push_cast
  rw [Int.toNat_of_nonneg hnn]
  calc (g : ℤ) * (g.gcdA n % n) ≡ g * g.gcdA n [ZMOD n] := (Int.mod_modEq _ _).mul_left _
    _ = 1 - n * g.gcdB n := by push_cast at hbez; omega
    _ ≡ 1 - 0 [ZMOD n] := Int.ModEq.rfl.sub (Int.modEq_zero_iff_dvd.2 (dvd_mul_right _ _))
    _ = 1 := sub_zero 1

/-- `GenUserKey` on a random stream: `rand.Int` skips the draws that are not below its bound
`P - 2`, and the loop skips those that are not coprime to `P - 1`. -/
def genUserKey (P : ℕ) : List ℕ → Option PrivateKey
  | [] => none
  | r :: draws =>
    if r < P - 2 then
      let e := r + 1
      if Nat.size (e.gcd (P - 1)) ≠ 1 then genUserKey P draws
      else (modInverse e (P - 1)).map fun d => ⟨P, e, d⟩
    else genUserKey P draws

end MasseyOmura

/-! ## Messages and keys as byte strings -/

/-- The comparison loop of `Msg.Equal` and `PrivateKey.HashEquals`. -/
def equalBytes (a b : Bytes) : Bool :=
  if a.length ≠ b.length then false else (a.zip b).all fun x => x.1 == x.2

theorem equalBytes_iff (a b : Bytes) : equalBytes a b = true ↔ a = b := by
  unfold equalBytes
  induction a generalizing b with
  | nil => cases b <;> simp
  | cons x a ih =>
    cases b with
    | nil => simp
    | cons y b =>
      have := ih b
      by_cases h : a.length = b.length <;> simp_all

/-- The raw bytes of an integer; the empty string is the null value. -/
structure Msg where
  M : Bytes
  deriving DecidableEq, Repr

namespace Msg

def getM (m : Msg) : ℕ := setBytes m.M

def equal (m m2 : Msg) : Bool := equalBytes m.M m2.M

def deepCopy (m : Msg) : Msg := ⟨copyBytes m.M⟩

def isNil (m : Msg) : Bool := m.M.isEmpty

end Msg

def nilMsg : Msg := ⟨[]⟩

def newMsg (m : ℕ) : Msg := ⟨bytes m⟩

theorem Msg.equal_iff (m m2 : Msg) : m.equal m2 = true ↔ m = m2 := by
  cases m
  cases m2
  simp [Msg.equal, equalBytes_iff]

@[simp] theorem Msg.deepCopy_eq (m : Msg) : m.deepCopy = m := by simp [Msg.deepCopy]

@[simp] theorem getM_newMsg (m : ℕ) : (newMsg m).getM = m := setBytes_bytes m

@[simp] theorem isNil_nilMsg : nilMsg.isNil = true := rfl

theorem Msg.eq_nilMsg {m : Msg} (h : m.isNil = true) : m = nilMsg := by
  cases m
  simpa [Msg.isNil, nilMsg] using h

theorem isNil_newMsg (m : ℕ) : (newMsg m).isNil = true ↔ m = 0 := by
  simp [Msg.isNil, newMsg, bytes_eq_nil_iff]

theorem Msg.isNil_eq_false {m : Msg} (h : 1 ≤ m.getM) : m.isNil = false := by
  rw [Bool.eq_false_iff]
  intro hnil
  rw [Msg.eq_nilMsg hnil] at h
  exact absurd h (by decide)

structure PrivateKey where
  E : Bytes
  D : Bytes
  deriving DecidableEq, Repr

namespace PrivateKey

def hash (env : Env) (pk : PrivateKey) : Bytes := (env.sha256 (pk.E ++ pk.D)).toList

def hashEquals (env : Env) (pk : PrivateKey) (hash : Bytes) : Bool :=
  equalBytes (pk.hash env) hash

def getE (pk : PrivateKey) : ℕ := setBytes pk.E

def getD (pk : PrivateKey) : ℕ := setBytes pk.D

def deepCopy (pk : PrivateKey) : PrivateKey := ⟨copyBytes pk.E, copyBytes pk.D⟩

/-- Only `E` is looked at. -/
def isNil (pk : PrivateKey) : Bool := pk.E.isEmpty

end PrivateKey

def nilPrivateKey : PrivateKey := ⟨[], []⟩

theorem PrivateKey.hashEquals_iff (env : Env) (pk : PrivateKey) (hash : Bytes) :
    pk.hashEquals env hash = true ↔ pk.hash env = hash := equalBytes_iff _ _

@[simp] theorem PrivateKey.deepCopy_eq (pk : PrivateKey) : pk.deepCopy = pk := by
  simp [PrivateKey.deepCopy]

@[simp] theorem isNil_nilPrivateKey : nilPrivateKey.isNil = true := rfl

/-! ## `masseyOmuraCrypto` -/

/-- The only implementation of the interface `CommutativeCrypto`. -/
structure Crypto where
  P : Bytes
  deriving DecidableEq, Repr

namespace Crypto

def getP (mo : Crypto) : ℕ := setBytes mo.P

def verify (env : Env) (mo : Crypto) (messageSize : ℤ) :
    Except MasseyOmura.SysKeyError Unit :=
  MasseyOmura.verifySysKey env mo.getP (MasseyOmura.bitsMaxSize messageSize)

def prepareMsg (mo : Crypto) (msg : Bytes) : Go (Except MasseyOmura.TooLong Msg) := do
  let m ← MasseyOmura.prepareMsg msg (Nat.size mo.getP)
  return m.map newMsg

def createPrivateKey (mo : Crypto) (key : PrivateKey) : MasseyOmura.PrivateKey :=
  ⟨mo.getP, key.getE, key.getD⟩

def encrypt (mo : Crypto) (key : PrivateKey) (m : Msg) : Msg :=
  newMsg (MasseyOmura.encrypt (mo.createPrivateKey key) m.getM)

def decrypt (mo : Crypto) (key : PrivateKey) (m : Msg) : Msg :=
  newMsg (MasseyOmura.decrypt (mo.createPrivateKey key) m.getM)

def extractMsg (_mo : Crypto) (m : Msg) : Go Bytes := MasseyOmura.extractMsg m.getM

/-- `GenKey` on a random stream that it does not exhaust. -/
def genKey (mo : Crypto) (draws : List ℕ) : Option PrivateKey :=
  (MasseyOmura.genUserKey mo.getP draws).map fun pk => ⟨bytes pk.E, bytes pk.D⟩

def deepCopy (mo : Crypto) : Crypto := ⟨copyBytes mo.P⟩

@[simp] theorem deepCopy_eq (mo : Crypto) : mo.deepCopy = mo := by simp [deepCopy]

end Crypto

end EggScrambler
