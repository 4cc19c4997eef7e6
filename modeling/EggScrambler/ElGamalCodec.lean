import Mathlib
import EggScrambler.Codec
import EggScrambler.StateMachine

/-!
# The message codec of the package `elgamal`

`PrepareMsg`, `ExtractMsg`, `pad` and `unpad` of `elgamal/encrypt.go`.  `PrepareMsg` accepts
messages of up to `maxsize` bytes and hands `maxsize` to `pad` as the target length.  `pad` refuses
a message of that length, allocates one byte less, and needs one more for the zero that ends the
padding, so the last two lengths that are accepted panic.  The next one leaves no room for a one in
front of the zero, which `SetBytes` then drops, as in `masseyomura` (`roundTrips_iff`).

What `pad` returns is the padding of `masseyomura` for a modulus that is two bytes shorter
(`pad_eq_padding`).
-/

namespace EggScrambler.ElGamal

open BigEndian MasseyOmura

/-! ## The functions -/

/-- `xs[i] = x`, for an index that may be negative. -/
def setIndex (xs : Bytes) (i : ℤ) (x : UInt8) : Go Bytes :=
  if 0 ≤ i then setAt xs i.toNat x else .error .indexOutOfRange

/-- `copy(dst[i:], src)`. -/
def copyFrom (dst : Bytes) (i : ℤ) (src : Bytes) : Go Bytes :=
  if 0 ≤ i ∧ i ≤ dst.length then .ok (dst.take i.toNat ++ copy (dst.drop i.toNat) src)
  else .error .sliceOutOfRange

/-- The loop of `pad`: the first `n` bytes become one. -/
def fillOnes (padded : Bytes) (n : ℕ) : Go Bytes :=
  (List.range n).foldlM (fun padded i => setAt padded i 1) padded

def pad (msg : Bytes) (targetlen : ℤ) : Go Bytes :=
  if targetlen < msg.length then .error .cannotShorten
  else if msg.length = targetlen then .error .messageTooLong
  else do
    let padded := List.replicate (targetlen - 1).toNat 0
    let padded ← fillOnes padded (targetlen - 2 - msg.length).toNat
    let padded ← setIndex padded (targetlen - 2 - msg.length) 0
    copyFrom padded (targetlen - msg.length - 1) msg

/-- The same function as `unPad` of `masseyomura`. -/
def unpad (msg : Bytes) : Go Bytes := unPad msg

/-- The size that `PrepareMsg` checks against. -/
def maxsize (plen : ℤ) : ℤ := (plen + 7).tdiv 8 - 2

def prepareMsg (msg : Bytes) (plen : ℤ) : Go (Except TooLong ℕ) :=
  if maxsize plen < msg.length then .ok (.error ⟨msg.length, plen⟩)
  else do
    let padded ← pad msg (maxsize plen)
    return .ok (setBytes padded)

def extractMsg (D : ℕ) : Go Bytes := unpad (bytes D)

/-- A message is prepared without a panic, as an integer below every modulus of `plen` bits, and
extracted unchanged. -/
def Survives (msg : Bytes) (plen : ℕ) : Prop :=
  ∃ m, prepareMsg msg plen = .ok (.ok m) ∧ (∀ P : ℕ, Nat.size P = plen → m < P) ∧
    extractMsg m = .ok msg

/-! ## Padding -/

theorem setAt_append (xs ys : Bytes) (y x : UInt8) :
    setAt (xs ++ y :: ys) xs.length x = .ok (xs ++ x :: ys) := by
  rw [setAt, if_pos (by simp)]
  simp

theorem setIndex_append (xs ys : Bytes) (y x : UInt8) :
    setIndex (xs ++ y :: ys) xs.length x = .ok (xs ++ x :: ys) := by
  rw [setIndex, if_pos (Int.natCast_nonneg _), Int.toNat_natCast, setAt_append]

theorem copyFrom_append {xs dst src : Bytes} (h : dst.length = src.length) :
    copyFrom (xs ++ dst) xs.length src = .ok (xs ++ src) := by
  rw [copyFrom, if_pos (by simp), Int.toNat_natCast, List.take_left, List.drop_left, copy_eq h]

theorem fillOnes_replicate (n k : ℕ) : fillOnes (List.replicate (n + k) 0) n =
    .ok (List.replicate n 1 ++ List.replicate k 0) := by
  induction n generalizing k with
  | zero => rw [Nat.zero_add]; rfl
  | succ n ih =>
    have hset := setAt_append (List.replicate n 1) (List.replicate k 0) 0 1
    rw [List.length_replicate] at hset
    have hn : n + 1 + k = n + (k + 1) := by omega
    specialize ih (k + 1)
    rw [fillOnes] at ih ⊢
    rw [hn, List.range_succ, List.foldlM_append, ih, List.replicate_succ, List.replicate_succ',
      List.append_assoc]
    simp only [List.foldlM_cons, List.foldlM_nil, bind_pure]
    exact hset

/-- Ones, a zero and the message, if there is room for the zero. -/
theorem pad_of_le {msg : Bytes} {targetlen : ℤ} (h : msg.length + 2 ≤ targetlen) :
    pad msg targetlen =
      .ok (List.replicate (targetlen - 2 - msg.length).toNat 1 ++ 0 :: msg) := by
  obtain ⟨k, rfl⟩ : ∃ k : ℕ, targetlen = k + 2 + msg.length :=
    ⟨(targetlen - 2 - msg.length).toNat, by omega⟩
  have h₁ : ¬ (k + 2 + msg.length : ℤ) < msg.length := by omega
  have h₂ : ¬ (msg.length : ℤ) = k + 2 + msg.length := by omega
  have hlen : ((k + 2 + msg.length : ℤ) - 1).toNat = k + (msg.length + 1) := by omega
  have hones : (k + 2 + msg.length : ℤ) - 2 - msg.length = k := by omega
  have hfrom : (k + 2 + msg.length : ℤ) - msg.length - 1 = (k + 1 : ℕ) := by push_cast; omega
  have hset := setIndex_append (List.replicate k 1) (List.replicate msg.length 0) 0 0
  have hcopy : copyFrom (List.replicate k 1 ++ [0] ++ List.replicate msg.length 0) _ msg = _ :=
    copyFrom_append List.length_replicate
  rw [List.length_replicate] at hset
  rw [List.length_append, List.length_replicate, List.length_singleton] at hcopy
  simp only [pad, if_neg h₁, if_neg h₂, hlen, hones, hfrom, Int.toNat_natCast,
    fillOnes_replicate, List.replicate_succ]
  change (setIndex _ _ _ >>= _) = _
  rw [hset]
  change copyFrom _ _ _ = _
  simpa using hcopy

/-- A message of one byte less than the target length panics, too. -/
theorem pad_of_eq {msg : Bytes} {targetlen : ℤ} (h : msg.length + 1 = targetlen) :
    pad msg targetlen = .error .indexOutOfRange := by
  subst h
  have h₁ : ¬ (msg.length + 1 : ℤ) < msg.length := by omega
  have h₂ : ¬ (msg.length : ℤ) = msg.length + 1 := by omega
  have hneg : (msg.length + 1 : ℤ) - 2 - msg.length = -1 := by omega
  simp only [pad, if_neg h₁, if_neg h₂, hneg]
  rfl

/-- The sizes of the two packages. -/
theorem bytesMaxSize_sub {plen : ℕ} (h : 2 ≤ maxsize plen) :
    bytesMaxSize (plen - 16) = maxsize plen - 2 := by
  unfold maxsize bytesMaxSize at *
  rw [Int.tdiv_eq_ediv_of_nonneg (by omega)] at h ⊢
  rw [Int.tdiv_eq_ediv_of_nonneg (by omega)]
  omega

theorem pad_eq_padding {msg : Bytes} {plen : ℕ} (h : msg.length + 2 ≤ maxsize plen) :
    pad msg (maxsize plen) = .ok (padding msg (plen - 16)) := by
  rw [pad_of_le h, padding, bytesMaxSize_sub (by omega)]

/-! ## The round trip -/

section Codec

variable {msg : Bytes} {plen : ℕ}

theorem prepareMsg_of_le (h : msg.length + 2 ≤ maxsize plen) :
    prepareMsg msg plen = .ok (.ok (setBytes (padding msg (plen - 16)))) := by
  rw [prepareMsg, if_neg (by omega), pad_eq_padding h]
  rfl

/-- The last two sizes that pass the check. -/
theorem prepareMsg_of_ge (h : msg.length ≤ maxsize plen) (h' : maxsize plen ≤ msg.length + 1) :
    ∃ p, prepareMsg msg plen = .error p := by
  rw [prepareMsg, if_neg (by omega)]
  rcases h.lt_or_eq with hlt | heq
  · exact ⟨.indexOutOfRange, by rw [pad_of_eq (by omega)]; rfl⟩
  · refine ⟨.messageTooLong, ?_⟩
    rw [pad, if_neg (by omega), if_pos heq]
    rfl

/-- The prepared integer is below the modulus. -/
theorem setBytes_padding_lt_of_size {P : ℕ} (h : msg.length + 2 ≤ maxsize (Nat.size P)) :
    setBytes (padding msg (Nat.size P - 16)) < P := by
  have hsub : bytesMaxSize (Nat.size P - 16) = _ := bytesMaxSize_sub (by omega)
  have hle : (msg.length : ℤ) ≤ bytesMaxSize (Nat.size P - 16) := by omega
  have hlen := length_padding hle
  have hbits := bytesMaxSize_lt (show 0 ≤ bytesMaxSize (Nat.size P - 16) by omega)
  exact setBytes_lt_of_size le_rfl (by omega)

/-- What is prepared is extracted unchanged if there is a one in front of the zero. -/
theorem survives_iff_of_le (h : msg.length + 2 ≤ maxsize plen) :
    Survives msg plen ↔ msg.length + 3 ≤ maxsize plen := by
  have hsub := bytesMaxSize_sub (show 2 ≤ maxsize plen by omega)
  constructor
  · rintro ⟨m, hm, -, hx⟩
    rw [prepareMsg_of_le h] at hm
    cases hm
    by_contra hne
    -- the padding is the zero alone, and the message itself is cut
    exact lt_irrefl _ (length_lt_of_extractMsg (by omega) hx)
  · intro hlt
    refine ⟨_, prepareMsg_of_le h, ?_, extractMsg_of_lt (by omega)⟩
    rintro P rfl
    exact setBytes_padding_lt_of_size h

/-- **The codec.** Of the messages that pass the check of `PrepareMsg`, exactly those that are at
least three bytes shorter than the maximum are prepared and extracted unchanged; the last two sizes
panic, and whatever is prepared is below the modulus. -/
theorem survives_iff (plen : ℕ) (msg : Bytes) (h : msg.length ≤ maxsize plen) :
    (Survives msg plen ↔ msg.length + 3 ≤ maxsize plen) ∧
    ((∃ p, prepareMsg msg plen = .error p) ↔ maxsize plen ≤ msg.length + 1) ∧
    ∀ m, prepareMsg msg plen = .ok (.ok m) → ∀ P : ℕ, Nat.size P = plen → m < P := by
  rcases le_or_gt (maxsize plen) (msg.length + 1) with hge | hlt
  · obtain ⟨p, hp⟩ := prepareMsg_of_ge h hge
    refine ⟨iff_of_false ?_ (by omega), iff_of_true ⟨p, hp⟩ hge, fun m hm => ?_⟩
    · rintro ⟨m, hm, -⟩
      rw [hp] at hm
      cases hm
    · rw [hp] at hm
      cases hm
  · have hle : (msg.length : ℤ) + 2 ≤ maxsize plen := by omega
    have hprep := prepareMsg_of_le hle
    refine ⟨survives_iff_of_le hle, iff_of_false ?_ (by omega), fun m hm P hP => ?_⟩
    · rintro ⟨p, hp⟩
      rw [hprep] at hp
      cases hp
    · rw [hprep] at hm
      cases hm
      subst hP
      exact setBytes_padding_lt_of_size hle

end Codec

/-- One byte under a modulus of 48 bits. -/
theorem survives_iff_short : Survives [7] 48 := (survives_iff 48 [7] (by decide)).1.2 (by decide)

/-- For 40 bits, messages of up to three bytes pass the check: two sizes panic in `pad`, and one
byte is prepared as itself, without a zero in front, and panics in `unpad`. -/
theorem not_survives_forty : maxsize 40 = 3 ∧
    prepareMsg [1, 2, 3] 40 = .error .messageTooLong ∧
    prepareMsg [1, 2] 40 = .error .indexOutOfRange ∧
    prepareMsg [13] 40 = .ok (.ok 13) ∧ extractMsg 13 = .error .noZeroInMessage ∧
    ¬ ∀ (plen : ℕ) (msg : Bytes), msg.length ≤ maxsize plen → Survives msg plen := by
  refine ⟨by decide, by decide, by decide, by decide, by decide, fun h => ?_⟩
  have hpanic : prepareMsg [1, 2, 3] (40 : ℕ) = .error .messageTooLong := by decide
  obtain ⟨m, hm, -, -⟩ := h 40 [1, 2, 3] (by decide)
  rw [hpanic] at hm
  cases hm

end EggScrambler.ElGamal
