import Mathlib
import EggScrambler.Crypto

/-!
# The message codec

`PrepareMsg` pads a message with ones and a zero and reads it as an integer; `ExtractMsg` writes the
integer back and drops everything up to the first zero byte.  The two sizes `bytesMaxSize` and
`BitsMaxSize` are inverse to each other, and the prepared integer is below every modulus of the
given bit length.

The round trip succeeds exactly for the messages that leave room for a padding byte
(`roundTrips_iff`): a message of the maximum size is padded with the single byte zero, which
`SetBytes` drops as a leading zero, so `unPad` then cuts the message itself.
-/

namespace EggScrambler.MasseyOmura

open BigEndian

/-- A prepared message is extracted without a panic and unchanged. -/
def RoundTrips (msg : Bytes) (plen : ℤ) : Prop :=
  ∃ m, prepareMsg msg plen = .ok (.ok m) ∧ extractMsg m = .ok msg

/-! ## Sizes -/

theorem bytesMaxSize_bitsMaxSize {k : ℤ} (hk : -1 ≤ k) : bytesMaxSize (bitsMaxSize k) = k := by
  have h : (8 * (k + 1) + 1 - 1).tdiv 8 = k + 1 := by
    rw [Int.tdiv_eq_ediv_of_nonneg (by omega)]
    omega
  rw [bytesMaxSize, bitsMaxSize, h]
  omega

/-- The padded message has fewer bits than the modulus. -/
theorem bytesMaxSize_lt {plen : ℤ} (h : 0 ≤ bytesMaxSize plen) :
    8 * (bytesMaxSize plen + 1) < plen := by
  unfold bytesMaxSize at *
  have h₁ : 0 ≤ plen - 1 := by
    by_contra hneg
    have h₂ : 0 ≤ (1 - plen).tdiv 8 := Int.tdiv_nonneg (by omega) (by norm_num)
    have h₃ : (plen - 1).tdiv 8 = -(1 - plen).tdiv 8 := by rw [← Int.neg_tdiv, neg_sub]
    omega
  rw [Int.tdiv_eq_ediv_of_nonneg h₁] at *
  omega

/-! ## Padding -/

/-- The padded bytes of a message that `PrepareMsg` accepts. -/
def padding (msg : Bytes) (plen : ℤ) : Bytes :=
  List.replicate (bytesMaxSize plen - msg.length).toNat 1 ++ 0 :: msg

theorem prepareMsg_of_le {msg : Bytes} {plen : ℤ} (h : msg.length ≤ bytesMaxSize plen) :
    prepareMsg msg plen = .ok (.ok (setBytes (padding msg plen))) := by
  have h₁ : ¬ bytesMaxSize plen < msg.length := by omega
  have h₂ : ¬ bytesMaxSize plen + 1 < msg.length := by omega
  have h₃ : ¬ (msg.length : ℤ) = bytesMaxSize plen + 1 := by omega
  have h₄ : bytesMaxSize plen + 1 - 1 - msg.length = bytesMaxSize plen - msg.length := by omega
  simp only [prepareMsg, pad, if_neg h₁, if_neg h₂, if_neg h₃, h₄]
  rfl

theorem prepareMsg_of_lt {msg : Bytes} {plen : ℤ} (h : bytesMaxSize plen < msg.length) :
    prepareMsg msg plen = .ok (.error ⟨msg.length, plen⟩) := by
  simp [prepareMsg, h]

theorem length_padding {msg : Bytes} {plen : ℤ} (h : msg.length ≤ bytesMaxSize plen) :
    ((padding msg plen).length : ℤ) = bytesMaxSize plen + 1 := by
  simp only [padding, List.length_append, List.length_replicate, List.length_cons]
  omega

/-- The prepared integer is below the modulus. -/
theorem setBytes_padding_lt {msg : Bytes} {P : ℕ} (h : msg.length ≤ bytesMaxSize (Nat.size P)) :
    setBytes (padding msg (Nat.size P)) < P := by
  have h₁ := bytesMaxSize_lt (show 0 ≤ bytesMaxSize (Nat.size P) by omega)
  have h₂ := length_padding h
  exact setBytes_lt_of_size le_rfl (by omega)

theorem unPad_replicate (k : ℕ) (msg : Bytes) :
    unPad (List.replicate k 1 ++ 0 :: msg) = .ok msg := by
  induction k with
  | zero => simp [unPad]
  | succ k ih => simpa [unPad, List.replicate_succ] using ih

/-- Different messages have different padded bytes. -/
theorem padding_injective {plen : ℤ} : Function.Injective fun msg => padding msg plen := by
  intro msg msg' h
  have hunpad := congrArg unPad h
  simp only [padding, unPad_replicate] at hunpad
  exact Except.ok.inj hunpad

/-- Accepted messages are determined by the prepared integer. -/
theorem eq_of_setBytes_padding {msg msg' : Bytes} {plen : ℤ} (h : msg.length ≤ bytesMaxSize plen)
    (h' : msg'.length ≤ bytesMaxSize plen)
    (heq : setBytes (padding msg plen) = setBytes (padding msg' plen)) : msg = msg' := by
  have hlen : (padding msg plen).length = (padding msg' plen).length := by
    rw [← Int.natCast_inj, length_padding h, length_padding h']
  exact padding_injective (eq_of_setBytes_eq hlen heq)

/-- What `unPad` returns is a proper suffix of its argument. -/
theorem length_lt_of_unPad {bs x : Bytes} (h : unPad bs = .ok x) : x.length < bs.length := by
  induction bs with
  | nil => cases h
  | cons b bs ih =>
    rw [unPad] at h
    split_ifs at h with hb
    · cases h
      simp
    · exact (ih h).trans (by simp)

/-- With a padding byte in front, nothing is lost. -/
theorem extractMsg_of_lt {msg : Bytes} {plen : ℤ} (h : msg.length < bytesMaxSize plen) :
    extractMsg (setBytes (padding msg plen)) = .ok msg := by
  obtain ⟨k, hk⟩ : ∃ k, (bytesMaxSize plen - msg.length).toNat = k + 1 :=
    ⟨(bytesMaxSize plen - msg.length).toNat - 1, by omega⟩
  have hpad : padding msg plen = 1 :: (List.replicate k 1 ++ 0 :: msg) := by
    rw [padding, hk, List.replicate_succ, List.cons_append]
  rw [extractMsg, hpad, bytes_setBytes_of_head (by decide), ← hpad, padding, unPad_replicate]

/-- Without one, the message itself is cut. -/
theorem length_lt_of_extractMsg {msg x : Bytes} {plen : ℤ} (h : msg.length = bytesMaxSize plen)
    (hx : extractMsg (setBytes (padding msg plen)) = .ok x) : x.length < msg.length := by
  have hpad : padding msg plen = 0 :: msg := by
    rw [padding, ← h]
    simp
  rw [extractMsg, hpad, setBytes_zero_cons, bytes_setBytes] at hx
  exact (length_lt_of_unPad hx).trans_le (List.length_dropWhile_le _ _)

/-! ## The round trip -/

theorem roundTrips_iff_lt {msg : Bytes} {plen : ℤ} (h : msg.length ≤ bytesMaxSize plen) :
    RoundTrips msg plen ↔ msg.length < bytesMaxSize plen := by
  constructor
  · rintro ⟨m, hm, hx⟩
    rw [prepareMsg_of_le h] at hm
    cases hm
    refine lt_of_le_of_ne h fun heq => ?_
    exact lt_irrefl _ (length_lt_of_extractMsg heq hx)
  · intro hlt
    exact ⟨_, prepareMsg_of_le h, extractMsg_of_lt hlt⟩

/-- **The codec.** An accepted message survives the round trip exactly when it is shorter than the
maximum; for the modulus of a client, when header and message are shorter than
`MessageSize + 16`. -/
theorem roundTrips_iff (P messageSize : ℕ) (msg : Bytes) :
    (msg.length ≤ bytesMaxSize (Nat.size P) →
      (RoundTrips msg (Nat.size P) ↔ msg.length < bytesMaxSize (Nat.size P))) ∧
    (msg.length ≤ messageSize + 16 →
      (RoundTrips msg (bitsMaxSize (messageSize + 16)) ↔ msg.length < messageSize + 16)) := by
  refine ⟨fun h => roundTrips_iff_lt h, fun h => ?_⟩
  have hk : bytesMaxSize (bitsMaxSize (messageSize + 16)) = messageSize + 16 :=
    bytesMaxSize_bitsMaxSize (by omega)
  rw [roundTrips_iff_lt (by omega), hk]
  omega

/-- One byte under a modulus of seventeen bits has the maximum size; five bytes under `BitsMaxSize
(16)` are short. -/
theorem roundTrips_iff_at :
    (RoundTrips [13] (Nat.size 65537) ↔ (1 : ℤ) < bytesMaxSize (Nat.size 65537)) ∧
    (RoundTrips [0, 1, 0, 2, 3] (bitsMaxSize (0 + 16)) ↔ 5 < 0 + 16) :=
  ⟨(roundTrips_iff 65537 0 [13]).1 (by decide),
    (roundTrips_iff 65537 0 [0, 1, 0, 2, 3]).2 (by decide)⟩

/-- `PrepareMsg` accepts one byte under the prime `65537`, and `ExtractMsg` panics on it. -/
theorem not_roundTrips_maxSize :
    ([13] : Bytes).length ≤ bytesMaxSize (Nat.size 65537) ∧
      prepareMsg [13] (Nat.size 65537) = .ok (.ok 13) ∧
      extractMsg 13 = .error .noZeroInMessage ∧
      ¬ ∀ (P : ℕ) (msg : Bytes), msg.length ≤ bytesMaxSize (Nat.size P) →
        RoundTrips msg (Nat.size P) := by
  have hsize : (Nat.size 65537 : ℤ) = 17 := by decide
  refine ⟨by decide, by rw [hsize]; decide, by decide, fun h => ?_⟩
  have h13 := h 65537 [13] (by decide)
  rw [roundTrips_iff_lt (by decide)] at h13
  exact absurd h13 (by decide)

end EggScrambler.MasseyOmura
