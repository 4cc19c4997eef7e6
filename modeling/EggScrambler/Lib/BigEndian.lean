import Mathlib

/-!
# Big-endian byte strings

Arbitrary-precision naturals as byte strings, most significant byte first.  `setBytes` reads any
byte string; `bytes` writes the shortest one, so a round trip through a number drops the leading
zero bytes (`bytes_setBytes`) and nothing else (`setBytes_bytes`).
-/

namespace BigEndian

/-- The number written by a big-endian byte string. -/
def setBytes (bs : List UInt8) : ℕ := bs.foldl (fun n b => 256 * n + b.toNat) 0

/-- The shortest big-endian byte string of a number; zero is the empty string. -/
def bytes (n : ℕ) : List UInt8 := ((Nat.digits 256 n).map UInt8.ofNat).reverse

/-! ## Reading -/

theorem setBytes_append (xs ys : List UInt8) :
    setBytes (xs ++ ys) = setBytes xs * 256 ^ ys.length + setBytes ys := by
  induction ys using List.reverseRecOn with
  | nil => simp [setBytes]
  | append_singleton ys y ih =>
    have h : ∀ zs : List UInt8, setBytes (zs ++ [y]) = 256 * setBytes zs + y.toNat := by
      intro zs
      simp [setBytes, List.foldl_append]
    rw [← List.append_assoc, h, h, ih, List.length_append, List.length_singleton, pow_succ]
    ring

@[simp] theorem setBytes_nil : setBytes [] = 0 := rfl

theorem setBytes_cons (b : UInt8) (bs : List UInt8) :
    setBytes (b :: bs) = b.toNat * 256 ^ bs.length + setBytes bs := by
  have h := setBytes_append [b] bs
  simpa [setBytes] using h

theorem setBytes_lt (bs : List UInt8) : setBytes bs < 256 ^ bs.length := by
  induction bs with
  | nil => simp
  | cons b bs ih =>
    rw [setBytes_cons, List.length_cons, pow_succ]
    have hb : b.toNat < 256 := b.toNat_lt
    calc b.toNat * 256 ^ bs.length + setBytes bs
        < b.toNat * 256 ^ bs.length + 256 ^ bs.length := Nat.add_lt_add_left ih _
      _ = (b.toNat + 1) * 256 ^ bs.length := by ring
      _ ≤ 256 * 256 ^ bs.length := Nat.mul_le_mul_right _ hb
      _ = 256 ^ bs.length * 256 := Nat.mul_comm _ _

/-- A leading zero byte does not change the number. -/
theorem setBytes_zero_cons (bs : List UInt8) : setBytes (0 :: bs) = setBytes bs := by
  simp [setBytes_cons]

theorem setBytes_dropWhile (bs : List UInt8) :
    setBytes (bs.dropWhile (· == 0)) = setBytes bs := by
  induction bs with
  | nil => rfl
  | cons b bs ih =>
    by_cases hb : b = 0
    · subst hb
      rw [setBytes_zero_cons, ← ih]
      rfl
    · rw [List.dropWhile_cons_of_neg (by simpa using hb)]

theorem setBytes_pos {b : UInt8} {bs : List UInt8} (hb : b ≠ 0) : 0 < setBytes (b :: bs) := by
  have h : 0 < b.toNat := Nat.pos_of_ne_zero fun h => hb (by simpa [UInt8.ext_iff] using h)
  rw [setBytes_cons]
  positivity

theorem setBytes_pos_of_mem {b : UInt8} {bs : List UInt8} (hmem : b ∈ bs) (hb : b ≠ 0) :
    0 < setBytes bs := by
  induction bs with
  | nil => cases hmem
  | cons x bs ih =>
    rcases List.mem_cons.1 hmem with rfl | hmem
    · exact setBytes_pos hb
    · rw [setBytes_cons]
      exact Nat.add_pos_right _ (ih hmem)

/-- Strings of one length are determined by their number. -/
theorem eq_of_setBytes_eq {xs ys : List UInt8} (hlen : xs.length = ys.length)
    (h : setBytes xs = setBytes ys) : xs = ys := by
  induction xs generalizing ys with
  | nil => exact (List.length_eq_zero_iff.1 hlen.symm).symm
  | cons x xs ih =>
    cases ys with
    | nil => cases hlen
    | cons y ys =>
      have hlen' : xs.length = ys.length := Nat.succ.inj hlen
      rw [setBytes_cons, setBytes_cons, ← hlen'] at h
      have hx := setBytes_lt xs
      have hy := hlen' ▸ setBytes_lt ys
      have hpos : 0 < 256 ^ xs.length := by positivity
      -- the first byte is the quotient, the number of the rest the remainder
      have hdiv := congrArg (· / 256 ^ xs.length) h
      simp only [mul_comm _ (256 ^ xs.length), Nat.mul_add_div hpos, Nat.div_eq_of_lt hx,
        Nat.div_eq_of_lt hy, add_zero] at hdiv
      obtain rfl : x = y := UInt8.toNat_inj.1 hdiv
      rw [ih hlen' (Nat.add_left_cancel h)]

/-! ## Writing -/

@[simp] theorem bytes_zero : bytes 0 = [] := by simp [bytes]

theorem bytes_eq_nil_iff {n : ℕ} : bytes n = [] ↔ n = 0 := by
  simp [bytes, Nat.digits_eq_nil_iff_eq_zero]

/-- The last byte written is the low byte, and the bytes before it write the rest. -/
theorem bytes_of_pos {n : ℕ} (h : 0 < n) :
    bytes n = bytes (n / 256) ++ [UInt8.ofNat (n % 256)] := by
  rw [bytes, Nat.digits_def' (by norm_num) h]
  simp [bytes]

theorem setBytes_bytes (n : ℕ) : setBytes (bytes n) = n := by
  induction n using Nat.strong_induction_on with
  | _ n ih =>
    rcases Nat.eq_zero_or_pos n with rfl | h
    · simp
    · have hm : n % 256 % 2 ^ 8 = n % 256 := Nat.mod_eq_of_lt (Nat.mod_lt _ (by norm_num))
      rw [bytes_of_pos h, setBytes_append, ih _ (Nat.div_lt_self h (by norm_num))]
      simp only [setBytes_cons, setBytes_nil, List.length_nil, List.length_singleton,
        UInt8.toNat_ofNat', hm]
      omega

/-- A string that does not begin with a zero byte is the one written for its number. -/
theorem bytes_setBytes_of_head {b : UInt8} {bs : List UInt8} (hb : b ≠ 0) :
    bytes (setBytes (b :: bs)) = b :: bs := by
  induction bs using List.reverseRecOn with
  | nil =>
    have hpos : 0 < setBytes [b] := setBytes_pos hb
    have hlt : b.toNat < 256 := b.toNat_lt
    have hval : setBytes [b] = b.toNat := by simp [setBytes]
    rw [bytes_of_pos hpos, hval, Nat.div_eq_of_lt hlt, Nat.mod_eq_of_lt hlt]
    simp
  | append_singleton bs c ih =>
    have hlt : c.toNat < 256 := c.toNat_lt
    have hval : setBytes (b :: (bs ++ [c])) = setBytes (b :: bs) * 256 + c.toNat := by
      have h := setBytes_append (b :: bs) [c]
      simpa [setBytes] using h
    have hpos : 0 < setBytes (b :: (bs ++ [c])) := setBytes_pos hb
    have hdiv : setBytes (b :: (bs ++ [c])) / 256 = setBytes (b :: bs) := by omega
    have hmod : setBytes (b :: (bs ++ [c])) % 256 = c.toNat := by omega
    rw [bytes_of_pos hpos, hdiv, hmod, ih]
    simp

/-- A round trip through the number drops the leading zero bytes. -/
theorem bytes_setBytes (bs : List UInt8) : bytes (setBytes bs) = bs.dropWhile (· == 0) := by
  rw [← setBytes_dropWhile]
  cases h : bs.dropWhile (· == 0) with
  | nil => simp
  | cons b rest =>
    have hb := List.head?_dropWhile_not (· == 0) bs
    rw [h] at hb
    exact bytes_setBytes_of_head (by simpa using hb)

/-! ## Bit lengths -/

/-- A string of at most `k` bytes is below every number of more than `8 * k` bits. -/
theorem setBytes_lt_of_size {bs : List UInt8} {k p : ℕ} (hk : bs.length ≤ k)
    (hp : 8 * k < Nat.size p) : setBytes bs < p := by
  have h₁ : setBytes bs < 2 ^ (8 * k) := by
    calc setBytes bs < 256 ^ bs.length := setBytes_lt bs
      _ ≤ 256 ^ k := Nat.pow_le_pow_right (by norm_num) hk
      _ = 2 ^ (8 * k) := by rw [pow_mul]; norm_num
  exact h₁.trans_le (Nat.lt_size.1 hp)

end BigEndian
