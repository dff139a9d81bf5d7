import Mathlib.Data.Nat.Size
import Mathlib.Tactic

/-!
# The portable 128-bit unsigned integer

`absl::uint128` without `unsigned __int128` : two 64-bit words, and every
operator written on the words. A carry or a borrow is read off a wrapped
comparison, the product is put together from 32-bit halves, shifts take the
whole words apart at 64 and `DivModImpl` is shift and subtract on the aligned
denominator.

`Uint128.toNat` is the number `hi * 2^64 + lo`. Every operator has one lemma that
gives the `toNat` of its result, and the division is proved from those alone.
`uint128_ring` puts them together : the operators are those of the integers
modulo `2^128`, the comparisons are those of the numbers, and the division is
the Euclidean one.
-/

namespace Abseil

open Nat

/-- `uint128` : a high and a low word. -/
structure Uint128 where
  hi : BitVec 64
  lo : BitVec 64
  deriving DecidableEq

/-- `countl_zero` of a 64-bit word. -/
def countlZero (x : BitVec 64) : ℤ := 64 - (size x.toNat : ℤ)

namespace Uint128

/-! ## The operators -/

/-- The number that the two words stand for. -/
def toNat (x : Uint128) : ℕ := x.hi.toNat * 2 ^ 64 + x.lo.toNat

/-- `uint128(uint64_t)`. -/
def ofUint64 (v : BitVec 64) : Uint128 := ⟨0, v⟩

/-- `operator==`. -/
def eq (lhs rhs : Uint128) : Bool := lhs.lo == rhs.lo && lhs.hi == rhs.hi

/-- `operator!=`. -/
def ne (lhs rhs : Uint128) : Bool := !(lhs.eq rhs)

/-- `operator<`. -/
def lt (lhs rhs : Uint128) : Bool :=
  if lhs.hi = rhs.hi then decide (lhs.lo < rhs.lo) else decide (lhs.hi < rhs.hi)

/-- `operator>`. -/
def gt (lhs rhs : Uint128) : Bool := rhs.lt lhs

/-- `operator<=`. -/
def le (lhs rhs : Uint128) : Bool := !(rhs.lt lhs)

/-- `operator>=`. -/
def ge (lhs rhs : Uint128) : Bool := !(lhs.lt rhs)

/-- `operator<=>`. -/
def compare (lhs rhs : Uint128) : Ordering :=
  if lhs.hi < rhs.hi then .lt
  else if lhs.hi > rhs.hi then .gt
  else if lhs.lo < rhs.lo then .lt
  else if lhs.lo > rhs.lo then .gt
  else .eq

/-- Unary `operator-`. -/
def neg (val : Uint128) : Uint128 :=
  ⟨~~~val.hi + (if val.lo = 0 then 1 else 0), ~~~val.lo + 1⟩

/-- `operator|`. -/
def or (lhs rhs : Uint128) : Uint128 := ⟨lhs.hi ||| rhs.hi, lhs.lo ||| rhs.lo⟩

/-- `operator<<` ; the amount is an `int`. -/
def shl (lhs : Uint128) (amount : ℤ) : Uint128 :=
  if amount ≥ 64 then ⟨lhs.lo <<< (amount - 64).toNat, 0⟩
  else if amount = 0 then lhs
  else ⟨(lhs.hi <<< amount.toNat) ||| (lhs.lo >>> (64 - amount).toNat), lhs.lo <<< amount.toNat⟩

/-- `operator>>`. -/
def shr (lhs : Uint128) (amount : ℤ) : Uint128 :=
  if amount ≥ 64 then ⟨0, lhs.hi >>> (amount - 64).toNat⟩
  else if amount = 0 then lhs
  else ⟨lhs.hi >>> amount.toNat, (lhs.lo >>> amount.toNat) ||| (lhs.hi <<< (64 - amount).toNat)⟩

/-- `int128_internal::AddResult`. -/
def addResult (result lhs : Uint128) : Uint128 :=
  if result.lo < lhs.lo then ⟨result.hi + 1, result.lo⟩ else result

/-- `operator+`. -/
def add (lhs rhs : Uint128) : Uint128 := addResult ⟨lhs.hi + rhs.hi, lhs.lo + rhs.lo⟩ lhs

/-- `int128_internal::SubstructResult`. -/
def substructResult (result lhs rhs : Uint128) : Uint128 :=
  if lhs.lo < rhs.lo then ⟨result.hi - 1, result.lo⟩ else result

/-- `operator-`. -/
def sub (lhs rhs : Uint128) : Uint128 :=
  substructResult ⟨lhs.hi - rhs.hi, lhs.lo - rhs.lo⟩ lhs rhs

/-- `operator*` on 32-bit limbs. -/
def mul (lhs rhs : Uint128) : Uint128 :=
  let a32 := lhs.lo >>> 32
  let a00 := lhs.lo &&& 0xffffffff
  let b32 := rhs.lo >>> 32
  let b00 := rhs.lo &&& 0xffffffff
  let result : Uint128 := ⟨lhs.hi * rhs.lo + lhs.lo * rhs.hi + a32 * b32, a00 * b00⟩
  let result := result.add ((ofUint64 (a32 * b00)).shl 32)
  result.add ((ofUint64 (a00 * b32)).shl 32)

/-- `Fls128`. -/
def fls128 (n : Uint128) : ℤ :=
  if n.hi ≠ 0 then 127 - countlZero n.hi else 63 - countlZero n.lo

/-- The loop of `DivModImpl`, with the number of iterations left. -/
def divModLoop : ℕ → (dividend denominator quotient : Uint128) → Uint128 × Uint128
  | 0, dividend, _, quotient => (quotient, dividend)
  | n + 1, dividend, denominator, quotient =>
    let quotient := quotient.shl 1
    if dividend.ge denominator then
      divModLoop n (dividend.sub denominator) (denominator.shr 1) (quotient.or (ofUint64 1))
    else
      divModLoop n dividend (denominator.shr 1) quotient

/-- `DivModImpl` : the quotient and the remainder. -/
def divModImpl (dividend divisor : Uint128) : Uint128 × Uint128 :=
  if divisor.gt dividend then (ofUint64 0, dividend)
  else if divisor.eq dividend then (ofUint64 1, ofUint64 0)
  else
    -- left aligns the most significant bits
    let shift := dividend.fls128 - divisor.fls128
    divModLoop (shift + 1).toNat dividend (divisor.shl shift) (ofUint64 0)

/-! ## Comparisons -/

theorem toNat_lt (x : Uint128) : x.toNat < 2 ^ 128 := by
  unfold toNat
  omega

theorem toNat_ofUint64 (v : BitVec 64) : (ofUint64 v).toNat = v.toNat := by
  simp [ofUint64, toNat]

variable {lhs : Uint128}

theorem toNat_inj {rhs : Uint128} : lhs.toNat = rhs.toNat ↔ lhs = rhs := by
  obtain ⟨hi, lo⟩ := lhs
  obtain ⟨hi', lo'⟩ := rhs
  simp only [toNat, mk.injEq, BitVec.toNat_eq]
  omega

section

variable (lhs) (rhs : Uint128)

theorem eq_iff : lhs.eq rhs = true ↔ lhs.toNat = rhs.toNat := by
  rw [toNat_inj]
  obtain ⟨hi, lo⟩ := lhs
  obtain ⟨hi', lo'⟩ := rhs
  simp [eq, and_comm]

theorem lt_iff : lhs.lt rhs = true ↔ lhs.toNat < rhs.toNat := by
  unfold lt toNat
  split <;> rename_i h <;> rw [BitVec.toNat_eq] at h <;>
    simp only [decide_eq_true_eq, BitVec.lt_def] <;> omega

theorem gt_iff : lhs.gt rhs = true ↔ rhs.toNat < lhs.toNat := lt_iff rhs lhs

theorem ge_iff : lhs.ge rhs = true ↔ rhs.toNat ≤ lhs.toNat := by
  rw [ge, Bool.not_eq_true', ← Bool.not_eq_true, lt_iff, not_lt]

theorem le_iff : lhs.le rhs = true ↔ lhs.toNat ≤ rhs.toNat := ge_iff rhs lhs

theorem compare_eq : lhs.compare rhs = Ord.compare lhs.toNat rhs.toNat := by
  unfold compare toNat
  simp only [BitVec.lt_def, gt_iff_lt, compare_eq_ite_lt]
  split_ifs <;> first | rfl | omega

/-! ## Ring operators -/

@[simp] theorem toNat_one : (1 : BitVec 64).toNat = 1 := rfl

@[simp] theorem toNat_zero : (0 : BitVec 64).toNat = 0 := rfl

/-- Addition wraps. -/
theorem toNat_add : (lhs.add rhs).toNat = (lhs.toNat + rhs.toNat) % 2 ^ 128 := by
  -- the low word wrapped exactly when it came out smaller
  unfold add addResult toNat
  split <;> rename_i h <;> simp only [BitVec.lt_def, BitVec.toNat_add, toNat_one] at h ⊢ <;> omega

/-- Subtraction wraps. -/
theorem toNat_sub : (lhs.sub rhs).toNat = (lhs.toNat + (2 ^ 128 - rhs.toNat)) % 2 ^ 128 := by
  unfold sub substructResult toNat
  split <;> rename_i h <;> simp only [BitVec.lt_def, BitVec.toNat_sub, toNat_one] at h ⊢ <;> omega

end

theorem toNat_neg (val : Uint128) : val.neg.toNat = (2 ^ 128 - val.toNat) % 2 ^ 128 := by
  unfold neg toNat
  split <;> rename_i h <;> rw [BitVec.toNat_eq, toNat_zero] at h <;>
    simp only [BitVec.toNat_add, BitVec.toNat_not, toNat_one, toNat_zero] <;> omega

/-! ## Shifts -/

/-- A word moved up by `p`, where `p * q = 2^64` : what leaves it and what stays. -/
theorem word_mul (x : ℕ) {p q : ℕ} (hpq : p * q = 2 ^ 64) :
    x * p = x / q * 2 ^ 64 + x % q * p ∧ x % q * p + p ≤ 2 ^ 64 ∧ x * p % 2 ^ 64 = x % q * p := by
  have hq : 0 < q := pos_of_ne_zero fun h => by simp [h] at hpq
  have hp : 0 < p := pos_of_ne_zero fun h => by simp [h] at hpq
  have hmul : x * p = x / q * 2 ^ 64 + x % q * p := by
    calc x * p = (q * (x / q) + x % q) * p := by rw [div_add_mod]
      _ = x / q * (p * q) + x % q * p := by ring
      _ = x / q * 2 ^ 64 + x % q * p := by rw [hpq]
  have hle : x % q * p + p ≤ 2 ^ 64 := by
    calc x % q * p + p = (x % q + 1) * p := by ring
      _ ≤ q * p := mul_le_mul_right p (mod_lt x hq)
      _ = 2 ^ 64 := by rw [mul_comm, hpq]
  exact ⟨hmul, hle, by omega⟩

variable {n : ℕ}

theorem pow_mul_pow (h : n ≤ 64) : 2 ^ n * 2 ^ (64 - n) = 2 ^ 64 := by
  rw [← pow_add]
  congr 1
  omega

theorem div_lt_of_mul_eq {x p q : ℕ} (hx : x < 2 ^ 64) (hpq : p * q = 2 ^ 64) : x / p < q := by
  apply Nat.div_lt_of_lt_mul
  rwa [hpq]

theorem shl_of_ge (h : 64 ≤ n) : (lhs.shl n).toNat = lhs.toNat * 2 ^ n % 2 ^ 128 := by
  obtain ⟨k, rfl⟩ := Nat.exists_eq_add_of_le h
  have hk : ((64 + k : ℕ) - 64 : ℤ).toNat = k := by omega
  rw [shl, if_pos (by omega), hk]
  simp only [toNat, BitVec.toNat_shiftLeft, toNat_zero, shiftLeft_eq, pow_add]
  rw [show (lhs.hi.toNat * 2 ^ 64 + lhs.lo.toNat) * (2 ^ 64 * 2 ^ k)
    = lhs.hi.toNat * 2 ^ k * 2 ^ 128 + lhs.lo.toNat * 2 ^ k * 2 ^ 64 by ring]
  omega

theorem shl_of_lt (h0 : n ≠ 0) (h : n < 64) : (lhs.shl n).toNat = lhs.toNat * 2 ^ n % 2 ^ 128 := by
  have hn : (64 - n : ℤ).toNat = 64 - n := by omega
  have hpow := pow_mul_pow h.le
  obtain ⟨hhi, hhi', hmod⟩ := word_mul lhs.hi.toNat hpow
  obtain ⟨hlo, hlo', hmod'⟩ := word_mul lhs.lo.toNat hpow
  -- the bits that leave the low word are below the shifted high word
  have hdiv := div_lt_of_mul_eq lhs.lo.isLt (by rw [mul_comm, hpow])
  rw [shl, if_neg (by omega), if_neg (by omega), hn, Int.toNat_natCast]
  simp only [toNat, BitVec.toNat_or, BitVec.toNat_shiftLeft, BitVec.toNat_ushiftRight,
    shiftRight_eq_div_pow, shiftLeft_eq]
  have hprod : (lhs.hi.toNat * 2 ^ 64 + lhs.lo.toNat) * 2 ^ n
      = lhs.hi.toNat * 2 ^ n * 2 ^ 64 + lhs.lo.toNat * 2 ^ n := by ring
  rw [hprod, hmod, hmod', mul_comm (lhs.hi.toNat % _), ← two_pow_add_eq_or_of_lt hdiv, hhi, hlo,
    mul_comm (2 ^ n)]
  omega

/-- The left shift is a product, wrapped. -/
theorem toNat_shl (lhs : Uint128) (n : ℕ) : (lhs.shl n).toNat = lhs.toNat * 2 ^ n % 2 ^ 128 := by
  rcases Nat.eq_zero_or_pos n with rfl | hpos
  · rw [pow_zero, mul_one, mod_eq_of_lt lhs.toNat_lt]
    rfl
  · rcases lt_or_ge n 64 with h | h
    · exact shl_of_lt hpos.ne' h
    · exact shl_of_ge h

theorem shr_of_ge (h : 64 ≤ n) : (lhs.shr n).toNat = lhs.toNat / 2 ^ n := by
  obtain ⟨k, rfl⟩ := Nat.exists_eq_add_of_le h
  have hk : ((64 + k : ℕ) - 64 : ℤ).toNat = k := by omega
  have hdiv : (lhs.hi.toNat * 2 ^ 64 + lhs.lo.toNat) / 2 ^ 64 = lhs.hi.toNat := by
    omega
  rw [shr, if_pos (by omega), hk]
  simp only [toNat, BitVec.toNat_ushiftRight, toNat_zero, shiftRight_eq_div_pow, pow_add]
  rw [← Nat.div_div_eq_div_mul, hdiv, zero_mul, zero_add]

theorem shr_of_lt (h0 : n ≠ 0) (h : n < 64) : (lhs.shr n).toNat = lhs.toNat / 2 ^ n := by
  have hn : (64 - n : ℤ).toNat = 64 - n := by omega
  have hpow := pow_mul_pow h.le
  obtain ⟨hhi, hhi', hmod⟩ := word_mul lhs.hi.toNat (by rw [mul_comm]; exact hpow)
  -- the low bits of the high word land above the shifted low word
  have hdiv := div_lt_of_mul_eq lhs.lo.isLt hpow
  have hquot : (lhs.hi.toNat * 2 ^ 64 + lhs.lo.toNat) / 2 ^ n
      = lhs.hi.toNat * 2 ^ (64 - n) + lhs.lo.toNat / 2 ^ n := by
    rw [← hpow, show lhs.hi.toNat * (2 ^ n * 2 ^ (64 - n))
      = 2 ^ n * (lhs.hi.toNat * 2 ^ (64 - n)) by ring, mul_add_div (by positivity)]
  rw [shr, if_neg (by omega), if_neg (by omega), hn, Int.toNat_natCast]
  simp only [toNat, BitVec.toNat_or, BitVec.toNat_shiftLeft, BitVec.toNat_ushiftRight,
    shiftRight_eq_div_pow, shiftLeft_eq]
  rw [hquot, hmod, Nat.or_comm, mul_comm (lhs.hi.toNat % _), ← two_pow_add_eq_or_of_lt hdiv,
    hhi, mul_comm (2 ^ (64 - n))]
  omega

/-- The right shift is a quotient. -/
theorem toNat_shr (lhs : Uint128) (n : ℕ) : (lhs.shr n).toNat = lhs.toNat / 2 ^ n := by
  rcases Nat.eq_zero_or_pos n with rfl | hpos
  · rw [pow_zero, Nat.div_one]
    rfl
  · rcases lt_or_ge n 64 with h | h
    · exact shr_of_lt hpos.ne' h
    · exact shr_of_ge h

/-! ## Multiplication -/

theorem toNat_limb (x : BitVec 64) : (x &&& 0xffffffff).toNat = x.toNat % 2 ^ 32 := by
  exact and_two_pow_sub_one_eq_mod x.toNat 32

theorem toNat_limb_mul {x y : BitVec 64} (hx : x.toNat < 2 ^ 32) (hy : y.toNat < 2 ^ 32) :
    (x * y).toNat = x.toNat * y.toNat ∧ x.toNat * y.toNat < 2 ^ 64 := by
  have h : x.toNat * y.toNat < 2 ^ 64 := by
    rw [show 2 ^ 64 = 2 ^ 32 * 2 ^ 32 by norm_num]
    exact mul_lt_mul'' hx hy
  exact ⟨by rw [BitVec.toNat_mul, mod_eq_of_lt h], h⟩

/-- The product of the limbs is the wrapped product. -/
theorem toNat_mul (lhs rhs : Uint128) : (lhs.mul rhs).toNat = lhs.toNat * rhs.toNat % 2 ^ 128 := by
  have ha : (lhs.lo >>> 32).toNat = lhs.lo.toNat / 2 ^ 32 := by
    rw [BitVec.toNat_ushiftRight, shiftRight_eq_div_pow]
  have hb : (rhs.lo >>> 32).toNat = rhs.lo.toNat / 2 ^ 32 := by
    rw [BitVec.toNat_ushiftRight, shiftRight_eq_div_pow]
  have hc := toNat_limb lhs.lo
  have hd := toNat_limb rhs.lo
  unfold mul
  generalize lhs.lo >>> 32 = a32 at *
  generalize rhs.lo >>> 32 = b32 at *
  generalize lhs.lo &&& 0xffffffff = a00 at *
  generalize rhs.lo &&& 0xffffffff = b00 at *
  obtain ⟨h11, h11'⟩ := toNat_limb_mul (x := a32) (y := b32) (by omega) (by omega)
  obtain ⟨h10, h10'⟩ := toNat_limb_mul (x := a32) (y := b00) (by omega) (by omega)
  obtain ⟨h01, h01'⟩ := toNat_limb_mul (x := a00) (y := b32) (by omega) (by omega)
  obtain ⟨h00, h00'⟩ := toNat_limb_mul (x := a00) (y := b00) (by omega) (by omega)
  have hsplit : lhs.lo.toNat * rhs.lo.toNat = a32.toNat * b32.toNat * 2 ^ 64
      + (a32.toNat * b00.toNat + a00.toNat * b32.toNat) * 2 ^ 32 + a00.toNat * b00.toNat := by
    rw [show lhs.lo.toNat = a32.toNat * 2 ^ 32 + a00.toNat by omega,
      show rhs.lo.toNat = b32.toNat * 2 ^ 32 + b00.toNat by omega]
    ring
  have hprod : lhs.toNat * rhs.toNat = lhs.hi.toNat * rhs.hi.toNat * 2 ^ 128
      + (lhs.hi.toNat * rhs.lo.toNat + lhs.lo.toNat * rhs.hi.toNat) * 2 ^ 64
      + lhs.lo.toNat * rhs.lo.toNat := by
    unfold toNat
    ring
  have hcross (v : BitVec 64) : ((ofUint64 v).shl 32).toNat = v.toNat * 2 ^ 32 := by
    rw [show (32 : ℤ) = ((32 : ℕ) : ℤ) from rfl, toNat_shl, toNat_ofUint64]
    omega
  rw [toNat_add, toNat_add, hcross, hcross, hprod, hsplit, h10, h01]
  simp only [toNat, BitVec.toNat_add, h00, h11, BitVec.toNat_mul]
  generalize lhs.hi.toNat * rhs.hi.toNat = w
  generalize lhs.hi.toNat * rhs.lo.toNat = x
  generalize lhs.lo.toNat * rhs.hi.toNat = y
  omega

/-! ## Division -/

/-- The number of bits of a word other than zero. -/
theorem size_spec {x : BitVec 64} (h : x ≠ 0) :
    ∃ k : ℕ, 63 - countlZero x = k ∧ 2 ^ k ≤ x.toNat ∧ x.toNat < 2 ^ (k + 1) ∧ k < 64 := by
  have hpos : 0 < size x.toNat := by
    rw [size_pos, pos_iff_ne_zero]
    exact fun h0 => h (BitVec.eq_of_toNat_eq h0)
  have hle := size_le.mpr x.isLt
  refine ⟨size x.toNat - 1, ?_, ?_, ?_, by omega⟩
  · unfold countlZero
    omega
  · rw [← lt_size]
    omega
  · rw [Nat.sub_add_cancel hpos]
    exact lt_size_self x.toNat

/-- `Fls128` of a number other than zero is the position of its highest set bit. -/
theorem fls128_spec {n : Uint128} (h : n.toNat ≠ 0) :
    ∃ k : ℕ, n.fls128 = k ∧ 2 ^ k ≤ n.toNat ∧ n.toNat < 2 ^ (k + 1) ∧ k < 128 := by
  unfold fls128
  split_ifs with hhi
  · obtain ⟨k, hk, hle, hlt, h64⟩ := size_spec hhi
    refine ⟨k + 64, by push_cast; omega, ?_, ?_, by omega⟩
    · rw [toNat, pow_add]
      exact le_add_right_of_le (mul_le_mul_right _ hle)
    · rw [toNat, show k + 64 + 1 = (k + 1) + 64 by omega, pow_add 2 (k + 1)]
      omega
  · rw [not_not] at hhi
    have htoNat : n.toNat = n.lo.toNat := by simp [toNat, hhi]
    obtain ⟨k, hk, hle, hlt, h64⟩ := size_spec (x := n.lo) fun h0 => by simp [htoNat, h0] at h
    rw [htoNat]
    exact ⟨k, hk, hle, hlt, by omega⟩

/-- The low bit of an even number is free. -/
theorem toNat_or_one {x : Uint128} (h : x.toNat % 2 = 0) :
    (x.or (ofUint64 1)).toNat = x.toNat + 1 := by
  have hlo : x.lo.toNat % 2 = 0 := by
    unfold toNat at h
    omega
  have hor : x.lo.toNat ||| 1 = x.lo.toNat + 1 := by
    have := two_pow_add_eq_or_of_lt (i := 1) (b := 1) (by norm_num) (x.lo.toNat / 2)
    rw [show 2 ^ 1 * (x.lo.toNat / 2) = x.lo.toNat by omega] at this
    exact this.symm
  simp only [toNat, or, ofUint64, BitVec.toNat_or, toNat_zero, toNat_one, or_zero, hor, add_assoc]

/-- What the loop keeps when `k` iterations are left : the denominator stands at
`d * 2^(k-1)`, the dividend is below twice that, and quotient and dividend still
make up `n`. -/
structure Aligned (n d k : ℕ) (dividend denominator quotient : Uint128) : Prop where
  denominator_eq : k ≠ 0 → denominator.toNat = d * 2 ^ (k - 1)
  dividend_lt : dividend.toNat < d * 2 ^ k
  total : n = quotient.toNat * (d * 2 ^ k) + dividend.toNat

theorem Aligned.step {d k : ℕ} {dividend denominator quotient : Uint128} (hn : n < 2 ^ 128)
    (hd : d ≠ 0) (h : Aligned n d (k + 1) dividend denominator quotient) :
    if dividend.ge denominator then
      Aligned n d k (dividend.sub denominator) (denominator.shr 1)
        ((quotient.shl 1).or (ofUint64 1))
    else Aligned n d k dividend (denominator.shr 1) (quotient.shl 1) := by
  have hden : denominator.toNat = d * 2 ^ k := h.denominator_eq (succ_ne_zero k)
  have hlt := h.dividend_lt
  have htotal : n = quotient.toNat * 2 * (d * 2 ^ k) + dividend.toNat := by
    rw [h.total, pow_succ]
    ring
  rw [pow_succ, ← mul_assoc] at hlt
  have hpos : 0 < d * 2 ^ k := by positivity
  -- the doubled quotient still fits, since with the denominator it is at most `n`
  have hq : (quotient.shl 1).toNat = quotient.toNat * 2 := by
    have : quotient.toNat * 2 ≤ quotient.toNat * 2 * (d * 2 ^ k) := Nat.le_mul_of_pos_right _ hpos
    rw [show (1 : ℤ) = ((1 : ℕ) : ℤ) from rfl, toNat_shl]
    omega
  have hshr : k ≠ 0 → (denominator.shr 1).toNat = d * 2 ^ (k - 1) := by
    intro hk
    obtain ⟨j, rfl⟩ := exists_eq_succ_of_ne_zero hk
    rw [show (1 : ℤ) = ((1 : ℕ) : ℤ) from rfl, toNat_shr, hden, pow_one, succ_sub_one, pow_succ,
      ← mul_assoc, Nat.mul_div_cancel _ two_pos]
  split_ifs with hge
  · rw [ge_iff, hden] at hge
    have hsub : (dividend.sub denominator).toNat = dividend.toNat - d * 2 ^ k := by
      rw [toNat_sub, hden]
      omega
    refine ⟨hshr, by omega, ?_⟩
    rw [toNat_or_one (by omega), hq, hsub, add_mul, one_mul]
    omega
  · rw [ge_iff, hden, not_le] at hge
    exact ⟨hshr, hge, by rw [hq, htotal]⟩

/-- The loop ends with quotient and remainder. -/
theorem divModLoop_spec {d : ℕ} (hn : n < 2 ^ 128) (hd : d ≠ 0) :
    ∀ k {dividend denominator quotient : Uint128},
      Aligned n d k dividend denominator quotient →
      n = (divModLoop k dividend denominator quotient).1.toNat * d
          + (divModLoop k dividend denominator quotient).2.toNat ∧
        (divModLoop k dividend denominator quotient).2.toNat < d
  | 0, dividend, denominator, quotient, h => by
    have h1 := h.dividend_lt
    have h2 := h.total
    rw [pow_zero, mul_one] at h1 h2
    exact ⟨h2, h1⟩
  | k + 1, dividend, denominator, quotient, h => by
    have hstep := h.step hn hd
    rw [divModLoop]
    split_ifs at hstep ⊢
    · exact divModLoop_spec hn hd k hstep
    · exact divModLoop_spec hn hd k hstep

/-- Shifting the divisor by the distance of the highest bits aligns it with the dividend. -/
theorem aligned_start {dividend divisor : Uint128} (hd : divisor.toNat ≠ 0)
    (hlt : divisor.toNat < dividend.toNat) : ∃ shift : ℕ, dividend.fls128 - divisor.fls128 = shift ∧
      Aligned dividend.toNat divisor.toNat (shift + 1) dividend (divisor.shl shift)
        (ofUint64 0) := by
  obtain ⟨k, hk, hk1, hk2, hk3⟩ := fls128_spec (n := dividend) (by omega)
  obtain ⟨j, hj, hj1, hj2, hj3⟩ := fls128_spec hd
  have hjk : j ≤ k := by
    have := (Nat.pow_lt_pow_iff_right (by norm_num)).mp (hj1.trans_lt (hlt.trans hk2))
    omega
  obtain ⟨shift, rfl⟩ := Nat.exists_eq_add_of_le hjk
  have hfit : divisor.toNat * 2 ^ shift < 2 ^ 128 :=
    calc divisor.toNat * 2 ^ shift < 2 ^ (j + 1) * 2 ^ shift :=
          mul_lt_mul_of_pos_right hj2 (by positivity)
      _ = 2 ^ (j + 1 + shift) := by rw [← pow_add]
      _ ≤ 2 ^ 128 := Nat.pow_le_pow_right two_pos (by omega)
  have hlow : dividend.toNat < divisor.toNat * 2 ^ (shift + 1) :=
    calc dividend.toNat < 2 ^ (j + shift + 1) := hk2
      _ = 2 ^ j * 2 ^ (shift + 1) := by rw [← pow_add, add_assoc]
      _ ≤ divisor.toNat * 2 ^ (shift + 1) := mul_le_mul_right _ hj1
  refine ⟨shift, by push_cast at hk; omega, fun _ => ?_, hlow, ?_⟩
  · rw [toNat_shl, mod_eq_of_lt hfit, Nat.add_sub_cancel]
  · rw [toNat_ofUint64, toNat_zero, zero_mul, zero_add]

/-- `DivModImpl` is division with remainder. -/
theorem divModImpl_spec (lhs rhs : Uint128) (h : rhs.toNat ≠ 0) :
    lhs.toNat = (lhs.divModImpl rhs).1.toNat * rhs.toNat + (lhs.divModImpl rhs).2.toNat ∧
      (lhs.divModImpl rhs).2.toNat < rhs.toNat := by
  unfold divModImpl
  split_ifs with hgt heq
  · rw [gt_iff] at hgt
    rw [toNat_ofUint64, toNat_zero, zero_mul, zero_add]
    exact ⟨rfl, hgt⟩
  · rw [eq_iff] at heq
    rw [toNat_ofUint64, toNat_ofUint64, toNat_one, toNat_zero, one_mul, add_zero]
    exact ⟨heq.symm, pos_of_ne_zero h⟩
  · rw [gt_iff] at hgt
    rw [eq_iff] at heq
    obtain ⟨shift, hshift, halign⟩ := aligned_start h (show rhs.toNat < lhs.toNat by omega)
    rw [hshift]
    exact divModLoop_spec lhs.toNat_lt h _ halign

theorem toNat_div {rhs : Uint128} (h : rhs.toNat ≠ 0) :
    (lhs.divModImpl rhs).1.toNat = lhs.toNat / rhs.toNat := by
  obtain ⟨htotal, hlt⟩ := divModImpl_spec lhs rhs h
  refine ((Nat.div_mod_unique (Nat.pos_of_ne_zero h)).mpr ⟨?_, hlt⟩).1.symm
  rw [htotal, mul_comm, add_comm]

end Uint128

/-- The portable `uint128` : its operators are those of the integers modulo `2^128`,
its comparisons those of the numbers, its division the Euclidean one. -/
theorem uint128_ring (lhs rhs : Uint128) : (lhs.add rhs).toNat = (lhs.toNat + rhs.toNat) % 2 ^ 128 ∧
    ((lhs.sub rhs).toNat : ℤ) = ((lhs.toNat : ℤ) - rhs.toNat) % 2 ^ 128 ∧
    (lhs.neg.toNat : ℤ) = (-(lhs.toNat : ℤ)) % 2 ^ 128 ∧
    (lhs.mul rhs).toNat = (lhs.toNat * rhs.toNat) % 2 ^ 128 ∧
    (∀ amount : ℤ, 0 ≤ amount → amount < 128 →
      (lhs.shl amount).toNat = lhs.toNat * 2 ^ amount.toNat % 2 ^ 128 ∧
      (lhs.shr amount).toNat = lhs.toNat / 2 ^ amount.toNat) ∧
    (lhs.eq rhs = true ↔ lhs.toNat = rhs.toNat) ∧
    (lhs.ne rhs = true ↔ lhs.toNat ≠ rhs.toNat) ∧
    (lhs.lt rhs = true ↔ lhs.toNat < rhs.toNat) ∧
    (lhs.gt rhs = true ↔ lhs.toNat > rhs.toNat) ∧
    (lhs.le rhs = true ↔ lhs.toNat ≤ rhs.toNat) ∧
    (lhs.ge rhs = true ↔ lhs.toNat ≥ rhs.toNat) ∧
    lhs.compare rhs = compare lhs.toNat rhs.toNat ∧
    (rhs.toNat ≠ 0 →
      lhs.toNat = (lhs.divModImpl rhs).1.toNat * rhs.toNat + (lhs.divModImpl rhs).2.toNat ∧
      (lhs.divModImpl rhs).2.toNat < rhs.toNat) := by
  have hl := lhs.toNat_lt
  have hr := rhs.toNat_lt
  refine ⟨lhs.toNat_add rhs, ?_, ?_, lhs.toNat_mul rhs, ?_, lhs.eq_iff rhs, ?_, lhs.lt_iff rhs,
    lhs.gt_iff rhs, lhs.le_iff rhs, lhs.ge_iff rhs, lhs.compare_eq rhs, lhs.divModImpl_spec rhs⟩
  · rw [Uint128.toNat_sub]
    omega
  · rw [Uint128.toNat_neg]
    omega
  · intro amount h₀ _
    obtain ⟨n, rfl⟩ := Int.eq_ofNat_of_zero_le h₀
    exact ⟨lhs.toNat_shl n, lhs.toNat_shr n⟩
  · rw [Uint128.ne, Bool.not_eq_true', ← Bool.not_eq_true, Uint128.eq_iff]

/-- An operation that is odd in both arguments can be done on absolute values. -/
theorem signed_eq {f : ℤ → ℤ → ℤ} (hl : ∀ x y, f (-x) y = -f x y) (hr : ∀ x y, f x (-y) = -f x y)
    (x y : ℤ) : (if decide (x < 0) != decide (y < 0) then -f |x| |y| else f |x| |y|) = f x y := by
  rcases lt_or_ge x 0 with hx | hx <;> rcases lt_or_ge y 0 with hy | hy
  · rw [abs_of_neg hx, abs_of_neg hy, hl, hr, neg_neg]
    simp [hx, hy]
  · rw [abs_of_neg hx, abs_of_nonneg hy, hl, neg_neg]
    simp [hx, not_lt.mpr hy]
  · rw [abs_of_nonneg hx, abs_of_neg hy, hr, neg_neg]
    simp [not_lt.mpr hx, hy]
  · rw [abs_of_nonneg hx, abs_of_nonneg hy]
    simp [not_lt.mpr hx, not_lt.mpr hy]

end Abseil
