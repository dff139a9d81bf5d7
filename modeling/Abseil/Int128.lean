import Abseil.ParseInt
import Abseil.Uint128

/-!
# Signed 128-bit integers without an intrinsic type

`int128` is a signed high word and an unsigned low word. Sum and difference combine the high
words as `int64_t` and correct the result by the carry of the low words; the other operators
go through `uint128`. An `int64_t` result that does not fit is `Overflow`, and so is a failed
`assert` of the division operators; that of `DivModImpl` on a divisor of zero is left out.

The carry is applied last, so the sum of the high words alone can leave `int64_t` where
the sum of the numbers fits, and the remainder of the least number by -1, which is zero, is
asserted away with the quotient : `int128_exact` says exactly for which operands that is.
-/

namespace Abseil

open Int

/-- `int128` : a signed and an unsigned word. -/
structure Int128 where
  hi : BitVec 64
  lo : BitVec 64
  deriving DecidableEq, Repr

namespace Int128

/-- The number. -/
def toInt (x : Int128) : ℤ := x.hi.toInt * 2 ^ 64 + x.lo.toNat

/-- `uint128(int128)`. -/
def toUint128 (x : Int128) : Uint128 := ⟨x.hi, x.lo⟩

/-- `MakeInt128(BitCastToSigned(Uint128High64(x)), Uint128Low64(x))`. -/
def ofUint128 (x : Uint128) : Int128 := ⟨x.hi, x.lo⟩

/-- An `int64_t` result. -/
def int64 (x : ℤ) : Except Overflow (BitVec 64) := (IntType.int64.checked x).map (BitVec.ofInt 64)

/-- `SignedAddResult` : the carry of the low words. -/
def signedAddResult (result lhs : Int128) : Except Overflow Int128 :=
  if result.lo < lhs.lo then (int64 (result.hi.toInt + 1)).map fun hi => ⟨hi, result.lo⟩
  else .ok result

/-- `operator+`. -/
def add (lhs rhs : Int128) : Except Overflow Int128 :=
  (int64 (lhs.hi.toInt + rhs.hi.toInt)).bind fun hi => signedAddResult ⟨hi, lhs.lo + rhs.lo⟩ lhs

/-- `SignedSubstructResult` : the borrow of the low words. -/
def signedSubstructResult (result lhs rhs : Int128) : Except Overflow Int128 :=
  if lhs.lo < rhs.lo then (int64 (result.hi.toInt - 1)).map fun hi => ⟨hi, result.lo⟩
  else .ok result

/-- `operator-`. -/
def sub (lhs rhs : Int128) : Except Overflow Int128 :=
  (int64 (lhs.hi.toInt - rhs.hi.toInt)).bind fun hi =>
    signedSubstructResult ⟨hi, lhs.lo - rhs.lo⟩ lhs rhs

/-- `operator*`. -/
def mul (lhs rhs : Int128) : Int128 := ofUint128 (lhs.toUint128.mul rhs.toUint128)

/-- `UnsignedAbsoluteValue`. -/
def unsignedAbsoluteValue (v : Int128) : Uint128 :=
  if v.hi.toInt < 0 then v.toUint128.neg else v.toUint128

/-- `lhs != Int128Min() || rhs != -1`, which both division operators assert. -/
def QuotientFits (lhs rhs : Int128) : Prop := lhs ≠ ⟨0x8000000000000000, 0⟩ ∨ rhs ≠ ⟨-1, -1⟩

instance (lhs rhs : Int128) : Decidable (QuotientFits lhs rhs) :=
  inferInstanceAs (Decidable (_ ∨ _))

/-- `operator/`. -/
def div (lhs rhs : Int128) : Except Overflow Int128 :=
  if QuotientFits lhs rhs then
    let quotient := (lhs.unsignedAbsoluteValue.divModImpl rhs.unsignedAbsoluteValue).1
    .ok (ofUint128 (if decide (lhs.hi.toInt < 0) ≠ decide (rhs.hi.toInt < 0) then quotient.neg
      else quotient))
  else .error .overflow

/-- `operator%`. -/
def mod (lhs rhs : Int128) : Except Overflow Int128 :=
  if QuotientFits lhs rhs then
    let remainder := (lhs.unsignedAbsoluteValue.divModImpl rhs.unsignedAbsoluteValue).2
    .ok (ofUint128 (if lhs.hi.toInt < 0 then remainder.neg else remainder))
  else .error .overflow

/-- The integers of 128 bits in two's complement. -/
def InRange (x : ℤ) : Prop := -2 ^ 127 ≤ x ∧ x < 2 ^ 127

/-! ## Words -/

theorem hi_bounds (x : Int128) : -2 ^ 63 ≤ x.hi.toInt ∧ x.hi.toInt < 2 ^ 63 := by
  have h1 := BitVec.le_toInt x.hi
  have h2 := BitVec.toInt_lt (x := x.hi)
  exact ⟨h1, h2⟩

theorem inRange_toInt (x : Int128) : InRange x.toInt := by
  have h := x.hi_bounds
  unfold InRange toInt
  omega

/-- The sign is that of the high word. -/
theorem hi_neg_iff (x : Int128) : x.hi.toInt < 0 ↔ x.toInt < 0 := by
  unfold toInt
  omega

/-- The unsigned number of the same bits. -/
theorem toNat_toUint128 (x : Int128) : (x.toUint128.toNat : ℤ) = x.toInt % 2 ^ 128 := by
  have hhi := BitVec.toInt_eq_toNat_cond x.hi
  unfold toUint128 Uint128.toNat toInt
  dsimp only
  split_ifs at hhi <;> omega

variable {x : Uint128}

/-- The number of the same bits : congruent and in range. -/
theorem toInt_ofUint128 {v : ℤ} (h : (x.toNat : ℤ) = v % 2 ^ 128) (hv : InRange v) :
    (ofUint128 x).toInt = v := by
  have hcast : (ofUint128 x).toUint128 = x := rfl
  have hbits := toNat_toUint128 (ofUint128 x)
  have hrange := inRange_toInt (ofUint128 x)
  rw [hcast] at hbits
  unfold InRange at hrange hv
  omega

theorem int64_ok {x : ℤ} (h : -2 ^ 63 ≤ x ∧ x < 2 ^ 63) : ∃ w, int64 x = .ok w ∧ w.toInt = x := by
  have hrange : IntType.int64.InRange x := ⟨h.1, le_sub_one_of_lt h.2⟩
  refine ⟨BitVec.ofInt 64 x, ?_, BitVec.toInt_ofInt_eq_self (by norm_num) h.1 h.2⟩
  rw [int64, IntType.checked, if_pos hrange]
  rfl

theorem int64_overflow {x : ℤ} (h : ¬(-2 ^ 63 ≤ x ∧ x < 2 ^ 63)) : int64 x = .error .overflow := by
  have hrange : ¬IntType.int64.InRange x := fun hx => h ⟨hx.1, lt_of_le_sub_one hx.2⟩
  rw [int64, IntType.checked, if_neg hrange]
  rfl

/-- The result is there and is the number `v`. -/
def Exact (r : Except Overflow Int128) (v : ℤ) : Prop := ∃ x, r = .ok x ∧ x.toInt = v

variable {lhs rhs : Int128}

/-! ## Sum and difference -/

theorem signedAddResult_exact {result : Int128} (hlo : result.lo = lhs.lo + rhs.lo)
    (hhi : result.hi.toInt = lhs.hi.toInt + rhs.hi.toInt) (h : InRange (lhs.toInt + rhs.toInt)) :
    Exact (signedAddResult result lhs) (lhs.toInt + rhs.toInt) := by
  have hsum : result.lo.toNat = (lhs.lo.toNat + rhs.lo.toNat) % 2 ^ 64 := by
    rw [hlo, BitVec.toNat_add]
  unfold InRange toInt at h
  unfold signedAddResult
  split_ifs with hcarry <;> rw [BitVec.lt_def] at hcarry
  · obtain ⟨hi, hok, hval⟩ := int64_ok (x := result.hi.toInt + 1) (by omega)
    refine ⟨⟨hi, result.lo⟩, by rw [hok]; rfl, ?_⟩
    unfold toInt
    dsimp only
    omega
  · refine ⟨result, rfl, ?_⟩
    unfold toInt
    omega

/-- The sum is exact unless the sum of the high words alone leaves `int64_t`. -/
theorem add_exact_iff (h : InRange (lhs.toInt + rhs.toInt)) :
    Exact (add lhs rhs) (lhs.toInt + rhs.toInt) ↔ lhs.hi.toInt + rhs.hi.toInt ≠ -2 ^ 63 - 1 := by
  constructor
  · rintro ⟨x, hx, -⟩ hhi
    rw [add, int64_overflow (by omega)] at hx
    cases hx
  intro hhi
  have hrange : -2 ^ 63 ≤ lhs.hi.toInt + rhs.hi.toInt ∧ lhs.hi.toInt + rhs.hi.toInt < 2 ^ 63 := by
    unfold InRange toInt at h
    omega
  obtain ⟨hi, hok, hval⟩ := int64_ok hrange
  rw [add, hok]
  exact signedAddResult_exact rfl hval h

theorem signedSubstructResult_exact {result : Int128} (hlo : result.lo = lhs.lo - rhs.lo)
    (hhi : result.hi.toInt = lhs.hi.toInt - rhs.hi.toInt) (h : InRange (lhs.toInt - rhs.toInt)) :
    Exact (signedSubstructResult result lhs rhs) (lhs.toInt - rhs.toInt) := by
  have hdiff : result.lo.toNat = (2 ^ 64 - rhs.lo.toNat + lhs.lo.toNat) % 2 ^ 64 := by
    rw [hlo, BitVec.toNat_sub]
  unfold InRange toInt at h
  unfold signedSubstructResult
  split_ifs with hborrow <;> rw [BitVec.lt_def] at hborrow
  · obtain ⟨hi, hok, hval⟩ := int64_ok (x := result.hi.toInt - 1) (by omega)
    refine ⟨⟨hi, result.lo⟩, by rw [hok]; rfl, ?_⟩
    unfold toInt
    dsimp only
    omega
  · refine ⟨result, rfl, ?_⟩
    unfold toInt
    omega

/-- The difference is exact unless that of the high words alone leaves `int64_t`. -/
theorem sub_exact_iff (h : InRange (lhs.toInt - rhs.toInt)) :
    Exact (sub lhs rhs) (lhs.toInt - rhs.toInt) ↔ lhs.hi.toInt - rhs.hi.toInt ≠ 2 ^ 63 := by
  constructor
  · rintro ⟨x, hx, -⟩ hhi
    rw [sub, int64_overflow (by omega)] at hx
    cases hx
  intro hhi
  have hrange : -2 ^ 63 ≤ lhs.hi.toInt - rhs.hi.toInt ∧ lhs.hi.toInt - rhs.hi.toInt < 2 ^ 63 := by
    unfold InRange toInt at h
    omega
  obtain ⟨hi, hok, hval⟩ := int64_ok hrange
  rw [sub, hok]
  exact signedSubstructResult_exact rfl hval h

/-! ## Product, quotient and remainder -/

theorem toInt_mul (h : InRange (lhs.toInt * rhs.toInt)) :
    (mul lhs rhs).toInt = lhs.toInt * rhs.toInt := by
  refine toInt_ofUint128 ?_ h
  simp only [Uint128.toNat_mul, natCast_emod, Nat.cast_mul, toNat_toUint128, Nat.cast_pow,
    Nat.cast_ofNat, ← mul_emod]

theorem toNat_unsignedAbsoluteValue (v : Int128) :
    v.unsignedAbsoluteValue.toNat = v.toInt.natAbs := by
  have hbits := v.toNat_toUint128
  have hrange := v.inRange_toInt
  unfold InRange at hrange
  unfold unsignedAbsoluteValue
  split_ifs with hneg <;> rw [hi_neg_iff] at hneg
  · rw [Uint128.toNat_neg]
    omega
  · omega

variable {n : ℕ}

theorem toNat_neg_cast (h : x.toNat = n) : (x.neg.toNat : ℤ) = (-(n : ℤ)) % 2 ^ 128 := by
  have hlt := x.toNat_lt
  rw [Uint128.toNat_neg]
  omega

theorem toInt_ofUint128_neg (h : x.toNat = n) (hn : n ≤ 2 ^ 127) :
    (ofUint128 x.neg).toInt = -(n : ℤ) := by
  refine toInt_ofUint128 (toNat_neg_cast h) ?_
  unfold InRange
  omega

theorem toInt_ofUint128_nonneg (h : x.toNat = n) (hn : n < 2 ^ 127) : (ofUint128 x).toInt = n := by
  refine toInt_ofUint128 ?_ ?_
  · rw [h]
    omega
  · unfold InRange
    omega

theorem natAbs_toInt_le (v : Int128) : v.toInt.natAbs ≤ 2 ^ 127 := by
  have h := v.inRange_toInt
  unfold InRange at h
  omega

/-- Truncated division, by absolute values. -/
theorem tdiv_eq (a b : ℤ) : a.tdiv b =
    if decide (a < 0) ≠ decide (b < 0) then -((a.natAbs / b.natAbs : ℕ) : ℤ)
    else ((a.natAbs / b.natAbs : ℕ) : ℤ) := by
  rw [← signed_eq (fun x y => Int.neg_tdiv x y) (fun x y => Int.tdiv_neg x y) a b, abs_eq_natAbs,
    abs_eq_natAbs, ← ofNat_tdiv]
  simp only [bne_iff_ne]

theorem tmod_eq (a b : ℤ) : a.tmod b =
    if a < 0 then -((a.natAbs % b.natAbs : ℕ) : ℤ) else ((a.natAbs % b.natAbs : ℕ) : ℤ) := by
  rw [← natAbs_tmod]
  split_ifs with ha
  · have := tmod_nonneg b (neg_nonneg.mpr ha.le)
    rw [neg_tmod] at this
    omega
  · have := tmod_nonneg b (not_lt.mp ha)
    omega

/-- The one quotient of numbers that does not fit. -/
theorem quotientFits_of_inRange (h : InRange (lhs.toInt.tdiv rhs.toInt)) :
    QuotientFits lhs rhs := by
  by_contra hfits
  obtain ⟨rfl, rfl⟩ := not_or.1 hfits |>.imp not_not.1 not_not.1
  exact absurd h (by unfold InRange; decide)

theorem div_exact (hrhs : rhs.toInt ≠ 0) (h : InRange (lhs.toInt.tdiv rhs.toInt)) :
    Exact (div lhs rhs) (lhs.toInt.tdiv rhs.toInt) := by
  have hne : rhs.unsignedAbsoluteValue.toNat ≠ 0 := by
    rw [toNat_unsignedAbsoluteValue]
    exact natAbs_ne_zero.mpr hrhs
  have hq : (lhs.unsignedAbsoluteValue.divModImpl rhs.unsignedAbsoluteValue).1.toNat
      = lhs.unsignedAbsoluteValue.toNat / rhs.unsignedAbsoluteValue.toNat := Uint128.toNat_div hne
  simp only [toNat_unsignedAbsoluteValue] at hq
  have hle := (Nat.div_le_self lhs.toInt.natAbs rhs.toInt.natAbs).trans lhs.natAbs_toInt_le
  refine ⟨_, if_pos (quotientFits_of_inRange h), ?_⟩
  simp only [hi_neg_iff]
  rw [tdiv_eq] at h ⊢
  split_ifs at h ⊢ with hsign
  · exact toInt_ofUint128_neg hq hle
  · refine toInt_ofUint128_nonneg hq ?_
    unfold InRange at h
    omega

theorem mod_exact (hrhs : rhs.toInt ≠ 0) (hfits : QuotientFits lhs rhs) :
    Exact (mod lhs rhs) (lhs.toInt.tmod rhs.toInt) := by
  have hne : rhs.unsignedAbsoluteValue.toNat ≠ 0 := by
    rw [toNat_unsignedAbsoluteValue]
    exact natAbs_ne_zero.mpr hrhs
  obtain ⟨htotal, hlt⟩ := Uint128.divModImpl_spec lhs.unsignedAbsoluteValue _ hne
  have hr : (lhs.unsignedAbsoluteValue.divModImpl rhs.unsignedAbsoluteValue).2.toNat
      = lhs.toInt.natAbs % rhs.toInt.natAbs := by
    simp only [← toNat_unsignedAbsoluteValue, htotal, Nat.mul_add_mod', Nat.mod_eq_of_lt hlt]
  have hsmall : lhs.toInt.natAbs % rhs.toInt.natAbs < 2 ^ 127 :=
    (Nat.mod_lt _ (natAbs_pos.mpr hrhs)).trans_le rhs.natAbs_toInt_le
  refine ⟨_, if_pos hfits, ?_⟩
  rw [tmod_eq]
  simp only [hi_neg_iff]
  split_ifs
  · exact toInt_ofUint128_neg hr hsmall.le
  · exact toInt_ofUint128_nonneg hr hsmall

/-- Every result that fits is computed exactly, without overflow on the way. -/
structure ComputesExactly (lhs rhs : Int128) : Prop where
  add : InRange (lhs.toInt + rhs.toInt) → Exact (add lhs rhs) (lhs.toInt + rhs.toInt)
  sub : InRange (lhs.toInt - rhs.toInt) → Exact (sub lhs rhs) (lhs.toInt - rhs.toInt)
  mul : InRange (lhs.toInt * rhs.toInt) → (mul lhs rhs).toInt = lhs.toInt * rhs.toInt
  div : rhs.toInt ≠ 0 → InRange (lhs.toInt.tdiv rhs.toInt) →
    Exact (div lhs rhs) (lhs.toInt.tdiv rhs.toInt)
  mod : rhs.toInt ≠ 0 → InRange (lhs.toInt.tmod rhs.toInt) →
    Exact (mod lhs rhs) (lhs.toInt.tmod rhs.toInt)

/-- **Exact arithmetic.** All results that fit are computed exactly and without overflow if and
only if the high words alone do not leave `int64_t` where the carry or the borrow would
bring them back, and the operands are not the least number and -1. -/
theorem int128_exact (lhs rhs : Int128) : ComputesExactly lhs rhs ↔
    ¬(lhs.hi.toInt + rhs.hi.toInt = -2 ^ 63 - 1 ∧ 2 ^ 64 ≤ lhs.lo.toNat + rhs.lo.toNat) ∧
      ¬(lhs.hi.toInt - rhs.hi.toInt = 2 ^ 63 ∧ lhs.lo.toNat < rhs.lo.toNat) ∧
      ¬(lhs = ⟨0x8000000000000000, 0⟩ ∧ rhs = ⟨-1, -1⟩) := by
  constructor
  · intro h
    refine ⟨?_, ?_, ?_⟩
    · rintro ⟨hhi, hcarry⟩
      have hrange : InRange (lhs.toInt + rhs.toInt) := by
        unfold InRange toInt
        omega
      exact (add_exact_iff hrange).mp (h.add hrange) hhi
    · rintro ⟨hhi, hborrow⟩
      have hrange : InRange (lhs.toInt - rhs.toInt) := by
        unfold InRange toInt
        omega
      exact (sub_exact_iff hrange).mp (h.sub hrange) hhi
    · rintro ⟨rfl, rfl⟩
      -- the remainder is zero
      obtain ⟨x, hx, -⟩ := h.mod (by decide) (by unfold InRange; decide)
      cases hx
  · rintro ⟨hadd, hsub, hfits⟩
    refine ⟨fun hrange => ?_, fun hrange => ?_, toInt_mul, div_exact,
      fun hne _ => mod_exact hne (not_and_or.1 hfits)⟩
    · refine (add_exact_iff hrange).mpr fun hhi => hadd ⟨hhi, ?_⟩
      unfold InRange toInt at hrange
      omega
    · refine (sub_exact_iff hrange).mpr fun hhi => hsub ⟨hhi, ?_⟩
      unfold InRange toInt at hrange
      omega

/-- The least number but one, plus -1 : the sum fits, but that of the high words does not. -/
theorem add_min_neg_one :
    InRange ((⟨0x8000000000000000, 1⟩ : Int128).toInt + (⟨-1, -1⟩ : Int128).toInt) ∧
      add ⟨0x8000000000000000, 1⟩ ⟨-1, -1⟩ = .error .overflow := by
  constructor
  · unfold InRange
    decide
  · rfl

end Int128

end Abseil
