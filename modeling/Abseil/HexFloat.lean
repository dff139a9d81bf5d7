import Mathlib.Data.Nat.Size
import Mathlib.Tactic

/-!
# The normal form of `%a` for doubles

`FormatANormalize` of `absl/strings/internal/str_format/float_conversion.cc`. The mantissa that
`Decompose` leaves has its top bit at place 52 whatever the double was, so the loop either makes
eleven shifts or is stopped by the exponent. It is stopped one place late : a subnormal double
of at least `2 ^ -1023` gets through with the leading digit 1 and the exponent -1023.
-/

namespace Abseil.HexFloat

/-- A finite double other than zero, by the fields of its bits. The sign is left out : `FormatA`
is given the absolute value. -/
structure Double where
  biased : ℕ
  fraction : ℕ
  biased_lt : biased < 2047
  fraction_lt : fraction < 2 ^ 52
  nonzero : biased ≠ 0 ∨ fraction ≠ 0

namespace Double

variable (v : Double)

/-- A subnormal double has no implicit bit. -/
abbrev Subnormal : Prop := v.biased = 0

/-- The absolute value is `significand * 2 ^ exponent`. -/
def significand : ℕ := if v.Subnormal then v.fraction else 2 ^ 52 + v.fraction

/-- The exponent of the mantissa's last bit. -/
def exponent : ℤ := if v.Subnormal then -1074 else v.biased - 1075

/-- `std::frexp` of the absolute value : a fraction in `[1/2, 1)` and a power of two. -/
def frexp : ℚ × ℤ := (v.significand / 2 ^ v.significand.size, v.exponent + v.significand.size)

end Double

/-- `std::ldexp`. -/
def ldexp (m : ℚ) (n : ℕ) : ℚ := m * 2 ^ n

/-- `std::numeric_limits<double>::digits`. -/
def digits : ℕ := 53

/-- `Decomposed`. -/
structure Decomposed where
  mantissa : BitVec 64
  exponent : ℤ

/-- `Decompose`. -/
def decompose (v : Double) : Decomposed where
  mantissa := BitVec.ofNat 64 ⌊ldexp v.frexp.1 digits⌋.toNat
  exponent := v.frexp.2 - digits

/-- `HexFloatTypeParams`. -/
structure HexFloatTypeParams where
  minExponent : ℤ
  leadingDigitSizeBits : ℕ

/-- The parameters of `double`, whose `min_exponent` is -1021. -/
def doubleParams : HexFloatTypeParams where
  minExponent := -1021 - 1
  leadingDigitSizeBits := if digits % 4 > 0 then digits % 4 else 4

/-- What `FormatANormalize` works on. -/
structure Digits where
  leading : ℕ
  mantissa : BitVec 64
  exp : ℤ

section Normalize

variable (traits : HexFloatTypeParams)

/-- The end of `FormatANormalize` : the leading digit is taken off the mantissa. -/
def takeLeading (s : Digits) : Digits where
  leading := (s.mantissa >>> (64 - traits.leadingDigitSizeBits)).toNat
  mantissa := s.mantissa <<< traits.leadingDigitSizeBits
  exp := s.exp - if s.mantissa ≠ 0 then (traits.leadingDigitSizeBits : ℤ) else s.exp

/-- `FormatANormalize` with at most the given number of rounds, of which 64 are enough. -/
def formatANormalize : ℕ → Digits → Digits
  | 0, s => takeLeading traits s
  | n + 1, s =>
    if s.mantissa ≠ 0 ∧ ¬ s.mantissa.msb then
      if s.exp - 1 < traits.minExponent then
        { s with
          mantissa := s.mantissa >>> (traits.minExponent - s.exp).toNat
          exp := traits.minExponent }
      else formatANormalize n { s with mantissa := s.mantissa <<< 1, exp := s.exp - 1 }
    else takeLeading traits s

end Normalize

/-- The start of `FormatA` : all digits are fractional ones, then they are normalised. -/
def formatA (v : Double) : Digits :=
  formatANormalize doubleParams 64 ⟨0, (decompose v).mantissa, (decompose v).exponent + 64⟩

/-- The loop on a mantissa whose top bit is `k` places below the top : `k` shifts, unless the
exponent stops them. -/
theorem formatANormalize_eq : ∀ k j, j + k = 63 → ∀ n ≥ k, ∀ s : Digits, s.leading = 0 →
    2 ^ j ≤ s.mantissa.toNat → s.mantissa.toNat < 2 ^ (j + 1) → (k = 0 → -1022 ≤ s.exp) →
    ((formatANormalize doubleParams n s).leading, (formatANormalize doubleParams n s).exp)
      = if -1022 ≤ s.exp - k then (1, s.exp - k - 1) else (0, -1022)
  | 0, _, rfl, n, _, s, _, hlo, hhi, hexp => by
    have hmsb : s.mantissa.msb = true := by
      rw [BitVec.msb_eq_decide]
      exact decide_eq_true hlo
    have hne : s.mantissa ≠ 0 := by
      intro h0
      rw [h0] at hmsb
      cases hmsb
    have hlead : s.mantissa.toNat >>> 63 = 1 := by
      rw [Nat.shiftRight_eq_div_pow]
      omega
    have hout : formatANormalize doubleParams n s = takeLeading doubleParams s := by
      cases n with
      | zero => rfl
      | succ n => exact if_neg fun h => h.2 hmsb
    rw [hout, if_pos (by simpa using hexp rfl)]
    simp only [takeLeading, doubleParams, digits, if_pos hne]
    simp [hlead]
  | k + 1, j, hj, n + 1, hn, s, hlead, hlo, hhi, _ => by
    have htop : 2 ^ (j + 1) ≤ 2 ^ 63 := Nat.pow_le_pow_right two_pos (by omega)
    have hmsb : ¬ s.mantissa.msb := by
      rw [BitVec.msb_eq_decide]
      simpa using hhi.trans_le htop
    have hne : s.mantissa ≠ 0 := by
      intro h0
      rw [h0] at hlo
      exact absurd hlo (Nat.not_le.2 (Nat.two_pow_pos j))
    rw [formatANormalize, if_pos ⟨hne, hmsb⟩]
    by_cases hstop : s.exp - 1 < doubleParams.minExponent
    · rw [if_pos hstop, if_neg (by simp only [doubleParams] at hstop; omega)]
      simp [hlead, doubleParams]
    · have hshift : (s.mantissa <<< 1).toNat = 2 * s.mantissa.toNat := by
        rw [BitVec.toNat_shiftLeft, Nat.shiftLeft_eq, pow_one, Nat.mul_comm, Nat.mod_eq_of_lt]
        omega
      rw [if_neg hstop, formatANormalize_eq k (j + 1) (by omega) n (by omega)
        { s with mantissa := s.mantissa <<< 1, exp := s.exp - 1 } hlead
        (by rw [hshift, pow_succ']; omega) (by rw [hshift, pow_succ']; omega)
        (fun _ => by simp only [doubleParams] at hstop; dsimp only; omega)]
      push_cast
      rw [show s.exp - 1 - (k : ℤ) = s.exp - (k + 1) by ring]

namespace Double

variable (v : Double)

theorem significand_bounds : 0 < v.significand ∧ v.significand < 2 ^ 53 := by
  have hf := v.fraction_lt
  have h0 := v.nonzero
  unfold significand
  split_ifs <;> omega

/-- The mantissa of `Decompose` fills 53 bits, also for a subnormal double. -/
theorem decompose_mantissa :
    2 ^ 52 ≤ (decompose v).mantissa.toNat ∧ (decompose v).mantissa.toNat < 2 ^ 53 := by
  obtain ⟨hpos, hlt⟩ := v.significand_bounds
  have hle : v.significand.size ≤ 53 := Nat.size_le.2 hlt
  have hscaled : ldexp v.frexp.1 digits = (v.significand <<< (53 - v.significand.size) : ℕ) := by
    rw [ldexp, frexp, digits, ← Nat.sub_add_cancel hle, pow_add, Nat.sub_add_cancel hle,
      Nat.shiftLeft_eq]
    push_cast
    field_simp
  have hsize : (v.significand <<< (53 - v.significand.size)).size = 53 := by
    rw [Nat.size_shiftLeft hpos.ne', Nat.add_sub_cancel' hle]
  have hhi := Nat.size_le.1 hsize.le
  rw [decompose, hscaled, Int.floor_natCast, Int.toNat_natCast, BitVec.toNat_ofNat,
    Nat.mod_eq_of_lt (hhi.trans (by norm_num))]
  exact ⟨Nat.lt_size.1 (by rw [hsize]; norm_num), hhi⟩

/-- What is printed : the size of the significand decides. -/
theorem formatA_eq : ((formatA v).leading, (formatA v).exp)
    = if -1022 ≤ v.exponent + v.significand.size then (1, v.exponent + v.significand.size - 1)
      else (0, -1022) := by
  obtain ⟨hlo, hhi⟩ := v.decompose_mantissa
  have h := formatANormalize_eq 11 52 rfl 64 (by norm_num)
    ⟨0, (decompose v).mantissa, (decompose v).exponent + 64⟩ rfl hlo hhi (by simp)
  rw [formatA, h, decompose, frexp, digits]
  dsimp only
  rw [show v.exponent + v.significand.size - (53 : ℕ) + 64 - (11 : ℕ)
    = v.exponent + v.significand.size by push_cast; ring]

/-- A subnormal double of at least `2 ^ -1023` gets through all shifts. -/
theorem formatA_of_large (h0 : v.Subnormal) (hbig : 2 ^ 51 ≤ v.fraction) :
    ((formatA v).leading, (formatA v).exp) = (1, -1023) := by
  have hfraction : v.significand = v.fraction := if_pos h0
  have hsize : v.significand.size = 52 := by
    rw [hfraction]
    exact le_antisymm (Nat.size_le.2 v.fraction_lt) (Nat.lt_size.2 hbig)
  rw [formatA_eq, exponent, if_pos h0, hsize]
  rfl

/-- The normal form : the exponent is one of a normal double, the leading digit is 1 for a
normal double and 0 for a subnormal one. -/
def HasNormalForm : Prop :=
  -1022 ≤ (formatA v).exp ∧ (formatA v).leading = if v.Subnormal then 0 else 1

/-- The doubles printed in normal form are those outside of `[2 ^ -1023, 2 ^ -1022)`. -/
theorem hasNormalForm_iff : v.HasNormalForm ↔ ¬ (v.Subnormal ∧ 2 ^ 51 ≤ v.fraction) := by
  constructor
  · rintro ⟨hexp, -⟩ ⟨h0, hbig⟩
    rw [(Prod.mk.inj (v.formatA_of_large h0 hbig)).2] at hexp
    exact absurd hexp (by decide)
  · intro h
    have hform := v.formatA_eq
    by_cases h0 : v.Subnormal
    · have hsize : ¬ 51 < v.significand.size := by
        rw [Nat.lt_size, significand, if_pos h0]
        exact fun hbig => h ⟨h0, hbig⟩
      rw [exponent, if_pos h0, if_neg (by omega)] at hform
      obtain ⟨hlead, hexp⟩ := Prod.mk.inj hform
      exact ⟨hexp.ge, by rw [hlead, if_pos h0]⟩
    · have hsize : 52 < v.significand.size := by
        rw [Nat.lt_size, significand, if_neg h0]
        omega
      have hb : v.biased ≠ 0 := h0
      rw [exponent, if_neg h0, if_pos (by omega)] at hform
      obtain ⟨hlead, hexp⟩ := Prod.mk.inj hform
      exact ⟨by rw [hexp]; omega, by rw [hlead, if_neg h0]⟩

/-- The greatest subnormal double has no normal form : its exponent is -1023. -/
theorem greatest_subnormal_not_normalForm :
    ¬ HasNormalForm ⟨0, 2 ^ 52 - 1, by decide, by decide, by decide⟩ := by
  rintro ⟨hexp, -⟩
  rw [(Prod.mk.inj (formatA_of_large _ rfl (by norm_num))).2] at hexp
  exact absurd hexp (by decide)

end Double

end Abseil.HexFloat
