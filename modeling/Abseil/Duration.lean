import Abseil.Uint128

/-!
# Durations

`absl::Duration` is a count of quarter nanoseconds in two parts : `rep_hi` whole
seconds (an `int64_t`) and `rep_lo` ticks of the second begun, below `4 * 10^9`.
The value `~0` of `rep_lo` is left for the two infinities.

The operators work on the parts. `+=` and `-=` add and subtract the seconds in
wrapped two's complement and look afterwards whether the sum went the wrong way.
`*=` and `/=` by an integer take the absolute value to `uint128` ticks, scale
there, and break the result into seconds and ticks again.

`Duration.ticks` is the count that a finite duration stands for and `saturate` the
duration nearest to a count. `duration_arith` : every operator is the exact
operation on counts followed by `saturate`.
-/

namespace Abseil

open Uint128

/-- `std::numeric_limits<int64_t>::max()`. -/
def kint64max : ℤ := 2 ^ 63 - 1

/-- `std::numeric_limits<int64_t>::min()`. -/
def kint64min : ℤ := -2 ^ 63

/-- A tick is a quarter of a nanosecond. -/
def kTicksPerNanosecond : ℤ := 4

/-- The ticks of a second. -/
def kTicksPerSecond : ℤ := 1000 * 1000 * 1000 * kTicksPerNanosecond

/-- The values of `int64_t`. -/
def IsInt64 (v : ℤ) : Prop := kint64min ≤ v ∧ v ≤ kint64max

instance (v : ℤ) : Decidable (IsInt64 v) := inferInstanceAs (Decidable (_ ∧ _))

/-- Conversion to `uint32_t`. -/
def toUint32 (v : ℤ) : ℤ := v % 2 ^ 32

/-- `EncodeTwosComp`, and the conversion of an `int64_t` to `uint64_t`. -/
def encodeTwosComp (v : ℤ) : BitVec 64 := BitVec.ofInt 64 v

/-- `DecodeTwosComp`, and the conversion of a `uint64_t` to `int64_t`. -/
def decodeTwosComp (v : BitVec 64) : ℤ := v.toInt

/-- `Duration` : an `int64_t` and a `uint32_t`. -/
structure Duration where
  repHi : ℤ
  repLo : ℤ
  deriving DecidableEq

namespace Duration

/-! ## The operators -/

/-- `InfiniteDuration()`. -/
def infiniteDuration : Duration := ⟨kint64max, 2 ^ 32 - 1⟩

/-- `ZeroDuration()`. -/
def zeroDuration : Duration := ⟨0, 0⟩

/-- `IsInfiniteDuration`. -/
def isInfiniteDuration (d : Duration) : Bool := d.repLo == 2 ^ 32 - 1

/-- `OppositeInfinity`. -/
def oppositeInfinity (d : Duration) : Duration :=
  if d.repHi < 0 then ⟨kint64max, 2 ^ 32 - 1⟩ else ⟨kint64min, 2 ^ 32 - 1⟩

/-- `NegateAndSubtractOne`. -/
def negateAndSubtractOne (n : ℤ) : ℤ := if n < 0 then -(n + 1) else -n - 1

/-- Unary `operator-`. -/
def neg (d : Duration) : Duration :=
  if d.repLo = 0 then
    if d.repHi = kint64min then infiniteDuration else ⟨-d.repHi, 0⟩
  else if d.isInfiniteDuration then d.oppositeInfinity
  else ⟨negateAndSubtractOne d.repHi, toUint32 (kTicksPerSecond - d.repLo)⟩

/-- `operator<`. -/
def lt (lhs rhs : Duration) : Bool :=
  if lhs.repHi ≠ rhs.repHi then decide (lhs.repHi < rhs.repHi)
  -- the addition of one takes the `~0` of the negative infinity to zero
  else if lhs.repHi = kint64min then
    decide (toUint32 (lhs.repLo + 1) < toUint32 (rhs.repLo + 1))
  else decide (lhs.repLo < rhs.repLo)

/-- `operator+=`. -/
def add (d rhs : Duration) : Duration :=
  if d.isInfiniteDuration then d
  else if rhs.isInfiniteDuration then rhs
  else
    let origRepHi := d.repHi
    let repHi := decodeTwosComp (encodeTwosComp d.repHi + encodeTwosComp rhs.repHi)
    let carried := decide (d.repLo ≥ kTicksPerSecond - rhs.repLo)
    let repHi := if carried then decodeTwosComp (encodeTwosComp repHi + 1) else repHi
    let repLo := if carried then toUint32 (d.repLo - kTicksPerSecond) else d.repLo
    let repLo := toUint32 (repLo + rhs.repLo)
    if (if rhs.repHi < 0 then repHi > origRepHi else repHi < origRepHi) then
      if rhs.repHi < 0 then infiniteDuration.neg else infiniteDuration
    else ⟨repHi, repLo⟩

/-- `operator-=`. -/
def sub (d rhs : Duration) : Duration :=
  if d.isInfiniteDuration then d
  else if rhs.isInfiniteDuration then
    if rhs.repHi ≥ 0 then infiniteDuration.neg else infiniteDuration
  else
    let origRepHi := d.repHi
    let repHi := decodeTwosComp (encodeTwosComp d.repHi - encodeTwosComp rhs.repHi)
    let borrowed := decide (d.repLo < rhs.repLo)
    let repHi := if borrowed then decodeTwosComp (encodeTwosComp repHi - 1) else repHi
    let repLo := if borrowed then toUint32 (d.repLo + kTicksPerSecond) else d.repLo
    let repLo := toUint32 (repLo - rhs.repLo)
    if (if rhs.repHi < 0 then repHi < origRepHi else repHi > origRepHi) then
      if rhs.repHi ≥ 0 then infiniteDuration.neg else infiniteDuration
    else ⟨repHi, repLo⟩

/-- `MakeU128` : the absolute value. -/
def makeU128 (a : ℤ) : Uint128 :=
  let u128 := Uint128.ofUint64 0
  if a < 0 then
    -- one is taken off before the negation, which is then safe
    (u128.add (.ofUint64 1)).add (.ofUint64 (encodeTwosComp (-(a + 1))))
  else u128.add (.ofUint64 (encodeTwosComp a))

/-- `MakeU128Ticks` : the ticks of the absolute value. -/
def makeU128Ticks (d : Duration) : Uint128 :=
  let repHi := if d.repHi < 0 then -(d.repHi + 1) else d.repHi
  let repLo := if d.repHi < 0 then toUint32 (kTicksPerSecond - d.repLo) else d.repLo
  ((Uint128.ofUint64 (encodeTwosComp repHi)).mul (.ofUint64 (encodeTwosComp kTicksPerSecond))).add
    (.ofUint64 (encodeTwosComp repLo))

/-- The last lines of `MakeDurationFromU128`. -/
def withSign (isNeg : Bool) (repHi repLo : ℤ) : Duration :=
  if isNeg then
    if repLo ≠ 0 then ⟨-repHi - 1, toUint32 (kTicksPerSecond - repLo)⟩ else ⟨-repHi, repLo⟩
  else ⟨repHi, repLo⟩

/-- `MakeDurationFromU128`. -/
def makeDurationFromU128 (u128 : Uint128) (isNeg : Bool) : Duration :=
  let h64 := u128.hi
  let l64 := u128.lo
  if h64 = 0 then
    let hi := l64 / encodeTwosComp kTicksPerSecond
    withSign isNeg (decodeTwosComp hi)
      (toUint32 (l64 - hi * encodeTwosComp kTicksPerSecond).toNat)
  else
    let kMaxRepHi64 : BitVec 64 := 0x77359400
    if h64 ≥ kMaxRepHi64 then
      if isNeg && h64 == kMaxRepHi64 && l64 == 0 then ⟨kint64min, 0⟩
      else if isNeg then infiniteDuration.neg else infiniteDuration
    else
      let kTicksPerSecond128 := Uint128.ofUint64 (encodeTwosComp kTicksPerSecond)
      let hi := (u128.divModImpl kTicksPerSecond128).1
      withSign isNeg (decodeTwosComp hi.lo)
        (toUint32 (u128.sub (hi.mul kTicksPerSecond128)).lo.toNat)

/-- `Uint128Max()`. -/
def uint128Max : Uint128 := ⟨BitVec.allOnes 64, BitVec.allOnes 64⟩

/-- `SafeMultiply`. -/
def safeMultiply (a b : Uint128) : Uint128 :=
  if a.hi = 0 then
    if (a.lo ||| b.lo) >>> 32 = 0 then .ofUint64 (a.lo * b.lo) else a.mul b
  else if b.eq (.ofUint64 0) then b
  else if a.gt (uint128Max.divModImpl b).1 then uint128Max
  else a.mul b

/-- `std::divides<uint128>`. -/
def divides (a b : Uint128) : Uint128 := (a.divModImpl b).1

/-- `ScaleFixed`. -/
def scaleFixed (operation : Uint128 → Uint128 → Uint128) (d : Duration) (r : ℤ) : Duration :=
  let a := d.makeU128Ticks
  let b := makeU128 r
  let q := operation a b
  let isNeg := decide (d.repHi < 0) != decide (r < 0)
  makeDurationFromU128 q isNeg

/-- `operator*=(int64_t)`. -/
def mul (d : Duration) (r : ℤ) : Duration :=
  if d.isInfiniteDuration then
    let isNeg := decide (r < 0) != decide (d.repHi < 0)
    if isNeg then infiniteDuration.neg else infiniteDuration
  else scaleFixed safeMultiply d r

/-- `operator/=(int64_t)`. -/
def div (d : Duration) (r : ℤ) : Duration :=
  if d.isInfiniteDuration || r == 0 then
    let isNeg := decide (r < 0) != decide (d.repHi < 0)
    if isNeg then infiniteDuration.neg else infiniteDuration
  else scaleFixed divides d r

/-! ## Tick counts -/

/-- A finite duration : seconds in `int64_t` and less than a second of ticks. -/
structure Finite (d : Duration) : Prop where
  repHi : IsInt64 d.repHi
  repLo_nonneg : 0 ≤ d.repLo
  repLo_lt : d.repLo < kTicksPerSecond

/-- The two infinities. -/
def Infinite (d : Duration) : Prop := d = infiniteDuration ∨ d = ⟨kint64min, 2 ^ 32 - 1⟩

/-- The representations that are used : finite, or one of the two infinities. -/
def Valid (d : Duration) : Prop := d.Finite ∨ d.Infinite

/-- The number of ticks of a finite duration. -/
def ticks (d : Duration) : ℤ := d.repHi * kTicksPerSecond + d.repLo

/-- The duration of `n` ticks, or the infinity of the sign of `n` when its seconds do
not fit `int64_t`. -/
def saturate (n : ℤ) : Duration :=
  if IsInt64 (n / kTicksPerSecond) then ⟨n / kTicksPerSecond, n % kTicksPerSecond⟩
  else if n < 0 then ⟨kint64min, 2 ^ 32 - 1⟩ else infiniteDuration

/-- Where a duration stands on the line of tick counts between the infinities. -/
def place (d : Duration) : WithBot (WithTop ℤ) :=
  if d = infiniteDuration then ((⊤ : WithTop ℤ) : WithBot (WithTop ℤ))
  else if d = ⟨kint64min, 2 ^ 32 - 1⟩ then ⊥
  else ((d.ticks : WithTop ℤ) : WithBot (WithTop ℤ))

@[simp] theorem kTicksPerSecond_eq : kTicksPerSecond = 4000000000 := rfl

@[simp] theorem kint64max_eq : kint64max = 9223372036854775807 := rfl

@[simp] theorem kint64min_eq : kint64min = -9223372036854775808 := rfl

theorem isInt64_iff (v : ℤ) : IsInt64 v ↔ -2 ^ 63 ≤ v ∧ v < 2 ^ 63 := by
  rw [IsInt64, kint64min_eq, kint64max_eq]
  omega

theorem neg_infiniteDuration : infiniteDuration.neg = ⟨kint64min, 2 ^ 32 - 1⟩ := by decide

theorem finite_iff (d : Duration) :
    d.Finite ↔ (-9223372036854775808 ≤ d.repHi ∧ d.repHi ≤ 9223372036854775807) ∧
      0 ≤ d.repLo ∧ d.repLo < 4000000000 :=
  ⟨fun h => ⟨h.repHi, h.repLo_nonneg, h.repLo_lt⟩, fun h => ⟨h.1, h.2.1, h.2.2⟩⟩

variable {d : Duration}

theorem Finite.not_isInfinite (h : d.Finite) : d.isInfiniteDuration = false := by
  rw [finite_iff] at h
  rw [isInfiniteDuration, beq_eq_false_iff_ne]
  omega

variable {hi lo : ℤ}

/-- A number of ticks given by its seconds and the rest. -/
theorem saturate_mul_add (h0 : 0 ≤ lo) (h1 : lo < kTicksPerSecond) :
    saturate (hi * kTicksPerSecond + lo) = if IsInt64 hi then ⟨hi, lo⟩
      else if hi < 0 then ⟨kint64min, 2 ^ 32 - 1⟩ else infiniteDuration := by
  rw [kTicksPerSecond_eq] at h1
  have hdiv : (hi * kTicksPerSecond + lo) / kTicksPerSecond = hi := by
    rw [kTicksPerSecond_eq]
    omega
  have hmod : (hi * kTicksPerSecond + lo) % kTicksPerSecond = lo := by
    rw [kTicksPerSecond_eq]
    omega
  have hneg : hi * kTicksPerSecond + lo < 0 ↔ hi < 0 := by
    rw [kTicksPerSecond_eq]
    omega
  rw [saturate, hdiv, hmod]
  exact if_congr Iff.rfl rfl (if_congr hneg rfl rfl)

/-- A finite duration is the one of its ticks. -/
theorem Finite.saturate_ticks (h : d.Finite) : saturate d.ticks = d := by
  rw [ticks, saturate_mul_add h.repLo_nonneg h.repLo_lt, if_pos h.repHi]

variable {n : ℤ}

/-- Too many ticks are the infinite duration. -/
theorem saturate_of_ge (h : 2 ^ 63 * kTicksPerSecond ≤ n) : saturate n = infiniteDuration := by
  rw [kTicksPerSecond_eq] at h
  rw [saturate, if_neg, if_neg (by omega)]
  rw [isInt64_iff, kTicksPerSecond_eq]
  omega

/-- Too few ticks are the negative infinite duration. -/
theorem saturate_of_lt (h : n < -2 ^ 63 * kTicksPerSecond) : saturate n = infiniteDuration.neg := by
  rw [kTicksPerSecond_eq] at h
  rw [saturate, if_neg, if_pos (by omega), neg_infiniteDuration]
  rw [isInt64_iff, kTicksPerSecond_eq]
  omega

theorem saturate_valid (n : ℤ) : (saturate n).Valid := by
  unfold saturate
  split_ifs with h
  · exact .inl ⟨h, Int.emod_nonneg _ (by simp), Int.emod_lt_of_pos _ (by simp)⟩
  · exact .inr (.inr rfl)
  · exact .inr (.inl rfl)

/-- Ticks in range are represented exactly. -/
theorem ticks_saturate (h : IsInt64 (n / kTicksPerSecond)) :
    (saturate n).Finite ∧ (saturate n).ticks = n := by
  rw [saturate, if_pos h]
  refine ⟨⟨h, Int.emod_nonneg _ (by simp), Int.emod_lt_of_pos _ (by simp)⟩, ?_⟩
  rw [ticks, mul_comm]
  exact Int.mul_ediv_add_emod n kTicksPerSecond

/-! ## Sum, difference and negation -/

/-- The wrapped value of a signed result. -/
theorem bmod_eq (v : ℤ) : v.bmod (2 ^ 64) = (v + 2 ^ 63) % 2 ^ 64 - 2 ^ 63 := by
  rw [Int.bmod]
  split <;> omega

/-- The sum wraps as the signed integers do. -/
theorem decode_add (a b : ℤ) :
    decodeTwosComp (encodeTwosComp a + encodeTwosComp b) = (a + b).bmod (2 ^ 64) := by
  unfold decodeTwosComp encodeTwosComp
  rw [← BitVec.ofInt_add, BitVec.toInt_ofInt]

theorem decode_sub (a b : ℤ) :
    decodeTwosComp (encodeTwosComp a - encodeTwosComp b) = (a - b).bmod (2 ^ 64) := by
  unfold decodeTwosComp encodeTwosComp
  rw [BitVec.toInt_sub, BitVec.toInt_ofInt, BitVec.toInt_ofInt, Int.sub_bmod_bmod,
    Int.bmod_sub_bmod]

/-- The test for overflow : seconds that only fall, wrapped, overflowed iff they came out larger,
and seconds that only grow iff they came out smaller. -/
theorem wrapped {o : ℤ} {falls : Prop} [Decidable falls] (ho : IsInt64 o) (h0 : 0 ≤ lo)
    (h1 : lo < kTicksPerSecond) (hfalls : falls → o - 2 ^ 63 ≤ hi ∧ hi ≤ o)
    (hgrows : ¬ falls → o ≤ hi ∧ hi ≤ o + 2 ^ 63) :
    (if (if falls then hi.bmod (2 ^ 64) > o else hi.bmod (2 ^ 64) < o) then
      if falls then infiniteDuration.neg else infiniteDuration else ⟨hi.bmod (2 ^ 64), lo⟩)
      = saturate (hi * kTicksPerSecond + lo) := by
  rw [saturate_mul_add h0 h1, bmod_eq, neg_infiniteDuration]
  rw [isInt64_iff] at ho
  by_cases hfit : IsInt64 hi
  · have hfit' := (isInt64_iff hi).mp hfit
    rw [if_pos hfit, show (hi + 2 ^ 63) % 2 ^ 64 - 2 ^ 63 = hi by omega]
    refine if_neg ?_
    split_ifs with hf
    · exact not_lt.mpr (hfalls hf).2
    · exact not_lt.mpr (hgrows hf).1
  · have hfit' := (isInt64_iff hi).not.mp hfit
    rw [if_neg hfit]
    by_cases hf : falls
    · have hrange := hfalls hf
      simp only [hf, if_true]
      rw [if_pos (by omega), if_pos (by omega)]
    · have hrange := hgrows hf
      simp only [hf, if_false]
      rw [if_pos (by omega), if_neg (by omega)]

variable {rhs : Duration}

section

variable (h : d.Finite)
include h

/-- Whether ticks are carried or not, the seconds and ticks that `operator+=` computes are those of
the sum, and it looks for overflow on the right side. -/
theorem add_eq_saturate (hr : rhs.Finite) : d.add rhs = saturate (d.ticks + rhs.ticks) := by
  have h' := (finite_iff d).mp h
  have hr' := (finite_iff rhs).mp hr
  rw [add, h.not_isInfinite, hr.not_isInfinite]
  simp only [Bool.false_eq_true, if_false, decode_add, decide_eq_true_eq, ticks]
  by_cases hcarry : d.repLo ≥ kTicksPerSecond - rhs.repLo
  · have hwrap (v : ℤ) : decodeTwosComp (encodeTwosComp (v.bmod (2 ^ 64)) + 1)
        = (v + 1).bmod (2 ^ 64) := by
      rw [show (1 : BitVec 64) = encodeTwosComp 1 from rfl, decode_add, Int.bmod_add_bmod]
    have hlo : toUint32 (toUint32 (d.repLo - kTicksPerSecond) + rhs.repLo)
        = d.repLo + rhs.repLo - kTicksPerSecond := by
      rw [kTicksPerSecond_eq] at hcarry ⊢
      unfold toUint32
      omega
    simp only [hcarry, if_true, hwrap, hlo]
    refine (wrapped h.repHi (by omega) ?_ (fun _ => by omega) fun _ => by omega).trans
      (congrArg saturate (by ring))
    rw [kTicksPerSecond_eq]
    omega
  · have hlo : toUint32 (d.repLo + rhs.repLo) = d.repLo + rhs.repLo := by
      rw [kTicksPerSecond_eq] at hcarry
      unfold toUint32
      omega
    simp only [hcarry, if_false, hlo]
    exact (wrapped h.repHi (by omega) (by omega) (fun _ => by omega) fun _ => by omega).trans
      (congrArg saturate (by ring))

/-- `operator-=` borrows where `operator+=` carries. -/
theorem sub_eq_saturate (hr : rhs.Finite) : d.sub rhs = saturate (d.ticks - rhs.ticks) := by
  have h' := (finite_iff d).mp h
  have hr' := (finite_iff rhs).mp hr
  rw [sub, h.not_isInfinite, hr.not_isInfinite]
  simp only [Bool.false_eq_true, if_false, decode_sub, decide_eq_true_eq, ticks,
    ← ite_not (rhs.repHi < 0), not_lt, ge_iff_le]
  by_cases hborrow : d.repLo < rhs.repLo
  · have hwrap (v : ℤ) : decodeTwosComp (encodeTwosComp (v.bmod (2 ^ 64)) - 1)
        = (v - 1).bmod (2 ^ 64) := by
      rw [show (1 : BitVec 64) = encodeTwosComp 1 from rfl, decode_sub, Int.bmod_sub_bmod]
    have hlo : toUint32 (toUint32 (d.repLo + kTicksPerSecond) - rhs.repLo)
        = d.repLo - rhs.repLo + kTicksPerSecond := by
      rw [kTicksPerSecond_eq]
      unfold toUint32
      omega
    simp only [hborrow, if_true, hwrap, hlo]
    refine (wrapped h.repHi ?_ (by omega) (fun _ => by omega) fun _ => by omega).trans
      (congrArg saturate (by ring))
    rw [kTicksPerSecond_eq]
    omega
  · have hlo : toUint32 (d.repLo - rhs.repLo) = d.repLo - rhs.repLo := by
      unfold toUint32
      omega
    simp only [hborrow, if_false, hlo]
    refine (wrapped h.repHi (by omega) ?_ (fun _ => by omega) fun _ => by omega).trans
      (congrArg saturate (by ring))
    rw [kTicksPerSecond_eq]
    omega

/-- Negation saturates. -/
theorem neg_eq_saturate : d.neg = saturate (-d.ticks) := by
  have h' := (finite_iff d).mp h
  by_cases hlo : d.repLo = 0
  · have hticks : -d.ticks = -d.repHi * kTicksPerSecond + 0 := by rw [ticks, hlo]; ring
    rw [hticks, saturate_mul_add le_rfl (by simp), neg, if_pos hlo]
    by_cases hmin : d.repHi = kint64min
    · rw [if_pos hmin, hmin]
      decide
    rw [if_neg hmin, if_pos]
    rw [kint64min_eq] at hmin
    rw [isInt64_iff]
    omega
  · have hticks : -d.ticks
        = (-d.repHi - 1) * kTicksPerSecond + (kTicksPerSecond - d.repLo) := by rw [ticks]; ring
    have hfit : IsInt64 (-d.repHi - 1) := by
      rw [isInt64_iff]
      omega
    rw [hticks, saturate_mul_add (by simp; omega) (by omega), if_pos hfit, neg, if_neg hlo,
      h.not_isInfinite, if_neg (by simp), negateAndSubtractOne, toUint32, kTicksPerSecond_eq,
      mk.injEq]
    exact ⟨by split <;> omega, by omega⟩

end

/-! ## Scaling -/

theorem toNat_encode {v : ℤ} (h0 : 0 ≤ v) (h1 : v < 2 ^ 64) :
    ((encodeTwosComp v).toNat : ℤ) = v := by
  rw [encodeTwosComp, BitVec.toNat_ofInt]
  omega

theorem toNat_kTicksPerSecond : (encodeTwosComp kTicksPerSecond).toNat = 4000000000 := by decide

/-- `MakeU128` is the absolute value. -/
theorem toNat_makeU128 {a : ℤ} (h : IsInt64 a) : ((makeU128 a).toNat : ℤ) = |a| := by
  rw [isInt64_iff] at h
  unfold makeU128
  split_ifs with hneg
  · have henc := toNat_encode (v := -(a + 1)) (by omega) (by omega)
    rw [abs_of_neg hneg]
    simp only [toNat_add, toNat_ofUint64, toNat_zero, toNat_one]
    omega
  · have henc := toNat_encode (v := a) (by omega) (by omega)
    rw [abs_of_nonneg (by omega)]
    simp only [toNat_add, toNat_ofUint64, toNat_zero]
    omega

/-- `MakeU128Ticks` is the absolute count of ticks. -/
theorem toNat_makeU128Ticks (h : d.Finite) : (d.makeU128Ticks.toNat : ℤ) = |d.ticks| := by
  have h' := (finite_iff d).mp h
  have hparts (hi lo : ℤ) (h0 : 0 ≤ hi) (h1 : hi < 2 ^ 63) (h2 : 0 ≤ lo) (h3 : lo ≤ 4000000000) :
      (((ofUint64 (encodeTwosComp hi)).mul (.ofUint64 (encodeTwosComp kTicksPerSecond))).add
        (.ofUint64 (encodeTwosComp lo))).toNat = hi * 4000000000 + lo := by
    have hhi := toNat_encode h0 (by omega)
    have hlo := toNat_encode h2 (by omega)
    simp only [toNat_add, toNat_mul, toNat_ofUint64, toNat_kTicksPerSecond]
    omega
  unfold makeU128Ticks ticks
  rw [kTicksPerSecond_eq]
  by_cases hneg : d.repHi < 0
  · simp only [hneg, if_true, toUint32]
    rw [← kTicksPerSecond_eq, hparts _ _ (by omega) (by omega) (by omega) (by simp; omega),
      abs_of_neg]
    · rw [kTicksPerSecond_eq]
      omega
    · rw [kTicksPerSecond_eq]
      omega
  · simp only [hneg, if_false]
    rw [← kTicksPerSecond_eq, hparts _ _ (by omega) (by omega) (by omega) (by omega), abs_of_nonneg]
    · rw [kTicksPerSecond_eq]
    · rw [kTicksPerSecond_eq]
      omega

/-- `withSign` puts the sign on seconds and ticks that fit. -/
theorem withSign_eq (isNeg : Bool) (h0 : 0 ≤ hi) (h1 : hi < 2 ^ 63) (h2 : 0 ≤ lo)
    (h3 : lo < kTicksPerSecond) :
    withSign isNeg hi lo = saturate (if isNeg then -(hi * kTicksPerSecond + lo)
      else hi * kTicksPerSecond + lo) := by
  have hfit (v : ℤ) (hv : -2 ^ 63 ≤ v ∧ v < 2 ^ 63) : IsInt64 v := (isInt64_iff v).mpr hv
  cases isNeg with
  | false => rw [withSign, if_neg (by simp), if_neg (by simp), saturate_mul_add h2 h3,
      if_pos (hfit _ (by omega))]
  | true =>
    rw [withSign, if_pos rfl, if_pos rfl]
    by_cases hlo : lo = 0
    · rw [if_neg (not_not.mpr hlo), hlo,
        show -(hi * kTicksPerSecond + 0) = -hi * kTicksPerSecond + 0 by ring,
        saturate_mul_add le_rfl (by simp), if_pos (hfit _ (by omega))]
    rw [if_pos hlo, show -(hi * kTicksPerSecond + lo)
      = (-hi - 1) * kTicksPerSecond + (kTicksPerSecond - lo) by ring,
      saturate_mul_add (by omega) (by omega), if_pos (hfit _ (by omega)), toUint32,
      Int.emod_eq_of_lt (by omega)]
    rw [kTicksPerSecond_eq] at h3 ⊢
    omega

/-- `n` ticks whose seconds fit, taken apart and given a sign. -/
theorem withSign_divMod {n : ℕ} (isNeg : Bool) (h : n < 2 ^ 63 * 4000000000) :
    withSign isNeg (n / 4000000000 : ℕ) (n % 4000000000 : ℕ)
      = saturate (if isNeg then -(n : ℤ) else n) := by
  rw [withSign_eq isNeg (by omega) (by omega) (by omega) (by simp; omega), kTicksPerSecond_eq,
    show ((n / 4000000000 : ℕ) : ℤ) * 4000000000 + (n % 4000000000 : ℕ) = n by omega]

/-- The fast path : ticks in one word. -/
theorem makeDurationFromU128_word {u128 : Uint128} (isNeg : Bool) (h : u128.hi = 0) :
    makeDurationFromU128 u128 isNeg
      = saturate (if isNeg then -(u128.toNat : ℤ) else u128.toNat) := by
  have htoNat : u128.toNat = u128.lo.toNat := by simp [Uint128.toNat, h]
  have hdiv : (u128.lo / encodeTwosComp kTicksPerSecond).toNat = u128.lo.toNat / 4000000000 := by
    rw [BitVec.toNat_udiv, toNat_kTicksPerSecond]
  have hdecode : decodeTwosComp (u128.lo / encodeTwosComp kTicksPerSecond)
      = (u128.lo.toNat / 4000000000 : ℕ) := by
    rw [decodeTwosComp, BitVec.toInt_eq_toNat_of_lt (by rw [hdiv]; omega), hdiv]
  have hrem : toUint32 (u128.lo - u128.lo / encodeTwosComp kTicksPerSecond
      * encodeTwosComp kTicksPerSecond).toNat = (u128.lo.toNat % 4000000000 : ℕ) := by
    rw [BitVec.toNat_sub, BitVec.toNat_mul, hdiv, toNat_kTicksPerSecond, toUint32]
    omega
  rw [makeDurationFromU128, if_pos h, htoNat]
  simp only [hdecode, hrem]
  exact withSign_divMod isNeg (by omega)

/-- The quotient and remainder of the wide path. -/
theorem wide_divMod {u128 : Uint128} (h : u128.toNat < 2 ^ 63 * 4000000000) :
    decodeTwosComp (u128.divModImpl (.ofUint64 (encodeTwosComp kTicksPerSecond))).1.lo
        = (u128.toNat / 4000000000 : ℕ) ∧
      toUint32 (u128.sub ((u128.divModImpl (.ofUint64 (encodeTwosComp kTicksPerSecond))).1.mul
        (.ofUint64 (encodeTwosComp kTicksPerSecond)))).lo.toNat
        = (u128.toNat % 4000000000 : ℕ) := by
  have hlow (x : Uint128) (hx : x.toNat < 2 ^ 64) : x.lo.toNat = x.toNat := by
    unfold Uint128.toNat at hx ⊢
    omega
  have hK : (ofUint64 (encodeTwosComp kTicksPerSecond)).toNat = 4000000000 := by
    rw [toNat_ofUint64, toNat_kTicksPerSecond]
  obtain ⟨htotal, hlt⟩ := u128.divModImpl_spec _
    (by rw [hK]; norm_num)
  rw [hK] at htotal hlt
  generalize u128.divModImpl _ = qr at htotal hlt ⊢
  have hsub : (u128.sub (qr.1.mul (.ofUint64 (encodeTwosComp kTicksPerSecond)))).toNat
      = qr.2.toNat := by
    rw [toNat_sub, toNat_mul, hK]
    omega
  constructor
  · have hq := hlow qr.1 (by omega)
    rw [decodeTwosComp, BitVec.toInt_eq_toNat_of_lt (by omega), hq]
    omega
  · rw [hlow _ (by omega), hsub, toUint32]
    omega

/-- The ticks and their sign, taken apart into seconds and ticks. -/
theorem makeDurationFromU128_eq (u128 : Uint128) (isNeg : Bool) : makeDurationFromU128 u128 isNeg
      = saturate (if isNeg then -(u128.toNat : ℤ) else u128.toNat) := by
  by_cases hzero : u128.hi = 0
  · exact makeDurationFromU128_word isNeg hzero
  rw [makeDurationFromU128, if_neg hzero]
  have hmax : (0x77359400 : BitVec 64).toNat = 2000000000 := rfl
  by_cases hbig : u128.hi ≥ 0x77359400
  · have hhi : 2000000000 ≤ u128.hi.toNat := hbig
    have hu : 2 ^ 63 * 4000000000 ≤ (u128.toNat : ℤ) := by
      unfold Uint128.toNat
      omega
    rw [if_pos hbig]
    cases isNeg with
    | false =>
      exact (saturate_of_ge (by simpa using hu)).symm
    | true =>
      by_cases hmin : u128.hi = 0x77359400 ∧ u128.lo = 0
      · have hticks : -(u128.toNat : ℤ) = -2 ^ 63 * kTicksPerSecond + 0 := by
          rw [Uint128.toNat, hmin.1, hmin.2, hmax, Uint128.toNat_zero, kTicksPerSecond_eq]
          norm_num
        simp only [hmin, Bool.true_and, beq_self_eq_true, if_true]
        rw [hticks, saturate_mul_add le_rfl (by simp), if_pos ((isInt64_iff _).mpr (by norm_num))]
        rfl
      · rw [if_neg (by simpa using hmin), if_pos rfl, if_pos rfl, saturate_of_lt]
        have hne : ¬(u128.hi.toNat = 2000000000 ∧ u128.lo.toNat = 0) := by
          rwa [← hmax, ← toNat_zero, ← BitVec.toNat_eq, ← BitVec.toNat_eq]
        rw [kTicksPerSecond_eq]
        unfold Uint128.toNat
        omega
  · have hhi : u128.hi.toNat < 2000000000 := by
      rwa [ge_iff_le, BitVec.le_def, hmax, not_le] at hbig
    have hsmall : u128.toNat < 2 ^ 63 * 4000000000 := by
      unfold Uint128.toNat
      omega
    obtain ⟨hdecode, hrem⟩ := wide_divMod hsmall
    simp only [hbig, if_false, hdecode, hrem]
    exact withSign_divMod isNeg hsmall

theorem lt_of_or_shiftRight {x y : BitVec 64} (h : (x ||| y) >>> 32 = 0) :
    x.toNat < 2 ^ 32 ∧ y.toNat < 2 ^ 32 := by
  have hor : x.toNat ||| y.toNat < 2 ^ 32 := by
    rw [BitVec.toNat_eq, BitVec.toNat_ushiftRight, toNat_zero, BitVec.toNat_or,
      Nat.shiftRight_eq_div_pow] at h
    omega
  exact ⟨Nat.left_le_or.trans_lt hor, Nat.right_le_or.trans_lt hor⟩

/-- `SafeMultiply` stops at the greatest `uint128`. -/
theorem toNat_safeMultiply {a b : Uint128} (hb : b.hi = 0) :
    (safeMultiply a b).toNat = min (a.toNat * b.toNat) (2 ^ 128 - 1) := by
  have hbword : b.toNat = b.lo.toNat := by simp [Uint128.toNat, hb]
  have hmax : uint128Max.toNat = 2 ^ 128 - 1 := by decide
  unfold safeMultiply
  split_ifs with ha hsmall hzero hbig
  · have haword : a.toNat = a.lo.toNat := by simp [Uint128.toNat, ha]
    obtain ⟨h1, h2⟩ := lt_of_or_shiftRight hsmall
    obtain ⟨hmul, hlt⟩ := toNat_limb_mul h1 h2
    rw [toNat_ofUint64, hmul, haword, hbword]
    omega
  · have haword : a.toNat = a.lo.toNat := by simp [Uint128.toNat, ha]
    have hlt := Nat.mul_lt_mul'' a.lo.isLt b.lo.isLt
    rw [toNat_mul, haword, hbword]
    omega
  · rw [eq_iff, toNat_ofUint64, toNat_zero] at hzero
    rw [hzero]
    simp
  all_goals
    rw [eq_iff, toNat_ofUint64, toNat_zero] at hzero
    obtain ⟨htotal, hlt⟩ := uint128Max.divModImpl_spec b hzero
    rw [gt_iff] at hbig
    generalize (uint128Max.divModImpl b).1.toNat = q at htotal hbig
  · -- the product of the quotient and one more is above the maximum already
    have hle : (q + 1) * b.toNat ≤ a.toNat * b.toNat := Nat.mul_le_mul_right _ hbig
    rw [add_mul, one_mul] at hle
    omega
  · have hle : a.toNat * b.toNat ≤ q * b.toNat := Nat.mul_le_mul_right _ (not_lt.mp hbig)
    rw [toNat_mul]
    omega

variable {r : ℤ}

theorem makeU128_hi (h : IsInt64 r) : (makeU128 r).hi = 0 := by
  have htoNat := toNat_makeU128 h
  have habs : |r| ≤ 2 ^ 63 := by
    rw [isInt64_iff] at h
    exact abs_le.mpr ⟨h.1, by omega⟩
  have hlt : (makeU128 r).toNat < 2 ^ 64 := by omega
  apply BitVec.eq_of_toNat_eq
  unfold Uint128.toNat at hlt
  rw [toNat_zero]
  omega

theorem Finite.ticks_neg_iff (h : d.Finite) : d.ticks < 0 ↔ d.repHi < 0 := by
  have h' := (finite_iff d).mp h
  rw [ticks, kTicksPerSecond_eq]
  omega

/-- `ScaleFixed` by an operation on `uint128` that computes `f` on absolute values. -/
theorem scaleFixed_eq {operation : Uint128 → Uint128 → Uint128} {f : ℤ → ℤ → ℤ} (h : d.Finite)
    (hl : ∀ x y, f (-x) y = -f x y) (hr : ∀ x y, f x (-y) = -f x y)
    (hop : (operation d.makeU128Ticks (makeU128 r)).toNat = f |d.ticks| |r|) :
    scaleFixed operation d r = saturate (f d.ticks r) := by
  have hsign : decide (d.repHi < 0) = decide (d.ticks < 0) := by
    rw [decide_eq_decide, h.ticks_neg_iff]
  simp only [scaleFixed, makeDurationFromU128_eq, hop, hsign]
  rw [signed_eq hl hr]

/-- Division rounds toward zero and saturates. -/
theorem div_eq_saturate (h : d.Finite) (hr : IsInt64 r) (h0 : r ≠ 0) :
    d.div r = saturate (d.ticks.tdiv r) := by
  rw [div, h.not_isInfinite, Bool.false_or, if_neg (by simpa using h0)]
  apply scaleFixed_eq h (fun x y => Int.neg_tdiv x y) (fun x y => Int.tdiv_neg x y)
  have ha := toNat_makeU128Ticks h
  have hb := toNat_makeU128 hr
  have hb0 : (makeU128 r).toNat ≠ 0 := by
    have := abs_pos.mpr h0
    omega
  rw [← ha, ← hb, divides, toNat_div hb0, Int.ofNat_tdiv]

/-- Whether the product is exact or stopped at the greatest `uint128` makes no difference. -/
theorem saturate_min (n : ℤ) : saturate (min n (2 ^ 128 - 1)) = saturate n ∧
    saturate (-min n (2 ^ 128 - 1)) = saturate (-n) := by
  rcases le_or_gt n _ with hn | hn
  · rw [min_eq_left hn]
    exact ⟨rfl, rfl⟩
  · rw [min_eq_right hn.le, saturate_of_ge (by simp), saturate_of_ge (by simp; omega),
      saturate_of_lt (by simp), saturate_of_lt (by simp; omega)]
    exact ⟨rfl, rfl⟩

/-- Multiplication saturates. -/
theorem mul_eq_saturate (h : d.Finite) (hr : IsInt64 r) : d.mul r = saturate (d.ticks * r) := by
  have hsign : decide (d.repHi < 0) = decide (d.ticks < 0) := by
    rw [decide_eq_decide, h.ticks_neg_iff]
  have hprod : ((safeMultiply d.makeU128Ticks (makeU128 r)).toNat : ℤ)
      = min (|d.ticks| * |r|) (2 ^ 128 - 1) := by
    rw [toNat_safeMultiply (makeU128_hi hr), ← toNat_makeU128Ticks h, ← toNat_makeU128 hr]
    push_cast
    rfl
  rw [mul, h.not_isInfinite, if_neg (by simp)]
  simp only [scaleFixed, makeDurationFromU128_eq, hprod, hsign]
  rw [← signed_eq (fun x y => neg_mul x y) (fun x y => mul_neg x y) d.ticks r]
  split_ifs
  · exact (saturate_min _).2
  · exact (saturate_min _).1

/-! ## Order -/

theorem Finite.place_eq (h : d.Finite) :
    d.place = ((d.ticks : WithTop ℤ) : WithBot (WithTop ℤ)) := by
  have h1 := h.repLo_lt
  rw [place, if_neg, if_neg]
  · rintro rfl
    simp at h1
  · rintro rfl
    simp [infiniteDuration] at h1

theorem place_infiniteDuration : infiniteDuration.place = ((⊤ : WithTop ℤ) : WithBot (WithTop ℤ)) :=
  if_pos rfl

theorem place_neg_infiniteDuration : place ⟨kint64min, 2 ^ 32 - 1⟩ = ⊥ := by
  rw [place, if_neg (by decide), if_pos rfl]

theorem lt_iff (lhs rhs : Duration) : lhs.lt rhs = true ↔ lhs.repHi < rhs.repHi ∨
    lhs.repHi = rhs.repHi ∧
      (lhs.repHi = -2 ^ 63 ∧ (lhs.repLo + 1) % 2 ^ 32 < (rhs.repLo + 1) % 2 ^ 32 ∨
        lhs.repHi ≠ -2 ^ 63 ∧ lhs.repLo < rhs.repLo) := by
  unfold lt toUint32
  have hmin : kint64min = -2 ^ 63 := rfl
  split_ifs <;> simp only [decide_eq_true_eq] <;> omega

/-- Finite durations are compared by their ticks. -/
theorem Finite.lt_iff_ticks {lhs : Duration} (hl : lhs.Finite) (hr : rhs.Finite) :
    lhs.lt rhs = true ↔ lhs.ticks < rhs.ticks := by
  rw [finite_iff] at hl hr
  rw [lt_iff, ticks, ticks, kTicksPerSecond_eq]
  omega

/-- `operator<` is the order of the tick counts between the two infinities. -/
theorem lt_iff_place {lhs : Duration} (hl : lhs.Valid) (hr : rhs.Valid) :
    lhs.lt rhs = true ↔ lhs.place < rhs.place := by
  have hhi : infiniteDuration.repHi = 2 ^ 63 - 1 := rfl
  have hlo : infiniteDuration.repLo = 2 ^ 32 - 1 := rfl
  rcases hl with hl | rfl | rfl <;> rcases hr with hr | rfl | rfl
  · rw [hl.lt_iff_ticks hr, hl.place_eq, hr.place_eq, WithBot.coe_lt_coe, WithTop.coe_lt_coe]
  · rw [hl.place_eq, place_infiniteDuration, WithBot.coe_lt_coe, lt_iff]
    rw [finite_iff] at hl
    simp only [WithTop.coe_lt_top, iff_true]
    omega
  · rw [hl.place_eq, place_neg_infiniteDuration, lt_iff]
    rw [finite_iff] at hl
    simp only [not_lt_bot, iff_false, kint64min_eq]
    omega
  · rw [hr.place_eq, place_infiniteDuration, WithBot.coe_lt_coe, lt_iff]
    rw [finite_iff] at hr
    simp only [not_top_lt, iff_false]
    omega
  · simp [lt]
  · rw [place_infiniteDuration, place_neg_infiniteDuration, lt_iff]
    simp only [not_lt_bot, iff_false, kint64min_eq]
    omega
  · rw [hr.place_eq, place_neg_infiniteDuration, lt_iff]
    rw [finite_iff] at hr
    simp only [WithBot.bot_lt_coe, iff_true, kint64min_eq]
    omega
  · rw [place_infiniteDuration, place_neg_infiniteDuration, lt_iff]
    simp only [WithBot.bot_lt_coe, iff_true, kint64min_eq]
    omega
  · simp [lt]

/-! ## Infinite operands -/

theorem Infinite.isInfinite (h : d.Infinite) : d.isInfiniteDuration = true := by
  rcases h with rfl | rfl <;> rfl

theorem infinite_neg_infiniteDuration : infiniteDuration.neg.Infinite :=
  .inr neg_infiniteDuration

theorem Infinite.neg (h : d.Infinite) : d.neg.Infinite ∧ d.neg ≠ d := by
  rcases h with rfl | rfl
  · exact ⟨infinite_neg_infiniteDuration, by decide⟩
  · exact ⟨.inl (by decide), by decide⟩

/-- The infinity on the left wins. -/
theorem Infinite.add_eq (h : d.Infinite) (rhs : Duration) : d.add rhs = d ∧ d.sub rhs = d := by
  rw [add, sub, if_pos h.isInfinite, if_pos h.isInfinite]
  exact ⟨rfl, rfl⟩

/-- An infinite right operand decides the result. -/
theorem Finite.add_infinite (hd : d.Finite) (h : rhs.Infinite) :
    d.add rhs = rhs ∧ d.sub rhs = rhs.neg := by
  rw [add, sub, hd.not_isInfinite, if_pos h.isInfinite, if_pos h.isInfinite]
  rcases h with rfl | rfl
  · exact ⟨rfl, rfl⟩
  · refine ⟨rfl, ?_⟩
    rw [if_neg (by simp), if_neg (by decide)]
    decide

theorem Infinite.sign_eq (h : d.Infinite) (r : ℤ) :
    (if decide (r < 0) != decide (d.repHi < 0) then infiniteDuration.neg else infiniteDuration)
      = if r < 0 then d.neg else d := by
  rcases h with rfl | rfl <;> rcases lt_or_ge r 0 with hr | hr
  · simp [hr, infiniteDuration]
  · simp [not_lt.mpr hr, infiniteDuration]
  · rw [if_pos hr]
    simp only [hr, kint64min_eq]
    decide
  · rw [if_neg (not_lt.mpr hr)]
    simp only [not_lt.mpr hr, kint64min_eq]
    decide

/-- A factor or divisor only decides the sign of an infinity. -/
theorem Infinite.mul_eq (h : d.Infinite) (r : ℤ) :
    d.mul r = (if r < 0 then d.neg else d) ∧ d.div r = if r < 0 then d.neg else d := by
  rw [mul, div, h.isInfinite, if_pos rfl, Bool.true_or, if_pos rfl]
  exact ⟨h.sign_eq r, h.sign_eq r⟩

theorem Valid.neg (h : d.Valid) : d.neg.Valid := by
  rcases h with h | h
  · rw [neg_eq_saturate h]
    exact saturate_valid _
  · exact .inr h.neg.1

theorem Valid.add (h : d.Valid) (hr : rhs.Valid) : (d.add rhs).Valid := by
  rcases h with h | h
  · rcases hr with hr | hr
    · rw [add_eq_saturate h hr]
      exact saturate_valid _
    · rw [(h.add_infinite hr).1]
      exact .inr hr
  · rw [(h.add_eq rhs).1]
    exact .inr h

theorem Valid.sub (h : d.Valid) (hr : rhs.Valid) : (d.sub rhs).Valid := by
  rcases h with h | h
  · rcases hr with hr | hr
    · rw [sub_eq_saturate h hr]
      exact saturate_valid _
    · rw [(h.add_infinite hr).2]
      exact .inr hr.neg.1
  · rw [(h.add_eq rhs).2]
    exact .inr h

theorem Infinite.scaled (h : d.Infinite) (r : ℤ) : (if r < 0 then d.neg else d).Valid := by
  split_ifs
  · exact .inr h.neg.1
  · exact .inr h

theorem Valid.mul (h : d.Valid) (hr : IsInt64 r) : (d.mul r).Valid := by
  rcases h with h | h
  · rw [mul_eq_saturate h hr]
    exact saturate_valid _
  · rw [(h.mul_eq r).1]
    exact h.scaled r

theorem Valid.div (h : d.Valid) (hr : IsInt64 r) : (d.div r).Valid := by
  rcases h with h | h
  · by_cases h0 : r = 0
    · rw [Duration.div, h0, beq_self_eq_true, Bool.or_true, if_pos rfl]
      dsimp only
      split_ifs
      · exact .inr infinite_neg_infiniteDuration
      · exact .inr (.inl rfl)
    · rw [div_eq_saturate h hr h0]
      exact saturate_valid _
  · rw [(h.mul_eq r).2]
    exact h.scaled r

end Duration

open Duration in
/-- Every operator is the exact operation on tick counts, saturated ; infinities absorb,
the left one first ; results are valid representations ; `operator<` is the order of the
tick counts between the infinities. -/
theorem duration_arith {a b : Duration} {r : ℤ} (ha : a.Valid) (hb : b.Valid) (hr : IsInt64 r) :
    (a.Finite → b.Finite → a.add b = saturate (a.ticks + b.ticks) ∧
      a.sub b = saturate (a.ticks - b.ticks)) ∧
    (a.Finite → a.neg = saturate (-a.ticks) ∧ a.mul r = saturate (a.ticks * r) ∧
      (r ≠ 0 → a.div r = saturate (a.ticks.tdiv r))) ∧
    (a.Infinite → a.add b = a ∧ a.sub b = a ∧ a.neg.Infinite ∧ a.neg ≠ a ∧
      a.mul r = (if r < 0 then a.neg else a) ∧ a.div r = if r < 0 then a.neg else a) ∧
    (a.Finite → b.Infinite → a.add b = b ∧ a.sub b = b.neg) ∧
    ((a.add b).Valid ∧ (a.sub b).Valid ∧ a.neg.Valid ∧ (a.mul r).Valid ∧ (a.div r).Valid) ∧
    (a.lt b = true ↔ a.place < b.place) := by
  refine ⟨fun h h' => ⟨add_eq_saturate h h', sub_eq_saturate h h'⟩,
    fun h => ⟨neg_eq_saturate h, mul_eq_saturate h hr, div_eq_saturate h hr⟩, fun h => ?_,
    fun h h' => h.add_infinite h', ⟨ha.add hb, ha.sub hb, ha.neg, ha.mul hr, ha.div hr⟩,
    lt_iff_place ha hb⟩
  exact ⟨(h.add_eq b).1, (h.add_eq b).2, h.neg.1, h.neg.2, (h.mul_eq r).1, (h.mul_eq r).2⟩

open Duration in
/-- One tick more than the greatest finite duration. -/
theorem duration_arith_overflow :
    Duration.add ⟨kint64max, 3999999999⟩ ⟨0, 1⟩ = infiniteDuration := by
  have ha : Duration.Finite ⟨kint64max, 3999999999⟩ := ⟨by decide, by decide, by decide⟩
  have hb : Duration.Finite ⟨0, 1⟩ := ⟨by decide, by decide, by decide⟩
  rw [((duration_arith (r := -1) (.inl ha) (.inl hb) (by decide)).1 ha hb).1]
  decide

end Abseil
