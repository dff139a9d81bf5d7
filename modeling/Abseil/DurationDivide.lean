import Abseil.Duration

/-!
# Division of durations

`IDivDuration` divides one duration by another and leaves the remainder. Six
common divisors (1ns, 100ns, 1us, 1ms and the positive whole seconds, for
dividends of either sign) take a fast path on the parts. All others go through
`uint128` : the quotient of the absolute values, cut to `int64_t` when `satq` is
set, and the remainder of what is left. `operator%=` takes the same way without
the cut.

`iDivSlowPath_eq` gives the quotient and remainder of the slow path in tick
counts, `iDivFastPath_exact` those of the fast path ; `iDivDuration_exact` is the
whole.
-/

namespace Abseil

open Int Uint128

namespace Duration

/-! ## The two paths -/

/-- The dividing by a fraction of a second in `IDivFastPath` : `perSecond` times `unit` ticks
are a second. The quotient is taken only well below the limit of `int64_t`. -/
def iDivUnit (perSecond unit : ℤ) (num den : Duration) : Option (ℤ × Duration) :=
  if num.repHi ≥ 0 ∧ num.repHi < (kint64max - kTicksPerSecond) / perSecond then
    some (num.repHi * perSecond + num.repLo / unit, ⟨0, num.repLo % den.repLo⟩)
  else none

/-- `IDivFastPath` : the quotient and the remainder when the division was done. -/
def iDivFastPath (num den : Duration) : Option (ℤ × Duration) :=
  if num.isInfiniteDuration || den.isInfiniteDuration then none
  else if den.repHi = 0 then
    if den.repLo = kTicksPerNanosecond then
      iDivUnit 1000000000 kTicksPerNanosecond num den
    else if den.repLo = 100 * kTicksPerNanosecond then
      iDivUnit 10000000 (100 * kTicksPerNanosecond) num den
    else if den.repLo = 1000 * kTicksPerNanosecond then
      iDivUnit 1000000 (1000 * kTicksPerNanosecond) num den
    else if den.repLo = 1000000 * kTicksPerNanosecond then
      iDivUnit 1000 (1000000 * kTicksPerNanosecond) num den
    else none
  else if den.repHi > 0 ∧ den.repLo = 0 then
    if num.repHi ≥ 0 then
      if den.repHi = 1 then some (num.repHi, ⟨0, num.repLo⟩)
      else some (num.repHi.tdiv den.repHi, ⟨num.repHi.tmod den.repHi, num.repLo⟩)
    else
      let numHi := if num.repLo ≠ 0 then num.repHi + 1 else num.repHi
      let quotient := numHi.tdiv den.repHi
      let remSec := numHi.tmod den.repHi
      let (quotient, remSec) :=
        if remSec > 0 then (quotient + 1, remSec - den.repHi) else (quotient, remSec)
      let remSec := if num.repLo ≠ 0 then remSec - 1 else remSec
      some (quotient, ⟨remSec, num.repLo⟩)
  else none

/-- The cut of the quotient to `int64_t` in `IDivSlowPath`. -/
def saturated (satq quotientNeg : Bool) (quotient128 : Uint128) : Uint128 :=
  if satq && quotient128.gt (.ofUint64 (encodeTwosComp kint64max)) then
    if quotientNeg then .ofUint64 (encodeTwosComp kint64min)
    else .ofUint64 (encodeTwosComp kint64max)
  else quotient128

/-- The quotient as it is returned. One whose top bit is on is negated by way of one less. -/
def returned (quotientNeg : Bool) (quotient128 : Uint128) : ℤ :=
  if !quotientNeg || quotient128.eq (.ofUint64 0) then
    decodeTwosComp (quotient128.lo &&& encodeTwosComp kint64max)
  else -decodeTwosComp ((quotient128.sub (.ofUint64 1)).lo &&& encodeTwosComp kint64max) - 1

/-- `IDivSlowPath`. -/
def iDivSlowPath (satq : Bool) (num den : Duration) : ℤ × Duration :=
  let numNeg := num.lt zeroDuration
  let denNeg := den.lt zeroDuration
  let quotientNeg := numNeg != denNeg
  if num.isInfiniteDuration || decide (den = zeroDuration) then
    (if quotientNeg then kint64min else kint64max,
      if numNeg then infiniteDuration.neg else infiniteDuration)
  else if den.isInfiniteDuration then (0, num)
  else
    let a := num.makeU128Ticks
    let b := den.makeU128Ticks
    let quotient128 := saturated satq quotientNeg (a.divModImpl b).1
    let remainder128 := a.sub (quotient128.mul b)
    (returned quotientNeg quotient128, makeDurationFromU128 remainder128 numNeg)

/-- `IDivDurationImpl`. -/
def iDivDurationImpl (satq : Bool) (num den : Duration) : ℤ × Duration :=
  match iDivFastPath num den with
  | some result => result
  | none => iDivSlowPath satq num den

/-- `IDivDuration` : the quotient, and the remainder left in `*rem`. -/
def iDivDuration (num den : Duration) : ℤ × Duration := iDivDurationImpl true num den

/-- `operator%=`. -/
def mod (d rhs : Duration) : Duration := (iDivDurationImpl false d rhs).2

variable {num den : Duration}

/-! ## The fast path -/

/-- The answer that both paths agree on. -/
def Exact (num den : Duration) (result : ℤ × Duration) : Prop :=
  den.ticks ≠ 0 ∧ IsInt64 (num.ticks.tdiv den.ticks) ∧
    result = (num.ticks.tdiv den.ticks, saturate (num.ticks - num.ticks.tdiv den.ticks * den.ticks))

theorem saturate_parts {hi lo : ℤ} (hhi : IsInt64 hi) (h0 : 0 ≤ lo) (h1 : lo < kTicksPerSecond) :
    saturate (hi * kTicksPerSecond + lo) = ⟨hi, lo⟩ := by
  rw [saturate_mul_add h0 h1, if_pos hhi]

theorem emod_le_self {a b : ℤ} (ha : 0 ≤ a) (hb : 0 < b) : a % b ≤ a := by
  have hprod := mul_nonneg hb.le (ediv_nonneg ha hb.le)
  rw [emod_def]
  omega

/-- Division of a dividend that is not negative by a fraction of a second. -/
theorem iDivUnit_exact {perSecond unit : ℤ} {result : ℤ × Duration} (hn : num.Finite)
    (hunit : 0 < unit) (hsecond : perSecond * unit = kTicksPerSecond) (hden : den = ⟨0, unit⟩)
    (h : iDivUnit perSecond unit num den = some result) : Exact num den result := by
  have hn' := (finite_iff num).mp hn
  have hK : (0 : ℤ) < kTicksPerSecond := by decide
  have hps : 0 < perSecond := by
    rcases lt_or_ge 0 perSecond with h' | h'
    · exact h'
    · nlinarith
  unfold iDivUnit at h
  split_ifs at h with hcond
  obtain ⟨hpos, hlt⟩ := hcond
  simp only [Option.some.injEq] at h
  have hD : den.ticks = unit := by
    rw [hden, ticks]
    ring
  have hN : num.ticks = num.repLo + unit * (num.repHi * perSecond) := by
    rw [ticks, ← hsecond]
    ring
  have hdiv : num.ticks.tdiv den.ticks = num.repHi * perSecond + num.repLo / unit := by
    rw [hD, tdiv_eq_ediv_of_nonneg, hN, add_mul_ediv_left _ _ hunit.ne', add_comm]
    exact add_nonneg (mul_nonneg hpos hK.le) hn.repLo_nonneg
  have hrem : num.ticks - (num.repHi * perSecond + num.repLo / unit) * unit
      = 0 * kTicksPerSecond + num.repLo % unit := by
    rw [hN, emod_def]
    ring
  have hmod0 := emod_nonneg num.repLo hunit.ne'
  have hmod1 := emod_le_self hn.repLo_nonneg hunit
  have hquot0 := ediv_nonneg hn.repLo_nonneg hunit.le
  have hquot1 : num.repLo / unit ≤ num.repLo := ediv_le_self _ hn.repLo_nonneg
  have hbound : (num.repHi + 1) * perSecond ≤ kint64max - kTicksPerSecond :=
    (Int.le_ediv_iff_mul_le hps).mp hlt
  have hprod := mul_nonneg hpos hps.le
  rw [add_mul, one_mul, kint64max_eq, kTicksPerSecond_eq] at hbound
  refine ⟨by omega, ?_, ?_⟩
  · rw [hdiv, isInt64_iff]
    omega
  · rw [hdiv, hD, hrem, saturate_parts (by decide) hmod0 (hmod1.trans_lt hn.repLo_lt), ← h, hden]

/-- Whole seconds into a dividend that is not negative. -/
theorem seconds_tdiv_of_nonneg {hi lo : ℤ} (seconds : ℤ) (hhi : 0 ≤ hi) (h0 : 0 ≤ lo)
    (h1 : lo < kTicksPerSecond) :
    (hi * kTicksPerSecond + lo).tdiv (seconds * kTicksPerSecond) = hi / seconds := by
  have hK : (0 : ℤ) < kTicksPerSecond := by decide
  rw [tdiv_eq_ediv_of_nonneg (add_nonneg (mul_nonneg hhi hK.le) h0), mul_comm seconds,
    ← ediv_ediv_of_nonneg hK.le, add_comm, add_mul_ediv_right _ _ hK.ne',
    ediv_eq_zero_of_lt h0 h1, zero_add]

/-- What `q` times whole seconds leave of seconds and ticks. -/
theorem seconds_remainder (hi lo seconds q : ℤ) :
    hi * kTicksPerSecond + lo - q * (seconds * kTicksPerSecond)
      = (hi - q * seconds) * kTicksPerSecond + lo := by ring

theorem Finite.div_seconds {seconds : ℤ} (hn : num.Finite) (hpos : 0 ≤ num.repHi)
    (hs : 0 < seconds) : Exact num ⟨seconds, 0⟩
      (num.repHi / seconds, ⟨num.repHi % seconds, num.repLo⟩) := by
  have hn' := (finite_iff num).mp hn
  have hmod0 := emod_nonneg num.repHi hs.ne'
  have hmod1 := emod_le_self hpos hs
  have hdiv0 := ediv_nonneg hpos hs.le
  have hdiv1 := ediv_le_self seconds hpos
  have hD : ticks ⟨seconds, 0⟩ = seconds * kTicksPerSecond := add_zero _
  have hdiv := seconds_tdiv_of_nonneg seconds hpos hn.repLo_nonneg hn.repLo_lt
  rw [Exact, hD, ticks, hdiv]
  refine ⟨?_, (isInt64_iff _).mpr (by omega), ?_⟩
  · simp [hs.ne']
  · rw [seconds_remainder, show num.repHi - num.repHi / seconds * seconds = num.repHi % seconds by
      rw [emod_def, mul_comm], saturate_parts ((isInt64_iff _).mpr (by omega)) hn.repLo_nonneg
      hn.repLo_lt]

/-- Seconds counted from the tick after a negative dividend : dividing them truncates as
dividing the ticks does, and their remainder is never positive. -/
theorem Finite.div_seconds_of_neg {seconds up : ℤ} (hn : num.Finite) (hneg : num.repHi < 0)
    (hs : 0 < seconds) (hup : up = if num.repLo ≠ 0 then 1 else 0) :
    (num.repHi + up).tmod seconds ≤ 0 ∧ Exact num ⟨seconds, 0⟩
      ((num.repHi + up).tdiv seconds, ⟨(num.repHi + up).tmod seconds - up, num.repLo⟩) := by
  have hn' := (finite_iff num).mp hn
  obtain ⟨m, hm⟩ : ∃ m, num.repHi + up = -m := ⟨-(num.repHi + up), (neg_neg _).symm⟩
  have hm0 : 0 ≤ m ∧ m ≤ 2 ^ 63 := by split_ifs at hup <;> omega
  have hrest : 0 ≤ up * kTicksPerSecond - num.repLo ∧
      up * kTicksPerSecond - num.repLo < kTicksPerSecond := by
    rw [kTicksPerSecond_eq]
    split_ifs at hup <;> omega
  have hticks : num.ticks = -(m * kTicksPerSecond + (up * kTicksPerSecond - num.repLo)) := by
    rw [ticks, show num.repHi = -m - up by omega]
    ring
  have hD : ticks ⟨seconds, 0⟩ = seconds * kTicksPerSecond := add_zero _
  have hmod0 := emod_nonneg m hs.ne'
  have hmod1 := emod_le_self hm0.1 hs
  have hdiv0 := ediv_nonneg hm0.1 hs.le
  have hdiv1 := ediv_le_self seconds hm0.1
  have htdiv : (num.repHi + up).tdiv seconds = -(m / seconds) := by
    rw [hm, Int.neg_tdiv, Int.tdiv_eq_ediv_of_nonneg hm0.1]
  have htmod : (num.repHi + up).tmod seconds = -(m % seconds) := by
    rw [hm, neg_tmod, tmod_eq_emod_of_nonneg hm0.1]
  have hdiv : num.ticks.tdiv (seconds * kTicksPerSecond) = -(m / seconds) := by
    rw [hticks, Int.neg_tdiv, seconds_tdiv_of_nonneg seconds hm0.1 hrest.1 hrest.2]
  have hrem : num.ticks - -(m / seconds) * (seconds * kTicksPerSecond)
      = (-(m % seconds) - up) * kTicksPerSecond + num.repLo := by
    rw [hticks, emod_def]
    ring
  rw [htdiv, htmod, Exact, hD, hdiv, hrem]
  refine ⟨by omega, by simp [hs.ne'], (isInt64_iff _).mpr (by omega), ?_⟩
  rw [saturate_parts ((isInt64_iff _).mpr _) hn.repLo_nonneg hn.repLo_lt]
  split_ifs at hup <;> omega

/-- The fast path, whenever it is taken, gives the exact quotient and remainder. -/
theorem iDivFastPath_exact {result : ℤ × Duration} (hn : num.Finite) (hd : den.Finite)
    (h : iDivFastPath num den = some result) : Exact num den result := by
  rw [iDivFastPath, hn.not_isInfinite, hd.not_isInfinite, Bool.or_false, if_neg (by simp)] at h
  obtain ⟨denHi, denLo⟩ := den
  by_cases hzero : denHi = 0
  · rw [if_pos hzero] at h
    subst hzero
    split_ifs at h with h1 h2 h3 h4
    · exact iDivUnit_exact hn (by decide) (by decide) (by rw [← h1]) h
    · exact iDivUnit_exact hn (by decide) (by decide) (by rw [← h2]) h
    · exact iDivUnit_exact hn (by decide) (by decide) (by rw [← h3]) h
    · exact iDivUnit_exact hn (by decide) (by decide) (by rw [← h4]) h
  rw [if_neg hzero] at h
  by_cases hseconds : denHi > 0 ∧ denLo = 0
  · obtain ⟨hs, rfl⟩ := hseconds
    rw [if_pos ⟨hs, rfl⟩] at h
    by_cases hpos : num.repHi ≥ 0
    · have hexact := hn.div_seconds hpos hs
      rw [if_pos hpos, tdiv_eq_ediv_of_nonneg hpos, tmod_eq_emod_of_nonneg hpos] at h
      split_ifs at h with hone
      · obtain rfl : denHi = 1 := hone
        rw [ediv_one, emod_one] at hexact
        rw [Option.some.injEq] at h
        rwa [← h]
      · rw [Option.some.injEq] at h
        rwa [← h]
    · obtain ⟨hle, hexact⟩ := hn.div_seconds_of_neg (not_le.mp hpos) hs rfl
      rw [if_neg hpos] at h
      by_cases hlo : num.repLo = 0
      · simp only [hlo, ne_eq, not_true, if_false, add_zero, sub_zero] at h hle hexact
        rw [if_neg (not_lt.mpr hle), Option.some.injEq] at h
        rwa [← h]
      · simp only [hlo, ne_eq, not_false_eq_true, if_true] at h hle hexact
        rw [if_neg (not_lt.mpr hle), Option.some.injEq] at h
        rwa [← h]
  · rw [if_neg hseconds] at h
    cases h

/-! ## The slow path -/

/-- The sign put on a quotient of absolute values. -/
def signedQuotient (x y q : ℤ) : ℤ := if decide (x < 0) != decide (y < 0) then -q else q

theorem signedQuotient_tdiv (x y : ℤ) : signedQuotient x y (|x|.tdiv |y|) = x.tdiv y :=
  signed_eq (fun x y => Int.neg_tdiv x y) (fun x y => Int.tdiv_neg x y) x y

/-- What is left of `x` after `q` times `y`, computed on absolute values. -/
theorem signed_remainder (x y q : ℤ) :
    (if x < 0 then -(|x| - q * |y|) else |x| - q * |y|) = x - signedQuotient x y q * y := by
  unfold signedQuotient
  rcases lt_or_ge x 0 with hx | hx <;> rcases lt_or_ge y 0 with hy | hy
  · simp [hx, hy, abs_of_neg hx, abs_of_neg hy]
    ring
  · simp [hx, not_lt.mpr hy, abs_of_neg hx, abs_of_nonneg hy]
    ring
  · simp [not_lt.mpr hx, hy, abs_of_nonneg hx, abs_of_neg hy]
  · simp [not_lt.mpr hx, not_lt.mpr hy, abs_of_nonneg hx, abs_of_nonneg hy]

/-- The low 63 bits of a quotient that has no others. -/
theorem decode_and_kint64max {q : Uint128} (h : q.toNat < 2 ^ 63) :
    decodeTwosComp (q.lo &&& encodeTwosComp kint64max) = q.toNat := by
  have hlo : q.lo.toNat = q.toNat := by
    unfold Uint128.toNat at h ⊢
    omega
  have hmax : (encodeTwosComp kint64max).toNat = 2 ^ 63 - 1 := by decide
  have hand : (q.lo &&& encodeTwosComp kint64max).toNat = q.toNat := by
    rw [BitVec.toNat_and, hmax, Nat.and_two_pow_sub_one_eq_mod, hlo, Nat.mod_eq_of_lt h]
  rw [decodeTwosComp, BitVec.toInt_eq_toNat_of_lt (by omega), hand]

theorem returned_eq {quotientNeg : Bool} {q : Uint128}
    (h : q.toNat < 2 ^ 63 ∨ quotientNeg = true ∧ q.toNat = 2 ^ 63) :
    returned quotientNeg q = if quotientNeg then -(q.toNat : ℤ) else q.toNat := by
  have hone : (ofUint64 1).toNat = 1 := by decide
  by_cases hzero : q.eq (.ofUint64 0) = true
  · have hq : q.toNat = 0 := (q.eq_iff _).mp hzero
    rw [returned, hzero, Bool.or_true, if_pos rfl, decode_and_kint64max (by omega), hq]
    simp
  have hq : q.toNat ≠ 0 := (q.eq_iff _).not.mp hzero
  rw [Bool.not_eq_true] at hzero
  cases quotientNeg with
  | false =>
    rw [returned, hzero, if_pos (by simp), decode_and_kint64max (by simpa using h)]
    simp
  | true =>
    have hsub : (q.sub (.ofUint64 1)).toNat = q.toNat - 1 := by
      rw [Uint128.toNat_sub, hone]
      omega
    rw [returned, hzero, if_neg (by simp), decode_and_kint64max (by omega), hsub, if_pos rfl]
    omega

variable (satq : Bool)

theorem toNat_saturated (quotientNeg : Bool) (q : Uint128) :
    (saturated satq quotientNeg q).toNat =
      if satq = true ∧ 2 ^ 63 ≤ q.toNat then (if quotientNeg then 2 ^ 63 else 2 ^ 63 - 1)
      else q.toNat := by
  have hmax : (ofUint64 (encodeTwosComp kint64max)).toNat = 2 ^ 63 - 1 := by decide
  have hmin : (ofUint64 (encodeTwosComp kint64min)).toNat = 2 ^ 63 := by decide
  have hcond : (satq && q.gt (.ofUint64 (encodeTwosComp kint64max))) = true ↔
      satq = true ∧ 2 ^ 63 ≤ q.toNat := by
    rw [Bool.and_eq_true, gt_iff, hmax]
    exact and_congr_right fun _ => by omega
  unfold saturated
  by_cases h : satq = true ∧ 2 ^ 63 ≤ q.toNat
  · rw [if_pos (hcond.mpr h), if_pos h]
    cases quotientNeg with
    | false => exact hmax
    | true => exact hmin
  · rw [if_neg (hcond.not.mpr h), if_neg h]

theorem zeroDuration_finite : zeroDuration.Finite := ⟨by decide, by decide, by decide⟩

/-- The quotient the slow path goes on with. -/
abbrev slowQuotient (satq : Bool) (num den : Duration) : Uint128 :=
  saturated satq (decide (num.ticks < 0) != decide (den.ticks < 0))
    (num.makeU128Ticks.divModImpl den.makeU128Ticks).1

/-- The truncated quotient, cut to `int64_t` when `satq` is set. -/
abbrev cutQuotient (satq : Bool) (num den : Duration) : ℤ :=
  if satq then max kint64min (min (num.ticks.tdiv den.ticks) kint64max)
  else num.ticks.tdiv den.ticks

theorem abs_sub_tdiv_lt (x : ℤ) {y : ℤ} (hy : y ≠ 0) : |x - x.tdiv y * y| < |y| := by
  rw [show x - x.tdiv y * y = x.tmod y by rw [tmod_def, mul_comm], abs_eq_natAbs,
    abs_eq_natAbs, natAbs_tmod]
  exact_mod_cast Nat.mod_lt _ (natAbs_pos.mpr hy)

theorem Finite.ticks_ne_zero (hd : den.Finite) (h₀ : den ≠ zeroDuration) : den.ticks ≠ 0 := by
  intro hticks
  apply h₀
  rw [← hd.saturate_ticks, hticks]
  decide

section

variable (hn : num.Finite) (hd : den.Finite) (h0 : den.ticks ≠ 0)
include hn hd h0

/-- The slow path with its two steps named. -/
theorem iDivSlowPath_steps :
    iDivSlowPath satq num den = (returned (decide (num.ticks < 0) != decide (den.ticks < 0))
        (slowQuotient satq num den),
      makeDurationFromU128 (num.makeU128Ticks.sub ((slowQuotient satq num den).mul
        den.makeU128Ticks)) (decide (num.ticks < 0))) := by
  have hzero : zeroDuration.ticks = 0 := rfl
  have hsign {d : Duration} (h : d.Finite) : d.lt zeroDuration = decide (d.ticks < 0) := by
    rw [Bool.eq_iff_iff, h.lt_iff_ticks zeroDuration_finite, hzero, decide_eq_true_eq]
  have hne : den ≠ zeroDuration := by
    rintro rfl
    exact h0 hzero
  rw [iDivSlowPath, hsign hn, hsign hd, hn.not_isInfinite, hd.not_isInfinite]
  simp only [hne, decide_false, Bool.or_false, Bool.false_eq_true, if_false]

/-- The cut quotient with its sign is the truncated quotient cut to `int64_t`. -/
theorem signedQuotient_saturated {satq : Bool} {S : Uint128} (hS : S = slowQuotient satq num den) :
    S.toNat * den.makeU128Ticks.toNat ≤ num.makeU128Ticks.toNat ∧
    signedQuotient num.ticks den.ticks S.toNat = cutQuotient satq num den := by
  have ha := toNat_makeU128Ticks hn
  have hb := toNat_makeU128Ticks hd
  have hb0 : den.makeU128Ticks.toNat ≠ 0 := by
    have := abs_pos.mpr h0
    omega
  have htdiv := signedQuotient_tdiv num.ticks den.ticks
  rw [← ha, ← hb, ← ofNat_tdiv] at htdiv
  have hle := Nat.div_mul_le_self num.makeU128Ticks.toNat den.makeU128Ticks.toNat
  have hS' := (congrArg Uint128.toNat hS).trans (toNat_saturated ..)
  rw [toNat_div hb0] at hS'
  unfold cutQuotient
  rw [← htdiv]
  unfold signedQuotient
  generalize num.makeU128Ticks.toNat / den.makeU128Ticks.toNat = q at hS' hle
  generalize (decide (num.ticks < 0) != decide (den.ticks < 0)) = quotientNeg at hS'
  have hSq : S.toNat ≤ q := by
    rw [hS']
    split_ifs <;> omega
  refine ⟨(Nat.mul_le_mul_right _ hSq).trans hle, ?_⟩
  rw [hS', kint64min_eq, kint64max_eq]
  cases satq <;> cases quotientNeg <;> simp <;> split_ifs <;> omega

variable {q : ℤ}

/-- The slow path in tick counts : the quotient is cut to `int64_t` when `satq` is set and the
remainder is what the quotient leaves. -/
theorem iDivSlowPath_eq (hq : q = cutQuotient satq num den) :
    (iDivSlowPath satq num den).2 = saturate (num.ticks - q * den.ticks) ∧
      (IsInt64 q → (iDivSlowPath satq num den).1 = q) := by
  rw [iDivSlowPath_steps satq hn hd h0]
  obtain ⟨S, hS⟩ : ∃ S, S = slowQuotient satq num den := ⟨_, rfl⟩
  obtain ⟨hle, hsigned⟩ := signedQuotient_saturated hn hd h0 hS
  rw [← hq] at hsigned
  rw [← hS]
  refine ⟨?_, fun hfit => ?_⟩
  · have hrem : ((num.makeU128Ticks.sub (S.mul den.makeU128Ticks)).toNat : ℤ)
        = |num.ticks| - S.toNat * |den.ticks| := by
      have := num.makeU128Ticks.toNat_lt
      rw [Uint128.toNat_sub, Uint128.toNat_mul, ← toNat_makeU128Ticks hn, ← toNat_makeU128Ticks hd,
        Nat.mod_eq_of_lt (hle.trans_lt this)]
      omega
    rw [makeDurationFromU128_eq, hrem, ← hsigned, ← signed_remainder]
    simp only [decide_eq_true_eq]
  · rw [isInt64_iff, ← hsigned] at hfit
    rw [← hsigned]
    unfold signedQuotient at hfit ⊢
    generalize (decide (num.ticks < 0) != decide (den.ticks < 0)) = quotientNeg at hfit
    apply returned_eq
    cases quotientNeg <;> simp at hfit ⊢ <;> omega

/-- A quotient that fits is returned with its remainder, cut or not. -/
theorem iDivSlowPath_of_fits (hfit : IsInt64 (num.ticks.tdiv den.ticks)) : iDivSlowPath satq num den
      = (num.ticks.tdiv den.ticks,
        saturate (num.ticks - num.ticks.tdiv den.ticks * den.ticks)) := by
  have hq : num.ticks.tdiv den.ticks = cutQuotient satq num den := by
    obtain ⟨h1, h2⟩ := hfit
    unfold cutQuotient
    split_ifs
    · rw [min_eq_left h2, max_eq_right h1]
    · rfl
  obtain ⟨hrem, hquot⟩ := iDivSlowPath_eq satq hn hd h0 hq
  exact Prod.ext (hquot hfit) hrem

/-! ## The quotient and the remainder -/

/-- The quotient and remainder, whichever path is taken. -/
theorem iDivDurationImpl_eq (hq : q = cutQuotient satq num den) :
    (iDivDurationImpl satq num den).2 = saturate (num.ticks - q * den.ticks) ∧
      (IsInt64 q → (iDivDurationImpl satq num den).1 = q) := by
  have hslow : iDivDurationImpl satq num den = iDivSlowPath satq num den := by
    unfold iDivDurationImpl
    split
    · rename_i result hfast
      obtain ⟨-, hfit, hresult⟩ := iDivFastPath_exact hn hd hfast
      rw [hresult, iDivSlowPath_of_fits satq hn hd h0 hfit]
    · rfl
  rw [hslow]
  exact iDivSlowPath_eq satq hn hd h0 hq

/-- What a cut quotient leaves of the dividend lies between zero and the dividend, so it is a
finite duration. -/
theorem ticks_remainder
    (hq : q = cutQuotient satq num den) : (saturate (num.ticks - q * den.ticks)).Finite ∧
      (saturate (num.ticks - q * den.ticks)).ticks = num.ticks - q * den.ticks ∧
      0 ≤ (num.ticks - q * den.ticks) * num.ticks := by
  obtain ⟨S, hS⟩ : ∃ S, S = slowQuotient satq num den := ⟨_, rfl⟩
  obtain ⟨hle, hsigned⟩ := signedQuotient_saturated hn hd h0 hS
  have ha := toNat_makeU128Ticks hn
  have hrem := signed_remainder num.ticks den.ticks S.toNat
  rw [hsigned, ← hq, ← ha, ← toNat_makeU128Ticks hd, ← Nat.cast_mul] at hrem
  rw [← hrem]
  generalize S.toNat * den.makeU128Ticks.toNat = p at hle
  have hn' := (finite_iff num).mp hn
  have hticks : num.ticks = num.repHi * 4000000000 + num.repLo := rfl
  rw [← and_assoc]
  by_cases hneg : num.ticks < 0
  · rw [abs_of_neg hneg] at ha
    refine ⟨ticks_saturate ?_, mul_nonneg_of_nonpos_of_nonpos (by omega) hneg.le⟩
    rw [isInt64_iff, kTicksPerSecond_eq]
    omega
  · rw [abs_of_nonneg (not_lt.mp hneg)] at ha
    refine ⟨ticks_saturate ?_, mul_nonneg (by omega) (not_lt.mp hneg)⟩
    rw [isInt64_iff, kTicksPerSecond_eq]
    omega

theorem iDivDuration_ticks :
    (iDivDuration num den).1 = max kint64min (min (num.ticks.tdiv den.ticks) kint64max) ∧
    (iDivDuration num den).2.Finite ∧
    (iDivDuration num den).2.ticks = num.ticks - (iDivDuration num den).1 * den.ticks := by
  obtain ⟨hrem, hquot⟩ := iDivDurationImpl_eq true hn hd h0 rfl
  obtain ⟨hfin, hticks, -⟩ := ticks_remainder true hn hd h0 rfl
  have hfit : IsInt64 (cutQuotient true num den) :=
    ⟨le_max_left _ _, max_le (by decide) (min_le_right _ _)⟩
  rw [iDivDuration, hquot hfit, hrem]
  exact ⟨rfl, hfin, hticks⟩

theorem mod_ticks :
    (num.mod den).Finite ∧
    (num.mod den).ticks = num.ticks - num.ticks.tdiv den.ticks * den.ticks := by
  obtain ⟨hfin, hticks, -⟩ := ticks_remainder false hn hd h0 rfl
  rw [mod, iDivDurationImpl_eq false hn hd h0 rfl |>.1]
  exact ⟨hfin, hticks⟩

end

end Duration

open Duration in
/-- `IDivDuration` : the truncated quotient cut to `int64_t`, with all that it leaves in the
remainder ; `operator%` the remainder of the truncated quotient even when that does not fit ;
the fast path agrees with the slow one wherever it is taken. -/
theorem iDivDuration_exact {num den : Duration} (hn : num.Finite) (hd : den.Finite)
    (h₀ : den ≠ zeroDuration) :
    (iDivDuration num den).1 = max kint64min (min (num.ticks.tdiv den.ticks) kint64max) ∧
    (iDivDuration num den).2.Finite ∧
    (iDivDuration num den).2.ticks = num.ticks - (iDivDuration num den).1 * den.ticks ∧
    (IsInt64 (num.ticks.tdiv den.ticks) → |(iDivDuration num den).2.ticks| < |den.ticks| ∧
      0 ≤ (iDivDuration num den).2.ticks * num.ticks) ∧
    (num.mod den).Finite ∧
    (num.mod den).ticks = num.ticks - num.ticks.tdiv den.ticks * den.ticks ∧
    (∀ satq result, iDivFastPath num den = some result → iDivSlowPath satq num den = result) := by
  have hD := hd.ticks_ne_zero h₀
  obtain ⟨hq, hfin, hticks⟩ := iDivDuration_ticks hn hd hD
  obtain ⟨-, -, hsign⟩ := ticks_remainder true hn hd hD rfl
  obtain ⟨hfin', hticks'⟩ := mod_ticks hn hd hD
  refine ⟨hq, hfin, hticks, fun h => ?_, hfin', hticks', fun satq result hfast => ?_⟩
  · rw [hticks, hq]
    refine ⟨?_, hsign⟩
    rw [min_eq_left h.2, max_eq_right h.1]
    exact abs_sub_tdiv_lt _ hD
  · obtain ⟨-, h, rfl⟩ := iDivFastPath_exact hn hd hfast
    exact iDivSlowPath_of_fits satq hn hd hD h

open Duration in
/-- A quotient that is cut : the greatest duration divided by a tick. -/
theorem iDivDuration_exact_cut : (iDivDuration ⟨kint64max, 0⟩ ⟨0, 1⟩).1 = kint64max := by
  have hn : Duration.Finite ⟨kint64max, 0⟩ := ⟨by decide, by decide, by decide⟩
  have hd : Duration.Finite ⟨0, 1⟩ := ⟨by decide, by decide, by decide⟩
  rw [(iDivDuration_exact hn hd (by decide)).1]
  decide

end Abseil
