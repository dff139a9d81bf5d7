import Abseil.DurationFormat
import Abseil.DurationRound

/-!
# Counts of units since an epoch

`ToUnixNanos` and its kin floor a time to a unit, `ToInt64Nanoseconds` and its
kin truncate a duration. Times at or after the epoch that are near enough take a
fast path on the parts. All others go through `IDivDuration`, whose quotient is
cut to `int64_t` ; `FloorToUnit` takes one more off it when the remainder is
negative.

`fastCount_exact` and `floorToUnit_eq` are the two ways ; `time_conversions`
gives every conversion as the exact count cut to `int64_t`, and the round trips.
-/

namespace Abseil

namespace Duration

/-! ## The conversions -/

/-- `FloorToUnit`. -/
def floorToUnit (d unit : Duration) : ℤ :=
  let q := (iDivDuration d unit).1
  let rem := (iDivDuration d unit).2
  if q > 0 ∨ zeroDuration.le rem ∨ q = kint64min then q else q - 1

/-- The fast path : the count of units of seconds that have only `shift` bits. -/
def fastCount (shift : ℕ) (perSecond unit : ℤ) (d : Duration) : Option ℤ :=
  if d.repHi ≥ 0 ∧ d.repHi >>> shift = 0 then some (d.repHi * perSecond + d.repLo / unit) else none

/-- `ToInt64Nanoseconds`. -/
def toInt64Nanoseconds (d : Duration) : ℤ :=
  (d.fastCount 33 (1000 * 1000 * 1000) kTicksPerNanosecond).getD (iDivDuration d (nanoseconds 1)).1

/-- `ToInt64Microseconds`. -/
def toInt64Microseconds (d : Duration) : ℤ :=
  (d.fastCount 43 (1000 * 1000) (kTicksPerNanosecond * 1000)).getD
    (iDivDuration d (microseconds 1)).1

/-- `ToInt64Milliseconds`. -/
def toInt64Milliseconds (d : Duration) : ℤ :=
  (d.fastCount 53 1000 (kTicksPerNanosecond * 1000 * 1000)).getD
    (iDivDuration d (milliseconds 1)).1

/-- `ToInt64Seconds`, and `ToInt64Minutes` and `ToInt64Hours` before their last division. -/
def toInt64Whole (per : ℤ) (d : Duration) : ℤ :=
  let hi := d.repHi
  if d.isInfiniteDuration then hi
  else (if hi < 0 ∧ d.repLo ≠ 0 then hi + 1 else hi).tdiv per

/-- `ToInt64Seconds`. -/
def toInt64Seconds (d : Duration) : ℤ := d.toInt64Whole 1

/-- `ToInt64Minutes`. -/
def toInt64Minutes (d : Duration) : ℤ := d.toInt64Whole 60

/-- `ToInt64Hours`. -/
def toInt64Hours (d : Duration) : ℤ := d.toInt64Whole (60 * 60)

end Duration

open Duration Int

/-- `Time` : the duration since the Unix epoch. -/
structure Time where
  rep : Duration

namespace Time

/-- `UniversalEpoch`. -/
def universalEpoch : Time := ⟨⟨-24 * 719162 * 3600, 0⟩⟩

/-- `FromUnixNanos`. -/
def fromUnixNanos (ns : ℤ) : Time := ⟨nanoseconds ns⟩

/-- `FromUnixMicros`. -/
def fromUnixMicros (us : ℤ) : Time := ⟨microseconds us⟩

/-- `FromUnixMillis`. -/
def fromUnixMillis (ms : ℤ) : Time := ⟨milliseconds ms⟩

/-- `FromUnixSeconds`. -/
def fromUnixSeconds (s : ℤ) : Time := ⟨seconds s⟩

/-- `FromUniversal`. -/
def fromUniversal (universal : ℤ) : Time :=
  ⟨universalEpoch.rep.add ((nanoseconds universal).mul 100)⟩

/-- `ToUnixNanos`. -/
def toUnixNanos (t : Time) : ℤ :=
  (t.rep.fastCount 33 (1000 * 1000 * 1000) 4).getD (floorToUnit t.rep (nanoseconds 1))

/-- `ToUnixMicros`. -/
def toUnixMicros (t : Time) : ℤ :=
  (t.rep.fastCount 43 (1000 * 1000) 4000).getD (floorToUnit t.rep (microseconds 1))

/-- `ToUnixMillis`. -/
def toUnixMillis (t : Time) : ℤ :=
  (t.rep.fastCount 53 1000 (4000 * 1000)).getD (floorToUnit t.rep (milliseconds 1))

/-- `ToUnixSeconds`. -/
def toUnixSeconds (t : Time) : ℤ := t.rep.repHi

/-- `ToUniversal`. -/
def toUniversal (t : Time) : ℤ := floorToUnit (t.rep.sub universalEpoch.rep) (nanoseconds 100)

end Time

namespace Duration

/-! ## The exact count -/

/-- The ticks since `origin` over `unit`, rounded and cut to `int64_t`. -/
def count (round : ℤ → ℤ → ℤ) (origin unit : ℤ) (d : Duration) : ℤ :=
  if d = infiniteDuration then kint64max
  else if d = infiniteDuration.neg then kint64min
  else max kint64min (min (round (d.ticks - origin) unit) kint64max)

variable {d unit : Duration} {round : ℤ → ℤ → ℤ} {origin : ℤ}

theorem Finite.count_eq (h : d.Finite) (round : ℤ → ℤ → ℤ) (origin unit : ℤ) :
    d.count round origin unit = max kint64min (min (round (d.ticks - origin) unit) kint64max) := by
  have hlo := h.repLo_lt
  rw [count, if_neg, if_neg]
  all_goals
    rintro rfl
    revert hlo
    decide

theorem count_of_ticks {u n : ℤ} (hd : d.Finite) (hn : IsInt64 n) (hu : 0 < u)
    (h : d.ticks - origin = n * u) : d.count fdiv origin u = n := by
  rw [hd.count_eq, h, fdiv_eq_ediv_of_nonneg _ hu.le, mul_ediv_cancel _ hu.ne',
    min_eq_left hn.2, max_eq_right hn.1]

theorem count_infiniteDuration {unit : ℤ} :
    infiniteDuration.count round origin unit = kint64max := if_pos rfl

theorem count_neg_infiniteDuration {unit : ℤ} :
    infiniteDuration.neg.count round origin unit = kint64min := by
  rw [count, if_neg (by decide), if_pos rfl]

theorem Valid.cases (h : d.Valid) : d.Finite ∨ d = infiniteDuration ∨ d = infiniteDuration.neg := by
  rwa [neg_infiniteDuration]

/-- The products and the sum of the fast path fit `int64_t`. -/
def FastFits (shift : ℕ) (perSecond unit : ℤ) (d : Duration) : Prop :=
  ∀ v, d.fastCount shift perSecond unit = some v →
    IsInt64 v ∧ ∀ k, 0 ≤ k → k ≤ perSecond → IsInt64 (d.repHi * k)

/-! ## The two ways -/

theorem fraction_ticks {v N u : ℤ} (hv : IsInt64 v) (hN : 0 < N) (hu : 0 < u)
    (hsecond : N * u = kTicksPerSecond) :
    (fromInt64Fraction v N).Finite ∧ (fromInt64Fraction v N).ticks = v * u := by
  have hdiv := mul_tdiv_add_tmod v N
  have hmod : |v.tmod N| < N := by
    have := Nat.mod_lt v.natAbs (natAbs_pos.mpr hN.ne')
    have := natAbs_tmod v N
    rw [abs_lt]
    omega
  have hpart : (v.tmod N * kTicksPerNanosecond * 1000 * 1000 * 1000).tdiv N = v.tmod N * u := by
    have : v.tmod N * kTicksPerNanosecond * 1000 * 1000 * 1000 = N * (v.tmod N * u) := by
      rw [mul_left_comm, hsecond, kTicksPerSecond]
      ring
    rw [this, mul_tdiv_cancel_left _ hN.ne']
  have hlt : |v.tmod N * u| < kTicksPerSecond := by
    rw [abs_mul, abs_of_pos hu, ← hsecond]
    exact mul_lt_mul_of_pos_right hmod hu
  have hticks : v * u = v.tdiv N * kTicksPerSecond + v.tmod N * u := by
    rw [← hsecond, ← mul_assoc, ← add_mul, mul_comm _ N, hdiv]
  have hle : u ≤ kTicksPerSecond := by nlinarith
  have hbound : -2 ^ 63 * kTicksPerSecond ≤ v * u ∧ v * u < 2 ^ 63 * kTicksPerSecond := by
    rw [isInt64_iff] at hv
    constructor <;> nlinarith
  rw [abs_lt] at hlt
  rw [fromInt64Fraction, hpart, makeNormalizedDuration, finite_iff, ticks]
  rw [kTicksPerSecond_eq] at *
  split_ifs <;> dsimp only [toUint32] <;> omega

theorem iDivDuration_infinite (hu : unit.Finite) (h₀ : 0 < unit.ticks) :
    iDivDuration infiniteDuration unit = (kint64max, infiniteDuration) ∧
      iDivDuration infiniteDuration.neg unit = (kint64min, infiniteDuration.neg) := by
  have hsign : unit.lt zeroDuration = false := by
    rw [Bool.eq_false_iff, Ne, hu.lt_iff_ticks zeroDuration_finite]
    exact h₀.not_gt
  have hslow : iDivFastPath infiniteDuration unit = none ∧
      iDivFastPath infiniteDuration.neg unit = none := ⟨if_pos rfl, if_pos rfl⟩
  unfold iDivDuration iDivDurationImpl
  rw [hslow.1, hslow.2]
  unfold iDivSlowPath
  rw [hsign]
  exact ⟨rfl, rfl⟩

theorem iDivDuration_eq_count (hd : d.Valid) (hu : unit.Finite) (h₀ : 0 < unit.ticks) :
    (iDivDuration d unit).1 = d.count tdiv 0 unit.ticks := by
  have hinf := iDivDuration_infinite hu h₀
  rcases hd.cases with hd | rfl | rfl
  · rw [hd.count_eq, sub_zero, (iDivDuration_ticks hd hu h₀.ne').1]
  · rw [hinf.1, count_infiniteDuration]
  · rw [hinf.2, count_neg_infiniteDuration]

/-- One taken off the cut quotient when the remainder is negative gives the cut floor. -/
theorem floor_of_tdiv {a u q : ℤ} (hu : 0 < u)
    (hq : q = max kint64min (min (a.tdiv u) kint64max)) :
    (if q > 0 ∨ 0 ≤ a - q * u ∨ q = kint64min then q else q - 1)
      = max kint64min (min (a / u) kint64max) := by
  have hdiv := mul_ediv_add_emod a u
  have hmod₀ := emod_nonneg a hu.ne'
  have hmod₁ := emod_lt_of_pos a hu
  rw [tdiv_eq_ediv, sign_eq_one_of_pos hu] at hq
  rw [kint64min_eq, kint64max_eq] at *
  split_ifs at hq with hexact
  · rw [add_zero] at hq
    have hrem (h : q = a / u) : 0 ≤ a - q * u := by
      rw [h, mul_comm]
      omega
    split_ifs <;> omega
  · rw [not_or, not_le, dvd_iff_emod_eq_zero] at hexact
    have hneg := ediv_neg_of_neg_of_pos hexact.1 hu
    have hrem (h : q = a / u + 1) : a - q * u < 0 := by
      rw [h, add_mul, mul_comm]
      omega
    split_ifs <;> omega

theorem floorToUnit_eq (hd : d.Valid) (hu : unit.Finite) (h₀ : 0 < unit.ticks) :
    floorToUnit d unit = d.count fdiv 0 unit.ticks := by
  have hinf := iDivDuration_infinite hu h₀
  rcases hd.cases with hd | rfl | rfl
  · obtain ⟨hq, hfin, hticks⟩ := iDivDuration_ticks hd hu h₀.ne'
    have hrem := le_iff_ticks zeroDuration_finite hfin
    have hzero : zeroDuration.ticks = 0 := rfl
    rw [hzero, hticks] at hrem
    rw [hd.count_eq, sub_zero, fdiv_eq_ediv_of_nonneg _ h₀.le, ← floor_of_tdiv h₀ hq]
    simp only [floorToUnit, hrem]
  · rw [floorToUnit, hinf.1, count_infiniteDuration]
    exact if_pos (.inl (by decide))
  · rw [floorToUnit, hinf.2, count_neg_infiniteDuration]
    exact if_pos (.inr (.inr rfl))

section Conversions

variable {s : ℕ} {N u : ℤ} (hu : 0 < u) (hsecond : N * u = kTicksPerSecond) (hN : 2 ≤ N)
  (hfit : 2 ^ s * N ≤ 2 ^ 63)
include hu hsecond hN hfit

/-- Within the fast path the products and their sum fit, and the sum is the exact count. -/
theorem fastCount_exact {v : ℤ} (hd : d.Valid) (h : d.fastCount s N u = some v) :
    (d.Finite ∧ 0 ≤ d.ticks ∧ v = d.ticks / u) ∧ IsInt64 v ∧
      ∀ k, 0 ≤ k → k ≤ N → IsInt64 (d.repHi * k) := by
  unfold fastCount at h
  split_ifs at h with hcond
  obtain ⟨hpos, hshift⟩ := hcond
  rw [Option.some.injEq] at h
  have hlt : d.repHi < 2 ^ s := by
    rw [shiftRight_eq_div_pow] at hshift
    have hdiv := lt_mul_ediv_self_add (x := d.repHi) (k := 2 ^ s) (by positivity)
    push_cast at hshift
    rwa [hshift, mul_zero, zero_add] at hdiv
  have hfin : d.Finite := by
    rcases hd with hd | rfl | rfl
    · exact hd
    · have : infiniteDuration.repHi = 2 ^ 63 - 1 := rfl
      nlinarith
    · cases hpos
  have hlo := hfin.repLo_nonneg
  have hticks : d.ticks = d.repLo + u * (d.repHi * N) := by
    rw [ticks, ← hsecond]
    ring
  have hrest : d.repLo / u < N := by
    rw [Int.ediv_lt_iff_lt_mul hu, hsecond]
    exact hfin.repLo_lt
  have hrest₀ := ediv_nonneg hlo hu.le
  have hprod : (d.repHi + 1) * N ≤ 2 ^ 63 := by nlinarith
  have hprod₀ : 0 ≤ d.repHi * N := by positivity
  refine ⟨⟨hfin, ?_, ?_⟩, ?_, fun k hk₀ hk => ?_⟩
  · rw [hticks]
    positivity
  · rw [hticks, add_mul_ediv_left _ _ hu.ne', ← h, add_comm]
  all_goals
    rw [isInt64_iff]
    constructor <;> nlinarith

/-- The fast path rounds as its second way does. -/
theorem getD_fastCount {slow : ℤ} (hd : d.Valid) (hslow : slow = d.count round 0 u)
    (hround : 0 ≤ d.ticks → round d.ticks u = d.ticks / u) :
    (d.fastCount s N u).getD slow = d.count round 0 u := by
  cases h : d.fastCount s N u with
  | none => exact hslow
  | some v =>
    obtain ⟨⟨hfin, hpos, rfl⟩, hv, -⟩ := fastCount_exact hu hsecond hN hfit hd h
    rw [hfin.count_eq, sub_zero, hround hpos, min_eq_left hv.2, max_eq_right hv.1]
    rfl

/-- The conversions to a unit of which a second has `N`, and the way back. -/
theorem unit_conversions {n : ℤ} (hd : d.Valid) (hn : IsInt64 n) :
    (d.fastCount s N u).getD (floorToUnit d (fromInt64Fraction 1 N)) = d.count fdiv 0 u ∧
    (d.fastCount s N u).getD (iDivDuration d (fromInt64Fraction 1 N)).1 = d.count tdiv 0 u ∧
    FastFits s N u d ∧ ((fromInt64Fraction n N).fastCount s N u).getD
      (floorToUnit (fromInt64Fraction n N) (fromInt64Fraction 1 N)) = n := by
  have hN' : 0 < N := by omega
  obtain ⟨hfin, hticks⟩ := fraction_ticks (v := 1) (by decide) hN' hu hsecond
  obtain ⟨hfin', hticks'⟩ := fraction_ticks hn hN' hu hsecond
  rw [one_mul] at hticks
  have hpos : 0 < (fromInt64Fraction 1 N).ticks := by rwa [hticks]
  have hfloor {e : Duration} (he : e.Valid) := getD_fastCount hu hsecond hN hfit he
    (hticks ▸ floorToUnit_eq he hfin hpos) fun _ => fdiv_eq_ediv_of_nonneg _ hu.le
  refine ⟨hfloor hd, ?_, fun v h => (fastCount_exact hu hsecond hN hfit hd h).2, ?_⟩
  · exact getD_fastCount hu hsecond hN hfit hd (hticks ▸ iDivDuration_eq_count hd hfin hpos)
      fun h => tdiv_eq_ediv_of_nonneg h
  · rw [hfloor (.inl hfin')]
    exact count_of_ticks hfin' hn hu (by rw [hticks', sub_zero])

end Conversions

theorem toInt64Whole_eq {per : ℤ} (hd : d.Valid) (hper : 0 < per) :
    d.toInt64Whole per = d.count tdiv 0 (per * kTicksPerSecond) := by
  have hunit : ticks ⟨per, 0⟩ = per * kTicksPerSecond := add_zero _
  have hexact {q : ℤ} {rem : Duration} (hd : d.Finite) (h : Exact d ⟨per, 0⟩ (q, rem)) :
      q = d.count tdiv 0 (per * kTicksPerSecond) := by
    obtain ⟨-, hfit, hresult⟩ := h
    rw [hd.count_eq, sub_zero, ← hunit, min_eq_left hfit.2, max_eq_right hfit.1]
    exact congrArg Prod.fst hresult
  unfold toInt64Whole
  rcases hd.cases with hd | rfl | rfl
  · rw [hd.not_isInfinite, if_neg Bool.false_ne_true]
    rcases lt_or_ge d.repHi 0 with hneg | hpos
    · rw [← hexact hd (hd.div_seconds_of_neg hneg hper rfl).2]
      split_ifs <;> simp_all
    · rw [if_neg (by omega), tdiv_eq_ediv_of_nonneg hpos]
      exact hexact hd (hd.div_seconds hpos hper)
  · exact count_infiniteDuration.symm
  · exact count_neg_infiniteDuration.symm

open Time

theorem universalEpoch_finite : universalEpoch.rep.Finite := ⟨by decide, by decide, by decide⟩

theorem toUniversal_eq (hd : d.Valid) : toUniversal ⟨d⟩
    = d.count fdiv universalEpoch.rep.ticks (100 * kTicksPerNanosecond) := by
  have hepoch : universalEpoch.rep.ticks < 0 := by decide
  have hunit : Duration.Finite (nanoseconds 100) := ⟨by decide, by decide, by decide⟩
  have hticks : (nanoseconds 100).ticks = 100 * kTicksPerNanosecond := by decide
  have hpos : 0 < (nanoseconds 100).ticks := by decide
  have hfloor {e : Duration} (he : e.Valid) := floorToUnit_eq he hunit hpos
  rw [hticks] at hfloor
  unfold toUniversal
  rcases hd.cases with hfin | rfl | rfl
  · rw [sub_eq_saturate hfin universalEpoch_finite, hfloor (saturate_valid _), hfin.count_eq]
    rcases lt_or_ge (d.ticks - universalEpoch.rep.ticks) (2 ^ 63 * kTicksPerSecond) with h | h
    · obtain ⟨hfin', hticks'⟩ := ticks_saturate_of_bounds
        ⟨hfin.ticks_bounds.1.trans (by omega), h⟩
      rw [hfin'.count_eq, sub_zero, hticks']
    · -- past the range the exact count is past the range of int64_t as well
      rw [saturate_of_ge h, count_infiniteDuration, fdiv_eq_ediv_of_nonneg _ (by decide)]
      rw [kTicksPerSecond_eq] at h
      rw [kint64min_eq, kint64max_eq, show (100 * kTicksPerNanosecond : ℤ) = 400 from rfl]
      omega
  · exact (hfloor (.inr (.inl rfl))).trans count_infiniteDuration
  · rw [neg_infiniteDuration] at hd ⊢
    exact (hfloor hd).trans count_neg_infiniteDuration

theorem toUniversal_fromUniversal {n : ℤ} (hn : IsInt64 n) : toUniversal (fromUniversal n) = n := by
  obtain ⟨hfin, hticks⟩ := fraction_ticks (N := 1000000000) hn (by decide) four_pos rfl
  have hbounds := (isInt64_iff n).mp hn
  have hepoch : universalEpoch.rep.ticks = -24 * 719162 * 3600 * 4000000000 := rfl
  have hmul := mul_eq_saturate hfin (r := 100) (by decide)
  obtain ⟨hfin', hticks'⟩ := ticks_saturate_of_bounds (n := n * 4 * 100)
    (by rw [kTicksPerSecond_eq]; omega)
  rw [hticks] at hmul
  have hadd := add_eq_saturate universalEpoch_finite hfin'
  obtain ⟨hfin'', hticks''⟩ := ticks_saturate_of_bounds
    (n := universalEpoch.rep.ticks + n * 4 * 100) (by rw [kTicksPerSecond_eq]; omega)
  rw [hticks'] at hadd
  rw [fromUniversal, nanoseconds, hmul, hadd, toUniversal_eq (.inl hfin'')]
  exact count_of_ticks hfin'' hn (by decide) (by rw [hticks'', kTicksPerNanosecond]; ring)

end Duration

open Time in
/-- The conversions : every count of nanoseconds, microseconds, milliseconds and of 100ns since
the universal epoch is the exact count floored and cut to `int64_t`, every count of a duration
the exact count truncated and cut ; the fast paths do not overflow, and a count made into a time
is read back. -/
theorem time_conversions {d : Duration} (hd : d.Valid) {n : ℤ} (hn : IsInt64 n) :
    (toUnixNanos ⟨d⟩ = d.count fdiv 0 kTicksPerNanosecond ∧
      toUnixMicros ⟨d⟩ = d.count fdiv 0 (1000 * kTicksPerNanosecond) ∧
      toUnixMillis ⟨d⟩ = d.count fdiv 0 (1000 * 1000 * kTicksPerNanosecond) ∧
      toUniversal ⟨d⟩ = d.count fdiv universalEpoch.rep.ticks (100 * kTicksPerNanosecond)) ∧
    (toInt64Nanoseconds d = d.count tdiv 0 kTicksPerNanosecond ∧
      toInt64Microseconds d = d.count tdiv 0 (1000 * kTicksPerNanosecond) ∧
      toInt64Milliseconds d = d.count tdiv 0 (1000 * 1000 * kTicksPerNanosecond) ∧
      toInt64Seconds d = d.count tdiv 0 kTicksPerSecond ∧
      toInt64Minutes d = d.count tdiv 0 (60 * kTicksPerSecond) ∧
      toInt64Hours d = d.count tdiv 0 (60 * 60 * kTicksPerSecond)) ∧
    (FastFits 33 (1000 * 1000 * 1000) 4 d ∧ FastFits 43 (1000 * 1000) 4000 d ∧
      FastFits 53 1000 (4000 * 1000) d) ∧
    toUnixNanos (fromUnixNanos n) = n ∧ toUnixMicros (fromUnixMicros n) = n ∧
    toUnixMillis (fromUnixMillis n) = n ∧ toUnixSeconds (fromUnixSeconds n) = n ∧
    toUniversal (fromUniversal n) = n := by
  obtain ⟨hnano, hnano', hnanoFits, hnanoBack⟩ :=
    unit_conversions (s := 33) (N := 1000 * 1000 * 1000) four_pos rfl (by decide) (by decide) hd hn
  obtain ⟨hmicro, hmicro', hmicroFits, hmicroBack⟩ := unit_conversions (s := 43)
    (N := 1000 * 1000) (u := 4000) (by decide) rfl (by decide) (by decide) hd hn
  obtain ⟨hmilli, hmilli', hmilliFits, hmilliBack⟩ := unit_conversions (s := 53)
    (N := 1000) (u := 4000 * 1000) (by decide) rfl (by decide) (by decide) hd hn
  have hseconds : toUnixSeconds (fromUnixSeconds n) = n := by
    simp [toUnixSeconds, fromUnixSeconds, seconds, fromInt64Fraction, makeNormalizedDuration]
  exact ⟨⟨hnano, hmicro, hmilli, toUniversal_eq hd⟩, ⟨hnano', hmicro', hmilli',
    (toInt64Whole_eq hd one_pos).trans (by rw [one_mul]), toInt64Whole_eq hd (by decide),
    toInt64Whole_eq hd (by decide)⟩, ⟨hnanoFits, hmicroFits, hmilliFits⟩, hnanoBack, hmicroBack,
    hmilliBack, hseconds, toUniversal_fromUniversal hn⟩

open Time in
/-- A quarter of a nanosecond before the epoch is floored, and truncated to zero. -/
theorem time_conversions_negative : toUnixNanos ⟨⟨-1, 3999999999⟩⟩ = -1 ∧
    toInt64Nanoseconds ⟨-1, 3999999999⟩ = 0 := by
  have h : Duration.Valid ⟨-1, 3999999999⟩ := .inl ⟨by decide, by decide, by decide⟩
  obtain ⟨⟨hfloor, -⟩, ⟨htrunc, -⟩, -⟩ := time_conversions h (n := 0) (by decide)
  rw [hfloor, htrunc]
  decide

end Abseil
