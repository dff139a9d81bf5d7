import Abseil.DurationDivide

/-!
# Rounding of durations

`Trunc`, `Floor` and `Ceil` round a duration to a multiple of a unit by way of
`operator%` : the remainder is taken off, and a unit more is taken off or put on
when that went to the wrong side.

`trunc_ticks` gives the truncation in tick counts, `floor_spec` and `ceil_spec`
the other two from it ; `duration_rounding` is the whole.
-/

namespace Abseil

namespace Duration

/-- `AbsDuration`. -/
def absDuration (d : Duration) : Duration := if d.lt zeroDuration then d.neg else d

/-- `operator<=`. -/
def le (lhs rhs : Duration) : Bool := !rhs.lt lhs

/-- `Trunc`. -/
def trunc (d unit : Duration) : Duration := d.sub (d.mod unit)

/-- `Floor`. -/
def floor (d unit : Duration) : Duration :=
  let td := trunc d unit
  if td.le d then td else td.sub (absDuration unit)

/-- `Ceil`. -/
def ceil (d unit : Duration) : Duration :=
  let td := trunc d unit
  if d.le td then td else td.add (absDuration unit)

/-! ## Multiples next to a number -/

/-- The multiples of `b` up to `a`. -/
def multiplesBelow (b a : ℤ) : Set ℤ := {n | b ∣ n ∧ n ≤ a}

/-- The multiples of `b` from `a` on. -/
def multiplesAbove (b a : ℤ) : Set ℤ := {n | b ∣ n ∧ a ≤ n}

variable {a b n : ℤ}

theorem isGreatest_multiple (hdvd : b ∣ n) (hle : n ≤ a) (hlt : a < n + |b|) :
    IsGreatest (multiplesBelow b a) n := by
  refine ⟨⟨hdvd, hle⟩, fun m ⟨hm, hma⟩ => ?_⟩
  by_contra! hgt
  have := Int.le_of_dvd (by omega) ((abs_dvd b _).mpr (dvd_sub hm hdvd))
  omega

theorem isLeast_multiple (hdvd : b ∣ n) (hle : a ≤ n) (hlt : n < a + |b|) :
    IsLeast (multiplesAbove b a) n := by
  refine ⟨⟨hdvd, hle⟩, fun m ⟨hm, hma⟩ => ?_⟩
  by_contra! hgt
  have := Int.le_of_dvd (by omega) ((abs_dvd b _).mpr (dvd_sub hdvd hm))
  omega

/-! ## Counts that are not representable -/

/-- The duration of `n` ticks, or `inf` when no finite duration has that count. -/
def IsOr (d : Duration) (n : ℤ) (inf : Duration) : Prop :=
  d.Finite ∧ d.ticks = n ∨ (∀ e : Duration, e.Finite → e.ticks ≠ n) ∧ d = inf

variable {d unit : Duration}

theorem Finite.ticks_bounds (h : d.Finite) :
    -2 ^ 63 * kTicksPerSecond ≤ d.ticks ∧ d.ticks < 2 ^ 63 * kTicksPerSecond := by
  rw [finite_iff] at h
  rw [ticks, kTicksPerSecond_eq]
  omega

theorem ticks_saturate_of_bounds
    (h : -2 ^ 63 * kTicksPerSecond ≤ n ∧ n < 2 ^ 63 * kTicksPerSecond) :
    (saturate n).Finite ∧ (saturate n).ticks = n := by
  apply ticks_saturate
  rw [kTicksPerSecond_eq] at h
  rw [isInt64_iff, kTicksPerSecond_eq]
  omega

theorem le_iff_ticks {lhs rhs : Duration} (hl : lhs.Finite) (hr : rhs.Finite) :
    lhs.le rhs = true ↔ lhs.ticks ≤ rhs.ticks := by
  rw [le, Bool.not_eq_true', ← Bool.not_eq_true, hr.lt_iff_ticks hl, not_lt]

theorem isOr_saturate_below (hd : d.Finite) (h : n ≤ d.ticks) :
    IsOr (saturate n) n infiniteDuration.neg := by
  rcases lt_or_ge n _ with hlt | hge
  · exact .inr ⟨fun e he => (hlt.trans_le he.ticks_bounds.1).ne', saturate_of_lt hlt⟩
  · exact .inl (ticks_saturate_of_bounds ⟨hge, h.trans_lt hd.ticks_bounds.2⟩)

theorem isOr_saturate_above (hd : d.Finite) (h : d.ticks ≤ n) :
    IsOr (saturate n) n infiniteDuration := by
  rcases lt_or_ge n _ with hlt | hge
  · exact .inl (ticks_saturate_of_bounds ⟨hd.ticks_bounds.1.trans h, hlt⟩)
  · exact .inr ⟨fun e he => (he.ticks_bounds.2.trans_le hge).ne, saturate_of_ge hge⟩

theorem absDuration_ticks (hu : unit.Finite) (ha : (absDuration unit).Finite) :
    (absDuration unit).ticks = |unit.ticks| := by
  have hsign := hu.lt_iff_ticks zeroDuration_finite
  have hzero : zeroDuration.ticks = 0 := rfl
  unfold absDuration at ha ⊢
  split_ifs at ha ⊢ with hneg
  · rw [hsign] at hneg
    rw [neg_eq_saturate hu] at ha ⊢
    rw [abs_of_neg hneg]
    rcases isOr_saturate_above hu (by omega : unit.ticks ≤ -unit.ticks) with h | ⟨-, h⟩
    · exact h.2
    · rw [h] at ha
      cases ha.repLo_lt
  · rw [hsign] at hneg
    rw [abs_of_nonneg (not_lt.mp hneg)]

/-! ## The three roundings -/

/-- The truncated count lies between zero and the count, less than a unit from it. -/
theorem truncated_bounds (a : ℤ) (hb : b ≠ 0) : |a - a.tdiv b * b| < |b| ∧
    (0 ≤ a → 0 ≤ a.tdiv b * b ∧ a.tdiv b * b ≤ a) ∧
    (a ≤ 0 → a ≤ a.tdiv b * b ∧ a.tdiv b * b ≤ 0) := by
  have hmod : a.tmod b = a - a.tdiv b * b := by rw [Int.tmod_def, mul_comm]
  have habs := Int.natAbs_tmod a b
  have hle := Nat.mod_le a.natAbs b.natAbs
  refine ⟨abs_sub_tdiv_lt _ hb, fun h => ?_, fun h => ?_⟩
  · have := Int.tmod_nonneg b h
    omega
  · have hneg := Int.tmod_nonneg b (Int.neg_nonneg_of_nonpos h)
    rw [Int.neg_tmod] at hneg
    omega

section Rounding

variable (hd : d.Finite) (hu : unit.Finite) (h₀ : unit.ticks ≠ 0)
include hd hu h₀

theorem trunc_ticks : (trunc d unit).Finite ∧
    (trunc d unit).ticks = d.ticks.tdiv unit.ticks * unit.ticks := by
  obtain ⟨hfin, hticks⟩ := mod_ticks hd hu h₀
  have hbounds := hd.ticks_bounds
  obtain ⟨-, hpos, hneg⟩ := truncated_bounds d.ticks h₀
  rw [trunc, sub_eq_saturate hd hfin, hticks, sub_sub_cancel]
  apply ticks_saturate_of_bounds
  rcases le_total 0 d.ticks with h | h
  · omega
  · omega

/-- Truncation gives a multiple of the unit less than a unit away, on the side of zero. -/
theorem trunc_near : unit.ticks ∣ (trunc d unit).ticks ∧
    (-|unit.ticks| < d.ticks - (trunc d unit).ticks ∧
      d.ticks - (trunc d unit).ticks < |unit.ticks|) ∧
    (0 ≤ d.ticks → (trunc d unit).ticks ≤ d.ticks) ∧
    (d.ticks ≤ 0 → d.ticks ≤ (trunc d unit).ticks) := by
  obtain ⟨hnear, hpos, hneg⟩ := truncated_bounds d.ticks h₀
  rw [(trunc_ticks hd hu h₀).2]
  exact ⟨dvd_mul_left _ _, abs_lt.mp hnear, fun h => (hpos h).2, fun h => (hneg h).1⟩

theorem trunc_of_dvd (h : unit.ticks ∣ d.ticks) : trunc d unit = d := by
  obtain ⟨hfin, hticks⟩ := trunc_ticks hd hu h₀
  rw [← hfin.saturate_ticks, hticks, Int.tdiv_mul_cancel h, hd.saturate_ticks]

variable (ha : (absDuration unit).Finite)
include ha

theorem floor_spec : ∃ n, IsGreatest (multiplesBelow unit.ticks d.ticks) n ∧
    IsOr (floor d unit) n infiniteDuration.neg := by
  have hfin := (trunc_ticks hd hu h₀).1
  obtain ⟨hdvd, hnear, -⟩ := trunc_near hd hu h₀
  have hle := le_iff_ticks hfin hd
  rw [floor]
  split_ifs with h <;> rw [hle] at h
  · exact ⟨_, isGreatest_multiple hdvd h (by omega), .inl ⟨hfin, rfl⟩⟩
  · rw [sub_eq_saturate hfin ha, absDuration_ticks hu ha]
    exact ⟨_, isGreatest_multiple (dvd_sub hdvd (self_dvd_abs _)) (by omega) (by omega),
      isOr_saturate_below hd (by omega)⟩

theorem ceil_spec : ∃ n, IsLeast (multiplesAbove unit.ticks d.ticks) n ∧
    IsOr (ceil d unit) n infiniteDuration := by
  have hfin := (trunc_ticks hd hu h₀).1
  obtain ⟨hdvd, hnear, -⟩ := trunc_near hd hu h₀
  have hle := le_iff_ticks hd hfin
  rw [ceil]
  split_ifs with h <;> rw [hle] at h
  · exact ⟨_, isLeast_multiple hdvd h (by omega), .inl ⟨hfin, rfl⟩⟩
  · rw [add_eq_saturate hfin ha, absDuration_ticks hu ha]
    exact ⟨_, isLeast_multiple (dvd_add hdvd (self_dvd_abs _)) (by omega) (by omega),
      isOr_saturate_above hd (by omega)⟩

end Rounding

/-- A rounding leaves what truncation leaves. -/
theorem round_of_trunc (h : trunc d unit = d) : floor d unit = d ∧ ceil d unit = d := by
  have hle : d.le d = true := by simp [le, lt]
  rw [floor, ceil, h]
  exact ⟨if_pos hle, if_pos hle⟩

/-- What was rounded is left by truncation : it is a multiple of the unit or infinite. -/
theorem IsOr.trunc_eq {inf : Duration} (h : IsOr d n inf) (hinf : inf.isInfiniteDuration = true)
    (hu : unit.Finite) (h₀ : unit.ticks ≠ 0) (hn : unit.ticks ∣ n) : trunc d unit = d := by
  rcases h with ⟨hd, rfl⟩ | ⟨-, rfl⟩
  · exact trunc_of_dvd hd hu h₀ hn
  · rw [trunc, sub, if_pos hinf]

variable {e : Duration}

theorem IsOr.le_finite (hd : d.Finite) (h : IsOr e n infiniteDuration.neg) (hn : n ≤ d.ticks) :
    e.le d = true := by
  rcases h with ⟨he, rfl⟩ | ⟨-, rfl⟩
  · exact (le_iff_ticks he hd).mpr hn
  · rw [le, Bool.not_eq_true', ← Bool.not_eq_true, neg_infiniteDuration,
      lt_iff_place (.inl hd) (.inr (.inr rfl)), place_neg_infiniteDuration]
    exact not_lt_bot

theorem IsOr.finite_le (hd : d.Finite) (h : IsOr e n infiniteDuration) (hn : d.ticks ≤ n) :
    d.le e = true := by
  rcases h with ⟨he, rfl⟩ | ⟨-, rfl⟩
  · exact (le_iff_ticks hd he).mpr hn
  · rw [le, Bool.not_eq_true', ← Bool.not_eq_true, lt_iff_place (.inr (.inl rfl)) (.inl hd),
      place_infiniteDuration]
    exact not_top_lt

end Duration

open Duration in
/-- The three roundings : `Trunc` is the multiple next to the duration on the side of zero,
`Floor` the greatest multiple below it and `Ceil` the least above it, or infinite when that
multiple is not representable ; so they bracket the duration and rounding again changes nothing. -/
theorem duration_rounding {d unit : Duration} (hd : d.Finite) (hu : unit.Finite)
    (h₀ : unit ≠ zeroDuration) (ha : (absDuration unit).Finite) :
    (trunc d unit).Finite ∧
    (0 ≤ d.ticks → IsGreatest (multiplesBelow unit.ticks d.ticks) (trunc d unit).ticks) ∧
    (d.ticks ≤ 0 → IsLeast (multiplesAbove unit.ticks d.ticks) (trunc d unit).ticks) ∧
    (∃ n, IsGreatest (multiplesBelow unit.ticks d.ticks) n ∧
      IsOr (floor d unit) n infiniteDuration.neg) ∧
    (∃ n, IsLeast (multiplesAbove unit.ticks d.ticks) n ∧ IsOr (ceil d unit) n infiniteDuration) ∧
    (floor d unit).le d = true ∧ d.le (ceil d unit) = true ∧
    trunc (trunc d unit) unit = trunc d unit ∧ floor (floor d unit) unit = floor d unit ∧
    ceil (ceil d unit) unit = ceil d unit := by
  have hU := hu.ticks_ne_zero h₀
  have hfin := (trunc_ticks hd hu hU).1
  obtain ⟨hdvd, hnear, hpos, hneg⟩ := trunc_near hd hu hU
  obtain ⟨m, hm, hfloor⟩ := floor_spec hd hu hU ha
  obtain ⟨n, hn, hceil⟩ := ceil_spec hd hu hU ha
  refine ⟨hfin, fun h => ?_, fun h => ?_, ⟨m, hm, hfloor⟩, ⟨n, hn, hceil⟩, ?_, ?_, ?_, ?_, ?_⟩
  · exact isGreatest_multiple hdvd (hpos h) (by omega)
  · exact isLeast_multiple hdvd (hneg h) (by omega)
  · exact hfloor.le_finite hd hm.1.2
  · exact hceil.finite_le hd hn.1.2
  · exact trunc_of_dvd hfin hu hU hdvd
  · exact (round_of_trunc (hfloor.trunc_eq (by decide) hu hU hm.1.1)).1
  · exact (round_of_trunc (hceil.trunc_eq (by decide) hu hU hn.1.1)).2

open Duration in
/-- At the lower end of the range three seconds round down past it. -/
theorem duration_rounding_min :
    (floor ⟨kint64min, 0⟩ ⟨3, 0⟩).le ⟨kint64min, 0⟩ = true ∧
      floor ⟨kint64min, 0⟩ ⟨3, 0⟩ = infiniteDuration.neg := by
  have hd : Duration.Finite ⟨kint64min, 0⟩ := ⟨by decide, by decide, by decide⟩
  have hu : Duration.Finite ⟨3, 0⟩ := ⟨by decide, by decide, by decide⟩
  exact ⟨(duration_rounding hd hu (by decide) hu).2.2.2.2.2.1, by decide⟩

end Abseil
