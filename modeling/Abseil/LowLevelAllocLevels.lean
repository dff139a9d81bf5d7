import Abseil.LowLevelAllocList

/-!
# Levels of the low level allocator

`Random` ends : the generator is `r ↦ a r + c` with `a = 1` modulo 4 and `c` odd, so that `2 ^ 30`
steps of it flip the bit 30 (`bit_flip`). The number of levels of a block fits in the block, and it
is at least that of a smaller block for which no number was drawn (`minLevels_mono`).
-/

namespace Abseil.LowLevelAlloc

open Function

/-! ## The generator -/

/-- `2 ^ k` steps of `x ↦ (1 + 4 t) x + (2 u + 1)`. -/
theorem iterate_two_pow (t u k : ℕ) : ∃ t' u', ∀ x,
    (fun x => (1 + 4 * t) * x + (2 * u + 1))^[2 ^ k] x =
      (1 + 2 ^ (k + 2) * t') * x + 2 ^ k * (2 * u' + 1) := by
  induction k with
  | zero => exact ⟨t, u, fun x => by simp⟩
  | succ k ih =>
    obtain ⟨t', u', h⟩ := ih
    refine ⟨t' + 2 ^ (k + 1) * t' ^ 2, u' + 2 ^ k * t' * (2 * u' + 1), fun x => ?_⟩
    rw [pow_succ, mul_two, iterate_add_apply, h, h]
    ring

/-- The step of the generator, without the wrap. -/
def affine (x : ℕ) : ℕ := 1103515245 * x + 12345

variable (x k : ℕ) (r : UInt32)

/-- The generator is affine. -/
theorem toNat_nextRandom : (nextRandom r).toNat = affine r.toNat % 2 ^ 32 := by
  have h1 : (1103515245 : UInt32).toNat = 1103515245 := rfl
  have h2 : (12345 : UInt32).toNat = 12345 := rfl
  unfold nextRandom affine
  rw [UInt32.toNat_add, UInt32.toNat_mul, h1, h2, Nat.mod_add_mod, mul_comm]

theorem affine_mod : affine (x % 2 ^ 32) % 2 ^ 32 = affine x % 2 ^ 32 := by
  unfold affine
  omega

theorem toNat_iterate : (nextRandom^[k] r).toNat = affine^[k] r.toNat % 2 ^ 32 := by
  induction k generalizing r with
  | zero => exact (Nat.mod_eq_of_lt r.toNat_lt).symm
  | succ k ih =>
    rw [iterate_succ_apply', toNat_nextRandom, ih, affine_mod, iterate_succ_apply']

/-- Half the period flips the bit. -/
theorem bit_flip : affine^[2 ^ 30] x % 2 ^ 31 = (x + 2 ^ 30) % 2 ^ 31 := by
  obtain ⟨t', u', h⟩ := iterate_two_pow 275878811 6172 30
  have haffine : (fun x => (1 + 4 * 275878811) * x + (2 * 6172 + 1)) = affine := by
    funext x
    unfold affine
    norm_num
  rw [haffine] at h
  rw [h]
  have heq : (1 + 2 ^ (30 + 2) * t') * x + 2 ^ 30 * (2 * u' + 1) =
      x + 2 ^ 30 + 2 ^ 31 * (2 * t' * x + u') := by ring
  rw [heq, Nat.add_mul_mod_self_left]

/-- The bit that ends the loop. -/
theorem and_one_eq_zero_iff : (r >>> 30) &&& 1 = 0 ↔ r.toNat / 2 ^ 30 % 2 = 0 := by
  have h1 : (1 : UInt32).toNat = 1 := rfl
  have h2 : (30 : UInt32).toNat % 32 = 30 := rfl
  rw [← UInt32.toNat_inj, UInt32.toNat_and, UInt32.toNat_shiftRight, h1, h2, Nat.and_one_is_mod,
    Nat.shiftRight_eq_div_pow]
  rfl

/-- The loop ends at the first bit that is set. -/
theorem randomLoop_some (fuel : ℕ) : ∀ r result,
    (∃ k < fuel, ¬ (nextRandom^[k + 1] r).toNat / 2 ^ 30 % 2 = 0) →
      ∃ r' n, randomLoop fuel r result = some (r', n) ∧ result ≤ n := by
  induction fuel with
  | zero =>
    rintro r result ⟨k, hk, -⟩
    omega
  | succ fuel ih =>
    rintro r result ⟨k, hk, hbit⟩
    rw [randomLoop]
    split_ifs with hzero
    · cases k with
      | zero =>
        exact absurd ((and_one_eq_zero_iff _).1 hzero) hbit
      | succ k =>
        rw [iterate_succ_apply] at hbit
        obtain ⟨r', n, hr, hle⟩ := ih _ _ ⟨k, by omega, hbit⟩
        exact ⟨r', n, hr, by omega⟩
    · exact ⟨_, _, rfl, le_rfl⟩

/-- A bit is set in time. -/
theorem exists_bit : ∃ k < maxRounds, ¬ (nextRandom^[k + 1] r).toNat / 2 ^ 30 % 2 = 0 := by
  by_cases hzero : (nextRandom r).toNat / 2 ^ 30 % 2 = 0
  · refine ⟨2 ^ 30, by norm_num [maxRounds], ?_⟩
    rw [iterate_succ_apply, toNat_iterate]
    have hflip := bit_flip (nextRandom r).toNat
    omega
  · exact ⟨0, by norm_num [maxRounds], hzero⟩

/-- The number drawn is positive. -/
theorem random_spec (s : Arena) :
    Spec random s fun n s' => 1 ≤ n ∧ ∃ r, s' = { s with random := r } := by
  obtain ⟨r', n, hr, hle⟩ := randomLoop_some maxRounds s.random 1 (exists_bit s.random)
  refine get_bind ?_
  rw [hr]
  exact ⟨hle, r', rfl⟩

/-! ## The number of levels -/

theorem intLog2_mono (base : ℕ) {x y : ℕ} (h : x ≤ y) : intLog2 x base ≤ intLog2 y base := by
  induction y using Nat.strong_induction_on generalizing x with
  | _ y ih =>
    rw [intLog2.eq_1 x, intLog2.eq_1 y]
    by_cases hx : base < x
    · rw [if_pos hx, if_pos (hx.trans_le h)]
      have := ih (y / 2) (by omega) (Nat.div_le_div_right h)
      omega
    · rw [if_neg hx]
      exact Nat.zero_le _

variable {size : ℕ}

theorem maxFit_eq (h : nextOffset ≤ size) (hlt : size < 2 ^ 64) :
    maxFit size = (size - nextOffset) / 8 := by
  unfold maxFit nextOffset at *
  omega

/-- The least number of levels of a block. -/
def minLevels (size : ℕ) : ℕ := clip size minSize 1

/-- Larger blocks have no fewer levels. -/
theorem minLevels_mono {x y : ℕ} (hx : nextOffset ≤ x) (h : x ≤ y) (hy : y < 2 ^ 64) :
    minLevels x ≤ minLevels y := by
  have h1 := intLog2_mono minSize h
  unfold minLevels clip
  rw [maxFit_eq hx (by omega), maxFit_eq (by omega) hy]
  omega

theorem minLevels_pos (h : minSize ≤ size) (hlt : size < 2 ^ 64) : 1 ≤ minLevels size := by
  unfold minLevels clip
  rw [maxFit_eq (le_trans (by decide) h) hlt]
  unfold minSize roundUpSize nextOffset kMaxLevel at *
  omega

/-- The numbers of levels that `LLA_SkiplistLevels` may return. -/
structure Levels (size l : ℕ) : Prop where
  pos : 1 ≤ l
  lt : l < kMaxLevel
  room : nextOffset + 8 * l ≤ size
  minLevels_le : minLevels size ≤ l

section

variable (h : minSize ≤ size)
include h

section

variable (hlt : size < 2 ^ 64)
include hlt

theorem clip_eq (n : ℕ) :
    clip size minSize n = min (min (intLog2 size minSize + n) ((size - 40) / 8)) 29 := by
  rw [clip, maxFit_eq (le_trans (by decide) h) hlt]
  rfl

/-- The levels are between the least and the most. -/
theorem levels_clip {n : ℕ} (hn : 1 ≤ n) : Levels size (clip size minSize n) := by
  have hsize : 64 ≤ size := h
  have hleast : minLevels size = _ := clip_eq h hlt 1
  rw [clip_eq h hlt]
  generalize intLog2 size minSize = a at *
  refine ⟨by omega, ?_, ?_, ?_⟩
  · unfold kMaxLevel
    omega
  · unfold nextOffset
    omega
  · rw [hleast]
    omega

theorem llaSkiplistLevels_drawn (s : Arena) :
    Spec (llaSkiplistLevels size minSize true) s fun l s' =>
      Levels size l ∧ ∃ r, s' = { s with random := r } := by
  refine (random_spec s).bind ?_
  rintro n s' ⟨hn, hs'⟩
  have hlevels := levels_clip h hlt hn
  exact check_bind hlevels.pos (Spec.pure ⟨hlevels, hs'⟩)

theorem llaSkiplistLevels_least (s : Arena) :
    Spec (llaSkiplistLevels size minSize false) s fun l s' => l = minLevels size ∧ s' = s := by
  unfold llaSkiplistLevels
  rw [if_neg (by decide), pure_bind]
  have hpos := minLevels_pos h hlt
  exact check_bind hpos (Spec.pure ⟨rfl, rfl⟩)

end

end

end Abseil.LowLevelAlloc
