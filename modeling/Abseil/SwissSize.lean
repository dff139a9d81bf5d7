import Abseil.SwissCapacity

/-!
# The capacity for a number of elements

`SizeToCapacity` inverts `CapacityToGrowth`. Both go by the binary logarithm of the capacity : a
ring of `2 ^ m` control bytes grows to `2 ^ m - 1` elements below a group, to one less up to four
groups and to seven eighths from there on (`capacityToGrowth_pow`). The leading zeros of the size
give the least ring that could do, and the size is compared with its growth once more where that
is seven eighths (`exists_sizeToCapacity`).
-/

namespace Abseil.Swiss

open Nat

/-- `countl_zero` of 64 bits. -/
def countlZero (n : ℕ) : ℕ := 64 - n.size

/-- `SizeToCapacity`. -/
def sizeToCapacity (g : GroupImpl) (size : ℕ) : ℕ :=
  if size = 0 then 0
  else
    -- tables larger than half a group need at least one empty slot
    let leadingZeros := countlZero (size + if g.kWidth / 2 ≤ size then 1 else 0)
    if size < kMaxCapacityForLoadFactorOne g then (2 ^ 64 - 1) >>> leadingZeros
    else
      let kLast3Bits := 7 <<< (8 * 8 - 3)
      let maxSizeForNextCapacity := kLast3Bits >>> leadingZeros
      (2 ^ 64 - 1) >>> (leadingZeros - if maxSizeForNextCapacity < size then 1 else 0)

variable (g : GroupImpl)

/-- The binary logarithm of the width of a group. -/
theorem exists_kWidth : ∃ w, 3 ≤ w ∧ w ≤ 4 ∧ g.kWidth = 2 ^ w := by
  rcases g.kWidth_eq with h | h
  · exact ⟨3, le_rfl, by omega, h⟩
  · exact ⟨4, by omega, le_rfl, h⟩

variable {g} {w m n c : ℕ}

theorem pow_sub_three (h : 3 ≤ m) : 2 ^ m = 2 ^ (m - 3) * 8 := by
  rw [show 8 = 2 ^ 3 from rfl, ← pow_add, Nat.sub_add_cancel h]

theorem capacityToGrowth_pow (hw : g.kWidth = 2 ^ w) (hw3 : 3 ≤ w) (m : ℕ) :
    capacityToGrowth g (2 ^ m - 1) =
      if m < w then 2 ^ m - 1 else if m ≤ w + 2 then 2 ^ m - 2 else 7 * 2 ^ (m - 3) := by
  have hfour := pow_add 2 w 2
  unfold capacityToGrowth kMaxCapacityForLoadFactorOne
  rcases lt_or_ge m w with hlt | hge
  · have hle : 2 ^ m < 2 ^ w := Nat.pow_lt_pow_right (by omega) hlt
    split_ifs <;> omega
  have hle : 2 ^ w ≤ 2 ^ m := Nat.pow_le_pow_right (by omega) hge
  rcases le_or_gt m (w + 2) with hle2 | hgt
  · have hle' : 2 ^ m ≤ 2 ^ (w + 2) := Nat.pow_le_pow_right (by omega) hle2
    split_ifs <;> omega
  · have hlt : 2 ^ (w + 2) < 2 ^ m := Nat.pow_lt_pow_right (by omega) hgt
    have hm := pow_sub_three (m := m) (by omega)
    split_ifs <;> omega

/-- A table grows beyond half of its ring. -/
theorem half_le_capacityToGrowth (hw : g.kWidth = 2 ^ w) (hw3 : 3 ≤ w) (m : ℕ) :
    2 ^ m ≤ capacityToGrowth g (2 ^ (m + 1) - 1) := by
  rw [capacityToGrowth_pow hw hw3]
  split_ifs with h1 h2
  · omega
  · have : 2 ^ 1 ≤ 2 ^ m := Nat.pow_le_pow_right (by omega) (by omega)
    omega
  · have := pow_sub_three (m := m + 1) (by omega)
    omega

theorem ones_shiftRight (hm : m ≤ 64) : (2 ^ 64 - 1) >>> (64 - m) = 2 ^ m - 1 := by
  have hpow : 2 ^ 64 = 2 ^ m * 2 ^ (64 - m) := by rw [← pow_add, Nat.add_sub_cancel' hm]
  have hpos := Nat.two_pow_pos (64 - m)
  rw [Nat.shiftRight_eq_div_pow, Nat.div_eq_iff hpos, Nat.sub_mul]
  omega

theorem last_shiftRight (h3 : 3 ≤ m) (hm : m ≤ 64) :
    7 <<< (8 * 8 - 3) >>> (64 - m) = 7 * 2 ^ (m - 3) := by
  have hpow : 2 ^ (8 * 8 - 3) = 2 ^ (m - 3) * 2 ^ (64 - m) := by
    rw [← pow_add]
    congr 1
    omega
  rw [shiftRight_eq_div_pow, shiftLeft_eq, hpow, ← mul_assoc,
    Nat.mul_div_cancel _ (Nat.two_pow_pos _)]

/-- The capacity belongs to the least ring that grows to the size. -/
theorem exists_sizeToCapacity (g : GroupImpl) (h1 : 1 ≤ n) (hn : n ≤ 7 * 2 ^ 61) :
    ∃ m, 0 < m ∧ sizeToCapacity g n = 2 ^ m - 1 ∧ n ≤ capacityToGrowth g (2 ^ m - 1) ∧
      ∀ j < m, capacityToGrowth g (2 ^ j - 1) < n := by
  obtain ⟨w, hw3, hw4, hw⟩ := exists_kWidth g
  have hgrow := capacityToGrowth_pow hw hw3
  have hhalf : 2 ^ w = 2 ^ (w - 1) * 2 := by rw [← pow_succ, Nat.sub_add_cancel (by omega)]
  have hfour : 2 ^ (w + 2) = 2 ^ w * 4 := pow_add 2 w 2
  unfold sizeToCapacity kMaxCapacityForLoadFactorOne
  rw [if_neg (by omega), hw, ← hfour]
  obtain ⟨d, hdef, hd⟩ : ∃ d, (if 2 ^ w / 2 ≤ n then 1 else 0) = d ∧
      (2 ^ (w - 1) ≤ n ∧ d = 1 ∨ n < 2 ^ (w - 1) ∧ d = 0) := by
    refine ⟨_, rfl, ?_⟩
    split_ifs <;> omega
  generalize hb : (n + d).size = b
  have hlt := hb ▸ lt_size_self _
  have hge : ∀ j < b, 2 ^ j ≤ n + d := fun j hj => lt_size.1 (hb ▸ hj)
  have hb64 : b ≤ 64 := hb ▸ size_le.2 (by omega)
  have hb0 : 0 < b := hb ▸ size_pos.2 (by omega)
  rw [hdef, countlZero, hb]
  have hle : ∀ j, capacityToGrowth g (2 ^ j - 1) ≤ 2 ^ j - 1 := fun j => capacityToGrowth_le g _
  -- the size does not fit a ring below, if it does not fit the largest of them
  have hbelow : capacityToGrowth g (2 ^ (b - 1) - 1) < n →
      ∀ j < b, capacityToGrowth g (2 ^ j - 1) < n := by
    intro hprev j hj
    rcases lt_or_eq_of_le (le_sub_one_of_lt hj) with hj' | rfl
    · have h := hge (j + 1) (by omega)
      have := hle j
      omega
    · exact hprev
  have hprev := hge (b - 1) (by omega)
  have hmono : ∀ i j, i ≤ j → 2 ^ i ≤ 2 ^ j := fun i j h => Nat.pow_le_pow_right (by omega) h
  by_cases hsmall : n < 2 ^ (w + 2) - 1
  · have hbw : b ≤ w + 2 := hb ▸ size_le.2 (by omega)
    rw [if_pos hsmall, ones_shiftRight hb64]
    refine ⟨b, hb0, rfl, ?_, hbelow ?_⟩
    · rw [hgrow]
      split_ifs with h
      · omega
      · have := hmono w b (by omega)
        omega
    · rw [hgrow]
      split_ifs with h h'
      · have := hmono (b - 1) (w - 1) (by omega)
        omega
      · omega
      · omega
  · have hbw : w + 2 < b := hb ▸ lt_size.2 (by omega)
    simp only [if_neg hsmall, last_shiftRight (by omega) hb64]
    have hgrow_b : capacityToGrowth g (2 ^ b - 1) = 7 * 2 ^ (b - 3) := by
      rw [hgrow, if_neg (by omega), if_neg (by omega)]
    have hgrow_prev : capacityToGrowth g (2 ^ (b - 1) - 1) < n := by
      rw [hgrow, if_neg (by omega)]
      split_ifs with h
      · omega
      · have h4 := pow_sub_three (m := b - 1) (by omega)
        have := hmono 1 (b - 1 - 3) (by omega)
        omega
    split_ifs with hfits
    · -- the size is too big for this ring, and fits the next one
      have hb' : b + 1 ≤ 64 := by
        by_contra hb'
        obtain rfl : b = 64 := by omega
        omega
      rw [Nat.sub_sub, ones_shiftRight hb']
      refine ⟨b + 1, by omega, rfl, ?_, forall_lt_succ_right.2 ⟨hbelow hgrow_prev, by omega⟩⟩
      have := half_le_capacityToGrowth hw hw3 b
      omega
    · rw [Nat.sub_zero, ones_shiftRight hb64]
      exact ⟨b, hb0, rfl, by omega, hbelow hgrow_prev⟩

/-- Two sizes that are at most the growth of the largest ring. -/
theorem sizeToCapacity_mono (hmn : m ≤ n) (hn : n ≤ 7 * 2 ^ 61) :
    sizeToCapacity g m ≤ sizeToCapacity g n := by
  rcases m.eq_zero_or_pos with rfl | hm
  · exact zero_le _
  obtain ⟨p, -, hp, -, hleast⟩ := exists_sizeToCapacity g hm (hmn.trans hn)
  obtain ⟨q, -, hq, hfits, -⟩ := exists_sizeToCapacity g (hm.trans_le hmn) hn
  rw [hp, hq]
  refine Nat.sub_le_sub_right (Nat.pow_le_pow_right (by omega) ?_) 1
  by_contra hlt
  have := hleast q (not_le.1 hlt)
  omega

theorem sizeToCapacity_capacityToGrowth (hc : isValidCapacity c = true) (hlt : c < 2 ^ 64) :
    sizeToCapacity g (capacityToGrowth g c) = c := by
  obtain ⟨w, hw3, hw4, hw⟩ := exists_kWidth g
  obtain ⟨M, hM, hcM⟩ := isValidCapacity_iff.1 hc
  obtain rfl : c = 2 ^ M - 1 := by omega
  have hM64 : M ≤ 64 := by
    by_contra h
    have : 2 ^ 65 ≤ 2 ^ M := Nat.pow_le_pow_right (by omega) (by omega)
    omega
  have hhalf := half_le_capacityToGrowth hw hw3 (M - 1)
  rw [Nat.sub_add_cancel hM] at hhalf
  have hpos := Nat.two_pow_pos (M - 1)
  have hmax : capacityToGrowth g (2 ^ M - 1) ≤ 7 * 2 ^ 61 := by
    rcases lt_or_eq_of_le hM64 with h | rfl
    · have : 2 ^ M ≤ 2 ^ 63 := Nat.pow_le_pow_right (by omega) (by omega)
      have := capacityToGrowth_le g (2 ^ M - 1)
      omega
    · rw [capacityToGrowth_pow hw hw3, if_neg (by omega), if_neg (by omega)]
  obtain ⟨m, -, hm, hfits, hleast⟩ := exists_sizeToCapacity g (by omega) hmax
  rw [hm]
  rcases lt_trichotomy m M with hlt' | rfl | hgt
  · have : 2 ^ m ≤ 2 ^ (M - 1) := Nat.pow_le_pow_right (by omega) (by omega)
    have := capacityToGrowth_le g (2 ^ m - 1)
    omega
  · rfl
  · exact absurd (hleast M hgt) (lt_irrefl _)

/-- `SizeToCapacity` is the least valid capacity that grows to the size. -/
theorem sizeToCapacity_least (g : GroupImpl) :
    (∀ n, 1 ≤ n → n < 2 ^ 62 → isValidCapacity (sizeToCapacity g n) = true ∧
      n ≤ capacityToGrowth g (sizeToCapacity g n) ∧
      ∀ c < sizeToCapacity g n, isValidCapacity c = true → capacityToGrowth g c < n) ∧
    (∀ m n, m ≤ n → n < 2 ^ 62 → sizeToCapacity g m ≤ sizeToCapacity g n) ∧
    ∀ c, isValidCapacity c = true → c < 2 ^ 64 → sizeToCapacity g (capacityToGrowth g c) = c := by
  refine ⟨fun n h₁ hn => ?_, fun m n hmn hn => sizeToCapacity_mono hmn (by omega),
    fun c => sizeToCapacity_capacityToGrowth⟩
  obtain ⟨m, hm, heq, hfits, hleast⟩ := exists_sizeToCapacity g h₁ (by omega)
  have hpos := Nat.two_pow_pos m
  rw [heq]
  refine ⟨isValidCapacity_iff.2 ⟨m, hm, by omega⟩, hfits, fun c hc hvalid => ?_⟩
  obtain ⟨j, -, hj⟩ := isValidCapacity_iff.1 hvalid
  obtain rfl : c = 2 ^ j - 1 := by omega
  exact hleast j ((Nat.pow_lt_pow_iff_right Nat.one_lt_two).1 (by omega))

end Abseil.Swiss
