import Mathlib.Data.Nat.BitIndices
import Mathlib.Data.Nat.Size
import Mathlib.Tactic

/-!
# Scanning a bit mask

A mask word tells which of `n` positions have a property. Position `j` is the bit
`flag s j` of the word, the last of the `2 ^ s` bits that the position takes : the word
`Marks` the property. Such a word is read by counting its zeros from either end, and
walked by dropping its lowest bit again and again. `lowest_spec`, `leading_spec` and
`scan_eq_filter` say what these give for the property itself.
-/

namespace BitScan

open List Nat

/-- Number of zero bits below the lowest set bit. -/
def ctz : ℕ → ℕ
  | 0 => 0
  | m + 1 => if (m + 1) % 2 = 1 then 0 else ctz ((m + 1) / 2) + 1
decreasing_by omega

/-- The bit of position `j` when a position takes `2 ^ s` bits. -/
def flag (s j : ℕ) : ℕ := (j + 1) * 2 ^ s - 1

/-- The set bits of `m` are the flags of the positions below `n` with the property `p`. -/
def Marks (s n m : ℕ) (p : ℕ → Bool) : Prop :=
  ∀ b, m.testBit b = true ↔ ∃ j < n, b = flag s j ∧ p j = true

theorem and_pred_lt {m : ℕ} (h : m ≠ 0) : m &&& (m - 1) < m := by
  have := and_le_right (n := m) (m := m - 1)
  omega

/-- The positions of the set bits, lowest first : take the lowest, drop its bit, repeat. -/
def scan (s m : ℕ) : List ℕ :=
  if h : m = 0 then [] else ctz m / 2 ^ s :: scan s (m &&& (m - 1))
termination_by m
decreasing_by exact and_pred_lt h

/-! ## The lowest bit -/

theorem ctz_two_mul {m : ℕ} (h : m ≠ 0) : ctz (2 * m) = ctz m + 1 := by
  obtain ⟨k, hk⟩ : ∃ k, 2 * m = k + 1 := ⟨2 * m - 1, by omega⟩
  have hodd : ¬(k + 1) % 2 = 1 := by omega
  have hhalf : (k + 1) / 2 = m := by omega
  rw [hk, ctz, if_neg hodd, hhalf]

theorem ctz_two_mul_add_one (m : ℕ) : ctz (2 * m + 1) = 0 := by
  rw [ctz, if_pos (by omega)]

theorem ctz_two_pow_mul {m : ℕ} (h : m ≠ 0) : ∀ k, ctz (2 ^ k * m) = k + ctz m
  | 0 => by rw [pow_zero, one_mul, zero_add]
  | k + 1 => by
    have hne := mul_ne_zero (pow_ne_zero k two_ne_zero) h
    rw [pow_succ', mul_assoc, ctz_two_mul hne, ctz_two_pow_mul h k]
    ring

/-- A number that is not a multiple of `2 ^ k` has a set bit below `k`. -/
theorem ctz_lt : ∀ {k m : ℕ}, m % 2 ^ k ≠ 0 → ctz m < k
  | 0, m, h => absurd (mod_one m) h
  | k + 1, m, h => by
    rcases even_or_odd' m with ⟨n, rfl | rfl⟩
    · have hn : n % 2 ^ k ≠ 0 := by
        rw [pow_succ', mul_mod_mul_left] at h
        exact fun h0 => h (by rw [h0])
      have hn0 : n ≠ 0 := fun h0 => hn (by rw [h0, zero_mod])
      rw [ctz_two_mul hn0]
      exact succ_lt_succ (ctz_lt hn)
    · rw [ctz_two_mul_add_one]
      exact succ_pos k

theorem and_pred_two_mul_add_one (m : ℕ) : (2 * m + 1) &&& (2 * m + 1 - 1) = 2 * m := by
  apply eq_of_testBit_eq
  intro i
  rw [Nat.add_sub_cancel, testBit_and]
  cases i with
  | zero => simp
  | succ i =>
    have h1 : (2 * m + 1) / 2 = m := by omega
    have h2 : 2 * m / 2 = m := by omega
    rw [testBit_succ, testBit_succ, h1, h2, Bool.and_self]

theorem and_pred_two_mul (m : ℕ) : 2 * m &&& (2 * m - 1) = 2 * (m &&& (m - 1)) := by
  apply eq_of_testBit_eq
  intro i
  rw [testBit_and]
  cases i with
  | zero => simp
  | succ i =>
    have h1 : 2 * m / 2 = m := by omega
    have h2 : (2 * m - 1) / 2 = m - 1 := by omega
    have h3 : 2 * (m &&& (m - 1)) / 2 = m &&& (m - 1) := by omega
    simp only [testBit_succ, h1, h2, h3, testBit_and]

/-- Dropping the lowest bit drops the first of the set bits. -/
theorem bitIndices_eq_cons (m : ℕ) :
    m ≠ 0 → m.bitIndices = ctz m :: (m &&& (m - 1)).bitIndices := by
  induction m using Nat.strong_induction_on with
  | _ m ih =>
    intro hm
    rcases even_or_odd' m with ⟨k, rfl | rfl⟩
    · have hk : k ≠ 0 := by omega
      simp only [and_pred_two_mul, ctz_two_mul hk, bitIndices_two_mul, ih k (by omega) hk, map_cons]
    · rw [and_pred_two_mul_add_one, ctz_two_mul_add_one, bitIndices_two_mul_add_one,
        bitIndices_two_mul]

/-- The walk meets the set bits in increasing order. -/
theorem scan_eq_bitIndices (s m : ℕ) : scan s m = m.bitIndices.map (· / 2 ^ s) := by
  induction m using Nat.strong_induction_on with
  | _ m ih =>
    rw [scan]
    by_cases hm : m = 0
    · simp [hm]
    · rw [dif_neg hm, bitIndices_eq_cons m hm, map_cons, ih _ (and_pred_lt hm)]

/-! ## Masks of a property -/

theorem flag_div (s j : ℕ) : flag s j / 2 ^ s = j := by
  have hpos : 0 < 2 ^ s := Nat.two_pow_pos s
  have h : flag s j = j * 2 ^ s + (2 ^ s - 1) := by
    unfold flag
    rw [Nat.add_mul, Nat.one_mul, Nat.add_sub_assoc hpos]
  rw [h, Nat.add_comm, add_mul_div_right _ _ hpos, div_eq_of_lt (by omega), zero_add]

theorem flag_strictMono (s : ℕ) : StrictMono (flag s) := by
  refine strictMono_nat_of_lt_succ fun j => ?_
  have hpos : 0 < 2 ^ s := Nat.two_pow_pos s
  have h : (j + 1 + 1) * 2 ^ s = (j + 1) * 2 ^ s + 2 ^ s := by rw [Nat.add_mul, Nat.one_mul]
  have hle : 2 ^ s ≤ (j + 1) * 2 ^ s := Nat.le_mul_of_pos_left _ (succ_pos j)
  unfold flag
  omega

section Marks

variable {s n m : ℕ} {p : ℕ → Bool}

section

variable (h : Marks s n m p)
include h

theorem Marks.congr {q : ℕ → Bool} (hpq : ∀ j < n, p j = q j) : Marks s n m q := by
  intro b
  rw [h b]
  exact ⟨fun ⟨j, hj, hb, hp⟩ => ⟨j, hj, hb, hpq j hj ▸ hp⟩,
    fun ⟨j, hj, hb, hq⟩ => ⟨j, hj, hb, (hpq j hj).symm ▸ hq⟩⟩

/-- The walk over a mask of a property lists the positions that have it. -/
theorem scan_eq_filter : scan s m = (range n).filter p := by
  have hbits : m.bitIndices = ((range n).filter p).map (flag s) := by
    refine bitIndices_sorted.eq_of_mem_iff ?_ fun b => ?_
    · have hsorted : ((range n).filter p).Pairwise (· < ·) :=
        pairwise_lt_range.sublist filter_sublist
      exact (hsorted.map (flag s) fun _ _ hij => flag_strictMono s hij).sortedLT
    rw [mem_bitIndices, h b]
    simp only [mem_map, mem_filter, mem_range]
    exact ⟨fun ⟨j, hj, hb, hp⟩ => ⟨j, ⟨hj, hp⟩, hb.symm⟩,
      fun ⟨j, ⟨hj, hp⟩, hb⟩ => ⟨j, hj, hb.symm, hp⟩⟩
  rw [scan_eq_bitIndices, hbits, map_map]
  have hid : ((· / 2 ^ s) ∘ flag s) = id := by
    funext j
    exact flag_div s j
  rw [hid, map_id]

theorem ne_zero_iff : m ≠ 0 ↔ ∃ j < n, p j = true := by
  constructor
  · intro hm
    obtain ⟨b, hb⟩ := exists_testBit_of_ne_zero hm
    obtain ⟨j, hj, -, hp⟩ := (h b).1 hb
    exact ⟨j, hj, hp⟩
  · rintro ⟨j, hj, hp⟩ rfl
    have := (h (flag s j)).2 ⟨j, hj, rfl, hp⟩
    simp at this

/-- The zeros below the lowest bit count the positions in front of the first with the
property. -/
theorem lowest_spec (hm : m ≠ 0) :
    ctz m / 2 ^ s < n ∧ p (ctz m / 2 ^ s) = true ∧ ∀ j < ctz m / 2 ^ s, p j = false := by
  have hbits := bitIndices_eq_cons m hm
  have hmem : ctz m ∈ m.bitIndices := by rw [hbits]; exact mem_cons_self
  obtain ⟨j, hj, hb, hp⟩ := (h _).1 (mem_bitIndices.1 hmem)
  rw [hb, flag_div]
  refine ⟨hj, hp, fun i hi => ?_⟩
  by_contra hpi
  have hmem' : flag s i ∈ m.bitIndices :=
    mem_bitIndices.2 ((h _).2 ⟨i, by omega, rfl, by simpa using hpi⟩)
  have hlt := flag_strictMono s hi
  have hsorted := (bitIndices_sorted (n := m)).pairwise
  rw [hbits] at hmem' hsorted
  rcases mem_cons.1 hmem' with h1 | h1
  · omega
  · have := (pairwise_cons.1 hsorted).1 _ h1
    omega

/-- The zeros above the highest bit count the positions behind the last with the
property. -/
theorem leading_spec (hm : m ≠ 0) :
    ∃ j < n, p j = true ∧ (n * 2 ^ s - m.size) / 2 ^ s = n - 1 - j ∧
      ∀ i < n, j < i → p i = false := by
  have hpos : 0 < 2 ^ s := Nat.two_pow_pos s
  obtain ⟨k, hk⟩ : ∃ k, m.size = k + 1 := ⟨m.size - 1, by
    have := size_pos.2 (pos_of_ne_zero hm); omega⟩
  have hlt := hk ▸ lt_size_self m
  have hge : 2 ^ k ≤ m := lt_size.1 (by omega)
  have hbit := testBit_of_two_pow_le_and_two_pow_add_one_gt hge hlt
  obtain ⟨j, hj, hb, hp⟩ := (h k).1 hbit
  refine ⟨j, hj, hp, ?_, fun i hi hji => ?_⟩
  · have hsize : m.size = (j + 1) * 2 ^ s := by
      have : 0 < (j + 1) * 2 ^ s := mul_pos (succ_pos j) hpos
      unfold flag at hb
      omega
    rw [hsize, ← Nat.sub_mul, Nat.mul_div_cancel _ hpos]
    omega
  · by_contra hpi
    have hset : m.testBit (flag s i) = true := (h _).2 ⟨i, hi, rfl, by simpa using hpi⟩
    have hle := ge_two_pow_of_testBit hset
    have hlt' := flag_strictMono s hji
    have : 2 ^ flag s i < 2 ^ (k + 1) := lt_of_le_of_lt hle hlt
    have := (Nat.pow_lt_pow_iff_right (by omega)).1 this
    omega

end

end Marks

end BitScan
