import Abseil.Rejection
import Mathlib.Algebra.Order.Floor.Div
import Mathlib.Data.Int.CardIntervalMod
import Mathlib.Tactic

/-!
# Uniform integers

`uniform_int_distribution` of `N` bits. `Generate` multiplies the drawn bits by `Lim = R + 1` and
takes the high word; the low word decides about the rejection. The products are the multiples of
`Lim` below `Lim * 2 ^ N`, and an interval `[r * 2 ^ N + threshold, (r + 1) * 2 ^ N)` has a length
that is a multiple of `Lim`, so it holds equally many of them for each `r` (`card_multiples`).

The early test `lo < Lim` does not change what is rejected, since the threshold is below `Lim` :
`Generate` is rejection sampling with one test (`generate_eq_sample`).
-/

namespace Abseil.UniformInt

open Finset Rejection

/-! ## `wide_multiply` -/

/-- `MultiplyU128ToU256` : the high and the low half. -/
def multiplyU128ToU256 (a b : ℕ) : ℕ × ℕ :=
  let a00 := a % 2 ^ 64
  let a64 := a / 2 ^ 64
  let b00 := b % 2 ^ 64
  let b64 := b / 2 ^ 64
  let c00 := a00 * b00 % 2 ^ 128
  let c64a := a00 * b64 % 2 ^ 128
  let c64b := a64 * b00 % 2 ^ 128
  let c128 := a64 * b64 % 2 ^ 128
  let carry := (c00 / 2 ^ 64 + c64a % 2 ^ 64 + c64b % 2 ^ 64) % 2 ^ 128 / 2 ^ 64 % 2 ^ 64
  ((c128 + c64a / 2 ^ 64 + c64b / 2 ^ 64 + carry) % 2 ^ 128,
    (c00 + c64a * 2 ^ 64 + c64b * 2 ^ 64) % 2 ^ 128)

/-- `wide_multiply` of words of `N` bits : the high and the low word. -/
def wideMultiply (N a b : ℕ) : ℕ × ℕ :=
  if N = 128 then multiplyU128ToU256 a b
  else (a * b % 2 ^ (2 * N) / 2 ^ N % 2 ^ N, a * b % 2 ^ (2 * N) % 2 ^ N)

/-! ## `Generate` -/

/-- The loop of `Generate` over the draws of the generator. -/
def rejectionLoop (N lim threshold : ℕ) : ℕ × ℕ → List ℕ → Option (ℕ × List ℕ)
  | product, draws =>
    if product.2 < threshold then
      match draws with
      | [] => none
      | bits :: draws => rejectionLoop N lim threshold (wideMultiply N bits lim) draws
    else some (product.1, draws)

/-- `Generate` : the result and the draws that are left, if there were enough. -/
def generate (N R : ℕ) : List ℕ → Option (ℕ × List ℕ)
  | [] => none
  | bits :: draws =>
    let lim := (R + 1) % 2 ^ N
    if R &&& lim = 0 then some (bits &&& R, draws)
    else
      let product := wideMultiply N bits lim
      if product.2 < lim then
        let threshold := (2 ^ N - 1 - lim + 1) % lim
        rejectionLoop N lim threshold product draws
      else some (product.1, draws)

/-! ## The distribution -/

/-- `param_type`. -/
structure ParamType where
  lo : ℤ
  range : ℕ

/-- The constructor of `param_type`, for words of `N` bits. -/
def paramType (N : ℕ) (lo hi : ℤ) : ParamType :=
  ⟨lo, ((hi % 2 ^ N - lo % 2 ^ N) % 2 ^ N).toNat⟩

/-- The conversion to `result_type`. -/
def toResult (N : ℕ) (signed : Bool) (x : ℤ) : ℤ :=
  if signed then Int.bmod x (2 ^ N) else x % 2 ^ N

/-- `operator()`. -/
def call (N : ℕ) (signed : Bool) (param : ParamType) (draws : List ℕ) : Option (ℤ × List ℕ) := do
  let (r, draws) ← generate N param.range draws
  return (toResult N signed (param.lo + r), draws)

/-- The values of `result_type`. -/
def InType (N : ℕ) (signed : Bool) (x : ℤ) : Prop :=
  if signed then -2 ^ (N - 1) ≤ x ∧ x < 2 ^ (N - 1) else 0 ≤ x ∧ x < 2 ^ N

/-! ## The product -/

/-- The product of two words of 128 bits, in two halves. -/
theorem multiplyU128ToU256_eq {a b : ℕ} (ha : a < 2 ^ 128) (hb : b < 2 ^ 128) :
    multiplyU128ToU256 a b = (a * b / 2 ^ 128, a * b % 2 ^ 128) := by
  have ha0 : a % 2 ^ 64 ≤ 2 ^ 64 - 1 := by omega
  have ha1 : a / 2 ^ 64 ≤ 2 ^ 64 - 1 := by omega
  have hb0 : b % 2 ^ 64 ≤ 2 ^ 64 - 1 := by omega
  have hb1 : b / 2 ^ 64 ≤ 2 ^ 64 - 1 := by omega
  have hab : a * b = a / 2 ^ 64 * (b / 2 ^ 64) * 2 ^ 128 +
      (a % 2 ^ 64 * (b / 2 ^ 64) + a / 2 ^ 64 * (b % 2 ^ 64)) * 2 ^ 64 +
      a % 2 ^ 64 * (b % 2 ^ 64) := by
    conv_lhs => rw [← Nat.div_add_mod a (2 ^ 64), ← Nat.div_add_mod b (2 ^ 64)]
    ring
  have h0 := Nat.mul_le_mul ha0 hb0
  have h1 := Nat.mul_le_mul ha0 hb1
  have h2 := Nat.mul_le_mul ha1 hb0
  have h3 := Nat.mul_le_mul ha1 hb1
  rw [multiplyU128ToU256, hab]
  -- the four partial products are numbers of their own from here on
  generalize a % 2 ^ 64 * (b % 2 ^ 64) = c00 at *
  generalize a % 2 ^ 64 * (b / 2 ^ 64) = c64a at *
  generalize a / 2 ^ 64 * (b % 2 ^ 64) = c64b at *
  generalize a / 2 ^ 64 * (b / 2 ^ 64) = c128 at *
  rw [Nat.mod_eq_of_lt (by omega : c00 < 2 ^ 128), Nat.mod_eq_of_lt (by omega : c64a < 2 ^ 128),
    Nat.mod_eq_of_lt (by omega : c64b < 2 ^ 128), Nat.mod_eq_of_lt (by omega : c128 < 2 ^ 128)]
  congr 1
  · omega
  · omega

variable {N : ℕ}

theorem wideMultiply_eq {a b : ℕ} (ha : a < 2 ^ N) (hb : b < 2 ^ N) :
    wideMultiply N a b = (a * b / 2 ^ N, a * b % 2 ^ N) := by
  rw [wideMultiply]
  split_ifs with hN
  · subst hN
    exact multiplyU128ToU256_eq ha hb
  have hlt : a * b < 2 ^ (2 * N) := by
    rw [two_mul, pow_add]
    exact Nat.mul_lt_mul'' ha hb
  have hhi : a * b / 2 ^ N < 2 ^ N := by
    refine Nat.div_lt_of_lt_mul ?_
    rwa [← pow_add, ← two_mul]
  rw [Nat.mod_eq_of_lt hlt, Nat.mod_eq_of_lt hhi]

/-! ## One test -/

/-- What becomes of one value of the bits. -/
def accept (N R : ℕ) (bits : Fin (2 ^ N)) : Option ℕ :=
  if R &&& (R + 1) % 2 ^ N = 0 then some (bits &&& R)
  else if bits * (R + 1) % 2 ^ N < 2 ^ N % (R + 1) then none
  else some (bits * (R + 1) / 2 ^ N)

/-- The result of sampling, with the draws as numbers. -/
def values {N : ℕ} (r : ℕ × List (Fin (2 ^ N))) : ℕ × List ℕ := (r.1, r.2.map Fin.val)

variable {k R : ℕ}

/-- Unless the low bits are taken, `Lim` is `R + 1`. -/
theorem lim_eq (hR : R < 2 ^ N) (h : R &&& (R + 1) % 2 ^ N ≠ 0) : R + 1 < 2 ^ N := by
  refine lt_of_le_of_ne hR fun heq => h ?_
  rw [heq, Nat.mod_self, Nat.and_zero]

theorem rejectionLoop_eq (hlim : R + 1 < 2 ^ N)
    (h : R &&& (R + 1) % 2 ^ N ≠ 0) (draws : List (Fin (2 ^ N))) : ∀ bits : Fin (2 ^ N),
    rejectionLoop N (R + 1) (2 ^ N % (R + 1)) (wideMultiply N bits (R + 1)) (draws.map Fin.val)
      = (sample (accept N R) (bits :: draws)).map values := by
  induction draws with
  | nil =>
    intro bits
    rw [rejectionLoop.eq_def, wideMultiply_eq bits.isLt hlim, sample, accept, if_neg h]
    dsimp only [List.map_nil]
    split_ifs <;> rfl
  | cons next draws ih =>
    intro bits
    rw [List.map_cons, rejectionLoop, wideMultiply_eq bits.isLt hlim, sample, accept, if_neg h]
    split_ifs
    · exact ih next
    · rfl

/-- The generator is rejection sampling. -/
theorem generate_eq_sample (hR : R < 2 ^ N) (draws : List (Fin (2 ^ N))) :
    generate N R (draws.map Fin.val) = (sample (accept N R) draws).map values := by
  rcases draws with _ | ⟨bits, draws⟩
  · rfl
  rw [List.map_cons, generate]
  by_cases h : R &&& (R + 1) % 2 ^ N = 0
  · rw [if_pos h, sample, accept, if_pos h]
    rfl
  have hlim := lim_eq hR h
  have hthreshold : (2 ^ N - 1 - (R + 1) + 1) % (R + 1) = 2 ^ N % (R + 1) := by
    rw [Nat.mod_eq_sub_mod hlim.le]
    congr 1
    omega
  rw [if_neg h]
  dsimp only
  rw [Nat.mod_eq_of_lt hlim, hthreshold]
  split_ifs with hlow
  · exact rejectionLoop_eq hlim h draws bits
  -- the early test : a product that passes it also passes the other one
  rw [wideMultiply_eq bits.isLt hlim] at hlow ⊢
  have hmod : 2 ^ N % (R + 1) < R + 1 := Nat.mod_lt _ (Nat.succ_pos R)
  have hpass : ¬ (bits * (R + 1) % 2 ^ N < 2 ^ N % (R + 1)) := by
    omega
  rw [sample, accept, if_neg h, if_neg hpass]
  rfl

/-! ## Counting -/

/-- The multiples of `L` in an interval whose length is a multiple of `L`. -/
theorem card_multiples {L : ℕ} (hL : 0 < L) (A F M : ℕ) (hM : A + F * L ≤ M * L) :
    ((range M).filter fun b => A ≤ b * L ∧ b * L < A + F * L).card = F := by
  have hle : ∀ b, A ⌈/⌉ L ≤ b ↔ A ≤ b * L := fun b => by
    rw [ceilDiv_le_iff_le_mul hL, mul_comm]
  have hset : ((range M).filter fun b => A ≤ b * L ∧ b * L < A + F * L)
      = Finset.Ico (A ⌈/⌉ L) (A ⌈/⌉ L + F) := by
    ext b
    rw [mem_filter, mem_range, mem_Ico, hle]
    have hlt : b * L < A + F * L ↔ b < A ⌈/⌉ L + F := by
      rcases lt_or_ge b F with hb | hb
      · have := Nat.mul_lt_mul_of_pos_right hb hL
        constructor <;> intro <;> omega
      · obtain ⟨c, rfl⟩ := Nat.exists_eq_add_of_le hb
        rw [add_mul, add_comm A, Nat.add_lt_add_iff_left, add_comm _ F, Nat.add_lt_add_iff_left,
          ← not_le, ← hle, not_le]
    rw [hlt]
    constructor
    · rintro ⟨-, h⟩
      exact h
    · rintro ⟨h1, h2⟩
      exact ⟨Nat.lt_of_mul_lt_mul_right (lt_of_lt_of_le (hlt.2 h2) hM), h1, h2⟩
  rw [hset, Nat.card_Ico, Nat.add_sub_cancel_left]

theorem card_fin_filter (n : ℕ) (p : ℕ → Prop) [DecidablePred p] :
    (univ.filter fun x : Fin n => p x).card = ((range n).filter p).card := by
  rw [← card_map Fin.valEmbedding]
  congr 1
  ext x
  simp only [mem_map, mem_filter, mem_univ, true_and, mem_range, Fin.valEmbedding_apply]
  constructor
  · rintro ⟨y, hy, rfl⟩
    exact ⟨y.isLt, hy⟩
  · rintro ⟨hx, hp⟩
    exact ⟨⟨x, hx⟩, hp, rfl⟩

variable {r : ℕ}

/-- By multiplication every result has as many draws. -/
theorem card_accepted_multiply (h : R &&& (R + 1) % 2 ^ N ≠ 0) (hr : r ≤ R) :
    (accepted (accept N R) r).card = 2 ^ N / (R + 1) := by
  have hpow : 0 < 2 ^ N := Nat.two_pow_pos N
  have hsplit : 2 ^ N = 2 ^ N / (R + 1) * (R + 1) + 2 ^ N % (R + 1) := (Nat.div_add_mod' _ _).symm
  have hend : r * 2 ^ N + 2 ^ N % (R + 1) + 2 ^ N / (R + 1) * (R + 1) = (r + 1) * 2 ^ N := by
    rw [add_mul, one_mul]
    omega
  have hM : (r + 1) * 2 ^ N ≤ 2 ^ N * (R + 1) := by
    rw [mul_comm]
    exact Nat.mul_le_mul_left _ (by omega)
  have hset : accepted (accept N R) r = univ.filter fun bits : Fin (2 ^ N) =>
      r * 2 ^ N + 2 ^ N % (R + 1) ≤ bits * (R + 1) ∧
        bits * (R + 1) < r * 2 ^ N + 2 ^ N % (R + 1) + 2 ^ N / (R + 1) * (R + 1) := by
    ext bits
    rw [accepted, mem_filter, mem_filter, accept, if_neg h, hend]
    have hdm := Nat.div_add_mod' (bits * (R + 1)) (2 ^ N)
    have hq : (bits * (R + 1) : ℕ) / 2 ^ N = r ↔
        r * 2 ^ N ≤ bits * (R + 1) ∧ bits * (R + 1) < (r + 1) * 2 ^ N := by
      constructor
      · rintro rfl
        refine ⟨Nat.div_mul_le_self _ _, ?_⟩
        rw [mul_comm (_ + 1)]
        exact Nat.lt_mul_div_succ _ hpow
      · rintro ⟨h1, h2⟩
        exact Nat.div_eq_of_lt_le h1 h2
    simp only [mem_univ, true_and]
    split_ifs with hlow
    · -- a rejected product is too close to the lower end of its interval
      refine iff_of_false (by simp) ?_
      rintro ⟨h1, h2⟩
      rw [hq.2 ⟨by omega, h2⟩] at hdm
      omega
    · rw [Option.some.injEq, hq]
      constructor
      · rintro ⟨h1, h2⟩
        rw [hq.2 ⟨h1, h2⟩] at hdm
        exact ⟨by omega, h2⟩
      · rintro ⟨h1, h2⟩
        exact ⟨by omega, h2⟩
  rw [hset, card_fin_filter (2 ^ N) fun b => r * 2 ^ N + 2 ^ N % (R + 1) ≤ b * (R + 1) ∧
    b * (R + 1) < r * 2 ^ N + 2 ^ N % (R + 1) + 2 ^ N / (R + 1) * (R + 1)]
  exact card_multiples (Nat.succ_pos R) _ _ _ (by rw [hend]; exact hM)

/-- The low bits are taken if `R + 1` is a power of two. -/
theorem exists_pow_of_and (hR : R < 2 ^ N) (h : R &&& (R + 1) % 2 ^ N = 0) :
    ∃ k, k ≤ N ∧ R + 1 = 2 ^ k := by
  rcases lt_or_ge (R + 1) (2 ^ N) with hlt | hge
  · rw [Nat.mod_eq_of_lt hlt, Nat.and_comm] at h
    obtain ⟨k, hk⟩ := (Nat.and_sub_one_eq_zero_iff_isPowerOfTwo (Nat.succ_ne_zero R)).1 h
    change R + 1 = 2 ^ k at hk
    refine ⟨k, ?_, hk⟩
    rw [hk] at hlt
    exact ((Nat.pow_lt_pow_iff_right (by norm_num)).1 hlt).le
  · exact ⟨N, le_rfl, by omega⟩

/-- By the mask every result has as many draws. -/
theorem card_accepted_mask (hk : k ≤ N) (hr : r < 2 ^ k) :
    (Finset.univ.filter fun bits : Fin (2 ^ N) => (bits : ℕ) % 2 ^ k = r).card = 2 ^ N / 2 ^ k := by
  have hmod := Nat.mod_eq_zero_of_dvd (pow_dvd_pow 2 hk)
  have hcount := Nat.count_modEq_card (2 ^ N) (Nat.two_pow_pos k) r
  rw [hmod, if_neg (Nat.not_lt_zero _), add_zero, Nat.count_eq_card_filter_range] at hcount
  rw [← hcount, card_fin_filter (2 ^ N) fun b => b % 2 ^ k = r]
  congr 1
  ext b
  rw [mem_filter, mem_filter, Nat.ModEq, Nat.mod_eq_of_lt hr]

/-- Every result has as many draws. -/
theorem card_accepted (hR : R < 2 ^ N) (hr : r ≤ R) :
    (accepted (accept N R) r).card = 2 ^ N / (R + 1) := by
  by_cases h : R &&& (R + 1) % 2 ^ N = 0
  · obtain ⟨k, hk, hRk⟩ := exists_pow_of_and hR h
    have hmask : ∀ bits, (bits : ℕ) &&& R = bits % 2 ^ k := fun bits => by
      rw [show R = 2 ^ k - 1 by omega, Nat.and_two_pow_sub_one_eq_mod]
    rw [hRk, ← card_accepted_mask hk (r := r) (by omega), accepted]
    congr 1
    ext bits
    rw [mem_filter, mem_filter, accept, if_pos h, hmask, Option.some.injEq]
  · exact card_accepted_multiply h hr

theorem accept_le {bits : Fin (2 ^ N)} (h : accept N R bits = some r) : r ≤ R := by
  rw [accept] at h
  split_ifs at h
  · obtain rfl := Option.some.inj h
    exact Nat.and_le_right
  · obtain rfl := Option.some.inj h
    refine Nat.lt_succ_iff.1 (Nat.div_lt_of_lt_mul ?_)
    exact Nat.mul_lt_mul_of_pos_right bits.isLt (Nat.succ_pos R)

/-- The draws that are rejected. -/
theorem card_rejected (hR : R < 2 ^ N) : (rejected (accept N R)).card = 2 ^ N % (R + 1) := by
  have h := card_rejected_add (accept N R) (range (R + 1)) fun bits r hr =>
    mem_range.2 (Nat.lt_succ_of_le (accept_le hr))
  rw [sum_congr rfl fun r hr =>
    card_accepted hR (Nat.lt_succ_iff.1 (mem_range.1 hr)), sum_const,
    card_range, smul_eq_mul, Fintype.card_fin] at h
  have hdm := Nat.div_add_mod (2 ^ N) (R + 1)
  rw [Nat.succ_eq_add_one] at h
  omega

/-! ## Results -/

/-- `Generate` with the range `R` is uniform. -/
structure Uniform (N R : ℕ) : Prop where
  /-- The same number of values of the bits is accepted as each result. -/
  accepted : ∀ r ≤ R, (univ.filter fun bits : Fin (2 ^ N) =>
    generate N R [(bits : ℕ)] = some (r, [])).card = 2 ^ N / (R + 1)
  /-- The rest is rejected : nothing if `R + 1` is a power of two, and always less than half. -/
  rejected : (univ.filter fun bits : Fin (2 ^ N) => generate N R [(bits : ℕ)] = none).card
    = 2 ^ N % (R + 1)
  rejected_pow : ∀ k, R + 1 = 2 ^ k → 2 ^ N % (R + 1) = 0
  rejected_lt : 2 * (2 ^ N % (R + 1)) < 2 ^ N
  /-- There are no other results. -/
  result_le : ∀ (draws : List (Fin (2 ^ N))) (r : ℕ) (rest : List ℕ),
    generate N R (draws.map Fin.val) = some (r, rest) → r ≤ R
  /-- Each result has the same number of runs, for any number of draws. -/
  runs : ∀ n : ℕ, ∀ r ≤ R, (univ.filter fun run : Fin (n + 1) → Fin (2 ^ N) =>
    generate N R ((List.ofFn run).map Fin.val) = some (r, [])).card
      = (2 ^ N % (R + 1)) ^ n * (2 ^ N / (R + 1))

/-- The results in `[lo, hi]` of the distribution are equally likely. -/
structure EquallyLikely (N : ℕ) (signed : Bool) (lo hi : ℤ) : Prop where
  mem : ∀ (draws : List (Fin (2 ^ N))) (x : ℤ) (rest : List ℕ),
    call N signed (paramType N lo hi) (draws.map Fin.val) = some (x, rest) → lo ≤ x ∧ x ≤ hi
  runs : ∀ n : ℕ, ∀ x, lo ≤ x → x ≤ hi →
    (univ.filter fun run : Fin (n + 1) → Fin (2 ^ N) =>
      call N signed (paramType N lo hi) ((List.ofFn run).map Fin.val) = some (x, [])).card
      = (2 ^ N % ((hi - lo).toNat + 1)) ^ n * (2 ^ N / ((hi - lo).toNat + 1))

theorem sample_map_values {draws : List (Fin (2 ^ N))} :
    (sample (accept N R) draws).map values = some (r, []) ↔
      sample (accept N R) draws = some (r, []) := by
  rcases sample _ draws with _ | ⟨r', rest⟩
  · simp
  · simp [values]

theorem generate_uniform (hR : R < 2 ^ N) : Uniform N R := by
  have hone : ∀ bits : Fin (2 ^ N), generate N R [(bits : ℕ)]
      = (sample (accept N R) [bits]).map values := fun bits =>
    generate_eq_sample hR [bits]
  have hsample : ∀ bits, sample (accept N R) [bits]
      = (accept N R bits).map (·, []) := fun bits => by
    rw [sample]
    rcases accept N R bits with _ | r <;> rfl
  refine ⟨fun r hr => ?_, ?_, fun k hk => ?_, ?_, fun draws r rest h => ?_, fun n r hr => ?_⟩
  · rw [← card_accepted hR hr, accepted]
    congr 1
    ext bits
    rw [mem_filter, mem_filter, hone, hsample]
    rcases accept N R bits with _ | r' <;> simp [values]
  · rw [← card_rejected hR, rejected]
    congr 1
    ext bits
    rw [mem_filter, mem_filter, hone, hsample]
    rcases accept N R bits with _ | r' <;> simp
  · have hle : 2 ^ k ≤ 2 ^ N := by omega
    rw [hk]
    exact Nat.mod_eq_zero_of_dvd
      (pow_dvd_pow 2 ((Nat.pow_le_pow_iff_right (by norm_num : 1 < 2)).1 hle))
  · have hmod : 2 ^ N % (R + 1) < R + 1 := Nat.mod_lt _ (Nat.succ_pos R)
    have hdm := Nat.div_add_mod (2 ^ N) (R + 1)
    have hq : 0 < 2 ^ N / (R + 1) := Nat.div_pos hR (Nat.succ_pos R)
    have := Nat.le_mul_of_pos_right (R + 1) hq
    omega
  · rw [generate_eq_sample hR] at h
    obtain ⟨⟨r', rest'⟩, hs, hv⟩ := Option.map_eq_some_iff.1 h
    obtain ⟨rfl, -⟩ := Prod.mk.inj hv
    obtain ⟨bits, -, hb⟩ := sample_mem hs
    exact accept_le hb
  · rw [← card_rejected hR, ← card_accepted hR hr, ← card_runs, runs]
    congr 1
    ext run
    rw [mem_filter, mem_filter, generate_eq_sample hR, sample_map_values]

section

variable {signed : Bool} {lo hi : ℤ} (hN : 0 < N)
include hN

/-- A value of the type is converted to itself. -/
theorem toResult_eq {x : ℤ} (hx : InType N signed x) : toResult N signed x = x := by
  have hpow : (2 : ℤ) ^ N = 2 * 2 ^ (N - 1) := by
    rw [← pow_succ', Nat.sub_add_cancel hN]
  cases signed with
  | true =>
    obtain ⟨h1, h2⟩ : -2 ^ (N - 1) ≤ x ∧ x < 2 ^ (N - 1) := hx
    rw [toResult, if_pos rfl]
    refine Int.bmod_eq_of_le ?_ ?_
    · push_cast
      omega
    · push_cast
      omega
  | false =>
    obtain ⟨h1, h2⟩ : 0 ≤ x ∧ x < 2 ^ N := hx
    rw [toResult, if_neg (by simp), Int.emod_eq_of_lt h1 h2]

variable (hlo : InType N signed lo) (hhi : InType N signed hi)
include hlo hhi

theorem range_eq (h : lo ≤ hi) :
    (paramType N lo hi).range = (hi - lo).toNat ∧ (hi - lo).toNat < 2 ^ N := by
  have hpow : (2 : ℤ) ^ N = 2 * 2 ^ (N - 1) := by
    rw [← pow_succ', Nat.sub_add_cancel hN]
  have hlt : hi - lo < 2 ^ N := by
    cases signed with
    | true =>
      obtain ⟨h1, -⟩ : -2 ^ (N - 1) ≤ lo ∧ _ := hlo
      obtain ⟨-, h2⟩ : _ ∧ hi < 2 ^ (N - 1) := hhi
      linarith
    | false =>
      obtain ⟨h1, -⟩ : 0 ≤ lo ∧ _ := hlo
      obtain ⟨-, h2⟩ : _ ∧ hi < 2 ^ N := hhi
      linarith
  refine ⟨?_, ?_⟩
  · rw [paramType]
    rw [← Int.sub_emod, Int.emod_eq_of_lt (by omega) hlt]
  · have : ((hi - lo).toNat : ℤ) < (2 : ℤ) ^ N := by rwa [Int.toNat_of_nonneg (by omega)]
    exact_mod_cast this

/-- Adding a result to the lower bound stays in the type. -/
theorem toResult_add {r : ℕ} (hr : lo + r ≤ hi) : toResult N signed (lo + r) = lo + r := by
  refine toResult_eq hN ?_
  cases signed with
  | true | false => exact ⟨le_trans hlo.1 (by omega), lt_of_le_of_lt hr hhi.2⟩

theorem call_equallyLikely (h : lo ≤ hi) : EquallyLikely N signed lo hi := by
  obtain ⟨hrange, hlt⟩ := range_eq hN hlo hhi h
  have huniform := generate_uniform hlt
  -- what a call returns is the lower bound and a result
  have hcall : ∀ (draws : List (Fin (2 ^ N))) x rest,
      call N signed (paramType N lo hi) (draws.map Fin.val) = some (x, rest) ↔
        ∃ r : ℕ, x = lo + r ∧ generate N (hi - lo).toNat (draws.map Fin.val) = some (r, rest) := by
    intro draws x rest
    rw [call, hrange]
    constructor
    · intro hc
      obtain ⟨⟨r, rest'⟩, hg, hx⟩ := Option.bind_eq_some_iff.1 hc
      obtain ⟨rfl, rfl⟩ := Prod.mk.inj (Option.some.inj hx)
      have hr := huniform.result_le draws r rest' hg
      exact ⟨r, toResult_add hN hlo hhi (by omega), hg⟩
    · rintro ⟨r, rfl, hg⟩
      have hr := huniform.result_le draws r rest hg
      refine Option.bind_eq_some_iff.2 ⟨(r, rest), hg, ?_⟩
      change some (toResult N signed (lo + r), rest) = _
      rw [toResult_add hN hlo hhi (by omega)]
  refine ⟨fun draws x rest hc => ?_, fun n x hx hx' => ?_⟩
  · obtain ⟨r, rfl, hg⟩ := (hcall draws x rest).1 hc
    have hr := huniform.result_le draws r rest hg
    exact ⟨by omega, by omega⟩
  rw [← huniform.runs n (x - lo).toNat (by omega)]
  congr 1
  ext run
  rw [mem_filter, mem_filter, hcall]
  constructor
  · rintro ⟨-, r, rfl, hg⟩
    refine ⟨mem_univ _, ?_⟩
    rwa [add_sub_cancel_left, Int.toNat_natCast]
  · rintro ⟨-, hg⟩
    exact ⟨mem_univ _, (x - lo).toNat, by omega, hg⟩

end

/-- Uniform integers are exactly uniform, for words of every width, and stay between the bounds. -/
theorem uniformInt_uniform (N : ℕ) (hN : N ∈ [8, 16, 32, 64, 128]) :
    (∀ R < 2 ^ N, Uniform N R) ∧ ∀ (signed : Bool) (lo hi : ℤ), InType N signed lo →
      InType N signed hi → lo ≤ hi → EquallyLikely N signed lo hi := by
  have hpos : 0 < N := by
    simp only [List.mem_cons, List.not_mem_nil, or_false] at hN
    omega
  exact ⟨fun R hR => generate_uniform hR, fun signed lo hi hlo hhi h =>
    call_equallyLikely hpos hlo hhi h⟩

/-- A die thrown with eight bits. -/
theorem uniformInt_uniform_die : Uniform 8 5 ∧ EquallyLikely 8 true 1 6 :=
  ⟨(uniformInt_uniform 8 (by decide)).1 5 (by norm_num),
    (uniformInt_uniform 8 (by decide)).2 true 1 6 ⟨by norm_num, by norm_num⟩
      ⟨by norm_num, by norm_num⟩ (by norm_num)⟩

end Abseil.UniformInt
