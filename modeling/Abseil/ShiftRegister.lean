import Mathlib.Tactic

/-!
# Shift registers with feedback

A register of `w` bits holds a polynomial over the field of two elements modulo one of degree
`w`, the constant term in the most significant bit. `step p` multiplies by the indeterminate : it
shifts right and adds the feedback `p` when a one falls out. Steps are linear, so the
product `mul` of two registers is a sum of steps; `one` is its unit, and any number of steps is a
product with a fixed register (`mul_steps_one`).

A wider register with the same feedback does the same to small values (`steps_setWidth`), which is
how a product is reduced a byte at a time.
-/

namespace ShiftRegister

open List BitVec

variable {w : ℕ}

/-- One bit : shift right, and add the feedback when the dropped bit is one. -/
def step (p c : BitVec w) : BitVec w := if c.getLsbD 0 then (c >>> 1) ^^^ p else c >>> 1

/-- `n` bits. -/
def steps (p : BitVec w) : ℕ → BitVec w → BitVec w
  | 0, c => c
  | n + 1, c => step p (steps p n c)

/-- One bit of data : the dropped bit is added to it before the feedback is decided. -/
def feed (p c : BitVec w) (b : Bool) : BitVec w :=
  if c.getLsbD 0 ^^ b then (c >>> 1) ^^^ p else c >>> 1

/-- The register when it is selected. -/
def pick (b : Bool) (c : BitVec w) : BitVec w := if b then c else 0

/-- The sum of the selected ones among `c`, `step p c`, .., `n` of them. -/
def sum (p : BitVec w) (sel : ℕ → Bool) (c : BitVec w) : ℕ → BitVec w
  | 0 => 0
  | n + 1 => sum p sel c n ^^^ pick (sel n) (steps p n c)

/-- The product. -/
def mul (p a b : BitVec w) : BitVec w := sum p a.getMsbD b w

/-- The register of the constant polynomial one. -/
def one : BitVec w := twoPow w (w - 1)

/-- A map that respects sums. -/
structure Linear {v : ℕ} (f : BitVec w → BitVec v) : Prop where
  map_zero : f 0 = 0
  map_xor : ∀ a b, f (a ^^^ b) = f a ^^^ f b

/-! ## Exclusive or -/

variable {v : ℕ} (p a b : BitVec w) (sel : ℕ → Bool) (m n : ℕ) (c d : BitVec w)

theorem xor_xor_xor_comm : (a ^^^ b) ^^^ (c ^^^ d) = (a ^^^ c) ^^^ (b ^^^ d) := by
  rw [BitVec.xor_assoc, ← BitVec.xor_assoc b, BitVec.xor_comm b, BitVec.xor_assoc c,
    ← BitVec.xor_assoc]

theorem xor_cancel_left : a ^^^ (a ^^^ b) = b := by
  rw [← BitVec.xor_assoc, BitVec.xor_self, BitVec.zero_xor]

theorem Linear.map_pick {f : BitVec w → BitVec v} (h : Linear f) (b : Bool) (c : BitVec w) :
    f (pick b c) = pick b (f c) := by
  cases b
  · exact h.map_zero
  · rfl

/-! ## Steps -/

/-- A step shifts and adds the polynomial for the bit that fell out. -/
theorem step_eq : step p c = (c >>> 1) ^^^ pick (c.getLsbD 0) p := by
  unfold step pick
  split_ifs
  · rfl
  · exact xor_zero.symm

theorem pick_bne (a b : Bool) (c : BitVec w) : pick (a ^^ b) c = pick a c ^^^ pick b c := by
  cases a <;> cases b <;> simp [pick]

theorem linear_step : Linear (step p) where
  map_zero := by simp [step]
  map_xor a b := by
    simp only [step_eq, ushiftRight_xor_distrib, getLsbD_xor, pick_bne, xor_xor_xor_comm]

theorem linear_steps (p : BitVec w) : ∀ n, Linear (steps p n)
  | 0 => ⟨rfl, fun _ _ => rfl⟩
  | n + 1 => by
    have ih := linear_steps p n
    refine ⟨?_, fun a b => ?_⟩
    · rw [steps, ih.map_zero, (linear_step p).map_zero]
    · rw [steps, ih.map_xor, (linear_step p).map_xor]
      rfl

/-- Steps add up. -/
theorem steps_add (p : BitVec w) (m : ℕ) : ∀ n c,
    steps p (m + n) c = steps p n (steps p m c)
  | 0, _ => rfl
  | n + 1, c => congrArg (step p) (steps_add p m n c)

theorem steps_succ' : steps p (n + 1) c = steps p n (step p c) := by
  rw [add_comm, steps_add]
  rfl

theorem steps_mul (p : BitVec w) (m : ℕ) : ∀ n c,
    (steps p m)^[n] c = steps p (m * n) c
  | 0, _ => rfl
  | n + 1, c => by
    rw [Function.iterate_succ_apply', steps_mul p m n, Nat.mul_succ, steps_add]

/-- A register whose low bits are zero is only shifted. -/
theorem steps_of_low_zero (p : BitVec w) : ∀ n c,
    (∀ i < n, c.getLsbD i = false) → steps p n c = c >>> n
  | 0, c, _ => (ushiftRight_zero c).symm
  | n + 1, c, h => by
    have hlow : (c >>> n).getLsbD 0 = false := by
      rw [getLsbD_ushiftRight]
      exact h n (Nat.lt_succ_self n)
    rw [steps, steps_of_low_zero p n c fun i hi => h i (Nat.lt_succ_of_lt hi), step_eq, hlow,
      shiftRight_add]
    exact xor_zero

theorem steps_shiftLeft : steps p n (c <<< n) = c <<< n >>> n :=
  steps_of_low_zero p n _ fun i hi => by simp [getLsbD_shiftLeft, hi]

/-- The low bits go through the feedback, the others are shifted. -/
theorem steps_split : steps p n c = (c >>> n) ^^^ steps p n (c ^^^ (c >>> n <<< n)) := by
  have hshift : c >>> n <<< n >>> n = c >>> n := by
    ext i hi
    by_cases h : n + i < w
    · simp [h]
    · simp [h, getLsbD_of_ge c _ (Nat.le_of_not_lt h)]
  rw [(linear_steps p n).map_xor, steps_shiftLeft, hshift, BitVec.xor_comm (steps p n c),
    xor_cancel_left]

/-! ## Feeding data -/

theorem feed_eq (b : Bool) : feed p c b = (c >>> 1) ^^^ pick (c.getLsbD 0 ^^ b) p := by
  unfold feed pick
  split_ifs
  · rfl
  · exact xor_zero.symm

/-- Adding data to the register beforehand feeds its lowest bit and keeps the others for later. -/
theorem step_xor : step p (c ^^^ d) = feed p c (d.getLsbD 0) ^^^ (d >>> 1) := by
  simp only [step_eq, feed_eq, ushiftRight_xor_distrib, getLsbD_xor, BitVec.xor_assoc,
    BitVec.xor_comm (d >>> 1)]

/-- Bits added to the register are fed to it. -/
theorem steps_xor (p c d : BitVec w) : ∀ n,
    steps p n (c ^^^ d) = ((range n).map d.getLsbD).foldl (feed p) c ^^^ (d >>> n)
  | 0 => by rw [steps, range_zero, map_nil, foldl_nil, ushiftRight_zero]
  | n + 1 => by
    rw [steps, steps_xor p c d n, step_xor, range_succ, map_append, foldl_append,
      getLsbD_ushiftRight, shiftRight_add]
    rfl

/-! ## A wider register -/

theorem step_setWidth (hv : w ≤ v) (p c : BitVec w) :
    step (p.setWidth v) (c.setWidth v) = (step p c).setWidth v := by
  have hshift : c.setWidth v >>> 1 = (c >>> 1).setWidth v := by
    ext i hi
    by_cases h : 1 + i < v
    · simp [h]
    · simp [h, getLsbD_of_ge c (1 + i) (by omega)]
  have hbit : (c.setWidth v).getLsbD 0 = c.getLsbD 0 := by
    rcases Nat.eq_zero_or_pos v with rfl | h
    · obtain rfl : w = 0 := Nat.le_zero.1 hv
      simp
    · simp [h]
  unfold step
  rw [hbit, hshift]
  split_ifs
  · exact setWidth_xor.symm
  · rfl

/-- A wider register with the same feedback does to a small value what the register does. -/
theorem steps_setWidth {v : ℕ} (hv : w ≤ v) (p : BitVec w) : ∀ n c,
    steps (p.setWidth v) n (c.setWidth v) = (steps p n c).setWidth v
  | 0, _ => rfl
  | n + 1, c => by rw [steps, steps_setWidth hv p n c, step_setWidth hv, steps]

/-! ## Sums of steps -/

theorem Linear.map_sum {f : BitVec w → BitVec w} (h : Linear f) (p : BitVec w)
    (hf : ∀ c, f (step p c) = step p (f c)) (sel : ℕ → Bool) (c : BitVec w) : ∀ n,
    f (sum p sel c n) = sum p sel (f c) n
  | 0 => h.map_zero
  | n + 1 => by
    have hsteps : ∀ m, f (steps p m c) = steps p m (f c) := fun m => by
      induction m with
      | zero => rfl
      | succ m ih => rw [steps, hf, ih, steps]
    rw [sum, h.map_xor, Linear.map_sum h p hf sel c n, h.map_pick, hsteps, sum]

theorem sum_step (n : ℕ) : sum p sel (step p c) n = step p (sum p sel c n) :=
  ((linear_step p).map_sum p (fun _ => rfl) sel c n).symm

/-- Horner's rule : the first summand apart, a step of the sum of the others. -/
theorem sum_succ' (p : BitVec w) (sel : ℕ → Bool) (c : BitVec w) : ∀ n,
    sum p sel c (n + 1) = step p (sum p (fun i => sel (i + 1)) c n) ^^^ pick (sel 0) c
  | 0 => by rw [sum, sum, sum, (linear_step p).map_zero, steps]
  | n + 1 => by
    rw [sum, sum_succ' p sel c n, sum, (linear_step p).map_xor, (linear_step p).map_pick, steps,
      BitVec.xor_assoc, BitVec.xor_comm (pick (sel 0) c), BitVec.xor_assoc]

/-- A sum is split, the second part behind `m` steps. -/
theorem sum_add (p : BitVec w) (sel : ℕ → Bool) (c : BitVec w) (m : ℕ) : ∀ n,
    sum p sel c (m + n) = sum p sel c m ^^^ steps p m (sum p (fun i => sel (m + i)) c n)
  | 0 => by
    rw [sum, (linear_steps p m).map_zero]
    exact xor_zero.symm
  | n + 1 => by
    rw [← add_assoc, sum, sum_add p sel c m n, sum, (linear_steps p m).map_xor,
      (linear_steps p m).map_pick, ← steps_add, add_comm n m, BitVec.xor_assoc]

theorem sum_congr (p : BitVec w) {sel sel' : ℕ → Bool} (c : BitVec w) : ∀ n,
    (∀ i < n, sel i = sel' i) → sum p sel c n = sum p sel' c n
  | 0, _ => rfl
  | n + 1, h => by
    rw [sum, sum, sum_congr p c n fun i hi => h i (Nat.lt_succ_of_lt hi), h n (Nat.lt_succ_self n)]

/-! ## The product -/

theorem mul_step : mul p a (step p b) = step p (mul p a b) := sum_step p _ b w

theorem steps_one (hn : n < w) : steps p n one = twoPow w (w - 1 - n) := by
  have hlow : ∀ i < n, (one : BitVec w).getLsbD i = false := fun i hi => by
    rw [one, getLsbD_twoPow]
    simp only [Bool.and_eq_false_iff, decide_eq_false_iff_not]
    omega
  rw [steps_of_low_zero p n one hlow]
  ext i hi
  simp only [one, getElem_ushiftRight, getLsbD_twoPow, getElem_twoPow]
  rw [Bool.eq_iff_iff]
  simp only [Bool.and_eq_true, decide_eq_true_eq]
  omega

theorem sum_one_getLsbD (p a : BitVec w) (i : ℕ) (hi : i < w) : ∀ n ≤ w,
    (sum p a.getMsbD one n).getLsbD i = (decide (w ≤ i + n) && a.getLsbD i)
  | 0, _ => by simp [sum, hi]
  | n + 1, hn => by
    rw [sum, getLsbD_xor, sum_one_getLsbD p a i hi n (by omega), steps_one p n hn]
    have hpick : (pick (a.getMsbD n) (twoPow w (w - 1 - n))).getLsbD i
        = (a.getMsbD n && decide (w - 1 - n = i)) := by
      unfold pick
      split_ifs with h
      · simp [h, getLsbD_twoPow, show w - 1 - n < w by omega]
      · simp [h]
    rw [hpick, getMsbD_eq_getLsbD]
    by_cases heq : w - 1 - n = i
    · subst heq
      simp [show n < w by omega, show ¬ w ≤ w - 1 - n + n by omega,
        show w ≤ w - 1 - n + (n + 1) by omega]
    · have hiff : w ≤ i + n ↔ w ≤ i + (n + 1) := by omega
      simp [heq, hiff]

/-- `one` is the unit. -/
theorem mul_one : mul p a one = a := by
  refine eq_of_getLsbD_eq fun i hi => ?_
  rw [mul, sum_one_getLsbD p a i hi w le_rfl]
  simp

theorem mul_steps (p a b : BitVec w) : ∀ n, mul p a (steps p n b) = steps p n (mul p a b)
  | 0 => rfl
  | n + 1 => by rw [steps, mul_step, mul_steps p a b n, steps]

/-- Any number of steps is a product with a fixed register. -/
theorem mul_steps_one : mul p c (steps p n one) = steps p n c := by
  rw [mul_steps, mul_one]

/-- Powers of `x` multiply by their exponents. -/
theorem mul_steps_steps : mul p (steps p m one) (steps p n one) = steps p (m + n) one := by
  rw [mul_steps_one, steps_add]

end ShiftRegister
