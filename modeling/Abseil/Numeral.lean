import Mathlib.Tactic

/-!
# Positional numerals

The digits of a natural number in a base, the most significant first : `numeral`
without leading zeros (and `[0]` for zero) and `padded` in a given width. `readDigits` is
the value a reader builds up digit by digit.

Three facts connect them : reading a numeral gives the number back, a numeral
splits at any digit into the numeral of the quotient and the padded remainder, and
a padded number without its leading zeros is its numeral. `text` writes digits as
ASCII bytes.
-/

namespace Positional

open List Nat

/-- The digits of `n` in base `b` without leading zeros. -/
def numeral (b n : ℕ) : List ℕ := if n = 0 then [0] else (digits b n).reverse

/-- The last `w` digits of `n` in base `b`. -/
def padded (b : ℕ) : ℕ → ℕ → List ℕ
  | 0, _ => []
  | w + 1, n => padded b w (n / b) ++ [n % b]

/-- The value of `v` followed by the digits `ds`. -/
def readDigits (b v : ℕ) (ds : List ℕ) : ℕ := ds.foldl (fun v d => v * b + d) v

/-! ## Reading -/

@[simp] theorem readDigits_nil (b v : ℕ) : readDigits b v [] = v := rfl

@[simp] theorem readDigits_cons (b v d : ℕ) (ds : List ℕ) :
    readDigits b v (d :: ds) = readDigits b (v * b + d) ds := rfl

/-- Digits are read one part after the other. -/
@[simp] theorem readDigits_append (b v : ℕ) (ds es : List ℕ) :
    readDigits b v (ds ++ es) = readDigits b (readDigits b v ds) es := by
  rw [readDigits, foldl_append]
  rfl

variable {b : ℕ}

theorem le_readDigits (hb : 0 < b) : ∀ v ds, v ≤ readDigits b v ds
  | v, [] => le_rfl
  | v, d :: ds => by
    have h := le_readDigits hb (v * b + d) ds
    have hv := Nat.le_mul_of_pos_right v hb
    rw [readDigits_cons]
    omega

theorem readDigits_lt : ∀ {ds : List ℕ} {v : ℕ}, (∀ d ∈ ds, d < b) →
    readDigits b v ds < (v + 1) * b ^ ds.length
  | [], v, _ => by simp
  | d :: ds, v, h => by
    have hd := h d mem_cons_self
    have ih := readDigits_lt (v := v * b + d) fun x hx => h x (mem_cons_of_mem d hx)
    have hle : (v * b + d + 1) * b ^ ds.length ≤ ((v + 1) * b) * b ^ ds.length :=
      mul_le_mul_right _ (by rw [add_mul, one_mul]; omega)
    rw [readDigits_cons, length_cons, pow_succ', ← mul_assoc]
    exact ih.trans_le hle

/-- A number of so many digits is below that power of the base. -/
theorem readDigits_lt_pow {ds : List ℕ} (h : ∀ d ∈ ds, d < b) :
    readDigits b 0 ds < b ^ ds.length := by
  simpa using readDigits_lt (v := 0) h

theorem readDigits_eq_ofDigits (b : ℕ) : ∀ v ds,
    readDigits b v ds = v * b ^ ds.length + ofDigits b ds.reverse
  | v, [] => by simp
  | v, d :: ds => by
    rw [readDigits_cons, readDigits_eq_ofDigits b (v * b + d) ds, reverse_cons, ofDigits_append,
      length_reverse, ofDigits_singleton, length_cons]
    ring

/-- Zeros behind the digits multiply the value. -/
theorem readDigits_replicate_zero (b v : ℕ) : ∀ k, readDigits b v (replicate k 0) = v * b ^ k
  | 0 => by simp
  | k + 1 => by
    rw [replicate_succ, readDigits_cons, readDigits_replicate_zero b _ k]
    ring

/-! ## Numerals -/

theorem numeral_ne_nil (b n : ℕ) : numeral b n ≠ [] := by
  unfold numeral
  split_ifs with h
  · simp
  · rw [ne_eq, reverse_eq_nil_iff]
    exact digits_ne_nil_iff_ne_zero.mpr h

variable {n d : ℕ}

theorem numeral_lt (hb : 1 < b) (h : d ∈ numeral b n) : d < b := by
  unfold numeral at h
  split_ifs at h
  · rw [mem_singleton] at h
    omega
  · exact digits_lt_base hb (mem_reverse.mp h)

theorem numeral_of_lt (h : n < b) : numeral b n = [n] := by
  unfold numeral
  split_ifs with h0
  · rw [h0]
  · rw [digits_of_lt b n h0 h, reverse_singleton]

/-- The last digit of a numeral is the remainder. -/
theorem numeral_of_ge (hb : 1 < b) (h : b ≤ n) : numeral b n = numeral b (n / b) ++ [n % b] := by
  have hn : n ≠ 0 := by omega
  have hdiv : n / b ≠ 0 := (div_pos h (by omega)).ne'
  rw [numeral, if_neg hn, numeral, if_neg hdiv, digits_def' hb (by omega), reverse_cons]

/-- A numeral is read back. -/
theorem readDigits_numeral (b n : ℕ) : readDigits b 0 (numeral b n) = n := by
  unfold numeral
  split_ifs with h
  · simp [h]
  · rw [readDigits_eq_ofDigits, reverse_reverse, ofDigits_digits, zero_mul, zero_add]

/-- The numeral of another number than zero starts with another digit than zero. -/
theorem head_numeral (b : ℕ) (h : n ≠ 0) : ∃ d ds, numeral b n = d :: ds ∧ d ≠ 0 := by
  have hne : digits b n ≠ [] := digits_ne_nil_iff_ne_zero.mpr h
  refine ⟨(digits b n).getLast hne, (digits b n).dropLast.reverse, ?_, getLast_digit_ne_zero b h⟩
  rw [numeral, if_neg h]
  conv_lhs => rw [← dropLast_append_getLast hne]
  rw [reverse_append, reverse_singleton, singleton_append]

/-! ## Padded digits -/

@[simp] theorem length_padded (b : ℕ) : ∀ w n, (padded b w n).length = w
  | 0, _ => rfl
  | w + 1, n => by rw [padded, length_append, length_padded b w, length_singleton]

theorem padded_lt (hb : 0 < b) : ∀ {w n d : ℕ}, d ∈ padded b w n → d < b
  | 0, n, d, h => by simp [padded] at h
  | w + 1, n, d, h => by
    rw [padded, mem_append, mem_singleton] at h
    rcases h with h | rfl
    · exact padded_lt hb h
    · exact mod_lt n hb

/-- A padded numeral is read back. -/
theorem readDigits_padded (hb : 0 < b) : ∀ {w n : ℕ} (v : ℕ), n < b ^ w →
    readDigits b v (padded b w n) = v * b ^ w + n
  | 0, n, v, h => by
    rw [pow_zero, lt_one_iff] at h
    simp [padded, h]
  | w + 1, n, v, h => by
    have hdiv := Nat.div_lt_of_lt_mul (by rwa [pow_succ, mul_comm] at h)
    rw [padded, readDigits_append, readDigits_padded hb v hdiv, readDigits_cons, readDigits_nil,
      pow_succ, ← mul_assoc, add_mul, add_assoc, mul_comm (n / b), div_add_mod]

theorem padded_zero (b : ℕ) : ∀ w, padded b w 0 = replicate w 0
  | 0 => rfl
  | w + 1 => by
    rw [padded, Nat.zero_div, zero_mod, padded_zero b w, replicate_succ']

/-- A padded numeral is split at a digit. -/
theorem padded_add (w : ℕ) : ∀ k n,
    padded b (w + k) n = padded b w (n / b ^ k) ++ padded b k n
  | 0, n => by simp [padded]
  | k + 1, n => by
    rw [← add_assoc, padded, padded_add w k (n / b), padded, ← append_assoc,
      Nat.div_div_eq_div_mul, pow_succ']

theorem padded_mod : ∀ k n, padded b k (n % b ^ k) = padded b k n
  | 0, _ => rfl
  | k + 1, n => by
    rw [padded, padded, pow_succ', mod_mul_right_div_self, padded_mod k (n / b), mod_mul_right_mod]

/-- A numeral splits into the numeral of the quotient and the padded remainder. -/
theorem numeral_append (hb : 1 < b) {a : ℕ} (ha : a ≠ 0) : ∀ {k r : ℕ}, r < b ^ k →
    numeral b (a * b ^ k + r) = numeral b a ++ padded b k r
  | 0, r, h => by
    rw [pow_zero, lt_one_iff] at h
    simp [padded, h]
  | k + 1, r, h => by
    have hdiv := Nat.div_lt_of_lt_mul (by rwa [pow_succ, mul_comm] at h)
    have hsplit : a * b ^ (k + 1) + r = b * (a * b ^ k) + r := by ring
    have hge : b ≤ a * b ^ (k + 1) + r := by
      have : 0 < a * b ^ k := mul_pos (pos_of_ne_zero ha) (by positivity)
      rw [hsplit]
      nlinarith
    rw [numeral_of_ge hb hge, hsplit, mul_add_div (by omega), mul_add_mod,
      numeral_append hb ha hdiv, padded, append_assoc]

/-- Without its leading zeros a padded number is its numeral. -/
theorem padded_eq_numeral (hb : 1 < b) : ∀ {w n : ℕ}, n ≠ 0 → n < b ^ w →
    ∃ k, padded b w n = replicate k 0 ++ numeral b n
  | 0, n, h0, h => by
    rw [pow_zero, lt_one_iff] at h
    exact absurd h h0
  | w + 1, n, h0, h => by
    have hdiv := Nat.div_lt_of_lt_mul (by rwa [pow_succ, mul_comm] at h)
    rcases Nat.lt_or_ge n b with hlt | hge
    · refine ⟨w, ?_⟩
      rw [padded, div_eq_of_lt hlt, mod_eq_of_lt hlt, numeral_of_lt hlt, padded_zero]
    · obtain ⟨k, hk⟩ := padded_eq_numeral hb (div_pos hge (by omega)).ne' hdiv
      exact ⟨k, by rw [padded, hk, append_assoc, ← numeral_of_ge hb hge]⟩

/-- A numeral has no more digits than its bound. -/
theorem length_numeral_le {w : ℕ} (hw : 0 < w) (h : n < 10 ^ w) : (numeral 10 n).length ≤ w := by
  rcases Nat.eq_zero_or_pos n with rfl | hpos
  · exact hw
  obtain ⟨k, hk⟩ := padded_eq_numeral (by decide) hpos.ne' h
  have hlen := congrArg length hk
  rw [length_padded, length_append, length_replicate] at hlen
  omega

/-! ## Decimal text -/

/-- The ASCII byte of a digit. -/
def digitByte (d : ℕ) : UInt8 := UInt8.ofNat (48 + d)

/-- The bytes of a list of digits. -/
def text (ds : List ℕ) : List UInt8 := ds.map digitByte

theorem toNat_digitByte (h : d < 10) : (digitByte d).toNat = 48 + d := by
  rw [digitByte, UInt8.toNat_ofNat']
  omega

theorem digitByte_eq_iff (h : d < 10) : digitByte d = 48 ↔ d = 0 := by
  rw [← UInt8.toNat_inj, toNat_digitByte h]
  simp

theorem text_append (ds es : List ℕ) : text (ds ++ es) = text ds ++ text es := map_append

@[simp] theorem length_text (ds : List ℕ) : (text ds).length = ds.length := length_map _

end Positional
