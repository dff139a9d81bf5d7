import Mathlib.Tactic

/-!
# Words stored into a byte buffer

A buffer is a list of bytes of fixed length and `put` stores bytes at a position, or
fails when they do not fit. `Written` says that a text was written at a position with
all before it kept, whatever stands behind it : a store wider than the text it is for
is `Written` with the part that counts (`put_written`), and texts written one after the
other make one text (`Written.append`).

`word` is the number that lanes of some width make up, the least significant first.
`leBytes` takes a word of bytes apart again. Multiplying all lanes of a word at once, shifting
and masking divides each lane by the same constant (`word_mul_div_and`).
-/

namespace ByteBuffer

open List Nat

/-- The number made up of lanes of `B` values, the least significant first. -/
def word (B : ℕ) : List ℕ → ℕ
  | [] => 0
  | b :: bs => b + B * word B bs

/-- The `w` low bytes of a number, the least significant first. -/
def leBytes : ℕ → ℕ → List UInt8
  | 0, _ => []
  | w + 1, x => UInt8.ofNat x :: leBytes w (x / 256)

/-- Store bytes at a position, if they fit. -/
def put (buf : List UInt8) (pos : ℕ) (bytes : List UInt8) : Option (List UInt8) :=
  if pos + bytes.length ≤ buf.length then
    some (buf.take pos ++ bytes ++ buf.drop (pos + bytes.length))
  else none

/-- `text` was written at `pos`. -/
structure Written (buf : List UInt8) (pos : ℕ) (text buf' : List UInt8) : Prop where
  length_eq : buf'.length = buf.length
  take_eq : buf'.take (pos + text.length) = buf.take pos ++ text

/-! ## Words -/

theorem word_lt {B : ℕ} : ∀ bs, (∀ b ∈ bs, b < B) → word B bs < B ^ bs.length
  | [], _ => by simp [word]
  | b :: bs, h => by
    have hb := h b mem_cons_self
    have hbs := word_lt bs fun x hx => h x (mem_cons_of_mem b hx)
    have hle : B * (word B bs + 1) ≤ B * B ^ bs.length := mul_le_mul_left B hbs
    rw [word, length_cons, pow_succ']
    rw [mul_add] at hle
    omega

theorem word_append (B : ℕ) : ∀ bs cs,
    word B (bs ++ cs) = word B bs + B ^ bs.length * word B cs
  | [], cs => by simp [word]
  | b :: bs, cs => by
    rw [cons_append, word, word, word_append B bs cs, length_cons]
    ring

theorem word_replicate_zero (B : ℕ) : ∀ k, word B (replicate k 0) = 0
  | 0 => rfl
  | k + 1 => by rw [replicate_succ, word, word_replicate_zero B k, mul_zero, zero_add]

/-- The number with each lane taken `m` times. -/
theorem word_mul (B m : ℕ) : ∀ bs, word B bs * m = word B (bs.map (· * m))
  | [] => zero_mul m
  | b :: bs => by
    rw [word, map_cons, word, ← word_mul B m bs]
    ring

/-- The number with `c` added in each lane. -/
theorem word_add_replicate (B c : ℕ) : ∀ bs,
    word B bs + word B (replicate bs.length c) = word B (bs.map (c + ·))
  | [] => rfl
  | b :: bs => by
    have h := word_add_replicate B c bs
    rw [length_cons, replicate_succ, word, word, map_cons, word, ← h]
    ring

/-! ## Division in lanes -/

/-- Masks work on the low part and the high part of a number apart. -/
theorem and_add_mul_pow {k l r h m : ℕ} (hl : l < 2 ^ k) (hr : r < 2 ^ k) :
    (l + 2 ^ k * h) &&& (r + 2 ^ k * m) = (l &&& r) + 2 ^ k * (h &&& m) := by
  have hlr : l &&& r < 2 ^ k := and_le_left.trans_lt hl
  apply eq_of_testBit_eq
  intro i
  rw [testBit_and, add_comm l, add_comm r, add_comm (l &&& r), testBit_two_pow_mul_add _ hl,
    testBit_two_pow_mul_add _ hr, testBit_two_pow_mul_add _ hlr]
  split_ifs <;> rw [testBit_and]

/-- Multiplying by `m` and shifting by `D` at once in all lanes : what runs over from the lane
above lands on bits that the mask clears. -/
theorem word_mul_div_and {k D C m w : ℕ} (hB : 2 ^ k = D * C) (hD : 0 < D) (hC : 2 ^ w ∣ C) :
    ∀ as, (∀ a ∈ as, a * m / D < 2 ^ w) →
      word (2 ^ k) as * m / D &&& word (2 ^ k) (replicate as.length (2 ^ w - 1))
        = word (2 ^ k) (as.map fun a => a * m / D)
  | [], _ => by simp [word]
  | a :: as, h => by
    have ha := h a mem_cons_self
    have ih := word_mul_div_and (m := m) hB hD hC as fun x hx => h x (mem_cons_of_mem a hx)
    have hCpos : 0 < C := pos_of_ne_zero fun h0 => by simp [h0] at hB
    have hwC : 2 ^ w ≤ C := le_of_dvd hCpos hC
    have hsplit : (a + 2 ^ k * word (2 ^ k) as) * m / D
        = (a * m / D + C * (word (2 ^ k) as * m % D)) + 2 ^ k * (word (2 ^ k) as * m / D) := by
      have hdm := div_add_mod (word (2 ^ k) as * m) D
      rw [show (a + 2 ^ k * word (2 ^ k) as) * m = a * m + D * (C * (word (2 ^ k) as * m)) by
        rw [hB]; ring, add_mul_div_left _ _ hD]
      conv_lhs => rw [← hdm]
      rw [hB]
      ring
    have hlow : a * m / D + C * (word (2 ^ k) as * m % D) < 2 ^ k := by
      have hmod := mod_lt (word (2 ^ k) as * m) hD
      have hle : C * (word (2 ^ k) as * m % D + 1) ≤ C * D := mul_le_mul_left C hmod
      rw [mul_add, mul_comm C D] at hle
      omega
    have hmask : 2 ^ w - 1 < 2 ^ k := by
      have : C ≤ D * C := Nat.le_mul_of_pos_left C hD
      omega
    obtain ⟨e, rfl⟩ := hC
    rw [length_cons, replicate_succ, word, word, map_cons, word, hsplit,
      and_add_mul_pow hlow hmask, ih, and_two_pow_sub_one_eq_mod, mul_assoc,
      add_mul_mod_self_left, mod_eq_of_lt ha]

/-! ## Bytes of a word -/

theorem leBytes_zero : ∀ k, leBytes k 0 = replicate k 0
  | 0 => rfl
  | k + 1 => by
    rw [leBytes, leBytes_zero k]
    rfl

/-- The bytes of a word are those it was made of, then zeros. -/
theorem leBytes_word : ∀ bs k, (∀ b ∈ bs, b < 256) →
    leBytes (bs.length + k) (word 256 bs) = bs.map UInt8.ofNat ++ replicate k 0
  | [], k, _ => by rw [length_nil, zero_add, word, leBytes_zero, map_nil, nil_append]
  | b :: bs, k, h => by
    have hb := h b mem_cons_self
    have hdiv : (b + 256 * word 256 bs) / 256 = word 256 bs := by omega
    have hlow : UInt8.ofNat (b + 256 * word 256 bs) = UInt8.ofNat b := by
      rw [← UInt8.toNat_inj, UInt8.toNat_ofNat', UInt8.toNat_ofNat']
      omega
    rw [length_cons, show bs.length + 1 + k = (bs.length + k) + 1 by omega, word, leBytes, hdiv,
      hlow, leBytes_word bs k fun x hx => h x (mem_cons_of_mem b hx), map_cons,
      cons_append]

/-! ## Stores -/

theorem Written.append {buf buf' buf'' : List UInt8} {pos : ℕ} {s t : List UInt8}
    (h : Written buf pos s buf') (h' : Written buf' (pos + s.length) t buf'') :
    Written buf pos (s ++ t) buf'' where
  length_eq := h'.length_eq.trans h.length_eq
  take_eq := by
    rw [length_append, ← add_assoc, h'.take_eq, h.take_eq, append_assoc]

/-- A store of bytes that begin with `text`. -/
theorem put_written (buf text rest : List UInt8) (pos : ℕ)
    (h : pos + (text ++ rest).length ≤ buf.length) :
    ∃ buf', put buf pos (text ++ rest) = some buf' ∧ Written buf pos text buf' := by
  refine ⟨_, if_pos h, ?_, ?_⟩
  · rw [length_append, length_append, length_take, length_drop]
    omega
  have htake : (buf.take pos).length = pos := by
    rw [length_take]
    omega
  rw [append_assoc, append_assoc, ← append_assoc (buf.take pos)]
  apply take_left'
  rw [length_append, htake]

end ByteBuffer
