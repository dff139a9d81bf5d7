import Abseil.FastIntToBuffer
import Abseil.Numeral
import Abseil.ParseIntSpec

/-!
# The digits that are written

`Encodes f ds need` : the encoder `f` writes the digits `ds` at its position and moves behind
them, and needs `need` bytes of the buffer for its stores. Encoders compose (`Encodes.bind`),
so the numeral of a number is put together from the numeral of its quotient by a power of ten
and the padded digits of its remainder, as the encoders do it.

The words are taken lane by lane : `prepareEightDigits_spec` says that the eight bytes are the
eight digits. `fastIntToBuffer_correct` is the result for all the types.
-/

namespace Abseil

open List Nat ByteBuffer Positional
open BitVec (toNat_setWidth toNat_and toNat_udiv toNat_mul toNat_sub toNat_add
  toNat_umod ofNat lt_def ofInt toNat_ofInt toInt_ofInt_eq_self)

/-! ## Encoders -/

/-- The encoder writes the digits `ds` and moves behind them, given `need` bytes of room. -/
def Encodes (f : Cursor → Option Cursor) (ds : List ℕ) (need : ℕ) : Prop :=
  ∀ buf pos, pos + need ≤ buf.length →
    ∃ buf', f (buf, pos) = some (buf', pos + ds.length) ∧ Written buf pos (text ds) buf'

variable {f : Cursor → Option Cursor} {ds : List ℕ} {need : ℕ}

theorem Encodes.mono {need' : ℕ} (h : Encodes f ds need)
    (hle : need ≤ need') : Encodes f ds need' :=
  fun buf pos hroom => h buf pos (by omega)

variable {es : List ℕ} {n : ℕ}

variable {d : ℕ} {t : IntType} (as : List ℕ) {g : Cursor → Option Cursor}

/-- Two encoders in a row encode the digits in a row. -/
theorem Encodes.bind {m : ℕ} (hf : Encodes f ds m)
    (hg : Encodes g es n) (hm : m ≤ need) (hn : ds.length + n ≤ need) :
    Encodes (fun c => (f c).bind g) (ds ++ es) need := by
  intro buf pos hroom
  obtain ⟨buf1, h1, w1⟩ := hf buf pos (by omega)
  obtain ⟨buf2, h2, w2⟩ := hg buf1 (pos + ds.length) (by rw [w1.length_eq]; omega)
  refine ⟨buf2, ?_, ?_⟩
  · dsimp only
    rw [h1, Option.bind_some, h2, length_append, add_assoc]
  · rw [text_append]
    exact w1.append (by rwa [length_text])

variable {w k : ℕ} {x : BitVec w}

/-- A store of a word made of the digits' bytes, and zeros above them. -/
theorem encodes_store (hds : ∀ d ∈ ds, d < 10) (hx : x.toNat = word 256 (ds.map (48 + ·))) {n : ℤ}
    (hn : n = ds.length) :
    Encodes (fun c => (store (ds.length + k) x c).map (·.advance n)) ds (ds.length + k) := by
  intro buf pos hroom
  have hbytes : leBytes (ds.length + k) x.toNat = text ds ++ replicate k 0 := by
    have h := leBytes_word (ds.map (48 + ·)) k fun b hb => by
      obtain ⟨d, hd, rfl⟩ := mem_map.mp hb
      have := hds d hd
      omega
    rwa [length_map, ← hx, map_map] at h
  obtain ⟨buf', hput, hw⟩ := put_written buf (text ds) (replicate k 0) pos
    (by rw [length_append, length_text, length_replicate]; exact hroom)
  refine ⟨buf', ?_, hw⟩
  dsimp only [store]
  rw [hbytes, hput, hn]
  rfl

/-! ## Digits in lanes -/

/-- The two digits of each lane : tens in the low byte, ones above. -/
theorem word_two_digits : ∀ as,
    word (2 ^ 16) (as.map (· / 10)) +
        256 * (word (2 ^ 16) as - 10 * word (2 ^ 16) (as.map (· / 10)))
      = word 256 (as.flatMap fun a => [a / 10, a % 10]) ∧
    10 * word (2 ^ 16) (as.map (· / 10)) ≤ word (2 ^ 16) as
  | [] => by simp [word]
  | a :: as => by
    obtain ⟨ih, hle⟩ := word_two_digits as
    simp only [map_cons, flatMap_cons, cons_append, nil_append, word]
    rw [← ih]
    generalize word (2 ^ 16) (as.map (· / 10)) = t at hle
    generalize word (2 ^ 16) as = u at hle
    omega

/-- Division by 10 in lanes of 16 bits. -/
theorem tens_lanes (h : ∀ a ∈ as, a < 100) :
    word (2 ^ 16) as * 103 / 1024 &&& word (2 ^ 16) (replicate as.length 15)
      = word (2 ^ 16) (as.map (· / 10)) := by
  have hdiv : ∀ a ∈ as, a * 103 / 1024 = a / 10 := fun a ha => by
    have := h a ha
    omega
  have hlanes := word_mul_div_and (k := 16) (D := 1024) (C := 64) (m := 103) (w := 4)
    (by norm_num) (by norm_num) (by norm_num) as fun a ha => by
      have := h a ha
      omega
  rwa [map_congr_left hdiv] at hlanes

/-- Division by 100 in lanes of 32 bits. -/
theorem hundreds_lanes (h : ∀ a ∈ as, a < 10000) :
    word (2 ^ 32) as * 10486 / 2 ^ 20 &&& word (2 ^ 32) (replicate as.length 127)
      = word (2 ^ 32) (as.map (· / 100)) := by
  have hdiv : ∀ a ∈ as, a * 10486 / 2 ^ 20 = a / 100 := fun a ha => by
    have := h a ha
    omega
  have hlanes := word_mul_div_and (k := 32) (D := 2 ^ 20) (C := 2 ^ 12) (m := 10486) (w := 7)
    (by norm_num) (by norm_num) (by norm_num) as fun a ha => by
      have := h a ha
      omega
  rwa [map_congr_left hdiv] at hlanes

/-- Both divisions done on the lanes : four numbers below 100 to eight digits. -/
theorem eightDigits_word (h : n < 10 ^ 8) :
    [n / 10000 / 100, n / 10000 % 100, n % 10000 / 100, n % 10000 % 100].flatMap
      (fun a => [a / 10, a % 10]) = padded 10 8 n := by
  simp only [flatMap_cons, flatMap_nil, cons_append, nil_append, padded,
    append_nil, cons.injEq, and_true]
  omega

theorem fourDigits_word (h : n < 10000) :
    [n / 100, n % 100].flatMap (fun a => [a / 10, a % 10]) = padded 10 4 n := by
  simp only [flatMap_cons, flatMap_nil, cons_append, nil_append, padded,
    append_nil, cons.injEq, and_true]
  omega

theorem word_padded_lt (k n : ℕ) : word 256 (padded 10 k n) < 256 ^ k := by
  have h := word_lt (B := 256) (padded 10 k n) fun d hd => by
    have := padded_lt (by decide) hd
    omega
  rwa [length_padded] at h

theorem toNat_merged (hi lo : BitVec 32) :
    (hi.setWidth 64 ||| (lo.setWidth 64 <<< 32)).toNat = word (2 ^ 32) [hi.toNat, lo.toNat] := by
  have hhi := hi.isLt
  have hlo := lo.isLt
  have hshift : (lo.setWidth 64 <<< 32).toNat = 2 ^ 32 * lo.toNat := by
    rw [BitVec.toNat_shiftLeft, toNat_setWidth, shiftLeft_eq]
    omega
  rw [BitVec.toNat_or, hshift, toNat_setWidth, mod_eq_of_lt (by omega), Nat.or_comm,
    ← two_pow_add_eq_or_of_lt hhi]
  simp only [word]
  ring

theorem toNat_div100 {merged : BitVec 64} {a b : ℕ} (ha : a < 10000) (hb : b < 10000)
    (hm : merged.toNat = word (2 ^ 32) [a, b]) :
    ((merged * kDivisionBy100Mul) / kDivisionBy100Div &&& ((0x7F <<< 32) ||| 0x7F)).toNat
      = word (2 ^ 32) [a / 100, b / 100] := by
  have hmul : kDivisionBy100Mul.toNat = 10486 := rfl
  have hdiv : kDivisionBy100Div.toNat = 2 ^ 20 := by decide
  have hmask : ((0x7F <<< 32) ||| 0x7F : BitVec 64).toNat
      = word (2 ^ 32) (replicate 2 127) := by decide
  have hlt : merged.toNat * 10486 < 2 ^ 64 := by
    rw [hm]
    simp only [word]
    omega
  rw [toNat_and, toNat_udiv, toNat_mul, hmul, hdiv, hmask, mod_eq_of_lt hlt, hm]
  exact hundreds_lanes [a, b] (by simp [ha, hb])

theorem toNat_hundreds {merged div100 : BitVec 64} {a b : ℕ} (ha : a < 10000) (hb : b < 10000)
    (hm : merged.toNat = word (2 ^ 32) [a, b])
    (hd : div100.toNat = word (2 ^ 32) [a / 100, b / 100]) :
    (((merged - 100 * div100) <<< 16) + div100).toNat
      = word (2 ^ 16) [a / 100, a % 100, b / 100, b % 100] := by
  simp only [word] at hm hd ⊢
  have hmul : (100 * div100).toNat = 100 * div100.toNat := by
    change 100 * div100.toNat % 2 ^ 64 = _
    omega
  have hsub : (merged - 100 * div100).toNat = a % 100 + 2 ^ 32 * (b % 100) := by
    rw [toNat_sub, hmul]
    omega
  rw [toNat_add, BitVec.toNat_shiftLeft, shiftLeft_eq, hsub, hd]
  omega

theorem toNat_tens {hundreds : BitVec 64} {as : List ℕ} (hlen : as.length = 4)
    (has : ∀ a ∈ as, a < 100) (hh : hundreds.toNat = word (2 ^ 16) as) :
    ((hundreds * kDivisionBy10Mul) / kDivisionBy10Div
      &&& ((0xF <<< 48) ||| (0xF <<< 32) ||| (0xF <<< 16) ||| 0xF)).toNat
      = word (2 ^ 16) (as.map (· / 10)) := by
  have hmul : kDivisionBy10Mul.toNat = 103 := rfl
  have hdiv : kDivisionBy10Div.toNat = 1024 := by decide
  have hmask : ((0xF <<< 48) ||| (0xF <<< 32) ||| (0xF <<< 16) ||| 0xF : BitVec 64).toNat
      = word (2 ^ 16) (replicate as.length 15) := by
    rw [hlen]
    decide
  have hlt : hundreds.toNat * 103 < 2 ^ 64 := by
    have h := word_lt (B := 2 ^ 16) (as.map (· * 103)) fun b hb => by
      obtain ⟨a, ha, rfl⟩ := mem_map.mp hb
      have := has a ha
      omega
    rw [length_map, hlen, ← word_mul] at h
    rwa [hh]
  rw [toNat_and, toNat_udiv, toNat_mul, hmul, hdiv, hmask, mod_eq_of_lt hlt, hh]
  exact tens_lanes as has

theorem toNat_digits {hundreds tens : BitVec 64} {as : List ℕ}
    (hh : hundreds.toNat = word (2 ^ 16) as) (ht : tens.toNat = word (2 ^ 16) (as.map (· / 10)))
    (hw : word 256 (as.flatMap fun a => [a / 10, a % 10]) < 2 ^ 64) :
    (tens + ((hundreds - 10 * tens) <<< 8)).toNat
      = word 256 (as.flatMap fun a => [a / 10, a % 10]) := by
  obtain ⟨hdigits, hle⟩ := word_two_digits as
  rw [← ht, ← hh] at hdigits hle
  rw [← hdigits] at hw ⊢
  have hmul : (10 * tens).toNat = 10 * tens.toNat := by
    change 10 * tens.toNat % 2 ^ 64 = _
    omega
  rw [toNat_add, BitVec.toNat_shiftLeft, shiftLeft_eq, toNat_sub, hmul]
  omega

variable {i : BitVec 32}

/-- The eight digits, one in each byte. -/
theorem prepareEightDigits_spec (h : i.toNat < 10 ^ 8) :
    (prepareEightDigits i).toNat = word 256 (padded 10 8 i.toNat) := by
  have hlt := word_padded_lt 8 i.toNat
  have hhi : (i / 10000).toNat = i.toNat / 10000 := toNat_udiv
  have hlo : (i % 10000).toNat = i.toNat % 10000 := toNat_umod
  have hmerged := toNat_merged (i / 10000) (i % 10000)
  rw [hhi, hlo] at hmerged
  have ha : i.toNat / 10000 < 10000 := by omega
  have hb : i.toNat % 10000 < 10000 := by omega
  have hdiv := toNat_div100 ha hb hmerged
  have hhundreds := toNat_hundreds ha hb hmerged hdiv
  have htens := toNat_tens rfl (by simp; omega) hhundreds
  have hdigits := toNat_digits hhundreds htens (by rw [eightDigits_word h]; exact hlt)
  rwa [eightDigits_word h] at hdigits

/-! ## Bytes of digits -/

theorem word_bytes_lt (hds : ∀ d ∈ ds, d < 10) : word 256 (ds.map (48 + ·)) < 256 ^ ds.length := by
  have h := word_lt (B := 256) (ds.map (48 + ·)) fun b hb => by
    obtain ⟨d, hd, rfl⟩ := mem_map.mp hb
    have := hds d hd
    omega
  rwa [length_map] at h

/-- The digit bytes of a word of digits. -/
theorem toNat_add_zeroBytes {zeroBytes : BitVec w} (hds : ∀ d ∈ ds, d < 10)
    (hx : x.toNat = word 256 ds) (hz : zeroBytes.toNat = word 256 (replicate ds.length 48))
    (hw : 256 ^ ds.length ≤ 2 ^ w) : (x + zeroBytes).toNat = word 256 (ds.map (48 + ·)) := by
  rw [toNat_add, hx, hz, word_add_replicate, mod_eq_of_lt ((word_bytes_lt hds).trans_le hw)]

/-- `countr_zero(x) & ~7` of a word of digits : eight for each leading zero. -/
theorem toNat_zeroes (hk : k < 8) (hd : 0 < d) (hd' : d < 10)
    (hx : x.toNat = word 256 (replicate k 0 ++ d :: es)) :
    (ofNat 32 (countrZero x) &&& (0 - 8)).toNat = 8 * k := by
  have hword : x.toNat = 2 ^ (8 * k) * (d + 256 * word 256 es) := by
    rw [hx, word_append, word_replicate_zero, length_replicate, zero_add, pow_mul]
    rfl
  have hctz : countrZero x = 8 * k + BitScan.ctz (d + 256 * word 256 es) := by
    rw [countrZero, hword, BitScan.ctz_two_pow_mul (by omega)]
  have hlow : BitScan.ctz (d + 256 * word 256 es) < 8 :=
    BitScan.ctz_lt (by norm_num; omega)
  have hmask : ∀ k < 8, ∀ z < 8, (ofNat 32 (8 * k + z) &&& (0 - 8)).toNat = 8 * k := by
    decide
  rw [hctz]
  exact hmask k hk _ hlow

/-- Shifting the lowest lanes out. -/
theorem word_shift (hlen : ds.length = k) (hds : ∀ d ∈ ds, d < 256) :
    word 256 (ds ++ es) >>> (8 * k) = word 256 es := by
  have hlt := word_lt ds hds
  have hpow : 2 ^ (8 * k) = 256 ^ k := pow_mul 2 8 k
  rw [shiftRight_eq_div_pow, hpow, word_append, hlen, add_mul_div_left _ _ (by positivity),
    div_eq_of_lt (by rwa [hlen] at hlt), zero_add]

/-- Storing a word of digits without its leading zeros. -/
theorem encodes_trimmed {v : ℕ} {x : BitVec v} {y : BitVec w} (hn : 0 < n) {m : ℕ} (hm : m ≤ 8)
    (hlt : n < 10 ^ m) (hx : x.toNat = word 256 (padded 10 m n))
    (hy : y.toNat = word 256 ((padded 10 m n).map (48 + ·))) {zeroes : BitVec 32}
    (hz : zeroes = ofNat 32 (countrZero x) &&& (0 - 8)) :
    Encodes (fun c => (store m (y >>> zeroes.toNat) c).map
      (·.advance ((m : ℤ) - (zeroes / 8).toNat))) (numeral 10 n) m := by
  obtain ⟨k, hk⟩ := padded_eq_numeral (by decide) hn.ne' hlt
  have hlen := congrArg length hk
  rw [length_padded, length_append, length_replicate] at hlen
  obtain ⟨d, es, hnum, hd⟩ := head_numeral 10 hn.ne'
  have hdigits : ∀ d ∈ numeral 10 n, d < 10 := fun d => numeral_lt (by decide)
  have hlead : x.toNat = word 256 (replicate k 0 ++ d :: es) := by rw [hx, hk, hnum]
  have hzeroes : zeroes.toNat = 8 * k := by
    rw [hz]
    refine toNat_zeroes ?_ (pos_of_ne_zero hd) ?_ hlead
    · rw [hnum, length_cons] at hlen
      omega
    · exact hdigits d (by rw [hnum]; exact mem_cons_self)
  have hdiv : (zeroes / 8).toNat = k := by
    rw [toNat_udiv, hzeroes]
    exact Nat.mul_div_cancel_left k (by decide)
  have hshift : (y >>> zeroes.toNat).toNat = word 256 ((numeral 10 n).map (48 + ·)) := by
    rw [BitVec.toNat_ushiftRight, hy, hk, map_append, hzeroes]
    exact word_shift (by simp) (by simp)
  have hstore := encodes_store (k := k) (n := (m : ℤ) - (zeroes / 8).toNat) hdigits hshift
    (by rw [hdiv]; omega)
  rwa [show (numeral 10 n).length + k = m by omega] at hstore

/-- A numeral is that of the quotient by a power of ten, then the digits of the remainder. -/
theorem numeral_split (k : ℕ) (h : 10 ^ k ≤ n) :
    numeral 10 n = numeral 10 (n / 10 ^ k) ++ padded 10 k (n % 10 ^ k) := by
  have hpos : 0 < 10 ^ k := by positivity
  rw [← numeral_append (by decide) (div_pos h hpos).ne' (mod_lt n hpos), div_add_mod']

theorem toNat_kEightZeroBytes : kEightZeroBytes.toNat = word 256 (replicate 8 48) := by decide

theorem toNat_eightBytes (h : i.toNat < 10 ^ 8) : (prepareEightDigits i + kEightZeroBytes).toNat
      = word 256 ((padded 10 8 i.toNat).map (48 + ·)) :=
  toNat_add_zeroBytes (fun _ hd => padded_lt (by decide) hd) (prepareEightDigits_spec h)
    (by rw [length_padded, toNat_kEightZeroBytes]) (by rw [length_padded]; norm_num)

/-- Eight digits with the leading zeros. -/
theorem encodes_eight (hn : i.toNat = n) (h : n < 10 ^ 8) :
    Encodes (fun c => (store 8 (prepareEightDigits i + kEightZeroBytes) c).map (·.advance 8))
      (padded 10 8 n) 8 := by
  subst hn
  have hstore := encodes_store (k := 0) (n := 8) (fun _ hd => padded_lt (by decide) hd)
    (toNat_eightBytes h) (by rw [length_padded]; rfl)
  rwa [length_padded] at hstore

/-- Sixteen digits, in two words. -/
theorem encodes_sixteen {hi lo : BitVec 32} (hhi : hi.toNat = n / 10 ^ 8 % 10 ^ 8)
    (hlo : lo.toNat = n % 10 ^ 8) :
    Encodes (fun c => (store 8 (prepareEightDigits hi + kEightZeroBytes) c).bind fun c =>
      (store 8 (prepareEightDigits lo + kEightZeroBytes) (c.advance 8)).map (·.advance 8))
      (padded 10 16 n) 16 := by
  have hboth := (encodes_eight hhi (by omega)).bind (encodes_eight hlo (by omega))
    (show 8 ≤ 16 by decide) (by rw [length_padded])
  rw [padded_mod 8 n, padded_mod 8 (n / 10 ^ 8), ← padded_add 8 8 n] at hboth
  simp only [Option.bind_map] at hboth
  exact hboth

/-! ## The encoders -/

theorem hundredWord_one_digit : ∀ n < 10,
    (hundredWord (ofNat 32 n)).toNat = word 256 [48 + n] ∧
      2 + ((ofNat 32 n - 10).sshiftRight 8).toInt = 1 := by
  decide

theorem hundredWord_two_digits : ∀ n < 100, 10 ≤ n →
    (hundredWord (ofNat 32 n)).toNat = word 256 [48 + n / 10, 48 + n % 10] ∧
      2 + ((ofNat 32 n - 10).sshiftRight 8).toInt = 2 := by
  decide

/-- A number below 100 is encoded. -/
theorem encodes_encodeHundred (hi : i.toNat = n) (h : n < 100) :
    Encodes (encodeHundred i) (numeral 10 n) 2 := by
  obtain rfl : i = ofNat 32 n := by rw [← hi, BitVec.ofNat_toNat, BitVec.setWidth_eq]
  have hdigits : ∀ d ∈ numeral 10 n, d < 10 := fun d => numeral_lt (by decide)
  rcases lt_or_ge n 10 with hlt | hge
  · obtain ⟨hword, hlen⟩ := hundredWord_one_digit n hlt
    rw [numeral_of_lt hlt] at hdigits ⊢
    exact encodes_store (k := 1) hdigits hword hlen
  · obtain ⟨hword, hlen⟩ := hundredWord_two_digits n h hge
    rw [numeral_of_ge (by decide) hge, numeral_of_lt (by omega)] at hdigits ⊢
    exact encodes_store (k := 0) hdigits hword hlen

/-- A 32-bit number is encoded. -/
theorem encodes_encodeFullU32 (hi : i.toNat = n) : Encodes (encodeFullU32 i) (numeral 10 n) 10 := by
  have h10 : i < 10 ↔ n < 10 := by rw [lt_def, hi]; rfl
  have h8 : i < 100000000 ↔ n < 10 ^ 8 := by rw [lt_def, hi]; rfl
  unfold encodeFullU32
  rcases lt_or_ge n 10 with hn | hn
  · simp only [if_pos (h10.mpr hn)]
    have hword : (48 + i).toNat = word 256 [48 + n] := by
      rw [toNat_add, hi]
      change (48 + n) % 2 ^ 32 = 48 + n + 256 * 0
      omega
    have hds : ∀ d ∈ [n], d < 10 := by simpa using hn
    rw [numeral_of_lt hn]
    exact Encodes.mono (encodes_store (k := 0) hds hword rfl) (show 1 ≤ 10 by decide)
  simp only [if_neg (h10.not.mpr hn.not_gt)]
  rcases lt_or_ge n (10 ^ 8) with hn8 | hn8
  · simp only [if_pos (h8.mpr hn8)]
    rw [← hi] at hn8 hn ⊢
    exact (encodes_trimmed (by omega) (by decide) hn8 (prepareEightDigits_spec hn8)
      (toNat_eightBytes hn8) rfl).mono (by decide)
  simp only [if_neg (h8.not.mpr hn8.not_gt)]
  have hdiv : (i / 100000000).toNat = n / 10 ^ 8 := by rw [toNat_udiv, hi]; rfl
  have hmod : (i % 100000000).toNat = n % 10 ^ 8 := by rw [toNat_umod, hi]; rfl
  rw [numeral_split 8 (by omega)]
  refine (encodes_encodeHundred hdiv (by omega)).bind (encodes_eight hmod (by omega)) ?_ ?_
  · decide
  · have := length_numeral_le (by decide) (show n / 10 ^ 8 < 10 ^ 2 by omega)
    omega

theorem toNat_widen (x : BitVec 32) : (x.setWidth 64).toNat = x.toNat := by
  have := x.isLt
  rw [toNat_setWidth]
  omega

/-- Division by multiplying and shifting, of numbers for which the product fits. -/
theorem toNat_mul_div {x : BitVec 32} {c d : BitVec 64} (h : x.toNat * c.toNat < 2 ^ 32) :
    (((x.setWidth 64 * c) / d).setWidth 32).toNat = x.toNat * c.toNat / d.toNat := by
  have hle := div_le_self (x.toNat * c.toNat) d.toNat
  rw [toNat_setWidth, toNat_udiv, toNat_mul, toNat_widen,
    mod_eq_of_lt (show x.toNat * c.toNat < 2 ^ 64 by omega), mod_eq_of_lt (by omega)]

theorem toNat_remainder {x q : BitVec 32} {c : BitVec 64} (h : c.toNat * q.toNat ≤ x.toNat) :
    ((x.setWidth 64 - c * q.setWidth 64).setWidth 32).toNat = x.toNat - c.toNat * q.toNat := by
  rw [toNat_setWidth, toNat_sub, toNat_mul, toNat_widen, toNat_widen,
    mod_eq_of_lt (show c.toNat * q.toNat < 2 ^ 64 by omega)]
  omega

/-- The four digits, one in each byte. -/
theorem toNat_tenThousandDigits (hi : i.toNat = n) (h : n < 10000) :
    (tenThousandDigits i).toNat = word 256 (padded 10 4 n) := by
  have h100 : kDivisionBy100Mul.toNat = 10486 ∧ kDivisionBy100Div.toNat = 2 ^ 20 := by decide
  have h10 : kDivisionBy10Mul.toNat = 103 ∧ kDivisionBy10Div.toNat = 1024 := by decide
  obtain ⟨div100, hdiv100⟩ : ∃ x,
      x = ((i.setWidth 64 * kDivisionBy100Mul) / kDivisionBy100Div).setWidth 32 := ⟨_, rfl⟩
  have hdiv : div100.toNat = n / 100 := by
    rw [hdiv100, toNat_mul_div (by rw [h100.1, hi]; omega), h100.1, h100.2, hi]
    omega
  obtain ⟨mod100, hmod100⟩ : ∃ x,
      x = (i.setWidth 64 - 100 * div100.setWidth 64).setWidth 32 := ⟨_, rfl⟩
  have hmod : mod100.toNat = n % 100 := by
    have hc : (100 : BitVec 64).toNat = 100 := rfl
    rw [hmod100, toNat_remainder (by rw [hc, hdiv, hi]; omega), hc, hdiv, hi]
    omega
  obtain ⟨hundreds, hhundreds⟩ : ∃ x, x = (mod100 <<< 16) + div100 := ⟨_, rfl⟩
  have hh : hundreds.toNat = word (2 ^ 16) [n / 100, n % 100] := by
    rw [hhundreds, toNat_add, BitVec.toNat_shiftLeft, shiftLeft_eq, hmod, hdiv]
    simp only [word]
    omega
  obtain ⟨tens, htens⟩ : ∃ x,
      x = (((((hundreds.setWidth 64 * kDivisionBy10Mul) / kDivisionBy10Div).setWidth 32).setWidth 64
        &&& ((0xF <<< 16) ||| 0xF) : BitVec 64)).setWidth 32 := ⟨_, rfl⟩
  have ht : tens.toNat = word (2 ^ 16) [n / 100 / 10, n % 100 / 10] := by
    have hmask : ((0xF <<< 16) ||| 0xF : BitVec 64).toNat = word (2 ^ 16) [15, 15] := by decide
    have hlanes := tens_lanes [n / 100, n % 100] (by simp; omega)
    have hlt : hundreds.toNat * 103 < 2 ^ 32 := by
      rw [hh]
      simp only [word]
      omega
    rw [htens, toNat_setWidth, toNat_and, toNat_widen, hmask,
      toNat_mul_div (by rwa [h10.1]), h10.1, h10.2, hh]
    refine (congrArg (· % 2 ^ 32) hlanes).trans (mod_eq_of_lt ?_)
    simp only [word, map]
    omega
  have hresult : tenThousandDigits i
      = tens + ((hundreds.setWidth 64 - 10 * tens.setWidth 64) <<< 8).setWidth 32 := by
    unfold tenThousandDigits
    rw [htens, hhundreds, hmod100, hdiv100]
  obtain ⟨hdigits, hle⟩ := word_two_digits [n / 100, n % 100]
  rw [fourDigits_word h, map_cons, map_singleton, ← hh, ← ht] at hdigits
  rw [map_cons, map_singleton, ← hh, ← ht] at hle
  have hlt := word_padded_lt 4 n
  have hc : (10 : BitVec 64).toNat = 10 := rfl
  rw [← hdigits] at hlt ⊢
  rw [hresult, toNat_add, toNat_setWidth, BitVec.toNat_shiftLeft, shiftLeft_eq,
    toNat_sub, toNat_mul, toNat_widen, toNat_widen, hc]
  omega

theorem toNat_tenThousandBytes (hi : i.toNat = n) (h : n < 10000) :
    (tenThousandBytes i).toNat = word 256 ((padded 10 4 n).map (48 + ·)) := by
  have hds : ∀ d ∈ padded 10 4 n, d < 10 := fun _ hd => padded_lt (by decide) hd
  have hzero : kFourZeroBytes.toNat = word 256 (replicate 4 48) := by decide
  have hlt := word_bytes_lt hds
  rw [length_padded] at hlt
  rw [tenThousandBytes, toNat_setWidth, toNat_add_zeroBytes hds]
  · exact mod_eq_of_lt hlt
  · rw [toNat_widen, toNat_tenThousandDigits hi h]
  · rw [length_padded, hzero]
  · rw [length_padded]
    decide

/-- A number below 10000 is encoded. -/
theorem encodes_encodeTenThousand (hi : i.toNat = n) (hpos : 0 < n)
    (h : n < 10000) : Encodes (encodeTenThousand i) (numeral 10 n) 4 := by
  exact encodes_trimmed hpos (by decide) h (toNat_tenThousandDigits hi h)
    (toNat_tenThousandBytes hi h) rfl

/-- Sixteen digits are encoded, with zeros in front. -/
theorem encodes_encodePadded16 {i : BitVec 64} (hi : i.toNat = n) (h : n < 10 ^ 16) :
    Encodes (encodePadded16 i) (padded 10 16 n) 16 := by
  refine encodes_sixteen ?_ ?_
  · rw [toNat_setWidth, toNat_udiv, hi]
    change n / 100000000 % 2 ^ 32 = _
    omega
  · rw [toNat_setWidth, toNat_umod, hi]
    change n % 100000000 % 2 ^ 32 = _
    omega

/-- A 64-bit number is encoded. -/
theorem encodes_encodeFullU64 {i : BitVec 64} (hi : i.toNat = n) :
    Encodes (encodeFullU64 i) (numeral 10 n) 20 := by
  have h32 : i ≤ 0xffffffff ↔ n < 2 ^ 32 := by
    rw [BitVec.le_def, hi]
    exact Nat.lt_succ_iff.symm
  have h16 : i < 10000000000000000 ↔ n < 10 ^ 16 := by rw [lt_def, hi]; rfl
  have hdiv : (i / 100000000).toNat = n / 10 ^ 8 := by rw [toNat_udiv, hi]; rfl
  have hmod : (i % 100000000).toNat = n % 10 ^ 8 := by rw [toNat_umod, hi]; rfl
  have hlow : ((i % 100000000).setWidth 32).toNat = n % 10 ^ 8 := by
    rw [toNat_setWidth, hmod]
    omega
  unfold encodeFullU64
  rcases lt_or_ge n (2 ^ 32) with hn | hn
  · simp only [if_pos (h32.mpr hn)]
    refine (encodes_encodeFullU32 ?_).mono (by decide)
    rw [toNat_setWidth, hi]
    omega
  simp only [if_neg (h32.not.mpr hn.not_gt)]
  rcases lt_or_ge n (10 ^ 16) with hn16 | hn16
  · simp only [if_pos (h16.mpr hn16)]
    have hhigh : ((i / 100000000).setWidth 32).toNat = n / 10 ^ 8 := by
      rw [toNat_setWidth, hdiv]
      omega
    rw [numeral_split 8 (by omega)]
    refine (encodes_encodeFullU32 hhigh).bind (encodes_eight hlow (by omega)) (by decide) ?_
    have := length_numeral_le (by decide) (show n / 10 ^ 8 < 10 ^ 8 by omega)
    omega
  simp only [if_neg (h16.not.mpr hn16.not_gt)]
  have hhigh : ((i / 100000000 / 100000000).setWidth 32).toNat = n / 10 ^ 16 := by
    rw [toNat_setWidth, toNat_udiv, hdiv]
    change n / 10 ^ 8 / 100000000 % 2 ^ 32 = _
    omega
  have hmid : ((i / 100000000 % 100000000).setWidth 32).toNat = n / 10 ^ 8 % 10 ^ 8 := by
    rw [toNat_setWidth, toNat_umod, hdiv]
    change n / 10 ^ 8 % 100000000 % 2 ^ 32 = _
    omega
  rw [numeral_split 16 hn16, padded_mod]
  refine (encodes_encodeTenThousand hhigh (by omega) (by omega)).bind
    (encodes_sixteen hmid hlow) (by decide) ?_
  have := length_numeral_le (by decide) (show n / 10 ^ 16 < 10 ^ 4 by omega)
  omega

theorem toNat_lo {x : Uint128} (h : x.toNat < 2 ^ 64) : x.lo.toNat = x.toNat := by
  unfold Uint128.toNat at h ⊢
  omega

/-- Quotient and remainder of a 128-bit number by `10^16`. -/
theorem divMod_k1e16 (x : Uint128) :
    (x.divModImpl (.ofUint64 10000000000000000)).1.toNat = x.toNat / 10 ^ 16 ∧
      (x.divModImpl (.ofUint64 10000000000000000)).2.lo.toNat = x.toNat % 10 ^ 16 := by
  have hk : (Uint128.ofUint64 10000000000000000).toNat = 10 ^ 16 := by
    rfl
  have hne : (Uint128.ofUint64 10000000000000000).toNat ≠ 0 := by
    decide
  obtain ⟨htotal, hlt⟩ := Uint128.divModImpl_spec x _ hne
  rw [hk] at htotal hlt
  rw [toNat_lo (by omega)]
  omega

/-- A 128-bit number is encoded. -/
theorem encodes_encodeFullU128 {i : Uint128} (hi : i.toNat = n) :
    Encodes (encodeFullU128 i) (numeral 10 n) 39 := by
  unfold encodeFullU128
  by_cases hzero : i.hi = 0
  · have hlo : i.lo.toNat = n := by
      rw [← hi, Uint128.toNat, hzero]
      exact (Nat.zero_add _).symm
    simp only [if_pos hzero]
    exact (encodes_encodeFullU64 hlo).mono (by decide)
  have hlt := i.toNat_lt
  have hbig : 2 ^ 64 ≤ n := by
    have hne : i.hi.toNat ≠ 0 := fun h => hzero (BitVec.eq_of_toNat_eq h)
    rw [← hi, Uint128.toNat]
    omega
  simp only [if_neg hzero]
  obtain ⟨hdiv, hlow⟩ := divMod_k1e16 i
  generalize (i.divModImpl (.ofUint64 10000000000000000)).1 = high at hdiv
  generalize (i.divModImpl (.ofUint64 10000000000000000)).2.lo = low at hlow
  obtain ⟨hdiv2, hmid⟩ := divMod_k1e16 high
  generalize (high.divModImpl (.ofUint64 10000000000000000)).1 = top at hdiv2
  generalize (high.divModImpl (.ofUint64 10000000000000000)).2.lo = mid at hmid
  rw [hdiv] at hdiv2 hmid
  rw [hi] at hdiv hlow hdiv2 hmid
  have hpad := encodes_encodePadded16 hlow (by omega)
  rw [numeral_split 16 (by omega)]
  by_cases htop : top.eq (.ofUint64 0) = true
  · simp only [if_pos htop]
    rw [Uint128.eq_iff, Uint128.toNat_ofUint64, hdiv2] at htop
    have hsmall : n / 10 ^ 16 < 10 ^ 16 := (div_eq_zero_iff_lt (by decide)).mp htop
    rw [mod_eq_of_lt hsmall] at hmid
    refine (encodes_encodeFullU64 hmid).bind hpad (by decide) ?_
    have := length_numeral_le (by decide) hsmall
    omega
  simp only [if_neg htop]
  rw [Uint128.eq_iff, Uint128.toNat_ofUint64, hdiv2] at htop
  have hge := Nat.le_of_not_lt fun h => htop (div_eq_of_lt h)
  have hmidpad := encodes_encodePadded16 hmid (by omega)
  have hlo : top.lo.toNat = n / 10 ^ 16 / 10 ^ 16 := by
    rw [toNat_lo (by omega), hdiv2]
  have hlen := length_numeral_le (by decide) (show n / 10 ^ 16 / 10 ^ 16 < 10 ^ 7 by omega)
  rw [numeral_split 16 hge, append_assoc]
  refine (encodes_encodeFullU64 hlo).bind (n := 32)
    (hmidpad.bind hpad (by decide) (by rw [length_padded])) (by decide) ?_
  omega

/-! ## The overloads -/

/-- The decimal text of an integer. -/
def canonical (i : ℤ) : List UInt8 :=
  (if i < 0 then [45] else []) ++ text (numeral 10 i.natAbs)

/-- The text and a NUL are written to the front of the buffer, and the NUL is pointed to. -/
def Prints (r : Option Cursor) (buf s : List UInt8) : Prop :=
  ∃ buf', r = some (buf', s.length) ∧ Written buf 0 (s ++ [0]) buf'

/-- A terminated text is written. -/
theorem terminate_written (hf : Encodes f ds need) (hlen : ds.length ≤ need) (buf : List UInt8)
    (pos : ℕ) (hroom : pos + need < buf.length) :
    ∃ buf', (f (buf, pos)).bind terminate = some (buf', pos + ds.length) ∧
      Written buf pos (text ds ++ [0]) buf' := by
  obtain ⟨buf1, h1, w1⟩ := hf buf pos hroom.le
  obtain ⟨buf2, h2, w2⟩ := put_written buf1 [0] [] (pos + ds.length) (by
    rw [w1.length_eq, append_nil, length_singleton]
    omega)
  refine ⟨buf2, ?_, w1.append (by rwa [length_text])⟩
  rw [h1, Option.bind_some]
  dsimp only [terminate, store]
  rw [show leBytes 1 (0 : BitVec 8).toNat = [0] ++ [] from rfl, h2]
  rfl

variable {i : ℤ} {k : ℕ} {buf : List UInt8}

/-- A number without a sign is printed. -/
theorem prints_nonneg (hi : 0 ≤ i) (hf : Encodes f (numeral 10 i.natAbs) (k + 1))
    (hlt : i.natAbs < 10 ^ (k + 1)) (hroom : k + 1 < buf.length) :
    Prints ((f (buf, 0)).bind terminate) buf (canonical i) := by
  obtain ⟨buf', h, w⟩ := terminate_written hf (length_numeral_le k.succ_pos hlt) buf 0
    (by rwa [zero_add])
  refine ⟨buf', ?_, ?_⟩
  · rw [h, canonical, if_neg hi.not_gt, nil_append, length_text, zero_add]
  · rwa [canonical, if_neg hi.not_gt, nil_append]

/-- A negative number is printed behind its sign. -/
theorem prints_neg (hi : i < 0) (hf : Encodes f (numeral 10 i.natAbs) (k + 1))
    (hlt : i.natAbs < 10 ^ (k + 1)) (hroom : k + 1 + 1 < buf.length) :
    Prints ((store 1 (45 : BitVec 8) (buf, 0)).bind fun c =>
      (f (c.advance 1)).bind terminate) buf (canonical i) := by
  obtain ⟨buf1, h1, w1⟩ := put_written buf [45] [] 0 (by
    rw [append_nil, length_singleton]
    omega)
  obtain ⟨buf2, h2, w2⟩ := terminate_written hf (length_numeral_le k.succ_pos hlt) buf1 1 (by
    rw [w1.length_eq]
    omega)
  refine ⟨buf2, ?_, ?_⟩
  · dsimp only [store]
    rwa [show leBytes 1 (45 : BitVec 8).toNat = [45] ++ [] from rfl, h1, canonical, if_pos hi,
      length_append, length_text]
  · rw [canonical, if_pos hi, append_assoc]
    exact w1.append w2

/-- The two cases of a signed overload. -/
theorem prints_signed {p : Prop} [Decidable p] (hp : p ↔ i < 0)
    (hf : i < 0 → Encodes f (numeral 10 i.natAbs) (k + 1))
    (hg : 0 ≤ i → Encodes g (numeral 10 i.natAbs) (k + 1)) (hlt : i.natAbs < 10 ^ (k + 1))
    (hroom : k + 1 + 1 < buf.length) :
    Prints (if p then (store 1 (45 : BitVec 8) (buf, 0)).bind fun c =>
        (f (c.advance 1)).bind terminate
      else (g (buf, 0)).bind terminate) buf (canonical i) := by
  rcases lt_or_ge i 0 with hi | hi
  · rw [if_pos (hp.mpr hi)]
    exact prints_neg hi (hf hi) hlt hroom
  · rw [if_neg fun h => absurd (hp.mp h) hi.not_gt]
    exact prints_nonneg hi (hg hi) hlt (by omega)

theorem toNat_ofInt_nonneg (h0 : 0 ≤ i) (h : i < 2 ^ w) : (ofInt w i).toNat = i.natAbs := by
  rw [toNat_ofInt, cast_pow, cast_ofNat, Int.emod_eq_of_lt h0 h]
  omega

theorem toNat_neg_ofInt (h0 : i < 0) (h : -2 ^ w < i) : (0 - ofInt w i).toNat = i.natAbs := by
  change (0#w - ofInt w i).toNat = _
  rw [BitVec.zero_sub, ← BitVec.ofInt_neg, toNat_ofInt_nonneg (by omega) (by linarith),
    Int.natAbs_neg]

theorem toNat_uint128OfInt (i : ℤ) : ((uint128OfInt i).toNat : ℤ) = i % 2 ^ 128 := by
  rw [uint128OfInt, Uint128.toNat]
  dsimp only
  rw [toNat_ofInt, toNat_ofInt]
  omega

theorem toNat_uint128OfInt_nonneg (h0 : 0 ≤ i) (h : i < 2 ^ 128) :
    (uint128OfInt i).toNat = i.natAbs := by
  have := toNat_uint128OfInt i
  omega

theorem toNat_neg_uint128OfInt (h0 : i < 0) (h : -2 ^ 128 < i) :
    (uint128OfInt i).neg.toNat = i.natAbs := by
  have := toNat_uint128OfInt i
  rw [Uint128.toNat_neg]
  omega

theorem prints_u32 (h0 : 0 ≤ i) (h : i < 2 ^ 32) (hbuf : 10 < buf.length) :
    Prints (fastIntToBufferU32 (ofInt 32 i) buf) buf (canonical i) :=
  prints_nonneg h0 (encodes_encodeFullU32 (toNat_ofInt_nonneg h0 h)) (by omega) hbuf

theorem prints_i32 (h0 : -2 ^ 31 ≤ i) (h : i < 2 ^ 31) (hbuf : 11 < buf.length) :
    Prints (fastIntToBufferI32 (ofInt 32 i) buf) buf (canonical i) :=
  prints_signed (by rw [toInt_ofInt_eq_self (by decide) h0 h])
    (fun hi => encodes_encodeFullU32 (toNat_neg_ofInt hi (by omega)))
    (fun hi => encodes_encodeFullU32 (toNat_ofInt_nonneg hi (by omega))) (by omega) hbuf

theorem prints_u64 (h0 : 0 ≤ i) (h : i < 2 ^ 64) (hbuf : 20 < buf.length) :
    Prints (fastIntToBufferU64 (ofInt 64 i) buf) buf (canonical i) :=
  prints_nonneg h0 (encodes_encodeFullU64 (toNat_ofInt_nonneg h0 h)) (by omega) hbuf

theorem prints_i64 (h0 : -2 ^ 63 ≤ i) (h : i < 2 ^ 63) (hbuf : 21 < buf.length) :
    Prints (fastIntToBufferI64 (ofInt 64 i) buf) buf (canonical i) :=
  prints_signed (by rw [toInt_ofInt_eq_self (by decide) h0 h])
    (fun hi => encodes_encodeFullU64 (toNat_neg_ofInt hi (by omega)))
    (fun hi => encodes_encodeFullU64 (toNat_ofInt_nonneg hi (by omega))) (by omega) hbuf

theorem prints_u128 (h0 : 0 ≤ i) (h : i < 2 ^ 128) (hbuf : 39 < buf.length) :
    Prints (fastIntToBufferU128 (uint128OfInt i) buf) buf (canonical i) :=
  prints_nonneg h0 (encodes_encodeFullU128 (toNat_uint128OfInt_nonneg h0 h)) (by omega) hbuf

theorem prints_i128 (h0 : -2 ^ 127 ≤ i) (h : i < 2 ^ 127) (hbuf : 40 < buf.length) :
    Prints (fastIntToBufferI128 (uint128OfInt i) buf) buf (canonical i) := by
  have hsign : (uint128OfInt i).hi.toInt < 0 ↔ i < 0 := by
    have hhi : (uint128OfInt i).hi.toInt = i / 2 ^ 64 :=
      toInt_ofInt_eq_self (by decide) (by omega) (by omega)
    omega
  exact prints_signed hsign
    (fun hi => encodes_encodeFullU128 (toNat_neg_uint128OfInt hi (by omega)))
    (fun hi => encodes_encodeFullU128 (toNat_uint128OfInt_nonneg hi (by omega))) (by omega) hbuf

/-- Every type prints its numbers in the canonical form. -/
theorem fastIntToBuffer_prints (hi : t.InRange i) (hbuf : buf.length = fastToBufferSize t) :
    Prints (fastIntToBuffer t i buf) buf (canonical i) := by
  obtain ⟨hmin, hmax⟩ := hi
  cases t <;> simp only [IntType.min, IntType.max, IntType.signed, IntType.bits, if_true,
    Bool.false_eq_true, if_false] at hmin hmax
  case int8 | int16 | int32 =>
    exact prints_i32 (by omega) (by omega) (by rw [hbuf]; decide)
  case int64 => exact prints_i64 (by omega) (by omega) (by rw [hbuf]; decide)
  case int128 => exact prints_i128 (by omega) (by omega) (by rw [hbuf]; decide)
  case uint8 | uint16 | uint32 =>
    exact prints_u32 (by omega) (by omega) (by rw [hbuf]; decide)
  case uint64 => exact prints_u64 (by omega) (by omega) (by rw [hbuf]; decide)
  case uint128 => exact prints_u128 (by omega) (by omega) (by rw [hbuf]; decide)

/-! ## Parsing it back -/

theorem digitValue_digitByte (h : d < 10) : digitValue (digitByte d) = some d := by
  unfold digitValue
  rw [toNat_digitByte h, if_pos (by omega)]
  simp

theorem digitsValue_text (s : ℤ) : ∀ ds (m : ℕ), (∀ d ∈ ds, d < 10) →
    digitsValue 10 s (s * m) (text ds) = s * readDigits 10 m ds
  | [], m, _ => rfl
  | d :: ds, m, hds => by
    have hd := digitValue_digitByte (hds d mem_cons_self)
    have ih := digitsValue_text s ds (m * 10 + d) fun x hx => hds x (mem_cons_of_mem d hx)
    rw [text, map_cons, digitsValue_cons, hd, readDigits_cons, ← ih]
    congr 1
    simp only [Option.getD_some]
    push_cast
    ring

theorem not_isSpace_of_ge {c : UInt8} (h : 33 ≤ c.toNat) : ¬IsSpace c := by
  unfold IsSpace
  omega

/-- The canonical form denotes its number. -/
theorem canonical_denotes {i : ℤ} (hi : t.InRange i) : Denotes t 10 (canonical i) i := by
  have hdigits : ∀ d ∈ numeral 10 i.natAbs, d < 10 := fun d => numeral_lt (by decide)
  have hstrip : stripSpace (canonical i) = canonical i := by
    refine stripSpace_of_no_space fun c hc => not_isSpace_of_ge ?_
    rw [canonical, mem_append] at hc
    rcases hc with hc | hc
    · split_ifs at hc
      · rw [mem_singleton.mp hc]
        decide
      · cases hc
    · obtain ⟨d, hd, rfl⟩ := mem_map.mp hc
      rw [toNat_digitByte (hdigits d hd)]
      omega
  have hnum : Numeral 10 (text (numeral 10 i.natAbs)) 10 (text (numeral 10 i.natAbs)) :=
    .plain (by decide) (by decide) fun h => numeral_ne_nil _ _ (map_eq_nil_iff.mp h)
  refine ⟨if i < 0 then -1 else 1, 10, _, ⟨_, _, hstrip, ?_, hnum⟩, ?_, ?_⟩
  · split_ifs with hneg
    · refine .minus (eq_true_of_ne_false fun hunsigned => ?_)
      have hmin : t.min = 0 := if_neg (by rw [hunsigned]; exact Bool.false_ne_true)
      have := hi.1
      omega
    · exact .none
  · intro c hc
    obtain ⟨d, hd, rfl⟩ := mem_map.mp hc
    exact ⟨d, digitValue_digitByte (hdigits d hd), by exact_mod_cast hdigits d hd⟩
  · have h := digitsValue_text (if i < 0 then -1 else 1) _ 0 hdigits
    rw [readDigits_numeral, cast_zero, mul_zero] at h
    rw [h]
    split_ifs <;> omega

/-- **Printing.** For every integer type and value, the buffer of the size the callers
allocate is never left; it holds the decimal text of the value and a NUL, which the
result points to; and the parser of the type reads the text back. -/
theorem fastIntToBuffer_correct (t : IntType) (i : ℤ) (hi : t.InRange i) (buf : List UInt8)
    (hbuf : buf.length = fastToBufferSize t) :
    ∃ buf', fastIntToBuffer t i buf = some (buf', (canonical i).length) ∧
      buf'.length = buf.length ∧
      buf'.take ((canonical i).length + 1) = canonical i ++ [0] ∧
      safeStrtoBase t (some (canonical i)) 10 = .ok (true, i) := by
  obtain ⟨buf', hrun, hwritten⟩ := fastIntToBuffer_prints hi hbuf
  refine ⟨buf', hrun, hwritten.length_eq, ?_, safeStrtoBase_of_denotes (canonical_denotes hi) hi⟩
  have h := hwritten.take_eq
  rwa [length_append, zero_add, take_zero, nil_append] at h

theorem fastIntToBuffer_correct_int64_min :
    ∃ buf', fastIntToBuffer .int64 (-9223372036854775808) (replicate 32 7)
        = some (buf', (canonical (-9223372036854775808)).length) ∧
      buf'.length = (replicate 32 (7 : UInt8)).length ∧
      buf'.take ((canonical (-9223372036854775808)).length + 1)
        = canonical (-9223372036854775808) ++ [0] ∧
      safeStrtoBase .int64 (some (canonical (-9223372036854775808))) 10
        = .ok (true, -9223372036854775808) :=
  fastIntToBuffer_correct .int64 (-9223372036854775808) (by decide) (replicate 32 7) rfl

end Abseil
