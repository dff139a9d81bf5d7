import Abseil.ShiftRegister
import Abseil.Crc32

/-!
# The table-driven checksum is the bit-serial one

Entry `v` of the tables is the byte `v` after a number of zero bits (`initTables_table0`,
`initTables_table`), so a table look-up is eight steps of the register and a swath step is 128 of
them. The four lanes stand for one register, `combineLanes`; a word step feeds that register
four bytes (`combineLanes_wordStep`), a stride is four word steps, and every loop keeps what the
register becomes once the rest of the data has been fed.
-/

namespace Abseil.Crc32

open Function List Nat ShiftRegister
open BitVec (toNat_ofNat eq_of_getLsbD_eq ofNat ofNat_toNat setWidth_eq getLsbD_ofNat xor_zero
  toNat_ushiftRight zero_xor xor_assoc)

/-- The bits of a byte string, least significant first. -/
def bitsOf (bytes : List (BitVec 8)) : List Bool :=
  bytes.flatMap fun b => (range 8).map b.getLsbD

/-- The bit-serial reflected checksum register. -/
def bitSerial (crc : BitVec 32) (bytes : List (BitVec 8)) : BitVec 32 :=
  (bitsOf bytes).foldl (feed kCrc32cPoly) crc

/-! ## Bits and bytes -/

variable (self : Crc32) (t : ℕ → Row) (cfg : Platform) (n addr : ℕ) (b : Lanes)
  (l crc c poly x : BitVec 32)

theorem advanceBit_eq : advanceBit poly x = step poly x := by
  have h : x &&& 1 ≠ 0 ↔ x.getLsbD 0 = true := by
    rw [ne_eq, ← BitVec.toNat_inj, BitVec.toNat_and, BitVec.getLsbD, testBit_zero]
    simp only [BitVec.ofNat_eq_ofNat, toNat_ofNat, reducePow, reduceMod,
      and_one_is_mod, decide_eq_true_eq]
    omega
  unfold advanceBit step
  simp only [h]

theorem and_255_eq : c ^^^ (c >>> 8 <<< 8) = c &&& 0xff := by
  refine eq_of_getLsbD_eq fun i hi => ?_
  interval_cases i <;> simp

theorem setWidth_ushiftRight_8 (b : BitVec 8) : b.setWidth 32 >>> 8 = 0 := by
  refine eq_of_getLsbD_eq fun i _ => ?_
  simp [BitVec.getLsbD_setWidth]

theorem toNat_and_255_lt : (c &&& 0xff).toNat < 256 := by
  exact and_lt_two_pow _ (by norm_num : 255 < 2 ^ 8)

/-- A byte table turns eight steps into one look-up. -/
theorem lookup_eq_steps {poly : BitVec 32} {t : Row}
    (ht : ∀ v < 256, t v = steps poly 8 (ofNat 32 v)) (c : BitVec 32) :
    (c >>> 8) ^^^ t (c &&& 0xff).toNat = steps poly 8 c := by
  rw [ht _ (toNat_and_255_lt c), ofNat_toNat, setWidth_eq, steps_split poly 8 c, and_255_eq]

/-! ## One row of a table -/

section Rows

variable {G t : Row} {S : Set ℕ}

/-- Writing a right entry keeps the right ones. -/
theorem eqOn_update {i : ℕ} {x : BitVec 32} (h : Set.EqOn t G S) (hx : x = G i) :
    Set.EqOn (update t i x) G (insert i S) := by
  intro v hv
  by_cases hvi : v = i
  · rw [hvi, update_self, hx]
  · rw [update_of_ne hvi]
    exact h (hv.resolve_left hvi)

theorem eqOn_fillBetween_loop {i : ℕ} (hG : ∀ r < i, G (i + r) = G i ^^^ G r) :
    ∀ (n k : ℕ) (t : Row) (S : Set ℕ), Set.EqOn t G S → (∀ v < k, v ∈ S) → i < k → k + n ≤ 2 * i →
    Set.EqOn ((range' k n).foldl (fun t k => update t k (t i ^^^ t (k - i))) t) G
      (S ∪ Set.Iio (k + n))
  | 0, k, t, S, h, hS, _, _ => h.mono (Set.union_subset subset_rfl hS)
  | n + 1, k, t, S, h, hS, hik, hkn => by
    have hx : t i ^^^ t (k - i) = G k := by
      rw [h (hS _ hik), h (hS _ (by omega)), ← hG _ (by omega), Nat.add_sub_cancel' hik.le]
    have hS' : ∀ v < k + 1, v ∈ insert k S := fun v hv =>
      (Nat.lt_succ_iff_lt_or_eq.1 hv).elim (fun h => .inr (hS v h)) .inl
    rw [range'_succ, foldl_cons, show k + (n + 1) = k + 1 + n by omega]
    exact (eqOn_fillBetween_loop hG n (k + 1) _ _ (eqOn_update h hx) hS' (by omega) (by omega)).mono
      (Set.union_subset_union_left _ (Set.subset_insert k S))

/-- Zero and the powers of two that index a row, from `2 ^ n` on. -/
def powersFrom (n : ℕ) : Set ℕ := {v | v = 0 ∨ ∃ b, n ≤ b ∧ b < 8 ∧ v = 2 ^ b}

theorem eqOn_fillPowers {poly : BitVec 32} (hG : ∀ b < 7, step poly (G (2 ^ (b + 1))) = G (2 ^ b))
    (h : Set.EqOn t G (powersFrom 7)) : Set.EqOn (fillPowers poly t) G (powersFrom 0) := by
  have loop : ∀ n ≤ 7, Set.EqOn (((range n).map fun b => 2 ^ (6 - b)).foldl
      (fun t i => update t i (advanceBit poly (t (i <<< 1)))) t) G (powersFrom (7 - n)) := by
    intro n
    induction n with
    | zero => exact fun _ => h
    | succ n ih =>
      intro hn
      have hprev := ih (by omega)
      rw [range_succ, map_append, foldl_append]
      refine (eqOn_update hprev ?_).mono ?_
      · have hmem : 2 ^ (6 - n) <<< 1 ∈ powersFrom (7 - n) :=
          .inr ⟨6 - n + 1, by omega, by omega, by rw [shiftLeft_eq, pow_one, ← pow_succ]⟩
        rw [hprev hmem, shiftLeft_eq, pow_one, ← pow_succ, advanceBit_eq, hG _ (by omega)]
      rintro v (rfl | ⟨b, hb, hb8, rfl⟩)
      · exact .inr (.inl rfl)
      · by_cases hbn : b = 6 - n
        · exact .inl (congrArg _ hbn)
        · exact .inr (.inr ⟨b, by omega, hb8, rfl⟩)
  exact loop 7 le_rfl

theorem eqOn_fillBetween (hG : ∀ b < 8, ∀ r < 2 ^ b, G (2 ^ b + r) = G (2 ^ b) ^^^ G r)
    (h : Set.EqOn t G (powersFrom 0)) :
    Set.EqOn ([2, 4, 8, 16, 32, 64, 128].foldl fillBetween t) G (Set.Iio 256) := by
  have loop : ∀ n ≤ 7, Set.EqOn (((range n).map fun b => 2 ^ (b + 1)).foldl fillBetween t) G
      (powersFrom 0 ∪ Set.Iio (2 ^ (n + 1))) := by
    intro n
    induction n with
    | zero =>
      refine fun _ => h.mono (Set.union_subset subset_rfl fun v hv => ?_)
      have hv2 : v < 2 := hv
      rcases Nat.lt_succ_iff_lt_or_eq.1 hv2 with h0 | rfl
      · exact .inl (lt_one_iff.1 h0)
      · exact .inr ⟨0, le_rfl, by norm_num, rfl⟩
    | succ n ih =>
      intro hn
      have hpos := Nat.two_pow_pos (n + 1)
      have hS : ∀ v < 2 ^ (n + 1) + 1, v ∈ powersFrom 0 ∪ Set.Iio (2 ^ (n + 1)) := fun v hv =>
        (Nat.lt_succ_iff_lt_or_eq.1 hv).elim .inr fun he =>
          .inl (.inr ⟨n + 1, Nat.zero_le _, by omega, he⟩)
      rw [range_succ, map_append, foldl_append]
      refine (eqOn_fillBetween_loop (hG (n + 1) (by omega)) (2 ^ (n + 1) - 1) (2 ^ (n + 1) + 1) _ _
        (ih (by omega)) hS (by omega) (by omega)).mono ?_
      rw [Set.union_assoc]
      refine Set.union_subset_union_right _ fun v hv => .inr ?_
      have hv' : v < 2 ^ (n + 1 + 1) := hv
      exact Set.mem_Iio.2 (by omega)
  exact (loop 7 le_rfl).mono Set.subset_union_right

end Rows

theorem ofNat_two_pow_add (b r : ℕ) (hr : r < 2 ^ b) :
    ofNat 32 (2 ^ b + r) = ofNat 32 (2 ^ b) ^^^ ofNat 32 r := by
  refine eq_of_getLsbD_eq fun i hi => ?_
  have hbit : (2 ^ b + r).testBit i = ((2 ^ b).testBit i ^^ r.testBit i) := by
    by_cases hib : b = i
    · subst hib
      rw [testBit_two_pow_add_eq, testBit_lt_two_pow hr]
      simp
    have hor : 2 ^ b + r = 2 ^ b ||| r := by
      simpa using two_pow_add_eq_or_of_lt hr 1
    rw [hor, testBit_or, testBit_two_pow]
    simp [hib]
  rw [BitVec.getLsbD_xor, getLsbD_ofNat, getLsbD_ofNat, getLsbD_ofNat, hbit]
  simp [hi]

theorem step_ofNat_two_pow_succ (b : ℕ) (hb : b < 31) :
    step poly (ofNat 32 (2 ^ (b + 1))) = ofNat 32 (2 ^ b) := by
  have hlow : (ofNat 32 (2 ^ (b + 1))).getLsbD 0 = false := by
    rw [getLsbD_ofNat, testBit_two_pow]
    simp
  rw [step_eq, hlow]
  refine xor_zero.trans ?_
  have hlt : 2 ^ (b + 1) < 2 ^ 32 := Nat.pow_lt_pow_right (by norm_num) (by omega)
  have hlt' : 2 ^ b < 2 ^ 32 := Nat.pow_lt_pow_right (by norm_num) (by omega)
  refine BitVec.eq_of_toNat_eq ?_
  rw [toNat_ushiftRight, toNat_ofNat, toNat_ofNat,
    mod_eq_of_lt hlt, mod_eq_of_lt hlt', shiftRight_eq_div_pow, pow_one, pow_succ,
    Nat.mul_div_cancel _ (by norm_num)]

/-- A row holds every byte after the number of zero bits its first entry says. -/
theorem fillRow_apply (m : ℕ) (t : Row) (v : ℕ) (hv : v < 256) :
    fillRow poly (steps poly m (ofNat 32 128)) t v = steps poly m (ofNat 32 v) := by
  let G : Row := fun v => steps poly m (ofNat 32 v)
  have hstep : ∀ b < 7, step poly (G (2 ^ (b + 1))) = G (2 ^ b) := fun b hb => by
    change steps poly (m + 1) _ = _
    rw [steps_succ', step_ofNat_two_pow_succ poly b (by omega)]
  have hxor : ∀ b < 8, ∀ r < 2 ^ b, G (2 ^ b + r) = G (2 ^ b) ^^^ G r := fun b _ r hr => by
    change steps poly m _ = _
    rw [ofNat_two_pow_add b r hr, (linear_steps poly m).map_xor]
  have hstart : Set.EqOn (update (update t 0 0) 128 (G 128)) G (powersFrom 7) := by
    rintro v (rfl | ⟨b, hb, hb8, rfl⟩)
    · exact (linear_steps poly m).map_zero.symm
    · obtain rfl : b = 7 := by omega
      rfl
  exact eqOn_fillBetween hxor (eqOn_fillPowers hstep hstart) hv

theorem steps_7_128 : steps poly 7 (ofNat 32 128) = ofNat 32 1 := by
  rw [steps_of_low_zero]
  · rfl
  · intro i hi
    interval_cases i <;> rfl

/-- Every row of a word table, when `last` is entry 128 of the first one. -/
theorem fillWordTable_apply (poly : BitVec 32) (m : ℕ) (t : ℕ → Row) : ∀ n, ∀ j < n, ∀ v < 256,
    fillWordTable poly (steps poly m (ofNat 32 128)) n t j v
      = steps poly (m + 8 * j) (ofNat 32 v)
  | 0, j, hj, _, _ => absurd hj (not_lt_zero j)
  | n + 1, j, hj, v, hv => by
    have ih := fillWordTable_apply poly m t n
    rw [fillWordTable]
    by_cases hjn : j = n
    · subst hjn
      have hfirst : (if j = 0 then steps poly m (ofNat 32 128)
          else advanceBit poly (fillWordTable poly (steps poly m (ofNat 32 128)) j t (j - 1) 1))
          = steps poly (m + 8 * j) (ofNat 32 128) := by
        split_ifs with h0
        · rw [h0, mul_zero, add_zero]
        rw [ih (j - 1) (by omega) 1 (by norm_num), advanceBit_eq, ← steps_7_128 poly, ← steps_add]
        change steps poly (7 + (m + 8 * (j - 1)) + 1) _ = _
        congr 1
        omega
      rw [update_self, hfirst, fillRow_apply poly _ _ v hv]
    · rw [update_of_ne hjn]
      exact ih j (by omega) v hv

theorem steps_8_128 : steps poly 8 (ofNat 32 128) = poly := by
  rw [steps, steps_7_128]
  exact zero_xor

theorem fillWordTable_poly (t : ℕ → Row) (v : ℕ) (hv : v < 256) :
    fillWordTable poly poly 1 t 0 v = steps poly 8 (ofNat 32 v) := by
  have h := fillWordTable_apply poly 8 t 1 0 (by norm_num) v hv
  rwa [steps_8_128] at h

theorem extendLast_eq {poly : BitVec 32} {t : Row}
    (ht : ∀ v < 256, t v = steps poly 8 (ofNat 32 v)) : ∀ n last,
    extendLast t n last = steps poly (8 * n) last
  | 0, _ => rfl
  | n + 1, last => by
    rw [extendLast, extendLast_eq ht n, lookup_eq_steps ht, ← steps_add, mul_succ, add_comm]

/-! ## The tables of the engine -/

theorem initTables_table0 (v : ℕ) (hv : v < 256) :
    (initTables self t).table0 v = steps kCrc32cPoly 8 (ofNat 32 v) :=
  (if_pos hv).trans (fillWordTable_poly kCrc32cPoly t v hv)

/-- The swath tables : the byte and 12 zero bytes, and one more for every row. -/
theorem initTables_table (b v : ℕ) (hb : b < 4) (hv : v < 256) :
    (initTables self t).table b v = steps kCrc32cPoly (104 + 8 * b) (ofNat 32 v) := by
  refine (if_pos ⟨hb, hv⟩).trans ?_
  have hlast : extendLast (initTables self t).table0 12 kCrc32cPoly
      = steps kCrc32cPoly 104 (ofNat 32 128) := by
    rw [extendLast_eq (initTables_table0 self t), show 104 = 8 + 8 * 12 by rfl, steps_add,
      steps_8_128]
  have hfill := fillWordTable_apply kCrc32cPoly 104 (fillWordTable kCrc32cPoly kCrc32cPoly 1 t) 4 b
    hb v hv
  rwa [← hlast] at hfill

/-! ## Feeding bytes and words -/

theorem bitSerial_append (a b : List (BitVec 8)) :
    bitSerial crc (a ++ b) = bitSerial (bitSerial crc a) b := by
  rw [bitSerial, bitsOf, flatMap_append, foldl_append]
  rfl

theorem bitSerial_singleton (b : BitVec 8) :
    bitSerial crc [b] = steps kCrc32cPoly 8 (crc ^^^ b.setWidth 32) := by
  have hbits : (range 8).map (b.setWidth 32).getLsbD = (range 8).map b.getLsbD :=
    map_congr_left fun i hi => by
      have hlt : i < 8 := mem_range.1 hi
      rw [BitVec.getLsbD_setWidth, decide_eq_true (by omega : i < 32), Bool.true_and]
  rw [steps_xor, setWidth_ushiftRight_8, hbits, bitSerial, bitsOf, flatMap_singleton]
  exact xor_zero.symm

variable (k : ℕ) (bytes p : List (BitVec 8))

theorem bitSerial_word (hp : 4 ≤ p.length) :
    bitSerial crc (p.take 4) = steps kCrc32cPoly 32 (crc ^^^ load32 p) := by
  obtain ⟨b0, b1, b2, b3, rest, rfl⟩ : ∃ b0 b1 b2 b3 rest, p = b0 :: b1 :: b2 :: b3 :: rest := by
    match p, hp with
    | b0 :: b1 :: b2 :: b3 :: rest, _ => exact ⟨b0, b1, b2, b3, rest, rfl⟩
  have hbits : (range 32).map (load32 (b0 :: b1 :: b2 :: b3 :: rest)).getLsbD
      = bitsOf [b0, b1, b2, b3] := by
    simp [load32, bitsOf, range_succ]
  have hout : load32 (b0 :: b1 :: b2 :: b3 :: rest) >>> 32 = 0 := by
    refine eq_of_getLsbD_eq fun i _ => ?_
    simp [BitVec.getLsbD_ushiftRight]
  rw [steps_xor, hbits, hout]
  exact xor_zero.symm

/-! ## Steps of the engine -/

theorem stepOneByte_eq (b : BitVec 8) : stepOneByte (initTables self t) l b = bitSerial l [b] := by
  have hlow : (l &&& 0xff) ^^^ b.setWidth 32 = (l ^^^ b.setWidth 32) &&& 0xff := by
    refine eq_of_getLsbD_eq fun i hi => ?_
    interval_cases i <;> simp
  have hhigh : l >>> 8 = (l ^^^ b.setWidth 32) >>> 8 := by
    rw [BitVec.ushiftRight_xor_distrib, setWidth_ushiftRight_8]
    exact xor_zero.symm
  rw [bitSerial_singleton, stepOneByte, hlow, hhigh, BitVec.xor_comm]
  exact lookup_eq_steps (initTables_table0 self t) _

theorem stepBytes_eq : ∀ bytes l,
    stepBytes (initTables self t) l bytes = bitSerial l bytes
  | [], _ => rfl
  | b :: bytes, l => by
    rw [stepBytes, foldl_cons, stepOneByte_eq, ← singleton_append, bitSerial_append]
    exact stepBytes_eq bytes _

theorem combineOneWord_eq (crcIn w : BitVec 32) :
    combineOneWord (initTables self t) crcIn w = steps kCrc32cPoly 32 (crcIn ^^^ w) := by
  have hbyte : combineByte (initTables self t) = steps kCrc32cPoly 8 :=
    funext fun w => lookup_eq_steps (initTables_table0 self t) w
  rw [combineOneWord, hbyte, steps_mul, BitVec.xor_comm]

/-- A byte at its place in a word, before the zero bits that bring it down. -/
theorem steps_byte (b : BitVec 32) (h : b <<< k >>> k = b) :
    steps kCrc32cPoly n b = steps kCrc32cPoly (k + n) (b <<< k) := by
  rw [steps_add, steps_shiftLeft, h]

theorem word_eq_bytes :
    c = (c &&& (0xff : BitVec 32)) ^^^ ((c >>> 8 &&& 0xff) <<< 8) ^^^
      ((c >>> 16 &&& 0xff) <<< 16) ^^^ ((c >>> 24) <<< 24) := by
  refine eq_of_getLsbD_eq fun i hi => ?_
  interval_cases i <;> simp

theorem shiftLeft_ushiftRight_byte (hc : c.toNat < 256) (hk : k ≤ 24) : c <<< k >>> k = c := by
  have hlt : c.toNat * 2 ^ k < 2 ^ 32 :=
    calc c.toNat * 2 ^ k < 256 * 2 ^ k := Nat.mul_lt_mul_of_pos_right hc (Nat.two_pow_pos k)
      _ ≤ 256 * 2 ^ 24 := Nat.mul_le_mul_left _ (Nat.pow_le_pow_right (by norm_num) hk)
      _ = 2 ^ 32 := by norm_num
  refine BitVec.eq_of_toNat_eq ?_
  rw [toNat_ushiftRight, BitVec.toNat_shiftLeft, shiftLeft_eq, mod_eq_of_lt hlt,
    shiftRight_eq_div_pow, Nat.mul_div_cancel _ (Nat.two_pow_pos k)]

theorem table_eq (b k : ℕ) (hb : b < 4) (hc : c.toNat < 256) (hk : k + 8 * b = 24) :
    (initTables self t).table b c.toNat = steps kCrc32cPoly 128 (c <<< k) := by
  rw [initTables_table self t b _ hb hc, ofNat_toNat, setWidth_eq,
    steps_byte _ k c (shiftLeft_ushiftRight_byte c k hc (by omega)),
    show k + (104 + 8 * b) = 128 by omega]

/-- A swath step : 16 zero bytes, and the next word added. -/
theorem stepSwath_eq :
    stepSwath (initTables self t) c p = load32 p ^^^ steps kCrc32cPoly 128 c := by
  have hlt : (c >>> 24).toNat < 256 := by
    rw [toNat_ushiftRight, shiftRight_eq_div_pow]
    omega
  rw [stepSwath, table_eq self t _ 3 0 (by norm_num) (toNat_and_255_lt _) rfl,
    table_eq self t _ 2 8 (by norm_num) (toNat_and_255_lt _) rfl,
    table_eq self t _ 1 16 (by norm_num) (toNat_and_255_lt _) rfl,
    table_eq self t _ 0 24 (by norm_num) hlt rfl, BitVec.shiftLeft_zero]
  conv_rhs => rw [word_eq_bytes c]
  simp only [(linear_steps kCrc32cPoly 128).map_xor, xor_assoc]

/-- A word step feeds the register the lanes stand for. -/
theorem combineLanes_wordStep (hp : 4 ≤ p.length) :
    combineLanes (initTables self t) (wordStep (initTables self t) b p)
      = bitSerial (combineLanes (initTables self t) b) (p.take 4) := by
  have hlin := fun n => (linear_steps kCrc32cPoly n).map_xor
  have h128 : steps kCrc32cPoly 128 b.buf0
      = steps kCrc32cPoly 32 (steps kCrc32cPoly 32 (steps kCrc32cPoly 32
        (steps kCrc32cPoly 32 b.buf0))) := by
    simp only [← steps_add]
  rw [bitSerial_word _ p hp]
  simp only [combineLanes, combineOneWord_eq, wordStep, stepSwath_eq, hlin, h128,
    (linear_steps kCrc32cPoly 32).map_zero, xor_assoc]
  ac_rfl

/-- The data at `p`, a word and the rest. -/
theorem bitSerial_drop : bitSerial (bitSerial crc (p.take k)) (p.drop k) = bitSerial crc p := by
  rw [← bitSerial_append, take_append_drop]

/-- The register the lanes stand for, once the rest of the data has been fed. -/
def outcome (self : Crc32) (s : Lanes × List (BitVec 8)) : BitVec 32 :=
  bitSerial (combineLanes self s.1) s.2

theorem outcome_wordStep (hp : 4 ≤ p.length) :
    outcome (initTables self t) (wordStep (initTables self t) b p, p.drop 4)
      = outcome (initTables self t) (b, p) := by
  rw [outcome, combineLanes_wordStep self t b p hp, bitSerial_drop]
  rfl

/-- A stride is four word steps, after which every lane is back in its place. -/
theorem outcome_stepStride (hp : 16 ≤ p.length) :
    outcome (initTables self t) (stepStride (initTables self t) b p, p.drop 16)
      = outcome (initTables self t) (b, p) := by
  have hdrop : ∀ k, k ≤ 12 → 4 ≤ (p.drop k).length := fun k hk => by
    rw [length_drop]
    omega
  have h4 : p.drop 16 = (p.drop 12).drop 4 := by rw [drop_drop]
  have h3 : p.drop 12 = (p.drop 8).drop 4 := by rw [drop_drop]
  have h2 : p.drop 8 = (p.drop 4).drop 4 := by rw [drop_drop]
  let w := wordStep (initTables self t)
  calc outcome (initTables self t) (stepStride (initTables self t) b p, p.drop 16)
      = outcome (initTables self t)
          (w (w (w (w b p) (p.drop 4)) (p.drop 8)) (p.drop 12), p.drop 16) := rfl
    _ = outcome (initTables self t) (w (w (w b p) (p.drop 4)) (p.drop 8), p.drop 12) := by
        rw [h4, outcome_wordStep self t _ _ (hdrop 12 le_rfl)]
    _ = outcome (initTables self t) (w (w b p) (p.drop 4), p.drop 8) := by
        rw [h3, outcome_wordStep self t _ _ (hdrop 8 (by norm_num))]
    _ = outcome (initTables self t) (w b p, p.drop 4) := by
        rw [h2, outcome_wordStep self t _ _ (hdrop 4 (by norm_num))]
    _ = outcome (initTables self t) (b, p) := outcome_wordStep self t b p (by omega)

theorem outcome_prefetchLoop (cfg : Platform) (b : Lanes) (p : List (BitVec 8)) :
    outcome (initTables self t) (prefetchLoop cfg (initTables self t) b p)
      = outcome (initTables self t) (b, p) := by
  rw [prefetchLoop]
  split_ifs with h
  · have hlen := lt_of_le_of_lt cfg.horizon_ge h
    have hdrop : ∀ k, k ≤ 48 → 16 ≤ (p.drop k).length := fun k hk => by
      rw [length_drop]
      omega
    have hnext : ∀ k, p.drop (k + 16) = (p.drop k).drop 16 := fun k => by rw [drop_drop]
    rw [outcome_prefetchLoop cfg, hnext 48, outcome_stepStride self t _ _ (hdrop 48 le_rfl),
      hnext 32, outcome_stepStride self t _ _ (hdrop 32 (by norm_num)), hnext 16,
      outcome_stepStride self t _ _ (hdrop 16 (by norm_num)),
      outcome_stepStride self t _ _ (by omega)]
  · rfl
termination_by p.length
decreasing_by rw [length_drop]; omega

theorem outcome_strideLoop (b : Lanes) (p : List (BitVec 8)) :
    outcome (initTables self t) (strideLoop (initTables self t) b p)
      = outcome (initTables self t) (b, p) := by
  rw [strideLoop]
  split_ifs with h
  · rw [outcome_strideLoop, outcome_stepStride self t b p h]
  · rfl
termination_by p.length
decreasing_by rw [length_drop]; omega

theorem outcome_wordLoop (b : Lanes) (p : List (BitVec 8)) :
    outcome (initTables self t) (wordLoop (initTables self t) b p)
      = outcome (initTables self t) (b, p) := by
  rw [wordLoop]
  split_ifs with h
  · rw [outcome_wordLoop]
    exact outcome_wordStep self t b p h
  · rfl
termination_by p.length
decreasing_by rw [length_drop]; omega

/-- The first swath, loaded into the lanes. -/
theorem outcome_load (hp : 16 ≤ p.length) :
    outcome (initTables self t)
      (⟨load32 p ^^^ l, load32 (p.drop 4), load32 (p.drop 8), load32 (p.drop 12)⟩, p.drop 16)
      = bitSerial l p := by
  have hdrop : ∀ k, k ≤ 12 → 4 ≤ (p.drop k).length := fun k hk => by
    rw [length_drop]
    omega
  have hword : ∀ r k, k ≤ 12 →
      bitSerial (steps kCrc32cPoly 32 (r ^^^ load32 (p.drop k))) (p.drop (k + 4))
        = bitSerial r (p.drop k) := fun r k hk => by
    rw [← bitSerial_word r _ (hdrop k hk), ← drop_drop, bitSerial_drop]
  simp only [outcome, combineLanes, combineOneWord_eq]
  rw [hword _ 12 le_rfl, hword _ 8 (by norm_num), hword _ 4 (by norm_num)]
  have h0 := hword l 0 (by norm_num)
  rw [drop_zero, zero_add] at h0
  rw [← h0, BitVec.xor_comm (load32 p)]
  exact congrArg (fun r => bitSerial (steps kCrc32cPoly 32 r) (p.drop 4)) zero_xor

theorem extendSwaths_eq (hp : 16 ≤ p.length) :
    bitSerial (extendSwaths cfg (initTables self t) l p).1
        (extendSwaths cfg (initTables self t) l p).2
      = bitSerial l p := by
  have hword := outcome_wordLoop self t
  have hstride := outcome_strideLoop self t
  have hprefetch := outcome_prefetchLoop self t cfg
  rw [← outcome_load self t l p hp, ← hprefetch, ← hstride, ← hword]
  rfl

theorem extend_eq_bitSerial :
    extend cfg (initTables self t) addr crc bytes = bitSerial crc bytes := by
  unfold extend
  dsimp only
  generalize (if (cfg.needAlignedLoads = true ∧ roundUp4 addr ≤ addr + bytes.length)
    then roundUp4 addr - addr else 0) = k
  rw [stepBytes_eq, stepBytes_eq, ← bitSerial_drop crc k bytes]
  split_ifs with h
  · exact extendSwaths_eq self t cfg _ _ h
  · rfl

/-- The engine computes the bit-serial register, whatever the address of the data and whatever the
memory its tables were built in : every bit, least significant first, is fed to the reflected
register. -/
theorem extend_foldl_feed (cfg : Platform) (addr : ℕ) (crc : BitVec 32) (bytes : List (BitVec 8)) :
    extend cfg (initTables self t) addr crc bytes
      = (bytes.flatMap fun b => (range 8).map b.getLsbD).foldl (fun (c : BitVec 32) b =>
            if c.getLsbD 0 ^^ b then (c >>> 1) ^^^ 0x82f63b78 else c >>> 1) crc :=
  extend_eq_bitSerial self t cfg addr crc bytes

end Abseil.Crc32
