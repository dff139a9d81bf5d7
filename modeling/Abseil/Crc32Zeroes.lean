import Abseil.Crc32Extend
import Mathlib.Data.FinEnum

/-!
# Zero bytes and the algebra of checksums

`polyMultiply` is the product of registers, so the zeroes table holds the registers of
`8 * a * 16 ^ b` zero bits, and the loop over the hexadecimal digits of a length multiplies by
the right one for each digit. Unextending runs the same loop on the reversed register with the
reversed feedback, which undoes a step (`step_reverseBits`). The laws of `ConcatCrc32c` and its
relatives (`crc32c_algebra`) are then linearity of the register. They are laws of the portable
engine; the hardware paths are left out.
-/

namespace Abseil.Crc32

open BitVec ShiftRegister

/-! ## Products -/

theorem and_one_shiftLeft_ne_zero (l : BitVec 32) (n : ℕ) (hn : n < 32) :
    l &&& ((1 : BitVec 32) <<< n) ≠ 0 ↔ l.getLsbD n = true := by
  have htwo : (1 : BitVec 32) <<< n = twoPow 32 n := rfl
  rw [htwo, and_twoPow]
  split_ifs with h
  · refine iff_of_true (fun hz => ?_) h
    have hbit := congrArg (fun x => getLsbD x n) hz
    simp [hn] at hbit
  · exact iff_of_false (fun hz => hz rfl) h

theorem polyMultiplyLoop_eq (poly l : BitVec 32) : ∀ n ≤ 32, ∀ m result,
    polyMultiplyLoop poly l n m result = result ^^^ sum poly (fun i => l.getLsbD (n - 1 - i)) m n
  | 0, _, _, _ => xor_zero.symm
  | n + 1, hn, m, result => by
    have hacc : (if l &&& ((1 : BitVec 32) <<< n) ≠ 0 then result ^^^ m else result)
        = result ^^^ pick (l.getLsbD n) m := by
      by_cases h : l.getLsbD n = true
      · rw [if_pos ((and_one_shiftLeft_ne_zero l n hn).2 h), pick, if_pos h]
      · rw [if_neg fun hz => h ((and_one_shiftLeft_ne_zero l n hn).1 hz), pick, if_neg h]
        exact xor_zero.symm
    rw [polyMultiplyLoop, polyMultiplyLoop_eq poly l n (by omega), hacc, advanceBit_eq, sum_step,
      sum_succ', BitVec.xor_assoc, BitVec.xor_comm (pick _ m)]
    simp only [Nat.add_sub_cancel, Nat.sub_zero, Nat.sub_sub, Nat.add_comm 1]

theorem polyMultiply_eq (val m poly : BitVec 32) : polyMultiply val m poly = mul poly val m := by
  rw [polyMultiply, polyMultiplyLoop_eq poly val 32 le_rfl]
  refine zero_xor.trans (sum_congr poly m 32 fun i hi => ?_)
  rw [getMsbD_eq_getLsbD, decide_eq_true hi, Bool.true_and]

/-! ## The zeroes table -/

/-- The inner loop writes the multiples of `k` zero bits and keeps what is below. -/
theorem fillZeroesRound_eq (poly : BitVec 32) (k : ℕ) : ∀ a m j t,
    ∃ t', fillZeroesRound poly (steps poly k one) a (steps poly m one) j t
        = (steps poly (m + a * k) one, j + a, t') ∧
      (∀ i < a, t' (j + i) = steps poly (m + i * k) one) ∧ ∀ i < j, t' i = t i
  | 0, m, j, t => ⟨t, by rw [fillZeroesRound, Nat.zero_mul, Nat.add_zero, Nat.add_zero],
      nofun, fun _ _ => rfl⟩
  | a + 1, m, j, t => by
    obtain ⟨t', heq, hnew, hold⟩ := fillZeroesRound_eq poly k a (m + k) (j + 1)
      (Function.update t j _)
    refine ⟨t', ?_, fun i hi => ?_, fun i hi => ?_⟩
    · rw [fillZeroesRound, polyMultiply_eq, mul_steps_steps, heq, Nat.succ_mul]
      simp only [add_assoc, add_comm k, add_comm 1]
    · rcases i with _ | i
      · simp only [Nat.add_zero, hold j (Nat.lt_succ_self j), Function.update_self, Nat.zero_mul]
      · rw [← add_assoc, add_right_comm, hnew i (by omega), Nat.succ_mul, add_assoc, add_comm k]
    · rw [hold i (by omega), Function.update_of_ne (by omega)]

/-- The outer loop from round `b` on. -/
theorem fillZeroesLoop_eq (poly : BitVec 32) : ∀ n b t,
    ∃ t', fillZeroesLoop poly n (steps poly (8 * 16 ^ b) one) (15 * b) t = (15 * (b + n), t') ∧
      (∀ b', b ≤ b' → b' < b + n → ∀ c < 15,
        t' (15 * b' + c) = steps poly (8 * ((c + 1) * 16 ^ b')) one) ∧ ∀ i < 15 * b, t' i = t i
  | 0, b, t => ⟨t, rfl, fun b' h h' => absurd h' (by omega), fun _ _ => rfl⟩
  | n + 1, b, t => by
    obtain ⟨t1, heq, hnew, hold⟩ := fillZeroesRound_eq poly _ 15 _ (15 * b) t
    obtain ⟨t', heq', hnew', hold'⟩ := fillZeroesLoop_eq poly n (b + 1) t1
    refine ⟨t', ?_, fun b' hb hb' c hc => ?_, fun i hi => ?_⟩
    · have hpow : 8 * 16 ^ b + 15 * (8 * 16 ^ b) = 8 * 16 ^ (b + 1) := by
        ring
      rw [fillZeroesLoop, heq, hpow]
      dsimp only
      rw [← Nat.mul_succ, heq', add_assoc, add_comm 1]
    · rcases Nat.eq_or_lt_of_le hb with rfl | hlt
      · rw [hold' _ (by omega), hnew c hc]
        congr 1
        ring
      · exact hnew' b' hlt (by omega) c hc
    · rw [hold' i (by omega), hold i hi]

/-- `FillZeroesTable` : 240 entries, for each hexadecimal digit at each place. -/
theorem fillZeroesTable_eq (poly : BitVec 32) (t : Row) :
    (fillZeroesTable poly t).1 = 240 ∧ ∀ b < 16, ∀ c < 15,
      (fillZeroesTable poly t).2 (15 * b + c) = steps poly (8 * ((c + 1) * 16 ^ b)) one := by
  have hone : (1 : BitVec 32) <<< 31 >>> 1 = steps poly 1 one := by
    rw [steps_one poly 1 (by norm_num)]
    rfl
  obtain ⟨t', heq, hnew, -⟩ := fillZeroesLoop_eq poly 16 0 t
  have htable : fillZeroesTable poly t = (15 * (0 + 16), t') := by
    simp only [← heq, fillZeroesTable, hone, polyMultiply_eq, mul_steps_steps]
    simp only [Nat.reduceAdd, pow_zero, Nat.mul_one, Nat.mul_zero]
  rw [htable]
  exact ⟨rfl, fun b hb c hc => hnew b (Nat.zero_le b) (by omega) c hc⟩

/-! ## Multiplication by a table entry -/

theorem mtab_eq (entry l : BitVec 32) (j : ℕ) :
    mtab entry ((l >>> j) &&& 3) = pick (l.getLsbD j) (entry.setWidth 64 <<< 1) ^^^
      pick (l.getLsbD (j + 1)) (entry.setWidth 64 <<< 2) := by
  have hand : (l >>> j) &&& 3 = (if l.getLsbD j then 1 else 0) ^^^
      (if l.getLsbD (j + 1) then 2 else 0) := by
    refine eq_of_getLsbD_eq fun i hi => ?_
    have hrest : 2 ≤ i → (3#32).getLsbD i = false ∧ (2#32).getLsbD i = false := fun h => by
      interval_cases i <;> exact ⟨rfl, rfl⟩
    rcases i with _ | _ | i
    · cases h0 : l.getLsbD j <;> cases h1 : l.getLsbD (j + 1) <;> simp [h0]
    · cases h0 : l.getLsbD j <;> cases h1 : l.getLsbD (j + 1) <;> simp [h1]
    · obtain ⟨h3, h2⟩ := hrest (by omega)
      split_ifs <;> simp [h3, h2]
  have hshift : entry.setWidth 64 <<< 2 = entry.setWidth 64 <<< 1 <<< 1 := by
    rw [← shiftLeft_add]
  rw [hand, hshift, mtab]
  cases l.getLsbD j <;> cases l.getLsbD (j + 1) <;> simp [pick, BitVec.xor_comm]

/-- A table entry moved up by at most eight bits comes down in the wide register. -/
theorem steps_entry (poly entry : BitVec 32) (k : ℕ) (hk : k ≤ 8) :
    steps (poly.setWidth 64) 8 (entry.setWidth 64 <<< k)
      = (steps poly (8 - k) entry).setWidth 64 := by
  have hdown : entry.setWidth 64 <<< k >>> k = entry.setWidth 64 := by
    refine eq_of_toNat_eq ?_
    have hlt : entry.toNat * 2 ^ k < 2 ^ 64 :=
      calc entry.toNat * 2 ^ k < 2 ^ 32 * 2 ^ k :=
            Nat.mul_lt_mul_of_pos_right entry.isLt (Nat.two_pow_pos k)
        _ ≤ 2 ^ 32 * 2 ^ 8 := Nat.mul_le_mul_left _ (Nat.pow_le_pow_right (by norm_num) hk)
        _ ≤ 2 ^ 64 := by norm_num
    rw [toNat_ushiftRight, BitVec.toNat_shiftLeft, toNat_setWidth_of_le (by norm_num),
      Nat.shiftLeft_eq, Nat.mod_eq_of_lt hlt, Nat.shiftRight_eq_div_pow,
      Nat.mul_div_cancel _ (Nat.two_pow_pos k)]
  calc steps (poly.setWidth 64) 8 (entry.setWidth 64 <<< k)
      = steps (poly.setWidth 64) (k + (8 - k)) (entry.setWidth 64 <<< k) := by
        rw [Nat.add_sub_cancel' hk]
    _ = steps (poly.setWidth 64) (8 - k) (entry.setWidth 64) := by
        rw [steps_add, steps_shiftLeft, hdown]
    _ = _ := steps_setWidth (by norm_num) poly _ entry

variable {poly : BitVec 32} {t : Row}

section Multiply

variable (ht : ∀ v < 256, t v = steps poly 8 (BitVec.ofNat 32 v)) (entry l : BitVec 32)
include ht

/-- The reduction of the wide result by the byte table is eight steps of the wide register. -/
theorem reduce_eq_steps (c : BitVec 64) :
    (c >>> 8) ^^^ (t (c &&& 0xff).toNat).setWidth 64 = steps (poly.setWidth 64) 8 c := by
  have hlow : c ^^^ (c >>> 8 <<< 8) = c &&& 0xff := by
    refine eq_of_getLsbD_eq fun i hi => ?_
    interval_cases i <;> simp
  have hlt : (c &&& 0xff).toNat < 256 := by
    exact Nat.and_lt_two_pow _ (by norm_num : 255 < 2 ^ 8)
  have hbyte : (BitVec.ofNat 32 (c &&& 0xff).toNat).setWidth 64 = c &&& 0xff := by
    refine eq_of_toNat_eq ?_
    rw [toNat_setWidth_of_le (by norm_num), toNat_ofNat, Nat.mod_eq_of_lt (by omega)]
  rw [ht _ hlt, ← steps_setWidth (by norm_num), hbyte, steps_split _ 8 c, hlow]

/-- Eight bits of `l` : the result advances by a byte and takes the multiples of the entry. -/
theorem multiplyByte_eq (r : BitVec 32) : multiplyByte t entry l (r.setWidth 64)
      = (sum poly (fun i => l.getLsbD (7 - i)) entry 8 ^^^ steps poly 8 r).setWidth 64 := by
  have hm0 := mtab_eq entry l 0
  rw [ushiftRight_zero] at hm0
  have hpick : ∀ b k, k ≤ 8 →
      steps (poly.setWidth 64) 8 (pick b (entry.setWidth 64 <<< k))
        = (pick b (steps poly (8 - k) entry)).setWidth 64 := fun b k hk => by
    rw [(linear_steps _ 8).map_pick, steps_entry poly entry k hk]
    cases b
    · exact (setWidth_zero 64 32).symm
    · rfl
  have hshift : ∀ b (c : BitVec 64) k, pick b c <<< k = pick b (c <<< k) :=
    fun b c k => by
      cases b
      · exact zero_shiftLeft k
      · rfl
  unfold multiplyByte
  simp only [reduce_eq_steps ht, hm0, mtab_eq]
  simp only [(linear_steps _ 8).map_xor, shiftLeft_xor_distrib, hshift,
    ← shiftLeft_add, Nat.reduceAdd, hpick _ 1 (by norm_num), hpick _ 2 (by norm_num),
    hpick _ 3 (by norm_num), hpick _ 4 (by norm_num), hpick _ 5 (by norm_num),
    hpick _ 6 (by norm_num), hpick _ 7 (by norm_num), hpick _ 8 (by norm_num),
    steps_setWidth (show 32 ≤ 64 by norm_num), ← setWidth_xor, Nat.reduceSub, sum]
  ac_rfl

/-- After the low `8 * k` bits of `l` the result is their part of the product. -/
theorem multiplyLoop_eq : ∀ n k, multiplyLoop t entry n (l >>> (8 * k))
        ((sum poly (fun i => l.getLsbD (8 * k - 1 - i)) entry (8 * k)).setWidth 64)
      = (sum poly (fun i => l.getLsbD (8 * (k + n) - 1 - i)) entry (8 * (k + n))).setWidth 64
  | 0, _ => rfl
  | n + 1, k => by
    have hsum : sum poly (fun i => (l >>> (8 * k)).getLsbD (7 - i)) entry 8 ^^^
        steps poly 8 (sum poly (fun i => l.getLsbD (8 * k - 1 - i)) entry (8 * k))
        = sum poly (fun i => l.getLsbD (8 * (k + 1) - 1 - i)) entry (8 * (k + 1)) := by
      rw [Nat.mul_succ, Nat.add_comm (8 * k) 8, sum_add]
      congr 1
      · refine sum_congr poly entry 8 fun i hi => ?_
        rw [getLsbD_ushiftRight, show 8 * k + (7 - i) = 8 + 8 * k - 1 - i by omega]
      · refine congrArg _ (sum_congr poly entry _ fun i hi => ?_)
        rw [show 8 + 8 * k - 1 - (8 + i) = 8 * k - 1 - i by omega]
    rw [multiplyLoop, multiplyByte_eq ht, hsum, ← shiftRight_add, ← Nat.mul_succ,
      multiplyLoop_eq n (k + 1), Nat.add_assoc, Nat.add_comm 1]

theorem multiplyLoop_eq_mul : (multiplyLoop t entry 4 l 0).setWidth 32 = mul poly l entry := by
  have h := multiplyLoop_eq ht entry l 4 0
  rw [Nat.mul_zero, ushiftRight_zero, sum] at h
  have hz : (0 : BitVec 32).setWidth 64 = 0 := rfl
  rw [hz] at h
  rw [h, setWidth_setWidth_of_le _ (by norm_num), setWidth_eq]
  refine sum_congr poly entry 32 fun i hi => ?_
  rw [getMsbD_eq_getLsbD, decide_eq_true hi, Bool.true_and]

end Multiply

/-! ## Extending by zero bytes -/

/-- What the two tables of an extension by zero bytes hold. -/
structure ZeroTables (poly : BitVec 32) (zeroesTable polyTable : Row) : Prop where
  byte : ∀ v < 256, polyTable v = steps poly 8 (BitVec.ofNat 32 v)
  digit : ∀ b < 16, ∀ c < 15, zeroesTable (15 * b + c) = steps poly (8 * ((c + 1) * 16 ^ b)) one

theorem ZeroTables.loop_eq {z : Row} (h : ZeroTables poly z t) (b length : ℕ) (l : BitVec 32)
    (hlen : length < 16 ^ (16 - b)) :
    extendByZeroesLoop z t (15 * b) l length = steps poly (8 * (length * 16 ^ b)) l := by
  rw [extendByZeroesLoop]
  split_ifs with h0
  · have hb : b < 16 := by
      by_contra hge
      rw [Nat.sub_eq_zero_of_le (by omega)] at hlen
      omega
    have hdigit : (if length % 16 ≠ 0
        then (multiplyLoop t (z (length % 16 + 15 * b - 1)) 4 l 0).setWidth 32 else l)
        = steps poly (8 * (length % 16 * 16 ^ b)) l := by
      split_ifs with hc
      · rw [show length % 16 + 15 * b - 1 = 15 * b + (length % 16 - 1) by omega,
          h.digit b hb _ (by omega), multiplyLoop_eq_mul h.byte, mul_steps_one,
          Nat.sub_add_cancel (by omega)]
      · rw [not_not.1 hc, Nat.zero_mul, Nat.mul_zero, steps]
    have hpow : 16 ^ (16 - b) = 16 * 16 ^ (16 - (b + 1)) := by
      rw [← pow_succ', show 16 - (b + 1) + 1 = 16 - b by omega]
    have hnext : length / 16 < 16 ^ (16 - (b + 1)) := by
      rwa [Nat.div_lt_iff_lt_mul (by norm_num), Nat.mul_comm, ← hpow]
    have hsplit : 8 * (length % 16 * 16 ^ b) + 8 * (length / 16 * 16 ^ (b + 1))
        = 8 * (length * 16 ^ b) := by
      conv_rhs => rw [← Nat.mod_add_div length 16]
      ring
    dsimp only
    rw [hdigit, ← Nat.mul_succ, ZeroTables.loop_eq h (b + 1) _ _ hnext, ← steps_add, hsplit]
  · rw [not_not.1 h0, Nat.zero_mul, Nat.mul_zero, steps]
termination_by length

theorem ZeroTables.impl_eq {z : Row} (h : ZeroTables poly z t) (crc : BitVec 32) (length : ℕ)
    (hlen : length < 2 ^ 64) : extendByZeroesImpl crc length z t = steps poly (8 * length) crc := by
  unfold extendByZeroesImpl
  split_ifs with h0
  · have hloop := h.loop_eq 0 length crc (by norm_num at hlen ⊢; exact hlen)
    rwa [Nat.mul_zero, pow_zero, Nat.mul_one] at hloop
  · rw [not_not.1 h0, Nat.mul_zero, steps]

variable (cfg : Platform) (self : Crc32) (t : ℕ → Row) (crc x c : BitVec 32)

theorem initTables_zeroes (i : ℕ) : ∃ r, (initTables self t).zeroes i =
    if i < (fillZeroesTable kCrc32cPoly r).1 then (fillZeroesTable kCrc32cPoly r).2 i
    else self.zeroes i := by
  simp only [initTables]
  exact ⟨_, rfl⟩

theorem initTables_reverseTable0 : (initTables self t).reverseTable0
    = fillWordTable kCrc32cUnextendPoly kCrc32cUnextendPoly 1 (fun _ => self.reverseTable0) 0 := by
  rfl

theorem zeroTables :
    ZeroTables kCrc32cPoly (initTables self t).zeroes (initTables self t).table0 where
  byte := initTables_table0 self t
  digit b hb c hc := by
    obtain ⟨r, hr⟩ := initTables_zeroes self t _
    obtain ⟨hsize, hentry⟩ := fillZeroesTable_eq kCrc32cPoly r
    rw [hr]
    exact (if_pos (by rw [hsize]; omega)).trans (hentry b hb c hc)

theorem reverseZeroTables : ZeroTables kCrc32cUnextendPoly (initTables self t).reverseZeroes
    (initTables self t).reverseTable0 where
  byte v hv := by
    rw [initTables_reverseTable0]
    exact fillWordTable_poly kCrc32cUnextendPoly _ v hv
  digit b hb c hc := by
    exact (fillZeroesTable_eq kCrc32cUnextendPoly self.reverseZeroes).2 b hb c hc

theorem extendByZeroes_eq (length : ℕ) (hlen : length < 2 ^ 64) :
    extendByZeroes (initTables self t) crc length = steps kCrc32cPoly (8 * length) crc :=
  (zeroTables self t).impl_eq crc length hlen

/-! ## Going back -/

theorem reverseBits_getLsbD (i : ℕ) (hi : i < 32) :
    (reverseBits x).getLsbD i = x.getLsbD (31 - i) := by
  unfold reverseBits gbswap32
  interval_cases i <;> simp

theorem reverseBits_reverseBits : reverseBits (reverseBits x) = x := by
  refine eq_of_getLsbD_eq fun i hi => ?_
  rw [reverseBits_getLsbD _ i hi, reverseBits_getLsbD _ _ (by omega),
    show 31 - (31 - i) = i by omega]

theorem getLsbD_pick (b : Bool) (x : BitVec 32) (i : ℕ) :
    (pick b x).getLsbD i = (b && x.getLsbD i) := by
  cases b
  · exact getLsbD_zero
  · rfl

theorem step_getLsbD (poly c : BitVec 32) (i : ℕ) :
    (step poly c).getLsbD i = (c.getLsbD (1 + i) ^^ (c.getLsbD 0 && poly.getLsbD i)) := by
  rw [step_eq, getLsbD_xor, getLsbD_ushiftRight, getLsbD_pick]

/-- A step of the reversed register with the reversed feedback undoes a step : the bit that
went out is the top bit of the result, since the feedback has that bit. -/
theorem step_reverseBits :
    step kCrc32cUnextendPoly (reverseBits (step kCrc32cPoly c)) = reverseBits c := by
  refine eq_of_getLsbD_eq fun i hi => ?_
  have htop : (step kCrc32cPoly c).getLsbD 31 = c.getLsbD 0 := by
    rw [step_getLsbD, getLsbD_of_ge c _ (by norm_num), Bool.false_xor]
    exact Bool.and_true _
  rw [step_getLsbD, reverseBits_getLsbD _ 0 (by norm_num), reverseBits_getLsbD c i hi, htop,
    kCrc32cUnextendPoly, reverseBits_getLsbD _ i hi, getLsbD_xor, getLsbD_shiftLeft]
  rcases Nat.lt_succ_iff_lt_or_eq.1 hi with hlt | rfl
  · rw [reverseBits_getLsbD _ (1 + i) (by omega), step_getLsbD,
      show 1 + (31 - (1 + i)) = 31 - i by omega, show 31 - (1 + i) = 31 - i - 1 by omega]
    have hone : (1 : BitVec 32).getLsbD (31 - i) = false := by
      interval_cases i <;> rfl
    rw [hone, decide_eq_true (by omega : 31 - i < 32), decide_eq_false (by omega : ¬ 31 - i < 1)]
    cases c.getLsbD 0 <;> simp
  · rw [getLsbD_of_ge _ (1 + 31) (by norm_num)]
    cases c.getLsbD 0 <;> simp

theorem steps_reverseBits : ∀ n,
    steps kCrc32cUnextendPoly n (reverseBits (steps kCrc32cPoly n c)) = reverseBits c
  | 0 => rfl
  | n + 1 => by rw [steps_succ', steps, step_reverseBits, steps_reverseBits n]

theorem unextendByZeroes_eq (length : ℕ) (hlen : length < 2 ^ 64) :
    unextendByZeroes (initTables self t) (steps kCrc32cPoly (8 * length) crc) length = crc := by
  rw [unextendByZeroes, (reverseZeroTables self t).impl_eq _ length hlen, steps_reverseBits,
    reverseBits_reverseBits]

/-! ## Checksums -/

/-- Feeding data to a register : the register advances, and the data alone is added. -/
theorem bitSerial_eq : ∀ bytes,
    bitSerial crc bytes = steps kCrc32cPoly (8 * bytes.length) crc ^^^ bitSerial 0 bytes := by
  intro bytes
  induction bytes using List.reverseRecOn with
  | nil => exact xor_zero.symm
  | append_singleton bytes b ih =>
    simp only [bitSerial_append, ih, bitSerial_append 0, bitSerial_singleton, BitVec.xor_assoc,
      (linear_steps kCrc32cPoly 8).map_xor, ← steps_add, List.length_append]
    rfl

theorem bitSerial_replicate_zero : ∀ n,
    bitSerial crc (List.replicate n 0) = steps kCrc32cPoly (8 * n) crc
  | 0 => rfl
  | n + 1 => by
    rw [List.replicate_succ', bitSerial_append, bitSerial_replicate_zero n, bitSerial_singleton,
      Nat.mul_succ, steps_add]
    exact congrArg _ xor_zero

/-- The checksum of a byte string in terms of the register. -/
def checksum (bytes : List (BitVec 8)) : BitVec 32 := bitSerial kCRC32Xor bytes ^^^ kCRC32Xor

/-- The checksum of a concatenation : the first one advanced, and the second one added. -/
theorem checksum_append (a b : List (BitVec 8)) :
    checksum (a ++ b) = steps kCrc32cPoly (8 * b.length) (checksum a) ^^^ checksum b := by
  unfold checksum
  rw [bitSerial_append, bitSerial_eq _ b, bitSerial_eq kCRC32Xor b,
    (linear_steps kCrc32cPoly _).map_xor, BitVec.xor_assoc _,
    BitVec.xor_assoc _ _, BitVec.xor_assoc, xor_cancel_left]

theorem extendCrc32c_eq (addr : ℕ) (crc : BitVec 32) (bytes : List (BitVec 8)) :
    extendCrc32c cfg (initTables self t) addr crc bytes
      = bitSerial (crc ^^^ kCRC32Xor) bytes ^^^ kCRC32Xor := by
  rw [extendCrc32c, extend_eq_bitSerial]

theorem computeCrc32c_eq (addr : ℕ) (bytes : List (BitVec 8)) :
    computeCrc32c cfg (initTables self t) addr bytes = checksum bytes := by
  rw [computeCrc32c, extendCrc32c_eq, checksum]
  exact congrArg (fun c => bitSerial c bytes ^^^ kCRC32Xor) zero_xor

theorem concatCrc32c_eq (crc crc' : BitVec 32) (n : ℕ) (hn : n < 2 ^ 64) :
    concatCrc32c (initTables self t) crc crc' n = steps kCrc32cPoly (8 * n) crc ^^^ crc' := by
  rw [concatCrc32c, extendByZeroes_eq self t crc n hn]

/-- The laws of checksums, `c` being the one an engine computes, in whatever memory its tables were
built and at whatever addresses the data lies. -/
structure Laws (engine : Crc32) (c : ℕ → List (BitVec 8) → BitVec 32)
    (a b : List (BitVec 8)) (n addr addr' addr'' : ℕ) : Prop where
  extend : extendCrc32c cfg engine addr' (c addr a) b = c addr'' (a ++ b)
  concat : concatCrc32c engine (c addr a) (c addr' b) b.length = c addr'' (a ++ b)
  removePrefix : removeCrc32cPrefix engine (c addr a) (c addr'' (a ++ b)) b.length = c addr' b
  removeSuffix : removeCrc32cSuffix engine (c addr'' (a ++ b)) (c addr' b) b.length = c addr a
  zeroes : extendCrc32cByZeroes engine (c addr a) n = c addr'' (a ++ List.replicate n 0)

/-- **The algebra of checksums.** The laws hold on the portable engine for all byte strings whose
lengths a `size_t` can hold. -/
theorem crc32c_algebra (a b : List (BitVec 8)) (n addr addr' addr'' : ℕ)
    (hb : b.length < 2 ^ 64) (hn : n < 2 ^ 64) :
    Laws cfg (initTables self t) (computeCrc32c cfg (initTables self t))
      a b n addr addr' addr'' := by
  have hc := computeCrc32c_eq cfg self t
  refine ⟨?_, ?_, ?_, ?_, ?_⟩ <;> simp only [hc]
  · rw [extendCrc32c_eq, checksum, checksum, BitVec.xor_assoc, BitVec.xor_self, xor_zero,
      ← bitSerial_append]
  · rw [concatCrc32c_eq self t _ _ _ hb, checksum_append]
  · rw [removeCrc32cPrefix, concatCrc32c_eq self t _ _ _ hb, checksum_append, xor_cancel_left]
  · rw [removeCrc32cSuffix, checksum_append, BitVec.xor_assoc, BitVec.xor_self, xor_zero,
      unextendByZeroes_eq self t _ _ hb]
  · rw [extendCrc32cByZeroes, extendByZeroes_eq self t _ n hn, checksum, checksum, BitVec.xor_assoc,
      BitVec.xor_self, xor_zero, bitSerial_append, bitSerial_replicate_zero]

/-- Zeroes are fed by the digits of their count, and `UnextendByZeroes` undoes it on both sides : it
is a left inverse on a finite set. -/
theorem extendByZeroes_inverse (addr n : ℕ) (crc : BitVec 32) (hn : n < 2 ^ 64) :
    extendByZeroes (initTables self t) crc n = bitSerial crc (List.replicate n 0)
      ∧ extendByZeroes (initTables self t) crc n
        = extend cfg (initTables self t) addr crc (List.replicate n 0)
      ∧ unextendByZeroes (initTables self t) (extendByZeroes (initTables self t) crc n) n = crc
      ∧ extendByZeroes (initTables self t) (unextendByZeroes (initTables self t) crc n) n
        = crc := by
  have hzero : extendByZeroes (initTables self t) crc n = bitSerial crc (List.replicate n 0) := by
    rw [extendByZeroes_eq self t crc n hn, bitSerial_replicate_zero]
  have hleft : Function.LeftInverse (unextendByZeroes (initTables self t) · n)
      (extendByZeroes (initTables self t) · n) := by
    intro c
    beta_reduce
    rw [extendByZeroes_eq self t c n hn, unextendByZeroes_eq self t c n hn]
  have hsurj := Finite.injective_iff_surjective.1 hleft.injective
  exact ⟨hzero, by rw [extend_eq_bitSerial, hzero], hleft crc,
    hleft.rightInverse_of_surjective hsurj crc⟩

/-- Eight zero bytes fed and taken back, on an engine whose memory was zero. -/
theorem extendByZeroes_inverse_eight : ∃ engine : Crc32,
    unextendByZeroes engine (extendByZeroes engine 1 8) 8 = 1 :=
  ⟨initTables ⟨fun _ => 0, fun _ _ => 0, fun _ => 0, fun _ => 0, fun _ => 0⟩ fun _ _ => 0,
    (extendByZeroes_inverse ⟨true, 256, by decide⟩ _ _ 0 8 1 (by norm_num)).2.2.1⟩

/-- The laws on an engine whose memory was zero, for one byte, two bytes and a long run of
zero bytes. -/
theorem crc32c_algebra_three_bytes : Laws ⟨true, 256, by decide⟩
      (initTables ⟨fun _ => 0, fun _ _ => 0, fun _ => 0, fun _ => 0, fun _ => 0⟩ fun _ _ => 0)
      (computeCrc32c ⟨true, 256, by decide⟩
        (initTables ⟨fun _ => 0, fun _ _ => 0, fun _ => 0, fun _ => 0, fun _ => 0⟩ fun _ _ => 0))
      [0x61] [0x62, 0x63] (2 ^ 64 - 1) 1 2 3 :=
  crc32c_algebra _ _ _ [0x61] [0x62, 0x63] (2 ^ 64 - 1) 1 2 3 (by norm_num) (by norm_num)

/-! ## Error detection -/

theorem steps_injective (n : ℕ) : Function.Injective (steps kCrc32cPoly n) := by
  intro c d h
  rw [← reverseBits_reverseBits c, ← steps_reverseBits c n, h, steps_reverseBits,
    reverseBits_reverseBits]

theorem foldl_feed_injective : ∀ bits : List Bool,
    Function.Injective fun c => bits.foldl (feed kCrc32cPoly) c
  | [] => fun _ _ h => h
  | b :: bits => fun c d h => by
    -- a word that ends in `b`, added beforehand
    have hb : (fill 32 b).getLsbD 0 = b := by cases b <;> rfl
    have hfeed : feed kCrc32cPoly c b = feed kCrc32cPoly d b := foldl_feed_injective bits h
    refine (xor_left_inj (fill 32 b)).1 (steps_injective 1 ?_)
    rw [steps, steps, steps, steps, step_xor, step_xor, hb, hfeed]

theorem exists_word {bits : List Bool} (h : bits.length ≤ 32) : ∃ w : BitVec 32,
    (List.range bits.length).map w.getLsbD = bits ∧ w >>> bits.length = 0 := by
  refine ⟨(ofBoolListLE bits).setWidth 32, List.ext_getElem (by simp) fun i _ hi => ?_,
    eq_of_getLsbD_eq fun i _ => by simp⟩
  simp [-getLsbD_eq_getElem, hi.trans_le h, hi]

/-- A burst is detected : byte strings whose bits agree but for a stretch of at most 32 have
different checksums. -/
theorem computeCrc32c_burst {u v : List (BitVec 8)} {a x y b : List Bool} (addr addr' : ℕ)
    (hu : bitsOf u = a ++ x ++ b) (hv : bitsOf v = a ++ y ++ b) (hlen : y.length = x.length)
    (hx : x.length ≤ 32) (hne : x ≠ y) : computeCrc32c cfg (initTables self t) addr u
      ≠ computeCrc32c cfg (initTables self t) addr' v := by
  intro h
  obtain ⟨p, hp, hp0⟩ := exists_word hx
  obtain ⟨q, hq, hq0⟩ := exists_word (hlen.trans_le hx)
  rw [hlen] at hq hq0
  simp only [computeCrc32c_eq, checksum, xor_left_inj, bitSerial, hu, hv, List.foldl_append] at h
  set c := a.foldl (feed kCrc32cPoly) kCRC32Xor
  have hstate := foldl_feed_injective b h
  rw [← hp, ← hq] at hne hstate
  have hword : c ^^^ p = c ^^^ q := by
    refine steps_injective x.length ?_
    rw [steps_xor, steps_xor, hstate, hp0, hq0]
  exact hne (by rw [(xor_right_inj c).1 hword])

/-- A byte is changed, on an engine whose memory was zero. -/
theorem computeCrc32c_burst_byte : ∃ engine : Crc32,
    computeCrc32c ⟨true, 256, by decide⟩ engine 0 [0x61, 0x62]
      ≠ computeCrc32c ⟨true, 256, by decide⟩ engine 0 [0x61, 0x63] :=
  ⟨initTables ⟨fun _ => 0, fun _ _ => 0, fun _ => 0, fun _ => 0, fun _ => 0⟩ fun _ _ => 0,
    computeCrc32c_burst _ _ _ (a := bitsOf [0x61]) (b := []) 0 0 rfl rfl rfl (by decide)
      (by decide)⟩

end Abseil.Crc32
