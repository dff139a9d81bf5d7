import Abseil.BitScan

/-!
# Groups of control bytes

`hashtable_control_bytes.h` : every slot of a Swiss table has a control byte, and the
table reads the bytes of `kWidth` slots at a time as a `Group`. A group answers a question
about its bytes with a bit mask, one flag for each byte : `GroupSse2Impl` compares sixteen
bytes at once, `GroupPortableImpl` computes the flags of eight bytes inside one 64-bit
word. A pointer to control bytes is the function that gives the bytes behind it.

Each mask is shown to mark exactly the bytes it is named after, as long as the bytes are
ones a table stores (`Stored`). The portable `Match` can also mark a byte that does not
match (`match_spec`), but never one that is not full, and only above one that does.
-/

namespace Abseil.Swiss

open Nat BitScan
open BitVec (getLsbD_ofNat getLsbD_and getLsbD getLsbD_not msb_eq_getLsbD_last getLsbD_xor)

/-! ## Control bytes -/

/-- `ctrl_t`. -/
abbrev Ctrl := BitVec 8

/-- `ctrl_t::kEmpty`. -/
def kEmpty : Ctrl := 0x80#8

/-- `ctrl_t::kDeleted`. -/
def kDeleted : Ctrl := 0xFE#8

/-- `ctrl_t::kSentinel`. -/
def kSentinel : Ctrl := 0xFF#8

/-- `IsEmpty`. -/
def isEmpty (c : Ctrl) : Bool := c == kEmpty

/-- `IsFull`. -/
def isFull (c : Ctrl) : Bool := 0 ≤ c.toInt

/-- `IsDeleted`. -/
def isDeleted (c : Ctrl) : Bool := c == kDeleted

/-- `IsEmptyOrDeleted`. -/
def isEmptyOrDeleted (c : Ctrl) : Bool := c.toInt < kSentinel.toInt

/-- The bytes a table keeps : full ones and three of the special values. -/
def Stored (c : Ctrl) : Prop := isFull c ∨ c = kEmpty ∨ c = kDeleted ∨ c = kSentinel

instance (c : Ctrl) : Decidable (Stored c) := by unfold Stored; infer_instance

/-! ## Masks -/

/-- The two group implementations : sixteen bytes with SSE2, eight in portable code. -/
inductive GroupImpl
  | sse2
  | portable
  deriving DecidableEq, Repr

namespace GroupImpl

/-- `Group::kWidth`. -/
def kWidth : GroupImpl → ℕ
  | sse2 => 16
  | portable => 8

/-- `Shift` of the mask type. -/
def shift : GroupImpl → ℕ
  | sse2 => 0
  | portable => 3

/-- `sizeof(T) * 8` of the mask's integer type. -/
def maskBits : GroupImpl → ℕ
  | sse2 => 32
  | portable => 64

end GroupImpl

/-- `BitMask` and `NonIterableBitMask` of a group implementation. -/
structure BitMask (g : GroupImpl) where
  mask : ℕ

namespace BitMask

variable {g : GroupImpl}

/-- `operator bool`. -/
def toBool (m : BitMask g) : Bool := m.mask != 0

/-- `LowestBitSet`. -/
def lowestBitSet (m : BitMask g) : ℕ := ctz m.mask >>> g.shift

/-- `TrailingZeros`. -/
def trailingZeros (m : BitMask g) : ℕ := ctz m.mask >>> g.shift

/-- `LeadingZeros`. -/
def leadingZeros (m : BitMask g) : ℕ :=
  let totalSignificantBits := g.kWidth <<< g.shift
  let extraBits := g.maskBits - totalSignificantBits
  (g.maskBits - (m.mask <<< extraBits).size) >>> g.shift

/-- The indices a range-based `for` over the mask visits. -/
def toList (m : BitMask g) : List ℕ := scan g.shift m.mask

end BitMask

/-! ## Portable groups -/

namespace GroupPortable

/-- The highest bit of each byte. -/
def kMsbs8Bytes : BitVec 64 := 0x8080808080808080#64

/-- The lowest bit of each byte. -/
def lsbs : BitVec 64 := 0x0101010101010101#64

/-- `little_endian::Load64`. -/
def load64 (pos : ℕ → Ctrl) : BitVec 64 :=
  BitVec.ofNat 64 (ofBits fun i : Fin 64 => (pos (i / 8)).getLsbD (i % 8))

/-- Byte `i` of what `little_endian::Store64` writes. -/
def store64 (w : BitVec 64) (i : ℕ) : Ctrl := w.extractLsb' (8 * i) 8

/-- `Match` on the word of the group. -/
def matchWord (ctrl : BitVec 64) (hash : Ctrl) : BitVec 64 :=
  let x := ctrl ^^^ (lsbs * hash.setWidth 64)
  (x - lsbs) &&& ~~~x &&& kMsbs8Bytes

/-- `MaskEmpty`. -/
def maskEmptyWord (ctrl : BitVec 64) : BitVec 64 := (ctrl &&& ~~~(ctrl <<< 6)) &&& kMsbs8Bytes

/-- `MaskFull`. -/
def maskFullWord (ctrl : BitVec 64) : BitVec 64 := (ctrl ^^^ kMsbs8Bytes) &&& kMsbs8Bytes

/-- `MaskNonFull`. -/
def maskNonFullWord (ctrl : BitVec 64) : BitVec 64 := ctrl &&& kMsbs8Bytes

/-- `MaskEmptyOrDeleted`. -/
def maskEmptyOrDeletedWord (ctrl : BitVec 64) : BitVec 64 :=
  (ctrl &&& ~~~(ctrl <<< 7)) &&& kMsbs8Bytes

/-- `MaskFullOrSentinel`. -/
def maskFullOrSentinelWord (ctrl : BitVec 64) : BitVec 64 :=
  (~~~ctrl ||| (ctrl <<< 7)) &&& kMsbs8Bytes

/-- `ConvertSpecialToEmptyAndFullToDeleted`. -/
def convertWord (ctrl : BitVec 64) : BitVec 64 :=
  let x := ctrl &&& kMsbs8Bytes
  (~~~x + (x >>> 7)) &&& ~~~lsbs

end GroupPortable

/-! ## SSE2 groups

A 128-bit register is the function that gives its sixteen bytes. -/

namespace GroupSse2

/-- `_mm_movemask_epi8`. -/
def moveMask (xmm : ℕ → Ctrl) : ℕ := ofBits fun i : Fin 16 => (xmm i).msb

/-- `_mm_cmpeq_epi8`, byte by byte. -/
def cmpeq (a b : Ctrl) : Ctrl := if a = b then 0xFF#8 else 0#8

/-- `_mm_cmpgt_epi8`, byte by byte. -/
def cmpgt (a b : Ctrl) : Ctrl := if b.toInt < a.toInt then 0xFF#8 else 0#8

/-- `_mm_subs_epi8`, byte by byte : the difference, saturated at both ends. -/
def subs (a b : Ctrl) : Ctrl := BitVec.ofInt 8 (max (-128) (min 127 (a.toInt - b.toInt)))

end GroupSse2

/-! ## The masks of a group -/

namespace GroupImpl

open GroupPortable GroupSse2

variable (g : GroupImpl) (pos : ℕ → Ctrl)

/-- `Match`. -/
def «match» (hash : Ctrl) : BitMask g :=
  match g with
  | sse2 => ⟨moveMask fun i => cmpeq hash (pos i)⟩
  | portable => ⟨(matchWord (load64 pos) hash).toNat⟩

/-- `MaskEmpty`. -/
def maskEmpty : BitMask g :=
  match g with
  | sse2 => ⟨moveMask fun i => cmpeq kEmpty (pos i)⟩
  | portable => ⟨(maskEmptyWord (load64 pos)).toNat⟩

/-- `MaskFull`. -/
def maskFull : BitMask g :=
  match g with
  | sse2 => ⟨moveMask pos ^^^ 0xffff⟩
  | portable => ⟨(maskFullWord (load64 pos)).toNat⟩

/-- `MaskNonFull`. -/
def maskNonFull : BitMask g :=
  match g with
  | sse2 => ⟨moveMask pos⟩
  | portable => ⟨(maskNonFullWord (load64 pos)).toNat⟩

/-- `MaskEmptyOrDeleted`. -/
def maskEmptyOrDeleted : BitMask g :=
  match g with
  | sse2 => ⟨moveMask fun i => cmpgt kSentinel (pos i)⟩
  | portable => ⟨(maskEmptyOrDeletedWord (load64 pos)).toNat⟩

/-- `MaskFullOrSentinel`. -/
def maskFullOrSentinel : BitMask g :=
  match g with
  | sse2 => ⟨moveMask fun i => cmpgt (pos i) (kSentinel - 1)⟩
  | portable => ⟨(maskFullOrSentinelWord (load64 pos)).toNat⟩

/-- The bytes `ConvertSpecialToEmptyAndFullToDeleted` writes. -/
def convertSpecialToEmptyAndFullToDeleted (i : ℕ) : Ctrl :=
  match g with
  | sse2 => subs (0x80#8 &&& pos i) 2#8
  | portable => store64 (convertWord (load64 pos)) i

end GroupImpl

/-! ## What the masks mark -/

/-- `m` marks the bytes of a group with the property `p`. -/
def BitMask.Marks {g : GroupImpl} (m : BitMask g) (p : ℕ → Bool) : Prop :=
  BitScan.Marks g.shift g.kWidth m.mask p

namespace BitMask

variable {g : GroupImpl} {m : BitMask g} {p : ℕ → Bool}

/-- A mask is not empty if a byte is marked. -/
theorem Marks.toBool_iff (h : m.Marks p) : m.toBool = true ↔ ∃ i < g.kWidth, p i = true := by
  rw [toBool, bne_iff_ne]
  exact ne_zero_iff h

/-- The lowest bit is the first marked byte. -/
theorem Marks.lowestBitSet_spec (h : m.Marks p) (hm : m.toBool = true) :
    m.lowestBitSet < g.kWidth ∧ p m.lowestBitSet = true ∧ ∀ i < m.lowestBitSet, p i = false := by
  rw [lowestBitSet, shiftRight_eq_div_pow]
  exact lowest_spec h (by simpa [toBool] using hm)

/-- The leading zeros lead to the last marked byte. -/
theorem Marks.leadingZeros_spec (h : m.Marks p) (hm : m.toBool = true) :
    ∃ j < g.kWidth, p j = true ∧ m.leadingZeros = g.kWidth - 1 - j ∧
      ∀ i < g.kWidth, j < i → p i = false := by
  have hm' : m.mask ≠ 0 := by simpa [toBool] using hm
  obtain ⟨j, hj, hp, hsize, habove⟩ := leading_spec h hm'
  refine ⟨j, hj, hp, ?_, habove⟩
  have hsplit : g.maskBits - (m.mask.size + (g.maskBits - g.kWidth <<< g.shift))
      = g.kWidth * 2 ^ g.shift - m.mask.size := by
    cases g <;> simp [GroupImpl.maskBits, GroupImpl.kWidth, GroupImpl.shift]
  rw [leadingZeros, size_shiftLeft hm', hsplit, shiftRight_eq_div_pow, hsize]

/-- The iteration lists the marked bytes in order. -/
theorem Marks.toList_eq (h : m.Marks p) : m.toList = (List.range g.kWidth).filter p :=
  scan_eq_filter h

end BitMask

namespace GroupPortable

variable (pos : ℕ → Ctrl)

/-- The bits of a byte of the word. -/
theorem getLsbD_load64 {j b : ℕ} (hj : j < 8) (hb : b < 8) :
    (load64 pos).getLsbD (8 * j + b) = (pos j).getLsbD b := by
  have hdiv : (8 * j + b) / 8 = j := by omega
  have hmod : (8 * j + b) % 8 = b := by omega
  have hlt : 8 * j + b < 64 := by omega
  rw [load64, getLsbD_ofNat, testBit_ofBits_lt _ _ hlt]
  simp only [hlt, decide_true, Bool.true_and, hdiv, hmod]

theorem getLsbD_msbs (b : ℕ) : kMsbs8Bytes.getLsbD b = (decide (b < 64) && decide (b % 8 = 7)) := by
  by_cases hb : b < 64
  · interval_cases b <;> decide
  · simp [hb, BitVec.getLsbD_of_ge _ _ (not_lt.1 hb)]

/-- The top bits of a word mark its bytes. -/
theorem marks_and_msbs (w : BitVec 64) :
    BitScan.Marks 3 8 (w &&& kMsbs8Bytes).toNat fun j => w.getLsbD (8 * j + 7) := by
  intro b
  have hflag : ∀ j, flag 3 j = 8 * j + 7 := fun j => by unfold flag; omega
  rw [BitVec.testBit_toNat, getLsbD_and, getLsbD_msbs]
  simp only [Bool.and_eq_true, decide_eq_true_eq, hflag]
  constructor
  · rintro ⟨hw, hb, hmod⟩
    have hb' : 8 * (b / 8) + 7 = b := by omega
    exact ⟨b / 8, by omega, hb'.symm, by rwa [hb']⟩
  · rintro ⟨j, hj, rfl, hw⟩
    exact ⟨hw, by omega, by omega⟩

variable {pos} {j : ℕ}

theorem getLsbD_store64 (w : BitVec 64) {b : ℕ} (hb : b < 8) :
    (store64 w j).getLsbD b = w.getLsbD (8 * j + b) := by
  rw [store64, BitVec.getLsbD_extractLsb', decide_eq_true hb, Bool.true_and]

/-- Multiplying by `lsbs` copies a byte to all bytes of the word. -/
theorem store64_lsbs_mul : ∀ h (j : Fin 8), store64 (lsbs * h.setWidth 64) j = h := by
  decide +kernel

theorem getLsbD_shiftLeft_load64 {k : ℕ} (hj : j < 8) (hk : k < 8) :
    (load64 pos <<< k).getLsbD (8 * j + 7) = (pos j).getLsbD (7 - k) := by
  have hsub : 8 * j + 7 - k = 8 * j + (7 - k) := by omega
  rw [BitVec.getLsbD_shiftLeft, hsub, getLsbD_load64 _ hj (by omega)]
  simp
  omega

/-- The word that `Match` looks at has each byte xored with the hash. -/
theorem store64_match (pos : ℕ → Ctrl) (hash : Ctrl) (hj : j < 8) :
    store64 (load64 pos ^^^ (lsbs * hash.setWidth 64)) j = pos j ^^^ hash := by
  refine BitVec.eq_of_getLsbD_eq fun b hb => ?_
  rw [getLsbD_store64 _ hb, getLsbD_xor, getLsbD_load64 _ hj hb, ← getLsbD_store64 _ hb,
    store64_lsbs_mul hash ⟨j, hj⟩, getLsbD_xor]

theorem toNat_store64 (w : BitVec 64) : (store64 w j).toNat = w.toNat / 2 ^ (8 * j) % 2 ^ 8 := by
  rw [store64, BitVec.extractLsb'_toNat, shiftRight_eq_div_pow]

/-- A byte that is equal to the hash byte gives a zero byte, and only a borrow can change
what is subtracted from it. -/
theorem getLsbD_sub_lsbs (x : BitVec 64) (hj : j < 8) (hx : store64 x j = 0#8) :
    (x - lsbs).getLsbD (8 * j + 7) = true := by
  have hbyte := toNat_store64 (j := j) x
  rw [hx, BitVec.toNat_zero] at hbyte
  rw [getLsbD, BitVec.toNat_sub, testBit_eq_decide_div_mod_eq, decide_eq_true_eq]
  have hl : lsbs.toNat = 0x0101010101010101 := rfl
  interval_cases j <;> omega

/-- A borrow comes from a zero byte below. -/
theorem exists_zero_of_getLsbD_sub (x : BitVec 64) (hj : j < 8)
    (htop : x.getLsbD (8 * j + 7) = false) (hsub : (x - lsbs).getLsbD (8 * j + 7) = true) :
    ∃ i < j + 1, store64 x i = 0#8 := by
  by_contra! hne
  have hpos : ∀ i < j + 1, 0 < x.toNat / 2 ^ (8 * i) % 2 ^ 8 := fun i hi => by
    rw [← toNat_store64, Nat.pos_iff_ne_zero]
    exact fun h => hne i hi (BitVec.eq_of_toNat_eq h)
  rw [getLsbD, testBit_eq_decide_div_mod_eq] at htop hsub
  rw [BitVec.toNat_sub] at hsub
  have hl : lsbs.toNat = 0x0101010101010101 := rfl
  simp only [decide_eq_true_eq, decide_eq_false_iff_not] at htop hsub
  interval_cases j <;> simp only [Nat.forall_lt_succ_right] at hpos <;> omega

/-- The sign bits of the bytes of `m`, one in each byte of a word. -/
def spread (m : BitVec 8) : BitVec 64 :=
  BitVec.ofNat 64 (ofBits fun i : Fin 64 => i.val % 8 == 7 && m.getLsbD (i / 8))

theorem load64_and_msbs : load64 pos &&& kMsbs8Bytes
      = spread (BitVec.ofNat 8 (ofBits fun j : Fin 8 => (pos j).getLsbD 7)) := by
  apply BitVec.eq_of_getLsbD_eq
  intro i hi
  obtain ⟨j, b, hj, hb, rfl⟩ : ∃ j b, j < 8 ∧ b < 8 ∧ i = 8 * j + b :=
    ⟨i / 8, i % 8, by omega, by omega, by omega⟩
  have hdiv : (8 * j + b) / 8 = j := by omega
  have hmod : (8 * j + b) % 8 = b := by omega
  rw [getLsbD_and, getLsbD_load64 pos hj hb, getLsbD_msbs, spread, getLsbD_ofNat,
    testBit_ofBits_lt _ _ hi]
  simp only [hdiv, hmod, hi, hj, getLsbD_ofNat, testBit_ofBits_lt, decide_true, Bool.true_and]
  by_cases hb7 : b = 7
  · simp [hb7]
  · simp [hb7]

/-- The conversion of special bytes to empty and of full ones to deleted. -/
theorem store64_convert_spread : ∀ m (j : Fin 8),
    store64 ((~~~spread m + (spread m >>> 7)) &&& ~~~lsbs) j
      = if m.getLsbD j then kEmpty else kDeleted := by
  decide +kernel

end GroupPortable

theorem GroupSse2.marks_of_testBit {m : ℕ} {p : ℕ → Bool}
    (h : ∀ b, m.testBit b = (decide (b < 16) && p b)) : BitScan.Marks 0 16 m p := by
  intro b
  have hflag : ∀ j, flag 0 j = j := fun j => by simp [flag]
  simp only [hflag, h, Bool.and_eq_true, decide_eq_true_eq]
  exact ⟨fun ⟨hb, hp⟩ => ⟨b, hb, rfl, hp⟩, fun ⟨j, hj, hbj, hp⟩ => hbj ▸ ⟨hj, hp⟩⟩

/-- The bits of `_mm_movemask_epi8` are the top bits of the bytes. -/
theorem GroupSse2.testBit_moveMask (xmm : ℕ → Ctrl) (b : ℕ) :
    (GroupSse2.moveMask xmm).testBit b = (decide (b < 16) && (xmm b).msb) := by
  unfold GroupSse2.moveMask
  by_cases hb : b < 16
  · rw [testBit_ofBits_lt _ _ hb, decide_eq_true hb, Bool.true_and]
  · rw [testBit_ofBits_ge _ _ (not_lt.1 hb), decide_eq_false hb, Bool.false_and]

theorem GroupSse2.marks_moveMask (xmm : ℕ → Ctrl) :
    BitScan.Marks 0 16 (GroupSse2.moveMask xmm) fun i => (xmm i).msb :=
  marks_of_testBit (testBit_moveMask xmm)

/-! ### Facts about single bytes -/

/-- Two bits tell an empty byte. -/
theorem isEmpty_eq_bits : ∀ c, Stored c → (c.getLsbD 7 && !c.getLsbD 1) = isEmpty c := by
  decide

/-- Two bits tell an empty or deleted byte. -/
theorem isEmptyOrDeleted_eq_bits :
    ∀ c, Stored c → (c.getLsbD 7 && !c.getLsbD 0) = isEmptyOrDeleted c := by
  decide

theorem isFullOrSentinel_eq : ∀ c, (isFull c || c == kSentinel) = !isEmptyOrDeleted c := by decide

theorem isFull_eq_msb : ∀ c, isFull c = !c.msb := by decide

/-- The compared byte is all ones where the bytes agree. -/
theorem msb_cmpeq (a b : Ctrl) : (GroupSse2.cmpeq a b).msb = (b == a) := by
  unfold GroupSse2.cmpeq
  by_cases h : a = b
  · rw [if_pos h, h, BEq.rfl]
    rfl
  · simp [h, Ne.symm h]

theorem msb_cmpgt (a b : Ctrl) : (GroupSse2.cmpgt a b).msb = decide (b.toInt < a.toInt) := by
  unfold GroupSse2.cmpgt
  by_cases h : b.toInt < a.toInt
  · rw [if_pos h, decide_eq_true h]
    rfl
  · simp [h]

/-! ### One statement for each mask -/

namespace GroupImpl

open GroupPortable GroupSse2

variable (g : GroupImpl) {pos : ℕ → Ctrl}

/-- A shift brings a lower bit of each byte to its sign bit. -/
theorem getLsbD_and_not_shiftLeft {j k : ℕ} (hj : j < 8) (hk : k < 8) :
    (load64 pos &&& ~~~(load64 pos <<< k)).getLsbD (8 * j + 7)
      = ((pos j).getLsbD 7 && !(pos j).getLsbD (7 - k)) := by
  rw [getLsbD_and, getLsbD_not, getLsbD_load64 _ hj (by omega), getLsbD_shiftLeft_load64 hj hk,
    decide_eq_true (by omega), Bool.true_and]

section

variable (h : ∀ i < g.kWidth, Stored (pos i))
include h

/-- `MaskEmpty` marks the empty bytes. -/
theorem maskEmpty_marks : (g.maskEmpty pos).Marks fun i => isEmpty (pos i) := by
  cases g with
  | sse2 => exact (marks_moveMask fun i => cmpeq kEmpty (pos i)).congr fun i _ => msb_cmpeq _ _
  | portable =>
    exact (marks_and_msbs _).congr fun j hj =>
      (getLsbD_and_not_shiftLeft hj (by omega)).trans (isEmpty_eq_bits _ (h j hj))

/-- `MaskEmptyOrDeleted` marks the empty and the deleted bytes. -/
theorem maskEmptyOrDeleted_marks :
    (g.maskEmptyOrDeleted pos).Marks fun i => isEmptyOrDeleted (pos i) := by
  cases g with
  | sse2 => exact (marks_moveMask fun i => cmpgt kSentinel (pos i)).congr fun i _ => msb_cmpgt _ _
  | portable =>
    exact (marks_and_msbs _).congr fun j hj =>
      (getLsbD_and_not_shiftLeft hj (by omega)).trans (isEmptyOrDeleted_eq_bits _ (h j hj))

/-- `MaskFullOrSentinel` marks the full bytes and the sentinel. -/
theorem maskFullOrSentinel_marks :
    (g.maskFullOrSentinel pos).Marks fun i => isFull (pos i) || pos i == kSentinel := by
  cases g with
  | sse2 =>
    refine (marks_moveMask fun i => cmpgt (pos i) (kSentinel - 1)).congr fun i _ => ?_
    have hgt : ∀ c : Ctrl, decide ((kSentinel - 1).toInt < c.toInt) = !isEmptyOrDeleted c := by
      decide
    rw [msb_cmpgt, isFullOrSentinel_eq, hgt]
  | portable =>
    refine (marks_and_msbs _).congr fun j hj => ?_
    rw [isFullOrSentinel_eq, ← isEmptyOrDeleted_eq_bits _ (h j hj), BitVec.getLsbD_or, getLsbD_not,
      getLsbD_load64 _ hj (by omega), getLsbD_shiftLeft_load64 hj (by omega),
      decide_eq_true (by omega), Bool.true_and, Bool.not_and, Bool.not_not]

end

/-- `MaskNonFull` marks the bytes that are not full. -/
theorem maskNonFull_marks : (g.maskNonFull pos).Marks fun i => !isFull (pos i) := by
  cases g with
  | sse2 => exact (marks_moveMask pos).congr fun i _ => by rw [isFull_eq_msb, Bool.not_not]
  | portable =>
    refine (marks_and_msbs _).congr fun j hj => ?_
    rw [getLsbD_load64 _ hj (by omega), isFull_eq_msb, Bool.not_not, msb_eq_getLsbD_last]

/-- `MaskFull` marks the full bytes. -/
theorem maskFull_marks : (g.maskFull pos).Marks fun i => isFull (pos i) := by
  cases g with
  | sse2 =>
    refine marks_of_testBit fun b => ?_
    have hones := testBit_two_pow_sub_one 16 b
    simp only [maskFull, isFull_eq_msb, testBit_xor, testBit_moveMask]
    rw [hones]
    cases decide (b < 16) <;> simp
  | portable =>
    refine (marks_and_msbs _).congr fun j hj => ?_
    have hmsb : kMsbs8Bytes.getLsbD (8 * j + 7) = true := by
      rw [getLsbD_msbs, decide_eq_true (by omega), decide_eq_true (by omega), Bool.and_self]
    rw [getLsbD_xor, getLsbD_load64 _ hj (by omega), hmsb, isFull_eq_msb,
      msb_eq_getLsbD_last, Bool.xor_true]

/-- `Match` marks every byte equal to the hash byte, and only full bytes. Another byte is marked
only above an equal one. -/
theorem match_spec (pos : ℕ → Ctrl) (hash : Ctrl) :
    ∃ p, (g.match pos hash).Marks p ∧ (∀ i < g.kWidth, pos i = hash → p i = true) ∧
      (∀ i < g.kWidth, p i = true → isFull hash → isFull (pos i)) ∧
      ∀ i < g.kWidth, p i = true → ∃ j ≤ i, pos j = hash := by
  cases g with
  | sse2 =>
    refine ⟨_, marks_moveMask fun i => cmpeq hash (pos i), fun i _ hi => ?_, fun i _ hi hf => ?_,
      fun i _ hi => ?_⟩
    · rw [msb_cmpeq, hi, BEq.rfl]
    · rw [msb_cmpeq, beq_iff_eq] at hi
      rw [hi, hf]
    · rw [msb_cmpeq, beq_iff_eq] at hi
      exact ⟨i, le_rfl, hi⟩
  | portable =>
    let x := load64 pos ^^^ (lsbs * hash.setWidth 64)
    have htop : ∀ j < 8, x.getLsbD (8 * j + 7) = ((pos j).getLsbD 7 ^^ hash.getLsbD 7) := by
      intro j hj
      rw [← getLsbD_store64 _ (by omega), store64_match pos hash hj, getLsbD_xor]
    have hnot : ∀ j < 8, (~~~x).getLsbD (8 * j + 7) = !x.getLsbD (8 * j + 7) := by
      intro j hj
      rw [getLsbD_not, decide_eq_true (by omega), Bool.true_and]
    refine ⟨_, marks_and_msbs ((x - lsbs) &&& ~~~x), fun i hi hpos => ?_,
      fun i (hi : i < 8) hp hf => ?_, fun i (hi : i < 8) hp => ?_⟩
    · have hzero : store64 x i = 0#8 := by rw [store64_match pos hash hi, hpos, BitVec.xor_self]
      rw [getLsbD_and, getLsbD_sub_lsbs x hi hzero, hnot i hi, htop i hi, hpos, Bool.xor_self]
      rfl
    · -- a marked byte has the sign bit of the hash byte, which is clear
      simp only [isFull_eq_msb, msb_eq_getLsbD_last] at hf ⊢
      simp_all
    · rw [getLsbD_and, hnot i hi, Bool.and_eq_true, Bool.not_eq_true'] at hp
      obtain ⟨j, hj, hzero⟩ := exists_zero_of_getLsbD_sub x hi hp.2 hp.1
      rw [store64_match pos hash (by omega), BitVec.xor_eq_zero_iff] at hzero
      exact ⟨j, by omega, hzero⟩

/-- Special bytes become empty and full ones deleted. -/
theorem convert_spec {i : ℕ} (hi : i < g.kWidth) : g.convertSpecialToEmptyAndFullToDeleted pos i
      = if isFull (pos i) then kDeleted else kEmpty := by
  cases g with
  | sse2 =>
    have h : ∀ c : Ctrl, subs (0x80#8 &&& c) 2#8 = if isFull c then kDeleted else kEmpty := by
      decide
    exact h (pos i)
  | portable =>
    have hi' : i < 8 := hi
    have h := store64_convert_spread
      (BitVec.ofNat 8 (ofBits fun j : Fin 8 => (pos j).getLsbD 7)) ⟨i, hi'⟩
    rw [← load64_and_msbs, getLsbD_ofNat, testBit_ofBits_lt _ _ hi',
      decide_eq_true hi', Bool.true_and] at h
    have hbit : isFull (pos i) = !(pos i).getLsbD 7 := by
      rw [isFull_eq_msb, msb_eq_getLsbD_last]
    rw [hbit]
    refine h.trans ?_
    cases (pos i).getLsbD 7 <;> rfl

/-- The masks of eight bytes mark what they are named after, and walking a mask visits what it
marks. -/
theorem portable_masks (h : ∀ i < 8, Stored (pos i)) {hash : Ctrl} (hhash : isFull hash) :
    (portable.maskEmpty pos).Marks (fun i => isEmpty (pos i)) ∧
    (portable.maskFull pos).Marks (fun i => isFull (pos i)) ∧
    (portable.maskNonFull pos).Marks (fun i => !isFull (pos i)) ∧
    (portable.maskEmptyOrDeleted pos).Marks (fun i => isEmptyOrDeleted (pos i)) ∧
    (portable.maskFullOrSentinel pos).Marks (fun i => isFull (pos i) || pos i == kSentinel) ∧
    (∀ i < 8, portable.convertSpecialToEmptyAndFullToDeleted pos i
      = if isFull (pos i) then kDeleted else kEmpty) ∧
    (∃ p, (portable.match pos hash).Marks p ∧ (∀ i < 8, pos i = hash → p i = true) ∧
      (∀ i < 8, p i = true → isFull (pos i)) ∧
      ∀ i < 8, p i = true → pos i ≠ hash → ∃ j < i, pos j = hash) ∧
    ∀ (m : BitMask portable) p, m.Marks p → m.toList = (List.range 8).filter p := by
  refine ⟨maskEmpty_marks _ h, maskFull_marks _, maskNonFull_marks _, maskEmptyOrDeleted_marks _ h,
    maskFullOrSentinel_marks _ h, fun i hi => convert_spec _ hi, ?_, fun m p hm => hm.toList_eq⟩
  obtain ⟨p, hp, hall, hfull, hbelow⟩ := portable.match_spec pos hash
  refine ⟨p, hp, hall, fun i hi hpi => hfull i hi hpi hhash, fun i hi hpi hne => ?_⟩
  obtain ⟨j, hj, heq⟩ := hbelow i hi hpi
  exact ⟨j, hj.lt_of_ne (by rintro rfl; exact hne heq), heq⟩

theorem portable_masks_sentinel :
    (portable.maskFull fun i => if i = 7 then kSentinel else 5#8).Marks
      fun i => isFull (if i = 7 then kSentinel else 5#8) :=
  (portable_masks (by decide) (show isFull 5#8 by decide)).2.1

end GroupImpl

end Abseil.Swiss
