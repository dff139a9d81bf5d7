import Abseil.SwissGroup

/-!
# Capacities and growth

The capacity of a table is `2 ^ m - 1` slots, so that `x & capacity` is the remainder by
the number of control bytes on the ring, the slots' and one sentinel's (`and_capacity`).
`CapacityToGrowth` is how many of the slots may be in use before the table grows.

`GrowthInfo` counts down to that point. The byte in front of the control bytes holds a
part of the count and a bit that tells whether the table may have deleted slots ; a large
table keeps the rest of the count in seven more bytes, moved over when the first part runs
out. `GrowthInfo.deleted` and `GrowthInfo.total` are the two things it stands for, and
every operation is described by what it does to them.
-/

namespace Abseil.Swiss

open Nat BitScan

/-! ## Capacities -/

/-- `IsValidCapacity`. -/
def isValidCapacity (n : ℕ) : Bool := (n + 1) &&& n == 0 && decide (0 < n)

/-- `HashtableCapacity` stores the binary logarithm ; `IsValid` is that it is not above
`kAboveMaxValidCapacity`. -/
def kMaxValidCapacity : ℕ := 2 ^ (64 - 10) - 1

/-- `kMaxSmallCapacity`. -/
def kMaxSmallCapacity : ℕ := 1

/-- `is_single_group`. -/
def isSingleGroup (g : GroupImpl) (capacity : ℕ) : Bool := capacity ≤ g.kWidth

/-- `NumClonedBytes`. -/
def numClonedBytes (g : GroupImpl) : ℕ := g.kWidth - 1

/-- `NextCapacity`. -/
def nextCapacity (n : ℕ) : ℕ := n * 2 + 1

/-- `kMaxCapacityForLoadFactorOne`. -/
def kMaxCapacityForLoadFactorOne (g : GroupImpl) : ℕ := g.kWidth * 4 - 1

/-- `CapacityToGrowth`. -/
def capacityToGrowth (g : GroupImpl) (capacity : ℕ) : ℕ :=
  if capacity ≤ kMaxCapacityForLoadFactorOne g then
    -- small capacities leave at most one empty slot
    capacity - if g.kWidth - 1 ≤ capacity then 1 else 0
  else capacity - capacity / 8

/-- `kMaxBlockedElementCount` of the three bits for the count. -/
def kMaxBlockedElementCount : ℕ := 2 ^ 3 - 1

/-- `kMaxBlockedElementsForLargeTables`. -/
def kMaxBlockedElementsForLargeTables : ℕ := 5

/-- A valid capacity is one less than a power of two. -/
theorem isValidCapacity_iff {n : ℕ} : isValidCapacity n = true ↔ ∃ m, 0 < m ∧ n + 1 = 2 ^ m := by
  unfold isValidCapacity
  rw [Bool.and_eq_true, beq_iff_eq, decide_eq_true_eq]
  constructor
  · rintro ⟨hand, hpos⟩
    -- the only set bit of `n + 1` is the lowest
    have hbits := bitIndices_eq_cons (n + 1) (succ_ne_zero n)
    rw [Nat.add_sub_cancel, hand, bitIndices_zero] at hbits
    have hsum := sum_map_two_pow_bitIndices (n + 1)
    rw [hbits] at hsum
    have hpow : 2 ^ ctz (n + 1) = n + 1 := by simpa using hsum
    refine ⟨ctz (n + 1), pos_of_ne_zero fun h0 => ?_, hpow.symm⟩
    rw [h0] at hpow
    omega
  · rintro ⟨m, hm, hn⟩
    have hn' : n = 2 ^ m - 1 := by omega
    have hlt : 1 < 2 ^ m := Nat.one_lt_two_pow (by omega)
    refine ⟨?_, by omega⟩
    rw [hn, hn', and_two_pow_sub_one_eq_mod, mod_self]

/-- Masking with a valid capacity is taking the remainder. -/
theorem and_capacity {cap : ℕ} (h : isValidCapacity cap = true) (x : ℕ) :
    x &&& cap = x % (cap + 1) := by
  obtain ⟨m, -, hm⟩ := isValidCapacity_iff.1 h
  have hcap : cap = 2 ^ m - 1 := by omega
  rw [hm, hcap, and_two_pow_sub_one_eq_mod]

theorem GroupImpl.kWidth_eq (g : GroupImpl) : g.kWidth = 8 ∨ g.kWidth = 16 := by
  cases g
  · exact .inr rfl
  · exact .inl rfl

/-- The ring divides half a group, or has a whole number of groups. -/
theorem capacity_cases (g : GroupImpl) {cap : ℕ} (h : isValidCapacity cap = true) :
    (2 * cap + 1 < g.kWidth ∧ cap + 1 ∣ g.kWidth) ∨ ∃ k, cap + 1 = g.kWidth * 2 ^ k := by
  obtain ⟨m, -, hm⟩ := isValidCapacity_iff.1 h
  obtain ⟨w, hw⟩ : ∃ w, g.kWidth = 2 ^ w := by
    rcases g.kWidth_eq with h | h
    · exact ⟨3, h⟩
    · exact ⟨4, h⟩
  rcases lt_or_ge m w with hlt | hge
  · left
    have hle : 2 ^ (m + 1) ≤ 2 ^ w := Nat.pow_le_pow_right (by norm_num) hlt
    exact ⟨by omega, by rw [hm, hw]; exact Nat.pow_dvd_pow 2 hlt.le⟩
  · right
    exact ⟨m - w, by rw [hm, hw, ← pow_add, Nat.add_sub_cancel' hge]⟩

/-- The growth is at most the capacity. -/
theorem capacityToGrowth_le (g : GroupImpl) (cap : ℕ) : capacityToGrowth g cap ≤ cap := by
  unfold capacityToGrowth
  split_ifs <;> omega

/-- From a whole group on, the growth leaves a slot empty. -/
theorem capacityToGrowth_lt {g : GroupImpl} {cap : ℕ} (h : g.kWidth - 1 ≤ cap) :
    capacityToGrowth g cap < cap := by
  have hw := g.kWidth_eq
  unfold capacityToGrowth kMaxCapacityForLoadFactorOne
  split_ifs <;> omega

/-! ## The lower bound byte -/

namespace GrowthInfoLowerBound

/-- The bits of the count. -/
def kGrowthLeftMask : BitVec 8 := 0x7F#8

/-- The bit for deleted slots. -/
def kDeletedBit : BitVec 8 := 0x80#8

/-- The largest count. -/
def kMaxGrowthLeftLowerBound : ℕ := 127

/-- `HasNoDeletedAndGrowthLeft`. -/
def hasNoDeletedAndGrowthLeft (b : BitVec 8) : Bool := 0 < b.toInt

/-- `HasDeletedAndGrowthLeft`. -/
def hasDeletedAndGrowthLeft (b : BitVec 8) : Bool := kDeletedBit.toNat < b.toNat

/-- `HasNoGrowthLeftAndNoDeleted`. -/
def hasNoGrowthLeftAndNoDeleted (b : BitVec 8) : Bool := b == 0#8

/-- `HasNoGrowthLeftAndHaveDeleted`. -/
def hasNoGrowthLeftAndHaveDeleted (b : BitVec 8) : Bool := b == kDeletedBit

/-- `HasNoDeleted`. -/
def hasNoDeleted (b : BitVec 8) : Bool := b &&& kDeletedBit == 0#8

/-- `GetGrowthLeft`. -/
def getGrowthLeft (b : BitVec 8) : ℕ := (b &&& kGrowthLeftMask).toNat

/-! What the byte says is its top bit and its low seven bits. -/

theorem getGrowthLeft_le : ∀ b, getGrowthLeft b ≤ 127 := by decide

/-- The byte is the flag and seven bits of growth. -/
theorem toNat_eq : ∀ b, b.toNat = (if hasNoDeleted b then 0 else 128) + getGrowthLeft b := by
  decide

theorem hasNoDeletedAndGrowthLeft_eq :
    ∀ b, hasNoDeletedAndGrowthLeft b = (hasNoDeleted b && decide (0 < getGrowthLeft b)) := by
  decide

theorem hasDeletedAndGrowthLeft_eq :
    ∀ b, hasDeletedAndGrowthLeft b = (!hasNoDeleted b && decide (0 < getGrowthLeft b)) := by
  decide

theorem hasNoGrowthLeftAndNoDeleted_eq :
    ∀ b, hasNoGrowthLeftAndNoDeleted b = (hasNoDeleted b && decide (getGrowthLeft b = 0)) := by
  decide

theorem hasNoGrowthLeftAndHaveDeleted_eq :
    ∀ b, hasNoGrowthLeftAndHaveDeleted b = (!hasNoDeleted b && decide (getGrowthLeft b = 0)) := by
  decide

/-- One slot less is left, and the flag stays. -/
theorem sub_one_spec : ∀ b, 0 < getGrowthLeft b →
    hasNoDeleted (b - 1) = hasNoDeleted b ∧ getGrowthLeft (b - 1) + 1 = getGrowthLeft b := by
  decide

/-- One slot more is left, and the flag stays. -/
theorem add_one_spec : ∀ b, getGrowthLeft b < 127 →
    hasNoDeleted (b + 1) = hasNoDeleted b ∧ getGrowthLeft (b + 1) = getGrowthLeft b + 1 := by
  decide

/-- The flag is set, and the growth stays. -/
theorem or_deleted_spec : ∀ b, hasNoDeleted (b ||| kDeletedBit) = false ∧
      getGrowthLeft (b ||| kDeletedBit) = getGrowthLeft b := by
  decide

/-- A byte written from its parts has these parts. -/
theorem ofNat_spec : ∀ d : Bool, ∀ n : Fin 128,
    hasNoDeleted (BitVec.ofNat 8 ((if d then 0 else 128) + n)) = d ∧
      getGrowthLeft (BitVec.ofNat 8 ((if d then 0 else 128) + n)) = n := by
  decide

end GrowthInfoLowerBound

/-! ## Growth info -/

open GrowthInfoLowerBound

/-- The growth info of a backing array : the byte in front of the control bytes, and the
seven bytes in front of that one. -/
structure GrowthInfo where
  lowerBound : BitVec 8
  overflow : ℕ

namespace GrowthInfo

variable (gi : GrowthInfo)

/-- Where the lower bound is in the word. -/
def kLowerBoundShift : ℕ := 64 - 8

/-- `little_endian::Load64` of the eight bytes. -/
def load64 : ℕ := gi.lowerBound.toNat <<< kLowerBoundShift + gi.overflow

/-- `little_endian::Store64` to the eight bytes. -/
def store64 (packed : ℕ) : GrowthInfo where
  lowerBound := BitVec.ofNat 8 (packed >>> kLowerBoundShift)
  overflow := packed % 2 ^ kLowerBoundShift

/-- `GetPackedIncrement`. -/
def getPackedIncrement (lowerBoundIncrement overflowIncrement : ℕ) : ℕ :=
  (lowerBoundIncrement <<< kLowerBoundShift + overflowIncrement) % 2 ^ 64

/-- `GetRebalanceIncrement`. -/
def getRebalanceIncrement (overflowToLowerBoundSize : ℕ) : ℕ :=
  getPackedIncrement overflowToLowerBoundSize (2 ^ 64 - overflowToLowerBoundSize)

/-- `GetOverflowGrowthLeftFromPacked`. -/
def getOverflowGrowthLeftFromPacked (packed : ℕ) : ℕ := packed &&& (2 ^ kLowerBoundShift - 1)

/-- `GetGrowthLeftLowerBoundFromPacked`. -/
def getGrowthLeftLowerBoundFromPacked (packed : ℕ) : ℕ :=
  getGrowthLeft (BitVec.ofNat 8 (packed >>> kLowerBoundShift))

/-- `InitGrowthLeftNoDeleted`. -/
def initGrowthLeftNoDeleted (growthLeft capacity : ℕ) : GrowthInfo :=
  if capacity ≤ kMaxGrowthLeftLowerBound then
    { gi with lowerBound := BitVec.ofNat 8 growthLeft }
  else
    let lowerBound := min growthLeft kMaxGrowthLeftLowerBound
    store64 (getPackedIncrement lowerBound (growthLeft - lowerBound))

/-- `GetGrowthLeftTotalSlow`. -/
def getGrowthLeftTotalSlow (capacity : ℕ) : ℕ :=
  if capacity ≤ kMaxGrowthLeftLowerBound then getGrowthLeft gi.lowerBound
  else getOverflowGrowthLeftFromPacked gi.load64 + getGrowthLeftLowerBoundFromPacked gi.load64

/-- `RebalanceGrowthLeftLowerBoundLargeCapacity`. -/
def rebalanceGrowthLeftLowerBoundLargeCapacity : GrowthInfo :=
  let packed := gi.load64
  let overflowGrowthLeft := getOverflowGrowthLeftFromPacked packed
  let lowerBoundGrowthLeft := getGrowthLeftLowerBoundFromPacked packed
  let overflowToLowerBoundSize :=
    min overflowGrowthLeft (kMaxGrowthLeftLowerBound - lowerBoundGrowthLeft)
  store64 ((packed + getRebalanceIncrement overflowToLowerBoundSize) % 2 ^ 64)

/-- The byte returned is the one stored. -/
def rebalanceGrowthLeftLowerBound (capacity : ℕ) : GrowthInfo :=
  if capacity ≤ kMaxGrowthLeftLowerBound || hasDeletedAndGrowthLeft gi.lowerBound then gi
  else gi.rebalanceGrowthLeftLowerBoundLargeCapacity

/-- `OverwriteFullAsEmpty`. -/
def overwriteFullAsEmpty : GrowthInfo :=
  if getGrowthLeft gi.lowerBound < kMaxGrowthLeftLowerBound then
    { gi with lowerBound := gi.lowerBound + 1 }
  else store64 ((gi.load64 + getPackedIncrement 0 1) % 2 ^ 64)

/-- `OverwriteEmptyAsFull`. -/
def overwriteEmptyAsFull : GrowthInfo :=
  { gi with lowerBound := gi.lowerBound - 1 }

/-- `OverwriteControlAsFull`. -/
def overwriteControlAsFull (ctrl : Ctrl) : GrowthInfo :=
  { gi with lowerBound := gi.lowerBound - if isEmpty ctrl then 1 else 0 }

/-- `OverwriteFullAsDeleted`. -/
def overwriteFullAsDeleted : GrowthInfo :=
  { gi with lowerBound := gi.lowerBound ||| kDeletedBit }

/-! ### What the operations do to the count -/

/-- The table may have deleted slots. -/
def deleted : Bool := !hasNoDeleted gi.lowerBound

/-- For a table of this capacity the growth info stands for `n` more slots, and for
deleted slots as `d` says. -/
structure Counts (gi : GrowthInfo) (capacity : ℕ) (d : Bool) (n : ℕ) : Prop where
  deleted_eq : gi.deleted = d
  overflow_lt : 127 < capacity → gi.overflow < 2 ^ 56
  sum_eq : (if capacity ≤ 127 then 0 else gi.overflow) + getGrowthLeft gi.lowerBound = n

/-- The packed word has the counter byte on top. -/
theorem load64_eq (gi : GrowthInfo) : gi.load64 = gi.lowerBound.toNat * 2 ^ 56 + gi.overflow := by
  rw [load64, shiftLeft_eq]
  rfl

theorem store64_eq {lo ov : ℕ} (hov : ov < 2 ^ 56) :
    store64 (lo * 2 ^ 56 + ov) = ⟨BitVec.ofNat 8 lo, ov⟩ := by
  have hdiv : (lo * 2 ^ 56 + ov) >>> 56 = lo := by
    omega
  have hmod : (lo * 2 ^ 56 + ov) % 2 ^ 56 = ov := by omega
  simp only [store64, kLowerBoundShift, hdiv, hmod]

section Counts

variable {gi : GrowthInfo} {capacity n : ℕ} {d : Bool}

/-- The byte is read back from the packed word. -/
theorem getGrowthLeftLowerBoundFromPacked_load64 (hov : gi.overflow < 2 ^ 56) :
    getGrowthLeftLowerBoundFromPacked gi.load64 = getGrowthLeft gi.lowerBound := by
  have hshift : gi.load64 >>> 56 = gi.lowerBound.toNat := by
    rw [load64_eq, shiftRight_eq_div_pow]
    omega
  rw [getGrowthLeftLowerBoundFromPacked, kLowerBoundShift, hshift, BitVec.ofNat_toNat,
    BitVec.setWidth_eq]

/-- The overflow is read back from the packed word. -/
theorem getOverflowGrowthLeftFromPacked_load64 (hov : gi.overflow < 2 ^ 56) :
    getOverflowGrowthLeftFromPacked gi.load64 = gi.overflow := by
  rw [getOverflowGrowthLeftFromPacked, and_two_pow_sub_one_eq_mod, load64_eq]
  simp only [kLowerBoundShift]
  omega

/-- The total is what the two counters hold together. -/
theorem Counts.total (h : gi.Counts capacity d n) : gi.getGrowthLeftTotalSlow capacity = n := by
  have hsum := h.sum_eq
  unfold getGrowthLeftTotalSlow kMaxGrowthLeftLowerBound
  by_cases hc : capacity ≤ 127
  · rw [if_pos hc, zero_add] at hsum
    rw [if_pos hc, hsum]
  · have hov := h.overflow_lt (by omega)
    rw [if_neg hc] at hsum
    rw [if_neg hc, getGrowthLeftLowerBoundFromPacked_load64 hov,
      getOverflowGrowthLeftFromPacked_load64 hov, hsum]

/-- A new table counts right. -/
theorem counts_init (gi : GrowthInfo) (hn : n ≤ capacity) (hc : capacity ≤ kMaxValidCapacity) :
    (gi.initGrowthLeftNoDeleted n capacity).Counts capacity false n := by
  unfold initGrowthLeftNoDeleted kMaxGrowthLeftLowerBound
  by_cases h127 : capacity ≤ 127
  · have hb := ofNat_spec true ⟨n, by omega⟩
    simp only [if_true, zero_add] at hb
    rw [if_pos h127]
    refine ⟨?_, fun h => by omega, ?_⟩
    · rw [deleted, hb.1]
      rfl
    · rw [if_pos h127, hb.2, zero_add]
  have hmax : capacity < 2 ^ 54 := by
    have : kMaxValidCapacity = 2 ^ 54 - 1 := rfl
    omega
  have hb := ofNat_spec true ⟨min n 127, by omega⟩
  simp only [if_true, zero_add] at hb
  have hpack : getPackedIncrement (min n 127) (n - min n 127)
      = min n 127 * 2 ^ 56 + (n - min n 127) := by
    rw [getPackedIncrement, kLowerBoundShift, shiftLeft_eq, mod_eq_of_lt (by omega)]
  simp only [if_neg h127, hpack]
  rw [store64_eq (by omega)]
  refine ⟨?_, fun _ => by show n - min n 127 < 2 ^ 56; omega, ?_⟩
  · rw [deleted, hb.1]
    rfl
  · rw [if_neg h127, hb.2]
    show n - min n 127 + min n 127 = n
    omega

/-- An erased slot that becomes empty is counted. -/
theorem Counts.overwriteFullAsEmpty (h : gi.Counts capacity d n) (hn : n < capacity)
    (hc : capacity ≤ kMaxValidCapacity) : gi.overwriteFullAsEmpty.Counts capacity d (n + 1) := by
  obtain ⟨hd, hov, hsum⟩ := h
  unfold GrowthInfo.overwriteFullAsEmpty kMaxGrowthLeftLowerBound
  split_ifs with hlt
  · have hb := add_one_spec gi.lowerBound hlt
    refine ⟨?_, hov, ?_⟩
    · rw [← hd, deleted, deleted, hb.1]
    · rw [hb.2, ← hsum, add_assoc]
  have h127 : ¬capacity ≤ 127 := by
    intro hc127
    omega
  have hmax : capacity < 2 ^ 54 := by
    have : kMaxValidCapacity = 2 ^ 54 - 1 := rfl
    omega
  rw [if_neg h127] at hsum
  have hstore : store64 ((gi.load64 + getPackedIncrement 0 1) % 2 ^ 64)
      = ⟨gi.lowerBound, gi.overflow + 1⟩ := by
    have hinc : getPackedIncrement 0 1 = 1 := rfl
    rw [hinc, load64_eq, add_assoc, mod_eq_of_lt (by omega), store64_eq (by omega),
      BitVec.ofNat_toNat, BitVec.setWidth_eq]
  rw [hstore]
  refine ⟨hd, fun _ => by show gi.overflow + 1 < 2 ^ 56; omega, ?_⟩
  show (if capacity ≤ 127 then 0 else gi.overflow + 1) + getGrowthLeft gi.lowerBound = n + 1
  rw [if_neg h127]
  omega

/-- An empty slot that is filled is counted. -/
theorem Counts.overwriteEmptyAsFull (h : gi.Counts capacity d (n + 1))
    (hlb : 0 < getGrowthLeft gi.lowerBound) : gi.overwriteEmptyAsFull.Counts capacity d n := by
  obtain ⟨hd, hov, hsum⟩ := h
  have hb := sub_one_spec gi.lowerBound hlb
  refine ⟨?_, hov, ?_⟩
  · rw [← hd, deleted, deleted, GrowthInfo.overwriteEmptyAsFull, hb.1]
  · show (if capacity ≤ 127 then 0 else gi.overflow) + getGrowthLeft (gi.lowerBound - 1) = n
    omega

/-- A slot that is filled is counted if it was empty. -/
theorem Counts.overwriteControlAsFull {ctrl : Ctrl}
    (h : gi.Counts capacity d (n + (isEmpty ctrl).toNat))
    (hlb : (isEmpty ctrl).toNat ≤ getGrowthLeft gi.lowerBound) :
    (gi.overwriteControlAsFull ctrl).Counts capacity d n := by
  unfold GrowthInfo.overwriteControlAsFull
  cases hc : isEmpty ctrl with
  | true =>
    rw [hc] at h hlb
    exact h.overwriteEmptyAsFull hlb
  | false =>
    rw [hc] at h
    simpa using h

/-- An erased slot that stays deleted sets the flag. -/
theorem Counts.overwriteFullAsDeleted (h : gi.Counts capacity d n) :
    gi.overwriteFullAsDeleted.Counts capacity true n := by
  have hb := or_deleted_spec gi.lowerBound
  refine ⟨?_, h.overflow_lt, ?_⟩
  · rw [deleted, GrowthInfo.overwriteFullAsDeleted, hb.1]
    rfl
  · rw [GrowthInfo.overwriteFullAsDeleted, hb.2]
    exact h.sum_eq

/-- The large rebalance moves as much of the count as the byte has room for. -/
theorem rebalanceLarge_eq (hov : gi.overflow < 2 ^ 56) :
    gi.rebalanceGrowthLeftLowerBoundLargeCapacity =
      let lo := getGrowthLeft gi.lowerBound
      let k := min gi.overflow (127 - lo)
      ⟨BitVec.ofNat 8 ((if hasNoDeleted gi.lowerBound then 0 else 128) + (lo + k)),
        gi.overflow - k⟩ := by
  have hle := getGrowthLeft_le gi.lowerBound
  have hlb := toNat_eq gi.lowerBound
  unfold rebalanceGrowthLeftLowerBoundLargeCapacity kMaxGrowthLeftLowerBound
  simp only [getGrowthLeftLowerBoundFromPacked_load64 hov,
    getOverflowGrowthLeftFromPacked_load64 hov]
  set lo := getGrowthLeft gi.lowerBound
  set k := min gi.overflow _ with hk
  have hpacked : (gi.load64 + getRebalanceIncrement k) % 2 ^ 64
      = ((if hasNoDeleted gi.lowerBound then 0 else 128) + (lo + k)) * 2 ^ 56
        + (gi.overflow - k) := by
    rw [load64_eq, hlb, getRebalanceIncrement, getPackedIncrement, kLowerBoundShift, shiftLeft_eq]
    split_ifs <;> omega
  rw [hpacked, store64_eq (by omega)]

/-- Rebalancing changes neither the count nor the bit, and leaves the byte without a
count only when there is none. -/
theorem Counts.rebalance (h : gi.Counts capacity d n) :
    (gi.rebalanceGrowthLeftLowerBound capacity).Counts capacity d n ∧
      (getGrowthLeft (gi.rebalanceGrowthLeftLowerBound capacity).lowerBound = 0 → n = 0) := by
  obtain ⟨hd, hov, hsum⟩ := h
  unfold rebalanceGrowthLeftLowerBound kMaxGrowthLeftLowerBound
  by_cases hstay : (decide (capacity ≤ 127) || hasDeletedAndGrowthLeft gi.lowerBound) = true
  · rw [if_pos hstay]
    refine ⟨⟨hd, hov, hsum⟩, fun h0 => ?_⟩
    rw [hasDeletedAndGrowthLeft_eq, h0] at hstay
    simp only [lt_self_iff_false, decide_false, Bool.and_false, Bool.or_false,
      decide_eq_true_eq] at hstay
    rw [if_pos hstay, h0] at hsum
    exact hsum.symm
  have h127 : ¬capacity ≤ 127 := fun hc => hstay (by simp [hc])
  rw [if_neg h127] at hsum
  have hov' := hov (by omega)
  rw [if_neg hstay, rebalanceLarge_eq hov']
  set lo := getGrowthLeft gi.lowerBound with hlo
  have hle : lo ≤ 127 := getGrowthLeft_le gi.lowerBound
  have hb := ofNat_spec (hasNoDeleted gi.lowerBound) ⟨lo + min gi.overflow (127 - lo), by omega⟩
  refine ⟨⟨?_, fun _ => by show gi.overflow - _ < 2 ^ 56; omega, ?_⟩, fun h0 => ?_⟩
  · rw [← hd, deleted, deleted, hb.1]
  · rw [if_neg h127, hb.2]
    show gi.overflow - min gi.overflow (127 - lo) + (lo + min gi.overflow (127 - lo)) = n
    omega
  · rw [hb.2] at h0
    simp only at h0
    omega

end Counts

end GrowthInfo

end Abseil.Swiss
