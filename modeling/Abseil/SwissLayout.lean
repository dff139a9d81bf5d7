import Abseil.Probing
import Abseil.SwissTable

/-!
# The layout of the control bytes

The control bytes are a ring of `capacity + 1` bytes, the slots' and the sentinel, followed
by a copy of the first ones, so that a group can be read from any start. `Mirror` is that
the copy is right ; the bytes behind it, which only a table below a whole group has, stay
empty. `Shape` ties the bytes to the hashes that are stored, and `Layout` adds the counts and
that the search for each stored hash gets to its slot.

The hashes are given as a function of the slot and not read from the slots, so that a slot
taken for an element that is not there yet is a case like the others.
-/

namespace Abseil.Swiss

open Function Finset Nat Probing

/-! ## Masked arithmetic -/

/-- `H2` is a full control byte. -/
theorem h2_isFull (hash : BitVec 64) : isFull (h2 hash) = true := by
  rw [isFull_eq_msb, h2, BitVec.msb_setWidth]
  simp

theorem isFull_ne {c : Ctrl} (h : isFull c = true) : c ≠ kEmpty ∧ c ≠ kDeleted ∧ c ≠ kSentinel := by
  refine ⟨?_, ?_, ?_⟩ <;> rintro rfl <;> simp [isFull, kEmpty, kDeleted, kSentinel] at h

variable {cap : ℕ}

theorem sizeSub_of_le {a b : ℕ} (hb : b ≤ a) (ha : a < 2 ^ 64) : sizeSub a b = a - b := by
  have hturn : a + (2 ^ 64 - b) = a - b + 2 ^ 64 := by omega
  rw [sizeSub, hturn, add_mod_right, mod_eq_of_lt (by omega)]

/-- Where the copy of control byte `i` is, for a byte that has one. -/
def cloneOf (g : GroupImpl) (cap i : ℕ) : ℕ :=
  if i < g.kWidth - 1 then cap + 1 + i else i

section Clone

variable {g : GroupImpl} {i : ℕ} (hcap : isValidCapacity cap = true)
  (hmax : cap ≤ kMaxValidCapacity)
include hcap hmax

theorem two_pow_sixtyFour_mod : cap + 1 ∣ 2 ^ 64 := by
  obtain ⟨m, -, hm⟩ := isValidCapacity_iff.1 hcap
  have hle : 2 ^ m ≤ 2 ^ 54 := by
    rw [← hm]
    exact succ_le_of_lt (lt_of_le_of_lt hmax (by norm_num [kMaxValidCapacity]))
  have : m ≤ 54 := (Nat.pow_le_pow_iff_right (by norm_num)).1 hle
  rw [hm]
  exact pow_dvd_pow 2 (by omega)

/-- A difference of `size_t` is taken on the ring when it is masked. -/
theorem sizeSub_and {a b : ℕ} (hb : b ≤ 2 ^ 64) :
    sizeSub a b &&& cap = ahead (cap + 1) (b % (cap + 1)) a := by
  have hdvd := two_pow_sixtyFour_mod hcap hmax
  rw [and_capacity hcap, sizeSub, mod_mod_of_dvd _ hdvd]
  obtain ⟨c, hc⟩ := hdvd
  have hlt : b % (cap + 1) < cap + 1 := mod_lt _ (succ_pos cap)
  have hdiv := div_add_mod b (cap + 1)
  -- both sides differ by whole turns
  have hsplit : a + (2 ^ 64 - b) + b % (cap + 1) = a + (cap + 1) * (c - b / (cap + 1)) := by
    rw [Nat.mul_sub]
    omega
  have key : a + (2 ^ 64 - b) ≡ a + (cap + 1 - b % (cap + 1)) [MOD cap + 1] := by
    refine Nat.ModEq.add_right_cancel' (b % (cap + 1)) ?_
    have hright : a + (cap + 1 - b % (cap + 1)) + b % (cap + 1) = a + (cap + 1) * 1 := by omega
    simp only [hsplit, hright, Nat.ModEq, add_mul_mod_self_left]
  exact key

/-- The mirror of a slot, as `SetCtrlInLargeTable` computes it. -/
theorem sizeSub_cloned_and (hi : i < cap) :
    (sizeSub i (numClonedBytes g) &&& cap) + (numClonedBytes g &&& cap) = cloneOf g cap i := by
  have hw := g.kWidth_eq
  rw [sizeSub_and hcap hmax (by unfold numClonedBytes; omega), and_capacity hcap]
  unfold cloneOf numClonedBytes
  rcases capacity_cases g hcap with ⟨hhalf, c, hc⟩ | ⟨k, hk⟩
  · -- the ring divides the group, so the last cloned byte stands for the sentinel
    have hmod : (g.kWidth - 1) % (cap + 1) = cap := by
      have hpos : 0 < c := pos_of_ne_zero fun h0 => by
        rw [h0] at hc
        omega
      obtain ⟨d, rfl⟩ := Nat.exists_eq_add_of_lt hpos
      have hsplit : g.kWidth - 1 = cap + (cap + 1) * d := by
        rw [hc]
        ring_nf
        omega
      rw [hsplit, add_mul_mod_self_left, mod_eq_of_lt (lt_succ_self cap)]
    have hahead : ahead (cap + 1) cap i = i + 1 := by
      rw [ahead, Nat.add_sub_cancel_left, mod_eq_of_lt (by omega)]
    rw [hmod, if_pos (by omega)]
    omega
  · have hle : g.kWidth ≤ cap + 1 := by
      rw [hk]
      exact Nat.le_mul_of_pos_right _ (Nat.two_pow_pos k)
    have hmod : (g.kWidth - 1) % (cap + 1) = g.kWidth - 1 := mod_eq_of_lt (by omega)
    rw [hmod, ahead]
    split_ifs with hlt
    · rw [mod_eq_of_lt (by omega)]
      omega
    · have hturn : i + (cap + 1 - (g.kWidth - 1)) = i - (g.kWidth - 1) + (cap + 1) := by omega
      rw [hturn, add_mod_right, mod_eq_of_lt (by omega)]
      omega

end Clone

namespace Table

variable {V : Type*} {g : GroupImpl} {T : Table V} {i : ℕ}
  (hcap : isValidCapacity T.capacity = true)
  (hmax : T.capacity ≤ kMaxValidCapacity)
include hcap hmax

/-- `SetCtrl` writes a control byte and its copy. -/
theorem setCtrl_eq (hi : i < T.capacity) (h : Ctrl) :
    T.setCtrl g i h = T.putCtrl i (cloneOf g T.capacity i) h := by
  rw [setCtrl, sizeSub_cloned_and hcap hmax hi]

/-- A control byte is written with its mirror. -/
theorem setCtrlInLargeTable_eq (hw : g.kWidth - 1 ≤ T.capacity) (hi : i < T.capacity) (h : Ctrl) :
    T.setCtrlInLargeTable g i h = T.putCtrl i (cloneOf g T.capacity i) h := by
  have hmod : numClonedBytes g &&& T.capacity = numClonedBytes g := by
    rw [and_capacity hcap, numClonedBytes]
    exact mod_eq_of_lt (by omega)
  have h := sizeSub_cloned_and (g := g) hcap hmax hi
  rw [hmod] at h
  rw [setCtrlInLargeTable, h]

end Table

/-! ## The ring and its copy -/

/-- The sentinel and the copy of the first control bytes. -/
structure Mirror (g : GroupImpl) (cap : ℕ) (ctrl : ℕ → Ctrl) : Prop where
  sentinel : ctrl cap = kSentinel
  tail : ∀ q < g.kWidth - 1, ctrl (cap + 1 + q) = if q < cap then ctrl q else kEmpty

namespace Mirror

variable {g : GroupImpl} {cap : ℕ} {ctrl : ℕ → Ctrl} {o i : ℕ}

section

variable (h : Mirror g cap ctrl)
include h

/-- A byte of a group is a byte of the ring, or one of the empty ones behind the copy. -/
theorem byte (ho : o ≤ cap) (hi : i < g.kWidth) :
    ctrl (o + i) = ctrl ((o + i) % (cap + 1)) ∨ (ctrl (o + i) = kEmpty ∧ 2 * cap < o + i) := by
  by_cases hring : o + i < cap + 1
  · left
    rw [mod_eq_of_lt hring]
  obtain ⟨q, hq⟩ := Nat.exists_eq_add_of_le (not_lt.1 hring)
  rw [hq, h.tail q (by omega)]
  by_cases hqc : q < cap
  · left
    rw [if_pos hqc, add_mod_left, mod_eq_of_lt (by omega)]
  · right
    exact ⟨if_neg hqc, by omega⟩

/-- From a whole group on, every byte of a group is a byte of the ring. -/
theorem byte_of_le (hw : g.kWidth - 1 ≤ cap) (ho : o ≤ cap)
    (hi : i < g.kWidth) : ctrl (o + i) = ctrl ((o + i) % (cap + 1)) := by
  rcases h.byte ho hi with hb | ⟨hb, hlt⟩
  · exact hb
  · omega

/-- A group reads bytes a table stores when the ring holds such bytes. -/
theorem stored (hring : ∀ i ≤ cap, Stored (ctrl i)) (ho : o ≤ cap) :
    ∀ i < g.kWidth, Stored (ctrl (o + i)) := by
  intro i hi
  rcases h.byte ho hi with hb | ⟨hb, -⟩
  · rw [hb]
    exact hring _ (le_of_lt_succ (mod_lt _ (succ_pos _)))
  · rw [hb]
    exact .inr (.inl rfl)

/-- Writing a byte of a slot and its copy keeps the copy right. -/
theorem put (hi : i < cap) (c : Ctrl) :
    Mirror g cap (update (update ctrl i c) (cloneOf g cap i) c) := by
  have hclone : ∀ q, cap + 1 + q = cloneOf g cap i ↔ q = i ∧ i < g.kWidth - 1 := by
    intro q
    unfold cloneOf
    split_ifs with hlt <;> omega
  have hring : ∀ q, q ≤ cap → q ≠ i → q ≠ cloneOf g cap i := by
    intro q hq hne
    unfold cloneOf
    split_ifs <;> omega
  constructor
  · rw [update_of_ne (hring cap le_rfl (by omega)), update_of_ne (by omega)]
    exact h.sentinel
  intro q hq
  by_cases hqi : q = i
  · subst hqi
    rw [if_pos hi, (hclone q).2 ⟨rfl, hq⟩, update_self]
    by_cases hself : q = cloneOf g cap q
    · rw [← hself, update_self]
    · rw [update_of_ne hself, update_self]
  · rw [update_of_ne (fun he => hqi ((hclone q).1 he).1), update_of_ne (by omega), h.tail q hq]
    by_cases hqc : q < cap
    · rw [if_pos hqc, if_pos hqc, update_of_ne (hring q hqc.le hqi), update_of_ne hqi]
    · rw [if_neg hqc, if_neg hqc]

end

end Mirror

/-- A written control byte on the ring. -/
theorem put_apply {g : GroupImpl} {i p : ℕ} (ctrl : ℕ → Ctrl) (c : Ctrl) (hp : p ≤ cap) :
    update (update ctrl i c) (cloneOf g cap i) c p = if p = i then c else ctrl p := by
  by_cases hpi : p = i
  · subst hpi
    rw [if_pos rfl]
    by_cases hself : p = cloneOf g cap p
    · rw [← hself, update_self]
    · rw [update_of_ne hself, update_self]
  · have hne : p ≠ cloneOf g cap i := by
      unfold cloneOf
      split_ifs <;> omega
    rw [if_neg hpi, update_of_ne hne, update_of_ne hpi]

/-! ## The groups of a search -/

/-- Start of the `j`-th group of the search for `h1`. -/
def groupOffset (g : GroupImpl) (cap h1 j : ℕ) : ℕ := offset (cap + 1) g.kWidth h1 j

/-- Slot `p` is in the `j`-th group of the search for `h1`. -/
def InGroup (g : GroupImpl) (cap h1 j p : ℕ) : Prop :=
  ahead (cap + 1) (groupOffset g cap h1 j) p < g.kWidth

/-- The `j`-th group of the search for `h1` has an empty byte. -/
def Stops (g : GroupImpl) (cap : ℕ) (ctrl : ℕ → Ctrl) (h1 j : ℕ) : Prop :=
  ∃ i < g.kWidth, ctrl (groupOffset g cap h1 j + i) = kEmpty

/-- The `j`-th group of the search for `h1` has an empty or a deleted byte. -/
def HasFree (g : GroupImpl) (cap : ℕ) (ctrl : ℕ → Ctrl) (h1 j : ℕ) : Prop :=
  ∃ i < g.kWidth, isEmptyOrDeleted (ctrl (groupOffset g cap h1 j + i)) = true

/-- The search for `h1` gets to slot `p`. -/
def Reaches (g : GroupImpl) (cap : ℕ) (ctrl : ℕ → Ctrl) (h1 p : ℕ) : Prop :=
  Reach (InGroup g cap h1) (Stops g cap ctrl h1) p

/-- The state of the probe sequence at the `j`-th group. -/
def seqAt (g : GroupImpl) (cap h1 j : ℕ) : ProbeSeq :=
  ⟨cap, groupOffset g cap h1 j, g.kWidth * j⟩

section Groups

variable {g : GroupImpl} {cap h j p : ℕ} {ctrl ctrl' : ℕ → Ctrl}

theorem GroupImpl.kWidth_pos (g : GroupImpl) : 0 < g.kWidth := by
  rcases g.kWidth_eq with h | h <;> omega

theorem groupOffset_le : groupOffset g cap h j ≤ cap :=
  le_of_lt_succ (offset_lt (succ_pos cap) _ _ _)

theorem inGroup_of_lt (hw : cap < g.kWidth) : InGroup g cap h j p :=
  lt_of_lt_of_le (ahead_lt (succ_pos cap)) hw

section

variable (hcap : isValidCapacity cap = true)
include hcap

theorem probeH1_eq : probeH1 cap h = seqAt g cap h 0 := by
  rw [probeH1, seqAt, groupOffset, offset, and_capacity hcap, mul_zero]

theorem seqAt_next : (seqAt g cap h j).next g = seqAt g cap h (j + 1) := by
  simp only [ProbeSeq.next, seqAt, and_capacity hcap, groupOffset, offset, mul_succ]

/-- The probe sequence comes to every slot. -/
theorem exists_inGroup (h p : ℕ) : ∃ j ≤ cap, InGroup g cap h j p := by
  rcases capacity_cases g hcap with ⟨hhalf, -⟩ | ⟨k, hk⟩
  · exact ⟨0, zero_le _, inGroup_of_lt (by omega)⟩
  · obtain ⟨j, hj, hin⟩ := exists_offset_near hk g.kWidth_pos h p
    have hle : 2 ^ k ≤ cap + 1 := by
      rw [hk]
      exact Nat.le_mul_of_pos_left _ g.kWidth_pos
    exact ⟨j, by omega, hin⟩

end

/-- The byte of a slot, read as part of a group. -/
theorem Mirror.byte_ahead (hm : Mirror g cap ctrl) (hp : p ≤ cap) {o : ℕ} (ho : o ≤ cap)
    (hin : ahead (cap + 1) o p < g.kWidth) : ctrl (o + ahead (cap + 1) o p) = ctrl p := by
  have hmod : (o + ahead (cap + 1) o p) % (cap + 1) = p :=
    add_ahead_mod (by omega) (by omega)
  rcases hm.byte ho hin with hb | ⟨-, hlt⟩
  · rw [hb, hmod]
  have := ahead_lt (n := cap + 1) (o := o) (p := p) (succ_pos cap)
  -- the way to a slot ends on the ring or in the copy
  exfalso
  rcases lt_or_ge (o + ahead (cap + 1) o p) (cap + 1) with hr | hr
  · omega
  · omega

/-- A group with an empty slot ends a search. -/
theorem stops_of_empty (hm : Mirror g cap ctrl) (hp : p ≤ cap) (hin : InGroup g cap h j p)
    (hempty : ctrl p = kEmpty) : Stops g cap ctrl h j :=
  ⟨_, hin, (hm.byte_ahead hp groupOffset_le hin).trans hempty⟩

/-- In a table below a whole group the empty bytes behind the copy are in every group. -/
theorem stops_of_half (hm : Mirror g cap ctrl) (hw : 2 * cap + 1 < g.kWidth) :
    Stops g cap ctrl h j := by
  have ho : groupOffset g cap h j ≤ cap := groupOffset_le
  refine ⟨2 * cap + 1 - groupOffset g cap h j, by omega, ?_⟩
  have hpos : groupOffset g cap h j + (2 * cap + 1 - groupOffset g cap h j) = cap + 1 + cap := by
    omega
  rw [hpos, hm.tail cap (by omega), if_neg (lt_irrefl cap)]

/-- Every search meets a group with an empty byte. -/
theorem exists_stops (hcap : isValidCapacity cap = true) (hm : Mirror g cap ctrl)
    (hempty : g.kWidth - 1 ≤ cap → ∃ p < cap, ctrl p = kEmpty) (h : ℕ) :
    ∃ j ≤ cap, Stops g cap ctrl h j := by
  rcases capacity_cases g hcap with ⟨hhalf, -⟩ | ⟨k, hk⟩
  · exact ⟨0, zero_le _, stops_of_half hm hhalf⟩
  have hle : g.kWidth ≤ cap + 1 := by
    rw [hk]
    exact Nat.le_mul_of_pos_right _ (Nat.two_pow_pos k)
  obtain ⟨p, hp, he⟩ := hempty (by omega)
  obtain ⟨j, hj, hin⟩ := exists_inGroup hcap h p
  exact ⟨j, hj, stops_of_empty hm hp.le hin he⟩

/-- A group that ends a search has a free slot. -/
theorem Stops.hasFree (hs : Stops g cap ctrl h j) : HasFree g cap ctrl h j := by
  obtain ⟨i, hi, he⟩ := hs
  exact ⟨i, hi, by rw [he]; rfl⟩

/-- A slot is still reached if no slot became empty. -/
theorem Reaches.mono (hr : Reaches g cap ctrl h p)
    (hle : ∀ x, ctrl' x = kEmpty → ctrl x = kEmpty) : Reaches g cap ctrl' h p :=
  Reach.mono hr fun _ ⟨i, hi, he⟩ => ⟨i, hi, hle _ he⟩

end Groups

/-! ## Counting control bytes -/

/-- Number of slots whose control byte has the property. -/
def countCtrl (q : Ctrl → Bool) (cap : ℕ) (ctrl : ℕ → Ctrl) : ℕ :=
  ((range cap).filter fun i => q (ctrl i) = true).card

/-- One byte changes the count by itself. -/
theorem countCtrl_put {g : GroupImpl} (q : Ctrl → Bool) {i : ℕ} (ctrl : ℕ → Ctrl) (c : Ctrl)
    (hi : i < cap) :
    countCtrl q cap (update (update ctrl i c) (cloneOf g cap i) c)
        + (q (ctrl i)).toNat = countCtrl q cap ctrl + (q c).toNat := by
  have hsum : ∀ f, countCtrl q cap f
      = (q (f i)).toNat + ∑ x ∈ (range cap).erase i, (q (f x)).toNat := by
    intro f
    have htoNat : ∀ b, b.toNat = if b = true then 1 else 0 := by decide
    rw [add_sum_erase _ (fun x => (q (f x)).toNat) (mem_range.2 hi), countCtrl, card_filter]
    exact sum_congr rfl fun x _ => (htoNat _).symm
  rw [hsum, hsum ctrl, put_apply ctrl c hi.le, if_pos rfl]
  have hrest : ∀ x ∈ (range cap).erase i,
      (q (update (update ctrl i c) (cloneOf g cap i) c x)).toNat
        = (q (ctrl x)).toNat := by
    intro x hx
    obtain ⟨hne, hlt⟩ := mem_erase.1 hx
    rw [put_apply ctrl c (mem_range.1 hlt).le, if_neg hne]
  rw [sum_congr rfl hrest]
  omega

/-! ## Shape and layout -/

namespace Table

variable {V : Type*}

/-- Number of full control bytes. -/
def fullCount (T : Table V) : ℕ := countCtrl isFull T.capacity T.ctrl

/-- Number of deleted control bytes. -/
def deletedCount (T : Table V) : ℕ := countCtrl isDeleted T.capacity T.ctrl

/-- Number of empty control bytes. -/
def emptyCount (T : Table V) : ℕ := countCtrl isEmpty T.capacity T.ctrl

variable {i : ℕ}

theorem putCtrl_apply (g : GroupImpl) (T : Table V) {p : ℕ} (c : Ctrl) (hp : p ≤ T.capacity) :
    (T.putCtrl i (cloneOf g T.capacity i) c).ctrl p = if p = i then c else T.ctrl p :=
  put_apply T.ctrl c hp

theorem fullCount_putCtrl (g : GroupImpl) (T : Table V) (c : Ctrl) (hi : i < T.capacity) :
    (T.putCtrl i (cloneOf g T.capacity i) c).fullCount + (isFull (T.ctrl i)).toNat
      = T.fullCount + (isFull c).toNat :=
  countCtrl_put isFull T.ctrl c hi

theorem deletedCount_putCtrl (g : GroupImpl) (T : Table V) (c : Ctrl) (hi : i < T.capacity) :
    (T.putCtrl i (cloneOf g T.capacity i) c).deletedCount + (isDeleted (T.ctrl i)).toNat
      = T.deletedCount + (isDeleted c).toNat :=
  countCtrl_put isDeleted T.ctrl c hi

/-- Writing a byte that is not empty empties no byte. -/
theorem putCtrl_eq_empty {T : Table V} {clone x : ℕ} {c : Ctrl} (hc : c ≠ kEmpty)
    (hx : (T.putCtrl i clone c).ctrl x = kEmpty) : T.ctrl x = kEmpty := by
  unfold putCtrl at hx
  simp only [update_apply] at hx
  split_ifs at hx
  · exact absurd hx hc
  · exact absurd hx hc
  · exact hx

theorem exists_of_emptyCount_pos {T : Table V} (h : 0 < T.emptyCount) :
    ∃ p < T.capacity, T.ctrl p = kEmpty := by
  rw [emptyCount, countCtrl, card_pos] at h
  obtain ⟨p, hp⟩ := h
  obtain ⟨hp, he⟩ := mem_filter.1 hp
  exact ⟨p, mem_range.1 hp, by simpa [isEmpty] using he⟩

/-- The control bytes of the slots store the hashes `hashAt`. -/
structure Shape (g : GroupImpl) (T : Table V) (hashAt : ℕ → Option (BitVec 64)) : Prop where
  valid : isValidCapacity T.capacity = true
  large : kMaxSmallCapacity < T.capacity
  le_max : T.capacity ≤ kMaxValidCapacity
  blocked_le : T.blocked ≤ kMaxBlockedElementCount
  blocked_le_capacity : T.blocked ≤ T.capacity
  blocked_large : g.kWidth < T.capacity → T.blocked ≤ kMaxBlockedElementsForLargeTables
  mirror : Mirror g T.capacity T.ctrl
  blocked_byte : ∀ i < T.capacity, T.allocated ≤ i → T.ctrl i = kSentinel
  full : ∀ i h, hashAt i = some h → i < T.allocated ∧ T.ctrl i = h2 h
  free : ∀ i < T.allocated, hashAt i = none → T.ctrl i = kEmpty ∨ T.ctrl i = kDeleted

/-- The growth info counts the slots that can still be used, and knows of the deleted ones. -/
def GrowthOk (g : GroupImpl) (T : Table V) : Prop :=
  ∃ d left, T.growthInfo.Counts T.capacity d left ∧
    left + T.fullCount + T.deletedCount + T.blocked = capacityToGrowth g T.capacity ∧
    (0 < T.deletedCount → d = true) ∧ (d = true → g.kWidth < T.capacity)

/-- The control bytes store the hashes `hashAt`, each where its search gets to. -/
structure Arranged (g : GroupImpl) (T : Table V) (hashAt : ℕ → Option (BitVec 64)) : Prop
    extends Shape g T hashAt where
  size_eq : T.size = T.fullCount
  reach : ∀ i h, hashAt i = some h → Reaches g T.capacity T.ctrl (h1 h) i

/-- The control bytes are arranged for the hashes, and the growth info is right. -/
structure Layout (g : GroupImpl) (T : Table V) (hashAt : ℕ → Option (BitVec 64)) : Prop
    extends Arranged g T hashAt where
  growth : T.GrowthOk g

namespace Shape

variable {g : GroupImpl} {T : Table V} {hashAt : ℕ → Option (BitVec 64)}

theorem allocated_le (_ : Shape g T hashAt) : T.allocated ≤ T.capacity := sub_le _ _

variable {i : ℕ}

section

variable (h : Shape g T hashAt)
include h

/-- What the bytes of the ring are. -/
theorem ring_byte (hi : i ≤ T.capacity) :
    (∃ x, hashAt i = some x ∧ i < T.allocated ∧ T.ctrl i = h2 x) ∨
      (hashAt i = none ∧ i < T.allocated ∧ (T.ctrl i = kEmpty ∨ T.ctrl i = kDeleted)) ∨
      (hashAt i = none ∧ T.allocated ≤ i ∧ T.ctrl i = kSentinel) := by
  cases hx : hashAt i with
  | some x =>
    obtain ⟨hlt, hb⟩ := h.full i x hx
    exact .inl ⟨x, rfl, hlt, hb⟩
  | none =>
    rcases lt_or_ge i T.allocated with hlt | hge
    · exact .inr (.inl ⟨rfl, hlt, h.free i hlt hx⟩)
    · refine .inr (.inr ⟨rfl, hge, ?_⟩)
      rcases lt_or_ge i T.capacity with hlt | hge'
      · exact h.blocked_byte i hlt hge
      · rw [le_antisymm hi hge']
        exact h.mirror.sentinel

theorem stored_ring (hi : i ≤ T.capacity) : Stored (T.ctrl i) := by
  rcases h.ring_byte hi with ⟨x, -, -, hb⟩ | ⟨-, -, hb | hb⟩ | ⟨-, -, hb⟩
  · exact .inl (hb ▸ h2_isFull x)
  · exact .inr (.inl hb)
  · exact .inr (.inr (.inl hb))
  · exact .inr (.inr (.inr hb))

/-- A group reads bytes a table stores. -/
theorem stored {o : ℕ} (ho : o ≤ T.capacity) : ∀ i < g.kWidth, Stored (T.group o i) :=
  h.mirror.stored (fun _ hi => h.stored_ring hi) ho

/-- A full byte is that of a stored hash. -/
theorem of_isFull (hi : i ≤ T.capacity)
    (hfull : isFull (T.ctrl i) = true) : ∃ x, hashAt i = some x ∧ i < T.allocated := by
  have hne := isFull_ne hfull
  rcases h.ring_byte hi with ⟨x, hx, hlt, -⟩ | ⟨-, -, hb | hb⟩ | ⟨-, -, hb⟩
  · exact ⟨x, hx, hlt⟩
  · exact absurd hb hne.1
  · exact absurd hb hne.2.1
  · exact absurd hb hne.2.2

/-- Writing the byte of an allocated slot. -/
theorem put (hi : i < T.allocated) {c : Ctrl} {x : Option (BitVec 64)}
    (hsome : ∀ y, x = some y → c = h2 y) (hnone : x = none → c = kEmpty ∨ c = kDeleted) :
    Shape g (T.putCtrl i (cloneOf g T.capacity i) c) (update hashAt i x) := by
  have hle := h.allocated_le
  have hput := fun p hp => T.putCtrl_apply g (i := i) (p := p) c hp
  refine ⟨h.valid, h.large, h.le_max, h.blocked_le, h.blocked_le_capacity, h.blocked_large,
    h.mirror.put (by omega) c, ?_, ?_, ?_⟩
  · intro p hp hge
    have hpi : p ≠ i := by
      have : T.allocated ≤ p := hge
      omega
    rw [hput p (le_of_lt hp), if_neg hpi]
    exact h.blocked_byte p hp hge
  · intro p y hy
    by_cases hpi : p = i
    · subst hpi
      rw [update_self] at hy
      exact ⟨hi, by rw [hput p (by omega), if_pos rfl, hsome y hy]⟩
    · rw [update_of_ne hpi] at hy
      obtain ⟨hlt, hb⟩ := h.full p y hy
      exact ⟨hlt, by rw [hput p (by omega), if_neg hpi, hb]⟩
  · intro p hp hy
    have hp' : p < T.allocated := hp
    by_cases hpi : p = i
    · subst hpi
      rw [update_self] at hy
      rw [hput p (by omega), if_pos rfl]
      exact hnone hy
    · rw [update_of_ne hpi] at hy
      rw [hput p (by omega), if_neg hpi]
      exact h.free p hp' hy

/-- The slots are full, deleted, empty or blocked. -/
theorem count_add : T.fullCount + T.deletedCount + T.emptyCount + T.blocked = T.capacity := by
  have hblocked : T.blocked = ∑ i ∈ range T.capacity, if T.allocated ≤ i then 1 else 0 := by
    rw [← card_filter]
    have hset : (range T.capacity).filter (fun i => T.allocated ≤ i)
        = Finset.Ico T.allocated T.capacity := by
      ext i
      simp only [mem_filter, mem_range, mem_Ico]
      omega
    have := h.blocked_le_capacity
    rw [hset, card_Ico, allocated]
    omega
  have hsum : ∀ i ∈ range T.capacity,
      (if isFull (T.ctrl i) = true then 1 else 0) + (if isDeleted (T.ctrl i) = true then 1 else 0)
        + (if isEmpty (T.ctrl i) = true then 1 else 0) + (if T.allocated ≤ i then 1 else 0)
        = (1 : ℕ) := by
    intro i hi
    rcases h.ring_byte (mem_range.1 hi).le with ⟨x, -, hlt, hb⟩ | ⟨-, hlt, hb | hb⟩
      | ⟨-, hge, hb⟩
    · have hne := isFull_ne (h2_isFull x)
      have hd : isDeleted (h2 x) = false := by simpa [isDeleted] using hne.2.1
      have he : isEmpty (h2 x) = false := by simpa [isEmpty] using hne.1
      simp [hb, h2_isFull, hd, he, not_le.2 hlt]
    · have hf : isFull kEmpty = false := rfl
      have hd : isDeleted kEmpty = false := rfl
      have he : isEmpty kEmpty = true := rfl
      simp [hb, hf, hd, he, not_le.2 hlt]
    · have hf : isFull kDeleted = false := rfl
      have hd : isDeleted kDeleted = true := rfl
      have he : isEmpty kDeleted = false := rfl
      simp [hb, hf, hd, he, not_le.2 hlt]
    · have hf : isFull kSentinel = false := rfl
      have hd : isDeleted kSentinel = false := rfl
      have he : isEmpty kSentinel = false := rfl
      simp [hb, hf, hd, he, hge]
  simp only [fullCount, deletedCount, emptyCount, countCtrl, card_filter, hblocked,
    ← sum_add_distrib, sum_congr rfl hsum]
  simp

end

end Shape

namespace Layout

variable {g : GroupImpl} {T : Table V} {hashAt : ℕ → Option (BitVec 64)}

/-- From a whole group on, the growth leaves an empty byte. -/
theorem exists_empty (h : Layout g T hashAt) (hw : g.kWidth - 1 ≤ T.capacity) :
    ∃ p < T.capacity, T.ctrl p = kEmpty := by
  obtain ⟨d, left, -, hsum, -, -⟩ := h.growth
  have hcount := h.count_add
  have hlt := capacityToGrowth_lt hw
  exact exists_of_emptyCount_pos (by omega)

/-- With growth left there is an empty byte in every table. -/
theorem exists_empty_of_left (h : Layout g T hashAt) {d : Bool} {left : ℕ}
    (hcounts : T.growthInfo.Counts T.capacity d left) (hleft : 0 < left) :
    ∃ p < T.capacity, T.ctrl p = kEmpty := by
  obtain ⟨d', left', hcounts', hsum, -, -⟩ := h.growth
  have heq := hcounts'.total.symm.trans hcounts.total
  have hcount := h.count_add
  have hle := capacityToGrowth_le g T.capacity
  exact exists_of_emptyCount_pos (by omega)

/-- Every search ends. -/
theorem exists_stops (h : Layout g T hashAt) (h1 : ℕ) :
    ∃ j ≤ T.capacity, Stops g T.capacity T.ctrl h1 j :=
  Swiss.exists_stops h.valid h.mirror h.exists_empty h1

end Layout

end Table

end Abseil.Swiss
