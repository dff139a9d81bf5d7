import Abseil.SwissLayout

/-!
# Growth between tables of one group

A full table whose new capacity still fits in one group is not rehashed. Its control bytes are
shifted by one place with a word or two, and its slots are moved with one `memcpy`. The proof
follows the bytes of the words : what a `Store64` writes of a xor, a shift or a `Load64` is known
byte by byte, so the new control bytes are a case split on the position.
-/

namespace Abseil.Swiss

open Function GroupPortable

/-! ## The code -/

/-- `little_endian::Store64` to the control bytes from `start` on. -/
def storeBytes (ctrl : ℕ → Ctrl) (start : ℕ) (w : BitVec 64) : ℕ → Ctrl :=
  fun p => if start ≤ p ∧ p < start + 8 then store64 w (p - start) else ctrl p

/-- `kEmpty` turns into `kSentinel`. -/
def kEmptyXorSentinel : BitVec 64 := (kEmpty ^^^ kSentinel).setWidth 64

/-- `copied_bytes` : the old control bytes behind an empty one. -/
def copiedBytes (oldCtrl : ℕ → Ctrl) (oldCapacity blocked : ℕ) : BitVec 64 :=
  let copied := load64 (fun i => oldCtrl (oldCapacity + i)) ^^^ kEmptyXorSentinel
  if 0 < blocked then
    let blockedMask := (kEmptyXorSentinel * lsbs) >>> (64 - blocked * 8)
    copied ^^^ blockedMask <<< ((oldCapacity - blocked + 1) * 8)
  else copied

/-- `GrowIntoSingleGroupShuffleControlBytes`. -/
def growIntoSingleGroupShuffleControlBytes (g : GroupImpl) (oldCtrl : ℕ → Ctrl)
    (oldCapacity blocked : ℕ) (newCtrl : ℕ → Ctrl) (newCapacity : ℕ) : ℕ → Ctrl :=
  let kHalfWidth := g.kWidth / 2
  let copied := copiedBytes oldCtrl oldCapacity blocked
  if g.kWidth = 8 then
    storeBytes (storeBytes newCtrl 0 copied) newCapacity (copied <<< 8 ^^^ kSentinel.setWidth 64)
  else
    let ctrl := Table.memset newCtrl kHalfWidth kHalfWidth kEmpty
    let ctrl := Table.memset ctrl (newCapacity + kHalfWidth) kHalfWidth kEmpty
    let ctrl := storeBytes ctrl 0 copied
    let ctrl := update ctrl newCapacity kSentinel
    storeBytes ctrl (newCapacity + 1) copied

/-- `InitializeThreeElementsControlBytes`. -/
def initializeThreeElementsControlBytes (g : GroupImpl) (origH2 newH2 : Ctrl) (newOffset : ℕ)
    (newCtrl : ℕ → Ctrl) : ℕ → Ctrl :=
  let kEmpty64 : BitVec 64 := kEmpty.setWidth 64
  let kFirstCtrlBytesWithZeroes := kMsbs8Bytes ^^^ kEmpty64 <<< (8 * 1) ^^^
    kEmptyXorSentinel <<< (8 * 3) ^^^ kEmpty64 <<< (8 * 5)
  let sooH2 : BitVec 64 := origH2.setWidth 64
  let newH2XorEmpty : BitVec 64 := (newH2 ^^^ kEmpty).setWidth 64
  let first := sooH2 <<< (8 * 1) ||| kFirstCtrlBytesWithZeroes ||| sooH2 <<< (8 * 5)
  let first := first ^^^ newH2XorEmpty <<< (8 * newOffset)
  let first := first ^^^ newH2XorEmpty <<< (8 * (newOffset + 3 + 1))
  storeBytes (Table.memset newCtrl 3 g.kWidth kEmpty) 0 first

/-- `SingleGroupTableH1`. -/
def singleGroupTableH1 (hash : BitVec 64) (seed : ℕ) : BitVec 64 := hash ^^^ BitVec.ofNat 64 seed

/-- `Resize1To3NewOffset`. -/
def resize1To3NewOffset (hash : BitVec 64) (seed : ℕ) : ℕ :=
  (singleGroupTableH1 hash seed &&& 2#64).toNat

namespace Table

variable {V : Type*}

/-- `transfer_n` of the first `n` slots to the slots of a new backing array from the second on. -/
def transferN (slots : ℕ → Option V) (n : ℕ) : ℕ → Option V
  | 0 => none
  | i + 1 => if i < n then slots i else none

/-- `GrowToNextCapacityAndPrepareInsert` into a single group, with the offset of the new
element. -/
def growToNextCapacityAndPrepareInsert (g : GroupImpl) (T : Table V) (newCtrl : ℕ → Ctrl)
    (newHash : BitVec 64) : Table V × ℕ :=
  let newCapacity := nextCapacity T.capacity
  let offset := if singleGroupTableH1 newHash T.seed &&& 1#64 ≠ 0#64 then 0 else newCapacity - 1
  let grown : Table V := { T with
    capacity := newCapacity, blocked := 0
    ctrl := growIntoSingleGroupShuffleControlBytes g T.ctrl T.capacity T.blocked newCtrl newCapacity
    slots := transferN T.slots T.size }
  let grown := (grown.setCtrlInSingleGroupTable offset (h2 newHash)).prepareInsertCommon
  (grown.resetGrowthLeft g grown.size, offset)

/-- `Grow1To3AndPrepareInsert`, and the growth of a table with its element in place, with a new
seed. -/
def grow1To3AndPrepareInsert (g : GroupImpl) (T : Table V) (newCtrl : ℕ → Ctrl) (seed : ℕ)
    (origHash newHash : BitVec 64) : Table V × ℕ :=
  let offset := resize1To3NewOffset newHash seed
  let grown : Table V := { T with
    capacity := 3, seed := seed
    ctrl := initializeThreeElementsControlBytes g (h2 origHash) (h2 newHash) offset newCtrl
    slots := transferN T.slots 1 }
  let grown := grown.prepareInsertCommon
  ({ grown with growthInfo := grown.growthInfo.initGrowthLeftNoDeleted (3 - 2) 3 }, offset)

end Table

/-! ## Bytes of words -/

section Bytes

variable {x y : BitVec 64} {i j k : ℕ}

theorem store64_load64 (pos : ℕ → Ctrl) (hj : j < 8) : store64 (load64 pos) j = pos j := by
  refine BitVec.eq_of_getLsbD_eq fun b hb => ?_
  rw [getLsbD_store64 _ hb, getLsbD_load64 pos hj hb]

theorem store64_xor : store64 (x ^^^ y) j = store64 x j ^^^ store64 y j :=
  BitVec.extractLsb'_xor ..

theorem store64_or : store64 (x ||| y) j = store64 x j ||| store64 y j :=
  BitVec.extractLsb'_or ..

theorem store64_shiftLeft (hj : j < 8) :
    store64 (x <<< (8 * k)) j = if k ≤ j then store64 x (j - k) else 0#8 := by
  refine BitVec.eq_of_getLsbD_eq fun b hb => ?_
  rw [getLsbD_store64 _ hb, BitVec.getLsbD_shiftLeft]
  split_ifs with hk
  · have hsub : 8 * j + b - 8 * k = 8 * (j - k) + b := by omega
    rw [getLsbD_store64 _ hb, hsub]
    simp only [show 8 * j + b < 64 by omega, show ¬8 * j + b < 8 * k by omega]
    simp
  · simp [show 8 * j + b < 8 * k by omega]

theorem store64_shiftRight : store64 (x >>> (8 * k)) j = store64 x (j + k) := by
  refine BitVec.eq_of_getLsbD_eq fun b hb => ?_
  simp only [getLsbD_store64 _ hb, BitVec.getLsbD_ushiftRight]
  congr 1
  omega

theorem store64_setWidth (c : Ctrl) : store64 (c.setWidth 64) j = if j = 0 then c else 0#8 := by
  refine BitVec.eq_of_getLsbD_eq fun b hb => ?_
  rw [getLsbD_store64 _ hb, BitVec.getLsbD_setWidth]
  split_ifs with hj
  · simp [hj, show b < 64 by omega]
  · simp [BitVec.getLsbD_of_ge c (8 * j + b) (by omega)]

theorem store64_of_ge (hj : 8 ≤ j) : store64 x j = 0#8 := by
  refine BitVec.eq_of_getLsbD_eq fun b hb => ?_
  rw [getLsbD_store64 _ hb, BitVec.getLsbD_of_ge x _ (by omega)]
  simp

end Bytes

/-! ## The shuffled bytes -/

/-- The control bytes of a full table whose last `blocked` slots are blocked. -/
structure FullCtrl (g : GroupImpl) (cap blocked : ℕ) (ctrl : ℕ → Ctrl) : Prop where
  mirror : Mirror g cap ctrl
  blocked_le : blocked ≤ cap
  blocked_byte : ∀ i < cap, cap - blocked ≤ i → ctrl i = kSentinel

variable {g : GroupImpl} {cap blocked : ℕ} {ctrl : ℕ → Ctrl}

/-- The mask turns the blocked bytes into empty ones. -/
theorem store64_blockedMask {j : ℕ} (hj : j < 8) (hcap : cap < 8) (hb : 0 < blocked)
    (hle : blocked ≤ cap) : store64 (((kEmptyXorSentinel * lsbs) >>> (64 - blocked * 8)) <<<
      ((cap - blocked + 1) * 8)) j =
      if cap - blocked < j ∧ j ≤ cap then kEmpty ^^^ kSentinel else 0#8 := by
  have hall : ∀ i < 8, store64 (kEmptyXorSentinel * lsbs) i = kEmpty ^^^ kSentinel := by decide
  have hright : 64 - blocked * 8 = 8 * (8 - blocked) := by omega
  rw [mul_comm (cap - blocked + 1) 8, hright, store64_shiftLeft hj, store64_shiftRight]
  by_cases hlow : cap - blocked < j
  · rw [if_pos (by omega)]
    by_cases hhigh : j ≤ cap
    · rw [if_pos ⟨hlow, hhigh⟩, hall _ (by omega)]
    · rw [if_neg (by omega), store64_of_ge (by omega)]
  · simp (disch := omega) only [if_neg]

/-- The first `n` bytes one place on, and the rest empty. -/
def shifted (old : ℕ → Ctrl) (n r : ℕ) : Ctrl := if 0 < r ∧ r ≤ n then old (r - 1) else kEmpty

theorem shifted_of_not {old : ℕ → Ctrl} {n r : ℕ} (h : r = 0 ∨ n < r) :
    shifted old n r = kEmpty := if_neg (by omega)

theorem store64_copiedBytes (h : FullCtrl g cap blocked ctrl) (hcap : cap < 8) {j : ℕ}
    (hj : j < 8) : store64 (copiedBytes ctrl cap blocked) j = shifted ctrl (cap - blocked) j := by
  have hwidth : 8 ≤ g.kWidth := by rcases g.kWidth_eq with hw | hw <;> omega
  have hxor : kSentinel ^^^ (kEmpty ^^^ kSentinel) = kEmpty := by decide
  -- the bytes behind the elements, with their sentinels
  have hload : ctrl (cap + j) = if j = 0 then kSentinel else shifted ctrl cap j := by
    rcases j with _ | q
    · exact h.mirror.sentinel
    · rw [add_comm q 1, ← add_assoc, h.mirror.tail q (by omega),
        if_neg (show ¬1 + q = 0 by omega), shifted, Nat.add_sub_cancel_left]
      exact if_congr (by omega) rfl rfl
  have hfirst : store64 (load64 (fun i => ctrl (cap + i)) ^^^ kEmptyXorSentinel) j =
      shifted ctrl cap j := by
    rw [store64_xor, store64_load64 _ hj, hload, kEmptyXorSentinel, store64_setWidth]
    split_ifs with h0
    · rw [hxor, shifted_of_not (.inl h0)]
    · exact BitVec.xor_zero
  unfold copiedBytes
  split_ifs with hb
  · have hle := h.blocked_le
    rw [store64_xor, hfirst, store64_blockedMask hj hcap hb hle]
    split_ifs with hmask
    · rw [shifted_of_not (.inr hmask.1), shifted, if_pos (by omega), h.blocked_byte (j - 1) (by
        omega) (by omega), hxor]
    · rw [BitVec.xor_zero, shifted, shifted]
      exact if_congr (by omega) rfl rfl
  · rw [hfirst, show blocked = 0 by omega, Nat.sub_zero]

/-! ## The new control bytes -/

/-- The `n` old bytes one place on, the new one at `offset`, and the rest empty. -/
structure Grown (g : GroupImpl) (old : ℕ → Ctrl) (n cap offset : ℕ) (h : Ctrl)
    (ctrl : ℕ → Ctrl) : Prop where
  offset_lt : offset < cap
  vacant : offset = 0 ∨ n < offset
  moved : ∀ i < n, ctrl (i + 1) = old i
  new : ctrl offset = h
  rest : ∀ i < cap, i = 0 ∨ n < i → i ≠ offset → ctrl i = kEmpty
  mirror : Mirror g cap ctrl

/-- The control bytes before the new element is placed. -/
theorem shuffled_byte (h : FullCtrl g cap blocked ctrl) (hhalf : cap < g.kWidth / 2)
    (newCtrl : ℕ → Ctrl) {p : ℕ} (hp : p < nextCapacity cap + g.kWidth) :
    growIntoSingleGroupShuffleControlBytes g ctrl cap blocked newCtrl (nextCapacity cap) p =
      if p = nextCapacity cap then kSentinel else shifted ctrl (cap - blocked)
        (if p < nextCapacity cap then p else p - (nextCapacity cap + 1)) := by
  have hcap : cap < 8 := by rcases g.kWidth_eq with hw | hw <;> omega
  have hN : nextCapacity cap = cap * 2 + 1 := rfl
  have hcopied : ∀ j < 8, store64 (copiedBytes ctrl cap blocked) j =
      shifted ctrl (cap - blocked) j := fun j hj => store64_copiedBytes h hcap hj
  set N := nextCapacity cap
  unfold growIntoSingleGroupShuffleControlBytes
  rcases g.kWidth_eq with hw | hw
  · -- the second word begins with the sentinel
    have hsecond : ∀ j < 8,
        store64 (copiedBytes ctrl cap blocked <<< 8 ^^^ kSentinel.setWidth 64) j =
          if j = 0 then kSentinel else shifted ctrl (cap - blocked) (j - 1) := by
      intro j hj
      have hshift := store64_shiftLeft (x := copiedBytes ctrl cap blocked) (k := 1) hj
      rw [store64_xor, store64_setWidth, hshift]
      split_ifs
      · omega
      · rw [BitVec.xor_zero, hcopied _ (by omega)]
      · exact BitVec.zero_xor
      · omega
    rw [if_pos hw, storeBytes]
    by_cases hlow : p < N
    · simp (disch := omega) only [if_neg, storeBytes, if_pos, hcopied, Nat.sub_zero]
    · rw [if_pos (by omega), hsecond _ (by omega), if_neg hlow]
      exact if_congr (by omega) rfl (by rw [Nat.sub_sub])
  · rw [if_neg (by omega), storeBytes, hw]
    rcases lt_trichotomy p N with hlow | heq | hhigh
    · rw [if_neg (by omega), update_of_ne (by omega), storeBytes,
        if_neg (show ¬p = N by omega), if_pos hlow]
      by_cases h8 : p < 8
      · rw [if_pos (by omega), hcopied _ (by omega), Nat.sub_zero]
      · rw [if_neg (by omega), Table.memset, if_neg (by omega), Table.memset, if_pos (by omega),
          shifted_of_not (.inr (by omega))]
    · rw [if_neg (by omega), heq, update_self, if_pos rfl]
    · rw [if_neg (show ¬p = N by omega), if_neg (show ¬p < N by omega)]
      by_cases h8 : p < N + 9
      · rw [if_pos (by omega), hcopied _ (by omega)]
      · rw [if_neg (by omega), update_of_ne (by omega), storeBytes, if_neg (by omega),
          Table.memset, if_pos (by omega), shifted_of_not (.inr (by omega))]

/-- The new element goes to the first slot or to the last. -/
theorem Grown.place (h : FullCtrl g cap blocked ctrl) (hhalf : cap < g.kWidth / 2) (hpos : 0 < cap)
    (newCtrl : ℕ → Ctrl) (c : Ctrl) {offset : ℕ}
    (hoffset : offset = 0 ∨ offset = nextCapacity cap - 1) :
    Grown g ctrl (cap - blocked) (nextCapacity cap) offset c (update (update
        (growIntoSingleGroupShuffleControlBytes g ctrl cap blocked newCtrl (nextCapacity cap))
        offset c) (offset + nextCapacity cap + 1) c) := by
  have hN : nextCapacity cap = cap * 2 + 1 := rfl
  have hbyte := fun p => shuffled_byte h hhalf newCtrl (p := p)
  set N := nextCapacity cap
  set bytes := growIntoSingleGroupShuffleControlBytes g ctrl cap blocked newCtrl N
  have hlow : ∀ p < N, p ≠ offset → update (update bytes offset c)
      (offset + N + 1) c p = shifted ctrl (cap - blocked) p := by
    intro p hp hne
    simp (disch := omega) only [update_of_ne, hbyte p, if_neg, if_pos hp]
  have hnew : update (update bytes offset c) (offset + N + 1) c offset = c := by
    rw [update_of_ne (by omega), update_self]
  refine ⟨by omega, by omega, fun i hi => ?_, hnew, fun i hi hi' hne => ?_, ⟨?_, fun q hq => ?_⟩⟩
  · simp (disch := omega) only [hlow (i + 1), shifted, if_pos, Nat.add_sub_cancel]
  · rw [hlow i hi hne, shifted_of_not hi']
  · rw [update_of_ne (by omega), update_of_ne (by omega), hbyte N (by omega), if_pos rfl]
  rcases eq_or_ne q offset with rfl | hne
  · rw [if_pos (by omega), hnew, show N + 1 + q = q + N + 1 by omega, update_self]
  · rw [update_of_ne (by omega), update_of_ne (by omega),
      hbyte _ (by omega), if_neg (by omega), if_neg (by omega), Nat.add_sub_cancel_left]
    split_ifs with hqN
    · exact (hlow q hqN hne).symm
    · exact shifted_of_not (.inr (by omega))

/-- The control bytes of a table that grows from one element to three. -/
theorem Grown.three (g : GroupImpl) (orig new : Ctrl) (newCtrl : ℕ → Ctrl) {offset : ℕ}
    (hoffset : offset = 0 ∨ offset = 2) : Grown g (fun _ => orig) 1 3 offset new
      (initializeThreeElementsControlBytes g orig new offset newCtrl) := by
  have hwidth : 8 ≤ g.kWidth := by rcases g.kWidth_eq with hw | hw <;> omega
  have hxor : ∀ c, kEmpty ^^^ (c ^^^ kEmpty) = c := by decide
  have hsent : kEmpty ^^^ (kEmpty ^^^ kSentinel) = kSentinel := by decide
  set bytes := initializeThreeElementsControlBytes g orig new offset newCtrl with hbytes
  have hbyte : ∀ p < 3 + g.kWidth, bytes p = if p = 1 ∨ p = 5 then orig
      else if p = offset ∨ p = offset + 4 then new else if p = 3 then kSentinel else kEmpty := by
    intro p hp
    rw [hbytes, initializeThreeElementsControlBytes, storeBytes]
    by_cases h8 : p < 8
    · have hmsbs : ∀ j < 8, store64 kMsbs8Bytes j = kEmpty := by decide
      rw [if_pos (by omega), Nat.sub_zero]
      simp only [store64_xor, store64_or, store64_shiftLeft h8, store64_setWidth, hmsbs p h8,
        kEmptyXorSentinel]
      rcases hoffset with rfl | rfl <;> interval_cases p <;> simp [hxor, hsent]
    · rw [if_neg (by omega), Table.memset, if_pos (by omega)]
      simp (disch := omega) only [if_neg]
  refine ⟨by omega, by omega, fun i hi => ?_, ?_, fun i hi hi' hne => ?_, ⟨?_, fun q hq => ?_⟩⟩
  · rw [hbyte _ (by omega), if_pos (by omega)]
  · rw [hbyte _ (by omega), if_neg (by omega), if_pos (by omega)]
  · simp (disch := omega) only [hbyte, if_neg]
  · rw [hbyte _ (by omega), if_neg (by omega), if_neg (by omega), if_pos rfl]
  · rw [hbyte _ (by omega)]
    by_cases hq3 : q < 3
    · rw [if_pos hq3, hbyte q (by omega)]
      rcases hoffset with rfl | rfl <;> interval_cases q <;> rfl
    · simp (disch := omega) only [if_neg hq3, if_neg]

theorem resize1To3NewOffset_eq (hash : BitVec 64) (seed : ℕ) :
    resize1To3NewOffset hash seed = 0 ∨ resize1To3NewOffset hash seed = 2 := by
  rw [resize1To3NewOffset, show 2#64 = BitVec.twoPow 64 1 from rfl, BitVec.and_twoPow]
  split_ifs
  · exact .inr rfl
  · exact .inl rfl

/-! ## Growth -/

variable {V : Type*}

/-- Each slot goes where its control byte goes, and the slot of the new element is free. -/
def Table.Transferred (T T' : Table V) (offset : ℕ) : Prop :=
  (∀ i < T.size, T'.slots (i + 1) = T.slots i) ∧ T'.slots offset = none

theorem transferN_succ {slots : ℕ → Option V} {n i : ℕ} (hi : i < n) :
    Table.transferN slots n (i + 1) = slots i := if_pos hi

theorem transferN_of_vacant {slots : ℕ → Option V} {n i : ℕ} (hi : i = 0 ∨ n < i) :
    Table.transferN slots n i = none := by
  cases i with
  | zero => rfl
  | succ i => exact if_neg (by omega)

/-- **Growth between tables of one group.** A full table of less than half a group, whatever its
control bytes, its hashes and what was in the new backing array, and a table of one element. -/
theorem growSingleGroup_transfers (g : GroupImpl) (T : Table V) (newCtrl : ℕ → Ctrl)
    (newHash : BitVec 64) :
    (FullCtrl g T.capacity T.blocked T.ctrl → T.size + T.blocked = T.capacity →
      0 < T.capacity → T.capacity < g.kWidth / 2 →
      ∃ T' offset, T.growToNextCapacityAndPrepareInsert g newCtrl newHash = (T', offset) ∧
        T'.capacity = nextCapacity T.capacity ∧
        Grown g T.ctrl T.size T'.capacity offset (h2 newHash) T'.ctrl ∧
        T.Transferred T' offset) ∧
    (∀ seed origHash, T.size = 1 →
      ∃ T' offset, T.grow1To3AndPrepareInsert g newCtrl seed origHash newHash = (T', offset) ∧
        T'.capacity = 3 ∧ Grown g (fun _ => h2 origHash) 1 3 offset (h2 newHash) T'.ctrl ∧
        T.Transferred T' offset) := by
  refine ⟨fun hfull hsize hpos hhalf => ⟨_, _, rfl, rfl, ?_⟩, fun seed origHash hsize =>
    ⟨_, _, rfl, rfl, ?_⟩⟩
  · have hcount : T.size = T.capacity - T.blocked := by omega
    have hg := Grown.place hfull hhalf hpos newCtrl (h2 newHash)
      (ite_eq_or_eq (singleGroupTableH1 newHash T.seed &&& 1#64 ≠ 0#64) _ _)
    rw [← hcount] at hg
    exact ⟨hg, fun i hi => transferN_succ hi, transferN_of_vacant hg.vacant⟩
  · have hg := Grown.three g (h2 origHash) (h2 newHash) newCtrl
      (resize1To3NewOffset_eq newHash seed)
    refine ⟨hg, fun i hi => ?_, transferN_of_vacant hg.vacant⟩
    exact transferN_succ (by omega)

/-- A table of capacity three with two elements and a blocked slot. -/
def fullThree : Table ℕ where
  capacity := 3
  blocked := 1
  size := 2
  seed := 0
  growthInfo := ⟨0#8, 0⟩
  ctrl := fun i => [5#8, 7#8, kSentinel, kSentinel, 5#8, 7#8, kSentinel].getD i kEmpty
  slots := fun i => [some 50, some 70].getD i none

theorem growSingleGroup_transfers_fullThree : ∃ T' offset,
    fullThree.growToNextCapacityAndPrepareInsert .sse2 (fun _ => 0#8) 0#64 = (T', offset) ∧
      Grown .sse2 fullThree.ctrl 2 7 offset (h2 0#64) T'.ctrl := by
  have hfull : FullCtrl .sse2 3 1 fullThree.ctrl :=
    ⟨⟨rfl, by decide⟩, by decide, by decide⟩
  obtain ⟨T', offset, hT', hcap, hgrown, -⟩ := (growSingleGroup_transfers .sse2 fullThree
    (fun _ => 0#8) 0#64).1 hfull rfl (by decide) (by decide)
  rw [hcap] at hgrown
  exact ⟨T', offset, hT', hgrown⟩

end Abseil.Swiss
