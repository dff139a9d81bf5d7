import Abseil.SwissLookup

/-!
# Insertion and erasure

What the two kinds of update do to the layout. A slot that is taken lies in a group that
the search for its hash gets to, and taking it leaves no search with more empty bytes in
front of it (`Arranged.place`). A slot that is given back becomes empty only when no group
that contains it could have been full (`exists_empty_of_wasNeverFull`), and is marked as
deleted otherwise, so again no search stops earlier than before (`Layout.eraseMetaOnlyLarge`).
-/

namespace Abseil.Swiss.Table

open Function Nat BoundedLoop Probing GrowthInfoLowerBound

variable {K V : Type*} {P : Policy K V} {g : GroupImpl} {T : Table V}
  {hashAt : ℕ → Option (BitVec 64)}

/-- The shape only depends on the capacity, the blocked slots and the control bytes. -/
theorem Shape.congr {T' : Table V} (h : Shape g T hashAt) (hcap : T'.capacity = T.capacity)
    (hblocked : T'.blocked = T.blocked) (hctrl : T'.ctrl = T.ctrl) : Shape g T' hashAt := by
  obtain ⟨cap, blocked, size, seed, gi, ctrl, slots⟩ := T
  subst hcap hblocked hctrl
  exact { h with }

theorem Layout.lt_of_isSingleGroup (h : Layout g T hashAt)
    (hsingle : isSingleGroup g T.capacity = true) : T.capacity < g.kWidth := by
  have hle : T.capacity ≤ g.kWidth := by simpa [isSingleGroup] using hsingle
  rcases capacity_cases g h.valid with ⟨hhalf, -⟩ | ⟨k, hk⟩
  · omega
  -- the ring is even, so its length is not one more than the group's
  have hw := g.kWidth_eq
  rcases Nat.eq_zero_or_pos k with rfl | hpos
  · omega
  · have : 2 ≤ 2 ^ k := le_self_pow (by omega) 2
    have : g.kWidth * 2 ≤ g.kWidth * 2 ^ k := mul_le_mul_left _ this
    omega

/-! ## Taking a slot -/

/-- What `PrepareInsert` leaves alone. -/
structure Frame (T T' : Table V) : Prop where
  capacity : T'.capacity = T.capacity
  blocked : T'.blocked = T.blocked
  seed : T'.seed = T.seed
  slots : T'.slots = T.slots

/-- Slot `i`, which was free, is taken for `hash`. -/
structure Placed (g : GroupImpl) (T : Table V) (hashAt : ℕ → Option (BitVec 64))
    (hash : BitVec 64) (T' : Table V) (i : ℕ) : Prop extends Frame T T' where
  lt : i < T.allocated
  free : hashAt i = none
  layout : Layout g T' (update hashAt i (some hash))

variable {j : ℕ}

/-- A free slot in a group that the search gets to can be taken for the hash. -/
theorem Arranged.place (h : Arranged g T hashAt) {p : ℕ} {hash : BitVec 64} {gi : GrowthInfo}
    {d : Bool} {left : ℕ} (hp : p < T.allocated) (hnone : hashAt p = none)
    (hin : InGroup g T.capacity (h1 hash) j p)
    (hbefore : ∀ i < j, ¬Stops g T.capacity T.ctrl (h1 hash) i)
    (hcounts : gi.Counts T.capacity d left)
    (hsum : left + (isEmpty (T.ctrl p)).toNat + T.fullCount + T.deletedCount + T.blocked
      = capacityToGrowth g T.capacity) (hd : 0 < T.deletedCount → d = true)
    (hdw : d = true → g.kWidth < T.capacity) : Placed g T hashAt hash
      ({ T with size := T.size + 1, growthInfo := gi }.putCtrl p (cloneOf g T.capacity p)
        (h2 hash)) p := by
  set T1 : Table V := { T with size := T.size + 1, growthInfo := gi }
  have hpc := lt_of_lt_of_le hp h.allocated_le
  have hshape : Shape g T1 hashAt := h.toShape.congr rfl rfl rfl
  have hne := isFull_ne (h2_isFull hash)
  have hnd : isDeleted (h2 hash) = false := by simpa [isDeleted] using hne.2.1
  have hfree := h.free p hp hnone
  have hnf : isFull (T.ctrl p) = false := by rcases hfree with hb | hb <;> rw [hb] <;> rfl
  have hone : (isEmpty (T.ctrl p)).toNat + (isDeleted (T.ctrl p)).toNat = 1 := by
    rcases hfree with hb | hb <;> rw [hb] <;> rfl
  have hfull : (T1.putCtrl p (cloneOf g T.capacity p) (h2 hash)).fullCount = T.fullCount + 1 := by
    have := T1.fullCount_putCtrl g (h2 hash) hpc
    rwa [hnf, h2_isFull] at this
  have hdel : (T1.putCtrl p (cloneOf g T.capacity p) (h2 hash)).deletedCount
      + (isDeleted (T.ctrl p)).toNat = T.deletedCount := by
    have := T1.deletedCount_putCtrl g (h2 hash) hpc
    rwa [hnd] at this
  refine ⟨⟨rfl, rfl, rfl, rfl⟩, hp, hnone,
    ⟨hshape.put hp (fun y hy => by cases hy; rfl) (fun hx => by cases hx), ?_, ?_⟩,
    ⟨d, left, hcounts, ?_, fun hpos => hd (by omega), hdw⟩⟩
  · rw [hfull, ← h.size_eq]
    rfl
  · intro i x hx
    by_cases hip : i = p
    · subst hip
      rw [update_self] at hx
      cases hx
      refine ⟨j, hin, fun i' hi' hstop => hbefore i' hi' ?_⟩
      obtain ⟨k, hk, he⟩ := hstop
      exact ⟨k, hk, putCtrl_eq_empty hne.1 he⟩
    · rw [update_of_ne hip] at hx
      exact (h.reach i x hx).mono fun _ => putCtrl_eq_empty hne.1
  · show left + _ + _ + T.blocked = capacityToGrowth g T.capacity
    omega

/-- The growth info changes, and says the same. -/
theorem Layout.congr_growthInfo (h : Layout g T hashAt) {gi : GrowthInfo}
    (hgi : ∀ d left, T.growthInfo.Counts T.capacity d left → gi.Counts T.capacity d left) :
    Layout g { T with growthInfo := gi } hashAt := by
  obtain ⟨d, left, hcounts, hrest⟩ := h.growth
  exact ⟨⟨h.toShape.congr rfl rfl rfl, h.size_eq, h.reach⟩, ⟨d, left, hgi d left hcounts, hrest⟩⟩

/-- The first empty byte of a group is the byte of a slot, when there is an empty slot. -/
theorem lowestEmpty_spec (h : Layout g T hashAt) (hleft : ∃ p < T.capacity, T.ctrl p = kEmpty)
    {hash : ℕ} (hstop : Stops g T.capacity T.ctrl hash j) :
    let o := groupOffset g T.capacity hash j
    let p := (o + (g.maskEmpty (T.group o)).lowestBitSet) &&& T.capacity
    p < T.allocated ∧ hashAt p = none ∧ T.ctrl p = kEmpty ∧ InGroup g T.capacity hash j p := by
  intro o p
  have ho : o ≤ T.capacity := groupOffset_le
  have hmarks := g.maskEmpty_marks (h.stored ho)
  obtain ⟨hlt, hempty, hfirst⟩ := hmarks.lowestBitSet_spec ((maskEmpty_iff h.toShape).2 hstop)
  set i := (g.maskEmpty (T.group o)).lowestBitSet
  have hbyte : T.ctrl (o + i) = kEmpty := by simpa [isEmpty, group] using hempty
  have hring : o + i ≤ 2 * T.capacity := by
    by_contra hfar
    -- then the table is below a whole group, and the empty slot comes first
    obtain ⟨q, hq, he⟩ := hleft
    have hin : ahead (T.capacity + 1) o q < T.capacity + 1 := ahead_lt (succ_pos _)
    have hq' := h.mirror.byte_ahead hq.le ho (by omega)
    have hnot := hfirst (ahead (T.capacity + 1) o q) (by omega)
    rw [group, hq', he] at hnot
    cases hnot
  have hp : p = (o + i) % (T.capacity + 1) := and_capacity h.valid _
  have hreal : T.ctrl p = kEmpty := by
    rcases h.mirror.byte ho hlt with hb | ⟨-, hb⟩
    · rw [hp, ← hb, hbyte]
    · omega
  have hple : p ≤ T.capacity := by
    rw [hp]
    exact le_of_lt_succ (mod_lt _ (succ_pos _))
  have hfree : isEmptyOrDeleted (T.ctrl p) = true := by rw [hreal]; rfl
  obtain ⟨hnone, halloc⟩ := (isEmptyOrDeleted_iff h.toShape hple).1 hfree
  refine ⟨halloc, hnone, hreal, ?_⟩
  rw [InGroup, hp]
  by_cases hi : i < T.capacity + 1
  · rwa [ahead_add_mod (by omega) hi]
  · exact lt_of_lt_of_le (ahead_lt (succ_pos _)) (by omega)

/-- Preparing an insertion takes a slot for the hash, unless there is no growth left. -/
theorem prepareInsertLarge_spec (h : Layout g T hashAt) {hash : BitVec 64}
    (hstop : Stops g T.capacity T.ctrl (h1 hash) j)
    (hbefore : ∀ i < j, ¬Stops g T.capacity T.ctrl (h1 hash) i) :
    (∃ T' i, T.prepareInsertLarge g hash (groupOffset g T.capacity (h1 hash) j)
        = .ok (.placed T' i) ∧ Placed g T hashAt hash T' i) ∨
      ∃ gi, gi.Counts T.capacity T.growthInfo.deleted 0 ∧
        T.growthInfo.getGrowthLeftTotalSlow T.capacity = 0 ∧
        T.prepareInsertLarge g hash (groupOffset g T.capacity (h1 hash) j)
          = .ok (if T.growthInfo.deleted then .rehashOrGrow { T with growthInfo := gi }
              else .grow { T with growthInfo := gi }) := by
  obtain ⟨d, left, hcounts, hsum, hdel, hdw⟩ := h.growth
  have hd := hcounts.deleted_eq
  unfold prepareInsertLarge
  by_cases hfast : hasNoDeletedAndGrowthLeft T.growthInfo.lowerBound = true
  · left
    have hlb : 0 < getGrowthLeft T.growthInfo.lowerBound := by
      rw [hasNoDeletedAndGrowthLeft_eq, Bool.and_eq_true, decide_eq_true_eq] at hfast
      exact hfast.2
    obtain ⟨left, rfl⟩ : ∃ n, left = n + 1 := ⟨left - 1, by have := hcounts.sum_eq; omega⟩
    obtain ⟨hp, hnone, hempty, hin⟩ :=
      lowestEmpty_spec h (h.exists_empty_of_left hcounts left.succ_pos) hstop
    have hpc := lt_of_lt_of_le hp h.allocated_le
    have hset := setCtrl_eq (g := g)
      (T := { T with size := T.size + 1, growthInfo := T.growthInfo.overwriteEmptyAsFull })
      h.valid h.le_max hpc (h2 hash)
    refine ⟨_, _, (if_neg (by simp [hfast])).trans
      (congrArg (fun T' => Except.ok (Prepared.placed T' _)) hset),
      h.place hp hnone hin hbefore (hcounts.overwriteEmptyAsFull hlb) ?_ hdel hdw⟩
    rwa [hempty]
  rw [if_pos (by simp [hfast])]
  obtain ⟨hreb, hzero⟩ := hcounts.rebalance
  generalize hgi : T.growthInfo.rebalanceGrowthLeftLowerBound T.capacity = gi at hreb hzero
  have hdgi : hasNoDeleted gi.lowerBound = !d := by
    rw [← hreb.deleted_eq, GrowthInfo.deleted, Bool.not_not]
  by_cases hlb : getGrowthLeft gi.lowerBound = 0
  · right
    have hleft := hzero hlb
    subst hleft
    refine ⟨gi, hd ▸ hreb, hcounts.total, ?_⟩
    unfold prepareInsertLargeSlow
    simp only [hgi, hasNoGrowthLeftAndNoDeleted_eq, hasNoGrowthLeftAndHaveDeleted_eq, hdgi, hlb, hd]
    cases d <;> rfl
  left
  have hgrow : hasNoGrowthLeftAndNoDeleted gi.lowerBound = false := by
    rw [hasNoGrowthLeftAndNoDeleted_eq, decide_eq_false hlb, Bool.and_false]
  have hrehash : hasNoGrowthLeftAndHaveDeleted gi.lowerBound = false := by
    rw [hasNoGrowthLeftAndHaveDeleted_eq, decide_eq_false hlb, Bool.and_false]
  have hw : g.kWidth - 1 ≤ T.capacity := by
    cases hdc : d with
    | true => exact (hdw hdc).le.trans' (sub_le _ _)
    | false =>
      -- the byte had no count before, so it got its count from the others
      by_contra hlt
      refine hfast ?_
      have hsame : gi = T.growthInfo := by
        have hw := g.kWidth_eq
        have hle : T.capacity ≤ kMaxGrowthLeftLowerBound := by
          unfold kMaxGrowthLeftLowerBound
          omega
        rw [← hgi, GrowthInfo.rebalanceGrowthLeftLowerBound, decide_eq_true hle, Bool.true_or,
          if_pos rfl]
      rw [hsame] at hlb hdgi
      rw [hasNoDeletedAndGrowthLeft_eq, hdgi, hdc, decide_eq_true (pos_of_ne_zero hlb)]
      rfl
  have hT1 : Layout g { T with growthInfo := gi } hashAt :=
    h.congr_growthInfo fun d' left' hc => hgi ▸ hc.rebalance.1
  obtain ⟨p, j', hfind, hp, hnone, hin, hfree⟩ :=
    findFirstNonFullFromH1_spec hT1.toShape hw (hT1.exists_empty hw) (h1 hash)
  obtain ⟨left, rfl⟩ : ∃ n, left = n + (isEmpty (T.ctrl p)).toNat := by
    have := hreb.sum_eq
    have hle : (isEmpty (T.ctrl p)).toNat ≤ 1 := Bool.toNat_le _
    exact ⟨left - (isEmpty (T.ctrl p)).toNat, by omega⟩
  let T1 : Table V :=
    { T with size := T.size + 1, growthInfo := gi.overwriteControlAsFull (T.ctrl p) }
  have hset := setCtrlInLargeTable_eq (T := T1)
    h.valid h.le_max hw (lt_of_lt_of_le hp h.allocated_le) (h2 hash)
  have hresult : T.prepareInsertLargeSlow g hash
      = .ok (.placed (T1.putCtrl p (cloneOf g T.capacity p) (h2 hash)) p) := by
    unfold prepareInsertLargeSlow
    simp only [findFirstNonFull, hgi]
    simp only [hgrow, hrehash, if_neg Bool.false_ne_true, hfind]
    exact congrArg (fun T' => Except.ok (Prepared.placed T' p)) hset
  exact ⟨_, p, hresult, h.place hp hnone hin (fun i hi hs => hfree i hi hs.hasFree)
    (hreb.overwriteControlAsFull ((Bool.toNat_le _).trans (pos_of_ne_zero hlb))) hsum hdel
    hdw⟩

/-! ## Giving a slot back -/

variable {i : ℕ}

/-- The bytes around a slot that was never part of a full group : every group that
contains the slot has an empty byte. -/
theorem exists_empty_of_wasNeverFull (h : Layout g T hashAt) (hi : i < T.capacity)
    (hmulti : isSingleGroup g T.capacity = false) (hnever : T.wasNeverFull g i = true) {o : ℕ}
    (ho : o ≤ T.capacity) (hin : ahead (T.capacity + 1) o i < g.kWidth) :
    ∃ k < g.kWidth, T.ctrl (o + k) = kEmpty := by
  have hw : g.kWidth < T.capacity := by simpa [isSingleGroup] using hmulti
  have hbefore : sizeSub i g.kWidth &&& T.capacity
      = (i + (T.capacity + 1 - g.kWidth)) % (T.capacity + 1) := by
    have hw' := g.kWidth_eq
    rw [sizeSub_and h.valid h.le_max (by omega), mod_eq_of_lt (by omega), ahead]
  rw [wasNeverFull, hmulti, if_neg Bool.false_ne_true] at hnever
  simp only [hbefore, Bool.and_eq_true, decide_eq_true_eq] at hnever
  set b := (i + (T.capacity + 1 - g.kWidth)) % (T.capacity + 1) with hb
  have hble : b ≤ T.capacity := le_of_lt_succ (mod_lt _ (succ_pos _))
  obtain ⟨⟨hmb, hma⟩, hlt⟩ := hnever
  obtain ⟨jb, hjb, hbe, hlz, -⟩ := (g.maskEmpty_marks (h.stored hble)).leadingZeros_spec hmb
  obtain ⟨hta, hae, -⟩ := (g.maskEmpty_marks (h.stored hi.le)).lowestBitSet_spec hma
  have htz : (g.maskEmpty (T.group i)).trailingZeros
      = (g.maskEmpty (T.group i)).lowestBitSet := rfl
  set t := (g.maskEmpty (T.group i)).lowestBitSet
  have hring : ∀ x y, x ≤ T.capacity → y < g.kWidth →
      T.ctrl (x + y) = T.ctrl ((x + y) % (T.capacity + 1)) :=
    fun x y hx hy => h.mirror.byte_of_le (by omega) hx hy
  have hae' : T.ctrl ((i + t) % (T.capacity + 1)) = kEmpty := by
    rw [← hring i t hi.le hta]
    simpa [isEmpty, group] using hae
  have hbe' : T.ctrl ((b + jb) % (T.capacity + 1)) = kEmpty := by
    rw [← hring b jb hble hjb]
    simpa [isEmpty, group] using hbe
  have hoi : (o + ahead (T.capacity + 1) o i) % (T.capacity + 1) = i :=
    add_ahead_mod (by omega) (by omega)
  set a := ahead (T.capacity + 1) o i
  by_cases hright : a + t < g.kWidth
  · -- the empty byte to the right is in the group
    refine ⟨a + t, hright, ?_⟩
    rw [hring o _ ho hright, ← add_assoc, ← mod_add_mod, hoi, hae']
  -- otherwise the one to the left is
  refine ⟨a + jb - g.kWidth, by omega, ?_⟩
  rw [hring o _ ho (by omega)]
  have hturn : o + (a + jb - g.kWidth) + (T.capacity + 1)
      = o + a + (jb + (T.capacity + 1 - g.kWidth)) := by omega
  have hsum : i + (T.capacity + 1 - g.kWidth) + jb
      = i + (jb + (T.capacity + 1 - g.kWidth)) := by omega
  rwa [← add_mod_right, hturn, ← mod_add_mod, hoi, ← hsum, ← mod_add_mod, ← hb]

variable {x : BitVec 64}

section

variable (h : Layout g T hashAt) (hx : hashAt i = some x)
include h hx

/-- A slot whose group was never full can become empty again. -/
theorem Layout.setEmpty (hnever : T.wasNeverFull g i = true) : Layout g
      ({ T with size := T.size - 1, growthInfo := T.growthInfo.overwriteFullAsEmpty }.putCtrl i
        (cloneOf g T.capacity i) kEmpty) (update hashAt i none) := by
  set T1 : Table V :=
    { T with size := T.size - 1, growthInfo := T.growthInfo.overwriteFullAsEmpty }
  obtain ⟨hi, hb⟩ := h.full i x hx
  have hic := lt_of_lt_of_le hi h.allocated_le
  have hshape : Shape g T1 hashAt := h.toShape.congr rfl rfl rfl
  have hne := isFull_ne (h2_isFull x)
  have hnd : isDeleted (h2 x) = false := by simpa [isDeleted] using hne.2.1
  have hfull : (T1.putCtrl i (cloneOf g T.capacity i) kEmpty).fullCount + 1 = T.fullCount := by
    have := T1.fullCount_putCtrl g kEmpty hic
    rwa [show T1.ctrl i = h2 x from hb, h2_isFull] at this
  have hdel : (T1.putCtrl i (cloneOf g T.capacity i) kEmpty).deletedCount = T.deletedCount := by
    have := T1.deletedCount_putCtrl g kEmpty hic
    rwa [show T1.ctrl i = h2 x from hb, hnd] at this
  obtain ⟨d, left, hcounts, hsum, hd, hdw⟩ := h.growth
  have hle := capacityToGrowth_le g T.capacity
  refine ⟨⟨hshape.put hi (fun _ hy => by cases hy) (fun _ => .inl rfl), ?_, ?_⟩,
    ⟨d, left + 1, hcounts.overwriteFullAsEmpty (by omega) h.le_max, ?_, fun hpos => hd (by omega),
      hdw⟩⟩
  · show T.size - 1 = _
    rw [h.size_eq]
    omega
  · intro p y hy
    have hpi : p ≠ i := fun he => by simp [he] at hy
    rw [update_of_ne hpi] at hy
    cases hsingle : isSingleGroup g T.capacity with
    | true =>
      exact ⟨0, inGroup_of_lt (h.lt_of_isSingleGroup hsingle), fun _ hi => absurd hi (by omega)⟩
    | false =>
      refine Reach.mono (h.reach p y hy) fun j hstop => ?_
      obtain ⟨k, hk, he⟩ := hstop
      set o := groupOffset g T.capacity (h1 y) j
      by_cases hk' : T.ctrl (o + k) = kEmpty
      · exact ⟨k, hk, hk'⟩
      -- the new empty byte is in the group, so the group has another one
      have hw : g.kWidth < T.capacity := by simpa [isSingleGroup] using hsingle
      have ho : o ≤ T.capacity := groupOffset_le
      have hmod : (o + k) % (T.capacity + 1) = i := by
        by_contra hmod
        refine hk' ?_
        have hm := hshape.mirror.put hic kEmpty
        have hle' : (o + k) % (T.capacity + 1) ≤ T.capacity := le_of_lt_succ (mod_lt _ (succ_pos _))
        have he' := (hm.byte_of_le (by show _ ≤ T.capacity; omega) ho hk).symm.trans he
        have hput := put_apply (g := g) (i := i) T.ctrl kEmpty hle'
        rw [if_neg hmod] at hput
        rw [h.mirror.byte_of_le (by omega) ho hk]
        exact hput.symm.trans he'
      have hin : ahead (T.capacity + 1) o i = k :=
        (ahead_eq_iff (by omega) (by omega) (by omega)).2 hmod
      exact exists_empty_of_wasNeverFull h hic hsingle hnever ho (hin.trans_lt hk)
  · show left + 1 + _ + _ + T.blocked = capacityToGrowth g T.capacity
    omega

/-- In a table with several groups a slot can be marked as deleted. -/
theorem Layout.setDeleted (hw : g.kWidth < T.capacity) : Layout g
      ({ T with size := T.size - 1, growthInfo := T.growthInfo.overwriteFullAsDeleted }.putCtrl i
        (cloneOf g T.capacity i) kDeleted) (update hashAt i none) := by
  set T1 : Table V :=
    { T with size := T.size - 1, growthInfo := T.growthInfo.overwriteFullAsDeleted }
  obtain ⟨hi, hb⟩ := h.full i x hx
  have hic := lt_of_lt_of_le hi h.allocated_le
  have hshape : Shape g T1 hashAt := h.toShape.congr rfl rfl rfl
  have hne := isFull_ne (h2_isFull x)
  have hnd : isDeleted (h2 x) = false := by simpa [isDeleted] using hne.2.1
  have hfull : (T1.putCtrl i (cloneOf g T.capacity i) kDeleted).fullCount + 1 = T.fullCount := by
    have := T1.fullCount_putCtrl g kDeleted hic
    rwa [show T1.ctrl i = h2 x from hb, h2_isFull] at this
  have hdel : (T1.putCtrl i (cloneOf g T.capacity i) kDeleted).deletedCount
      = T.deletedCount + 1 := by
    have := T1.deletedCount_putCtrl g kDeleted hic
    rwa [show T1.ctrl i = h2 x from hb, hnd] at this
  obtain ⟨d, left, hcounts, hsum, -, -⟩ := h.growth
  refine ⟨⟨hshape.put hi (fun _ hy => by cases hy) (fun _ => .inr rfl), ?_, ?_⟩,
    ⟨true, left, hcounts.overwriteFullAsDeleted, ?_, fun _ => rfl, fun _ => hw⟩⟩
  · show T.size - 1 = _
    rw [h.size_eq]
    omega
  · intro p y hy
    have hpi : p ≠ i := fun he => by simp [he] at hy
    rw [update_of_ne hpi] at hy
    exact (h.reach p y hy).mono fun _ => putCtrl_eq_empty (by decide)
  · show left + _ + _ + T.blocked = capacityToGrowth g T.capacity
    omega

/-- Erasing the byte of a stored hash. -/
theorem Layout.eraseMetaOnlyLarge :
    Frame T (T.eraseMetaOnlyLarge g i) ∧
      Layout g (T.eraseMetaOnlyLarge g i) (update hashAt i none) := by
  have hic := lt_of_lt_of_le (h.full i x hx).1 h.allocated_le
  cases hnever : T.wasNeverFull g i with
  | true =>
    have hset :=
      setCtrl_eq (g := g) (T := { T with size := T.size - 1 }) h.valid h.le_max hic kEmpty
    have heq : T.eraseMetaOnlyLarge g i
        = { T with size := T.size - 1, growthInfo := T.growthInfo.overwriteFullAsEmpty }.putCtrl i
            (cloneOf g T.capacity i) kEmpty := by
      have hn : ({ T with size := T.size - 1 } : Table V).wasNeverFull g i = true := hnever
      simp only [Table.eraseMetaOnlyLarge, hn, if_true, hset]
      rfl
    rw [heq]
    exact ⟨⟨rfl, rfl, rfl, rfl⟩, h.setEmpty hx hnever⟩
  | false =>
    have hw : g.kWidth < T.capacity := by
      by_contra hle
      rw [wasNeverFull, isSingleGroup, decide_eq_true (by omega), if_pos rfl] at hnever
      cases hnever
    let T1 : Table V :=
      { T with size := T.size - 1, growthInfo := T.growthInfo.overwriteFullAsDeleted }
    have hset := setCtrlInLargeTable_eq (T := T1) h.valid h.le_max
      (show g.kWidth - 1 ≤ T.capacity by omega) hic kDeleted
    have heq : T.eraseMetaOnlyLarge g i
        = T1.putCtrl i (cloneOf g T.capacity i) kDeleted := by
      have hn : ({ T with size := T.size - 1 } : Table V).wasNeverFull g i = false := hnever
      simp only [Table.eraseMetaOnlyLarge, hn]
      exact hset
    rw [heq]
    exact ⟨⟨rfl, rfl, rfl, rfl⟩, h.setDeleted hx hw⟩

end

end Abseil.Swiss.Table
