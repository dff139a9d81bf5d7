import Abseil.SwissUpdate

/-!
# The lookup invariant over runs

A table starts with every slot empty, some of the last ones blocked. From there on elements
are inserted, as long as that needs no growth, and erased. The lookup invariant holds at
the start (`inv_resizeEmptyNonAllocatedTable`), every step keeps it (`Step.inv`), and so it
holds after every run. `lookup_correct` says what that means for a lookup.
-/

namespace Abseil.Swiss

open Function BoundedLoop Probing

namespace Table

variable {K V : Type*} {P : Policy K V} {g : GroupImpl} {T : Table V}
  {hashAt : ℕ → Option (BitVec 64)}

/-! ## The first control bytes -/

/-- The memory of a backing array before it is set up. -/
structure RawMemory where
  growthInfo : GrowthInfo
  ctrl : ℕ → Ctrl

/-- `ResizeEmptyNonAllocatedTableImpl` for a capacity that is not small. -/
def resizeEmptyNonAllocatedTable (V : Type*) (g : GroupImpl) (capacity blocked seed : ℕ)
    (mem : RawMemory) : Table V :=
  let T : Table V := ⟨capacity, blocked, 0, seed, mem.growthInfo, mem.ctrl, fun _ => none⟩
  (T.resetCtrl g blocked).resetGrowthLeft g blocked

/-- The numbers of blocked slots that a capacity allows. -/
structure BlockedAllowed (g : GroupImpl) (capacity blocked : ℕ) : Prop where
  le_max : blocked ≤ kMaxBlockedElementCount
  le_growth : blocked ≤ capacityToGrowth g capacity
  le_large : isSingleGroup g capacity = false → blocked ≤ kMaxBlockedElementsForLargeTables

theorem emptyCtrl_apply (hcap : isValidCapacity T.capacity = true) {p : ℕ}
    (hp : p < T.capacity + g.kWidth) : emptyCtrl g T.capacity T.ctrl p = kEmpty := by
  have happly : ∀ f start len,
      memset f start len kEmpty p = if start ≤ p ∧ p < start + len then kEmpty else f p :=
    fun _ _ _ => rfl
  unfold emptyCtrl numClonedBytes
  by_cases hsmall : T.capacity ≤ 2 * g.kWidth - 1
  · -- below two groups the bytes are set in two or three pieces
    have hpieces : T.capacity ≤ g.kWidth - 1 ∨ T.capacity = 2 * g.kWidth - 1 := by
      rcases capacity_cases g hcap with ⟨hhalf, -⟩ | ⟨k, hk⟩
      · omega
      · rcases lt_or_ge k 2 with hk2 | hk2
        · interval_cases k <;> omega
        · have : 2 ^ 2 ≤ 2 ^ k := Nat.pow_le_pow_right (by norm_num) hk2
          have : g.kWidth * 2 ^ 2 ≤ g.kWidth * 2 ^ k := Nat.mul_le_mul_left _ this
          omega
    simp only [if_pos hsmall]
    rcases hpieces with hone | htwo
    · rw [if_neg (by omega), happly, happly]
      split_ifs <;> first | rfl | omega
    · rw [if_pos htwo, happly, happly, happly]
      split_ifs <;> first | rfl | omega
  · rw [if_neg hsmall, happly, if_pos (by omega)]

/-- `BlockControlBytes` blocks the last slots and changes nothing else. -/
theorem blockControlBytes_spec : ∀ count (T : Table V),
    isValidCapacity T.capacity = true → T.capacity ≤ kMaxValidCapacity → count ≤ T.capacity →
    Mirror g T.capacity T.ctrl →
    ∃ ctrl, T.blockControlBytes g count = { T with ctrl := ctrl } ∧ Mirror g T.capacity ctrl ∧
      ∀ i < T.capacity, ctrl i = if T.capacity - count ≤ i then kSentinel else T.ctrl i
  | 0, T, _, _, _, hm => ⟨T.ctrl, rfl, hm, fun i hi => by rw [if_neg (by omega)]⟩
  | count + 1, T, hcap, hmax, hle, hm => by
    have hi : T.capacity - (count + 1) < T.capacity := by omega
    obtain ⟨ctrl, heq, hm', hbytes⟩ := blockControlBytes_spec count
      (T.putCtrl _ _
        kSentinel) hcap hmax (show count ≤ T.capacity by omega) (hm.put hi kSentinel)
    refine ⟨ctrl, ?_, hm', fun i hic => ?_⟩
    · rw [blockControlBytes, setCtrl_eq hcap hmax hi, heq]
      rfl
    · rw [hbytes i hic]
      show (if T.capacity - count ≤ i then kSentinel else _) = _
      rw [putCtrl_apply g T kSentinel hic.le]
      split_ifs <;> first | rfl | omega

theorem countCtrl_eq_zero {q : Ctrl → Bool} {cap : ℕ} {ctrl : ℕ → Ctrl}
    (h : ∀ i < cap, q (ctrl i) = false) : countCtrl q cap ctrl = 0 := by
  rw [countCtrl, Finset.card_eq_zero, Finset.filter_eq_empty_iff]
  intro i hi
  rw [h i (Finset.mem_range.1 hi)]
  exact Bool.false_ne_true

variable {blocked : ℕ}

/-- The control bytes after `ResetCtrl`. -/
theorem resetCtrl_spec (hcap : isValidCapacity T.capacity = true)
    (hmax : T.capacity ≤ kMaxValidCapacity) (hb : blocked ≤ T.capacity) :
    ∃ ctrl, T.resetCtrl g blocked = { T with ctrl := ctrl } ∧ Mirror g T.capacity ctrl ∧
      ∀ i < T.capacity, ctrl i = if T.capacity - blocked ≤ i then kSentinel else kEmpty := by
  set ctrl0 := update (emptyCtrl g T.capacity T.ctrl) T.capacity kSentinel with hctrl0
  have hempty : ∀ p < T.capacity + g.kWidth, p ≠ T.capacity → ctrl0 p = kEmpty := by
    intro p hp hne
    rw [hctrl0, update_of_ne hne, emptyCtrl_apply hcap hp]
  have hmirror : Mirror g T.capacity ctrl0 := by
    refine ⟨by rw [hctrl0, update_self], fun q hq => ?_⟩
    rw [hempty _ (by omega) (by omega)]
    split_ifs with hqc
    · rw [hempty q (by omega) (by omega)]
    · rfl
  obtain ⟨ctrl, heq, hm, hbytes⟩ :=
    blockControlBytes_spec blocked { T with ctrl := ctrl0 } hcap hmax hb hmirror
  refine ⟨ctrl, heq, hm, fun i hi => ?_⟩
  refine (hbytes i hi).trans ?_
  show (if T.capacity - blocked ≤ i then kSentinel else ctrl0 i) = _
  rw [hempty i (by omega) (ne_of_lt hi)]

theorem resetGrowthLeft_eq {occupied : ℕ} (hle : occupied ≤ capacityToGrowth g T.capacity)
    (hmax : T.capacity ≤ kMaxValidCapacity) :
    T.resetGrowthLeft g occupied = { T with
      growthInfo := T.growthInfo.initGrowthLeftNoDeleted
        (capacityToGrowth g T.capacity - occupied) T.capacity } := by
  have hlt : capacityToGrowth g T.capacity < 2 ^ 64 :=
    lt_of_le_of_lt ((capacityToGrowth_le g T.capacity).trans hmax) (by decide)
  rw [resetGrowthLeft, sizeSub_of_le hle hlt]

/-- An empty table is laid out for no hash. -/
theorem layout_empty (hcap : isValidCapacity T.capacity = true)
    (hlarge : kMaxSmallCapacity < T.capacity) (hmax : T.capacity ≤ kMaxValidCapacity)
    (hb : BlockedAllowed g T.capacity blocked) (hblocked : T.blocked = blocked)
    (hsize : T.size = 0) :
    Layout g ((T.resetCtrl g blocked).resetGrowthLeft g blocked) fun _ => none := by
  have hgrowth := capacityToGrowth_le g T.capacity
  have hle := hb.le_growth
  obtain ⟨ctrl, heq, hm, hbytes⟩ := resetCtrl_spec hcap hmax (hle.trans hgrowth)
  rw [heq, resetGrowthLeft_eq (T := { T with ctrl := ctrl }) hle hmax]
  have hbyte : ∀ i < T.capacity, ctrl i = kSentinel ∨ ctrl i = kEmpty := by
    intro i hi
    rw [hbytes i hi]
    split_ifs
    · exact .inl rfl
    · exact .inr rfl
  have hfull : countCtrl isFull T.capacity ctrl = 0 :=
    countCtrl_eq_zero fun i hi => by rcases hbyte i hi with h | h <;> rw [h] <;> rfl
  have hdel : countCtrl isDeleted T.capacity ctrl = 0 :=
    countCtrl_eq_zero fun i hi => by rcases hbyte i hi with h | h <;> rw [h] <;> rfl
  subst hblocked
  refine ⟨⟨⟨hcap, hlarge, hmax, hb.le_max, hle.trans hgrowth, fun hw => hb.le_large ?_, hm,
    fun i hi hge => ?_, fun i x hx => absurd hx (by simp), fun i hi _ => .inl ?_⟩, ?_,
    fun i x hx => absurd hx (by simp)⟩, ⟨false, capacityToGrowth g T.capacity - T.blocked,
      GrowthInfo.counts_init _ ((Nat.sub_le _ _).trans hgrowth) hmax, ?_, ?_,
      nofun⟩⟩
  · exact decide_eq_false (not_le.2 hw)
  · show ctrl i = kSentinel
    rw [hbytes i hi]
    exact if_pos hge
  · show ctrl i = kEmpty
    have hi' : i < T.capacity - T.blocked := hi
    rw [hbytes i (by omega), if_neg (by omega)]
  · show T.size = countCtrl isFull T.capacity ctrl
    rw [hsize, hfull]
  · show _ + countCtrl isFull T.capacity ctrl + countCtrl isDeleted T.capacity ctrl + T.blocked
      = capacityToGrowth g T.capacity
    omega
  · intro hpos
    have hpos' : 0 < countCtrl isDeleted T.capacity ctrl := hpos
    omega

theorem frame_blockControlBytes (g : GroupImpl) : ∀ count (T : Table V),
    Frame T (T.blockControlBytes g count)
  | 0, _ => ⟨rfl, rfl, rfl, rfl⟩
  | count + 1, T =>
    let h := frame_blockControlBytes g count (T.setCtrl g _ kSentinel)
    { h with }

section

variable (g : GroupImpl) (capacity blocked seed : ℕ) (mem : RawMemory)

theorem capacity_resizeEmptyNonAllocatedTable :
    (resizeEmptyNonAllocatedTable V g capacity blocked seed mem).capacity = capacity :=
  (frame_blockControlBytes g blocked _).capacity

theorem blocked_resizeEmptyNonAllocatedTable :
    (resizeEmptyNonAllocatedTable V g capacity blocked seed mem).blocked = blocked :=
  (frame_blockControlBytes g blocked _).blocked

theorem slots_resizeEmptyNonAllocatedTable (i : ℕ) :
    (resizeEmptyNonAllocatedTable V g capacity blocked seed mem).slots i = none :=
  congrFun (frame_blockControlBytes g blocked _).slots i

end

theorem inv_resizeEmptyNonAllocatedTable (P : Policy K V) {capacity : ℕ} (seed : ℕ)
    (mem : RawMemory) (hcap : isValidCapacity capacity = true)
    (hlarge : kMaxSmallCapacity < capacity) (hmax : capacity ≤ kMaxValidCapacity)
    (hb : BlockedAllowed g capacity blocked) :
    Inv P g (resizeEmptyNonAllocatedTable V g capacity blocked seed mem) := by
  have hslots := slots_resizeEmptyNonAllocatedTable (V := V) g capacity blocked seed mem
  set T := resizeEmptyNonAllocatedTable V g capacity blocked seed mem
  have h : Layout g T fun _ => none := layout_empty hcap hlarge hmax hb rfl rfl
  have hnone : T.hashes P = fun _ => none := by
    funext i
    rw [hashes, hslots]
    rfl
  exact ⟨hnone ▸ h, fun i j v w hv => absurd hv (by rw [hslots]; simp)⟩

/-! ## Steps -/

theorem Layout.congr_slots (h : Layout g T hashAt) (slots : ℕ → Option V) :
    Layout g { T with slots := slots } hashAt :=
  ⟨⟨h.toShape.congr rfl rfl rfl, h.size_eq, h.reach⟩, h.growth⟩

variable {i : ℕ}

theorem hashes_eq_none : T.hashes P i = none ↔ T.slots i = none := by
  rw [hashes, Option.map_eq_none_iff]

variable {T' : Table V}

theorem hashes_update {x : Option V} (hseed : T'.seed = T.seed)
    (hslots : T'.slots = update T.slots i x) :
    T'.hashes P = update (T.hashes P) i (x.map fun v => P.hash T.seed (P.keyOf v)) := by
  funext j
  unfold hashes
  rw [hslots, hseed]
  by_cases hj : j = i
  · subst hj
    rw [update_self, update_self]
  · simp only [update_of_ne hj]

/-- Constructing an element with a new key in the slot taken for its hash. -/
theorem UniqueKeys.constructSlot (hunique : T.UniqueKeys P) {v : V}
    (hp : Placed g T (T.hashes P) (P.hash T.seed (P.keyOf v)) T' i)
    (habsent : ∀ j, ¬T.HasKey P (P.keyOf v) j) :
    T'.constructSlot i v = .ok { T' with slots := update T.slots i (some v) } ∧
      Inv P g { T' with slots := update T.slots i (some v) } := by
  have hnone := hashes_eq_none.1 hp.free
  have halloc : i < T'.allocated := by
    rw [allocated, hp.capacity, hp.blocked]
    exact hp.lt
  constructor
  · rw [Table.constructSlot, if_pos halloc, hp.slots, hnone]
  have hseed : ({ T' with slots := update T.slots i (some v) } : Table V).seed
      = T.seed := hp.seed
  have hhashes : ({ T' with slots := update T.slots i (some v) } : Table V).hashes P
      = update _ i _ :=
    hashes_update hseed rfl
  refine ⟨hhashes ▸ hp.layout.congr_slots _, fun a b x y hx hy heq => ?_⟩
  simp only [update_apply] at hx hy
  split_ifs at hx hy with ha hb hb
  · rw [ha, hb]
  · -- the new element meets an old one with an equal key
    cases hx
    exact absurd ⟨y, hy, heq⟩ (habsent b)
  · cases hy
    exact absurd ⟨x, hx, P.eq_symm _ _ heq⟩ (habsent a)
  · exact hunique a b x y hx hy heq

/-- Erasing an element. -/
theorem Inv.erase (hI : Inv P g T) {v : V} (hv : T.slots i = some v) :
    ∃ T', T.erase g i = .ok T' ∧ Inv P g T' ∧
      Frame { T with slots := update T.slots i none } T' := by
  have hx : T.hashes P i = some (P.hash T.seed (P.keyOf v)) := hashes_eq_some.2 ⟨v, hv, rfl⟩
  have halloc := (hI.full i _ hx).1
  let T1 : Table V := { T with slots := update T.slots i none }
  have hT1 : Layout g T1 (T.hashes P) := hI.toLayout.congr_slots _
  obtain ⟨hframe, hlayout⟩ := hT1.eraseMetaOnlyLarge hx
  have hslots : (T1.eraseMetaOnlyLarge g i).slots = update T.slots i none := hframe.slots
  have hhashes : (T1.eraseMetaOnlyLarge g i).hashes P = update (T.hashes P) i none :=
    hashes_update (by exact hframe.seed) hslots
  refine ⟨T1.eraseMetaOnlyLarge g i, ?_, ⟨hhashes ▸ hlayout, ?_⟩, hframe⟩
  · rw [Table.erase, destroySlot, if_pos halloc, hv]
  intro a b x y hx' hy' heq
  rw [hslots] at hx' hy'
  have ha : a ≠ i := fun he => by simp [he] at hx'
  have hb : b ≠ i := fun he => by simp [he] at hy'
  rw [update_of_ne ha] at hx'
  rw [update_of_ne hb] at hy'
  exact hI.unique a b x y hx' hy' heq

/-- A step of a table : an element is inserted without growth, is there already, or is
erased. -/
inductive Step (P : Policy K V) (g : GroupImpl) (T : Table V) : Table V → Prop
  | insert {v : V} {T₁ T₂ : Table V} {i : ℕ}
      (prepare : T.findOrPrepareInsertLarge P g (P.keyOf v) = .ok (.prepared (.placed T₁ i)))
      (construct : T₁.constructSlot i v = .ok T₂) : Step P g T T₂
  | insertExisting {v : V} {i : ℕ}
      (find : T.findOrPrepareInsertLarge P g (P.keyOf v) = .ok (.existing i)) : Step P g T T
  | erase {i : ℕ} {T₁ : Table V} (erase : T.erase g i = .ok T₁) : Step P g T T₁

/-- Any sequence of steps. -/
def Run (P : Policy K V) (g : GroupImpl) : Table V → Table V → Prop :=
  Relation.ReflTransGen (Step P g)

section

variable (hI : Inv P g T)
include hI

/-- `find_or_prepare_insert_large` reports the slot of the key, or prepares an insertion
when no slot has it. -/
theorem Inv.findOrPrepareInsertLarge (key : K) :
    (∃ i, T.findOrPrepareInsertLarge P g key = .ok (.existing i) ∧ T.HasKey P key i) ∨
      ((∀ i, ¬T.HasKey P key i) ∧
        ((∃ T' i, T.findOrPrepareInsertLarge P g key = .ok (.prepared (.placed T' i)) ∧
            Placed g T (T.hashes P) (P.hash T.seed key) T' i) ∨
          ∃ gi, gi.Counts T.capacity T.growthInfo.deleted 0 ∧
            T.growthInfo.getGrowthLeftTotalSlow T.capacity = 0 ∧
            T.findOrPrepareInsertLarge P g key = .ok (.prepared
              (if T.growthInfo.deleted then .rehashOrGrow { T with growthInfo := gi }
                else .grow { T with growthInfo := gi })))) := by
  unfold Table.findOrPrepareInsertLarge
  rcases search_spec hI key with ⟨i, hr, hi⟩ | ⟨hnone, j, hr, hstop, hbefore⟩
  · exact .inl ⟨i, by rw [hr], hi⟩
  right
  refine ⟨hnone, ?_⟩
  rw [hr]
  rcases prepareInsertLarge_spec hI.toLayout hstop hbefore with ⟨T', i, hp, hplaced⟩ |
    ⟨gi, hgi, htotal, hp⟩
  · refine .inl ⟨T', i, ?_, hplaced⟩
    show Except.map _ (T.prepareInsertLarge g _ (groupOffset _ _ _ _)) = _
    rw [hp]
    rfl
  · refine .inr ⟨gi, hgi, htotal, ?_⟩
    show Except.map _ (T.prepareInsertLarge g _ (groupOffset _ _ _ _)) = _
    rw [hp]
    rfl

/-- An insertion that was prepared is for a key that no slot has, and its element is constructed. -/
theorem Inv.insert {v : V} {T₁ : Table V}
    (prepare : T.findOrPrepareInsertLarge P g (P.keyOf v) = .ok (.prepared (.placed T₁ i))) :
    T.slots i = none ∧
      T₁.constructSlot i v = .ok { T₁ with slots := update T.slots i (some v) } ∧
      Inv P g { T₁ with slots := update T.slots i (some v) } ∧
      T₁.capacity = T.capacity ∧ T₁.blocked = T.blocked := by
  rcases hI.findOrPrepareInsertLarge (P.keyOf v) with
    ⟨k, hr, -⟩ | ⟨hnone, ⟨T', k, hr, hp⟩ | ⟨gi, -, -, hr⟩⟩
  · rw [prepare] at hr
    cases hr
  · rw [prepare] at hr
    cases hr
    obtain ⟨hok, hinv⟩ := hI.unique.constructSlot hp hnone
    exact ⟨hashes_eq_none.1 hp.free, hok, hinv, hp.capacity, hp.blocked⟩
  · rw [prepare] at hr
    split_ifs at hr <;> cases hr

/-- Every step keeps the lookup invariant, the capacity and the blocked slots. -/
theorem Step.inv (hstep : Step P g T T') :
    Inv P g T' ∧ T'.capacity = T.capacity ∧ T'.blocked = T.blocked := by
  cases hstep with
  | insert prepare construct =>
    obtain ⟨-, hok, hinv, hframe⟩ := hI.insert prepare
    rw [construct] at hok
    cases hok
    exact ⟨hinv, hframe⟩
  | insertExisting _ => exact ⟨hI, rfl, rfl⟩
  | @erase i _ herase =>
    cases hv : T.slots i with
    | none =>
      rw [Table.erase, destroySlot, hv] at herase
      split_ifs at herase
    | some v =>
      obtain ⟨T1, hok, hinv, hframe⟩ := hI.erase hv
      rw [herase] at hok
      cases hok
      exact ⟨hinv, hframe.capacity, hframe.blocked⟩

/-- The lookup invariant holds after every run. -/
theorem Run.inv (hrun : Run P g T T') :
    Inv P g T' ∧ T'.capacity = T.capacity ∧ T'.blocked = T.blocked := by
  induction hrun with
  | refl => exact ⟨hI, rfl, rfl⟩
  | tail _ hstep ih =>
    obtain ⟨hinv, hcap, hblocked⟩ := hstep.inv ih.1
    exact ⟨hinv, hcap.trans ih.2.1, hblocked.trans ih.2.2⟩

/-! ## Lookups after a run -/

theorem Inv.findLarge (key : K) :
    (∃ i, T.findLarge P g key = .ok (some i) ∧ T.HasKey P key i) ∨
      (T.findLarge P g key = .ok none ∧ ∀ i, ¬T.HasKey P key i) := by
  unfold Table.findLarge
  rcases search_spec hI key with ⟨i, hr, hi⟩ | ⟨hnone, j, hr, -, -⟩
  · exact .inl ⟨i, by rw [hr], hi⟩
  · exact .inr ⟨by rw [hr], hnone⟩

theorem Inv.hasKey_unique {key : K} {j : ℕ} (hi : T.HasKey P key i)
    (hj : T.HasKey P key j) : i = j := by
  obtain ⟨v, hv, hev⟩ := hi
  obtain ⟨w, hw, hew⟩ := hj
  exact hI.unique i j v w hv hw (P.eq_trans _ _ _ (P.eq_symm _ _ hev) hew)

/-- A stored key is found at its slot, by lookups and by insertions. -/
theorem Inv.find_stored {key : K} (hi : T.HasKey P key i) :
    T.findLarge P g key = .ok (some i) ∧
      T.findOrPrepareInsertLarge P g key = .ok (.existing i) := by
  constructor
  · rcases hI.findLarge key with ⟨j, hr, hj⟩ | ⟨-, hnone⟩
    · rw [hr, hI.hasKey_unique hi hj]
    · exact absurd hi (hnone i)
  · rcases hI.findOrPrepareInsertLarge key with ⟨j, hr, hj⟩ | ⟨hnone, -⟩
    · rw [hr, hI.hasKey_unique hi hj]
    · exact absurd hi (hnone i)

/-- An absent key is not found, and an insertion prepares a slot or asks for room. -/
theorem Inv.find_absent {key : K} (hnot : ∀ i, ¬T.HasKey P key i) :
    T.findLarge P g key = .ok none ∧
      ∃ r, T.findOrPrepareInsertLarge P g key = .ok (.prepared r) := by
  constructor
  · rcases hI.findLarge key with ⟨j, -, hj⟩ | ⟨hr, -⟩
    · exact absurd hj (hnot j)
    · exact hr
  · rcases hI.findOrPrepareInsertLarge key with ⟨j, -, hj⟩ | ⟨-, ⟨T', j, hr, -⟩ | ⟨gi, -, -, hr⟩⟩
    · exact absurd hj (hnot j)
    · exact ⟨_, hr⟩
    · exact ⟨_, hr⟩

end

end Table

open Table

/-- The lookup invariant : from an empty table of any valid capacity with any number of
blocked slots it allows, after any sequence of insertions without growth and of erasures,
lookups are right, an insertion stores its element and an erasure of a stored one removes it,
every probe sequence meets an empty byte, and the control bytes and counts are as described.
A table below a whole group has only `capacity` cloned bytes, the bytes behind them stay empty. -/
theorem lookup_correct {K V : Type*} (P : Policy K V) (g : GroupImpl)
    {capacity blocked seed : ℕ} {mem : RawMemory} {T : Table V}
    (hcap : isValidCapacity capacity = true) (h3 : 3 ≤ capacity)
    (hmax : capacity ≤ kMaxValidCapacity) (hblocked : BlockedAllowed g capacity blocked)
    (hrun : Run P g (resizeEmptyNonAllocatedTable V g capacity blocked seed mem) T) :
    -- stored elements are found, absent keys are not, and no key is stored twice
    ((∀ i v key, T.slots i = some v → P.eq key (P.keyOf v) = true →
        T.findLarge P g key = .ok (some i) ∧
          T.findOrPrepareInsertLarge P g key = .ok (.existing i)) ∧
      (∀ key, (∀ i v, T.slots i = some v → P.eq key (P.keyOf v) = false) →
        T.findLarge P g key = .ok none ∧
          ∃ r, T.findOrPrepareInsertLarge P g key = .ok (.prepared r)) ∧
      ∀ i j v w, T.slots i = some v → T.slots j = some w →
        P.eq (P.keyOf v) (P.keyOf w) = true → i = j) ∧
    -- insertions and erasures change the slot of their element and no other
    ((∀ v T₁ i, T.findOrPrepareInsertLarge P g (P.keyOf v) = .ok (.prepared (.placed T₁ i)) →
        T.slots i = none ∧
          ∃ T₂, T₁.constructSlot i v = .ok T₂ ∧ T₂.slots = update T.slots i (some v)) ∧
      ∀ i v, T.slots i = some v →
        ∃ T₁, T.erase g i = .ok T₁ ∧ T₁.slots = update T.slots i none) ∧
    -- every probe sequence meets an empty byte
    (∀ hash : BitVec 64, ∃ j ≤ capacity, ∃ i < g.kWidth,
      T.ctrl (groupOffset g capacity (h1 hash) j + i) = kEmpty) ∧
    -- clones, sentinel and blocked bytes, size and growth left
    ((∀ i < g.kWidth - 1, T.ctrl (capacity + 1 + i) = if i < capacity then T.ctrl i else kEmpty) ∧
      T.ctrl capacity = kSentinel ∧
      (∀ i < capacity, capacity - blocked ≤ i → T.ctrl i = kSentinel) ∧
      T.size = T.fullCount ∧
      T.growthInfo.getGrowthLeftTotalSlow capacity + T.fullCount + T.deletedCount + blocked
        = capacityToGrowth g capacity) := by
  have hlarge : kMaxSmallCapacity < capacity := by
    unfold kMaxSmallCapacity
    omega
  obtain ⟨hI, hc, hb⟩ := Run.inv
    (inv_resizeEmptyNonAllocatedTable P seed mem hcap hlarge hmax hblocked) hrun
  rw [capacity_resizeEmptyNonAllocatedTable] at hc
  rw [blocked_resizeEmptyNonAllocatedTable] at hb
  subst hc hb
  refine ⟨⟨fun i v key hv heq => ?_, fun key habsent => ?_, hI.unique⟩,
    ⟨fun v T₁ i prepare => ?_, fun i v hv => ?_⟩, fun hash => ?_, hI.mirror.tail,
    hI.mirror.sentinel, hI.blocked_byte, hI.size_eq, ?_⟩
  · exact hI.find_stored ⟨v, hv, heq⟩
  · refine hI.find_absent ?_
    rintro i ⟨v, hv, heq⟩
    rw [habsent i v hv] at heq
    cases heq
  · obtain ⟨hnone, hok, -⟩ := hI.insert prepare
    exact ⟨hnone, _, hok, rfl⟩
  · obtain ⟨T₁, hok, -, hframe⟩ := hI.erase hv
    exact ⟨T₁, hok, hframe.slots⟩
  · exact hI.exists_stops (h1 hash)
  · obtain ⟨d, left, hcounts, hsum, -, -⟩ := hI.growth
    rwa [hcounts.total]

/-- A table of natural numbers, each its own key. -/
def natPolicy : Policy ℕ ℕ where
  keyOf := id
  hash s k := BitVec.ofNat 64 (k + s)
  eq a b := a == b
  eq_refl a := BEq.rfl
  eq_symm a b h := beq_iff_eq.2 (beq_iff_eq.1 h).symm
  eq_trans a b c hab hbc := by
    rw [beq_iff_eq] at hab hbc ⊢
    exact hab.trans hbc
  hash_eq s a b h := by rw [beq_iff_eq.1 h]

theorem blockedAllowed_seven : BlockedAllowed .portable 7 2 :=
  ⟨by decide, by decide, by decide⟩

/-- Memory of zeros. -/
def zeroMemory : RawMemory := ⟨⟨0#8, 0⟩, fun _ => 0#8⟩

/-- The table after the insertion of `v`, if that needs no growth. -/
def inserted (T : Table ℕ) (v : ℕ) : Table ℕ :=
  match T.findOrPrepareInsertLarge natPolicy .portable v with
  | .ok (.prepared (.placed T₁ i)) => (T₁.constructSlot i v).toOption.getD T
  | _ => T

/-- The table after the erasure of slot `i`. -/
def erased (T : Table ℕ) (i : ℕ) : Table ℕ := (T.erase .portable i).toOption.getD T

theorem run_inserted (T : Table ℕ) (v : ℕ) : Run natPolicy .portable T (inserted T v) := by
  unfold inserted
  split
  next T₁ i prepare =>
    cases construct : T₁.constructSlot i v with
    | ok T₂ => exact .single (.insert prepare construct)
    | error _ => exact .refl
  next => exact .refl

theorem run_erased (T : Table ℕ) (i : ℕ) : Run natPolicy .portable T (erased T i) := by
  unfold erased
  cases erase : T.erase .portable i with
  | ok T₁ => exact .single (.erase erase)
  | error _ => exact .refl

/-- Two numbers whose hashes have the same first group and the same seven bits go to a table of
capacity seven with two blocked slots, and the first of them is erased. -/
def collided : Table ℕ :=
  let T := resizeEmptyNonAllocatedTable ℕ .portable 7 2 0 zeroMemory
  erased (inserted (inserted T 5) 1029) 0

theorem run_collided : Run natPolicy .portable
    (resizeEmptyNonAllocatedTable ℕ .portable 7 2 0 zeroMemory) collided :=
  ((run_inserted _ 5).trans (run_inserted _ 1029)).trans (run_erased _ 0)

/-- The second of two colliding numbers is found after the first was erased. -/
theorem lookup_correct_collided :
    collided.slots 0 = none ∧ collided.slots 1 = some 1029 ∧
      collided.findLarge natPolicy .portable 1029 = .ok (some 1) := by
  have hslot : collided.slots 1 = some 1029 := by decide +kernel
  exact ⟨by decide +kernel, hslot,
    ((lookup_correct natPolicy .portable (by decide) (by decide) (by decide)
      blockedAllowed_seven run_collided).1.1 1 1029 1029 hslot rfl).1⟩

/-- Not all cloned bytes mirror the first bytes : behind the three clones of a table of
capacity three the fourth byte is empty, and not a second sentinel. -/
theorem not_forall_cloned_eq :
    ¬∀ (g : GroupImpl) (capacity blocked seed : ℕ) (mem : RawMemory) (T : Table ℕ),
      isValidCapacity capacity = true → 3 ≤ capacity → capacity ≤ kMaxValidCapacity →
      BlockedAllowed g capacity blocked →
      Run natPolicy g (resizeEmptyNonAllocatedTable ℕ g capacity blocked seed mem) T →
      ∀ i < g.kWidth - 1, T.ctrl (capacity + 1 + i) = T.ctrl i := by
  intro h
  have h3 := h .portable 3 0 0 zeroMemory _ (by decide) (by decide) (by decide)
    ⟨by decide, by decide, by decide⟩ .refl 3 (by decide)
  cases h3

end Abseil.Swiss
