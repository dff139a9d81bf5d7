import Abseil.SwissRun

/-!
# Rehashing in place

`DropDeletesWithoutResizeAndPrepareInsert` turns the deleted bytes into empty ones and the
full bytes into deleted ones, which now stand for elements that still have to find their
place. A sweep over the slots settles them one after the other : an element stays where it
is when its slot is in the first group of its search with a free slot, moves to an empty
slot of that group, or changes places with another element that is not settled.

`Rehashing` says what holds in between : the elements are those of the start in another
order, the full bytes are those of the settled elements, and no group in front of a settled
element has a free slot. Settling one element keeps it (`Rehashing.settle`), and at the end
of the sweep every element is settled (`rehash_spec`).
-/

namespace Abseil.Swiss

open Equiv Finset Function BoundedLoop Probing

namespace Table

variable {K V : Type*}

/-! ## The sweep -/

/-- `transfer_n` of one element, from slot `src` to slot `dst`. -/
def transfer (T : Table V) (dst src : ℕ) : Except Fault (Table V) :=
  (T.readSlot src).bind fun v => (T.constructSlot dst v).bind fun T => T.destroySlot src

/-- `ConvertSpecialToEmptyAndFullToDeleted` of the group at `pos`. -/
def convertGroup (g : GroupImpl) (ctrl : ℕ → Ctrl) (pos : ℕ) : ℕ → Ctrl := fun p =>
  if pos ≤ p ∧ p < pos + g.kWidth then
    g.convertSpecialToEmptyAndFullToDeleted (fun i => ctrl (pos + i)) (p - pos)
  else ctrl p

/-- Convert the first groups, from the front on. -/
def convertGroups (g : GroupImpl) (ctrl : ℕ → Ctrl) : ℕ → ℕ → Ctrl
  | 0 => ctrl
  | n + 1 => convertGroup g (convertGroups g ctrl n) (n * g.kWidth)

/-- Number of groups at `0, kWidth, ...` that start in front of `capacity`. -/
def groupCount (g : GroupImpl) (capacity : ℕ) : ℕ := (capacity + g.kWidth - 1) / g.kWidth

/-- `std::memcpy` of `len` control bytes. -/
def memcpy (ctrl : ℕ → Ctrl) (dst src len : ℕ) : ℕ → Ctrl :=
  fun p => if dst ≤ p ∧ p < dst + len then ctrl (src + (p - dst)) else ctrl p

/-- `ConvertDeletedToEmptyAndFullToDeleted`. -/
def convertDeletedToEmptyAndFullToDeleted (g : GroupImpl) (T : Table V) : Table V :=
  let ctrl := convertGroups g T.ctrl (groupCount g T.capacity)
  let ctrl := memcpy ctrl (T.capacity + 1) 0 (numClonedBytes g)
  { T with ctrl := update ctrl T.capacity kSentinel }

/-- `FindEmptySlot`. -/
def findEmptySlot (T : Table V) (start stop : ℕ) : Except Fault ℕ :=
  match (List.range' start (stop - start)).find? fun i => isEmpty (T.ctrl i) with
  | some i => .ok i
  | none => .error .unreachable

/-- `probe_index`, the group of the search in which `pos` lies. -/
def probeIndex (g : GroupImpl) (T : Table V) (hash : BitVec 64) (pos : ℕ) : ℕ :=
  (sizeSub pos (probeH1 T.capacity (h1 hash)).offset &&& T.capacity) / g.kWidth

/-- The variables of the sweep. `tmpSpaceId` is `none` for `kUnknownId`. -/
structure Sweep (V : Type*) where
  table : Table V
  i : ℕ
  tmpSpaceId : Option ℕ

/-- Swap the elements of slots `i` and `newI` by way of slot `tmp`. -/
def swapSlots (T : Table V) (tmp i newI : ℕ) : Except Fault (Table V) :=
  (T.transfer tmp newI).bind fun T => (T.transfer newI i).bind fun T => T.transfer i tmp

/-- The slot in between for a swap, which is looked for when none is known. -/
def tmpSpace (T : Table V) (i : ℕ) : Option ℕ → Except Fault ℕ
  | some t => .ok t
  | none => T.findEmptySlot (i + 1) T.capacity

/-- What becomes of the element of slot `i`, when `newI` is the first slot that is free for
its hash. -/
def settleSlot (g : GroupImpl) (s : Sweep V) (hash : BitVec 64) (newI : ℕ) :
    Except Fault (Sweep V) :=
  let T := s.table
  let i := s.i
  if T.probeIndex g hash newI = T.probeIndex g hash i then
    .ok ⟨T.setCtrlInLargeTable g i (h2 hash), i + 1, s.tmpSpaceId⟩
  else if isEmpty (T.ctrl newI) then
    ((T.setCtrlInLargeTable g newI (h2 hash)).transfer newI i).bind fun T =>
    .ok ⟨T.setCtrlInLargeTable g i kEmpty, i + 1, some i⟩
  else
    let T := T.setCtrlInLargeTable g newI (h2 hash)
    -- the sweep stays, with the element that comes to slot `i`
    (T.tmpSpace i s.tmpSpaceId).bind fun tmp =>
    (T.swapSlots tmp i newI).bind fun T => .ok ⟨T, i, some tmp⟩

/-- A round of the sweep. -/
def sweepSlot (P : Policy K V) (g : GroupImpl) (s : Sweep V) :
    Except Fault (Round (Sweep V) (Table V)) :=
  let T := s.table
  let i := s.i
  if i = T.capacity then .ok (.done T)
  else if isEmpty (T.ctrl i) then .ok (.next ⟨T, i + 1, some i⟩)
  else if !isDeleted (T.ctrl i) then .ok (.next ⟨T, i + 1, s.tmpSpaceId⟩)
  else
    (T.readSlot i).bind fun v =>
    let hash := P.hash T.seed (P.keyOf v)
    (T.findFirstNonFull g hash).bind fun newI => (settleSlot g s hash newI).map .next

/-- Take the slot `find_first_non_full` gives for the hash. -/
def takeFirstNonFull (g : GroupImpl) (T : Table V) (hash : BitVec 64) :
    Except Fault (Table V × ℕ) :=
  (T.findFirstNonFull g hash).map fun target =>
    (T.setCtrlInLargeTable g target (h2 hash), target)

/-- `DropDeletesWithoutResizeAndPrepareInsert` : the table and the slot for the new hash. -/
def dropDeletesWithoutResizeAndPrepareInsert (P : Policy K V) (g : GroupImpl) (T : Table V)
    (newHash : BitVec 64) : Except Fault (Table V × ℕ) :=
  let T := (T.convertDeletedToEmptyAndFullToDeleted g).blockControlBytes g T.blocked
  (runLoop .endless (sweepSlot P g) (2 * T.capacity + 1) ⟨T, 0, none⟩).bind fun T =>
  let T := T.prepareInsertCommon
  let T := T.resetGrowthLeft g (T.size + T.blocked)
  T.takeFirstNonFull g newHash

/-- The stored elements. -/
def elements (T : Table V) : Multiset V := (Multiset.range T.capacity).filterMap T.slots

/-! ## The converted control bytes -/

section Convert

variable {g : GroupImpl} {T : Table V}

theorem convertGroups_apply (ctrl : ℕ → Ctrl) (p : ℕ) : ∀ n, convertGroups g ctrl n p
    = if p < n * g.kWidth then (if isFull (ctrl p) then kDeleted else kEmpty) else ctrl p
  | 0 => by rw [convertGroups, Nat.zero_mul, if_neg (Nat.not_lt_zero p)]
  | n + 1 => by
    have ih := convertGroups_apply ctrl p n
    rw [convertGroups, convertGroup, Nat.succ_mul]
    by_cases hin : n * g.kWidth ≤ p ∧ p < n * g.kWidth + g.kWidth
    · rw [if_neg (by omega)] at ih
      rw [if_pos hin, if_pos hin.2, g.convert_spec (by omega), Nat.add_sub_cancel' hin.1, ih]
    · rw [ih]
      split_ifs <;> first | rfl | omega

/-- The bytes of the slots after the conversion, with the last ones blocked again. -/
theorem convert_block_spec {hashAt : ℕ → Option (BitVec 64)} (hs : Shape g T hashAt)
    (hw : g.kWidth - 1 ≤ T.capacity) :
    ∃ ctrl, (T.convertDeletedToEmptyAndFullToDeleted g).blockControlBytes g T.blocked
        = { T with ctrl := ctrl } ∧ Mirror g T.capacity ctrl ∧
      ∀ p < T.capacity, ctrl p = if T.allocated ≤ p then kSentinel
        else if isFull (T.ctrl p) then kDeleted else kEmpty := by
  have hpos := g.kWidth_pos
  -- the groups cover the ring
  have hcount : T.capacity ≤ groupCount g T.capacity * g.kWidth := by
    have := Nat.div_add_mod (T.capacity + g.kWidth - 1) g.kWidth
    have := Nat.mod_lt (T.capacity + g.kWidth - 1) hpos
    rw [groupCount, mul_comm]
    omega
  set ctrl1 := (T.convertDeletedToEmptyAndFullToDeleted g).ctrl with hctrl1
  have hbyte : ∀ p < T.capacity, ctrl1 p = if isFull (T.ctrl p) then kDeleted else kEmpty := by
    intro p hp
    rw [hctrl1]
    show update (memcpy _ _ _ _) T.capacity kSentinel p = _
    rw [update_of_ne (by omega), memcpy, if_neg (by omega), convertGroups_apply, if_pos (by omega)]
  have hmirror : Mirror g T.capacity ctrl1 := by
    refine ⟨update_self .., fun q hq => ?_⟩
    rw [if_pos (by omega)]
    show update (memcpy _ _ _ _) T.capacity kSentinel _
      = update (memcpy _ _ _ _) T.capacity kSentinel _
    rw [update_of_ne (by omega), update_of_ne (by omega), memcpy, memcpy,
      if_pos (by unfold numClonedBytes; omega), if_neg (by omega), zero_add,
      Nat.add_sub_cancel_left]
  obtain ⟨ctrl, heq, hm, hbytes⟩ := blockControlBytes_spec T.blocked
    (T.convertDeletedToEmptyAndFullToDeleted g) hs.valid hs.le_max hs.blocked_le_capacity hmirror
  refine ⟨ctrl, heq, hm, fun p hp => (hbytes p hp).trans ?_⟩
  rw [← hctrl1, hbyte p hp]
  rfl

end Convert

/-! ## Moving elements -/

section Move

variable {T : Table V} {i : ℕ}

theorem constructSlot_ok (v : V) (hi : i < T.allocated) (hnone : T.slots i = none) :
    T.constructSlot i v = .ok { T with slots := update T.slots i (some v) } := by
  rw [constructSlot, if_pos hi, hnone]

variable {v : V}

theorem destroySlot_ok (hi : i < T.allocated) (hv : T.slots i = some v) :
    T.destroySlot i = .ok { T with slots := update T.slots i none } := by
  rw [destroySlot, if_pos hi, hv]

/-- Transferring an element to a slot without one swaps the two slots. -/
theorem transfer_ok {dst src : ℕ} (hdst : dst < T.allocated) (hsrc : src < T.allocated)
    (hnone : T.slots dst = none) (hv : T.slots src = some v) :
    T.transfer dst src = .ok { T with slots := T.slots ∘ swap dst src } := by
  have hne : src ≠ dst := fun he => by simp [he, hnone] at hv
  have hslots : update (update T.slots dst (some v)) src none
      = T.slots ∘ swap dst src := by
    funext p
    rw [comp_apply, swap_apply_def]
    split_ifs with hpd hps
    · rw [hpd, update_of_ne hne.symm, update_self, hv]
    · rw [hps, update_self, hnone]
    · rw [update_of_ne hps, update_of_ne hpd]
  have hdestroy := destroySlot_ok hsrc
    (T := { T with slots := update T.slots dst (some v) })
    ((update_of_ne hne _ _).trans hv)
  rw [transfer, readSlot_ok hsrc hv, Except.bind, constructSlot_ok v hdst hnone, Except.bind,
    hdestroy, hslots]

/-- `swapSlots` swaps two elements, when the slot in between has none. -/
theorem swapSlots_ok {tmp newI : ℕ} {w : V} (htmp : tmp < T.allocated) (hi : i < T.allocated)
    (hnewI : newI < T.allocated) (hne : i ≠ newI) (hnone : T.slots tmp = none)
    (hv : T.slots i = some v) (hw : T.slots newI = some w) :
    T.swapSlots tmp i newI = .ok { T with slots := T.slots ∘ swap newI i } := by
  have hti : tmp ≠ i := fun he => by simp [he, hv] at hnone
  have htn : tmp ≠ newI := fun he => by simp [he, hw] at hnone
  have h1 := transfer_ok htmp hnewI hnone hw
  have h2 := transfer_ok (T := { T with slots := T.slots ∘ swap tmp newI })
    hnewI hi (by simpa using hnone)
    (by simpa [swap_apply_of_ne_of_ne hti.symm hne] using hv)
  have h3 := transfer_ok
    (T := { T with slots := (T.slots ∘ swap tmp newI) ∘ swap newI i }) hi htmp
    (by simpa using hnone)
    (by simpa [swap_apply_of_ne_of_ne htn hti] using hw)
  have hswap : ((T.slots ∘ swap tmp newI) ∘ swap newI i) ∘ swap i tmp
      = T.slots ∘ swap newI i := by
    funext p
    simp only [comp_apply, swap_apply_def]
    split_ifs <;> simp_all
  rw [swapSlots, h1]
  simp only [Except.bind]
  rw [h2]
  simp only [h3, hswap]

end Move

/-! ## Settling an element -/

section Settle

variable {P : Policy K V} {g : GroupImpl} {T₀ T : Table V} {hashAt : ℕ → Option (BitVec 64)}

/-- A table in the middle of the sweep over `T₀`. The hashes are those of the settled
elements. -/
structure Rehashing (P : Policy K V) (g : GroupImpl) (T₀ T : Table V)
    (hashAt : ℕ → Option (BitVec 64)) : Prop extends Shape g T hashAt where
  capacity : T.capacity = T₀.capacity
  blocked : T.blocked = T₀.blocked
  seed : T.seed = T₀.seed
  size : T.size = T₀.size
  permuted : ∃ σ : Equiv.Perm ℕ, (∀ p, T₀.allocated ≤ p → σ p = p) ∧ T.slots = T₀.slots ∘ σ
  occupied : ∀ p < T.allocated, T.slots p = none ↔ T.ctrl p = kEmpty
  settled_hash : ∀ p h, hashAt p = some h → T.hashes P p = some h
  settled : ∀ p h, hashAt p = some h →
    Reach (InGroup g T.capacity (h1 h)) (HasFree g T.capacity T.ctrl (h1 h)) p
  exists_empty : ∃ p < T.capacity, T.ctrl p = kEmpty

/-- The hash of a stored value. -/
abbrev hashOf (T : Table V) (P : Policy K V) (v : V) := P.hash T.seed (P.keyOf v)

/-- The element `v` of slot `i` is not settled, and `q` is a slot in the first group of its
search with a free slot. -/
structure Unsettled (P : Policy K V) (g : GroupImpl) (T : Table V)
    (hashAt : ℕ → Option (BitVec 64)) (i q : ℕ) (v : V) : Prop where
  lt : i < T.allocated
  deleted : T.ctrl i = kDeleted
  slot : T.slots i = some v
  target_lt : q < T.allocated
  target_none : hashAt q = none
  reach : Reach (InGroup g T.capacity (h1 (P.hash T.seed (P.keyOf v))))
    (HasFree g T.capacity T.ctrl (h1 (P.hash T.seed (P.keyOf v)))) q

/-- A free byte on the ring is a free byte of the groups that contain it. -/
theorem hasFree_of_ring {cap : ℕ} {ctrl ctrl' : ℕ → Ctrl} (hw : g.kWidth - 1 ≤ cap)
    (hm : Mirror g cap ctrl) (hm' : Mirror g cap ctrl')
    (hfree : ∀ p ≤ cap, isEmptyOrDeleted (ctrl' p) = true → isEmptyOrDeleted (ctrl p) = true)
    {h k : ℕ} (hf : HasFree g cap ctrl' h k) : HasFree g cap ctrl h k := by
  obtain ⟨b, hb, he⟩ := hf
  refine ⟨b, hb, ?_⟩
  rw [hm.byte_of_le hw groupOffset_le hb]
  rw [hm'.byte_of_le hw groupOffset_le hb] at he
  exact hfree _ (Nat.le_of_lt_succ (Nat.mod_lt _ (Nat.succ_pos _))) he

theorem Shape.none_of_free (hs : Shape g T hashAt) {i : ℕ} (hi : i ≤ T.capacity)
    (hfree : T.ctrl i = kEmpty ∨ T.ctrl i = kDeleted) : hashAt i = none ∧ i < T.allocated := by
  refine (isEmptyOrDeleted_iff hs hi).1 ?_
  rcases hfree with hb | hb <;> rw [hb] <;> rfl

variable {i q : ℕ} {v : V}

section

variable (h : Rehashing P g T₀ T hashAt)
include h

section

variable (hw : g.kWidth - 1 ≤ T.capacity)
include hw

/-- The element of slot `i` is settled at `q`. What was at `q` comes to `i`, with its control
byte. -/
theorem Rehashing.settle
    (hu : Unsettled P g T hashAt i q v) {ctrl' : ℕ → Ctrl} (hctrl : ∀ p ≤ T.capacity, ctrl' p
      = if p = q then h2 (T.hashOf P v) else T.ctrl (swap q i p))
    (hshape : Shape g { T with ctrl := ctrl', slots := T.slots ∘ swap q i }
      (update hashAt q (some (T.hashOf P v)))) :
    Rehashing P g T₀ { T with ctrl := ctrl', slots := T.slots ∘ swap q i }
      (update hashAt q (some (T.hashOf P v))) := by
  obtain ⟨hi, hdel, hv, hq, -, j, hin, hbefore⟩ := hu
  set hash := T.hashOf P v
  have hle := h.allocated_le
  have hfull := isFull_ne (h2_isFull hash)
  have hnotFree : isEmptyOrDeleted (h2 hash) = false :=
    (by decide : ∀ c, isFull c = true → isEmptyOrDeleted c = false) _ (h2_isFull hash)
  have hinone : hashAt i = none := (h.none_of_free (by omega) (.inr hdel)).1
  have hswap : ∀ p < T.allocated, swap q i p < T.allocated := by
    intro p hp
    rw [swap_apply_def]
    split_ifs <;> assumption
  have hfree : ∀ p ≤ T.capacity, isEmptyOrDeleted (ctrl' p) = true →
      isEmptyOrDeleted (T.ctrl p) = true := by
    intro p hp he
    by_cases hpi : p = i
    · rw [hpi, hdel]
      rfl
    · rw [hctrl p hp] at he
      split_ifs at he with hpq
      · exact absurd he (by rw [hnotFree]; decide)
      · rwa [swap_apply_of_ne_of_ne hpq hpi] at he
  have hmono : ∀ {x k : ℕ}, HasFree g T.capacity ctrl' x k → HasFree g T.capacity T.ctrl x k :=
    hasFree_of_ring hw h.mirror hshape.mirror hfree
  refine ⟨hshape, h.capacity, h.blocked, h.seed, h.size, ?_, ?_, ?_, ?_, ?_⟩
  · obtain ⟨σ, hfix, hσ⟩ := h.permuted
    have halloc : T.allocated = T₀.allocated := by
      rw [allocated, allocated, h.capacity, h.blocked]
    refine ⟨(swap q i).trans σ, fun p hp => ?_, ?_⟩
    · rw [trans_apply, swap_apply_of_ne_of_ne (by omega) (by omega), hfix p hp]
    · rw [hσ]
      rfl
  · intro p hp
    have hp' : p < T.allocated := hp
    show T.slots (swap q i p) = none ↔ ctrl' p = kEmpty
    rw [hctrl p (by omega)]
    split_ifs with hpq
    · rw [hpq, swap_apply_left, hv]
      exact ⟨fun hn => absurd hn (Option.some_ne_none v), fun he => absurd he hfull.1⟩
    · exact h.occupied _ (hswap p hp')
  · intro p x hx
    by_cases hpq : p = q
    · subst hpq
      rw [update_self] at hx
      cases hx
      exact hashes_eq_some.2 ⟨v, (congrArg T.slots (swap_apply_left p i)).trans hv, rfl⟩
    · rw [update_of_ne hpq] at hx
      have hpi : p ≠ i := fun he => by rw [he, hinone] at hx; cases hx
      obtain ⟨w, hw', hwx⟩ := hashes_eq_some.1 (h.settled_hash p x hx)
      refine hashes_eq_some.2 ⟨w, ?_, hwx⟩
      exact (congrArg T.slots (swap_apply_of_ne_of_ne hpq hpi)).trans hw'
  · intro p x hx
    by_cases hpq : p = q
    · subst hpq
      rw [update_self] at hx
      cases hx
      exact ⟨j, hin, fun k hk hf => hbefore k hk (hmono hf)⟩
    · rw [update_of_ne hpq] at hx
      exact (h.settled p x hx).mono fun _ => hmono
  · obtain ⟨p, hp, he⟩ := h.exists_empty
    have hpi : p ≠ i := fun hpi => absurd (hpi ▸ he) (by rw [hdel]; decide)
    have hne : swap q i p ≠ q := fun hs =>
      hpi ((swap q i).injective (hs.trans (swap_apply_right q i).symm))
    have hlt : swap q i p < T.capacity := by
      rw [swap_apply_def]
      split_ifs <;> omega
    refine ⟨_, hlt, ?_⟩
    show ctrl' _ = _
    rw [hctrl _ hlt.le, if_neg hne, swap_apply_self, he]

/-- The element of slot `i` stays. -/
theorem Rehashing.stay (hu : Unsettled P g T hashAt i i v) : Rehashing P g T₀
      (T.putCtrl i (cloneOf g T.capacity i) (h2 (T.hashOf P v)))
      (update hashAt i (some (T.hashOf P v))) := by
  have hT : T.putCtrl i (cloneOf g T.capacity i) (h2 (T.hashOf P v))
      = { T with
          ctrl := (T.putCtrl i (cloneOf g T.capacity i) (h2 (T.hashOf P v))).ctrl
          slots := T.slots ∘ swap i i } := by
    rw [swap_self]
    rfl
  have hput := h.toShape.put (x := some (T.hashOf P v)) hu.lt
    (fun y hy => by cases hy; rfl) (fun hy => by cases hy)
  rw [hT] at hput ⊢
  refine h.settle hw hu (fun p hp => ?_) hput
  rw [putCtrl_apply g T _ hp, swap_self]
  rfl

/-- The element of slot `i` moves to the empty slot `q`. -/
theorem Rehashing.move
    (hu : Unsettled P g T hashAt i q v) (hempty : T.ctrl q = kEmpty) : Rehashing P g T₀
      ({ T.putCtrl q (cloneOf g T.capacity q) (h2 (T.hashOf P v)) with
          slots := T.slots ∘ swap q i }.putCtrl i (cloneOf g T.capacity i) kEmpty)
      (update hashAt q (some (T.hashOf P v))) := by
  set hash := T.hashOf P v
  set T1 : Table V := { T.putCtrl q _ (h2 hash) with
    slots := T.slots ∘ swap q i }
  have hle := h.allocated_le
  have hi := hu.lt
  have hqi : i ≠ q := fun he => absurd (he ▸ hu.deleted) (by rw [hempty]; decide)
  have hinone : hashAt i = none := (h.none_of_free (by omega) (.inr hu.deleted)).1
  have hput := h.toShape.put (x := some hash) hu.target_lt (fun y hy => by cases hy; rfl)
    (fun hy => by cases hy)
  have hput1 : Shape g T1 (update hashAt q (some hash)) := hput.congr rfl rfl rfl
  have hput2 := hput1.put (x := none) hi (fun y hy => by cases hy)
    (fun _ => .inl rfl)
  have hsame : update (update hashAt q (some hash)) i none
      = update hashAt q (some hash) := by
    rw [update_eq_self_iff, update_of_ne hqi, hinone]
  rw [hsame] at hput2
  refine h.settle hw hu (fun p hp => ?_) hput2
  show (T1.putCtrl i (cloneOf g T1.capacity i) kEmpty).ctrl p = _
  rw [putCtrl_apply g T1 _ hp]
  rw [putCtrl_apply g T _ hp, swap_apply_def]
  split_ifs with hpi hpq hpq
  · exact absurd (hpi.symm.trans hpq) hqi
  · rw [hempty]
  · rfl
  · rfl

/-- The element of slot `i` changes places with one that is not settled. -/
theorem Rehashing.exchange
    (hu : Unsettled P g T hashAt i q v) (hdel : T.ctrl q = kDeleted) : Rehashing P g T₀
      { T.putCtrl q (cloneOf g T.capacity q) (h2 (T.hashOf P v)) with slots := T.slots ∘ swap q i }
      (update hashAt q (some (T.hashOf P v))) := by
  have hput := h.toShape.put (x := some (T.hashOf P v)) hu.target_lt
    (fun y hy => by cases hy; rfl) (fun hy => by cases hy)
  refine h.settle hw hu (fun p hp => ?_) (hput.congr rfl rfl rfl)
  rw [putCtrl_apply g T _ hp, swap_apply_def]
  split_ifs with hpq hpi
  · rfl
  · rw [hpi, hu.deleted, hdel]
  · rfl

end

end

/-! ## A round of the sweep -/

theorem probeIndex_eq (hs : Shape g T hashAt) (hash : BitVec 64) (pos : ℕ) : T.probeIndex g hash pos
      = ahead (T.capacity + 1) (h1 hash % (T.capacity + 1)) pos / g.kWidth := by
  have hmask : h1 hash &&& T.capacity ≤ 2 ^ 64 :=
    Nat.and_le_right.trans (hs.le_max.trans (by decide))
  rw [probeIndex, probeH1, sizeSub_and hs.valid hs.le_max hmask, and_capacity hs.valid, Nat.mod_mod]

variable {p : ℕ}

/-- Slots with the same `probe_index` are in the same groups. -/
theorem inGroup_of_probeIndex (hs : Shape g T hashAt) (hw : g.kWidth - 1 ≤ T.capacity)
    {hash : BitVec 64} {j q : ℕ} (hin : InGroup g T.capacity (h1 hash) j p)
    (heq : T.probeIndex g hash p = T.probeIndex g hash q) : InGroup g T.capacity (h1 hash) j q := by
  rcases capacity_cases g hs.valid with ⟨hhalf, -⟩ | ⟨k, hk⟩
  · omega
  · simp only [probeIndex_eq hs] at heq
    rw [InGroup, groupOffset, ahead_offset_lt_iff hk g.kWidth_pos] at hin ⊢
    rw [← heq, hin]

theorem Unsettled.stay (hs : Shape g T hashAt) (hw : g.kWidth - 1 ≤ T.capacity)
    (hu : Unsettled P g T hashAt i q v) (heq : T.probeIndex g (T.hashOf P v) q
      = T.probeIndex g (T.hashOf P v) i) : Unsettled P g T hashAt i i v := by
  obtain ⟨hi, hdel, hv, -, -, j, hin, hbefore⟩ := hu
  exact ⟨hi, hdel, hv, hi, (hs.none_of_free (hi.le.trans hs.allocated_le) (.inr hdel)).1, j,
    inGroup_of_probeIndex hs hw hin heq, hbefore⟩

theorem findEmptySlot_spec {start stop t : ℕ} (hge : start ≤ t) (hlt : t < stop)
    (he : T.ctrl t = kEmpty) :
    ∃ p, T.findEmptySlot start stop = .ok p ∧ start ≤ p ∧ p < stop ∧ T.ctrl p = kEmpty := by
  unfold findEmptySlot
  cases hfind : (List.range' start _).find? fun i => isEmpty _ with
  | none =>
    have hnot := List.find?_eq_none.1 hfind t (List.mem_range'_1.2 ⟨hge, by omega⟩)
    exact absurd (by rw [he]; rfl) hnot
  | some p =>
    have hmem := List.mem_range'_1.1 (List.mem_of_find?_eq_some hfind)
    have hp : isEmpty (T.ctrl p) = true := List.find?_some (p := fun i => isEmpty _) hfind
    exact ⟨p, rfl, hmem.1, by omega, by simpa [isEmpty] using hp⟩

/-- What the sweep at slot `i` knows of the slots behind it and of the slot in between. -/
structure SweepOk (T : Table V) (i : ℕ) (tmp : Option ℕ) : Prop where
  le : i ≤ T.capacity
  swept : ∀ p < i, T.ctrl p ≠ kDeleted
  tmp_empty : ∀ t, tmp = some t → t < T.capacity ∧ T.ctrl t = kEmpty
  no_tmp : tmp = none → ∀ p < i, T.ctrl p ≠ kEmpty

/-- Rounds that the sweep has still to go. -/
def Sweep.togo (s : Sweep V) : ℕ := s.table.deletedCount + (s.table.capacity - s.i)

/-- The sweep stands before the end of the table, or is there. -/
def Sweep.Inv (P : Policy K V) (g : GroupImpl) (T₀ : Table V) (s : Sweep V) : Prop :=
  ∃ hashAt, Rehashing P g T₀ s.table hashAt ∧ SweepOk s.table s.i s.tmpSpaceId

/-- The element of the slot of the sweep is settled, with slot `q` free for its hash. -/
abbrev Settles (P : Policy K V) (g : GroupImpl) (T₀ : Table V) (s : Sweep V) (hash : BitVec 64)
    (q : ℕ) : Prop :=
  ∃ s', settleSlot g s hash q = .ok s' ∧ s'.Inv P g T₀ ∧ s'.togo < s.togo

variable {tmp : Option ℕ}

/-- The sweep finds an empty slot for the swap of two elements. -/
theorem SweepOk.tmpSpace_spec (hs : SweepOk T i tmp) (h : Rehashing P g T₀ T hashAt)
    (hu : Unsettled P g T hashAt i q v) (hdel : T.ctrl q = kDeleted) {c : Ctrl} (hc : c ≠ kEmpty) :
    ∃ t < T.capacity, T.ctrl t = kEmpty ∧
      (T.putCtrl q (cloneOf g T.capacity q) c).tmpSpace i tmp = .ok t := by
  have hbyte : ∀ {p}, p ≤ T.capacity →
      (T.putCtrl q (cloneOf g T.capacity q) c).ctrl p = if p = q then c else T.ctrl p :=
    fun hp => putCtrl_apply g T c hp
  cases tmp with
  | some t => exact ⟨t, (hs.tmp_empty t rfl).1, (hs.tmp_empty t rfl).2, rfl⟩
  | none =>
    -- no byte behind the sweep is empty, so one in front of it is
    obtain ⟨p, hp, he⟩ := h.exists_empty
    have hpi : i < p := by
      rcases lt_trichotomy p i with hlt | rfl | hgt
      · exact absurd he (hs.no_tmp rfl p hlt)
      · exact absurd he (by rw [hu.deleted]; decide)
      · exact hgt
    have hpq : p ≠ q := fun heq => absurd (heq ▸ he) (by rw [hdel]; decide)
    obtain ⟨t, ht, -, hlt, het⟩ := findEmptySlot_spec
      hpi hp
      (by rw [hbyte hp.le, if_neg hpq, he])
    rw [hbyte hlt.le] at het
    split_ifs at het with htq
    · exact absurd het hc
    · exact ⟨t, hlt, het, ht⟩

theorem Rehashing.setCtrlInLargeTable_eq (h : Rehashing P g T₀ T hashAt)
    (hw : g.kWidth - 1 ≤ T.capacity) (T' : Table V) (hcap : T'.capacity = T.capacity)
    (hp : p < T.capacity) (c : Ctrl) :
    T'.setCtrlInLargeTable g p c = T'.putCtrl p (cloneOf g T.capacity p) c := by
  rw [← hcap] at hw hp ⊢
  exact Table.setCtrlInLargeTable_eq (hcap ▸ h.valid) (hcap ▸ h.le_max) hw hp c

/-- Writing a full byte over a deleted one. -/
theorem deletedCount_putCtrl_full (hash : BitVec 64) (hp : p < T.capacity)
    (hdel : T.ctrl p = kDeleted) :
    (T.putCtrl p (cloneOf g T.capacity p) (h2 hash)).deletedCount < T.deletedCount := by
  have hcount := T.deletedCount_putCtrl g (h2 hash) hp
  have hnd : isDeleted (h2 hash) = false := by
    simpa [isDeleted] using (isFull_ne (h2_isFull hash)).2.1
  have hone : (isDeleted (T.ctrl p)).toNat = 1 := by rw [hdel]; rfl
  rw [hnd, hone] at hcount
  exact Nat.lt_of_succ_le hcount.le

section

variable (h : Rehashing P g T₀ T hashAt)
include h

section

variable (hw : g.kWidth - 1 ≤ T.capacity) (hs : SweepOk T i tmp)
  (hu : Unsettled P g T hashAt i q v)
include hw hs hu

theorem settleSlot_stay (hsame : T.probeIndex g (T.hashOf P v) q
      = T.probeIndex g (T.hashOf P v) i) : Settles P g T₀ ⟨T, i, tmp⟩ (T.hashOf P v) q := by
  set hash := T.hashOf P v
  have hi := lt_of_lt_of_le hu.lt h.allocated_le
  have hfull := isFull_ne (h2_isFull hash)
  have hbyte : ∀ {p}, p ≤ T.capacity →
      (T.putCtrl i (cloneOf g T.capacity i) (h2 hash)).ctrl p
        = if p = i then h2 hash else T.ctrl p := fun hp => putCtrl_apply g T _ hp
  have hcount := deletedCount_putCtrl_full (g := g) hash hi hu.deleted
  set T1 := T.putCtrl i _ (h2 hash)
  have hok : SweepOk T1 (i + 1) tmp := by
    refine ⟨hi, fun p hp => ?_, fun t ht => ?_, fun hno p hp => ?_⟩
    · rw [hbyte (by omega)]
      split_ifs with hpi
      · exact hfull.2.1
      · exact hs.swept p (by omega)
    · obtain ⟨htc, hte⟩ := hs.tmp_empty t ht
      refine ⟨htc, ?_⟩
      rw [hbyte htc.le, if_neg (fun hti => absurd (hti ▸ hte) (by rw [hu.deleted]; decide)), hte]
    · rw [hbyte (by omega)]
      split_ifs with hpi
      · exact hfull.1
      · exact hs.no_tmp hno p (by omega)
  refine ⟨⟨T1, i + 1, tmp⟩, ?_, ⟨_, h.stay hw (hu.stay h.toShape hw hsame), hok⟩, ?_⟩
  · unfold settleSlot
    simp only [if_pos hsame]
    rw [h.setCtrlInLargeTable_eq hw T rfl hi]
  · show T1.deletedCount + (T.capacity - (i + 1)) < T.deletedCount + (T.capacity - i)
    omega

section

variable (hsame : T.probeIndex g (T.hashOf P v) q ≠ T.probeIndex g (T.hashOf P v) i)
include hsame

theorem settleSlot_move (hempty : T.ctrl q = kEmpty) :
    Settles P g T₀ ⟨T, i, tmp⟩ (T.hashOf P v) q := by
  set hash := T.hashOf P v
  have hi := lt_of_lt_of_le hu.lt h.allocated_le
  have hq := lt_of_lt_of_le hu.target_lt h.allocated_le
  have hfull := isFull_ne (h2_isFull hash)
  set T1 := T.putCtrl q _ (h2 hash)
  set T2 : Table V := { T1 with slots := T.slots ∘ swap q i }
  have hmove : T1.transfer q i = .ok T2 :=
    transfer_ok hu.target_lt hu.lt ((h.occupied q hu.target_lt).2 hempty) hu.slot
  have hbyte1 : ∀ {p}, p ≤ T.capacity → T2.ctrl p = if p = q then h2 hash else T.ctrl p :=
    fun hp => putCtrl_apply g T _ hp
  have hbyte : ∀ {p}, p ≤ T.capacity → (T2.putCtrl i (cloneOf g T.capacity i) kEmpty).ctrl p
      = if p = i then kEmpty else if p = q then h2 hash else T.ctrl p := fun hp => by
    rw [← hbyte1 hp]
    exact putCtrl_apply g T2 kEmpty hp
  -- the deleted byte of slot `i` becomes empty
  have hcount1 : T2.deletedCount ≤ T.deletedCount := by
    have hcount := T.deletedCount_putCtrl g (h2 hash) hq
    have hnd : isDeleted (h2 hash) = false := by simpa [isDeleted] using hfull.2.1
    rw [hnd] at hcount
    exact Nat.le.intro hcount
  have hcount2 := Nat.le.intro (T2.deletedCount_putCtrl g kEmpty hi)
  have hok : SweepOk (T2.putCtrl i (cloneOf g T.capacity i) kEmpty) (i + 1) (some i) := by
    refine ⟨hi, fun p hp => ?_, fun t ht => ?_, fun hno => by cases hno⟩
    · rw [hbyte (by omega)]
      split_ifs with hpi hpq
      · decide
      · exact hfull.2.1
      · exact hs.swept p (by omega)
    · cases ht
      exact ⟨hi, by rw [hbyte hi.le, if_pos rfl]⟩
  refine ⟨⟨T2.putCtrl i _ kEmpty, i + 1, some i⟩, ?_, ⟨_, h.move hw hu hempty, hok⟩, ?_⟩
  · unfold settleSlot
    simp only [if_neg hsame, hempty, isEmpty, BEq.rfl, if_true]
    rw [h.setCtrlInLargeTable_eq hw T rfl hq, hmove, Except.bind,
      h.setCtrlInLargeTable_eq hw T2 rfl hi]
  · show _ + (T.capacity - (i + 1)) < T.deletedCount + (T.capacity - i)
    refine Nat.add_lt_add_of_le_of_lt (hcount2.trans hcount1) ?_
    omega

theorem settleSlot_exchange (hdel : T.ctrl q = kDeleted) :
    Settles P g T₀ ⟨T, i, tmp⟩ (T.hashOf P v) q := by
  set hash := T.hashOf P v
  have hq := lt_of_lt_of_le hu.target_lt h.allocated_le
  have hqi : i ≠ q := fun he => hsame (by rw [he])
  have hfull := isFull_ne (h2_isFull hash)
  obtain ⟨w, hwq⟩ : ∃ w, T.slots q = some w := Option.ne_none_iff_exists'.1 fun hn =>
    absurd ((h.occupied q hu.target_lt).1 hn) (by rw [hdel]; decide)
  obtain ⟨t, ht, hte, htmp⟩ := hs.tmpSpace_spec h hu hdel hfull.1
  have hta : t < T.allocated := (h.none_of_free ht.le (.inl hte)).2
  set T1 := T.putCtrl q _ (h2 hash)
  set T2 : Table V := { T1 with slots := T.slots ∘ swap q i }
  have hswap : T1.swapSlots t i q = .ok T2 :=
    swapSlots_ok hta hu.lt hu.target_lt hqi ((h.occupied t hta).2 hte) hu.slot hwq
  have hbyte : ∀ {p}, p ≤ T.capacity → T2.ctrl p = if p = q then h2 hash else T.ctrl p :=
    fun hp => putCtrl_apply g T _ hp
  have hok : SweepOk T2 i (some t) := by
    refine ⟨hs.le, fun p hp => ?_, fun t' ht' => ?_, fun hno => by cases hno⟩
    · rw [hbyte (hp.le.trans hs.le)]
      split_ifs with hpq
      · exact hfull.2.1
      · exact hs.swept p hp
    · cases ht'
      refine ⟨ht, ?_⟩
      rw [hbyte ht.le, if_neg (fun htq => absurd (htq ▸ hte) (by rw [hdel]; decide)), hte]
  refine ⟨⟨T2, i, some t⟩, ?_, ⟨_, h.exchange hw hu hdel, hok⟩, ?_⟩
  · unfold settleSlot
    simp only [if_neg hsame, hdel, show isEmpty kDeleted = false from rfl, Bool.false_eq_true,
      if_false]
    rw [h.setCtrlInLargeTable_eq hw T rfl hq, htmp, Except.bind, hswap, Except.bind]
  · have hcount : T2.deletedCount < T.deletedCount :=
      deletedCount_putCtrl_full hash hq hdel
    exact Nat.add_lt_add_right hcount _

end

end

end

/-- A round of the sweep keeps the invariant, and ends at the end of the table. -/
theorem sweepSlot_spec {s : Sweep V} (hinv : s.Inv P g T₀) (hw : g.kWidth - 1 ≤ s.table.capacity) :
    (s.i = s.table.capacity ∧ sweepSlot P g s = .ok (.done s.table)) ∨
      ∃ s', sweepSlot P g s = .ok (.next s') ∧ s'.Inv P g T₀ ∧ s'.togo < s.togo := by
  obtain ⟨T, i, tmp⟩ := s
  obtain ⟨hashAt, h, hs⟩ := hinv
  change SweepOk T i tmp at hs
  unfold sweepSlot
  by_cases hend : i = T.capacity
  · exact .inl ⟨hend, if_pos hend⟩
  right
  have hi := lt_of_le_of_ne hs.le hend
  have htogo : T.deletedCount + (T.capacity - (i + 1)) < T.deletedCount + (T.capacity - i) := by
    omega
  simp only [if_neg hend]
  by_cases hempty : T.ctrl i = kEmpty
  · refine ⟨⟨T, i + 1, some i⟩, by rw [if_pos (by rw [hempty]; rfl)], ⟨hashAt, h, hi,
      Nat.forall_lt_succ_right.2 ⟨hs.swept, by rw [hempty]; decide⟩, fun t ht => ?_,
      fun hno => by cases hno⟩, htogo⟩
    cases ht
    exact ⟨hi, hempty⟩
  rw [if_neg (by simpa [isEmpty] using hempty)]
  by_cases hdel : T.ctrl i = kDeleted
  · rw [if_neg (by rw [hdel]; decide)]
    have hia : i < T.allocated := (h.none_of_free hi.le (.inr hdel)).2
    obtain ⟨v, hv⟩ : ∃ v, T.slots i = some v :=
      Option.ne_none_iff_exists'.1 fun hn => hempty ((h.occupied i hia).1 hn)
    obtain ⟨q, j, hr, hq, hnone, hin, hbefore⟩ := findFirstNonFullFromH1_spec h.toShape hw
      h.exists_empty (h1 _)
    have hu : Unsettled P g T hashAt i q v := ⟨hia, hdel, hv, hq, hnone, j, hin, hbefore⟩
    obtain ⟨s', hstep, hrest⟩ : Settles P g T₀ ⟨T, i, tmp⟩ (T.hashOf P v) q := by
      by_cases hsame : T.probeIndex g (T.hashOf P v) q
          = T.probeIndex g (T.hashOf P v) i
      · exact settleSlot_stay h hw hs hu hsame
      · rcases h.free q hq hnone with hb | hb
        · exact settleSlot_move h hw hs hu hsame hb
        · exact settleSlot_exchange h hw hs hu hsame hb
    refine ⟨s', ?_, hrest⟩
    rw [readSlot_ok hia hv, Except.bind, findFirstNonFull, hr, Except.bind, hstep]
    rfl
  · exact ⟨⟨T, i + 1, tmp⟩, by rw [if_pos (by simpa [isDeleted] using hdel)], ⟨hashAt, h, hi,
      Nat.forall_lt_succ_right.2 ⟨hs.swept, hdel⟩, hs.tmp_empty,
      fun hno => Nat.forall_lt_succ_right.2 ⟨hs.no_tmp hno, hempty⟩⟩, htogo⟩

/-! ## The whole sweep -/

/-- A slot holds an element when its byte is full. -/
theorem Shape.isFull_iff (hs : Shape g T (T.hashes P)) :
    (p < T.capacity ∧ isFull (T.ctrl p) = true) ↔ ∃ v, T.slots p = some v := by
  constructor
  · rintro ⟨hp, hfull⟩
    obtain ⟨x, hx, -⟩ := hs.of_isFull hp.le hfull
    obtain ⟨v, hv, -⟩ := hashes_eq_some.1 hx
    exact ⟨v, hv⟩
  · rintro ⟨v, hv⟩
    obtain ⟨hlt, hb⟩ := hs.full p _ (hashes_eq_some.2 ⟨v, hv, rfl⟩)
    exact ⟨lt_of_lt_of_le hlt hs.allocated_le, hb ▸ h2_isFull _⟩

/-- The converted table is at the start of the sweep. -/
theorem Inv.rehashing (hI : Inv P g T) (hw : g.kWidth - 1 ≤ T.capacity) :
    ∃ ctrl, (T.convertDeletedToEmptyAndFullToDeleted g).blockControlBytes g T.blocked
        = { T with ctrl := ctrl } ∧ Rehashing P g T { T with ctrl := ctrl } fun _ => none := by
  obtain ⟨ctrl, heq, hm, hbytes⟩ := convert_block_spec hI.toShape hw
  have halloc : ∀ p < T.allocated, p < T.capacity ∧
      ctrl p = if isFull (T.ctrl p) then kDeleted else kEmpty := fun p hp => by
    have hpc := lt_of_lt_of_le hp hI.allocated_le
    rw [hbytes p hpc, if_neg (not_le.2 hp)]
    exact ⟨hpc, rfl⟩
  refine ⟨ctrl, heq, ⟨hI.valid, hI.large, hI.le_max, hI.blocked_le, hI.blocked_le_capacity,
    hI.blocked_large, hm, fun p hp hge => ?_, fun p x hx => (by cases hx), fun p hp _ => ?_⟩,
    rfl, rfl, rfl, rfl, ⟨Equiv.refl ℕ, fun _ _ => rfl, rfl⟩, fun p hp => ?_,
    fun p x hx => (by cases hx), fun p x hx => (by cases hx), ?_⟩
  · exact (hbytes p hp).trans (if_pos hge)
  · show ctrl p = _ ∨ ctrl p = _
    rw [(halloc p hp).2]
    split_ifs
    · exact .inr rfl
    · exact .inl rfl
  · show T.slots p = none ↔ ctrl p = kEmpty
    rw [(halloc p hp).2, ← not_iff_not, ← ne_eq, Option.ne_none_iff_exists',
      ← hI.toShape.isFull_iff]
    split_ifs with hfull
    · exact ⟨fun _ => by decide, fun _ => ⟨(halloc p hp).1, hfull⟩⟩
    · exact ⟨fun hx => absurd hx.2 hfull, fun hx => absurd rfl hx⟩
  · obtain ⟨p, hp, he⟩ := hI.exists_empty hw
    have hpa : p < T.allocated := (hI.none_of_free hp.le (.inl he)).2
    refine ⟨p, hp, ?_⟩
    show ctrl p = _
    rw [(halloc p hpa).2, he]
    rfl

/-- The sweep ends with every element settled. -/
theorem sweep_spec (h : Rehashing P g T₀ T hashAt) (hw : g.kWidth - 1 ≤ T₀.capacity) :
    ∃ T1 hashAt1, runLoop .endless (sweepSlot P g) (2 * T.capacity + 1) ⟨T, 0, none⟩ = .ok T1 ∧
      Rehashing P g T₀ T1 hashAt1 ∧ ∀ p < T1.capacity, T1.ctrl p ≠ kDeleted := by
  let inv : ℕ → Sweep V → Prop := fun k s => s.Inv P g T₀ ∧ s.togo = k
  let post : Table V → Prop := fun T1 => ∃ hashAt1, Rehashing P g T₀ T1 hashAt1 ∧
    ∀ p < T1.capacity, T1.ctrl p ≠ kDeleted
  have hround : ∀ k s, inv k s → (∃ a, sweepSlot P g s = .ok (.done a) ∧ post a) ∨
      ∃ s' k', sweepSlot P g s = .ok (.next s') ∧ inv k' s' ∧ k' < k := by
    rintro k s ⟨hinv, rfl⟩
    have hcap : s.table.capacity = T₀.capacity := by
      obtain ⟨hashAt', h', -⟩ := hinv
      exact h'.capacity
    rcases sweepSlot_spec hinv (hcap ▸ hw) with ⟨hend, hr⟩ | ⟨s', hr, hinv', hlt⟩
    · obtain ⟨hashAt', h', hs⟩ := hinv
      exact .inl ⟨_, hr, hashAt', h', hend ▸ hs.swept⟩
    · exact .inr ⟨s', _, hr, ⟨hinv', rfl⟩, hlt⟩
  have hstart : inv (T.deletedCount + T.capacity) ⟨T, 0, none⟩ :=
    ⟨⟨hashAt, h, Nat.zero_le _, nofun,
      fun _ ht => (by cases ht), fun _ _ hp => absurd hp (Nat.not_lt_zero _)⟩, rfl⟩
  have hdel : T.deletedCount ≤ T.capacity := by
    rw [deletedCount]
    exact (card_filter_le _ _).trans (card_range _).le
  obtain ⟨T1, hr, hashAt1, hpost⟩ := runLoop_total Fault.endless hround (2 * T.capacity + 1) _ _
    hstart (by omega)
  exact ⟨T1, hashAt1, hr, hpost⟩

/-- At the end the settled elements are all elements. -/
theorem Rehashing.hashes_eq (hI : Inv P g T₀) (h : Rehashing P g T₀ T hashAt)
    (hdone : ∀ p < T.capacity, T.ctrl p ≠ kDeleted) : T.hashes P = hashAt := by
  funext p
  cases hx : hashAt p with
  | some x => exact h.settled_hash p x hx
  | none =>
    rw [hashes_eq_none]
    by_cases hp : p < T.allocated
    · have hpc := lt_of_lt_of_le hp h.allocated_le
      exact (h.occupied p hp).2 ((h.free p hp hx).resolve_right (hdone p hpc))
    obtain ⟨σ, hfix, hσ⟩ := h.permuted
    have halloc : T₀.allocated ≤ p := by
      rw [allocated, ← h.capacity, ← h.blocked]
      exact not_lt.1 hp
    rw [hσ, comp_apply, hfix p halloc]
    by_contra hn
    obtain ⟨v, hv⟩ := Option.ne_none_iff_exists'.1 hn
    have := (hI.full p _ (hashes_eq_some.2 ⟨v, hv, rfl⟩)).1
    omega

theorem Rehashing.fullCount_eq (hI : Inv P g T₀) (h : Rehashing P g T₀ T (T.hashes P)) :
    T.fullCount = T₀.fullCount := by
  obtain ⟨σ, -, hσ⟩ := h.permuted
  unfold fullCount countCtrl
  refine card_equiv σ fun p => ?_
  simp only [mem_filter, mem_range, h.isFull_iff, hI.toShape.isFull_iff, hσ]
  rfl

theorem Rehashing.elements_eq (h : Rehashing P g T₀ T hashAt) : T.elements = T₀.elements := by
  obtain ⟨σ, hfix, hσ⟩ := h.permuted
  have hle : T₀.allocated ≤ T₀.capacity := Nat.sub_le _ _
  have hrange : (Multiset.range T₀.capacity).map σ = Multiset.range T₀.capacity := by
    have hmap : (range T₀.capacity).map σ.toEmbedding = range T₀.capacity := by
      refine eq_of_subset_of_card_le (fun p hp => ?_) (by rw [card_map])
      obtain ⟨a, ha, rfl⟩ := mem_map.1 hp
      rw [mem_range] at ha ⊢
      by_contra hge
      -- a slot past the end would come from itself
      have hfar := hfix (σ a) (hle.trans (not_lt.1 hge))
      have := σ.injective hfar
      exact hge (by rw [coe_toEmbedding, this]; exact ha)
    have hval := congrArg val hmap
    rwa [map_val] at hval
  rw [elements, elements, hσ, h.capacity]
  conv_rhs => rw [← hrange, Multiset.filterMap_map]

/-- At the end of the sweep the table is arranged for its elements, without deleted bytes. -/
theorem Rehashing.arranged (hI : Inv P g T₀) (h : Rehashing P g T₀ T hashAt)
    (hdone : ∀ p < T.capacity, T.ctrl p ≠ kDeleted) :
    Arranged g T (T.hashes P) ∧ T.UniqueKeys P ∧ T.deletedCount = 0 := by
  have hhashes := h.hashes_eq hI hdone
  subst hhashes
  have hsize : T.size = T.fullCount := by rw [h.fullCount_eq hI, ← hI.size_eq, h.size]
  refine ⟨⟨h.toShape, hsize, fun p x hx => (h.settled p x hx).mono fun _ hst => hst.hasFree⟩, ?_,
    countCtrl_eq_zero fun p hp => by simpa [isDeleted] using hdone p hp⟩
  obtain ⟨σ, -, hσ⟩ := h.permuted
  intro i j v w hv hw heq
  rw [hσ] at hv hw
  exact σ.injective (hI.unique _ _ v w hv hw heq)

/-- A slot is taken in a table without deleted bytes, and the growth info set anew. -/
theorem Arranged.reserve (h : Arranged g T hashAt) (hw : g.kWidth - 1 ≤ T.capacity)
    (hdel : T.deletedCount = 0) {gi : GrowthInfo} {left : ℕ} (hgi : gi.Counts T.capacity false left)
    (hleft : left + (T.size + 1) + T.blocked = capacityToGrowth g T.capacity)
    (newHash : BitVec 64) : ∃ p, T.findFirstNonFull g newHash = .ok p ∧
      Placed g T hashAt newHash ({ T with size := T.size + 1, growthInfo := gi }.putCtrl p
        (cloneOf g T.capacity p) (h2 newHash)) p := by
  have hsize := h.size_eq
  have hcount := h.count_add
  have hlt := capacityToGrowth_lt hw
  obtain ⟨p, j, hr, hp, hnone, hin, hbefore⟩ := findFirstNonFullFromH1_spec h.toShape hw
    (exists_of_emptyCount_pos (by omega)) (h1 newHash)
  have hempty : T.ctrl p = kEmpty := by
    refine (h.free p hp hnone).resolve_right fun hd => ?_
    have hmem : p ∈ (range T.capacity).filter fun i => isDeleted (T.ctrl i) = true :=
      mem_filter.2 ⟨mem_range.2 (lt_of_lt_of_le hp h.allocated_le), by rw [hd]; rfl⟩
    rw [deletedCount, countCtrl, card_eq_zero] at hdel
    rw [hdel] at hmem
    exact absurd hmem (notMem_empty p)
  refine ⟨p, hr, h.place hp hnone hin (fun k hk hst => hbefore k hk hst.hasFree) hgi ?_
    (fun hpos => by omega) (fun hd => by cases hd)⟩
  have hone : (isEmpty (T.ctrl p)).toNat = 1 := by rw [hempty]; rfl
  omega

/-- The slot is the one that `find_first_non_full` gives for a table with the same bytes. -/
theorem takeFirstNonFull_eq {T' T'' : Table V} {hash : BitVec 64}
    (hr : T.findFirstNonFull g hash = .ok p) (hcap : T'.capacity = T.capacity)
    (hctrl : T'.ctrl = T.ctrl) (hset : T'.setCtrlInLargeTable g p (h2 hash) = T'') :
    T'.takeFirstNonFull g hash = .ok (T'', p) := by
  have hsame : T'.findFirstNonFull g hash = T.findFirstNonFull g hash := by
    obtain ⟨cap, blocked, size, seed, gi, ctrl, slots⟩ := T
    subst hcap hctrl
    rfl
  rw [takeFirstNonFull, hsame, hr, Except.map, hset]

/-- The limit on the size for a rehash in place leaves room for another element. -/
theorem lt_capacityToGrowth {cap size blocked : ℕ} (hcap : isValidCapacity cap = true)
    (hmulti : isSingleGroup g cap = false) (hblocked : blocked ≤ kMaxBlockedElementsForLargeTables)
    (hsize : size * 32 ≤ (cap - kMaxBlockedElementsForLargeTables) * 25) :
    size + 1 + blocked ≤ capacityToGrowth g cap := by
  have hlt : g.kWidth < cap := by simpa [isSingleGroup] using hmulti
  have hw := g.kWidth_eq
  have h15 : 15 ≤ cap := by
    rcases capacity_cases g hcap with ⟨hhalf, -⟩ | ⟨k, hk⟩
    · omega
    · rcases Nat.eq_zero_or_pos k with rfl | hpos
      · omega
      · have : 2 ≤ 2 ^ k := Nat.le_self_pow (by omega) 2
        have : g.kWidth * 2 ≤ g.kWidth * 2 ^ k := Nat.mul_le_mul_left _ this
        omega
  unfold capacityToGrowth kMaxCapacityForLoadFactorOne
  unfold kMaxBlockedElementsForLargeTables at hblocked hsize
  split_ifs <;> omega

/-- The rehash in place : the sweep ends with a table `T₁` that has the elements of `T` in
another order, and in it a slot is taken for the new hash. -/
theorem Inv.dropDeletes (hI : Inv P g T) (newHash : BitVec 64)
    (hmulti : isSingleGroup g T.capacity = false)
    (hsize : T.size * 32 ≤ (T.capacity - kMaxBlockedElementsForLargeTables) * 25) :
    ∃ T1 T' i, T.dropDeletesWithoutResizeAndPrepareInsert P g newHash = .ok (T', i) ∧
      Rehashing P g T T1 (T1.hashes P) ∧ T1.UniqueKeys P ∧
      (∀ p < T.capacity, T1.ctrl p ≠ kDeleted) ∧ Placed g T1 (T1.hashes P) newHash T' i ∧
      (∀ p < T.capacity, T'.ctrl p = if p = i then h2 newHash else T1.ctrl p) ∧
      T'.size = T.size + 1 ∧
      T'.growthInfo.getGrowthLeftTotalSlow T.capacity + T'.size + T.blocked
        = capacityToGrowth g T.capacity := by
  have hlt : g.kWidth < T.capacity := by simpa [isSingleGroup] using hmulti
  have hw : g.kWidth - 1 ≤ T.capacity := by omega
  have hroom := lt_capacityToGrowth hI.valid hmulti (hI.blocked_large hlt) hsize
  obtain ⟨ctrl, hconvert, hstart⟩ := hI.rehashing hw
  obtain ⟨T1, hashAt, hsweep, h, hdone⟩ := sweep_spec hstart hw
  obtain rfl := h.hashes_eq hI hdone
  obtain ⟨harr, hunique, hdel⟩ := h.arranged hI hdone
  rw [← h.capacity] at hw
  rw [← h.capacity, ← h.blocked, ← h.size] at hroom ⊢
  obtain ⟨gi, hgi, hreset⟩ : ∃ gi,
      gi.Counts T1.capacity false
        (capacityToGrowth g T1.capacity - (T1.size + 1 + T1.blocked)) ∧
      (T1.prepareInsertCommon).resetGrowthLeft g (T1.size + 1 + T1.blocked)
        = { T1 with size := T1.size + 1, growthInfo := gi } :=
    ⟨_, T1.growthInfo.counts_init ((Nat.sub_le _ _).trans (capacityToGrowth_le g T1.capacity))
      h.le_max, resetGrowthLeft_eq hroom h.le_max⟩
  obtain ⟨p, hr, hp⟩ := harr.reserve hw hdel hgi (by omega) newHash
  have hpc := lt_of_lt_of_le hp.lt h.allocated_le
  refine ⟨T1, _, p, ?_, h, hunique, hdone, hp, fun x hx => ?_, rfl, ?_⟩
  · unfold dropDeletesWithoutResizeAndPrepareInsert
    rw [hconvert]
    simp only [hsweep]
    show (T1.prepareInsertCommon.resetGrowthLeft g (T1.size + 1 + T1.blocked)).takeFirstNonFull g
      newHash = _
    rw [hreset]
    exact takeFirstNonFull_eq hr rfl rfl (h.setCtrlInLargeTable_eq hw
      { T1 with size := T1.size + 1, growthInfo := gi } rfl hpc _)
  · exact put_apply T1.ctrl (h2 newHash) hx.le
  · show gi.getGrowthLeftTotalSlow T1.capacity + (T1.size + 1) + T1.blocked = _
    rw [hgi.total]
    omega

end Settle

end Table

open Table

/-- Rehashing in place is a terminating permutation of the elements that restores the lookup
invariant : for every table of several groups with the lookup invariant and a size within
the limit, the sweep ends without a fault, which means that no blocked slot is used and that
the slot in between is free at every swap. It leaves no deleted byte and the same elements,
each at a slot with its `H2`, and a slot is reserved for the new hash. Constructing an
element with that hash and a new key there gives the lookup invariant again. -/
theorem dropDeletesWithoutResizeAndPrepareInsert_correct {K V : Type*} (P : Policy K V)
    (g : GroupImpl) {T : Table V} (newHash : BitVec 64) (hI : Table.Inv P g T)
    (hmulti : isSingleGroup g T.capacity = false)
    (hsize : T.size * 32 ≤ (T.capacity - kMaxBlockedElementsForLargeTables) * 25) :
    ∃ T' i, T.dropDeletesWithoutResizeAndPrepareInsert P g newHash = .ok (T', i) ∧
      -- no deleted byte, and the elements permuted, each under its `H2`
      (∀ p < T.capacity, T'.ctrl p ≠ kDeleted) ∧
      (∃ σ : Equiv.Perm ℕ, (∀ p, T.allocated ≤ p → σ p = p) ∧ T'.slots = T.slots ∘ σ) ∧
      T'.elements = T.elements ∧
      (∀ p v, T'.slots p = some v → T'.ctrl p = h2 (P.hash T.seed (P.keyOf v))) ∧
      -- the slot for the new element, the blocked slots and the counts
      (i < T.allocated ∧ T'.slots i = none ∧ T'.ctrl i = h2 newHash) ∧
      (T'.capacity = T.capacity ∧ T'.blocked = T.blocked ∧ T'.seed = T.seed ∧
        ∀ p < T.capacity, T.allocated ≤ p → T'.ctrl p = kSentinel) ∧
      T'.size = T.size + 1 ∧
      T'.growthInfo.getGrowthLeftTotalSlow T.capacity + T'.size + T.blocked
        = capacityToGrowth g T.capacity ∧
      -- the lookup invariant, with the new slot taken and with an element in it
      Table.Layout g T' (update (T'.hashes P) i (some newHash)) ∧
      ∀ v, P.hash T.seed (P.keyOf v) = newHash → (∀ p, ¬T.HasKey P (P.keyOf v) p) →
        ∃ T'', T'.constructSlot i v = .ok T'' ∧ Table.Inv P g T'' := by
  obtain ⟨T₁, T', i, hr, h, hunique, hdone, hp, hctrl, hsize', hgrowth⟩ :=
    hI.dropDeletes newHash hmulti hsize
  have hfull := isFull_ne (h2_isFull newHash)
  have halloc : T₁.allocated = T.allocated := by rw [allocated, allocated, h.capacity, h.blocked]
  have hle := hI.allocated_le
  have hi := halloc ▸ hp.lt
  have hnone := hashes_eq_none.1 hp.free
  have hhashes : T'.hashes P = T₁.hashes P := by
    unfold hashes
    rw [hp.slots, hp.seed]
  refine ⟨T', i, hr, fun p hpc => ?_, hp.slots ▸ h.permuted, ?_, fun p v hv => ?_,
    ⟨hi, hp.slots ▸ hnone, ?_⟩, ⟨hp.capacity.trans h.capacity, hp.blocked.trans h.blocked,
      hp.seed.trans h.seed, fun p hpc hge => ?_⟩, hsize', hgrowth, hhashes ▸ hp.layout,
    fun v hv habsent => ?_⟩
  · rw [hctrl p hpc]
    split_ifs
    · exact hfull.2.1
    · exact hdone p hpc
  · rw [← h.elements_eq, elements, elements, hp.slots, hp.capacity]
  · rw [hp.slots] at hv
    have hpi : p ≠ i := fun he => by rw [he, hnone] at hv; cases hv
    obtain ⟨hlt, hb⟩ := h.full p _ (hashes_eq_some.2 ⟨v, hv, rfl⟩)
    rw [hctrl p (by omega), if_neg hpi, hb, h.seed]
  · rw [hctrl i (by omega), if_pos rfl]
  · rw [hctrl p hpc, if_neg (by omega)]
    exact h.blocked_byte p (h.capacity ▸ hpc) (halloc ▸ hge)
  rw [← hv, ← h.seed] at hp
  have habsent₁ : ∀ p, ¬T₁.HasKey P (P.keyOf v) p := by
    rintro p ⟨w, hw, heq⟩
    obtain ⟨σ, -, hσ⟩ := h.permuted
    rw [hσ] at hw
    exact habsent (σ p) ⟨w, hw, heq⟩
  obtain ⟨hok, hinv⟩ := hunique.constructSlot hp habsent₁
  exact ⟨_, hok, hinv⟩

/-- A table of two groups, from which the fourth of the numbers `0, ..., 7` is erased. -/
def tombstoneTable : Table ℕ where
  capacity := 15
  blocked := 0
  size := 7
  seed := 0
  growthInfo := ⟨0x86#8, 0⟩
  ctrl p := if p = 15 then kSentinel else if p % 16 = 3 then kDeleted
    else if p % 16 < 8 then 0#8 else kEmpty
  slots p := if p < 8 ∧ p ≠ 3 then some p else none

theorem inv_tombstoneTable : Table.Inv natPolicy .portable tombstoneTable := by
  have hslot : ∀ {i v}, tombstoneTable.slots i = some v → i < 8 ∧ i ≠ 3 ∧ v = i := by
    intro i v hv
    change (if i < 8 ∧ i ≠ 3 then some i else none) = some v at hv
    split_ifs at hv with hi
    cases hv
    exact ⟨hi.1, hi.2, rfl⟩
  have hhash : ∀ {i h}, tombstoneTable.hashes natPolicy i = some h →
      i < 8 ∧ i ≠ 3 ∧ h = BitVec.ofNat 64 i := by
    intro i h hh
    obtain ⟨v, hv, rfl⟩ := hashes_eq_some.1 hh
    obtain ⟨hi, h3, rfl⟩ := hslot hv
    exact ⟨hi, h3, rfl⟩
  refine ⟨⟨⟨⟨by decide, by decide, by decide, by decide, by decide, by decide,
    ⟨rfl, by decide⟩, by decide, fun i h hh => ?_, by decide⟩, by decide, fun i h hh => ?_⟩,
    ⟨true, 6, ⟨by decide, by decide, by decide⟩, by decide, by decide, by decide⟩⟩,
    fun i j v w hv hw heq => ?_⟩
  · obtain ⟨hi, h3, rfl⟩ := hhash hh
    interval_cases i <;> first | omega | decide
  · obtain ⟨hi, -, rfl⟩ := hhash hh
    refine ⟨0, ?_, nofun⟩
    unfold InGroup
    interval_cases i <;> decide
  · obtain ⟨-, -, rfl⟩ := hslot hv
    obtain ⟨-, -, rfl⟩ := hslot hw
    exact beq_iff_eq.1 heq

theorem dropDeletesWithoutResizeAndPrepareInsert_tombstoneTable : tombstoneTable.deletedCount = 1 ∧
      ∃ T' i, tombstoneTable.dropDeletesWithoutResizeAndPrepareInsert natPolicy .portable 3#64
          = .ok (T', i) ∧
        (∀ p < 15, T'.ctrl p ≠ kDeleted) ∧ T'.elements = tombstoneTable.elements := by
  obtain ⟨T', i, hr, hdone, -, helements, -⟩ := dropDeletesWithoutResizeAndPrepareInsert_correct
    natPolicy .portable 3#64 inv_tombstoneTable (by decide) (by decide)
  exact ⟨by decide, T', i, hr, hdone, helements⟩

end Abseil.Swiss
