import Abseil.Loop
import Abseil.SwissCapacity

/-!
# The table

`raw_hash_set` past its inline slot : control bytes, slots, a size and the growth info,
with lookup, insertion into a free slot and erasure. The hash function and the equality of
the keys come from a `Policy`, which carries the promise its users make, that equal keys
have equal hashes.

The control bytes are a function of their index. A slot holds an element or nothing, and
is used through `readSlot`, `constructSlot` and `destroySlot`. They fail with a `Fault`
when the slot is outside of the allocation, which ends before the blocked slots, when an
element is read that is not there, or when one is constructed over another. A loop that
does not end is a fault as well.
-/

namespace Abseil.Swiss

open Function BoundedLoop GrowthInfoLowerBound

/-- Equality and hashing of a table's keys. -/
structure Policy (K V : Type*) where
  /-- `PolicyTraits::key` of a slot's value. -/
  keyOf : V → K
  /-- `hash_of`, which mixes in the seed of the table. -/
  hash : ℕ → K → BitVec 64
  /-- `key_equal`. -/
  eq : K → K → Bool
  eq_refl : ∀ a, eq a a = true
  eq_symm : ∀ a b, eq a b = true → eq b a = true
  eq_trans : ∀ a b c, eq a b = true → eq b c = true → eq a c = true
  hash_eq : ∀ s a b, eq a b = true → hash s a = hash s b

/-- What must not happen. -/
inductive Fault
  /-- A slot outside of the allocated ones is used. -/
  | unallocated (i : ℕ)
  /-- A slot without an element is read. -/
  | unconstructed (i : ℕ)
  /-- An element is constructed over another. -/
  | occupied (i : ℕ)
  /-- A loop goes on for ever. -/
  | endless
  /-- A buffer is written past its end. -/
  | overrun
  /-- `ABSL_UNREACHABLE`. -/
  | unreachable
  deriving DecidableEq, Repr

/-- `CommonFields` with the backing array. -/
structure Table (V : Type*) where
  capacity : ℕ
  /-- `blocked_element_count`, the slots at the end that are not allocated. -/
  blocked : ℕ
  size : ℕ
  seed : ℕ
  growthInfo : GrowthInfo
  ctrl : ℕ → Ctrl
  slots : ℕ → Option V

/-- `H1`. -/
def h1 (hash : BitVec 64) : ℕ := hash.toNat

/-- `H2`, the seven most significant bits. -/
def h2 (hash : BitVec 64) : Ctrl := (hash >>> 57).setWidth 8

/-- Subtraction of `size_t`. -/
def sizeSub (a b : ℕ) : ℕ := (a + (2 ^ 64 - b)) % 2 ^ 64

/-! ## Probe sequences -/

/-- `probe_seq`. -/
structure ProbeSeq where
  capacity : ℕ
  offset : ℕ
  index : ℕ

namespace ProbeSeq

/-- `offset(i)`. -/
def offsetAt (seq : ProbeSeq) (i : ℕ) : ℕ := (seq.offset + i) &&& seq.capacity

/-- `next`. -/
def next (g : GroupImpl) (seq : ProbeSeq) : ProbeSeq :=
  let index := seq.index + g.kWidth
  { seq with index := index, offset := (seq.offset + index) &&& seq.capacity }

end ProbeSeq

/-- `probe_h1`. -/
def probeH1 (capacity h1 : ℕ) : ProbeSeq := ⟨capacity, h1 &&& capacity, 0⟩

namespace Table

variable {K V : Type*} (P : Policy K V) (g : GroupImpl) (T : Table V)

/-! ## Slots -/

/-- The slots of the backing array, `capacity - blocked_element_count` of
`RawHashSetLayout`. -/
def allocated : ℕ := T.capacity - T.blocked

/-- The element of a slot. -/
def readSlot (i : ℕ) : Except Fault V :=
  if i < T.allocated then
    match T.slots i with
    | some v => .ok v
    | none => .error (.unconstructed i)
  else .error (.unallocated i)

/-- An element is constructed in a slot. -/
def constructSlot (i : ℕ) (v : V) : Except Fault (Table V) :=
  if i < T.allocated then
    match T.slots i with
    | some _ => .error (.occupied i)
    | none => .ok { T with slots := update T.slots i (some v) }
  else .error (.unallocated i)

/-- The element of a slot is destroyed. -/
def destroySlot (i : ℕ) : Except Fault (Table V) :=
  if i < T.allocated then
    match T.slots i with
    | some _ => .ok { T with slots := update T.slots i none }
    | none => .error (.unconstructed i)
  else .error (.unallocated i)

/-! ## Control bytes -/

/-- The control bytes from `ctrl + offset` on. -/
def group (offset : ℕ) : ℕ → Ctrl := fun i => T.ctrl (offset + i)

/-- Write control byte `i` and the byte at `clone`. -/
def putCtrl (i clone : ℕ) (h : Ctrl) : Table V :=
  { T with ctrl := update (update T.ctrl i h) clone h }

/-- `SetCtrl`. -/
def setCtrl (i : ℕ) (h : Ctrl) : Table V :=
  T.putCtrl i
    ((sizeSub i (numClonedBytes g) &&& T.capacity) + (numClonedBytes g &&& T.capacity)) h

/-- `SetCtrlInSingleGroupTable`. -/
def setCtrlInSingleGroupTable (i : ℕ) (h : Ctrl) : Table V :=
  T.putCtrl i (i + T.capacity + 1) h

/-- `SetCtrlInLargeTable`. -/
def setCtrlInLargeTable (i : ℕ) (h : Ctrl) : Table V :=
  T.putCtrl i ((sizeSub i (numClonedBytes g) &&& T.capacity) + numClonedBytes g) h

/-! ## Lookup -/

/-- The first of the slots `is` with a key equal to `key`. -/
def findEqual (P : Policy K V) (T : Table V) (key : K) : List ℕ → Except Fault (Option ℕ)
  | [] => .ok none
  | i :: is =>
    match T.readSlot i with
    | .error e => .error e
    | .ok v => if P.eq key (P.keyOf v) then .ok (some i) else T.findEqual P key is

/-- How the search for a key ends : at a slot that holds an equal key, or at a group with
an empty byte. -/
inductive Search
  | found (i : ℕ)
  | absent (seq : ProbeSeq)

/-- A round of the search of `find_large` and `find_or_prepare_insert_large`. -/
def searchGroup (key : K) (h2 : Ctrl)
    (seq : ProbeSeq) : Except Fault (Round ProbeSeq Search) :=
  match T.findEqual P key ((g.match (T.group seq.offset) h2).toList.map seq.offsetAt) with
  | .error e => .error e
  | .ok (some i) => .ok (.done (.found i))
  | .ok none =>
    if (g.maskEmpty (T.group seq.offset)).toBool then .ok (.done (.absent seq))
    else .ok (.next (seq.next g))

/-- The search of `find_large` and `find_or_prepare_insert_large`. -/
def search (key : K) : Except Fault Search :=
  let hash := P.hash T.seed key
  runLoop .endless (T.searchGroup P g key (h2 hash)) (T.capacity + 1)
    (probeH1 T.capacity (h1 hash))

/-- `find_large` : the slot with the key, `none` for `end()`. -/
def findLarge (key : K) :
    Except Fault (Option ℕ) :=
  match T.search P g key with
  | .error e => .error e
  | .ok (.found i) => .ok (some i)
  | .ok (.absent _) => .ok none

/-! ## Insertion -/

/-- A round of `probe_till_first_non_full_group`. -/
def probeNonFull (seq : ProbeSeq) :
    Except Fault (Round ProbeSeq ℕ) :=
  let mask := g.maskEmptyOrDeleted (T.group seq.offset)
  if mask.toBool then .ok (.done (seq.offsetAt mask.lowestBitSet))
  else .ok (.next (seq.next g))

/-- `find_first_non_full_from_h1`. -/
def findFirstNonFullFromH1 (h1 : ℕ) : Except Fault ℕ :=
  let seq := probeH1 T.capacity h1
  if isEmptyOrDeleted (T.ctrl seq.offset) then .ok seq.offset
  else runLoop .endless (T.probeNonFull g) (T.capacity + 1) seq

/-- `find_first_non_full`. -/
def findFirstNonFull (hash : BitVec 64) : Except Fault ℕ :=
  T.findFirstNonFullFromH1 g (h1 hash)

/-- `PrepareInsertCommon`. -/
def prepareInsertCommon : Table V := { T with size := T.size + 1 }

/-- What the preparation of an insertion comes to : a slot is taken, or there is no growth
left and the table has to grow, or it has to be rehashed or grow. -/
inductive Prepared (V : Type*)
  | placed (T : Table V) (i : ℕ)
  | grow (T : Table V)
  | rehashOrGrow (T : Table V)

/-- `PrepareInsertLargeSlow`, up to the calls that grow or rehash. -/
def prepareInsertLargeSlow (hash : BitVec 64) :
    Except Fault (Prepared V) :=
  let gi := T.growthInfo.rebalanceGrowthLeftLowerBound T.capacity
  let T := { T with growthInfo := gi }
  if hasNoGrowthLeftAndNoDeleted gi.lowerBound then .ok (.grow T)
  else if hasNoGrowthLeftAndHaveDeleted gi.lowerBound then .ok (.rehashOrGrow T)
  else
    match T.findFirstNonFull g hash with
    | .error e => .error e
    | .ok target =>
      let T := T.prepareInsertCommon
      let T := { T with growthInfo := gi.overwriteControlAsFull (T.ctrl target) }
      .ok (.placed (T.setCtrlInLargeTable g target (h2 hash)) target)

/-- `PrepareInsertLargeImpl` for the group at `targetGroup`, which has an empty byte. -/
def prepareInsertLarge (hash : BitVec 64) (targetGroup : ℕ) :
    Except Fault (Prepared V) :=
  if !hasNoDeletedAndGrowthLeft T.growthInfo.lowerBound then T.prepareInsertLargeSlow g hash
  else
    let target :=
      (targetGroup + (g.maskEmpty (T.group targetGroup)).lowestBitSet) &&& T.capacity
    let T := T.prepareInsertCommon
    let T := { T with growthInfo := T.growthInfo.overwriteEmptyAsFull }
    .ok (.placed (T.setCtrl g target (h2 hash)) target)

/-- What `find_or_prepare_insert_large` reports. -/
inductive FindOrPrepare (V : Type*)
  | existing (i : ℕ)
  | prepared (r : Prepared V)

/-- `find_or_prepare_insert_large`. -/
def findOrPrepareInsertLarge (key : K) :
    Except Fault (FindOrPrepare V) :=
  match T.search P g key with
  | .error e => .error e
  | .ok (.found i) => .ok (.existing i)
  | .ok (.absent seq) =>
    (T.prepareInsertLarge g (P.hash T.seed key) seq.offset).map .prepared

/-! ## Erasure -/

/-- `WasNeverFull`. -/
def wasNeverFull (index : ℕ) : Bool :=
  if isSingleGroup g T.capacity then true
  else
    let indexBefore := sizeSub index g.kWidth &&& T.capacity
    let emptyAfter := g.maskEmpty (T.group index)
    let emptyBefore := g.maskEmpty (T.group indexBefore)
    -- consecutive non-empty bytes to the right and to the left of the slot
    emptyBefore.toBool && emptyAfter.toBool &&
      decide (emptyAfter.trailingZeros + emptyBefore.leadingZeros < g.kWidth)

/-- `EraseMetaOnlyLarge`. -/
def eraseMetaOnlyLarge (index : ℕ) : Table V :=
  let T := { T with size := T.size - 1 }
  if T.wasNeverFull g index then
    let T := T.setCtrl g index kEmpty
    { T with growthInfo := T.growthInfo.overwriteFullAsEmpty }
  else
    let T := { T with growthInfo := T.growthInfo.overwriteFullAsDeleted }
    T.setCtrlInLargeTable g index kDeleted

/-- `erase` of an iterator at slot `i`. -/
def erase (i : ℕ) : Except Fault (Table V) :=
  match T.destroySlot i with
  | .error e => .error e
  | .ok T => .ok (T.eraseMetaOnlyLarge g i)

/-! ## Initial control bytes -/

/-- `BlockControlBytes`, which blocks the last `count` slots. -/
def blockControlBytes (g : GroupImpl) (T : Table V) : ℕ → Table V
  | 0 => T
  | count + 1 => (T.setCtrl g (T.capacity - (count + 1)) kSentinel).blockControlBytes g count

/-- `std::memset` of `len` control bytes from `start` on. -/
def memset (ctrl : ℕ → Ctrl) (start len : ℕ) (c : Ctrl) : ℕ → Ctrl :=
  fun p => if start ≤ p ∧ p < start + len then c else ctrl p

/-- The control bytes `ResetCtrl` sets to `kEmpty`. -/
def emptyCtrl (capacity : ℕ) (ctrl : ℕ → Ctrl) : ℕ → Ctrl :=
  let kTwoGroupCapacity := 2 * g.kWidth - 1
  if capacity ≤ kTwoGroupCapacity then
    let ctrl := memset ctrl 0 g.kWidth kEmpty
    let ctrl := memset ctrl capacity g.kWidth kEmpty
    if capacity = kTwoGroupCapacity then memset ctrl g.kWidth g.kWidth kEmpty else ctrl
  else memset ctrl 0 (capacity + 1 + numClonedBytes g) kEmpty

/-- `ResetCtrl` of a table that is not small. -/
def resetCtrl (blocked : ℕ) : Table V :=
  let ctrl := emptyCtrl g T.capacity T.ctrl
  { T with ctrl := update ctrl T.capacity kSentinel }.blockControlBytes g blocked

/-- `ResetGrowthLeft`. -/
def resetGrowthLeft (occupied : ℕ) : Table V :=
  let growthLeft := sizeSub (capacityToGrowth g T.capacity) occupied
  { T with growthInfo := T.growthInfo.initGrowthLeftNoDeleted growthLeft T.capacity }

end Table

end Abseil.Swiss
