import Abseil.Throwing

/-!
# The storage of `InlinedVector`

The elements of a vector are in the vector itself or in a block of the heap. The memory is slots
that hold an object or nothing; an object that was moved from has no value. The union of the inlined
elements and of the allocation (pointer and capacity) is overwritten by whichever is written last :
constructing an inlined element loses the allocation, and writing the allocation over a living
element is a fault. Faults are also : to construct over an object, to use or to destroy what is not
one, to free a block twice, with another capacity or with an object in it.

The operations on elements that the type may implement throw; destructors and the allocator do not.
An object of a type that is trivially destructible ends where `DestroyElements` would destroy it.

Sizes and capacities are natural numbers. The source computes `size + insert_count` and
`2 * capacity` in `size_type` and keeps the size in a word together with the allocation bit, so a
world stands for one of the program as long as these stay below `2 ^ 64` and the sizes below
`2 ^ 63`.
-/

namespace Abseil.InlinedVector

open Function Throwing

/-! ## The memory -/

/-- The inlined slots of a vector, or a block of the heap. -/
inductive Place
  | inlined (s : ℕ)
  | heap (id : ℕ)
  deriving DecidableEq

/-- `metadata_`. -/
structure Storage where
  size : ℕ
  isAllocated : Bool

/-- The slots, the capacities of the blocks in use, and for each vector its metadata and the
allocation in its union. -/
structure World (T : Type) where
  mem : Place → ℕ → Option (Option T)
  cap : ℕ → Option ℕ
  fresh : ℕ
  storage : ℕ → Storage
  allocated : ℕ → Option (ℕ × ℕ)

/-- `SwapInlinedElementsPolicy`. -/
inductive SwapPolicy
  | memcpy
  | elementwiseSwap
  | elementwiseConstruct

/-- The inlined capacity, and what the code asks of the type of the elements and the allocator. -/
structure Config where
  inlinedCapacity : ℕ
  triviallyCopyConstructible : Bool
  triviallyRelocatable : Bool
  swapPolicy : SwapPolicy
  pos : 0 < inlinedCapacity

variable {T : Type}

/-- An operation on the memory. -/
abbrev Op (T α : Type) := Prog (World T) α

namespace World

variable (w : World T)

/-- A slot is overwritten. -/
def set (p : Place) (i : ℕ) (x : Option (Option T)) : World T :=
  { w with mem := fun q j => if q = p ∧ j = i then x else w.mem q j }

/-- The `n` objects at `src` are at `dest`. -/
def relocate (p : Place) (dest src n : ℕ) : World T :=
  { w with
    mem := fun q j =>
      if q = p ∧ dest ≤ j ∧ j < dest + n then w.mem p (src + (j - dest))
      else if q = p ∧ src ≤ j ∧ j < src + n then none
      else w.mem q j }

/-- Writing an inlined element loses the allocation. -/
def clobber : Place → World T
  | .inlined s => { w with allocated := update w.allocated s none }
  | .heap _ => w

/-- The slots that a place has. -/
def capacityOf (cfg : Config) : Place → Option ℕ
  | .inlined _ => some cfg.inlinedCapacity
  | .heap id => w.cap id

/-- A slot of the place without an object. -/
def Vacant (cfg : Config) (p : Place) (i : ℕ) : Prop :=
  ((w.capacityOf cfg p).any (i < ·) && (w.mem p i).isNone) = true

instance (cfg : Config) (p : Place) (i : ℕ) : Decidable (w.Vacant cfg p i) :=
  inferInstanceAs (Decidable (_ = true))

end World

section Primitives

variable (cfg : Config)

/-- A constructor that writes to the slot before it may throw. -/
def constructAt (p : Place) (i : ℕ) (e : Option T) : Op T Unit := do
  Prog.lift fun w => if w.Vacant cfg p i then some ((), w.clobber p) else none
  Prog.tick
  Prog.lift fun w => some ((), w.set p i (some e))

/-- The bytes of an object. -/
def copyBytesTo (p : Place) (i : ℕ) (e : Option T) : Op T Unit :=
  Prog.lift fun w => if w.Vacant cfg p i then some ((), (w.clobber p).set p i (some e)) else none

/-- An element is assigned to, which may throw. -/
def assignAt (p : Place) (i : ℕ) (e : Option T) : Op T Unit := do
  Prog.lift fun w => if (w.mem p i).isSome then some ((), w) else none
  Prog.tick
  Prog.lift fun w => some ((), w.set p i (some e))

/-- An element is destroyed. -/
def destroyAt (p : Place) (i : ℕ) : Op T Unit :=
  Prog.lift fun w => if (w.mem p i).isSome then some ((), w.set p i none) else none

/-- An element is read. -/
def readAt (p : Place) (i : ℕ) : Op T (Option T) :=
  Prog.lift fun w => (w.mem p i).map (·, w)

/-- An element is moved from. -/
def moveFrom (p : Place) (i : ℕ) : Op T (Option T) :=
  Prog.lift fun w => (w.mem p i).map (·, w.set p i (some none))

/-- `MallocAdapter::Allocate`. -/
def allocate (capacity : ℕ) : Op T ℕ :=
  Prog.lift fun w => some (w.fresh,
    { w with cap := update w.cap w.fresh (some capacity), fresh := w.fresh + 1 })

/-- `MallocAdapter::Deallocate`. -/
def deallocate (id capacity : ℕ) : Op T Unit :=
  Prog.lift fun w =>
    if w.cap id = some capacity ∧
        (List.range capacity).all fun i => (w.mem (.heap id) i).isNone then
      some ((), { w with cap := update w.cap id none })
    else none

/-- The metadata of a vector. -/
def getStorage (s : ℕ) : Op T Storage := Prog.lift fun w => some (w.storage s, w)

/-- The metadata is overwritten. -/
def setStorage (s : ℕ) (x : Storage) : Op T Unit :=
  Prog.lift fun w => some ((), { w with storage := update w.storage s x })

/-- `GetAllocatedData` and `GetAllocatedCapacity`. -/
def getAllocation (s : ℕ) : Op T (ℕ × ℕ) := Prog.lift fun w => (w.allocated s).map (·, w)

/-- `SetAllocation`. -/
def setAllocation (s id capacity : ℕ) : Op T Unit :=
  Prog.lift fun w =>
    if (List.range cfg.inlinedCapacity).all fun i => (w.mem (.inlined s) i).isNone then
      some ((), { w with allocated := update w.allocated s (some (id, capacity)) })
    else none

end Primitives

/-! ## Elements -/

/-- A value adapter : what its calls give one after another. -/
abbrev Values (T : Type) := ℕ → Op T (Option T)

/-- `IteratorValueAdapter` over values that are not in a vector, `CopyValueAdapter` and
`DefaultValueAdapter`. -/
def valuesOf (v : ℕ → T) : Values T := fun k => pure (some (v k))

/-- `IteratorValueAdapter` over elements. -/
def copyValues (p : Place) (first : ℕ) : Values T := fun k => readAt p (first + k)

/-- `IteratorValueAdapter` over elements that are moved. -/
def moveValues (p : Place) (first : ℕ) : Values T := fun k => moveFrom p (first + k)

/-- `DestroyElements`, from the last one on. -/
def destroyElements (p : Place) (first n : ℕ) : Op T Unit :=
  Prog.loop (fun k => destroyAt p (first + (n - 1 - k))) n

section Storage

variable (cfg : Config) (s : ℕ)

/-- `ConstructElements`. `used` values were taken before. -/
def constructElements (p : Place) (first : ℕ) (values : Values T) (used n : ℕ) : Op T Unit :=
  Prog.loop (fun i => Prog.onThrow
    (do
      let e ← values (used + i)
      constructAt cfg p (first + i) e)
    (destroyElements p first i)) n

/-- `AssignElements`. -/
def assignElements (p : Place) (first : ℕ) (values : Values T) (used n : ℕ) : Op T Unit :=
  Prog.loop (fun i => do
    let e ← values (used + i)
    assignAt p (first + i) e) n

/-- `std::move_backward` of `n` elements from `first` to `dest` on. -/
def moveBackward (p : Place) (first dest n : ℕ) : Op T Unit :=
  Prog.loop (fun k => do
    let e ← moveFrom p (first + (n - 1 - k))
    assignAt p (dest + (n - 1 - k)) e) n

/-- `StorageView`. -/
structure StorageView where
  data : Place
  size : ℕ
  capacity : ℕ

/-- `MakeStorageView`. -/
def makeStorageView : Op T StorageView := do
  let st ← getStorage s
  if st.isAllocated then do
    let (id, capacity) ← getAllocation s
    pure ⟨.heap id, st.size, capacity⟩
  else pure ⟨.inlined s, st.size, cfg.inlinedCapacity⟩

/-- `NextCapacity`. -/
def nextCapacity (currentCapacity : ℕ) : ℕ := currentCapacity * 2

/-- `ComputeCapacity`. -/
def computeCapacity (currentCapacity requestedCapacity : ℕ) : ℕ :=
  max (nextCapacity currentCapacity) requestedCapacity

/-- `SetSize`. -/
def setSize (s size : ℕ) : Op T Unit := do
  let st ← getStorage s
  setStorage s { st with size := size }

/-- `AddSize`. -/
def addSize (s count : ℕ) : Op T Unit := do
  let st ← getStorage s
  setStorage s { st with size := st.size + count }

/-- `SubtractSize`. -/
def subtractSize (s count : ℕ) : Op T Unit := do
  let st ← getStorage s
  setStorage s { st with size := st.size - count }

/-- `SetIsAllocated` and `UnsetIsAllocated`. -/
def setIsAllocated (b : Bool) : Op T Unit := do
  let st ← getStorage s
  setStorage s { st with isAllocated := b }

/-- `DeallocateIfAllocated`. -/
def deallocateIfAllocated : Op T Unit := do
  let st ← getStorage s
  if st.isAllocated then do
    let (id, capacity) ← getAllocation s
    deallocate id capacity
  else pure ()

/-- `~Storage` with `DestroyContents`. -/
def destroyStorage : Op T Unit := do
  let st ← getStorage s
  if st.size = 0 ∧ st.isAllocated = false then pure ()
  else do
    let view ← makeStorageView cfg s
    destroyElements view.data 0 st.size
    deallocateIfAllocated s

/-- The vector ends, and an empty one is in its place. -/
def renew : Op T Unit := do
  destroyStorage cfg s
  setStorage s ⟨0, false⟩

/-- The end of each change to a new block : the old elements and their block go, and the new block
is taken over. -/
def adoptAllocation (view : StorageView) (id capacity : ℕ) : Op T Unit := do
  destroyElements view.data 0 view.size
  deallocateIfAllocated s
  setAllocation cfg s id capacity
  setIsAllocated s true

/-- `InitFrom`. The allocation is set, but not the bit that says so. -/
def initFrom (s other : ℕ) : Op T Unit := do
  let o ← getStorage other
  let (dst, src) ← if o.isAllocated then do
      let capacity := computeCapacity cfg.inlinedCapacity o.size
      let id ← allocate capacity
      setAllocation cfg s id capacity
      let (src, _) ← getAllocation other
      pure (Place.heap id, Place.heap src)
    else pure (Place.inlined s, Place.inlined other)
  if cfg.triviallyCopyConstructible then
    Prog.loop (fun i => do
      let e ← readAt src i
      copyBytesTo cfg dst i e) o.size
  else constructElements cfg dst 0 (copyValues src 0) 0 o.size
  setStorage s o

/-- `Initialize`. -/
def initializeElements (values : Values T) (newSize : ℕ) : Op T Unit := do
  let data ← if newSize > cfg.inlinedCapacity then do
      let capacity := computeCapacity cfg.inlinedCapacity newSize
      let id ← allocate capacity
      setAllocation cfg s id capacity
      setIsAllocated s true
      pure (Place.heap id)
    else pure (Place.inlined s)
  constructElements cfg data 0 values 0 newSize
  addSize s newSize

/-- `Assign`. Loops over no elements are left out. -/
def assign (values : Values T) (newSize : ℕ) : Op T Unit := do
  let view ← makeStorageView cfg s
  if newSize > view.capacity then do
    let capacity := computeCapacity view.capacity newSize
    let id ← allocate capacity
    Prog.onThrow (constructElements cfg (.heap id) 0 values 0 newSize) (deallocate id capacity)
    adoptAllocation cfg s view id capacity
  else if newSize > view.size then do
    assignElements view.data 0 values 0 view.size
    constructElements cfg view.data view.size values view.size (newSize - view.size)
  else do
    assignElements view.data 0 values 0 newSize
    destroyElements view.data newSize (view.size - newSize)
  setSize s newSize

/-- `Resize`. -/
def resize (values : Values T) (newSize : ℕ) : Op T Unit := do
  let view ← makeStorageView cfg s
  if newSize ≤ view.size then destroyElements view.data newSize (view.size - newSize)
  else if newSize ≤ view.capacity then
    constructElements cfg view.data view.size values 0 (newSize - view.size)
  else do
    let capacity := computeCapacity view.capacity newSize
    let id ← allocate capacity
    Prog.onThrow
      (do
        constructElements cfg (.heap id) view.size values 0 (newSize - view.size)
        Prog.onThrow (constructElements cfg (.heap id) 0 (moveValues view.data 0) 0 view.size)
          (destroyElements (.heap id) view.size (newSize - view.size)))
      (deallocate id capacity)
    adoptAllocation cfg s view id capacity
  setSize s newSize

/-- `Insert` into a new block. -/
def insertAllocating (view : StorageView) (index : ℕ) (values : Values T) (count : ℕ) :
    Op T Unit := do
  let newSize := view.size + count
  let capacity := computeCapacity view.capacity newSize
  let id ← allocate capacity
  Prog.onThrow
    (do
      constructElements cfg (.heap id) index values 0 count
      Prog.onThrow
        (do
          constructElements cfg (.heap id) 0 (moveValues view.data 0) 0 index
          Prog.onThrow
            (constructElements cfg (.heap id) (index + count) (moveValues view.data 0) index
              (view.size - index))
            (destroyElements (.heap id) 0 index))
        (destroyElements (.heap id) index count))
    (deallocate id capacity)
  adoptAllocation cfg s view id capacity
  setSize s newSize

/-- `Insert` in place. -/
def insertInPlace (view : StorageView) (index : ℕ) (values : Values T) (count : ℕ) :
    Op T Unit := do
  let insertEnd := index + count
  let newSize := view.size + count
  let dest := max insertEnd view.size
  let constructed := newSize - dest
  constructElements cfg view.data dest (moveValues view.data (dest - count)) 0 constructed
  Prog.onThrow
    (do
      moveBackward view.data index insertEnd (dest - insertEnd)
      assignElements view.data index values 0 constructed
      constructElements cfg view.data (index + constructed) values constructed
        (count - constructed))
    (destroyElements view.data dest constructed)
  addSize s count

/-- `Insert`. -/
def insert (s index : ℕ) (values : Values T) (count : ℕ) : Op T Unit := do
  let view ← makeStorageView cfg s
  if view.size + count > view.capacity then insertAllocating cfg s view index values count
  else insertInPlace cfg s view index values count

/-- `EmplaceBackSlow`. -/
def emplaceBackSlow (value : T) : Op T Unit := do
  let view ← makeStorageView cfg s
  let capacity := nextCapacity view.capacity
  let id ← allocate capacity
  Prog.onThrow
    (do
      constructAt cfg (.heap id) view.size (some value)
      Prog.onThrow (constructElements cfg (.heap id) 0 (moveValues view.data 0) 0 view.size)
        (destroyAt (.heap id) view.size))
    (deallocate id capacity)
  adoptAllocation cfg s view id capacity
  addSize s 1

/-- `EmplaceBack`. -/
def emplaceBack (value : T) : Op T Unit := do
  let view ← makeStorageView cfg s
  if view.size ≠ view.capacity then do
    constructAt cfg view.data view.size (some value)
    addSize s 1
  else emplaceBackSlow cfg s value

/-- `memmove` of `n` objects down to `dest`. -/
def relocateDown (p : Place) (dest src n : ℕ) : Op T Unit :=
  Prog.lift fun w =>
    if (List.range n).all fun i => (w.mem p (src + i)).isSome &&
        ((w.mem p (dest + i)).isNone || decide (src ≤ dest + i)) then
      some ((), w.relocate p dest src n)
    else none

/-- `Erase`. -/
def erase (s index eraseSize : ℕ) : Op T Unit := do
  let view ← makeStorageView cfg s
  let eraseEnd := index + eraseSize
  if cfg.triviallyRelocatable then do
    destroyElements view.data index eraseSize
    relocateDown view.data index eraseEnd (view.size - eraseEnd)
  else do
    assignElements view.data index (moveValues view.data eraseEnd) 0 (view.size - eraseEnd)
    destroyElements view.data (view.size - eraseSize) eraseSize
  subtractSize s eraseSize

/-- `Reserve`. -/
def reserve (s requestedCapacity : ℕ) : Op T Unit := do
  let view ← makeStorageView cfg s
  if requestedCapacity ≤ view.capacity then pure ()
  else do
    let capacity := computeCapacity view.capacity requestedCapacity
    let id ← allocate capacity
    Prog.onThrow (constructElements cfg (.heap id) 0 (moveValues view.data 0) 0 view.size)
      (deallocate id capacity)
    adoptAllocation cfg s view id capacity

/-- `ShrinkToFit` into a smaller block. The block is as large as was asked for, which is less than
the capacity. -/
def shrinkToBlock (size old capacity : ℕ) : Op T Unit := do
  let id ← allocate size
  if size ≥ capacity then deallocate id size
  else do
    Prog.onThrow
      (Prog.onThrow (constructElements cfg (.heap id) 0 (moveValues (.heap old) 0) 0 size)
        (setAllocation cfg s old capacity))
      (deallocate id size)
    destroyElements (.heap old) 0 size
    deallocate old capacity
    setAllocation cfg s id size

/-- `ShrinkToFit` into the vector. -/
def shrinkToInlined (size old capacity : ℕ) : Op T Unit := do
  Prog.onThrow (constructElements cfg (.inlined s) 0 (moveValues (.heap old) 0) 0 size)
    (setAllocation cfg s old capacity)
  destroyElements (.heap old) 0 size
  deallocate old capacity
  setIsAllocated s false

/-- `ShrinkToFit`. -/
def shrinkToFit : Op T Unit := do
  let st ← getStorage s
  let (old, capacity) ← getAllocation s
  if st.size = capacity then pure ()
  else if st.size > cfg.inlinedCapacity then shrinkToBlock cfg s st.size old capacity
  else shrinkToInlined cfg s st.size old capacity

/-! ## Swap -/

/-- `SwapN` with `std::swap_ranges`. -/
def swapElements (a b : Place) (n : ℕ) : Op T Unit :=
  Prog.loop (fun i => do
    let tmp ← moveFrom a i
    Prog.tick
    let e ← moveFrom b i
    assignAt a i e
    assignAt b i tmp) n

/-- `SwapN` by construction. -/
def swapConstruct (a b : Place) (n : ℕ) : Op T Unit :=
  Prog.loop (fun i => do
    let tmp ← moveFrom a i
    Prog.tick
    destroyAt a i
    Prog.onThrow
      (do
        let e ← moveFrom b i
        constructAt cfg a i e)
      (constructAt cfg a i tmp)
    destroyAt b i
    Prog.onThrow (constructAt cfg b i tmp)
      (do
        let e ← moveFrom a i
        constructAt cfg b i e)) n

/-- `SwapInlinedElements` by bytes. -/
def swapData (s t : ℕ) : Op T Unit :=
  Prog.lift fun w => some ((), { w with
    mem := fun p => if p = .inlined s then w.mem (.inlined t)
      else if p = .inlined t then w.mem (.inlined s) else w.mem p
    allocated := update (update w.allocated s (w.allocated t)) t
      (w.allocated s) })

/-- The elements that only the larger vector has. -/
def moveRest (small large smallSize diff : ℕ) : Op T Unit := do
  constructElements cfg (.inlined small) smallSize (moveValues (.inlined large) smallSize) 0 diff
  destroyElements (.inlined large) smallSize diff

/-- `SwapInlinedElements`. -/
def swapInlinedElements (s t : ℕ) : Op T Unit := do
  match cfg.swapPolicy with
  | .memcpy => swapData s t
  | policy =>
    let a ← getStorage s
    let b ← getStorage t
    let smallSize := min a.size b.size
    match policy with
    | .elementwiseSwap => swapElements (.inlined s) (.inlined t) smallSize
    | _ => swapConstruct cfg (.inlined s) (.inlined t) smallSize
    if a.size > b.size then moveRest cfg t s smallSize (a.size - smallSize)
    else moveRest cfg s t smallSize (b.size - smallSize)

/-- `Swap` of a vector with a block and one without. -/
def swapMixed (allocated inlined : ℕ) : Op T Unit := do
  let (data, capacity) ← getAllocation allocated
  let st ← getStorage inlined
  Prog.onThrow
    (constructElements cfg (.inlined allocated) 0 (moveValues (.inlined inlined) 0) 0 st.size)
    (setAllocation cfg allocated data capacity)
  destroyElements (.inlined inlined) 0 st.size
  setAllocation cfg inlined data capacity

/-- `Swap`. -/
def swap (s t : ℕ) : Op T Unit := do
  let a ← getStorage s
  let b ← getStorage t
  if a.isAllocated && b.isAllocated then do
    let (data, capacity) ← getAllocation s
    let (data', capacity') ← getAllocation t
    setAllocation cfg s data' capacity'
    setAllocation cfg t data capacity
  else if !a.isAllocated && !b.isAllocated then swapInlinedElements cfg s t
  else if a.isAllocated then swapMixed cfg s t
  else swapMixed cfg t s
  setStorage s b
  setStorage t a

end Storage

end Abseil.InlinedVector
