import Mathlib.Tactic

/-!
# The low level allocator

An arena is a memory of blocks, allocated or free, and a skip list of the free blocks in the order
of their addresses. Pointers are addresses, a null pointer is none, and the address `0` stands for
the head of the free list, which is in no block.

Faults are : a check that fails, an overflow of the `int32_t` that counts the allocated blocks, an
element of `next` outside of its block, an element of `prev` that is not set, and a loop that does
not end.
-/

namespace Abseil.LowLevelAlloc

open Function

/-! ## State -/

/-- `AllocList`, a block. -/
structure AllocList where
  size : ℕ
  magic : ℕ
  arena : Option ℕ
  levels : ℕ
  next : ℕ → Option ℕ

/-- `LowLevelAlloc::Arena`. -/
structure Arena where
  /-- The address of the arena. -/
  self : ℕ
  blocks : ℕ → AllocList
  allocationCount : ℤ
  pagesize : ℕ
  random : UInt32
  /-- The pages that the system mapped. -/
  mapped : List (ℕ × ℕ)

/-- What can go wrong. -/
inductive Fault
  | blockTooSmall
  | notInFreelist
  | tooFewLevels
  | badMagic
  | badArena
  | unorderedFreelist
  | malformedFreelist
  | arithmeticOverflow
  | nothingToFree
  | blockSize
  | block
  | countOverflow
  | outOfBlock
  | unset
  | endless
  deriving DecidableEq

/-- Code that works on an arena. -/
abbrev Prog (α : Type) := StateT Arena (Except Fault) α

/-- The code faults. -/
def fail {α : Type} (fault : Fault) : Prog α := fun _ => .error fault

/-- `ABSL_RAW_CHECK`. -/
def check (condition : Prop) [Decidable condition] (fault : Fault) : Prog Unit :=
  if condition then pure () else fail fault

/-- A block is overwritten. -/
def setBlock (p : ℕ) (b : AllocList) : Prog Unit := fun s =>
  .ok ((), { s with blocks := update s.blocks p b })

/-- A block is read. -/
def getBlock (p : ℕ) : Prog AllocList := fun s => .ok (s.blocks p, s)

/-- The levels that the skip list can have. -/
def kMaxLevel : ℕ := 30

/-- `sizeof(AllocList::Header)`. -/
def headerSize : ℕ := 32

/-- `offsetof(AllocList, next)`. -/
def nextOffset : ℕ := 40

/-- `next[i]` is in the block, or in the head. -/
def Fits (s : Arena) (p i : ℕ) : Prop :=
  if p = 0 then i < kMaxLevel else nextOffset + 8 * (i + 1) ≤ (s.blocks p).size

instance (s : Arena) (p i : ℕ) : Decidable (Fits s p i) := by
  unfold Fits
  infer_instance

/-- `next[i]` of a block. -/
def getNext (p i : ℕ) : Prog (Option ℕ) := fun s =>
  if Fits s p i then .ok ((s.blocks p).next i, s) else .error .outOfBlock

/-- An assignment to `next[i]` of a block. -/
def setNext (p i : ℕ) (n : Option ℕ) : Prog Unit := fun s =>
  if Fits s p i then
    (setBlock p { s.blocks p with next := update (s.blocks p).next i n }) s
  else .error .outOfBlock

/-- An array `prev`, whose elements may not be set. -/
abbrev Prev := ℕ → Option ℕ

/-- `prev[i]`. -/
def getPrev (prev : Prev) (i : ℕ) : Prog ℕ :=
  match prev i with
  | some p => if i < kMaxLevel then pure p else fail .unset
  | none => fail .unset

/-- An assignment to `prev[i]`. -/
def setPrev (prev : Prev) (i p : ℕ) : Prog Prev :=
  if i < kMaxLevel then pure (update prev i (some p)) else fail .outOfBlock

/-! ## Levels -/

/-- `IntLog2`. -/
def intLog2 (size base : ℕ) : ℕ := if base < size then intLog2 (size / 2) base + 1 else 0

/-- A step of the generator in `Random`. -/
def nextRandom (r : UInt32) : UInt32 := r * 1103515245 + 12345

/-- The loop of `Random`, with the result so far. -/
def randomLoop : ℕ → UInt32 → ℕ → Option (UInt32 × ℕ)
  | 0, _, _ => none
  | fuel + 1, r, result =>
    if ((nextRandom r) >>> 30) &&& 1 = 0 then randomLoop fuel (nextRandom r) (result + 1)
    else some (nextRandom r, result)

/-- The rounds that an `int` can count. -/
def maxRounds : ℕ := 2 ^ 31 - 1

/-- The end of `Random`. -/
def drawn : Option (UInt32 × ℕ) → Prog ℕ
  | some (r, result) => do
    modify fun s => { s with random := r }
    pure result
  | none => fail .endless

/-- `Random`. -/
def random : Prog ℕ := do
  let s ← get
  drawn (randomLoop maxRounds s.random 1)

/-- `max_fit`, in unsigned arithmetic. -/
def maxFit (size : ℕ) : ℕ := (size + (2 ^ 64 - nextOffset)) % 2 ^ 64 / 8

/-- The levels that a block has for a number that was drawn. -/
def clip (size base n : ℕ) : ℕ :=
  min (min (intLog2 size base + n) (maxFit size)) (kMaxLevel - 1)

/-- `LLA_SkiplistLevels`. -/
def llaSkiplistLevels (size base : ℕ) (drawn : Bool) : Prog ℕ := do
  let n ← if drawn then random else pure 1
  check (1 ≤ clip size base n) .blockTooSmall
  pure (clip size base n)

/-! ## The skip list -/

/-- The search on a level, from `p` on. Addresses increase up to `e`. -/
def seek (e level : ℕ) : ℕ → ℕ → Prog ℕ
  | 0, _ => fail .endless
  | fuel + 1, p => do
    let n ← getNext p level
    match n with
    | none => pure p
    | some n => if n < e then seek e level fuel n else pure p

/-- The search on the levels below `level`. -/
def searchLevels (e : ℕ) : ℕ → ℕ → Prev → Prog Prev
  | 0, _, prev => pure prev
  | level + 1, p, prev => do
    let p ← seek e level (e + 1) p
    let prev ← setPrev prev level p
    searchLevels e level p prev

/-- `LLA_SkiplistSearch`. -/
def llaSkiplistSearch (e : ℕ) (prev : Prev) : Prog (Option ℕ × Prev) := do
  let head ← getBlock 0
  let prev ← searchLevels e head.levels 0 prev
  if head.levels = 0 then pure (none, prev)
  else do
    let p ← getPrev prev 0
    let found ← getNext p 0
    pure (found, prev)

/-- The loop that raises the levels of the head to those of a block. -/
def extend : ℕ → Prev → Prog Prev
  | 0, prev => pure prev
  | n + 1, prev => do
    let head ← getBlock 0
    let prev ← setPrev prev head.levels 0
    setBlock 0 { head with levels := head.levels + 1 }
    extend n prev

/-- The loop that links `e` on the levels from `i` on. -/
def link (e : ℕ) (prev : Prev) : ℕ → ℕ → Prog Unit
  | 0, _ => pure ()
  | n + 1, i => do
    let p ← getPrev prev i
    let next ← getNext p i
    setNext e i next
    setNext p i (some e)
    link e prev n (i + 1)

/-- `LLA_SkiplistInsert`. -/
def llaSkiplistInsert (e : ℕ) (prev : Prev) : Prog Prev := do
  let (_, prev) ← llaSkiplistSearch e prev
  let head ← getBlock 0
  let block ← getBlock e
  let prev ← extend (block.levels - head.levels) prev
  link e prev block.levels 0
  pure prev

/-- The loop that unlinks `e` from the levels from `i` on. -/
def unlink (e : ℕ) (prev : Prev) : ℕ → ℕ → Prog Unit
  | 0, _ => pure ()
  | n + 1, i => do
    let p ← getPrev prev i
    let next ← getNext p i
    if next = some e then do
      let after ← getNext e i
      setNext p i after
      unlink e prev n (i + 1)
    else pure ()

/-- The loop that drops the levels of the head that are empty. -/
def shrink : ℕ → Prog Unit
  | 0 => pure ()
  | level + 1 => do
    let n ← getNext 0 level
    if n = none then do
      let head ← getBlock 0
      setBlock 0 { head with levels := level }
      shrink level
    else pure ()

/-- `LLA_SkiplistDelete`. -/
def llaSkiplistDelete (e : ℕ) (prev : Prev) : Prog Prev := do
  let (found, prev) ← llaSkiplistSearch e prev
  check (found = some e) .notInFreelist
  let block ← getBlock e
  unlink e prev block.levels 0
  let head ← getBlock 0
  shrink head.levels
  pure prev

/-! ## Blocks -/

/-- The magic number of an allocated block. -/
def kMagicAllocated : ℕ := 0x4c833e95

/-- The magic number of a free block. -/
def kMagicUnallocated : ℕ := 2 ^ 64 - 1 - kMagicAllocated

/-- `Magic`. -/
def magic (magic p : ℕ) : ℕ := magic ^^^ p

/-- `roundup`, the alignment of blocks. -/
def roundUpSize : ℕ := 32

/-- `min_size`, the least size of a block. -/
def minSize : ℕ := 2 * roundUpSize

/-- `CheckedAdd`. -/
def checkedAdd (a b : ℕ) : Prog ℕ := do
  check (a ≤ (a + b) % 2 ^ 64) .arithmeticOverflow
  pure ((a + b) % 2 ^ 64)

/-- `x & ~(align - 1)`, for a power of two. -/
def alignDown (x align : ℕ) : ℕ := x &&& (2 ^ 64 - 1 - (align - 1))

/-- `RoundUp`. -/
def roundUp (addr align : ℕ) : Prog ℕ := do
  let sum ← checkedAdd addr (align - 1)
  pure (alignDown sum align)

/-- `Next`. -/
def nextChecked (i prev : ℕ) : Prog (Option ℕ) := do
  let block ← getBlock prev
  check (i < block.levels) .tooFewLevels
  let next ← getNext prev i
  match next with
  | none => pure none
  | some n => do
    let s ← get
    check ((s.blocks n).magic = magic kMagicUnallocated n) .badMagic
    check ((s.blocks n).arena = some s.self) .badArena
    if prev ≠ 0 then do
      check (prev < n) .unorderedFreelist
      check (prev + block.size < n) .malformedFreelist
      pure (some n)
    else pure (some n)

/-- `Coalesce`. -/
def coalesce (a : ℕ) : Prog Unit := do
  let n ← getNext a 0
  match n with
  | none => pure ()
  | some n => do
    let s ← get
    if a + (s.blocks a).size = n then do
      check ((s.blocks a).arena = some s.self) .badArena
      setBlock a { s.blocks a with size := ((s.blocks a).size + (s.blocks n).size) % 2 ^ 64 }
      setBlock n { s.blocks n with magic := 0, arena := none }
      let prev ← llaSkiplistDelete n fun _ => none
      let prev ← llaSkiplistDelete a prev
      let block ← getBlock a
      let levels ← llaSkiplistLevels block.size minSize true
      let block ← getBlock a
      setBlock a { block with levels := levels }
      let _ ← llaSkiplistInsert a prev
      pure ()
    else pure ()

/-- `AddToFreelist`. -/
def addToFreelist (v : ℕ) : Prog Unit := do
  let f := v - headerSize
  let s ← get
  check ((s.blocks f).magic = magic kMagicAllocated f) .badMagic
  check ((s.blocks f).arena = some s.self) .badArena
  let levels ← llaSkiplistLevels (s.blocks f).size minSize true
  setBlock f { s.blocks f with levels := levels }
  let prev ← llaSkiplistInsert f fun _ => none
  let block ← getBlock f
  setBlock f { block with magic := magic kMagicUnallocated f }
  coalesce f
  let p ← getPrev prev 0
  coalesce p

/-! ## Calls -/

/-- `Free`. -/
def free (v : Option ℕ) : Prog Unit :=
  match v with
  | none => pure ()
  | some v => do
    addToFreelist v
    let s ← get
    check (0 < s.allocationCount) .nothingToFree
    set { s with allocationCount := s.allocationCount - 1 }

/-- The search for a block, on the level `i`. Addresses increase. -/
def findFit (reqRnd i : ℕ) : ℕ → ℕ → Prog (Option ℕ)
  | 0, _ => fail .endless
  | fuel + 1, before => do
    let s ← nextChecked i before
    match s with
    | none => pure none
    | some s => do
      let block ← getBlock s
      if block.size < reqRnd then findFit reqRnd i fuel s else pure (some s)

/-- `mmap`, which returns `newPages`, and the new block. -/
def addPages (reqRnd newPages : ℕ) : Prog Unit := do
  let s ← get
  let newPagesSize ← roundUp reqRnd (s.pagesize * 16)
  set { s with mapped := (newPages, newPagesSize) :: s.mapped }
  let block ← getBlock newPages
  setBlock newPages { block with
    size := newPagesSize
    magic := magic kMagicAllocated newPages
    arena := some s.self }
  addToFreelist (newPages + headerSize)

/-- A block that is large enough, on the lowest level that it must be on. -/
def findBlock (reqRnd : ℕ) : Prog (Option ℕ) := do
  let levels ← llaSkiplistLevels reqRnd minSize false
  let head ← getBlock 0
  if levels - 1 < head.levels then findFit reqRnd (levels - 1) (2 ^ 64) 0 else pure none

/-- The loop until a block is found, with the addresses that `mmap` returns. -/
def allocLoop (reqRnd : ℕ) : List ℕ → Prog ℕ
  | [] => do
    let found ← findBlock reqRnd
    match found with
    | some s => pure s
    | none => fail .endless
  | newPages :: pages => do
    let found ← findBlock reqRnd
    match found with
    | some s => pure s
    | none => do
      addPages reqRnd newPages
      allocLoop reqRnd pages

/-- The part of a block that is not needed. -/
def split (reqRnd s : ℕ) : Prog Unit := do
  let sum ← checkedAdd reqRnd minSize
  let a ← get
  if sum ≤ (a.blocks s).size then do
    let n := reqRnd + s
    setBlock n { a.blocks n with
      size := (a.blocks s).size - reqRnd
      magic := magic kMagicAllocated n
      arena := some a.self }
    setBlock s { a.blocks s with size := reqRnd }
    addToFreelist (n + headerSize)
  else pure ()

/-- A block for a request, which is taken off the free list. -/
def takeBlock (request newPages : ℕ) : Prog ℕ := do
  let sum ← checkedAdd request headerSize
  let reqRnd ← roundUp sum roundUpSize
  let s ← allocLoop reqRnd [newPages]
  let _ ← llaSkiplistDelete s fun _ => none
  split reqRnd s
  let block ← getBlock s
  setBlock s { block with magic := magic kMagicAllocated s }
  let a ← get
  check ((a.blocks s).arena = some a.self) .badArena
  pure s

/-- `arena->allocation_count++`, for an `int32_t`. -/
def countBlock (s : ℕ) : Prog (Option ℕ) := fun a =>
  if a.allocationCount + 1 < 2 ^ 31 then
    .ok (some (s + headerSize), { a with allocationCount := a.allocationCount + 1 })
  else .error .countOverflow

/-- `DoAllocWithArena`. -/
def doAllocWithArena (request newPages : ℕ) : Prog (Option ℕ) :=
  if request ≠ 0 then do
    let s ← takeBlock request newPages
    countBlock s
  else pure none

/-- The loop of `DeleteArena`. Addresses increase. -/
def deleteLoop : ℕ → Prog Unit
  | 0 => fail .endless
  | fuel + 1 => do
    let region ← getNext 0 0
    match region with
    | none => pure ()
    | some region => do
      let size := (← getBlock region).size
      let next ← getNext region 0
      setNext 0 0 next
      let s ← get
      check ((s.blocks region).magic = magic kMagicUnallocated region) .badMagic
      check ((s.blocks region).arena = some s.self) .badArena
      check (size % s.pagesize = 0) .blockSize
      check (region % s.pagesize = 0) .block
      deleteLoop fuel

/-- `DeleteArena`, up to the return of the memory of the arena itself. -/
def deleteArena : Prog Bool := do
  let s ← get
  if s.allocationCount ≠ 0 then pure false
  else do
    deleteLoop (2 ^ 64)
    pure true

/-- The constructor of an arena. -/
def Arena.init (self pagesize : ℕ) : Arena where
  self := self
  blocks := fun _ => ⟨0, magic kMagicUnallocated 0, some self, 0, fun _ => none⟩
  allocationCount := 0
  pagesize := pagesize
  random := 0
  mapped := []

end Abseil.LowLevelAlloc
