import Mathlib.Tactic

/-!
# The portable CRC32C engine

`absl/crc/internal/crc.cc` and `absl/crc/crc32c.cc` : the tables (`fillWordTable`,
`fillZeroesTable`, `initTables`), the four-lane `extend`, the extension by zero bytes and its
inverse, and the functions on checksums. A table is a function from indices; the memory a table is
built in starts with arbitrary contents. A pointer into the data is the rest of the data, and the
address of the first byte is a parameter, since the engine looks at its alignment.

The engines of `crc_x86_arm_combined.cc`, which `NewInternal` prefers where the hardware has them,
are not modelled, nor is the path for short data of `crc32c_inline.h` : the results are about builds
and machines that use the portable engine.
-/

namespace Abseil

open Function

namespace Crc32

/-- `Uint32By256` : one row of a table. -/
abbrev Row := ℕ → BitVec 32

/-- What the engine is compiled for : `kNeedAlignedLoads`, and `kPrefetchHorizon` with its
static assertion. -/
structure Platform where
  needAlignedLoads : Bool
  prefetchHorizon : ℕ
  horizon_ge : 64 ≤ prefetchHorizon

/-- The polynomial of CRC32C, its bits reversed. -/
def kCrc32cPoly : BitVec 32 := 0x82f63b78

/-- `absl::gbswap_32`. -/
def gbswap32 (x : BitVec 32) : BitVec 32 :=
  ((x &&& 0xFF) <<< 24) ||| ((x &&& 0xFF00) <<< 8) ||| ((x &&& 0xFF0000) >>> 8) |||
    ((x &&& 0xFF000000) >>> 24)

/-- `ReverseBits`. -/
def reverseBits (bits : BitVec 32) : BitVec 32 :=
  let bits := (bits &&& 0xaaaaaaaa) >>> 1 ||| (bits &&& 0x55555555) <<< 1
  let bits := (bits &&& 0xcccccccc) >>> 2 ||| (bits &&& 0x33333333) <<< 2
  let bits := (bits &&& 0xf0f0f0f0) >>> 4 ||| (bits &&& 0x0f0f0f0f) <<< 4
  gbswap32 bits

/-- The remainder step written out in `PolyMultiply` and `FillWordTable`. -/
def advanceBit (poly x : BitVec 32) : BitVec 32 :=
  if x &&& 1 ≠ 0 then (x >>> 1) ^^^ poly else x >>> 1

/-- The loop of `PolyMultiply`, `n` rounds from its end, where `one` is `1 << (n - 1)`. -/
def polyMultiplyLoop (poly l : BitVec 32) : ℕ → BitVec 32 → BitVec 32 → BitVec 32
  | 0, _, result => result
  | n + 1, m, result =>
    polyMultiplyLoop poly l n (advanceBit poly m)
      (if l &&& ((1 : BitVec 32) <<< n) ≠ 0 then result ^^^ m else result)

/-- `PolyMultiply`. -/
def polyMultiply (val m poly : BitVec 32) : BitVec 32 := polyMultiplyLoop poly val 32 m 0

/-! ## Tables -/

/-- The powers of two of one row below the first, which is given. -/
def fillPowers (poly : BitVec 32) (t : Row) : Row :=
  [64, 32, 16, 8, 4, 2, 1].foldl
    (fun t i => update t i (advanceBit poly (t (i <<< 1)))) t

/-- The entries between `i` and `2 * i`. -/
def fillBetween (t : Row) (i : ℕ) : Row :=
  (List.range' (i + 1) (i - 1)).foldl (fun t k => update t k (t i ^^^ t (k - i))) t

/-- One round of the outer loop of `FillWordTable`; `first` is entry 128. -/
def fillRow (poly first : BitVec 32) (t : Row) : Row :=
  [2, 4, 8, 16, 32, 64, 128].foldl fillBetween
    (fillPowers poly (update (update t 0 0) 128 first))

/-- `FillWordTable`. -/
def fillWordTable (poly last : BitVec 32) : ℕ → (ℕ → Row) → ℕ → Row
  | 0, t => t
  | j + 1, t =>
    let t := fillWordTable poly last j t
    let first := if j = 0 then last else advanceBit poly (t (j - 1) 1)
    update t j (fillRow poly first (t j))

/-- The inner loop of `FillZeroesTable`, with the number of its rounds left. -/
def fillZeroesRound (poly inc : BitVec 32) : ℕ → BitVec 32 → ℕ → Row → BitVec 32 × ℕ × Row
  | 0, v, j, t => (v, j, t)
  | a + 1, v, j, t =>
    fillZeroesRound poly inc a (polyMultiply v inc poly) (j + 1) (update t j v)

/-- The outer loop, `n` rounds from the shift that makes `inc_len` zero. -/
def fillZeroesLoop (poly : BitVec 32) : ℕ → BitVec 32 → ℕ → Row → ℕ × Row
  | 0, _, j, t => (j, t)
  | n + 1, inc, j, t =>
    let (v, j, t) := fillZeroesRound poly inc 15 inc j t
    fillZeroesLoop poly n v j t

/-- `FillZeroesTable` : the number of entries and the row. -/
def fillZeroesTable (poly : BitVec 32) (t : Row) : ℕ × Row :=
  let inc := (1 : BitVec 32) <<< 31
  let inc := inc >>> 1
  let inc := polyMultiply inc inc poly
  let inc := polyMultiply inc inc poly
  let inc := polyMultiply inc inc poly
  fillZeroesLoop poly 16 inc 0 t

end Crc32

open Crc32 in
/-- The tables of a `CRC32`. -/
structure Crc32 where
  table0 : Row
  table : ℕ → Row
  zeroes : Row
  reverseTable0 : Row
  reverseZeroes : Row

namespace Crc32

variable (self : Crc32)

/-- `last` of `InitTables`, extended by zero bytes with the one-byte table. -/
def extendLast (table0 : Row) : ℕ → BitVec 32 → BitVec 32
  | 0, last => last
  | n + 1, last => extendLast table0 n ((last >>> 8) ^^^ table0 (last &&& 0xff).toNat)

/-- The polynomial that takes zero bits back. -/
def kCrc32cUnextendPoly : BitVec 32 := reverseBits ((kCrc32cPoly <<< 1) ^^^ 1)

/-- `InitTables`, on an object and a scratch table `t` of any contents. -/
def initTables (t : ℕ → Row) : Crc32 :=
  let t := fillWordTable kCrc32cPoly kCrc32cPoly 1 t
  let table0 : Row := fun i => if i < 256 then t 0 i else self.table0 i
  let last := extendLast table0 12 kCrc32cPoly
  let t := fillWordTable kCrc32cPoly last 4 t
  let table : ℕ → Row := fun b i => if b < 4 ∧ i < 256 then t b i else self.table b i
  let filled := fillZeroesTable kCrc32cPoly (t 0)
  let zeroes : Row := fun i => if i < filled.1 then filled.2 i else self.zeroes i
  let reverse := fillWordTable kCrc32cUnextendPoly kCrc32cUnextendPoly 1 fun _ => self.reverseTable0
  { table0 := table0
    table := table
    zeroes := zeroes
    reverseTable0 := reverse 0
    reverseZeroes := (fillZeroesTable kCrc32cUnextendPoly self.reverseZeroes).2 }

/-! ## Extend -/

/-- `little_endian::Load32` of the first four bytes. -/
def load32 : List (BitVec 8) → BitVec 32
  | b0 :: b1 :: b2 :: b3 :: _ =>
    b0.setWidth 32 ||| (b1.setWidth 32 <<< 8) ||| (b2.setWidth 32 <<< 16) |||
      (b3.setWidth 32 <<< 24)
  | _ => 0

/-- `step_one_byte`. -/
def stepOneByte (l : BitVec 32) (b : BitVec 8) : BitVec 32 :=
  self.table0 ((l &&& 0xff) ^^^ b.setWidth 32).toNat ^^^ (l >>> 8)

/-- The bytes one by one. -/
def stepBytes (l : BitVec 32) (bytes : List (BitVec 8)) : BitVec 32 :=
  bytes.foldl (stepOneByte self) l

/-- `step_swath`. -/
def stepSwath (crcIn : BitVec 32) (p : List (BitVec 8)) : BitVec 32 :=
  load32 p ^^^ self.table 3 (crcIn &&& 0xff).toNat ^^^ self.table 2 ((crcIn >>> 8) &&& 0xff).toNat
    ^^^ self.table 1 ((crcIn >>> 16) &&& 0xff).toNat ^^^ self.table 0 (crcIn >>> 24).toNat

/-- `buf0` .. `buf3`. -/
structure Lanes where
  buf0 : BitVec 32
  buf1 : BitVec 32
  buf2 : BitVec 32
  buf3 : BitVec 32

/-- `step_stride`, before `p` moves on by 16. -/
def stepStride (b : Lanes) (p : List (BitVec 8)) : Lanes where
  buf0 := stepSwath self b.buf0 p
  buf1 := stepSwath self b.buf1 (p.drop 4)
  buf2 := stepSwath self b.buf2 (p.drop 8)
  buf3 := stepSwath self b.buf3 (p.drop 12)

/-- The loop with prefetching, four strides a round. -/
def prefetchLoop (cfg : Platform) (self : Crc32) (b : Lanes) (p : List (BitVec 8)) :
    Lanes × List (BitVec 8) :=
  if cfg.prefetchHorizon < p.length then
    let b := stepStride self b p
    let b := stepStride self b (p.drop 16)
    let b := stepStride self b (p.drop 32)
    let b := stepStride self b (p.drop 48)
    prefetchLoop cfg self b (p.drop 64)
  else (b, p)
termination_by p.length
decreasing_by rw [List.length_drop]; omega

/-- The loop of single strides. -/
def strideLoop (self : Crc32) (b : Lanes) (p : List (BitVec 8)) : Lanes × List (BitVec 8) :=
  if 16 ≤ p.length then strideLoop self (stepStride self b p) (p.drop 16) else (b, p)
termination_by p.length
decreasing_by rw [List.length_drop]; omega

/-- A single word, with the lanes rotated. -/
def wordStep (self : Crc32) (b : Lanes) (p : List (BitVec 8)) : Lanes :=
  ⟨b.buf1, b.buf2, b.buf3, stepSwath self b.buf0 p⟩

/-- The loop of single words. -/
def wordLoop (self : Crc32) (b : Lanes) (p : List (BitVec 8)) : Lanes × List (BitVec 8) :=
  if 4 ≤ p.length then
    wordLoop self (wordStep self b p) (p.drop 4)
  else (b, p)
termination_by p.length
decreasing_by rw [List.length_drop]; omega

/-- One round of the loop of `combine_one_word`. -/
def combineByte (w : BitVec 32) : BitVec 32 :=
  (w >>> 8) ^^^ self.table0 (w &&& 0xff).toNat

/-- `combine_one_word`. -/
def combineOneWord (crcIn w : BitVec 32) : BitVec 32 :=
  (combineByte self)^[4] (w ^^^ crcIn)

/-- The four lanes become one. -/
def combineLanes (b : Lanes) : BitVec 32 :=
  let l := combineOneWord self 0 b.buf0
  let l := combineOneWord self l b.buf1
  let l := combineOneWord self l b.buf2
  combineOneWord self l b.buf3

/-- The part of `Extend` that works on swaths, for at least 16 bytes at `p`. -/
def extendSwaths (cfg : Platform) (self : Crc32) (l : BitVec 32) (p : List (BitVec 8)) :
    BitVec 32 × List (BitVec 8) :=
  let b : Lanes :=
    ⟨load32 p ^^^ l, load32 (p.drop 4), load32 (p.drop 8), load32 (p.drop 12)⟩
  let (b, p) := prefetchLoop cfg self b (p.drop 16)
  let (b, p) := strideLoop self b p
  let (b, p) := wordLoop self b p
  (combineLanes self b, p)

/-- `RoundUp<4>`. -/
def roundUp4 (p : ℕ) : ℕ := (p + 3) / 4 * 4

/-- `Extend` of `crc` by the bytes at address `addr`. -/
def extend (cfg : Platform) (self : Crc32) (addr : ℕ) (crc : BitVec 32) (bytes : List (BitVec 8)) :
    BitVec 32 :=
  let k := if cfg.needAlignedLoads ∧ roundUp4 addr ≤ addr + bytes.length
    then roundUp4 addr - addr else 0
  let l := stepBytes self crc (bytes.take k)
  let p := bytes.drop k
  let (l, p) := if 16 ≤ p.length then extendSwaths cfg self l p else (l, p)
  stepBytes self l p

/-! ## Zero bytes -/

/-- `mtab` of `ExtendByZeroesImpl` for the table entry `entry`. -/
def mtab (entry : BitVec 32) (i : BitVec 32) : BitVec 64 :=
  let m := entry.setWidth 64 <<< 1
  let m2 := m <<< 1
  if i = 0 then 0 else if i = 1 then m else if i = 2 then m2 else m2 ^^^ m

/-- One round of the multiplication : eight bits of `l` into `result`. -/
def multiplyByte (polyTable : Row) (entry l : BitVec 32) (result : BitVec 64) : BitVec 64 :=
  let result := result ^^^ (mtab entry (l &&& 3) ^^^ (mtab entry ((l >>> 2) &&& 3) <<< 2) ^^^
    (mtab entry ((l >>> 4) &&& 3) <<< 4) ^^^ (mtab entry ((l >>> 6) &&& 3) <<< 6))
  (result >>> 8) ^^^ (polyTable (result &&& 0xff).toNat).setWidth 64

/-- The multiplication of `l` by a table entry, a byte at a time, `n` bytes from its end. -/
def multiplyLoop (polyTable : Row) (entry : BitVec 32) : ℕ → BitVec 32 → BitVec 64 → BitVec 64
  | 0, _, result => result
  | n + 1, l, result =>
    multiplyLoop polyTable entry n (l >>> 8) (multiplyByte polyTable entry l result)

/-- The loop of `ExtendByZeroesImpl`. -/
def extendByZeroesLoop (zeroesTable polyTable : Row) (i : ℕ) (l : BitVec 32) (length : ℕ) :
    BitVec 32 :=
  if length ≠ 0 then
    let c := length % 16
    let l := if c ≠ 0 then (multiplyLoop polyTable (zeroesTable (c + i - 1)) 4 l 0).setWidth 32
      else l
    extendByZeroesLoop zeroesTable polyTable (i + 15) l (length / 16)
  else l
termination_by length

/-- `ExtendByZeroesImpl`. -/
def extendByZeroesImpl (crc : BitVec 32) (length : ℕ) (zeroesTable polyTable : Row) : BitVec 32 :=
  if length ≠ 0 then extendByZeroesLoop zeroesTable polyTable 0 crc length else crc

/-- `ExtendByZeroes`. -/
def extendByZeroes (crc : BitVec 32) (length : ℕ) : BitVec 32 :=
  extendByZeroesImpl crc length self.zeroes self.table0

/-- `UnextendByZeroes`. -/
def unextendByZeroes (crc : BitVec 32) (length : ℕ) : BitVec 32 :=
  reverseBits (extendByZeroesImpl (reverseBits crc) length self.reverseZeroes self.reverseTable0)

/-! ## Checksums -/

/-- The checksum is kept with its bits flipped. -/
def kCRC32Xor : BitVec 32 := 0xffffffff

/-- `ExtendCrc32c`, which without hardware support is `ExtendCrc32cInternal`; the data lies at
`addr`. -/
def extendCrc32c (cfg : Platform) (engine : Crc32) (addr : ℕ) (initialCrc : BitVec 32)
    (bufToAdd : List (BitVec 8)) : BitVec 32 :=
  extend cfg engine addr (initialCrc ^^^ kCRC32Xor) bufToAdd ^^^ kCRC32Xor

/-- `ComputeCrc32c`. -/
def computeCrc32c (cfg : Platform) (engine : Crc32) (addr : ℕ) (buf : List (BitVec 8)) :
    BitVec 32 :=
  extendCrc32c cfg engine addr 0 buf

/-- `ExtendCrc32cByZeroes`. -/
def extendCrc32cByZeroes (engine : Crc32) (initialCrc : BitVec 32) (length : ℕ) : BitVec 32 :=
  extendByZeroes engine (initialCrc ^^^ kCRC32Xor) length ^^^ kCRC32Xor

/-- `ConcatCrc32c`. -/
def concatCrc32c (engine : Crc32) (lhsCrc rhsCrc : BitVec 32) (rhsLen : ℕ) : BitVec 32 :=
  extendByZeroes engine lhsCrc rhsLen ^^^ rhsCrc

/-- `RemoveCrc32cPrefix`. -/
def removeCrc32cPrefix (engine : Crc32) (crcA crcAb : BitVec 32) (lengthB : ℕ) : BitVec 32 :=
  concatCrc32c engine crcA crcAb lengthB

/-- `RemoveCrc32cSuffix`. -/
def removeCrc32cSuffix (engine : Crc32) (fullStringCrc suffixCrc : BitVec 32) (suffixLen : ℕ) :
    BitVec 32 :=
  unextendByZeroes engine (fullStringCrc ^^^ suffixCrc) suffixLen

end Crc32

end Abseil
