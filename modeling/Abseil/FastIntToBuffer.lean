import Abseil.BitScan
import Abseil.ByteBuffer
import Abseil.ParseInt
import Abseil.Uint128

/-!
# Writing integers

`numbers_internal::FastIntToBuffer` writes an integer in base 10 to the front of a buffer.
The digits come out of a few multiplications on packed lanes : two, four or eight digits at a
time, added to `'0'` in every byte and stored with one store of 2, 4 or 8 bytes. Where leading
zeros are to be dropped they are shifted out of the word, so such a store is wider than the
digits it is for.

A buffer is a list of bytes and a pointer into it a position. A store that does not fit the
buffer fails, so a result other than `none` says that nothing was stored behind the end.
-/

namespace Abseil

open ByteBuffer

/-- The character `0` in two bytes. -/
def kTwoZeroBytes : BitVec 32 := 0x0101 * 48

/-- The character `0` in four bytes. -/
def kFourZeroBytes : BitVec 64 := 0x01010101 * 48

/-- The character `0` in eight bytes. -/
def kEightZeroBytes : BitVec 64 := 0x0101010101010101 * 48

/-- The factor that divides by ten. -/
def kDivisionBy10Mul : BitVec 64 := 103

/-- The divisor that goes with it. -/
def kDivisionBy10Div : BitVec 64 := 1 <<< 10

/-- The factor that divides by a hundred. -/
def kDivisionBy100Mul : BitVec 64 := 10486

/-- The divisor that goes with it. -/
def kDivisionBy100Div : BitVec 64 := 1 <<< 20

/-- A buffer and a position in it. -/
abbrev Cursor := List UInt8 × ℕ

/-- `little_endian::Store16`, `Store32` and `Store64` at the position, without moving it. -/
def store {w : ℕ} (bytes : ℕ) (x : BitVec w) (c : Cursor) : Option Cursor :=
  (put c.1 c.2 (leBytes bytes x.toNat)).map fun buf => (buf, c.2)

/-- The pointer moved by `n`. -/
def Cursor.advance (n : ℤ) (c : Cursor) : Cursor := (c.1, ((c.2 : ℤ) + n).toNat)

/-- `countr_zero` of a word other than zero. -/
def countrZero {w : ℕ} (x : BitVec w) : ℕ := BitScan.ctz x.toNat

/-- The word that `EncodeHundred` stores. It shifts a leading zero out. -/
def hundredWord (n : BitVec 32) : BitVec 16 :=
  let numDigits : BitVec 32 := (n - 10).sshiftRight 8
  let div10 : BitVec 32 := ((n.setWidth 64 * kDivisionBy10Mul) / kDivisionBy10Div).setWidth 32
  let mod10 := n - 10 * div10
  let base := kTwoZeroBytes + div10 + (mod10 <<< 8)
  (base >>> (numDigits &&& 8).toNat).setWidth 16

/-- `EncodeHundred`. -/
def encodeHundred (n : BitVec 32) (c : Cursor) : Option Cursor :=
  let numDigits : BitVec 32 := (n - 10).sshiftRight 8
  (store 2 (hundredWord n) c).map (·.advance (2 + numDigits.toInt))

/-- The digits of `EncodeTenThousand`, one in each byte. -/
def tenThousandDigits (n : BitVec 32) : BitVec 32 :=
  let div100 : BitVec 32 := ((n.setWidth 64 * kDivisionBy100Mul) / kDivisionBy100Div).setWidth 32
  let mod100 : BitVec 32 := (n.setWidth 64 - 100 * div100.setWidth 64).setWidth 32
  let hundreds := (mod100 <<< 16) + div100
  let tens : BitVec 32 := ((hundreds.setWidth 64 * kDivisionBy10Mul) / kDivisionBy10Div).setWidth 32
  let tens : BitVec 32 := (tens.setWidth 64 &&& ((0xF <<< 16) ||| 0xF)).setWidth 32
  tens + ((hundreds.setWidth 64 - 10 * tens.setWidth 64) <<< 8).setWidth 32

/-- What `EncodeTenThousand` stores, before the shift. -/
def tenThousandBytes (n : BitVec 32) : BitVec 32 :=
  ((tenThousandDigits n).setWidth 64 + kFourZeroBytes).setWidth 32

/-- `EncodeTenThousand`. -/
def encodeTenThousand (n : BitVec 32) (c : Cursor) : Option Cursor :=
  -- whole bytes of zeros, not the single zero bits of the first digit
  let zeroes : BitVec 32 := BitVec.ofNat 32 (countrZero (tenThousandDigits n)) &&& (0 - 8)
  (store 4 (tenThousandBytes n >>> zeroes.toNat) c).map (·.advance (4 - (zeroes / 8).toNat))

/-- `PrepareEightDigits` of a number below `10^8`. -/
def prepareEightDigits (i : BitVec 32) : BitVec 64 :=
  let hi := i / 10000
  let lo := i % 10000
  let merged : BitVec 64 := hi.setWidth 64 ||| (lo.setWidth 64 <<< 32)
  let div100 := ((merged * kDivisionBy100Mul) / kDivisionBy100Div) &&& ((0x7F <<< 32) ||| 0x7F)
  let mod100 := merged - 100 * div100
  let hundreds := (mod100 <<< 16) + div100
  let tens := (hundreds * kDivisionBy10Mul) / kDivisionBy10Div
  let tens := tens &&& ((0xF <<< 48) ||| (0xF <<< 32) ||| (0xF <<< 16) ||| 0xF)
  tens + ((hundreds - 10 * tens) <<< 8)

/-- `EncodePadded16`. -/
def encodePadded16 (v : BitVec 64) (c : Cursor) : Option Cursor :=
  let hi : BitVec 32 := (v / 100000000).setWidth 32
  let lo : BitVec 32 := (v % 100000000).setWidth 32
  (store 8 (prepareEightDigits hi + kEightZeroBytes) c).bind fun c =>
    (store 8 (prepareEightDigits lo + kEightZeroBytes) (c.advance 8)).map (·.advance 8)

/-- `EncodeFullU32`. -/
def encodeFullU32 (n : BitVec 32) (c : Cursor) : Option Cursor :=
  if n < 10 then (store 1 (48 + n) c).map (·.advance 1)
  else if n < 100000000 then
    let bottom := prepareEightDigits n
    let zeroes : BitVec 32 := BitVec.ofNat 32 (countrZero bottom) &&& (0 - 8)
    (store 8 ((bottom + kEightZeroBytes) >>> zeroes.toNat) c).map
      (·.advance (8 - (zeroes / 8).toNat))
  else
    let div08 := n / 100000000
    let mod08 := n % 100000000
    let bottom := prepareEightDigits mod08 + kEightZeroBytes
    (encodeHundred div08 c).bind fun c => (store 8 bottom c).map (·.advance 8)

/-- `EncodeFullU64`. -/
def encodeFullU64 (i : BitVec 64) (c : Cursor) : Option Cursor :=
  if i ≤ 0xffffffff then encodeFullU32 (i.setWidth 32) c
  else if i < 10000000000000000 then
    let div08 : BitVec 32 := (i / 100000000).setWidth 32
    let mod08 : BitVec 32 := (i % 100000000).setWidth 32
    (encodeFullU32 div08 c).bind fun c =>
      (store 8 (prepareEightDigits mod08 + kEightZeroBytes) c).map (·.advance 8)
  else
    let div08 := i / 100000000
    let mod08 : BitVec 32 := (i % 100000000).setWidth 32
    let div016 : BitVec 32 := (div08 / 100000000).setWidth 32
    let div08mod08 : BitVec 32 := (div08 % 100000000).setWidth 32
    let midResult := prepareEightDigits div08mod08 + kEightZeroBytes
    (encodeTenThousand div016 c).bind fun c =>
      (store 8 midResult c).bind fun c =>
        (store 8 (prepareEightDigits mod08 + kEightZeroBytes) (c.advance 8)).map (·.advance 8)

/-- `EncodeFullU128`. -/
def encodeFullU128 (i : Uint128) (c : Cursor) : Option Cursor :=
  if i.hi = 0 then encodeFullU64 i.lo c
  else
    let k1e16 := Uint128.ofUint64 10000000000000000
    let high := (i.divModImpl k1e16).1
    let low := (i.divModImpl k1e16).2.lo
    let mid := (high.divModImpl k1e16).2.lo
    let high := (high.divModImpl k1e16).1
    if high.eq (.ofUint64 0) then (encodeFullU64 mid c).bind (encodePadded16 low)
    else (encodeFullU64 high.lo c).bind fun c => (encodePadded16 mid c).bind (encodePadded16 low)

/-- The last store of every overload : the terminating NUL. -/
def terminate (c : Cursor) : Option Cursor := store 1 (0 : BitVec 8) c

/-- `FastIntToBuffer(uint32_t)`. -/
def fastIntToBufferU32 (n : BitVec 32) (buf : List UInt8) : Option Cursor :=
  (encodeFullU32 n (buf, 0)).bind terminate

/-- `FastIntToBuffer(int32_t)`. -/
def fastIntToBufferI32 (i : BitVec 32) (buf : List UInt8) : Option Cursor :=
  if i.toInt < 0 then
    (store 1 (45 : BitVec 8) (buf, 0)).bind fun c =>
      (encodeFullU32 (0 - i) (c.advance 1)).bind terminate
  else (encodeFullU32 i (buf, 0)).bind terminate

/-- `FastIntToBuffer(uint64_t)`. -/
def fastIntToBufferU64 (i : BitVec 64) (buf : List UInt8) : Option Cursor :=
  (encodeFullU64 i (buf, 0)).bind terminate

/-- `FastIntToBuffer(int64_t)`. -/
def fastIntToBufferI64 (i : BitVec 64) (buf : List UInt8) : Option Cursor :=
  if i.toInt < 0 then
    (store 1 (45 : BitVec 8) (buf, 0)).bind fun c =>
      (encodeFullU64 (0 - i) (c.advance 1)).bind terminate
  else (encodeFullU64 i (buf, 0)).bind terminate

/-- `FastIntToBuffer(uint128)`. -/
def fastIntToBufferU128 (i : Uint128) (buf : List UInt8) : Option Cursor :=
  (encodeFullU128 i (buf, 0)).bind terminate

/-- `FastIntToBuffer(int128)` ; the sign of an `int128` is that of its high word. -/
def fastIntToBufferI128 (i : Uint128) (buf : List UInt8) : Option Cursor :=
  if i.hi.toInt < 0 then
    (store 1 (45 : BitVec 8) (buf, 0)).bind fun c =>
      (encodeFullU128 i.neg (c.advance 1)).bind terminate
  else (encodeFullU128 i (buf, 0)).bind terminate

/-- The 128-bit words of an integer. -/
def uint128OfInt (i : ℤ) : Uint128 := ⟨BitVec.ofInt 64 (i / 2 ^ 64), BitVec.ofInt 64 i⟩

/-- `FastIntToBuffer` for an integer type : the overload of its size and sign. -/
def fastIntToBuffer (t : IntType) (i : ℤ) (buf : List UInt8) : Option Cursor :=
  match t with
  | .int8 | .int16 | .int32 => fastIntToBufferI32 (BitVec.ofInt 32 i) buf
  | .int64 => fastIntToBufferI64 (BitVec.ofInt 64 i) buf
  | .int128 => fastIntToBufferI128 (uint128OfInt i) buf
  | .uint8 | .uint16 | .uint32 => fastIntToBufferU32 (BitVec.ofInt 32 i) buf
  | .uint64 => fastIntToBufferU64 (BitVec.ofInt 64 i) buf
  | .uint128 => fastIntToBufferU128 (uint128OfInt i) buf

/-- `kFastToBufferSize` and `kFastToBuffer128Size`. -/
def fastToBufferSize (t : IntType) : ℕ := if t.bits = 128 then 41 else 32

end Abseil
