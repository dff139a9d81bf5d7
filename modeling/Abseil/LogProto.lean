import Abseil.ByteBuffer

/-!
# The wire format of log entries

Fields are written into a span of a buffer, front to back. A call that finds no room writes nothing
and makes the span empty, so that every later call fails as well. The length of a message is
reserved when the message starts, with the width of the largest length that it may get, and written
when it ends.

A write outside of the span or of the buffer, and a shift by the width of the type or more, are
faults. The sizes of spans are those of objects, so that a sum of them does not wrap.
-/

namespace Abseil.LogProto

open ByteBuffer

/-! ## Varints and tags -/

/-- `WireType`. -/
inductive WireType
  | kVarint
  | k64Bit
  | kLengthDelimited
  | k32Bit
  | unnamed (n : ℕ)
  deriving DecidableEq

/-- The number of a type. -/
def WireType.toNat : WireType → ℕ
  | .kVarint => 0
  | .k64Bit => 1
  | .kLengthDelimited => 2
  | .k32Bit => 5
  | .unnamed n => n

/-- The type of a number. -/
def WireType.ofNat : ℕ → WireType
  | 0 => .kVarint
  | 1 => .k64Bit
  | 2 => .kLengthDelimited
  | 5 => .k32Bit
  | n => .unnamed n

/-- `VarintSize`. -/
def varintSize (value : ℕ) : ℕ := if value < 128 then 1 else 1 + varintSize (value >>> 7)
termination_by value
decreasing_by
  rw [Nat.shiftRight_eq_div_pow]
  exact Nat.div_lt_self (by omega) (by norm_num)

/-- `MakeTagType`. -/
def makeTagType (tag : ℕ) (type : WireType) : ℕ := tag <<< 3 % 2 ^ 64 ||| type.toNat

/-- The bytes that `EncodeRawVarint` writes. -/
def rawVarint : ℕ → ℕ → List UInt8
  | 0, _ => []
  | size + 1, value =>
    UInt8.ofNat ((value &&& 0x7f) ||| if size = 0 then 0 else 0x80) :: rawVarint size (value >>> 7)

/-! ## The span -/

/-- A span of a buffer : where it starts, and how long it is. -/
structure Buf where
  mem : List UInt8
  data : ℕ
  size : ℕ
  deriving DecidableEq

/-- `remove_suffix` of all. -/
def Buf.clear (b : Buf) : Buf := { b with size := 0 }

/-- Writing to the front of the span, and removing what was written from it. -/
def Buf.write (bytes : List UInt8) (b : Buf) : Option Buf :=
  if bytes.length ≤ b.size then
    (put b.mem b.data bytes).map fun mem => ⟨mem, b.data + bytes.length, b.size - bytes.length⟩
  else none

/-- The pieces are written one behind the other. -/
def Buf.writeAll : List (List UInt8) → Buf → Option Buf
  | [], b => some b
  | bytes :: pieces, b => (b.write bytes).bind (Buf.writeAll pieces)

/-! ## Encoding -/

/-- The pieces of a field, if there is room for them. -/
def encodePieces (pieces : List (List UInt8)) (b : Buf) : Option (Bool × Buf) :=
  if (pieces.map List.length).sum > b.size then some (false, b.clear)
  else (b.writeAll pieces).map (true, ·)

/-- The tag of a field as a varint. -/
def encodedTag (tag : ℕ) (type : WireType) : List UInt8 :=
  rawVarint (varintSize (makeTagType tag type)) (makeTagType tag type)

/-- `EncodeVarint`. -/
def encodeVarint (tag value : ℕ) : Buf → Option (Bool × Buf) :=
  encodePieces [encodedTag tag .kVarint, rawVarint (varintSize value) value]

/-- The value that `EncodeVarintZigZag` encodes. -/
def zigZag (value : ℤ) : ℕ :=
  if value < 0 then (2 * (-(value + 1)).toNat + 1) % 2 ^ 64 else 2 * value.toNat % 2 ^ 64

/-- `EncodeVarintZigZag`. -/
def encodeVarintZigZag (tag : ℕ) (value : ℤ) : Buf → Option (Bool × Buf) :=
  encodeVarint tag (zigZag value)

/-- `Encode64Bit`. -/
def encode64Bit (tag value : ℕ) : Buf → Option (Bool × Buf) :=
  encodePieces [encodedTag tag .k64Bit, leBytes 8 value]

/-- `Encode32Bit`. -/
def encode32Bit (tag value : ℕ) : Buf → Option (Bool × Buf) :=
  encodePieces [encodedTag tag .k32Bit, leBytes 4 value]

/-- `EncodeBytes`. -/
def encodeBytes (tag : ℕ) (value : List UInt8) : Buf → Option (Bool × Buf) :=
  encodePieces [encodedTag tag .kLengthDelimited,
    rawVarint (varintSize value.length) value.length, value]

/-- `remove_suffix` of the value. -/
def removeSuffix (n : ℕ) (value : List UInt8) : Option (List UInt8) :=
  if n ≤ value.length then some (value.take (value.length - n)) else none

/-- `EncodeBytesTruncate`. The width of the length is that before the value is cut. -/
def encodeBytesTruncate (tag : ℕ) (value : List UInt8) (b : Buf) : Option (Bool × Buf) :=
  let tagTypeSize := (encodedTag tag .kLengthDelimited).length
  let lengthSize := varintSize (min value.length b.size)
  (if tagTypeSize + lengthSize ≤ b.size ∧ tagTypeSize + lengthSize + value.length > b.size then
      removeSuffix (tagTypeSize + lengthSize + value.length - b.size) value
    else some value).bind fun value =>
    encodePieces [encodedTag tag .kLengthDelimited, rawVarint lengthSize value.length, value] b

/-- `EncodeMessageStart` : the span of the length, or none. -/
def encodeMessageStart (tag maxSize : ℕ) (b : Buf) : Option (Option (ℕ × ℕ) × Buf) :=
  let lengthSize := varintSize (min maxSize b.size)
  if (encodedTag tag .kLengthDelimited).length + lengthSize > b.size then some (none, b.clear)
  else do
    let b ← b.write (encodedTag tag .kLengthDelimited)
    let ret := (b.data, lengthSize)
    let b ← b.write (rawVarint lengthSize 0)
    some (some ret, b)

/-- `EncodeMessageLength`. -/
def encodeMessageLength (msg : Option (ℕ × ℕ)) (b : Buf) : Option Buf :=
  match msg with
  | none => some b
  | some (data, size) =>
    if b.data < data then some b
    else (put b.mem data (rawVarint size (((b.data : ℤ) - (data + size : ℕ)) % 2 ^ 64).toNat)).map
      fun mem => { b with mem := mem }

/-! ## Sequences of calls -/

/-- A call that encodes one field. -/
inductive Call
  | varint (tag value : ℕ)
  | zigZag (tag : ℕ) (value : ℤ)
  | fixed64 (tag value : ℕ)
  | fixed32 (tag value : ℕ)
  | bytes (tag : ℕ) (value : List UInt8)
  | bytesTruncate (tag : ℕ) (value : List UInt8)

/-- The function that a call is of. -/
def Call.encode : Call → Buf → Option (Bool × Buf)
  | .varint tag value => encodeVarint tag value
  | .zigZag tag value => encodeVarintZigZag tag value
  | .fixed64 tag value => encode64Bit tag value
  | .fixed32 tag value => encode32Bit tag value
  | .bytes tag value => encodeBytes tag value
  | .bytesTruncate tag value => encodeBytesTruncate tag value

/-- Calls in a row, with messages that are nested properly. -/
inductive Calls
  | nil
  | call (c : Call) (rest : Calls)
  | message (tag maxSize : ℕ) (body rest : Calls)

/-- The number of calls that start a field. -/
def Calls.count : Calls → ℕ
  | .nil => 0
  | .call _ rest => rest.count + 1
  | .message _ _ body rest => body.count + rest.count + 1

/-- The calls one after another, with what each returns. -/
def Calls.run : Calls → Buf → Option (List Bool × Buf)
  | .nil, b => some ([], b)
  | .call c rest, b => do
    let (ok, b) ← c.encode b
    let (oks, b) ← rest.run b
    some (ok :: oks, b)
  | .message tag maxSize body rest, b => do
    let (msg, b) ← encodeMessageStart tag maxSize b
    let (oks, b) ← body.run b
    let b ← encodeMessageLength msg b
    let (oks', b) ← rest.run b
    some (msg.isSome :: (oks ++ oks'), b)

/-! ## Decoding -/

/-- The loop of `DecodeVarint`. -/
def decodeVarintLoop : ℕ → ℕ → List UInt8 → Option (ℕ × List UInt8)
  | _, value, [] => some (value, [])
  | s, value, c :: buf =>
    if 7 * s < 64 then
      let value := value ||| (c.toNat &&& 0x7f) <<< (7 * s) % 2 ^ 64
      if c.toNat &&& 0x80 = 0 then some (value, buf) else decodeVarintLoop (s + 1) value buf
    else none

/-- `DecodeVarint`. -/
def decodeVarint (buf : List UInt8) : Option (ℕ × List UInt8) := decodeVarintLoop 0 0 buf

/-- The loop of `Decode64Bit` and `Decode32Bit`, over `w` bytes. -/
def decodeFixedLoop (w : ℕ) : ℕ → ℕ → List UInt8 → ℕ × List UInt8
  | _, value, [] => (value, [])
  | s, value, c :: buf =>
    let value := value ||| c.toNat <<< (8 * s) % 2 ^ (8 * w)
    if s + 1 = w then (value, buf) else decodeFixedLoop w (s + 1) value buf

/-- `Decode64Bit`. -/
def decode64Bit (buf : List UInt8) : ℕ × List UInt8 := decodeFixedLoop 8 0 0 buf

/-- `Decode32Bit`. -/
def decode32Bit (buf : List UInt8) : ℕ × List UInt8 := decodeFixedLoop 4 0 0 buf

/-- `ProtoField`. -/
structure ProtoField where
  tag : ℕ
  type : WireType
  value : ℕ
  data : List UInt8

/-- The value behind the tag. -/
def ProtoField.decodeValue (f : ProtoField) (data : List UInt8) :
    Option (ProtoField × List UInt8) :=
  match f.type with
  | .kVarint => (decodeVarint data).map fun r => ({ f with value := r.1 }, r.2)
  | .k64Bit => some ({ f with value := (decode64Bit data).1 }, (decode64Bit data).2)
  | .kLengthDelimited => (decodeVarint data).map fun r =>
    ({ f with value := r.1, data := r.2.take (min r.1 r.2.length) }, r.2.drop (min r.1 r.2.length))
  | .k32Bit => some ({ f with value := (decode32Bit data).1 }, (decode32Bit data).2)
  | .unnamed _ => some (f, data)

/-- `ProtoField::DecodeFrom` : the field and the data behind it, none if there was no data. -/
def ProtoField.decodeFrom (f : ProtoField) (data : List UInt8) :
    Option (Option (ProtoField × List UInt8)) :=
  if data = [] then some none
  else (decodeVarint data).bind fun r =>
    (decodeValue { f with tag := r.1 >>> 3, type := .ofNat (r.1 &&& 0x07) } r.2).map some

/-- The fields in `data`, as a loop over `DecodeFrom` gets them. -/
def decodeFields : ℕ → ProtoField → List UInt8 → Option (List ProtoField)
  | 0, _, _ => none
  | fuel + 1, f, data =>
    match f.decodeFrom data with
    | none => none
    | some none => some []
    | some (some (f, data)) => (decodeFields fuel f data).map (f :: ·)

/-- `sint64_value`. -/
def ProtoField.sint64Value (f : ProtoField) : ℤ :=
  if f.value % 2 ≠ 0 then Int.bmod (0 - ((f.value - 1) / 2 : ℕ) - 1) (2 ^ 64)
  else Int.bmod (f.value / 2 : ℕ) (2 ^ 64)

end Abseil.LogProto
