import Abseil.Utf8Lengths
import Abseil.Punycode

/-!
# `DecodeRustPunycode`

The code inserts the characters into the output buffer one by one, as UTF-8. An access outside of a
buffer and a number that does not fit into its type are faults; a null pointer is returned where the
input is not accepted. The terminator stands behind the text at all times.
-/

namespace Abseil.RustPunycode

open ByteBuffer Utf8Lengths

/-! ## Faults -/

/-- How a call may end early. -/
inductive Stop
  | null
  | fault
  deriving DecidableEq

/-- Code that may fault. -/
abbrev Run := Except Stop

/-- A number of `uint32_t`. -/
def u32 (x : ℕ) : Run ℕ := if x < 2 ^ 32 then .ok x else .error .fault

/-- A number of `uint64_t`. -/
def u64 (x : ℕ) : Run ℕ := if x < 2 ^ 64 then .ok x else .error .fault

/-- A number of `int` that is not negative. -/
def int (x : ℕ) : Run ℕ := if x < 2 ^ 31 then .ok x else .error .fault

/-- The difference of two numbers without a sign. -/
def sub (x y : ℕ) : Run ℕ := if y ≤ x then .ok (x - y) else .error .fault

/-- A value that must be there. -/
def orFault {α : Type} : Option α → Run α
  | some a => .ok a
  | none => .error .fault

/-! ## The prefix -/

/-- The most characters that are decoded. -/
def kMaxChars : ℕ := 256

/-- The largest `i`. -/
def kMaxI : ℕ := 2 ^ 30

/-- The scan for the last underscore. -/
def findLastUnderscore : ℕ → Option ℕ → List UInt8 → Run (Option ℕ)
  | _, last, [] => .ok last
  | i, last, c :: punycode =>
    if c = 95 then do
      let i' ← int (i + 1)
      findLastUnderscore i' (some i) punycode
    else if (97 ≤ c ∧ c ≤ 122) ∨ (65 ≤ c ∧ c ≤ 90) ∨ (48 ≤ c ∧ c ≤ 57) then do
      let i' ← int (i + 1)
      findLastUnderscore i' last punycode
    else .error .null

/-- `ConsumeOptionalAsciiPrefix` : the number of characters, the rest of the input, the output. -/
def consumeOptionalAsciiPrefix (punycode out : List UInt8) :
    Run (ℕ × List UInt8 × List UInt8) := do
  let lastUnderscore ← findLastUnderscore 0 none punycode
  match lastUnderscore with
  | none => .ok (0, punycode, out)
  | some 0 => .error .null
  | some (l + 1) =>
    if l + 1 + 1 > out.length then .error .null
    else do
      let out ← orFault (put out 0 (punycode.take (l + 1)))
      let out ← orFault (put out (l + 1) [0])
      .ok (l + 1, punycode.drop (l + 1 + 1), out)

/-! ## A delta -/

/-- `DigitValue`. -/
def digitValue (c : UInt8) : Option ℕ :=
  if 48 ≤ c ∧ c ≤ 57 then some (c.toNat - 48 + 26)
  else if 97 ≤ c ∧ c ≤ 122 then some (c.toNat - 97)
  else if 65 ≤ c ∧ c ≤ 90 then some (c.toNat - 65)
  else none

/-- The loop of `ScanNextDelta`. -/
def scanNextDelta (bias : ℕ) : ℕ → ℕ → ℕ → List UInt8 → Run (ℕ × List UInt8)
  | _, _, _, [] => .error .null
  | k, w, i, c :: punycode =>
    match digitValue c with
    | none => .error .null
    | some digit => do
      let product ← u64 (digit * w)
      let newI ← u64 (i + product)
      if newI > kMaxI then .error .null
      else do
        let low ← u32 (bias + 1)
        let high ← u32 (bias + 26)
        let t := if k ≤ low then 1 else if k ≥ high then 26 else k - bias
        if digit < t then .ok (newI, punycode)
        else do
          let w ← u64 (w * (36 - t))
          let k ← u32 (k + 36)
          scanNextDelta bias k w newI punycode

/-! ## Characters -/

/-- `Utf8ForCodePoint` : the bytes, none if the code point is not valid. -/
def utf8ForCodePoint (codePoint : ℕ) : List UInt8 :=
  if codePoint ≤ 0x7f then [UInt8.ofNat codePoint]
  else if codePoint ≤ 0x7ff then
    [UInt8.ofNat (0xc0 ||| codePoint >>> 6), UInt8.ofNat (0x80 ||| (codePoint &&& 0x3f))]
  else if 0xd800 ≤ codePoint ∧ codePoint ≤ 0xdfff then []
  else if codePoint ≤ 0xffff then
    [UInt8.ofNat (0xe0 ||| codePoint >>> 12), UInt8.ofNat (0x80 ||| (codePoint >>> 6 &&& 0x3f)),
      UInt8.ofNat (0x80 ||| (codePoint &&& 0x3f))]
  else if codePoint > 0x10ffff then []
  else
    [UInt8.ofNat (0xf0 ||| codePoint >>> 18), UInt8.ofNat (0x80 ||| (codePoint >>> 12 &&& 0x3f)),
      UInt8.ofNat (0x80 ||| (codePoint >>> 6 &&& 0x3f)),
      UInt8.ofNat (0x80 ||| (codePoint &&& 0x3f))]

/-- `memmove` in a buffer. -/
def memmove (buf : List UInt8) (dst src n : ℕ) : Option (List UInt8) :=
  if src + n ≤ buf.length then put buf dst ((buf.drop src).take n) else none

/-! ## `DecodeRustPunycode` -/

/-- The variables of `DecodeRustPunycode`. -/
structure State where
  punycode : List UInt8
  n : ℕ
  i : ℕ
  bias : ℕ
  numChars : ℕ
  totalUtf8Bytes : ℕ
  utf8Lengths : List ℕ
  out : List UInt8

/-- The loop of the bias update. -/
def biasLoop (delta bias : ℕ) : Run (ℕ × ℕ) :=
  if delta > 35 * 26 / 2 then do
    let bias ← u32 (bias + 36)
    biasLoop (delta / 35) bias
  else .ok (delta, bias)
termination_by delta
decreasing_by exact Nat.div_lt_self (by omega) (by norm_num)

/-- The new bias. -/
def updateBias (i oldI numChars : ℕ) : Run ℕ := do
  let difference ← sub i oldI
  let delta := difference / if oldI = 0 then 700 else 2
  let delta ← u32 (delta + delta / (numChars + 1))
  let (delta, bias) ← biasLoop delta 0
  let scaled ← u32 (36 * delta)
  u32 (bias + scaled / (delta + 38))

/-- The insertion of a character into the lengths and the output. -/
def insertCharacter (i : ℕ) (utf8 : List UInt8) (s : State) : Run (List ℕ × List UInt8) := do
  let (nIndex, utf8Lengths) ← orFault
    (insertAndReturnSumOfPredecessors kMaxChars s.utf8Lengths i utf8.length)
  let count ← sub (s.totalUtf8Bytes + 1) nIndex
  let out ← orFault (memmove s.out (nIndex + utf8.length) nIndex count)
  let out ← orFault (put out nIndex utf8)
  .ok (utf8Lengths, out)

/-- One round of the loop. -/
def decodeStep (s : State) : Run State :=
  if s.numChars ≥ kMaxChars then .error .null
  else do
    let (i, punycode) ← scanNextDelta s.bias 36 1 s.i s.punycode
    let bias ← updateBias i s.i s.numChars
    let n ← u32 (s.n + i / (s.numChars + 1))
    let i := i % (s.numChars + 1)
    let utf8 := utf8ForCodePoint n
    if utf8.length = 0 then .error .null
    else do
      let size ← u32 (s.totalUtf8Bytes + utf8.length + 1)
      if size > s.out.length then .error .null
      else do
        let (utf8Lengths, out) ← insertCharacter i utf8 s
        .ok ⟨punycode, n, i + 1, bias, s.numChars + 1, s.totalUtf8Bytes + utf8.length, utf8Lengths,
          out⟩

/-- The loop. Each round reads a byte at least. -/
def decodeLoop : ℕ → State → Run State
  | fuel, s =>
    if s.punycode = [] then .ok s
    else
      match fuel with
      | 0 => .error .fault
      | fuel + 1 => do
        let s ← decodeStep s
        decodeLoop fuel s

/-- `DecodeRustPunycode` : where the terminator is, and the output. -/
def decodeRustPunycode (punycode out : List UInt8) : Run (ℕ × List UInt8) :=
  if out.length = 0 then .error .null
  else do
    let out ← orFault (put out 0 [0])
    let (numChars, punycode, out) ← consumeOptionalAsciiPrefix punycode out
    let s ← decodeLoop punycode.length
      ⟨punycode, 128, 0, 72, numChars, numChars, List.replicate (kMaxChars / 32) 0, out⟩
    .ok (s.totalUtf8Bytes, s.out)

end Abseil.RustPunycode
