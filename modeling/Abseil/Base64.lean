import Abseil.Ascii

/-!
# Base64

`Base64Escape`, `Base64Unescape` and their web-safe forms. The encoder takes three bytes at a
time to four characters; the decoder takes four characters at a time to three bytes while
they are all data, and otherwise goes on character by character, past whitespace, until it
meets padding.

A source is a list of bytes and its size the length of the list. The destination is the list of
what was stored so far together with the size of the buffer. An exit of the decoder says
which of its `return false` was taken; `undefined` is a read past the source or a count of pads
that leaves `int`. The sizes of the encoder are those of a 64-bit `size_t`, with products modulo
`2 ^ 64`.
-/

namespace Abseil

/-! ## Tables -/

/-- `kBase64Chars` : `A`-`Z`, `a`-`z`, `0`-`9`, `+`, `/`. -/
def kBase64Chars : List UInt8 :=
  [65, 66, 67, 68, 69, 70, 71, 72, 73, 74, 75, 76, 77, 78, 79, 80,
   81, 82, 83, 84, 85, 86, 87, 88, 89, 90, 97, 98, 99, 100, 101, 102,
   103, 104, 105, 106, 107, 108, 109, 110, 111, 112, 113, 114, 115, 116, 117, 118,
   119, 120, 121, 122, 48, 49, 50, 51, 52, 53, 54, 55, 56, 57, 43, 47]

/-- `kWebSafeBase64Chars` : with `-` and `_` in place of `+` and `/`. -/
def kWebSafeBase64Chars : List UInt8 :=
  [65, 66, 67, 68, 69, 70, 71, 72, 73, 74, 75, 76, 77, 78, 79, 80,
   81, 82, 83, 84, 85, 86, 87, 88, 89, 90, 97, 98, 99, 100, 101, 102,
   103, 104, 105, 106, 107, 108, 109, 110, 111, 112, 113, 114, 115, 116, 117, 118,
   119, 120, 121, 122, 48, 49, 50, 51, 52, 53, 54, 55, 56, 57, 45, 95]

/-- `kUnBase64` : the value of a character, -1 for one that is none. -/
def kUnBase64 : List ℤ :=
  [-1, -1, -1, -1, -1, -1, -1, -1, -1, -1, -1, -1, -1, -1, -1, -1,
   -1, -1, -1, -1, -1, -1, -1, -1, -1, -1, -1, -1, -1, -1, -1, -1,
   -1, -1, -1, -1, -1, -1, -1, -1, -1, -1, -1, 62, -1, -1, -1, 63,
   52, 53, 54, 55, 56, 57, 58, 59, 60, 61, -1, -1, -1, -1, -1, -1,
   -1, 0, 1, 2, 3, 4, 5, 6, 7, 8, 9, 10, 11, 12, 13, 14,
   15, 16, 17, 18, 19, 20, 21, 22, 23, 24, 25, -1, -1, -1, -1, -1,
   -1, 26, 27, 28, 29, 30, 31, 32, 33, 34, 35, 36, 37, 38, 39, 40,
   41, 42, 43, 44, 45, 46, 47, 48, 49, 50, 51, -1, -1, -1, -1, -1,
   -1, -1, -1, -1, -1, -1, -1, -1, -1, -1, -1, -1, -1, -1, -1, -1,
   -1, -1, -1, -1, -1, -1, -1, -1, -1, -1, -1, -1, -1, -1, -1, -1,
   -1, -1, -1, -1, -1, -1, -1, -1, -1, -1, -1, -1, -1, -1, -1, -1,
   -1, -1, -1, -1, -1, -1, -1, -1, -1, -1, -1, -1, -1, -1, -1, -1,
   -1, -1, -1, -1, -1, -1, -1, -1, -1, -1, -1, -1, -1, -1, -1, -1,
   -1, -1, -1, -1, -1, -1, -1, -1, -1, -1, -1, -1, -1, -1, -1, -1,
   -1, -1, -1, -1, -1, -1, -1, -1, -1, -1, -1, -1, -1, -1, -1, -1,
   -1, -1, -1, -1, -1, -1, -1, -1, -1, -1, -1, -1, -1, -1, -1, -1]

/-- `kUnWebSafeBase64`. -/
def kUnWebSafeBase64 : List ℤ :=
  [-1, -1, -1, -1, -1, -1, -1, -1, -1, -1, -1, -1, -1, -1, -1, -1,
   -1, -1, -1, -1, -1, -1, -1, -1, -1, -1, -1, -1, -1, -1, -1, -1,
   -1, -1, -1, -1, -1, -1, -1, -1, -1, -1, -1, -1, -1, 62, -1, -1,
   52, 53, 54, 55, 56, 57, 58, 59, 60, 61, -1, -1, -1, -1, -1, -1,
   -1, 0, 1, 2, 3, 4, 5, 6, 7, 8, 9, 10, 11, 12, 13, 14,
   15, 16, 17, 18, 19, 20, 21, 22, 23, 24, 25, -1, -1, -1, -1, 63,
   -1, 26, 27, 28, 29, 30, 31, 32, 33, 34, 35, 36, 37, 38, 39, 40,
   41, 42, 43, 44, 45, 46, 47, 48, 49, 50, 51, -1, -1, -1, -1, -1,
   -1, -1, -1, -1, -1, -1, -1, -1, -1, -1, -1, -1, -1, -1, -1, -1,
   -1, -1, -1, -1, -1, -1, -1, -1, -1, -1, -1, -1, -1, -1, -1, -1,
   -1, -1, -1, -1, -1, -1, -1, -1, -1, -1, -1, -1, -1, -1, -1, -1,
   -1, -1, -1, -1, -1, -1, -1, -1, -1, -1, -1, -1, -1, -1, -1, -1,
   -1, -1, -1, -1, -1, -1, -1, -1, -1, -1, -1, -1, -1, -1, -1, -1,
   -1, -1, -1, -1, -1, -1, -1, -1, -1, -1, -1, -1, -1, -1, -1, -1,
   -1, -1, -1, -1, -1, -1, -1, -1, -1, -1, -1, -1, -1, -1, -1, -1,
   -1, -1, -1, -1, -1, -1, -1, -1, -1, -1, -1, -1, -1, -1, -1, -1]

/-- `kPad64Equals` or `kPad64Dot`. -/
def isPad (ch : UInt8) : Bool := ch = 61 ∨ ch = 46

/-! ## Decoding -/

/-- How the decoder ends without a result : a character that has no place in the input, no room
in the buffer, six bits left over, a wrong number of pads, the `FATAL` case, or undefined
behaviour. -/
inductive UnescapeExit
  | character | room | bits | padding | fatal | undefined
  deriving DecidableEq, Repr

/-- The variables of `Base64UnescapeInternal`. -/
structure Decoder where
  src : List UInt8
  dest : List UInt8
  decode : ℤ
  state : ℕ
  ch : UInt8
  temp : BitVec 32

/-- `unbase64[ch]`. -/
def unbase64Value (unbase64 : List ℤ) (ch : UInt8) : ℤ := unbase64.getD ch.toNat (-1)

/-- `GET_INPUT` : the next character that is not whitespace, as long as `remain` more
characters are there. `false` is the `break` out of the loop. -/
def getInput (unbase64 : List ℤ) (remain : ℕ) : List UInt8 → Decoder →
    Except UnescapeExit (Bool × Decoder)
  | [], _ => .error .undefined
  | ch :: src, s =>
    let decode := unbase64Value unbase64 ch
    if decode < 0 then
      if asciiIsSpace ch ∧ src.length ≥ remain then getInput unbase64 remain src s
      else .ok (false, { s with src, ch, decode, state := 4 - remain })
    else .ok (true, { s with src, ch, decode })

/-- `static_cast<unsigned char>(decode)`, as an `unsigned int`. -/
def Decoder.sextet (s : Decoder) : BitVec 32 := (BitVec.ofInt 8 s.decode).setWidth 32

/-- `temp = (temp << 6) | static_cast<unsigned char>(decode)`. -/
def Decoder.shiftIn (s : Decoder) : Decoder := { s with temp := (s.temp <<< 6) ||| s.sextet }

/-- Go on with the character that was read, unless the loop was left. -/
def thenData (r : Except UnescapeExit (Bool × Decoder))
    (next : Decoder → Except UnescapeExit (Bool × Decoder)) :
    Except UnescapeExit (Bool × Decoder) :=
  match r with
  | .error e => .error e
  | .ok (false, s) => .ok (false, s)
  | .ok (true, s) => next s

/-- The slower decoder, for four characters that are not all data. -/
def slowQuantum (unbase64 : List ℤ) (s : Decoder) : Except UnescapeExit (Bool × Decoder) :=
  thenData (getInput unbase64 4 s.src s) fun s =>
    let s := { s with temp := s.sextet }
    thenData (getInput unbase64 3 s.src s) fun s =>
      let s := s.shiftIn
      thenData (getInput unbase64 2 s.src s) fun s =>
        let s := s.shiftIn
        thenData (getInput unbase64 1 s.src s) fun s => .ok (true, s.shiftIn)

/-- The next four characters of data : `false` when the loop ends before it has them. -/
def readQuantum (unbase64 : List ℤ) (s : Decoder) : Except UnescapeExit (Bool × Decoder) :=
  match s.src with
  | c₀ :: c₁ :: c₂ :: c₃ :: rest =>
    let temp := (BitVec.ofInt 32 (unbase64Value unbase64 c₀) <<< 18) |||
      (BitVec.ofInt 32 (unbase64Value unbase64 c₁) <<< 12) |||
      (BitVec.ofInt 32 (unbase64Value unbase64 c₂) <<< 6) |||
      BitVec.ofInt 32 (unbase64Value unbase64 c₃)
    if c₀ = 0 ∨ c₁ = 0 ∨ c₂ = 0 then slowQuantum unbase64 s
    else if temp &&& 0x80000000 ≠ 0 then slowQuantum unbase64 { s with temp }
    else .ok (true, { s with src := rest, temp })
  | _ => .ok (false, s)

/-- `static_cast<char>(temp >> n)`. -/
def Decoder.byte (s : Decoder) (n : ℕ) : UInt8 := UInt8.ofNat (s.temp >>> n).toNat

/-- `temp` has 24 bits of input, written out as three bytes. -/
def Decoder.writeThree (s : Decoder) : Decoder :=
  { s with dest := s.dest ++ [s.byte 16, s.byte 8, s.byte 0], temp := s.temp >>> 16 }

variable {unbase64 : List ℤ}

/-- A character was read. -/
theorem getInput_length {remain : ℕ} : ∀ {src : List UInt8} {s s' : Decoder}
    {ok : Bool}, getInput unbase64 remain src s = .ok (ok, s') → s'.src.length < src.length
  | ch :: src, s, s', ok, h => by
    unfold getInput at h
    dsimp only at h
    split_ifs at h
    · exact (getInput_length h).trans (Nat.lt_succ_self _)
    all_goals
      obtain ⟨-, rfl⟩ := h
      exact Nat.lt_succ_self _

variable {s' : Decoder}

theorem thenData_true {r : Except UnescapeExit (Bool × Decoder)}
    {next : Decoder → Except UnescapeExit (Bool × Decoder)}
    (h : thenData r next = .ok (true, s')) : ∃ s, r = .ok (true, s) ∧ next s = .ok (true, s') := by
  match r, h with
  | .ok (true, s), h => exact ⟨s, rfl, h⟩

/-- A quantum takes characters. -/
theorem slowQuantum_length {s : Decoder}
    (h : slowQuantum unbase64 s = .ok (true, s')) : s'.src.length < s.src.length := by
  obtain ⟨s1, h1, h⟩ := thenData_true h
  obtain ⟨s2, h2, h⟩ := thenData_true h
  obtain ⟨s3, h3, h⟩ := thenData_true h
  obtain ⟨s4, h4, h⟩ := thenData_true h
  obtain ⟨-, rfl⟩ := h
  have l1 := getInput_length h1
  have l2 := getInput_length h2
  have l3 := getInput_length h3
  have l4 := getInput_length h4
  exact ((l4.trans l3).trans l2).trans l1

/-- A quantum takes characters, on the fast path as well. -/
theorem readQuantum_length {s : Decoder}
    (h : readQuantum unbase64 s = .ok (true, s')) : s'.src.length < s.src.length := by
  unfold readQuantum at h
  dsimp only at h
  split at h
  · rename_i hsrc
    split_ifs at h
    · exact slowQuantum_length h
    · have := slowQuantum_length h
      exact this
    obtain ⟨-, rfl⟩ := h
    rw [hsrc]
    simp only [List.length_cons]
    omega
  · cases h

/-- The loop that takes four characters to three bytes. -/
def quantumLoop (unbase64 : List ℤ) (szdest : ℕ) (s : Decoder) : Except UnescapeExit Decoder :=
  match _h : readQuantum unbase64 s with
  | .error e => .error e
  | .ok (false, s) => .ok s
  | .ok (true, s') =>
    if s'.dest.length + 3 > szdest then .error .room
    else quantumLoop unbase64 szdest s'.writeThree
termination_by s.src.length
decreasing_by
  have hlt : s'.src.length < s.src.length := readQuantum_length _h
  exact hlt

/-- The loop that cleans up what the first one left, a character at a time. -/
def tailLoop (unbase64 : List ℤ) (szdest : ℕ) : List UInt8 → Decoder → Except UnescapeExit Decoder
  | [], s => .ok { s with src := [] }
  | ch :: src, s =>
    let decode := unbase64Value unbase64 ch
    let s : Decoder := { s with src, ch, decode }
    if decode < 0 then
      if asciiIsSpace ch then tailLoop unbase64 szdest src s
      -- the pad is read again when they are counted
      else if isPad ch then .ok { s with src := ch :: src }
      else .error .character
    else
      let s : Decoder := { s.shiftIn with state := s.state + 1 }
      if s.state = 4 then
        if s.dest.length + 3 > szdest then .error .room
        else tailLoop unbase64 szdest src { s.writeThree with state := 0, temp := 0 }
      else tailLoop unbase64 szdest src s

/-- The leftover data in `temp` : the output and `expected_equals`. -/
def leftover (szdest : ℕ) (s : Decoder) : Except UnescapeExit (List UInt8 × ℤ) :=
  match s.state with
  | 0 => .ok (s.dest, 0)
  | 1 => .error .bits
  | 2 =>
    if s.dest.length + 1 > szdest then .error .room else .ok (s.dest ++ [s.byte 4], 2)
  | 3 =>
    if s.dest.length + 2 > szdest then .error .room else .ok (s.dest ++ [s.byte 10, s.byte 2], 1)
  | _ => .error .fatal

/-- The rest of the input : the number of pads, an `int`. -/
def countEquals : List UInt8 → ℤ → Except UnescapeExit ℤ
  | [], equals => .ok equals
  | ch :: src, equals =>
    if isPad ch then
      if equals = 2 ^ 31 - 1 then .error .undefined else countEquals src (equals + 1)
    else if !asciiIsSpace ch then .error .character
    else countEquals src equals

/-- What follows the loops : the leftover data, then the pads. -/
def finish (szdest : ℕ) (s : Decoder) : Except UnescapeExit (List UInt8) := do
  let (dest, expectedEquals) ← leftover szdest s
  let equals ← countEquals s.src 0
  if equals = 0 ∨ equals = expectedEquals then .ok dest else .error .padding

/-- `Base64UnescapeInternal` : the bytes stored to a buffer of `szdest` bytes. -/
def base64UnescapeInternal (src : List UInt8) (szdest : ℕ) (unbase64 : List ℤ) :
    Except UnescapeExit (List UInt8) := do
  let s ← quantumLoop unbase64 szdest ⟨src, [], 0, 0, 0, 0⟩
  if s.decode < 0 ∧ !isPad s.ch ∧ !asciiIsSpace s.ch then .error .character
  -- the pad is read again when they are counted
  else if isPad s.ch then finish szdest { s with src := s.ch :: s.src }
  else tailLoop unbase64 szdest s.src s >>= finish szdest

/-- `Base64UnescapeInternal` to a string : the result and the string, `none` when
undefined or fatal. -/
def base64UnescapeToString (src : List UInt8) (unbase64 : List ℤ) : Option (Bool × List UInt8) :=
  let destLen := 3 * (src.length / 4) + src.length % 4
  match base64UnescapeInternal src destLen unbase64 with
  | .ok dest => some (true, dest)
  | .error .undefined | .error .fatal => none
  | .error _ => some (false, [])

/-- `Base64Unescape`. -/
def base64Unescape (src : List UInt8) : Option (Bool × List UInt8) :=
  base64UnescapeToString src kUnBase64

/-- `WebSafeBase64Unescape`. -/
def webSafeBase64Unescape (src : List UInt8) : Option (Bool × List UInt8) :=
  base64UnescapeToString src kUnWebSafeBase64

/-! ## Encoding -/

end Abseil
