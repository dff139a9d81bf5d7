import Mathlib.Algebra.Group.Int.Defs

/-!
# The format string parser

`ParseFormatString` splits a format into text runs and conversions, and
`ConsumeConversion` reads one conversion behind its `%`. A pointer `p` into `[p, end)` is the
list of the bytes from `p` on : `deref` reads through it, which fails at `end`. A call that
returns `nullptr` stops with `null`; `++next_arg` stops with `overflow` where the `int` has no
next value.

Characters are compared as `unsigned char`. Where `char` is signed, a byte from `0x80` on is below
every literal, but it has no tag, so it is no flag, digit, `*` or `.` either way.
-/

namespace Abseil.StrFormat

/-- `LengthMod`. -/
inductive LengthMod where
  | h | hh | l | ll | L | j | z | t | q | none
  deriving DecidableEq

/-- `FormatConversionChar`. -/
inductive FormatConversionChar where
  | c | s | d | i | o | u | x | X | f | F | e | E | g | G | a | A | n | p | v | kNone
  deriving DecidableEq

/-! ## Flags -/

/-- `Flags::kBasic`. -/
def kBasic : BitVec 8 := 0

/-- `Flags::kLeft`. -/
def kLeft : BitVec 8 := 1 <<< 0

/-- `Flags::kShowPos`. -/
def kShowPos : BitVec 8 := 1 <<< 1

/-- `Flags::kSignCol`. -/
def kSignCol : BitVec 8 := 1 <<< 2

/-- `Flags::kAlt`. -/
def kAlt : BitVec 8 := 1 <<< 3

/-- `Flags::kZero`. -/
def kZero : BitVec 8 := 1 <<< 4

/-- `Flags::kNonBasic`. -/
def kNonBasic : BitVec 8 := 1 <<< 5

/-- `UnboundConversion::InputValue` : `-1` for no value, below for an argument. -/
structure InputValue where
  value : ℤ := -1
  deriving DecidableEq

/-- `set_from_arg`. -/
def InputValue.fromArg (value : ℤ) : InputValue := ⟨-value - 1⟩

/-- `UnboundConversion`. The argument position is not set at first. -/
structure UnboundConversion where
  argPosition : Option ℤ := none
  width : InputValue := {}
  precision : InputValue := {}
  flags : BitVec 8 := kBasic
  lengthMod : LengthMod := .none
  conv : FormatConversionChar := .kNone
  deriving DecidableEq

/-- `ConvTag`. -/
inductive ConvTag where
  | conv (k : FormatConversionChar)
  | length (m : LengthMod)
  | flags (f : BitVec 8)
  | none
  deriving DecidableEq

/-- The part of `ConvTagHolder::value` below `0x80`; the other half has no tags. -/
def convTags : List ConvTag :=
  [.none, .none, .none, .none, .none, .none, .none, .none,
   .none, .none, .none, .none, .none, .none, .none, .none,
   .none, .none, .none, .none, .none, .none, .none, .none,
   .none, .none, .none, .none, .none, .none, .none, .none,
   .flags kSignCol, .none, .none, .flags kAlt, .none, .none, .none, .none,
   .none, .none, .none, .flags kShowPos, .none, .flags kLeft, .none, .none,
   .flags kZero, .none, .none, .none, .none, .none, .none, .none,
   .none, .none, .none, .none, .none, .none, .none, .none,
   .none, .conv .A, .none, .none, .none, .conv .E, .conv .F, .conv .G,
   .none, .none, .none, .none, .length .L, .none, .none, .none,
   .none, .none, .none, .none, .none, .none, .none, .none,
   .conv .X, .none, .none, .none, .none, .none, .none, .none,
   .none, .conv .a, .none, .conv .c, .conv .d, .conv .e, .conv .f, .conv .g,
   .length .h, .conv .i, .length .j, .none, .length .l, .none, .conv .n, .conv .o,
   .conv .p, .length .q, .none, .conv .s, .length .t, .conv .u, .conv .v, .none,
   .conv .x, .none, .length .z, .none, .none, .none, .none, .none]

/-- `GetTagForChar`. -/
def getTagForChar (c : UInt8) : ConvTag := convTags.getD c.toNat .none

/-! ## Reading -/

/-- Why a call does not return a pointer. -/
inductive Stop where
  | null
  | overflow
  | beyond
  | diverged
  deriving DecidableEq

/-- `*pos++`. -/
def deref : List UInt8 → Except Stop (UInt8 × List UInt8)
  | [] => .error .beyond
  | c :: pos => .ok (c, pos)

/-- `ABSL_FORMAT_PARSER_INTERNAL_GET_CHAR`. -/
def getChar (pos : List UInt8) : Except Stop (UInt8 × List UInt8) :=
  if pos = [] then .error .null else deref pos

/-- `++*next_arg`. -/
def increment (nextArg : ℤ) : Except Stop ℤ :=
  if nextArg = 2 ^ 31 - 1 then .error .overflow else .ok (nextArg + 1)

/-- The loop of `ParseDigits`, which may take `room` digits more. -/
def parseDigitsLoop : ℕ → ℕ → UInt8 → List UInt8 → Except Stop (ℕ × UInt8 × List UInt8)
  | room, digits, c, pos =>
    if pos = [] then .ok (digits, c, pos)
    else
      match deref pos with
      | .error e => .error e
      | .ok (c, pos) =>
        if c < 48 ∨ 57 < c then .ok (digits, c, pos)
        else
          match room with
          | 0 => .ok (digits, c, pos)
          | room + 1 => parseDigitsLoop room (10 * digits + (c.toNat - 48)) c pos

/-- `ParseDigits` : the number, the last character read and the rest. An `int` holds nine
digits. -/
def parseDigits (c : UInt8) (pos : List UInt8) : Except Stop (ℕ × UInt8 × List UInt8) :=
  parseDigitsLoop 8 (c.toNat - 48) c pos

/-! ## Conversions -/

/-- The local variables of `ConsumeConversion`. -/
structure Scan where
  conv : UnboundConversion
  nextArg : ℤ
  c : UInt8
  pos : List UInt8

/-- The next character into `c`. -/
def Scan.advance (s : Scan) : Except Stop Scan :=
  (getChar s.pos).map fun x => { s with c := x.1, pos := x.2 }

/-- Flags are added. -/
def Scan.addFlags (s : Scan) (f : BitVec 8) : Scan :=
  { s with conv := { s.conv with flags := s.conv.flags ||| f } }

/-- The loop over the flag characters. -/
def flagsLoop : ℕ → Scan → Except Stop Scan
  | fuel, s =>
    if s.c ≤ 48 then
      match getTagForChar s.c with
      | .flags f =>
        match fuel with
        | 0 => .error .diverged
        | fuel + 1 => (s.addFlags f).advance.bind (flagsLoop fuel)
      | _ => .ok s
    else .ok s

/-- A number that starts at `c` and ends in `$`. -/
def scanPosition (s : Scan) : Except Stop (ℕ × Scan) :=
  if s.c < 49 ∨ 57 < s.c then .error .null
  else
    (parseDigits s.c s.pos).bind fun (n, c, pos) =>
      if c ≠ 36 then .error .null
      else (getChar pos).map fun x => (n, { s with c := x.1, pos := x.2 })

/-- The argument of a `*`, from behind it. -/
def scanStar (positional : Bool) (s : Scan) : Except Stop (ℤ × Scan) :=
  if positional then (scanPosition s).map fun x => ((x.1 : ℤ), x.2)
  else (increment s.nextArg).map fun n => (n, { s with nextArg := n })

/-- The outcome of reading a width : it can turn out to be an argument position. -/
inductive Width where
  | restart (conv : UnboundConversion)
  | done (s : Scan)

/-- The width. -/
def scanWidth (positional : Bool) (s : Scan) : Except Stop Width :=
  if s.c ≤ 57 then
    if 48 ≤ s.c then
      (parseDigits s.c s.pos).map fun (n, c, pos) =>
        if positional = false ∧ c = 36 then .restart s.conv
        else
          let s := s.addFlags kNonBasic
          .done { s with conv := { s.conv with width := ⟨n⟩ }, c := c, pos := pos }
    else if s.c = 42 then
      (s.addFlags kNonBasic).advance.bind fun s =>
        (scanStar positional s).map fun (n, s) =>
          .done { s with conv := { s.conv with width := .fromArg n } }
    else .ok (.done s)
  else .ok (.done s)

/-- The precision. -/
def scanPrecision (positional : Bool) (s : Scan) : Except Stop Scan :=
  if s.c = 46 then
    (s.addFlags kNonBasic).advance.bind fun s =>
      if 48 ≤ s.c ∧ s.c ≤ 57 then
        (parseDigits s.c s.pos).map fun (n, c, pos) =>
          { s with conv := { s.conv with precision := ⟨n⟩ }, c := c, pos := pos }
      else if s.c = 42 then
        s.advance.bind fun s =>
          (scanStar positional s).map fun (n, s) =>
            { s with conv := { s.conv with precision := .fromArg n } }
      else .ok { s with conv := { s.conv with precision := ⟨0⟩ } }
  else .ok s

/-- Flags, width and precision, none of which starts with a letter. -/
def scanAmounts (positional : Bool) (s : Scan) : Except Stop Width :=
  if s.c < 65 then
    (flagsLoop (s.pos.length + 1) s).bind fun s =>
      (scanWidth positional s).bind fun w =>
        match w with
        | .restart conv => .ok (.restart conv)
        | .done s => (scanPrecision positional s).map .done
  else .ok (.done s)

/-- What `ConsumeConversion` returns through its pointers, and its result. -/
structure Consumed where
  conv : UnboundConversion
  nextArg : ℤ
  pos : List UInt8

/-- The conversion character is known. -/
def finishConversion (positional : Bool) (s : Scan) (k : FormatConversionChar) :
    Except Stop Consumed :=
  let conv := { s.conv with conv := k }
  if positional then .ok ⟨conv, s.nextArg, s.pos⟩
  else (increment s.nextArg).map fun n => ⟨{ conv with argPosition := some n }, n, s.pos⟩

/-- The second letter of `hh` and `ll`. -/
def scanLength (length : LengthMod) (s : Scan) : Except Stop Scan :=
  if s.c = 104 ∧ length = .h then
    Scan.advance { s with conv := { s.conv with lengthMod := .hh } }
  else if s.c = 108 ∧ length = .l then
    Scan.advance { s with conv := { s.conv with lengthMod := .ll } }
  else .ok { s with conv := { s.conv with lengthMod := length } }

/-- Length modifier and conversion character. -/
def scanConv (positional : Bool) (s : Scan) : Except Stop Consumed :=
  if s.c = 118 ∧ s.conv.flags ≠ kBasic then .error .null
  else
    match getTagForChar s.c with
    | .conv k => finishConversion positional s k
    | .length length =>
      s.advance.bind fun s => (scanLength length s).bind fun s =>
        if s.c = 118 then .error .null
        else
          match getTagForChar s.c with
          | .conv k =>
            finishConversion positional
              (if s.conv.lengthMod = .l ∧ s.c = 99 then s.addFlags kNonBasic else s) k
          | _ => .error .null
    | _ => .error .null

/-- `ConsumeConversion<true>`. -/
def consumeConversionPositional (pos : List UInt8) (conv : UnboundConversion) (nextArg : ℤ) :
    Except Stop Consumed :=
  (getChar pos).bind fun (c, pos) =>
    (scanPosition ⟨conv, nextArg, c, pos⟩).bind fun (n, s) =>
      (scanAmounts true { s with conv := { s.conv with argPosition := some n } }).bind fun w =>
        match w with
        | .restart _ => .error .null
        | .done s => scanConv true s

/-- `ConsumeConversion<false>`. -/
def consumeConversion (originalPos : List UInt8) (conv : UnboundConversion) (nextArg : ℤ) :
    Except Stop Consumed :=
  (getChar originalPos).bind fun (c, pos) =>
    (scanAmounts false ⟨conv, nextArg, c, pos⟩).bind fun w =>
      match w with
      | .restart conv =>
        if nextArg ≠ 0 then .error .null else consumeConversionPositional originalPos conv (-1)
      | .done s => scanConv false s

/-- `ConsumeUnboundConversion`. -/
def consumeUnboundConversion (p : List UInt8) (conv : UnboundConversion) (nextArg : ℤ) :
    Except Stop Consumed :=
  if nextArg < 0 then consumeConversionPositional p conv nextArg
  else consumeConversion p conv nextArg

/-! ## Format strings -/

/-- A call of the consumer. -/
inductive Call where
  | append (text : List UInt8)
  | convertOne (conv : UnboundConversion) (text : List UInt8)
  deriving DecidableEq

/-- The loop of `ParseFormatString`, with the calls made so far. `memchr` finds the first `%`. -/
def parseLoop : ℕ → List UInt8 → ℤ → List Call → Except Stop (Bool × List Call)
  | fuel, p, nextArg, calls =>
    if p = [] then .ok (true, calls)
    else
      match fuel with
      | 0 => .error .diverged
      | fuel + 1 =>
        let percent := p.dropWhile (· ≠ 37)
        if percent = [] then .ok (true, calls ++ [.append p])
        else
          let calls := calls ++ [.append (p.takeWhile (· ≠ 37))]
          if percent.length ≤ 1 then .ok (false, calls)
          else
            (deref (percent.drop 1)).bind fun (c, p) =>
              match getTagForChar c with
              | .conv k =>
                if nextArg < 0 then .ok (false, calls)
                else
                  (increment nextArg).bind fun n =>
                    parseLoop fuel p n
                      (calls ++ [.convertOne { conv := k, argPosition := some n } [c]])
              | _ =>
                if c ≠ 37 then
                  match consumeUnboundConversion (percent.drop 1) {} nextArg with
                  | .error .null => .ok (false, calls)
                  | .error e => .error e
                  | .ok r =>
                    parseLoop fuel r.pos r.nextArg (calls ++ [.convertOne r.conv
                      ((percent.drop 1).take (percent.length - 1 - r.pos.length))])
                else parseLoop fuel p nextArg (calls ++ [.append [37]])

/-- `ParseFormatString`, with a consumer that never fails : the result and the calls. -/
def parseFormatString (src : List UInt8) : Except Stop (Bool × List Call) :=
  parseLoop src.length src 0 []

end Abseil.StrFormat
