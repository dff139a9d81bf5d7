import Abseil.DurationDivide
import Abseil.Numeral
import Mathlib.Data.List.DropRight

/-!
# Durations as text

`FormatDuration` writes a duration below a second as a fraction of one unit
(`ns`, `us` or `ms`) and a longer one as hours, minutes and a fraction of seconds,
and leaves out the parts that are zero. `ParseDuration` reads numbers with units
and adds them up, each part through the saturating operators.

The floating point in `AppendNumberUnit` is taken as exact rational arithmetic :
its operands are below `60 * 4 * 10^9` ticks.
-/

namespace Abseil

/-- The byte `'0' + d`. -/
def digitChar (d : ℤ) : UInt8 := UInt8.ofNat (48 + d).toNat

namespace Duration

/-! ## Units -/

/-- `MakeNormalizedDuration`. -/
def makeNormalizedDuration (sec ticks : ℤ) : Duration :=
  if ticks < 0 then ⟨sec - 1, toUint32 (ticks + kTicksPerSecond)⟩ else ⟨sec, toUint32 ticks⟩

/-- `FromInt64` for a fraction `1 / n` of a second. -/
def fromInt64Fraction (v n : ℤ) : Duration :=
  makeNormalizedDuration (v.tdiv n) ((v.tmod n * kTicksPerNanosecond * 1000 * 1000 * 1000).tdiv n)

/-- `FromInt64` for a multiple of a second. -/
def fromInt64Multiple (v n : ℤ) : Duration :=
  if v ≤ kint64max.tdiv n ∧ v ≥ kint64min.tdiv n then ⟨v * n, 0⟩
  else if v > 0 then infiniteDuration else infiniteDuration.neg

/-- `Nanoseconds`. -/
def nanoseconds (n : ℤ) : Duration := fromInt64Fraction n 1000000000

/-- `Microseconds`. -/
def microseconds (n : ℤ) : Duration := fromInt64Fraction n 1000000

/-- `Milliseconds`. -/
def milliseconds (n : ℤ) : Duration := fromInt64Fraction n 1000

/-- `Seconds`. -/
def seconds (n : ℤ) : Duration := fromInt64Fraction n 1

/-- `Minutes`. -/
def minutes (n : ℤ) : Duration := fromInt64Multiple n 60

/-- `Hours`. -/
def hours (n : ℤ) : Duration := fromInt64Multiple n 3600

/-! ## Formatting -/

/-- The first loop of `Format64` : the digits of `v` in front of `text`, and the width
that is left. -/
def format64Loop (width v : ℤ) (text : List UInt8) : ℤ × List UInt8 :=
  if v.tdiv 10 = 0 then (width - 1, digitChar (v.tmod 10) :: text)
  else format64Loop (width - 1) (v.tdiv 10) (digitChar (v.tmod 10) :: text)
termination_by v.natAbs
decreasing_by
  have hv : v ≠ 0 := fun h₀ => by simp [h₀] at *
  rw [Int.natAbs_tdiv]
  exact Nat.div_lt_self (Int.natAbs_pos.mpr hv) (by decide)

/-- `Format64` : the text that is put before `ep`. -/
def format64 (width v : ℤ) : List UInt8 :=
  let (width, text) := format64Loop width v []
  List.replicate width.toNat 48 ++ text

/-- `DisplayUnit` ; the precision of minutes and hours is not used. -/
structure DisplayUnit where
  abbr : List UInt8
  prec : ℤ
  pow10 : ℚ

/-- The unit `ns`. -/
def kDisplayNano : DisplayUnit := ⟨['n'.toUInt8, 's'.toUInt8], 2, 10 ^ 2⟩

/-- The unit `us`. -/
def kDisplayMicro : DisplayUnit := ⟨['u'.toUInt8, 's'.toUInt8], 5, 10 ^ 5⟩

/-- The unit `ms`. -/
def kDisplayMilli : DisplayUnit := ⟨['m'.toUInt8, 's'.toUInt8], 8, 10 ^ 8⟩

/-- The unit `s`. -/
def kDisplaySec : DisplayUnit := ⟨['s'.toUInt8], 11, 10 ^ 11⟩

/-- The unit `m`. -/
def kDisplayMin : DisplayUnit := ⟨['m'.toUInt8], -1, 0⟩

/-- The unit `h`. -/
def kDisplayHour : DisplayUnit := ⟨['h'.toUInt8], -1, 0⟩

/-- `AppendNumberUnit` for an integer : what is appended. -/
def appendNumberUnitInt (n : ℤ) (unit : DisplayUnit) : List UInt8 :=
  let text := format64 0 n
  if text.head? ≠ some 48 ∨ text.length ≠ 1 then text ++ unit.abbr else []

/-- The integral part that `modf` stores, truncated towards zero. -/
def modfInt (n : ℚ) : ℤ := if n < 0 then ⌈n⌉ else ⌊n⌋

/-- `std::round`, half away from zero. -/
def roundHalfAway (n : ℚ) : ℤ := if n < 0 then ⌈n - 1 / 2⌉ else ⌊n + 1 / 2⌋

/-- `AppendNumberUnit` for a `double` : what is appended. -/
def appendNumberUnit (n : ℚ) (unit : DisplayUnit) : List UInt8 :=
  let prec := min 15 unit.prec
  let d := modfInt n
  let fracPart := roundHalfAway ((n - d) * unit.pow10)
  let intPart := d
  if intPart ≠ 0 ∨ fracPart ≠ 0 then
    format64 0 intPart
      ++ (if fracPart ≠ 0 then 46 :: (format64 prec fracPart).rdropWhile (· = 48) else [])
      ++ unit.abbr
  else []

/-- `FDivDuration` of a finite duration by a finite one other than zero. -/
def fDivDuration (num den : Duration) : ℚ := num.ticks / den.ticks

/-- `FormatDuration` of a duration that is not negative. -/
def formatMagnitude (d : Duration) : List UInt8 :=
  if d = infiniteDuration then ['i'.toUInt8, 'n'.toUInt8, 'f'.toUInt8]
  else if d.lt (seconds 1) then
    if d.lt (microseconds 1) then
      appendNumberUnit (fDivDuration d (nanoseconds 1)) kDisplayNano
    else if d.lt (milliseconds 1) then
      appendNumberUnit (fDivDuration d (microseconds 1)) kDisplayMicro
    else appendNumberUnit (fDivDuration d (milliseconds 1)) kDisplayMilli
  else
    let (h, d) := iDivDuration d (hours 1)
    let (m, d) := iDivDuration d (minutes 1)
    appendNumberUnitInt h kDisplayHour ++ appendNumberUnitInt m kDisplayMin
      ++ appendNumberUnit (fDivDuration d (seconds 1)) kDisplaySec

/-- The text of `Seconds(kint64min)`, `-2562047788015215h30m8s`. -/
def kMinDurationText : List UInt8 :=
  [45, 50, 53, 54, 50, 48, 52, 55, 55, 56, 56, 48, 49, 53, 50, 49, 53, 104, 51, 48, 109, 56, 115]

/-- `FormatDuration`. -/
def formatDuration (d : Duration) : List UInt8 :=
  if d = seconds kint64min then kMinDurationText
  else
    let s := if d.lt zeroDuration then 45 :: formatMagnitude d.neg else formatMagnitude d
    if s = [] ∨ s = [45] then [48] else s

/-! ## Parsing -/

/-- The loop of `ConsumeDurationNumber` over the integral digits. -/
def consumeInt : List UInt8 → ℤ → Option (ℤ × List UInt8)
  | [], intPart => some (intPart, [])
  | c :: rest, intPart =>
    let d : ℤ := c.toNat - 48
    if d < 0 ∨ 10 ≤ d then some (intPart, c :: rest)
    else if intPart > kint64max.tdiv 10 then none
    else
      let intPart := intPart * 10
      if intPart > kint64max - d then none else consumeInt rest (intPart + d)

/-- The loop of `ConsumeDurationNumber` over the digits of the fraction. -/
def consumeFrac : List UInt8 → ℤ → ℤ → ℤ × ℤ × List UInt8
  | [], fracPart, fracScale => (fracPart, fracScale, [])
  | c :: rest, fracPart, fracScale =>
    let d : ℤ := c.toNat - 48
    if d < 0 ∨ 10 ≤ d then (fracPart, fracScale, c :: rest)
    else if fracScale ≤ kint64max.tdiv 10 then
      consumeFrac rest (fracPart * 10 + d) (fracScale * 10)
    else consumeFrac rest fracPart fracScale

/-- `ConsumeDurationNumber` : integral part, fraction, its scale and the text behind. -/
def consumeDurationNumber (text : List UInt8) : Option (ℤ × ℤ × ℤ × List UInt8) :=
  match consumeInt text 0 with
  | none => none
  | some (intPart, rest) =>
    let intPartEmpty := rest.length = text.length
    match rest with
    | 46 :: digits =>
      let (fracPart, fracScale, rest) := consumeFrac digits 0 1
      if ¬intPartEmpty ∨ fracScale ≠ 1 then some (intPart, fracPart, fracScale, rest) else none
    | _ => if ¬intPartEmpty then some (intPart, 0, 1, rest) else none

/-- The units of one letter. -/
def consumeLetter : List UInt8 → Option (Duration × List UInt8)
  | [] => none
  | c :: rest =>
    if c = 's'.toUInt8 then some (seconds 1, rest)
    else if c = 'm'.toUInt8 then some (minutes 1, rest)
    else if c = 'h'.toUInt8 then some (hours 1, rest)
    else none

/-- `ConsumeDurationUnit` : the unit and the text behind it. -/
def consumeDurationUnit : List UInt8 → Option (Duration × List UInt8)
  | c :: x :: rest =>
    if c = 'n'.toUInt8 ∧ x = 's'.toUInt8 then some (nanoseconds 1, rest)
    else if c = 'u'.toUInt8 ∧ x = 's'.toUInt8 then some (microseconds 1, rest)
    else if c = 'm'.toUInt8 ∧ x = 's'.toUInt8 then some (milliseconds 1, rest)
    else consumeLetter (c :: x :: rest)
  | text => consumeLetter text

/-- The loop of `ParseDuration`. Every round consumes text, so as many rounds as there are
bytes are enough. -/
def parseLoop (sign : ℤ) : ℕ → List UInt8 → Duration → Option Duration
  | _, [], dur => some dur
  | 0, _ :: _, _ => none
  | rounds + 1, c :: text, dur =>
    match consumeDurationNumber (c :: text) with
    | none => none
    | some (intPart, fracPart, fracScale, rest) =>
      match consumeDurationUnit rest with
      | none => none
      | some (unit, rest) =>
        let dur := if intPart ≠ 0 then dur.add (unit.mul (sign * intPart)) else dur
        let dur :=
          if fracPart ≠ 0 then dur.add ((unit.mul (sign * fracPart)).div fracScale) else dur
        parseLoop sign rounds rest dur

/-- The `ConsumePrefix` calls of `ParseDuration` : the sign and the text behind it. -/
def consumeSign (text : List UInt8) : ℤ × List UInt8 :=
  if text.head? = some 45 then (-1, text.tail)
  else if text.head? = some 43 then (1, text.tail)
  else (1, text)

/-- `ParseDuration` : the duration when it succeeds. -/
def parseDuration (text : List UInt8) : Option Duration :=
  let (sign, text) := consumeSign text
  if text = [] then none
  else if text = [48] then some zeroDuration
  else if text = ['i'.toUInt8, 'n'.toUInt8, 'f'.toUInt8] then some (infiniteDuration.mul sign)
  else parseLoop sign text.length text zeroDuration

end Duration

end Abseil
