import Abseil.Ascii

/-!
# Integer parsing

`safe_int_internal` and `safe_uint_internal` : strip whitespace, read the sign and the
base prefix, then accumulate digits in the target type with a guard before every
multiplication and every addition.

Arithmetic in the target type is checked : `IntType.checked` returns the value if it
fits and an overflow otherwise, so that a run that overflows is visible as one.
-/

namespace Abseil

/-! ## Integer types -/

/-- The integer types the parsers are instantiated at. -/
inductive IntType
  | int8 | int16 | int32 | int64 | int128
  | uint8 | uint16 | uint32 | uint64 | uint128
  deriving DecidableEq, Repr

namespace IntType

/-- Width in bits. -/
def bits : IntType → ℕ
  | int8 | uint8 => 8
  | int16 | uint16 => 16
  | int32 | uint32 => 32
  | int64 | uint64 => 64
  | int128 | uint128 => 128

/-- Signed types. -/
def signed : IntType → Bool
  | int8 | int16 | int32 | int64 | int128 => true
  | _ => false

/-- `std::numeric_limits<IntType>::max()`. -/
def max (t : IntType) : ℤ :=
  if t.signed then 2 ^ (t.bits - 1) - 1 else 2 ^ t.bits - 1

/-- `std::numeric_limits<IntType>::min()`. -/
def min (t : IntType) : ℤ :=
  if t.signed then -2 ^ (t.bits - 1) else 0

/-- The values of the type. -/
def InRange (t : IntType) (x : ℤ) : Prop :=
  t.min ≤ x ∧ x ≤ t.max

instance (t : IntType) (x : ℤ) : Decidable (t.InRange x) :=
  inferInstanceAs (Decidable (_ ∧ _))

/-- `static_cast<IntType>` of an integer : the value modulo `2 ^ bits`. -/
def cast (t : IntType) (x : ℤ) : ℤ :=
  if t.signed then x.bmod (2 ^ t.bits) else x % 2 ^ t.bits

end IntType

/-- An arithmetic result that does not fit its type. -/
inductive Overflow
  | overflow
  deriving DecidableEq, Repr

/-- The result of an operation of the type, if it fits. -/
def IntType.checked (t : IntType) (x : ℤ) : Except Overflow ℤ :=
  if t.InRange x then .ok x else .error .overflow

/-! ## Tables -/

/-- `kAsciiToInt` : the value of a digit, 36 for a character that is none. -/
def kAsciiToInt : List ℤ :=
  [36, 36, 36, 36, 36, 36, 36, 36, 36, 36, 36, 36, 36, 36, 36, 36,
   36, 36, 36, 36, 36, 36, 36, 36, 36, 36, 36, 36, 36, 36, 36, 36, 36, 36, 36,
   36, 36, 36, 36, 36, 36, 36, 36, 36, 36, 36, 36, 36, 0,  1,  2,  3,  4,  5,
   6,  7,  8,  9,  36, 36, 36, 36, 36, 36, 36, 10, 11, 12, 13, 14, 15, 16, 17,
   18, 19, 20, 21, 22, 23, 24, 25, 26, 27, 28, 29, 30, 31, 32, 33, 34, 35, 36,
   36, 36, 36, 36, 36, 10, 11, 12, 13, 14, 15, 16, 17, 18, 19, 20, 21, 22, 23,
   24, 25, 26, 27, 28, 29, 30, 31, 32, 33, 34, 35, 36, 36, 36, 36, 36, 36, 36,
   36, 36, 36, 36, 36, 36, 36, 36, 36, 36, 36, 36, 36, 36, 36, 36, 36, 36, 36,
   36, 36, 36, 36, 36, 36, 36, 36, 36, 36, 36, 36, 36, 36, 36, 36, 36, 36, 36,
   36, 36, 36, 36, 36, 36, 36, 36, 36, 36, 36, 36, 36, 36, 36, 36, 36, 36, 36,
   36, 36, 36, 36, 36, 36, 36, 36, 36, 36, 36, 36, 36, 36, 36, 36, 36, 36, 36,
   36, 36, 36, 36, 36, 36, 36, 36, 36, 36, 36, 36, 36, 36, 36, 36, 36, 36, 36,
   36, 36, 36, 36, 36, 36, 36, 36, 36, 36, 36, 36, 36, 36, 36, 36, 36, 36, 36,
   36, 36, 36, 36, 36, 36, 36, 36, 36, 36, 36, 36]

/-- `kAsciiToInt[c]`. -/
def asciiToInt (c : UInt8) : ℤ :=
  kAsciiToInt.getD c.toNat 36

/-- `MakeUint128` and `MakeInt128` on a table of high and low words. -/
def makeInt128 (table : List (ℤ × ℤ)) : List ℤ :=
  table.map fun w => w.1 * 2 ^ 64 + w.2

/-- `LookupTables<uint128>::kVmaxOverBase`, from base 2 on. -/
def kVmaxOverBaseUint128 : List (ℤ × ℤ) :=
  [(9223372036854775807, 18446744073709551615), (6148914691236517205, 6148914691236517205),
   (4611686018427387903, 18446744073709551615), (3689348814741910323, 3689348814741910323),
   (3074457345618258602, 12297829382473034410), (2635249153387078802, 5270498306774157604),
   (2305843009213693951, 18446744073709551615), (2049638230412172401, 14347467612885206812),
   (1844674407370955161, 11068046444225730969), (1676976733973595601, 8384883669867978007),
   (1537228672809129301, 6148914691236517205), (1418980313362273201, 4256940940086819603),
   (1317624576693539401, 2635249153387078802), (1229782938247303441, 1229782938247303441),
   (1152921504606846975, 18446744073709551615), (1085102592571150095, 1085102592571150095),
   (1024819115206086200, 16397105843297379214), (970881267037344821, 16504981539634861972),
   (922337203685477580, 14757395258967641292), (878416384462359600, 14054662151397753612),
   (838488366986797800, 13415813871788764811), (802032351030850070, 4812194106185100421),
   (768614336404564650, 12297829382473034410), (737869762948382064, 11805916207174113034),
   (709490156681136600, 11351842506898185609), (683212743470724133, 17080318586768103348),
   (658812288346769700, 10540996613548315209), (636094623231363848, 15266270957552732371),
   (614891469123651720, 9838263505978427528), (595056260442243600, 9520900167075897608),
   (576460752303423487, 18446744073709551615), (558992244657865200, 8943875914525843207),
   (542551296285575047, 9765923333140350855), (527049830677415760, 8432797290838652167),
   (512409557603043100, 8198552921648689607)]

/-- `LookupTables<int128>::kVmaxOverBase`, from base 2 on. -/
def kVmaxOverBaseInt128 : List (ℤ × ℤ) :=
  [(4611686018427387903, 18446744073709551615), (3074457345618258602, 12297829382473034410),
   (2305843009213693951, 18446744073709551615), (1844674407370955161, 11068046444225730969),
   (1537228672809129301, 6148914691236517205), (1317624576693539401, 2635249153387078802),
   (1152921504606846975, 18446744073709551615), (1024819115206086200, 16397105843297379214),
   (922337203685477580, 14757395258967641292), (838488366986797800, 13415813871788764811),
   (768614336404564650, 12297829382473034410), (709490156681136600, 11351842506898185609),
   (658812288346769700, 10540996613548315209), (614891469123651720, 9838263505978427528),
   (576460752303423487, 18446744073709551615), (542551296285575047, 9765923333140350855),
   (512409557603043100, 8198552921648689607), (485440633518672410, 17475862806672206794),
   (461168601842738790, 7378697629483820646), (439208192231179800, 7027331075698876806),
   (419244183493398900, 6707906935894382405), (401016175515425035, 2406097053092550210),
   (384307168202282325, 6148914691236517205), (368934881474191032, 5902958103587056517),
   (354745078340568300, 5675921253449092804), (341606371735362066, 17763531330238827482),
   (329406144173384850, 5270498306774157604), (318047311615681924, 7633135478776366185),
   (307445734561825860, 4919131752989213764), (297528130221121800, 4760450083537948804),
   (288230376151711743, 18446744073709551615), (279496122328932600, 4471937957262921603),
   (271275648142787523, 14106333703424951235), (263524915338707880, 4216398645419326083),
   (256204778801521550, 4099276460824344803)]

/-- `LookupTables<int128>::kVminOverBase`, from base 2 on. -/
def kVminOverBaseInt128 : List (ℤ × ℤ) :=
  [(-4611686018427387904, 0), (-3074457345618258603, 6148914691236517206),
   (-2305843009213693952, 0), (-1844674407370955162, 7378697629483820647),
   (-1537228672809129302, 12297829382473034411), (-1317624576693539402, 15811494920322472814),
   (-1152921504606846976, 0), (-1024819115206086201, 2049638230412172402),
   (-922337203685477581, 3689348814741910324), (-838488366986797801, 5030930201920786805),
   (-768614336404564651, 6148914691236517206), (-709490156681136601, 7094901566811366007),
   (-658812288346769701, 7905747460161236407), (-614891469123651721, 8608480567731124088),
   (-576460752303423488, 0), (-542551296285575048, 8680820740569200761),
   (-512409557603043101, 10248191152060862009), (-485440633518672411, 970881267037344822),
   (-461168601842738791, 11068046444225730970), (-439208192231179801, 11419412998010674810),
   (-419244183493398901, 11738837137815169211), (-401016175515425036, 16040647020617001406),
   (-384307168202282326, 12297829382473034411), (-368934881474191033, 12543785970122495099),
   (-354745078340568301, 12770822820260458812), (-341606371735362067, 683212743470724134),
   (-329406144173384851, 13176245766935394012), (-318047311615681925, 10813608594933185431),
   (-307445734561825861, 13527612320720337852), (-297528130221121801, 13686293990171602812),
   (-288230376151711744, 0), (-279496122328932601, 13974806116446630013),
   (-271275648142787524, 4340410370284600381), (-263524915338707881, 14230345428290225533),
   (-256204778801521551, 14347467612885206813)]

/-- `X_OVER_BASE_INITIALIZER`. -/
def xOverBaseInitializer (x : ℤ) : List ℤ :=
  0 :: 0 :: (List.range 35).map fun k => x.tdiv (k + 2)

/-- `LookupTables<IntType>::kVmaxOverBase`. -/
def kVmaxOverBase : IntType → List ℤ
  | .uint128 => 0 :: 0 :: makeInt128 kVmaxOverBaseUint128
  | .int128 => 0 :: 0 :: makeInt128 kVmaxOverBaseInt128
  | t => xOverBaseInitializer t.max

/-- `LookupTables<IntType>::kVminOverBase`. -/
def kVminOverBase : IntType → List ℤ
  | .int128 => 0 :: 0 :: makeInt128 kVminOverBaseInt128
  | t => xOverBaseInitializer t.min

/-! ## The parsers -/

/-- A `string_view` : no data, or a text. -/
abbrev StringView := Option (List UInt8)

/-- The text starts with `0x` or `0X`. -/
def hasHexPrefix : List UInt8 → Bool
  | c :: x :: _ => c = 48 ∧ (x = 120 ∨ x = 88)
  | _ => false

/-- The base-dependent part of `safe_parse_sign_and_base` : the text after the prefix
and the effective base. -/
def safeParseBase (text : List UInt8) (base : ℤ) : Option (List UInt8 × ℤ) :=
  if base = 0 then
    if hasHexPrefix text then
      if (text.drop 2).isEmpty then none else some (text.drop 2, 16)
    else if text.head? = some 48 then some (text.drop 1, 8)
    else some (text, 10)
  else if base = 16 then
    if hasHexPrefix text then
      if (text.drop 2).isEmpty then none else some (text.drop 2, 16)
    else some (text, 16)
  else if 2 ≤ base ∧ base ≤ 36 then some (text, base)
  else none

/-- `safe_parse_sign_and_base` : the digits, the effective base and the sign. -/
def safeParseSignAndBase (text : StringView) (base : ℤ) : Option (List UInt8 × ℤ × Bool) :=
  match text with
  | none => none
  | some text =>
    match stripSpace text with
    | [] => none
    | c :: rest =>
      let negative : Bool := c = 45
      if negative ∨ c = 43 then
        if rest.isEmpty then none
        else (safeParseBase rest base).map fun p => (p.1, p.2, negative)
      else (safeParseBase (c :: rest) base).map fun p => (p.1, p.2, negative)

/-- The digit loop of `safe_parse_positive_int` : success and the stored value. -/
def positiveLoop (t : IntType) (base vmaxOverBase : ℤ) :
    List UInt8 → ℤ → Except Overflow (Bool × ℤ)
  | [], value => .ok (true, value)
  | c :: rest, value =>
    let digit := t.cast (asciiToInt c)
    if digit ≥ base then .ok (false, value)
    else if value > vmaxOverBase then .ok (false, t.max)
    else do
      let value ← t.checked (value * base)
      let room ← t.checked (t.max - digit)
      if value > room then .ok (false, t.max)
      else
        let value ← t.checked (value + digit)
        positiveLoop t base vmaxOverBase rest value

/-- `safe_parse_positive_int`. -/
def safeParsePositiveInt (t : IntType) (text : List UInt8) (base : ℤ) :
    Except Overflow (Bool × ℤ) :=
  positiveLoop t (t.cast base) ((kVmaxOverBase t).getD base.toNat 0) text 0

/-- The digit loop of `safe_parse_negative_int`. -/
def negativeLoop (t : IntType) (base vminOverBase : ℤ) :
    List UInt8 → ℤ → Except Overflow (Bool × ℤ)
  | [], value => .ok (true, value)
  | c :: rest, value =>
    let digit := asciiToInt c
    if digit ≥ base then .ok (false, value)
    else if value < vminOverBase then .ok (false, t.min)
    else do
      let value ← t.checked (value * base)
      let room ← t.checked (t.min + digit)
      if value < room then .ok (false, t.min)
      else
        let value ← t.checked (value - digit)
        negativeLoop t base vminOverBase rest value

/-- `safe_parse_negative_int`. -/
def safeParseNegativeInt (t : IntType) (text : List UInt8) (base : ℤ) :
    Except Overflow (Bool × ℤ) := do
  let vminOverBase := (kVminOverBase t).getD base.toNat 0
  let vminOverBase ←
    if t.min.tmod base > 0 then t.checked (vminOverBase + 1) else pure vminOverBase
  negativeLoop t base vminOverBase text 0

/-- `safe_int_internal` : success and the stored value. -/
def safeIntInternal (t : IntType) (text : StringView) (base : ℤ) :
    Except Overflow (Bool × ℤ) :=
  match safeParseSignAndBase text base with
  | none => .ok (false, 0)
  | some (digits, base, negative) =>
    if !negative then safeParsePositiveInt t digits base
    else safeParseNegativeInt t digits base

/-- `safe_uint_internal`. -/
def safeUintInternal (t : IntType) (text : StringView) (base : ℤ) :
    Except Overflow (Bool × ℤ) :=
  match safeParseSignAndBase text base with
  | none => .ok (false, 0)
  | some (digits, base, negative) =>
    if negative then .ok (false, 0) else safeParsePositiveInt t digits base

/-- `safe_strto*_base` and `safe_strtou*_base` : the signed types use
`safe_int_internal`, the unsigned ones `safe_uint_internal`. -/
def safeStrtoBase (t : IntType) (text : StringView) (base : ℤ) :
    Except Overflow (Bool × ℤ) :=
  if t.signed then safeIntInternal t text base else safeUintInternal t text base

end Abseil
