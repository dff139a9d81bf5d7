import Abseil.Numeral
import Abseil.FormatParser

/-!
# The grammar of format strings

A format is a list of text runs, each followed by `%%` or by a conversion spec, and a last text
run. A spec is `flags* width? ('.' precision?)? length? char`, with an argument position in front
if it is positional. `render` is the text of a format and `calls` is what its consumer gets to
see : arguments are numbered from one in the order of the text, the argument of a `*` before the
argument of its spec.

A leading `0` is a flag, so a width starts with another digit.
-/

namespace Abseil.StrFormat

open Positional (text readDigits)

/-! ## Characters -/

/-- The flag characters. -/
inductive Flag where
  | left | showPos | signCol | alt | zero
  deriving DecidableEq

namespace Flag

/-- The character of a flag. -/
def byte : Flag → UInt8
  | left => 45
  | showPos => 43
  | signCol => 32
  | alt => 35
  | zero => 48

/-- The bit of a flag. -/
def bits : Flag → BitVec 8
  | left => kLeft
  | showPos => kShowPos
  | signCol => kSignCol
  | alt => kAlt
  | zero => kZero

end Flag

/-- The characters of a length modifier. -/
def LengthMod.bytes : LengthMod → List UInt8
  | .h => [104]
  | .hh => [104, 104]
  | .l => [108]
  | .ll => [108, 108]
  | .L => [76]
  | .j => [106]
  | .z => [122]
  | .t => [116]
  | .q => [113]
  | .none => []

/-- The character of a conversion. -/
def FormatConversionChar.byte : FormatConversionChar → UInt8
  | .c => 99 | .s => 115 | .d => 100 | .i => 105 | .o => 111 | .u => 117 | .x => 120 | .X => 88
  | .f => 102 | .F => 70 | .e => 101 | .E => 69 | .g => 103 | .G => 71 | .a => 97 | .A => 65
  | .n => 110 | .p => 112 | .v => 118 | .kNone => 0

/-! ## Specs -/

/-- A width or a precision. A `*` may name the position of its argument. -/
inductive Amount where
  | none
  | number (ds : List ℕ)
  | star (position : Option (List ℕ))
  deriving DecidableEq

/-- A number of one to nine digits. -/
def Digits (ds : List ℕ) : Prop := ds ≠ [] ∧ ds.length ≤ 9 ∧ ∀ d ∈ ds, d < 10

/-- A number of one to nine digits that does not start with a zero. -/
def Counting (ds : List ℕ) : Prop := Digits ds ∧ ds.head? ≠ some 0

/-- `n$`. -/
def renderPosition : Option (List ℕ) → List UInt8
  | .none => []
  | .some ds => text ds ++ [36]

/-- A position is there in a positional spec only. -/
def PositionOk (positional : Bool) : Option (List ℕ) → Prop
  | .none => positional = false
  | .some ds => positional = true ∧ Counting ds

namespace Amount

/-- The characters of a width or a precision. -/
def render : Amount → List UInt8
  | none => []
  | number ds => text ds
  | star position => 42 :: renderPosition position

/-- The arguments that the amount takes from the list of arguments. -/
def args : Amount → ℕ
  | star .none => 1
  | _ => 0

/-- The amount behind `k` arguments. -/
def input (k : ℤ) : Amount → InputValue
  | none => {}
  | number ds => ⟨readDigits 10 0 ds⟩
  | star .none => .fromArg (k + 1)
  | star (.some ds) => .fromArg (readDigits 10 0 ds)

/-- A width that is accepted. -/
def WidthOk (positional : Bool) : Amount → Prop
  | none => True
  | number ds => Counting ds
  | star position => PositionOk positional position

/-- A precision that is accepted. -/
def PrecisionOk (positional : Bool) : Amount → Prop
  | none => True
  | number ds => Digits ds
  | star position => PositionOk positional position

end Amount

/-- A conversion spec, without its `%`. -/
structure Spec where
  position : Option (List ℕ)
  flags : List Flag
  width : Amount
  /-- What follows the `.`, if there is one. -/
  precision : Option Amount
  length : LengthMod
  conv : FormatConversionChar

/-- The precision behind its dot. -/
def renderPrecision : Option Amount → List UInt8
  | .none => []
  | .some p => 46 :: p.render

/-- The arguments that the precision takes. -/
def precisionArgs : Option Amount → ℕ
  | .none => 0
  | .some p => p.args

/-- A `.` alone is a precision of zero. -/
def precisionInput (k : ℤ) : Option Amount → InputValue
  | .none => {}
  | .some .none => ⟨0⟩
  | .some p => p.input k

/-- The flags together. -/
def flagBits (flags : List Flag) : BitVec 8 := flags.foldl (fun b f => b ||| f.bits) kBasic

namespace Spec

/-- The characters of a specification. -/
def render (s : Spec) : List UInt8 :=
  renderPosition s.position ++ (s.flags.map Flag.byte ++ (s.width.render ++
    (renderPrecision s.precision ++ (s.length.bytes ++ [s.conv.byte]))))

/-- The arguments taken from the list of arguments. -/
def args (s : Spec) : ℕ :=
  s.width.args + precisionArgs s.precision + if s.position = none then 1 else 0

/-- A width, a precision or `lc` makes a conversion more than basic. -/
def nonBasic (s : Spec) : Bool :=
  s.width ≠ .none ∨ s.precision ≠ none ∨ s.length = .l ∧ s.conv = .c

/-- What is delivered for the spec behind `k` arguments. -/
def convert (s : Spec) (k : ℤ) : UnboundConversion where
  argPosition := match s.position with
    | .none => some (k + s.args)
    | .some ds => some (readDigits 10 0 ds)
  width := s.width.input k
  precision := precisionInput (k + s.width.args) s.precision
  flags := flagBits s.flags ||| if s.nonBasic then kNonBasic else kBasic
  lengthMod := s.length
  conv := s.conv

/-- A spec that is positional or not. -/
structure WellFormed (s : Spec) (positional : Bool) : Prop where
  position : PositionOk positional s.position
  width : s.width.WidthOk positional
  precision : ∀ p, s.precision = some p → p.PrecisionOk positional
  conv : s.conv ≠ .kNone
  v : s.conv = .v → s.flags = [] ∧ s.width = .none ∧ s.precision = none ∧ s.length = .none

end Spec

/-! ## Formats -/

/-- A text run and the spec behind it; no spec stands for `%%`. -/
structure Item where
  run : List UInt8
  spec : Option Spec

namespace Item

/-- The text and the specification behind it. -/
def render (i : Item) : List UInt8 :=
  i.run ++ 37 :: match i.spec with
    | none => [37]
    | some s => s.render

/-- What is delivered for the item behind `k` arguments. -/
def calls (i : Item) (k : ℤ) : List Call :=
  [.append i.run, match i.spec with
    | none => .append [37]
    | some s => .convertOne (s.convert k) s.render]

/-- The arguments taken up to the end of the item; below zero once a spec is positional. -/
def next (i : Item) (k : ℤ) : ℤ :=
  match i.spec with
  | none => k
  | some s => if s.position = none then k + s.args else -1

/-- The arguments that the specification takes. -/
def args (i : Item) : ℕ :=
  match i.spec with
  | none => 0
  | some s => s.args

/-- Text without `%` and a specification that is accepted. -/
structure WellFormed (i : Item) (positional : Bool) : Prop where
  run : 37 ∉ i.run
  spec : ∀ s, i.spec = some s → s.WellFormed positional

end Item

/-- The characters of the items. -/
def renderItems (items : List Item) : List UInt8 := (items.map Item.render).flatten

/-- The calls for the items, from argument `k` on. -/
def callsOf : List Item → ℤ → List Call
  | [], _ => []
  | i :: items, k => i.calls k ++ callsOf items (i.next k)

/-- A format : its items and its last text run. -/
structure Format where
  items : List Item
  last : List UInt8

namespace Format

/-- The characters of a format. -/
def render (f : Format) : List UInt8 := renderItems f.items ++ f.last

/-- An empty last text run is not delivered. -/
def calls (f : Format) (k : ℤ) : List Call :=
  callsOf f.items k ++ if f.last = [] then [] else [.append f.last]

/-- Either every spec is positional or none is. -/
structure WellFormed (f : Format) (positional : Bool) : Prop where
  items : ∀ i ∈ f.items, i.WellFormed positional
  last : 37 ∉ f.last

end Format

/-! ## Formats with too many arguments -/

/-- The arguments taken by a list of items. -/
def argsOf (items : List Item) : ℕ := (items.map Item.args).sum

/-- The beginning of a spec up to its stars. -/
structure Opening where
  flags : List Flag
  width : Amount
  star : Bool

namespace Opening

/-- The characters of an opening. -/
def render (o : Opening) : List UInt8 :=
  o.flags.map Flag.byte ++ (o.width.render ++ if o.star then [46, 42] else [])

/-- The arguments that an opening takes. -/
def args (o : Opening) : ℕ := o.width.args + o.star.toNat

end Opening

/-- Behind `k` arguments the string begins with items, and maybe an opening, that reach
`2 ^ 31` arguments. -/
def TooManyArgs (k : ℤ) (src : List UInt8) : Prop :=
  ∃ items : List Item, (∀ i ∈ items, i.WellFormed false) ∧
    ((∃ rest, src = renderItems items ++ rest ∧ 2 ^ 31 ≤ k + argsOf items) ∨
    ∃ (run : List UInt8) (o : Opening) (rest : List UInt8), 37 ∉ run ∧ o.width.WidthOk false ∧
      rest ≠ [] ∧ src = renderItems items ++ (run ++ 37 :: (o.render ++ rest)) ∧
      2 ^ 31 ≤ k + argsOf items + o.args)

end Abseil.StrFormat
