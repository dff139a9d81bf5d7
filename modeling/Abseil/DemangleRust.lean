import Abseil.RustPunycode

/-!
# The Rust demangler

`RustSymbolParser::Parse` simulates recursion by a stack of return addresses. Its code is cut at the
labels and at the points where a simulated call returns (`Point`) : the code from one of them on
ends with a jump to a label, with the return of a call, or with the end of the parser.

Faults are : to read behind the terminator of the input, to write outside of the output, to push or
pop where a stack has no room or no element, and arithmetic on `int` that overflows.
-/

namespace Abseil.DemangleRust

open ByteBuffer RustPunycode

/-! ## The state -/

/-- `ReturnAddress`. -/
inductive ReturnAddress
  | instantiatingCrate
  | vendorSpecificSuffix
  | identifierInUppercaseNamespace
  | identifierInLowercaseNamespace
  | inherentImplType
  | inherentImplEnding
  | traitImplType
  | traitImplInfix
  | traitImplEnding
  | implPathEnding
  | traitDefinitionInfix
  | traitDefinitionEnding
  | arraySize
  | finishArray
  | sliceEnding
  | afterFirstTupleElement
  | afterSecondTupleElement
  | afterThirdTupleElement
  | afterSubsequentTupleElement
  | continueParameterList
  | finishFn
  | beginAutoTraits
  | continueAutoTraits
  | continueDynTrait
  | continueAssocBinding
  | constData
  | beginGenericArgList
  | continueGenericArgList
  | pathBackrefEnding
  | typeBackrefEnding
  | constantBackrefEnding

/-- The members of `RustSymbolParser`. The output pointer is an index into the buffer, and the
stacks are lists with the last element pushed first. -/
structure State where
  pos : ℕ
  silenceDepth : ℕ
  recursionStack : List ReturnAddress
  namespaceStack : List UInt8
  positionStack : List ℕ
  out : List UInt8
  outPos : ℕ

/-- A value, the end of `Parse` with its result, or a fault. -/
inductive Res (α : Type)
  | ok (a : α) (s : State)
  | done (result : Bool) (s : State)
  | fault

/-- A step of the parser. -/
def Parser (α : Type) := State → Res α

namespace Parser

/-- Nothing happens. -/
def pure {α : Type} (a : α) : Parser α := fun s => .ok a s

/-- One step after the other. -/
def bind {α β : Type} (m : Parser α) (f : α → Parser β) : Parser β := fun s =>
  match m s with
  | .ok a s => f a s
  | .done result s => .done result s
  | .fault => .fault

instance : Monad Parser where
  pure := Parser.pure
  bind := Parser.bind

end Parser

/-! ## Input -/

/-- The byte of a character. -/
def ch (c : Char) : UInt8 := UInt8.ofNat c.toNat

/-- The bytes of a text. -/
def bytes (text : String) : List UInt8 := text.toList.map ch

/-- `IsDigit`. -/
def isDigit (c : UInt8) : Bool := ch '0' ≤ c && c ≤ ch '9'

/-- `IsLower`. -/
def isLower (c : UInt8) : Bool := ch 'a' ≤ c && c ≤ ch 'z'

/-- `IsUpper`. -/
def isUpper (c : UInt8) : Bool := ch 'A' ≤ c && c ≤ ch 'Z'

/-- `IsAlpha`. -/
def isAlpha (c : UInt8) : Bool := isLower c || isUpper c

/-- `IsIdentifierChar`. -/
def isIdentifierChar (c : UInt8) : Bool := isAlpha c || isDigit c || c == ch '_'

/-- `IsLowerHexDigit`. -/
def isLowerHexDigit (c : UInt8) : Bool := isDigit c || (ch 'a' ≤ c && c ≤ ch 'f')

/-- `return false`. -/
def reject {α : Type} : Parser α := fun s => .done false s

/-- `return true`. -/
def accept {α : Type} : Parser α := fun s => .done true s

/-- A fault. -/
def fail {α : Type} : Parser α := fun _ => .fault

/-- A number of `int`. -/
def int (x : ℕ) : Parser ℕ := fun s => if x < 2 ^ 31 then .ok x s else .fault

section Input

variable (encoding : List UInt8)

/-- The byte at an index, which may be that of the terminator. -/
def charAt (i : ℕ) : Option UInt8 :=
  if i < encoding.length then encoding[i]? else if i = encoding.length then some 0 else none

/-- `Peek`. -/
def peek : Parser UInt8 := fun s =>
  match charAt encoding s.pos with
  | some c => .ok c s
  | none => .fault

/-- `++pos_`. -/
def advance : Parser Unit := fun s =>
  if s.pos + 1 < 2 ^ 31 then .ok () { s with pos := s.pos + 1 } else .fault

/-- `Take`. -/
def take : Parser UInt8 := do
  let c ← peek encoding
  advance
  pure c

/-- `Eat`. -/
def eat (want : Char) : Parser Bool := do
  let c ← peek encoding
  if c = ch want then do
    advance
    pure true
  else pure false

/-- `if (Eat(want)) …`. -/
def ifEat {α : Type} (want : Char) (yes no : Parser α) : Parser α := do
  let b ← eat encoding want
  if b then yes else no

/-- `if (!Eat(want)) return false`. -/
def expect (want : Char) : Parser Unit := ifEat encoding want (pure ()) reject

/-! ## Output -/

/-- Bytes at the output pointer. -/
def write (text : List UInt8) : Parser Unit := fun s =>
  match put s.out s.outPos text with
  | some out => .ok () { s with out := out }
  | none => .fault

/-- Output that was written elsewhere. -/
def advanceOut (n : ℕ) : Parser Unit := fun s => .ok () { s with outPos := s.outPos + n }

/-- `EmitChar`. -/
def emitChar (c : UInt8) : Parser Unit := fun s =>
  if s.silenceDepth > 0 then .ok () s
  else if s.out.length < s.outPos + 2 then .done false s
  else (do
    write [c, 0]
    advanceOut 1 : Parser Unit) s

/-- `Emit`. -/
def emit (token : List UInt8) : Parser Unit := fun s =>
  if s.silenceDepth > 0 then .ok () s
  else if s.out.length < s.outPos + (token.length + 1) then .done false s
  else (do
    write (token ++ [0])
    advanceOut token.length : Parser Unit) s

/-- The digits of a number, before the index `leadingDigitIndex` of the buffer. -/
def disambiguatorDigits : ℕ → ℕ → List UInt8 → Option (List UInt8)
  | leadingDigitIndex, disambiguator, digits =>
    if disambiguator > 0 then
      match leadingDigitIndex with
      | 0 => none
      | i + 1 =>
        disambiguatorDigits i (disambiguator / 10) (UInt8.ofNat (48 + disambiguator % 10) :: digits)
    else some digits

/-- `EmitDisambiguator`. A number that was too large is none. -/
def emitDisambiguator : Option ℕ → Parser Unit
  | none => emitChar (ch '?')
  | some 0 => emitChar (ch '0')
  | some disambiguator =>
    match disambiguatorDigits 11 disambiguator [] with
    | some digits => emit digits
    | none => fail

/-! ## Numbers -/

/-- The value of a digit of `ParseBase62Number`. -/
def base62Digit (c : UInt8) : ℕ :=
  if isDigit c then c.toNat - 48 else if isLower c then c.toNat - 97 + 10 else c.toNat - 65 + 36

/-- The loop of `ParseBase62Number`, which reads at most 16 digits. -/
def base62Loop : ℕ → ℕ → Bool → Parser (ℕ × Bool)
  | left, encodedNumber, overflowed => do
    let c ← peek encoding
    if isAlpha c || isDigit c then
      match left with
      | 0 => reject
      | left + 1 => do
        let c ← take encoding
        if encodedNumber ≥ (2 ^ 31 - 1) / 62 then base62Loop left encodedNumber true
        else do
          let encodedNumber ← int (62 * encodedNumber + base62Digit c)
          base62Loop left encodedNumber overflowed
    else pure (encodedNumber, overflowed)

/-- `ParseBase62Number`. A number that is too large is none. -/
def parseBase62Number : Parser (Option ℕ) :=
  ifEat encoding '_' (pure (some 0)) do
    let (encodedNumber, overflowed) ← base62Loop encoding 16 0 false
    expect encoding '_'
    if overflowed then pure none
    else do
      let value ← int (encodedNumber + 1)
      pure (some value)

/-- `ParseDisambiguator`. -/
def parseDisambiguator : Parser (Option ℕ) :=
  ifEat encoding 's'
    (do
      let base62Value ← parseBase62Number encoding
      match base62Value with
      | none => pure none
      | some v => do
        let value ← int (v + 1)
        pure (some value))
    (pure (some 0))

/-- The loop of `ParseDecimalNumber`. Nine rounds are enough. -/
def decimalLoop : ℕ → ℕ → Parser ℕ
  | fuel, encodedNumber => do
    let c ← peek encoding
    if isDigit c && encodedNumber < (2 ^ 31 - 1) / 10 then
      match fuel with
      | 0 => fail
      | fuel + 1 => do
        let c ← take encoding
        let encodedNumber ← int (10 * encodedNumber + (c.toNat - 48))
        decimalLoop fuel encodedNumber
    else pure encodedNumber

/-- `ParseDecimalNumber`. -/
def parseDecimalNumber : Parser ℕ := do
  let c ← peek encoding
  if isDigit c then do
    let c ← take encoding
    if c.toNat - 48 = 0 then pure 0
    else do
      let value ← decimalLoop encoding 9 (c.toNat - 48)
      let c ← peek encoding
      if isDigit c then reject else pure value
  else reject

/-! ## Identifiers -/

/-- What is in the buffer when the loop of `DecodeRustPunycode` ends. -/
def decodeLoopOut : ℕ → RustPunycode.State → List UInt8
  | 0, s => s.out
  | fuel + 1, s =>
    if s.punycode = [] then s.out
    else
      match decodeStep s with
      | .ok s => decodeLoopOut fuel s
      | .error _ => s.out

/-- What is in the buffer when `DecodeRustPunycode` ends. It does not write before it fails. -/
def decodeOut (punycode out : List UInt8) : List UInt8 :=
  match put out 0 [0] with
  | none => out
  | some out =>
    match consumeOptionalAsciiPrefix punycode out with
    | .error _ => out
    | .ok (numChars, punycode, out) =>
      decodeLoopOut punycode.length
        ⟨punycode, 128, 0, 72, numChars, numChars, List.replicate (kMaxChars / 32) 0, out⟩

/-- The call of `DecodeRustPunycode` for the next bytes. -/
def emitPunycode (numBytes : ℕ) : Parser Unit := fun s =>
  match decodeRustPunycode ((encoding.drop s.pos).take numBytes) (s.out.drop s.outPos) with
  | .ok (n, out) =>
    if s.pos + numBytes < 2 ^ 31 then
      .ok () { s with
        pos := s.pos + numBytes
        out := s.out.take s.outPos ++ out
        outPos := s.outPos + n }
    else .fault
  | .error .null => .done false { s with
      out := s.out.take s.outPos ++
        decodeOut ((encoding.drop s.pos).take numBytes) (s.out.drop s.outPos) }
  | .error .fault => .fault

/-- `strlen(&encoding_[pos_])`. -/
def remaining : Parser ℕ := fun s =>
  if s.pos ≤ encoding.length then .ok (encoding.length - s.pos) s else .fault

/-- The bytes of an identifier that is not printed. -/
def skipBytes : ℕ → Parser Unit
  | 0 => pure ()
  | n + 1 => do
    let c ← take encoding
    if c = 0 then reject else skipBytes n

/-- The bytes of an identifier. -/
def emitBytes : ℕ → Parser Unit
  | 0 => pure ()
  | n + 1 => do
    let c ← take encoding
    if !isIdentifierChar c && c &&& 0x80 == 0 then reject
    else do
      emitChar c
      emitBytes n

/-- Whether output is suppressed. -/
def isSilent : Parser Bool := fun s => .ok (decide (s.silenceDepth > 0)) s

/-- A punycoded identifier. -/
def parsePunycode (numBytes : ℕ) : Parser Unit := do
  let n ← remaining encoding
  if numBytes > n then reject
  else do
    let silent ← isSilent
    if silent then skipBytes encoding numBytes else emitPunycode encoding numBytes

/-- The beginning of a braced form. -/
def emitOpening (uppercaseNamespace : UInt8) (numBytes : ℕ) : Parser Unit :=
  if uppercaseNamespace = 0 then pure ()
  else do
    if uppercaseNamespace = ch 'C' then emit (bytes "\x7bclosure")
    else if uppercaseNamespace = ch 'S' then emit (bytes "\x7bshim")
    else do
      emitChar (ch '\x7b')
      emitChar uppercaseNamespace
    if numBytes > 0 then emit (bytes ":") else pure ()

/-- The end of a braced form. -/
def emitClosing (uppercaseNamespace : UInt8) (disambiguator : Option ℕ) : Parser Unit :=
  if uppercaseNamespace = 0 then pure ()
  else do
    emitChar (ch '#')
    emitDisambiguator disambiguator
    emitChar (ch '\x7d')

/-- `ParseUndisambiguatedIdentifier`. -/
def parseUndisambiguatedIdentifier (uppercaseNamespace : UInt8) (disambiguator : Option ℕ) :
    Parser Unit := do
  let isPunycoded ← eat encoding 'u'
  let numBytes ← parseDecimalNumber encoding
  let _ ← eat encoding '_'
  if isPunycoded then parsePunycode encoding numBytes else pure ()
  emitOpening uppercaseNamespace numBytes
  if isPunycoded then pure () else emitBytes encoding numBytes
  emitClosing uppercaseNamespace disambiguator

/-- `ParseIdentifier`. -/
def parseIdentifier (uppercaseNamespace : UInt8) : Parser Unit := do
  let disambiguator ← parseDisambiguator encoding
  parseUndisambiguatedIdentifier encoding uppercaseNamespace disambiguator

/-- `ParseOptionalBinder`. -/
def parseOptionalBinder : Parser Unit :=
  ifEat encoding 'G'
    (do
      let _ ← parseBase62Number encoding
      pure ())
    (pure ())

/-- `ParseOptionalLifetime`. -/
def parseOptionalLifetime : Parser Unit :=
  ifEat encoding 'L'
    (do
      let _ ← parseBase62Number encoding
      pure ())
    (pure ())

/-- `ParseRequiredLifetime`. -/
def parseRequiredLifetime : Parser Unit := do
  let c ← peek encoding
  if c = ch 'L' then parseOptionalLifetime encoding else reject

/-! ## Stacks -/

/-- `PushNamespace`. -/
def pushNamespace (ns : UInt8) : Parser Unit := fun s =>
  if s.namespaceStack.length = 64 then .done false s
  else if s.namespaceStack.length < 64 then
    .ok () { s with namespaceStack := ns :: s.namespaceStack }
  else .fault

/-- `PopNamespace`. -/
def popNamespace : Parser UInt8 := fun s =>
  match s.namespaceStack with
  | [] => .fault
  | ns :: rest => .ok ns { s with namespaceStack := rest }

/-- `PushPosition` of the current position, which is then `offset`. -/
def pushPosition (offset : ℕ) : Parser Unit := fun s =>
  if s.positionStack.length = 16 then .done false s
  else if s.positionStack.length < 16 then
    .ok () { s with positionStack := s.pos :: s.positionStack, pos := offset }
  else .fault

/-- `BeginBackref`. -/
def beginBackref : Parser Unit := fun s => (do
  let offset ← parseBase62Number encoding
  match offset with
  | none => reject
  | some offset =>
    if (offset : ℤ) ≥ (s.pos : ℤ) - 2 - 1 then reject
    else do
      let offset ← int (offset + 2)
      pushPosition offset : Parser Unit) s

/-- `EndBackref`. -/
def endBackref : Parser Unit := fun s =>
  match s.positionStack with
  | [] => .fault
  | position :: rest => .ok () { s with positionStack := rest, pos := position }

/-- `++silence_depth_`. -/
def silence : Parser Unit := fun s =>
  if s.silenceDepth + 1 < 2 ^ 31 then .ok () { s with silenceDepth := s.silenceDepth + 1 }
  else .fault

/-- `--silence_depth_`, which is never negative. -/
def unsilence : Parser Unit := fun s =>
  match s.silenceDepth with
  | 0 => .fault
  | n + 1 => .ok () { s with silenceDepth := n }

/-! ## The code -/

/-- The labels. -/
inductive Label
  | wholeEncoding
  | path
  | crateRoot
  | inherentImpl
  | traitImpl
  | implPath
  | traitDefinition
  | nestedPath
  | type
  | tupleType
  | fnType
  | dynTraitType
  | dynTrait
  | constant
  | genericArgs
  | genericArg
  | pathBackref
  | typeBackref
  | constBackref

/-- Where the machine goes on. -/
inductive Point
  | label (l : Label)
  | resume (r : ReturnAddress)

/-- `goto` a label, or `continue`, the return of a simulated call. -/
inductive Next
  | goto (l : Label)
  | continue

/-- A jump to a label. -/
def goto (l : Label) : Parser Next := pure (.goto l)

/-- The return of a simulated call. -/
def returns : Parser Next := pure .continue

/-- `ABSL_DEMANGLER_RECURSE`. -/
def recurse (callee : Label) (caller : ReturnAddress) : Parser Next := fun s =>
  if s.recursionStack.length = 256 then .done false s
  else if s.recursionStack.length < 256 then
    .ok (.goto callee) { s with recursionStack := caller :: s.recursionStack }
  else .fault

/-- `BasicTypeName`. -/
def basicTypeName (c : UInt8) : Option (List UInt8) :=
  ([('a', "i8"), ('b', "bool"), ('c', "char"), ('d', "f64"), ('e', "str"), ('f', "f32"),
    ('h', "u8"), ('i', "isize"), ('j', "usize"), ('l', "i32"), ('m', "u32"), ('n', "i128"),
    ('o', "u128"), ('p', "_"), ('s', "i16"), ('t', "u16"), ('u', "()"), ('v', "..."),
    ('x', "i64"), ('y', "u64"), ('z', "!")].find? fun x => ch x.1 == c).map fun x => bytes x.2

/-- A token at the end of a production. -/
def emitReturn (token : String) : Parser Next := do
  emit (bytes token)
  returns

/-- The end of the whole encoding. -/
def finish : Parser Next := do
  let c ← take encoding
  if c = ch '.' ∨ c = ch '$' ∨ c = 0 then accept else reject

/-- A path, which starts with a letter for its kind. -/
def path : Parser Next := do
  let c ← take encoding
  if c = ch 'C' then goto .crateRoot
  else if c = ch 'M' then goto .inherentImpl
  else if c = ch 'X' then goto .traitImpl
  else if c = ch 'Y' then goto .traitDefinition
  else if c = ch 'N' then goto .nestedPath
  else if c = ch 'I' then goto .genericArgs
  else if c = ch 'B' then goto .pathBackref
  else reject

/-- A path in a namespace. -/
def nestedPath : Parser Next := do
  let c ← peek encoding
  if isUpper c then do
    let ns ← take encoding
    pushNamespace ns
    recurse .path .identifierInUppercaseNamespace
  else do
    let c ← take encoding
    if isLower c then recurse .path .identifierInLowercaseNamespace else reject

/-- A type. -/
def type : Parser Next := do
  let c ← peek encoding
  if isLower c then do
    let c ← take encoding
    match basicTypeName c with
    | none => reject
    | some typeName => do
      emit typeName
      returns
  else
    ifEat encoding 'A' (do
      emit (bytes "[")
      recurse .type .arraySize) <|
    ifEat encoding 'S' (do
      emit (bytes "[")
      recurse .type .sliceEnding) <|
    ifEat encoding 'T' (goto .tupleType) <|
    ifEat encoding 'R' (do
      emit (bytes "&")
      parseOptionalLifetime encoding
      goto .type) <|
    ifEat encoding 'Q' (do
      emit (bytes "&mut ")
      parseOptionalLifetime encoding
      goto .type) <|
    ifEat encoding 'P' (do
      emit (bytes "*const ")
      goto .type) <|
    ifEat encoding 'O' (do
      emit (bytes "*mut ")
      goto .type) <|
    ifEat encoding 'F' (goto .fnType) <|
    ifEat encoding 'D' (goto .dynTraitType) <|
    ifEat encoding 'B' (goto .typeBackref) <|
    goto .path

/-- The elements of a tuple that are not printed. -/
def tupleRest : Parser Next :=
  ifEat encoding 'E' (do
    unsilence
    returns) (recurse .type .afterSubsequentTupleElement)

/-- The parameters of a function. -/
def parameterList : Parser Next :=
  ifEat encoding 'E' (recurse .type .finishFn) (recurse .type .continueParameterList)

/-- The type of a function, of which only `fn...` is printed. -/
def fnType : Parser Next := do
  emit (bytes "fn...")
  silence
  parseOptionalBinder encoding
  let _ ← eat encoding 'U'
  ifEat encoding 'K'
    (ifEat encoding 'C' (pure ()) (parseUndisambiguatedIdentifier encoding 0 (some 0))) (pure ())
  parameterList encoding

/-- The lifetime behind the traits. -/
def dynLifetime : Parser Next := do
  parseRequiredLifetime encoding
  returns

/-- The other traits. -/
def autoTraits : Parser Next :=
  ifEat encoding 'E' (dynLifetime encoding) (do
    emit (bytes " + ")
    recurse .dynTrait .continueAutoTraits)

/-- A trait object. -/
def dynTraitType : Parser Next := do
  emit (bytes "dyn ")
  parseOptionalBinder encoding
  ifEat encoding 'E' (dynLifetime encoding) (recurse .dynTrait .beginAutoTraits)

/-- The bindings of a trait. -/
def assocBindings : Parser Next :=
  ifEat encoding 'p' (do
    parseUndisambiguatedIdentifier encoding 0 (some 0)
    recurse .type .continueAssocBinding) (do
    unsilence
    returns)

/-- What follows a trait : its bindings are not printed. -/
def dynTraitRest : Parser Next := do
  let c ← peek encoding
  if c = ch 'p' then do
    emit (bytes "<>")
    silence
    assocBindings encoding
  else returns

/-- A constant, whose type is not printed. -/
def constant : Parser Next :=
  ifEat encoding 'B' (goto .constBackref) <|
  ifEat encoding 'p' (emitReturn "_") do
    silence
    recurse .type .constData

/-- The digits of a constant, at most as many as bytes are left. -/
def hexDigits (fuel : ℕ) : Parser Unit := do
  let c ← peek encoding
  if isLowerHexDigit c then
    match fuel with
    | 0 => fail
    | fuel + 1 => do
      let c ← take encoding
      emitChar c
      hexDigits fuel
  else pure ()

/-- The digits of a constant. -/
def constData : Parser Next := do
  unsilence
  ifEat encoding 'n' (emitChar (ch '-')) (pure ())
  emit (bytes "0x")
  ifEat encoding '0' (do
      emitChar (ch '0')
      expect encoding '_'
      returns) (do
      hexDigits encoding encoding.length
      expect encoding '_'
      returns)

/-- The arguments. -/
def genericArgList : Parser Next :=
  ifEat encoding 'E' (do
    unsilence
    returns) (recurse .genericArg .continueGenericArgList)

/-- A generic argument : a lifetime, a constant or a type. -/
def genericArg : Parser Next := do
  let c ← peek encoding
  if c = ch 'L' then do
    parseOptionalLifetime encoding
    returns
  else ifEat encoding 'K' (goto .constant) (goto .type)

/-- A reference back to what `callee` parses. -/
def backref (callee : Label) (caller : ReturnAddress) : Parser Next := do
  beginBackref encoding
  let silent ← isSilent
  if silent then do
    endBackref
    returns
  else recurse callee caller

/-- The end of a backreference is a return. -/
def endBackrefReturn : Parser Next := do
  endBackref
  returns

/-- An element of a tuple, and what follows if there is none or one more. -/
def tupleElement (ending more : String) (next : Parser Next) : Parser Next :=
  ifEat encoding 'E' (emitReturn ending) (do
    emit (bytes more)
    next)

/-- The code from a label on. -/
def code : Label → Parser Next
  | .wholeEncoding => do
    expect encoding '_'
    expect encoding 'R'
    recurse .path .instantiatingCrate
  | .path => path encoding
  | .crateRoot => do
    parseIdentifier encoding 0
    returns
  | .inherentImpl => do
    emit (bytes "<")
    recurse .implPath .inherentImplType
  | .traitImpl => do
    emit (bytes "<")
    recurse .implPath .traitImplType
  | .implPath => do
    silence
    let _ ← parseDisambiguator encoding
    recurse .path .implPathEnding
  | .traitDefinition => do
    emit (bytes "<")
    recurse .type .traitDefinitionInfix
  | .nestedPath => nestedPath encoding
  | .type => type encoding
  | .tupleType => do
    emit (bytes "(")
    ifEat encoding 'E' (emitReturn ")") (recurse .type .afterFirstTupleElement)
  | .fnType => fnType encoding
  | .dynTraitType => dynTraitType encoding
  | .dynTrait => recurse .path .continueDynTrait
  | .constant => constant encoding
  | .genericArgs => recurse .path .beginGenericArgList
  | .genericArg => genericArg encoding
  | .pathBackref => backref encoding .path .pathBackrefEnding
  | .typeBackref => backref encoding .type .typeBackrefEnding
  | .constBackref => backref encoding .constant .constantBackrefEnding

/-- The code after a simulated call. -/
def resume : ReturnAddress → Parser Next
  | .instantiatingCrate => do
    let c ← peek encoding
    if isAlpha c then do
      silence
      recurse .path .vendorSpecificSuffix
    else finish encoding
  | .vendorSpecificSuffix => finish encoding
  | .identifierInUppercaseNamespace => do
    emit (bytes "::")
    let ns ← popNamespace
    parseIdentifier encoding ns
    returns
  | .identifierInLowercaseNamespace => do
    emit (bytes "::")
    parseIdentifier encoding 0
    returns
  | .inherentImplType => recurse .type .inherentImplEnding
  | .inherentImplEnding => emitReturn ">"
  | .traitImplType => recurse .type .traitImplInfix
  | .traitImplInfix => do
    emit (bytes " as ")
    recurse .path .traitImplEnding
  | .traitImplEnding => emitReturn ">"
  | .implPathEnding => do
    unsilence
    returns
  | .traitDefinitionInfix => do
    emit (bytes " as ")
    recurse .path .traitDefinitionEnding
  | .traitDefinitionEnding => emitReturn ">"
  | .arraySize => do
    emit (bytes "; ")
    recurse .constant .finishArray
  | .finishArray => emitReturn "]"
  | .sliceEnding => emitReturn "]"
  | .afterFirstTupleElement =>
    tupleElement encoding ",)" ", " (recurse .type .afterSecondTupleElement)
  | .afterSecondTupleElement =>
    tupleElement encoding ")" ", " (recurse .type .afterThirdTupleElement)
  | .afterThirdTupleElement => tupleElement encoding ")" ", ...)" do
    silence
    tupleRest encoding
  | .afterSubsequentTupleElement => tupleRest encoding
  | .continueParameterList => parameterList encoding
  | .finishFn => do
    unsilence
    returns
  | .beginAutoTraits => autoTraits encoding
  | .continueAutoTraits => autoTraits encoding
  | .continueDynTrait => dynTraitRest encoding
  | .continueAssocBinding => assocBindings encoding
  | .constData => constData encoding
  | .beginGenericArgList => do
    emit (bytes "::<>")
    silence
    genericArgList encoding
  | .continueGenericArgList => genericArgList encoding
  | .pathBackrefEnding => endBackrefReturn
  | .typeBackrefEnding => endBackrefReturn
  | .constantBackrefEnding => endBackrefReturn

/-- The code at a point. -/
def Point.code : Point → Parser Next
  | .label l => DemangleRust.code encoding l
  | .resume r => DemangleRust.resume encoding r

/-! ## The loop -/

/-- `kMaxReturns`. -/
def kMaxReturns : ℕ := 2 ^ 17

/-- Where the parser is, and how many simulated calls returned. -/
structure Config where
  point : Point
  iter : ℕ
  state : State

/-- What a step leads to. -/
inductive Out
  | next (c : Config)
  | done (result : Bool) (s : State)
  | fault

/-- The code from a point on. -/
def step (c : Config) : Out :=
  match c.point.code encoding c.state with
  | .ok (.goto l) s => .next ⟨.label l, c.iter, s⟩
  | .ok .continue s =>
    if c.iter + 1 < kMaxReturns then
      match s.recursionStack with
      | [] => .done false s
      | r :: rest => .next ⟨.resume r, c.iter + 1, { s with recursionStack := rest }⟩
    else .done false s
  | .done result s => .done result s
  | .fault => .fault

/-- At most `n` steps. -/
def run : ℕ → Config → Out
  | 0, c => .next c
  | n + 1, c =>
    match step encoding c with
    | .next c => run n c
    | .done result s => .done result s
    | .fault => .fault

end Input

/-- The constructor, which writes a terminator. -/
def start (out : List UInt8) : Config :=
  ⟨.label .wholeEncoding, 0, ⟨0, 0, [], [], [], (put out 0 [0]).getD out, 0⟩⟩

end Abseil.DemangleRust
