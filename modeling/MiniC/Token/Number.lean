import MiniC.Token.Basic
import MiniC.Token.CharClass
import MiniC.Token.Error

set_option autoImplicit false

/-! # Numeric literals

Reads a numeric literal from the front of a text that begins with a digit, or with a point before a
digit. The literal is kept in a canonical spelling: an integer without leading zeros, with a lower
case radix mark, digits and suffix; a floating literal with at least one digit on each side of its
point and without a plus sign in its exponent. The canonical spelling denotes the same number. -/

namespace MiniC

open CharClass

/-- Why a lexeme cannot be read, and how many of its characters stand before the place where
reading stopped. -/
structure LexemeFault where
  cause : LexicalCause
  offset : Nat
deriving DecidableEq, Repr

/-- A numeric literal read from the front of a text: its kind, its canonical spelling and the number
of characters it takes up. -/
structure Number where
  kind : LiteralKind
  text : List Char
  length : Nat
deriving DecidableEq, Repr

namespace Number

/-- A single zero in place of no digits. -/
def orZero : List Char → List Char
  | [] => ['0']
  | digits => digits

/-- Digits without the zeros they begin with. -/
def dropLeadingZeros (digits : List Char) : List Char :=
  digits.dropWhile (· = '0')

/-- Digits without the zeros they end with. -/
def dropTrailingZeros (digits : List Char) : List Char :=
  (digits.reverse.dropWhile (· = '0')).reverse

/-! ## Integers -/

/-- The size and the signedness that a lower case suffix asks for. -/
def sizeOfSuffix : List Char → Option (LiteralSize × Bool)
  | [] => some (.plain, true)
  | ['u'] => some (.plain, false)
  | ['l'] => some (.long, true)
  | ['l', 'l'] => some (.longLong, true)
  | ['u', 'l'] => some (.long, false)
  | ['l', 'u'] => some (.long, false)
  | ['u', 'l', 'l'] => some (.longLong, false)
  | ['l', 'l', 'u'] => some (.longLong, false)
  | _ => none

/-- The suffix at the front of `rest`, in lower case, with its meaning. `offset` characters of the
literal stand before it. A suffix must not run into a name, a digit or a point. -/
def readSuffix (offset : Nat) (rest : List Char) :
    Except LexemeFault (List Char × LiteralSize × Bool) :=
  let suffix := (rest.takeWhile isSuffix).map Char.toLower
  let fault : LexemeFault := ⟨.invalidSuffix, offset + suffix.length⟩
  match sizeOfSuffix suffix with
  | none => .error fault
  | some meaning =>
    if suffix ≠ [] && startsWith continuesNumber (rest.dropWhile isSuffix) then .error fault
    else .ok (suffix, meaning)

/-- An integer with a radix mark of two characters, already read, in front of `rest`. -/
def readMarked (radix : Radix) (mark : List Char) (isRadixDigit : Char → Bool)
    (cause : LexicalCause) (rest : List Char) : Except LexemeFault Number :=
  let digits := rest.takeWhile isRadixDigit
  let after := rest.dropWhile isRadixDigit
  let offset := 2 + digits.length
  if digits = [] then .error ⟨cause, offset⟩
  else if startsWith continuesNumber after && !startsWith isSuffix after then .error ⟨cause, offset⟩
  else do
    let (suffix, size, signed) ← readSuffix offset after
    let canonical := orZero (dropLeadingZeros (digits.map Char.toLower))
    return ⟨.integer size signed radix, mark ++ canonical ++ suffix, offset + suffix.length⟩

/-- The integer that consists of `digits` and the suffix in front of `rest`. Digits that begin with
a zero, and are not all zeros, are octal. -/
def readUnmarked (digits rest : List Char) : Except LexemeFault Number := do
  let (suffix, size, signed) ← readSuffix digits.length rest
  let length := digits.length + suffix.length
  let significant := dropLeadingZeros digits
  if significant = [] then
    return ⟨.integer size signed .decimal, '0' :: suffix, length⟩
  else if significant = digits then
    return ⟨.integer size signed .decimal, digits ++ suffix, length⟩
  else if digits.all isOctal then
    return ⟨.integer size signed .octal, '0' :: significant ++ suffix, length⟩
  else
    throw ⟨.invalidOctal, length⟩

/-! ## Floating literals -/

/-- The pieces of a floating literal as they are spelled. -/
structure Spelling where
  /-- The digits before the point. -/
  whole : List Char
  /-- The digits after the point, if there is a point. -/
  fraction : Option (List Char)
  /-- Whether the exponent has a minus sign, and its digits, if there is an exponent. -/
  exponent : Option (Bool × List Char)
deriving DecidableEq, Repr

/-- The canonical spelling of a floating literal. -/
def Spelling.canonical (s : Spelling) : List Char :=
  orZero (dropLeadingZeros s.whole)
    ++ (match s.fraction with
        | none => []
        | some digits => '.' :: orZero (dropTrailingZeros digits))
    ++ (match s.exponent with
        | none => []
        | some (negative, digits) => 'e' :: ((if negative then ['-'] else []) ++ digits))

/-- What is missing at the end of a floating literal: digits of the exponent, or of the fraction
where there is no exponent. -/
def Spelling.missing (s : Spelling) : Option LexicalCause :=
  match s.exponent, s.fraction with
  | some (_, []), _ => some .endsWithExponent
  | none, some [] => some .endsWithPoint
  | _, _ => none

/-- Ends a floating literal of `length` characters in front of `rest`. -/
def Spelling.finish (s : Spelling) (length : Nat) (rest : List Char) : Except LexemeFault Number :=
  let stop (cause : LexicalCause) (offset : Nat) : Except LexemeFault Number :=
    .error ⟨cause, offset⟩
  match rest with
  | '.' :: _ => stop .invalidPointInNumber length
  | 'e' :: _ => stop .invalidExponent length
  | 'E' :: _ => stop .invalidExponent length
  | c :: after =>
    if c = 'f' || c = 'F' then
      match s.missing with
      | some cause => stop cause length
      | none =>
        if startsWith continuesNumber after then stop .invalidFloat (length + 1)
        else .ok ⟨.float, s.canonical ++ ['f'], length + 1⟩
    else if isNameStart c then stop .invalidFloat length
    else
      match s.missing with
      | some cause => stop cause length
      | none => .ok ⟨.double, s.canonical, length⟩
  | [] =>
    match s.missing with
    | some cause => stop cause length
    | none => .ok ⟨.double, s.canonical, length⟩

/-- The exponent at the front of a text, without its mark: whether it has a minus sign, its digits,
and the number of characters of both. -/
def readExponent (rest : List Char) : Bool × List Char × Nat :=
  match rest with
  | '-' :: r => let digits := r.takeWhile isDigit; (true, digits, 1 + digits.length)
  | '+' :: r => let digits := r.takeWhile isDigit; (false, digits, 1 + digits.length)
  | r => let digits := r.takeWhile isDigit; (false, digits, digits.length)

/-- The floating literal that begins with the digits `whole` and goes on, with a point or an
exponent, in front of `rest`. -/
def readFloating (whole rest : List Char) : Except LexemeFault Number :=
  let (fraction, offset, after) : Option (List Char) × Nat × List Char :=
    match rest with
    | '.' :: r =>
      let digits := r.takeWhile isDigit
      (some digits, whole.length + 1 + digits.length, r.dropWhile isDigit)
    | r => (none, whole.length, r)
  match after with
  | c :: r =>
    if c = 'e' || c = 'E' then
      let (negative, digits, length) := readExponent r
      Spelling.finish ⟨whole, fraction, some (negative, digits)⟩ (offset + 1 + length)
        (r.drop length)
    else
      Spelling.finish ⟨whole, fraction, none⟩ offset after
  | [] => Spelling.finish ⟨whole, fraction, none⟩ offset after

/-! ## All numeric literals -/

/-- The numeric literal at the front of a text that begins with a digit, or with a point before a
digit. -/
def read (text : List Char) : Except LexemeFault Number :=
  match text with
  | '0' :: 'b' :: rest => readMarked .binary ['0', 'b'] isBinary .invalidBinary rest
  | '0' :: 'B' :: rest => readMarked .binary ['0', 'b'] isBinary .invalidBinary rest
  | '0' :: 'x' :: rest => readMarked .hex ['0', 'x'] isHex .invalidHex rest
  | '0' :: 'X' :: rest => readMarked .hex ['0', 'x'] isHex .invalidHex rest
  | _ =>
    let digits := text.takeWhile isDigit
    let rest := text.dropWhile isDigit
    match rest with
    | [] => readUnmarked digits rest
    | c :: _ =>
      if c = '.' || c = 'e' || c = 'E' then readFloating digits rest
      else if c = 'f' || c = 'F' then .error ⟨.floatWithoutPoint, digits.length⟩
      else if isNameStart c && !isSuffix c then .error ⟨.invalidNumber, digits.length⟩
      else readUnmarked digits rest

end Number

end MiniC
