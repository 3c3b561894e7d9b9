import MiniC.Token.CharClass
import MiniC.Token.Literal

set_option autoImplicit false

/-! # Reading decimal numbers

A decimal number is digits, a point with digits and an exponent, of which only the first must be
there. It denotes its digits, taken as one integer, times a power of ten; the nearest binary64
number is its value. -/

namespace MiniC.Decimal

open CharClass

/-- The exact value of a decimal number: `significand * 10 ^ exponent`. -/
structure Number where
  significand : Nat
  exponent : Int
deriving DecidableEq, Repr

/-- The digits after the point at the front of a text, and what follows them. -/
def splitFraction : List Char → List Char × List Char
  | '.' :: rest => (rest.takeWhile isDigit, rest.dropWhile isDigit)
  | rest => ([], rest)

/-- The exponent at the front of a text, zero if there is none. -/
def readExponent : List Char → Int
  | 'e' :: '-' :: digits => -Int.ofNat (ofDigits 10 (digits.takeWhile isDigit))
  | 'e' :: digits => Int.ofNat (ofDigits 10 (digits.takeWhile isDigit))
  | _ => 0

/-- The exact value of the decimal number at the front of a text. -/
def read (text : List Char) : Number :=
  let whole := text.takeWhile isDigit
  let (fraction, rest) := splitFraction (text.dropWhile isDigit)
  ⟨ofDigits 10 (whole ++ fraction), readExponent rest - Int.ofNat fraction.length⟩

/-- The binary64 number nearest to a decimal number. -/
def Number.toFloat (n : Number) : Float :=
  Float.ofScientific n.significand (decide (n.exponent < 0)) n.exponent.natAbs

end MiniC.Decimal
