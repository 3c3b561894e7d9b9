import MiniC.Decimal.Read
import MiniC.Value.Basic

set_option autoImplicit false

/-! # The values of literals

A literal other than a string denotes a single value. A string literal denotes a buffer of
characters that ends with a zero. -/

namespace MiniC

/-- The width of an integer literal. -/
def LiteralSize.width : LiteralSize → Nat
  | .plain => 32
  | _ => 64

/-- The characters of a quoted literal followed by a zero, as values. -/
def Lexeme.characters (l : Lexeme) : List Value :=
  (l.codePoints ++ [0]).map fun code => .int (.ofCode code)

/-- The binary64 number nearest to what a floating literal spells. -/
def Lexeme.number (l : Lexeme) : Float :=
  (Decimal.read l.text.toList).toFloat

/-- The value that a literal of the given kind denotes, other than a string. -/
def Lexeme.value (l : Lexeme) : LiteralKind → Value
  | .string => .int (.ofCode 0)
  | .char => .int (.ofCode (l.codePoints.headD 0))
  | .float => .float (Binary64.toSingle l.number)
  | .double => .double l.number
  | .integer size signed radix =>
    .int (.ofInt size.width signed (Int.ofNat (spelledNumber radix l.text.toList)))

end MiniC
