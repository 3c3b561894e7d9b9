import MiniC.Source.Position

set_option autoImplicit false

/-! # Lexical errors

Why a text is not a sequence of lexemes, and where. -/

namespace MiniC

/-- What is wrong with a lexeme. -/
inductive LexicalCause
  | unknownSymbol (c : Char)
  | invalidPoint
  | unclosedComment
  | floatWithoutPoint
  | invalidNumber
  | invalidBinary
  | invalidHex
  | invalidSuffix
  | invalidOctal
  | invalidPointInNumber
  | invalidExponent
  | invalidFloat
  | endsWithPoint
  | endsWithExponent
  | unclosedQuote
  | emptyChar
  | invalidChar
  | invalidEscape
deriving DecidableEq, Repr

/-- The words of a lexical error. -/
def LexicalCause.message : LexicalCause → String
  | .unknownSymbol c => "Unknown symbol: " ++ c.toString
  | .invalidPoint => "Invalid point position."
  | .unclosedComment => "Unclosed block comment."
  | .floatWithoutPoint => "Can't define floating point literal without point."
  | .invalidNumber => "Invalid numeric literal."
  | .invalidBinary => "Invalid binary literal."
  | .invalidHex => "Invalid hex literal."
  | .invalidSuffix => "Invalid literal suffix."
  | .invalidOctal => "Invalid octal literal."
  | .invalidPointInNumber => "Invalid point position in number."
  | .invalidExponent => "Invalid exponent in number."
  | .invalidFloat => "Invalid float literal."
  | .endsWithPoint => "Float literal can't end with '.'."
  | .endsWithExponent => "Float literal can't end with 'e'."
  | .unclosedQuote => "Unclosed quote."
  | .emptyChar => "Empty char literal."
  | .invalidChar => "Invalid char literal."
  | .invalidEscape => "Invalid escape sequence."

/-- A lexical error and the position at which reading stopped. -/
structure LexicalError where
  cause : LexicalCause
  pos : Position
deriving DecidableEq, Repr

/-- A lexical error as it is shown. -/
def LexicalError.message (e : LexicalError) : String :=
  located e.cause.message (some e.pos)

end MiniC
