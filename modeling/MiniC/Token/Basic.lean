import MiniC.Source.Position

set_option autoImplicit false

/-! # Tokens

The words of a source text. A lexeme is a word as it was read: its kind, its canonical text, the
position it begins at and, for a string or character literal, the parts it consists of. A token is
a lexeme with a number, which it shares with exactly the lexemes of the same text, so that later
phases compare names by number. -/

namespace MiniC

/-- The base in which an integer literal is written. -/
inductive Radix
  | binary
  | octal
  | decimal
  | hex
deriving DecidableEq, Repr, Inhabited

/-- The name of a radix in the name of a literal kind. -/
def Radix.word : Radix → String
  | .binary => "binary"
  | .octal => "octal"
  | .decimal => "decimal"
  | .hex => "hex"

/-- The size that the suffix of an integer literal asks for. -/
inductive LiteralSize
  | plain
  | long
  | longLong
deriving DecidableEq, Repr, Inhabited

/-- What kind of value a literal denotes. -/
inductive LiteralKind
  | string
  | char
  | float
  | double
  | integer (size : LiteralSize) (signed : Bool) (radix : Radix)
deriving DecidableEq, Repr, Inhabited

namespace LiteralKind

/-- The keyword that a literal's kind is named after. -/
def base : LiteralKind → String
  | .string => "string"
  | .char => "char"
  | .float => "float"
  | .double => "double"
  | .integer .plain _ _ => "int"
  | .integer _ _ _ => "long"

/-- Whether values of the kind have a sign. -/
def isSigned : LiteralKind → Bool
  | .integer _ signed _ => signed
  | _ => true

/-- Whether the literal asked for the size `long long`. -/
def isLongLong : LiteralKind → Bool
  | .integer .longLong _ _ => true
  | _ => false

/-- The radix of an integer literal. -/
def radix? : LiteralKind → Option Radix
  | .integer _ _ radix => some radix
  | _ => none

/-- A kind as it is displayed: its properties in words, the first of them capitalized. -/
def display (kind : LiteralKind) : String :=
  let words :=
    (if kind.isSigned then [] else ["unsigned"])
      ++ (if kind.isLongLong then ["long"] else [])
      ++ [kind.base]
      ++ (kind.radix?.map Radix.word).toList
      ++ ["literal"]
  (" ".intercalate words).capitalize

/-- The words of the type that a value of the kind has. -/
def typeWords : LiteralKind → List String
  | .string => ["char", "*"]
  | .char => ["char"]
  | .float => ["float"]
  | .double => ["double"]
  | .integer size signed _ =>
    (if signed then [] else ["unsigned"]) ++
      match size with
      | .plain => ["int"]
      | .long => ["long", "int"]
      | .longLong => ["long", "long", "int"]

end LiteralKind

/-- The kind of a lexeme or of a part of a quoted literal. -/
inductive TokenKind
  | punctuator
  | identifier
  | typeKeyword
  | keyword
  | escape
  | quotes
  | wideQuotes
  | quote
  | directive
  | literal (kind : LiteralKind)
deriving DecidableEq, Repr, Inhabited

namespace TokenKind

/-- A kind as it is displayed. -/
def display : TokenKind → String
  | .punctuator => "Punctuator"
  | .identifier => "Identifier"
  | .typeKeyword => "Type"
  | .keyword => "Keyword"
  | .escape => "Escape sequence"
  | .quotes => "Double quotes"
  | .wideQuotes => "Unicode double quotes"
  | .quote => "Quotes"
  | .directive => "Preprocessor directive"
  | .literal kind => kind.display

/-- Whether a kind is that of a literal. -/
def isLiteral : TokenKind → Bool
  | .literal _ => true
  | _ => false

/-- Whether a kind is that of the given display name and no literal. -/
def isNamed (name : String) (kind : TokenKind) : Bool :=
  !kind.isLiteral && kind.display = name

end TokenKind

/-- A part of a string or character literal: a quote mark, an escape sequence or plain text. -/
structure Part where
  kind : TokenKind
  text : String
  pos : Position
deriving DecidableEq, Repr, Inhabited

/-- A word of a source text. The text of a numeric literal is its canonical spelling; every other
text is spelled as in the source. Only string and character literals have parts. -/
structure Lexeme where
  kind : TokenKind
  text : String
  pos : Position
  parts : List Part
deriving DecidableEq, Repr, Inhabited

/-- A lexeme with the number that stands for its text. -/
structure Token extends Lexeme where
  id : Nat
deriving DecidableEq, Repr, Inhabited

namespace Token

/-- Whether a token is a literal. -/
def isLiteral (t : Token) : Bool :=
  t.kind.isLiteral

/-- Whether a token is an identifier. -/
def isIdentifier (t : Token) : Bool :=
  t.kind = .identifier

/-- Whether a token is the punctuator `text`. -/
def isPunctuator (text : String) (t : Token) : Bool :=
  t.kind = .punctuator && t.text = text

/-- Whether a token is the keyword `text`. -/
def isKeyword (text : String) (t : Token) : Bool :=
  t.kind = .keyword && t.text = text

/-- Whether a token is the type keyword `text`. -/
def isTypeKeyword (text : String) (t : Token) : Bool :=
  t.kind = .typeKeyword && t.text = text

end Token

end MiniC
