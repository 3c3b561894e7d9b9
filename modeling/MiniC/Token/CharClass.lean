set_option autoImplicit false

/-! # Classes of characters

The classes of characters that words are made of. They hold ASCII characters only: a letter of
another alphabet may stand in a quoted literal, a comment or a directive, and nowhere else. -/

namespace MiniC.CharClass

/-- A decimal digit. -/
def isDigit (c : Char) : Bool := '0' ≤ c && c ≤ '9'

/-- A binary digit. -/
def isBinary (c : Char) : Bool := c = '0' || c = '1'

/-- An octal digit. -/
def isOctal (c : Char) : Bool := '0' ≤ c && c ≤ '7'

/-- A hexadecimal digit, in either case. -/
def isHex (c : Char) : Bool :=
  ('0' ≤ c && c ≤ '9') || ('a' ≤ c && c ≤ 'f') || ('A' ≤ c && c ≤ 'F')

/-- A character that a name may begin with. -/
def isNameStart (c : Char) : Bool :=
  ('a' ≤ c && c ≤ 'z') || ('A' ≤ c && c ≤ 'Z') || c = '_'

/-- A character that a name may contain. -/
def isName (c : Char) : Bool := isNameStart c || isDigit c

/-- A character that separates words: space, tab, line feed, vertical tab, form feed and carriage
return. -/
def isSpace (c : Char) : Bool :=
  c = ' ' || c = '\t' || c = '\n' || c = '\x0b' || c = '\x0c' || c = '\r'

/-- A letter of an integer suffix. -/
def isSuffix (c : Char) : Bool := c = 'u' || c = 'U' || c = 'l' || c = 'L'

/-- Whether the first character of a text is in a class; an empty text is in none. -/
def startsWith (p : Char → Bool) : List Char → Bool
  | [] => false
  | c :: _ => p c

/-- A name character or a point: what must not follow a finished numeric literal. -/
def continuesNumber (c : Char) : Bool := isName c || c = '.'

end MiniC.CharClass
