import MiniC.Token.Basic
import MiniC.Token.CharClass

set_option autoImplicit false

/-! # What literals spell

The code points that a quoted literal spells, and the number that an integer literal spells. Code
points are numbers here and not characters, because an escape sequence can name one that is no
character. -/

namespace MiniC

open CharClass

/-- The value of a digit in any radix up to sixteen. -/
def digitValue (c : Char) : Nat :=
  if isDigit c then c.toNat - '0'.toNat
  else if 'a' ≤ c && c ≤ 'f' then c.toNat - 'a'.toNat + 10
  else if 'A' ≤ c && c ≤ 'F' then c.toNat - 'A'.toNat + 10
  else 0

/-- The number that digits denote in a radix. -/
def ofDigits (radix : Nat) (digits : List Char) : Nat :=
  digits.foldl (fun n c => n * radix + digitValue c) 0

/-- The code point that an escape sequence denotes: `x` stands before a hexadecimal number, three
digits are an octal number, and the other letters have the meanings of the table. -/
def decodeEscape : List Char → Nat
  | '\\' :: 'x' :: digits => ofDigits 16 digits
  | ['\\', a, b, c] => ofDigits 8 [a, b, c]
  | ['\\', 'a'] => 7
  | ['\\', 'b'] => 8
  | ['\\', 'e'] => 27
  | ['\\', 'f'] => 12
  | ['\\', 'n'] => 10
  | ['\\', 'r'] => 13
  | ['\\', 't'] => 9
  | ['\\', 'v'] => 11
  | ['\\', '0'] => 0
  | ['\\', c] => c.toNat
  | _ => 0

/-- The code points that a part of a quoted literal contributes; its marks contribute none. -/
def Part.codePoints (p : Part) : List Nat :=
  match p.kind with
  | .escape => [decodeEscape p.text.toList]
  | .literal _ => p.text.toList.map Char.toNat
  | _ => []

/-- The code points that a quoted literal spells. -/
def Lexeme.codePoints (l : Lexeme) : List Nat :=
  l.parts.flatMap Part.codePoints

/-- The number that the text of an integer literal of the given radix spells. The radix mark and
the suffix are not part of the number. -/
def spelledNumber (radix : Radix) (text : List Char) : Nat :=
  let digits := text.takeWhile (!isSuffix ·)
  match radix with
  | .hex => ofDigits 16 (digits.drop 2)
  | .binary => ofDigits 2 (digits.drop 2)
  | .octal => ofDigits 8 digits
  | .decimal => ofDigits 10 digits

end MiniC
