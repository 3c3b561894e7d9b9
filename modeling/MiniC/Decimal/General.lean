import MiniC.Decimal.Binary64

set_option autoImplicit false

/-! # Decimal text with a fixed number of significant digits

A number is written with at most six significant digits, the last of them rounded, without zeros
at its end. A number whose first digit stands more than four places after the point, or more than
six before it, is written with an exponent of at least two digits. -/

namespace MiniC.Decimal

/-- How numbers are written. -/
structure Format where
  /-- How many significant digits are written at most. -/
  digits : Nat
  /-- The least power of ten that is written without an exponent. -/
  leastPositional : Int
  /-- The least number of digits of an exponent. -/
  exponentDigits : Nat

/-- Six digits, from ten thousandths on without an exponent, and exponents of two digits. -/
def general : Format := ⟨6, -4, 2⟩

/-- A decimal number `digits * 10 ^ (exponent + 1 - length of digits)`: its digits, most significant
first, and the power of ten of the first of them. -/
structure Scaled where
  digits : List Char
  exponent : Int
deriving Repr

/-- The number of decimal digits of a natural number. -/
def digitCount (n : Nat) : Nat :=
  (Nat.toDigits 10 n).length

/-- The greatest power of ten that is at most `num / den`, where both are positive. -/
def magnitude (num den : Nat) : Int :=
  let guess : Int := Int.ofNat (digitCount num) - Int.ofNat (digitCount den)
  let reached :=
    if guess < 0 then den ≤ num * Nat.pow 10 (-guess).toNat else den * Nat.pow 10 guess.toNat ≤ num
  if reached then guess else guess - 1

/-- The number `num / den` rounded to `places` significant digits, a tie going to the even
neighbour. -/
def scale (places num den : Nat) : Scaled :=
  let exponent := magnitude num den
  let shift := exponent - (Int.ofNat places - 1)
  let n :=
    if shift < 0 then Binary64.roundDiv (num * Nat.pow 10 (-shift).toNat) den
    else Binary64.roundDiv num (den * Nat.pow 10 shift.toNat)
  if n = Nat.pow 10 places then ⟨Nat.toDigits 10 (Nat.pow 10 (places - 1)), exponent + 1⟩
  else ⟨Nat.toDigits 10 n, exponent⟩

/-- A sequence of digits without the zeros it ends with. -/
def dropTrailing (digits : List Char) : List Char :=
  (digits.reverse.dropWhile (· = '0')).reverse

/-- Digits after a point, or nothing where there are none. -/
def withPoint : List Char → List Char
  | [] => []
  | digits => '.' :: digits

/-- The digits of an exponent, at least `width` of them. -/
def exponentText (width : Nat) (n : Nat) : List Char :=
  let digits := Nat.toDigits 10 n
  List.replicate (width - digits.length) '0' ++ digits

/-- The text of a positive decimal number. -/
def Format.write (format : Format) (s : Scaled) : List Char :=
  let digits := dropTrailing s.digits
  if s.exponent < format.leastPositional || Int.ofNat format.digits ≤ s.exponent then
    let sign := if s.exponent < 0 then '-' else '+'
    digits.take 1 ++ withPoint (digits.drop 1)
      ++ 'e' :: sign :: exponentText format.exponentDigits s.exponent.natAbs
  else if s.exponent < 0 then
    '0' :: '.' :: List.replicate (s.exponent.natAbs - 1) '0' ++ digits
  else
    let wholeLength := s.exponent.toNat + 1
    digits.take wholeLength ++ List.replicate (wholeLength - digits.length) '0'
      ++ withPoint (digits.drop wholeLength)

/-- The text of a floating number in a format. -/
def Format.text (format : Format) (x : Float) : String :=
  let signed (negative : Bool) (cs : List Char) : String :=
    String.ofList (if negative then '-' :: cs else cs)
  match Binary64.exact x with
  | .nan => "nan"
  | .infinite negative => signed negative "inf".toList
  | .finite negative m e =>
    if m = 0 then signed negative ['0']
    else if e < 0 then signed negative (format.write (scale format.digits m (Nat.pow 2 (-e).toNat)))
    else signed negative (format.write (scale format.digits (m * Nat.pow 2 e.toNat) 1))

end MiniC.Decimal
